import Bilrost.Codec.ScalarTypes

/-!
Derived enumerations. A value is one of the variants, which are listed with the
expressions of their discriminants. The derived code matches on the variants in
one direction and on the discriminants in the other, and is not compiled unless
all arms of the match can be reached.
-/

namespace Bilrost

/-- The expression of a discriminant: its tokens, and the `u32` it stands for. -/
structure Discriminant where
  tokens : String
  value : BitVec 32

/-- `is_zero_discriminant`. Only a literal zero is recognized. -/
def Discriminant.isZeroDiscriminant (expr : Discriminant) : Bool := expr.tokens == "0"

/-- An enumeration that can be derived. -/
structure Enumeration where
  variants : List Discriminant
  /-- "Enumerations must have at least one variant" -/
  atLeastOne : variants ≠ []
  /-- `#[forbid(unreachable_patterns)]` -/
  reachable : (variants.map Discriminant.value).Nodup
  literal : ∀ expr ∈ variants, expr.tokens = "0" → expr.value = 0

namespace Enumeration

/-- The values of an enumeration are its variants. -/
abbrev Variant (e : Enumeration) : Type := Fin e.variants.length

variable (e : Enumeration)

/-- `to_number`. -/
def toNumber (variant : e.Variant) : BitVec 32 := (e.variants.get variant).value

/-- `try_from_number`. -/
def tryFromNumber (value : BitVec 32) : Except (BitVec 32) e.Variant :=
  match (List.finRange e.variants.length).find? fun variant => e.toNumber variant == value with
  | some variant => .ok variant
  | none => .error value

/-- `is_valid`. -/
def isValid (value : BitVec 32) : Bool := e.variants.any fun expr => expr.value == value

def zeroVariant : Option e.Variant :=
  (List.finRange e.variants.length).find? fun variant =>
    (e.variants.get variant).isZeroDiscriminant

def firstVariant : e.Variant := ⟨0, List.length_pos_iff.mpr e.atLeastOne⟩

/-- The encoding of an enumeration. Without a literal zero among its
discriminants it has no empty state. -/
def scalar : VarintScalar e.Variant where
  forOverwrite := e.zeroVariant.getD e.firstVariant
  emptyState := e.zeroVariant.map EmptyState.single
  toUint64 variant := (e.toNumber variant).toNat
  fromUint64 decoded :=
    match tryFrom 32 decoded with
    | .ok inRange =>
        match e.tryFromNumber inRange with
        | .ok typed => .ok typed
        | .error _ => .error .outOfDomainValue
    | .error _ => .error .outOfDomainValue

/-- `EnumerationHelper::help_set` for fields of type `u32`. -/
def helpSet (enumVal : e.Variant) : BitVec 32 := e.toNumber enumVal

/-- `EnumerationHelper::help_get`. -/
def helpGet (fieldVal : BitVec 32) : Except (BitVec 32) e.Variant := e.tryFromNumber fieldVal

variable {e} {variant variant' : e.Variant} {value : BitVec 32}

theorem toNumber_injective : Function.Injective e.toNumber := by
  intro variant variant' h
  have hlen (v : e.Variant) : v.1 < (e.variants.map Discriminant.value).length := by
    rw [List.length_map]
    exact v.2
  have hinj := List.nodup_iff_injective_get.mp e.reachable
  have heq := @hinj ⟨variant.1, hlen variant⟩ ⟨variant'.1, hlen variant'⟩ (by simpa [toNumber] using h)
  exact Fin.ext (Fin.mk.inj heq)

/-- The two directions are inverse to each other. -/
theorem tryFromNumber_eq_ok : e.tryFromNumber value = .ok variant ↔ e.toNumber variant = value := by
  unfold tryFromNumber
  cases hfind : (List.finRange e.variants.length).find? fun v => e.toNumber v == value with
  | none =>
      rw [List.find?_eq_none] at hfind
      have hne := hfind variant (List.mem_finRange variant)
      simp only [reduceCtorEq, false_iff]
      simpa using hne
  | some found =>
      have hfound : e.toNumber found = value := by simpa using List.find?_some hfind
      simp only [Except.ok.injEq]
      constructor
      · rintro rfl
        exact hfound
      · intro hvariant
        exact toNumber_injective (hfound.trans hvariant.symm)

/-- A number that is refused is handed back. -/
theorem tryFromNumber_eq_error {value' : BitVec 32} (h : e.tryFromNumber value = .error value') :
    value' = value := by
  unfold tryFromNumber at h
  split at h
  · cases h
  · exact (Except.error.inj h).symm

theorem isValid_iff : e.isValid value = true ↔ ∃ variant, e.tryFromNumber value = .ok variant := by
  simp only [tryFromNumber_eq_ok, isValid, List.any_eq_true, beq_iff_eq]
  constructor
  · rintro ⟨expr, hexpr, rfl⟩
    obtain ⟨variant, rfl⟩ := List.get_of_mem hexpr
    exact ⟨variant, rfl⟩
  · rintro ⟨variant, rfl⟩
    exact ⟨_, List.get_mem e.variants variant, rfl⟩

theorem fromUint64_eq_ok {decoded : Nat} : e.scalar.fromUint64 decoded = .ok variant ↔
    (e.toNumber variant).toNat = decoded := by
  constructor
  · intro h
    simp only [scalar] at h
    cases hrange : tryFrom 32 decoded with
    | error kind => simp [hrange] at h
    | ok inRange =>
        simp only [hrange] at h
        cases htyped : e.tryFromNumber inRange with
        | error number => simp [htyped] at h
        | ok typed =>
            obtain rfl : typed = variant := by simpa [htyped] using h
            rw [tryFromNumber_eq_ok.mp htyped]
            exact tryFrom_eq_ok hrange
  · rintro rfl
    simp only [scalar, tryFrom_toNat, tryFromNumber_eq_ok.mpr rfl]

theorem lawful_scalar (e : Enumeration) : e.scalar.Lawful where
  lt variant := (e.toNumber variant).isLt.trans (by decide)
  from_to variant := fromUint64_eq_ok.mpr rfl
  to_from h := fromUint64_eq_ok.mp h
  refuses decoded := by
    simp only [scalar, Refuses]
    split
    · split <;> simp
    · simp

/-- The empty variant is the one with the number zero. -/
theorem toNumber_of_mem_zeroVariant (h : variant ∈ e.zeroVariant) : e.toNumber variant = 0 := by
  have hzero := List.find?_some h
  apply e.literal _ (List.get_mem e.variants variant)
  simpa [Discriminant.isZeroDiscriminant] using hzero

end Enumeration

end Bilrost
