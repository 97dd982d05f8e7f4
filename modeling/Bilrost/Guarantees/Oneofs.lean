import Bilrost.Schema.OneofSplit
import Bilrost.Schema.Single

/-!
A oneof is a number of optional fields of which at most one is there. The
message with the oneof and the one with optional fields read the same bytes side
by side, up to the first field that would give a second variant.
-/

namespace Bilrost

open Program

namespace Fields

open MessageFieldsSorted

section
variable {M M' : Type} {F : Fields M} {k : F.Index} {oneof : Oneof (F.Ty k)}

/-- What the message in place has in a field that it shares. -/
def keptValue (view : M' ≃ ((s : F.Split k oneof) → F.splitTy k oneof s) × F.Ignored) (m' : M')
    (i : {i : F.Index // i ≠ k}) : F.Ty i.1 :=
  (view m').1 (.inl i)

/-- What it has in the field of a variant. -/
def variantValue (view : M' ≃ ((s : F.Split k oneof) → F.splitTy k oneof s) × F.Ignored) (m' : M')
    (j : Fin oneof.count) : Option (oneof.Ty j) :=
  (view m').1 (.inr j)

/-- No two variants are there. -/
def AtMostOne (view : M' ≃ ((s : F.Split k oneof) → F.splitTy k oneof s) × F.Ignored) (m' : M') :
    Prop :=
  ∀ j j', variantValue view m' j ≠ none → variantValue view m' j' ≠ none → j = j'

/-- Two messages have the same variant with the same value, and the same in all
other fields. -/
structure Corresponds (view : M' ≃ ((s : F.Split k oneof) → F.splitTy k oneof s) × F.Ignored)
    (m : M) (m' : M') : Prop where
  ignored : (view m').2 = (F.view m).2
  kept (i : {i : F.Index // i ≠ k}) : keptValue view m' i = F.get m i.1
  variant (j : Fin oneof.count) (v : oneof.Ty j) :
    variantValue view m' j = some v ↔ oneof.view (F.get m k) = some ⟨j, v⟩

variable {view : M' ≃ ((s : F.Split k oneof) → F.splitTy k oneof s) × F.Ignored} {m : M} {m' : M'}

theorem Corresponds.atMostOne (h : Corresponds view m m') : AtMostOne view m' := by
  intro j j' hj hj'
  obtain ⟨v, hv⟩ := Option.ne_none_iff_exists'.mp hj
  obtain ⟨v', hv'⟩ := Option.ne_none_iff_exists'.mp hj'
  have heq := ((h.variant j v).mp hv).symm.trans ((h.variant j' v').mp hv')
  exact (Sigma.mk.inj (Option.some.inj heq)).1

theorem Corresponds.currentTag_eq_none (h : Corresponds view m m') :
    oneof.currentTag (F.get m k) = none ↔ ∀ j, variantValue view m' j = none := by
  rw [Oneof.currentTag, Option.map_eq_none_iff]
  constructor
  · intro hnone j
    by_contra hne
    obtain ⟨v, hv⟩ := Option.ne_none_iff_exists'.mp hne
    have hview := (h.variant j v).mp hv
    rw [hnone] at hview
    cases hview
  · intro hnone
    cases hview : oneof.view (F.get m k) with
    | none => rfl
    | some v =>
        have hv := (h.variant v.1 v.2).mpr hview
        rw [hnone] at hv
        cases hv

/-- A field that both have is decoded. -/
theorem Corresponds.set_kept (h : Corresponds view m m') {i : F.Index} (hik : i ≠ k)
    {value : F.Ty i} {n' : M'}
    (hvalues : (view n').1 = Function.update (view m').1 (.inl ⟨i, hik⟩) value)
    (hignored : (view n').2 = (view m').2) :
    Corresponds view (F.set m i value) n' ∧
      ∀ j, variantValue view n' j = variantValue view m' j := by
  have hvariant (j : Fin oneof.count) : variantValue view n' j = variantValue view m' j := by
    rw [variantValue, hvalues]
    exact Function.update_of_ne Sum.inr_ne_inl _ _
  refine ⟨⟨?_, ?_, ?_⟩, hvariant⟩
  · rw [hignored, h.ignored, view_set]
  · intro i'
    rw [keptValue, hvalues]
    by_cases heq : i' = ⟨i, hik⟩
    · subst heq
      rw [get_set_self]
      exact Function.update_self ..
    · have hne : i'.1 ≠ i := fun hval => heq (Subtype.ext hval)
      rw [get_set_of_ne m hne]
      have hne' : (Sum.inl i' : F.Split k oneof) ≠ .inl ⟨i, hik⟩ :=
        fun hinl => heq (Sum.inl.inj hinl)
      exact (Function.update_of_ne hne' _ _).trans (h.kept i')
  · intro j v
    rw [hvariant, get_set_of_ne m hik.symm]
    exact h.variant j v

/-- A variant is decoded where there is none. -/
theorem Corresponds.set_variant (h : Corresponds view m m')
    (hnone : ∀ j, variantValue view m' j = none) {j : Fin oneof.count} {value : oneof.Ty j} {n' : M'}
    (hvalues : (view n').1 = Function.update (view m').1 (.inr j) (some value))
    (hignored : (view n').2 = (view m').2) :
    Corresponds view (F.set m k (oneof.construct j value)) n' := by
  have hself : variantValue view n' j = some value := by
    rw [variantValue, hvalues]
    exact Function.update_self ..
  constructor
  · rw [hignored, h.ignored, view_set]
  · intro i
    rw [keptValue, hvalues, get_set_of_ne m i.2]
    exact (Function.update_of_ne Sum.inl_ne_inr _ _).trans (h.kept i)
  · intro j' v
    rw [get_set_self, Oneof.construct, Equiv.apply_symm_apply]
    by_cases heq : j' = j
    · subst heq
      rw [hself]
      simp
    · have hother : variantValue view n' j' = none := by
        rw [variantValue, hvalues]
        have hne : (Sum.inr j' : F.Split k oneof) ≠ .inr j := fun hinr => heq (Sum.inr.inj hinr)
        exact (Function.update_of_ne hne _ _).trans (hnone j')
      rw [hother]
      simp only [reduceCtorEq, Option.some.injEq, Sigma.mk.injEq, false_iff, not_and]
      rintro rfl
      exact absurd rfl heq

/-- The variants that are there were read before, and the one before last. -/
def Tracked (view : M' ≃ ((s : F.Split k oneof) → F.splitTy k oneof s) × F.Ignored) (last : Nat)
    (lastTag : Option Nat) (m' : M') : Prop :=
  ∀ j, (variantValue view m' j ≠ none →
      oneof.tag j ≤ last ∧ (last = oneof.tag j → lastTag = some (oneof.tag j))) ∧
    (lastTag = some (oneof.tag j) → variantValue view m' j ≠ none)

theorem Tracked.after {last tag : Nat} {lastTag : Option Nat} {n' : M'}
    (h : Tracked view last lastTag m') (hle : last ≤ tag)
    (hself : ∀ j, oneof.tag j = tag → variantValue view n' j ≠ none)
    (hother : ∀ j, oneof.tag j ≠ tag → variantValue view n' j = variantValue view m' j) :
    Tracked view tag (some tag) n' := by
  intro j
  refine ⟨fun hj => ?_, fun hj => hself j (Option.some.inj hj).symm⟩
  by_cases htag : oneof.tag j = tag
  · exact ⟨htag.le, fun _ => by rw [htag]⟩
  · rw [hother j htag] at hj
    exact ⟨((h j).1 hj).1.trans hle, fun heq => absurd heq.symm htag⟩

/-- A variant that is there is not read again. -/
theorem Tracked.duplicated {last : Nat} {lastTag : Option Nat} (h : Tracked view last lastTag m')
    {j : Fin oneof.count} (hj : variantValue view m' j ≠ none) (hle : last ≤ oneof.tag j) :
    (lastTag == some (oneof.tag j)) = true := by
  obtain ⟨hpassed, hlast⟩ := (h j).1 hj
  rw [hlast (le_antisymm hle hpassed), beq_self_eq_true]

variable {count : Nat} {e : F.Split k oneof ≃ Fin count} {w : F.Writing}
  {w' : (F.split k oneof e view).Writing} {way : Way} {mode : DecodingMode} {depth last tag : Nat}
  {lastTag : Option Nat} {wireType : WireType} {bytes rest : Bytes}

theorem oneof_tag_mem (hk : F.field k = oneof.field) (j : Fin oneof.count) :
    oneof.tag j ∈ (F.field k).tags := by
  rw [hk]
  exact List.mem_map.mpr ⟨j, List.mem_finRange j, rfl⟩

theorem Sound.oneof_tags_nodup (h : F.Sound) (hk : F.field k = oneof.field) :
    oneof.tags.Nodup := by
  have hnodup := h.nodup k
  rw [hk] at hnodup
  exact hnodup

theorem Tracked.set_variant (htracked : Tracked view last lastTag m')
    (hnodup : oneof.tags.Nodup) {j : Fin oneof.count} (hle : last ≤ oneof.tag j)
    {value : oneof.Ty j} {n' : M'}
    (hvalues : (view n').1 = Function.update (view m').1 (.inr j) (some value)) :
    Tracked view (oneof.tag j) (some (oneof.tag j)) n' := by
  apply htracked.after hle
  · intro j' htag
    obtain rfl := List.inj_on_of_nodup_map hnodup (List.mem_finRange j') (List.mem_finRange j) htag
    rw [variantValue, hvalues]
    have hself := Function.update_self (Sum.inr j' : F.Split k oneof) (some value) (view m').1
    rw [hself]
    exact Option.some_ne_none value
  · intro j' htag
    have hne : (Sum.inr j' : F.Split k oneof) ≠ .inr j := by
      intro hinr
      rw [Sum.inr.inj hinr] at htag
      exact htag rfl
    rw [variantValue, hvalues]
    exact Function.update_of_ne hne _ _

/-- A variant in the field of a oneof that has none. -/
theorem parses_variant (h : F.Sound) (hk : F.field k = oneof.field) {dup : Bool}
    (hnone : oneof.currentTag (F.get m k) = none) {j : Fin oneof.count}
    {x : F.Ty k × Canonicity} :
    ((F.field k).decodeBy way mode depth (oneof.tag j) wireType dup (F.get m k)).Parses bytes x
        rest ↔
      ∃ decoded, ((oneof.codec j).decodeFieldBy way mode true depth wireType
        (oneof.codec j).forOverwrite).Parses bytes decoded rest ∧
          x = (oneof.construct j decoded.1, decoded.2) := by
  rw [hk, oneof.field_decodeBy, hnone, Oneof.variant_tag (h.oneof_tags_nodup hk)]
  simp only [parses_bind, parses_done]
  constructor
  · rintro ⟨decoded, mid, hdecoded, rfl, rfl⟩
    exact ⟨decoded, hdecoded, rfl⟩
  · rintro ⟨decoded, hdecoded, rfl⟩
    exact ⟨decoded, rest, hdecoded, rfl, rfl⟩

/-- The optional field in its place, before it was read. -/
theorem parses_optional_variant {j : Fin oneof.count} {value : Option (oneof.Ty j)}
    (hnone : value = none) {x : Option (oneof.Ty j) × Canonicity} :
    (((oneof.codec j).optional.tagged (oneof.tag j)).decodeBy way mode depth (oneof.tag j) wireType
        false value).Parses bytes x rest ↔
      ∃ decoded, ((oneof.codec j).decodeFieldBy way mode true depth wireType
        (oneof.codec j).forOverwrite).Parses bytes decoded rest ∧
          x = (some decoded.1, decoded.2) := by
  subst hnone
  rw [FieldCodec.tagged_decodeBy]
  simp only [Bool.false_eq_true, ↓reduceIte, ValueCodec.optional_decodeBy, Option.getD_none,
    parses_bind, parses_done]
  constructor
  · rintro ⟨decoded, mid, hdecoded, rfl, rfl⟩
    exact ⟨decoded, hdecoded, rfl⟩
  · rintro ⟨decoded, hdecoded, rfl⟩
    exact ⟨decoded, rest, hdecoded, rfl, rfl⟩

theorem not_parses_optional_variant {j : Fin oneof.count} {value : Option (oneof.Ty j)}
    {x : Option (oneof.Ty j) × Canonicity} :
    ¬(((oneof.codec j).optional.tagged (oneof.tag j)).decodeBy way mode depth (oneof.tag j) wireType
        true value).Parses bytes x rest := by
  rw [FieldCodec.tagged_decodeBy]
  simp

theorem parses_optional_ne_none {j : Fin oneof.count} {dup : Bool} {value : Option (oneof.Ty j)}
    {x : Option (oneof.Ty j) × Canonicity}
    (hparse : (((oneof.codec j).optional.tagged (oneof.tag j)).decodeBy way mode depth tag wireType
      dup value).Parses bytes x rest) : x.1 ≠ none := by
  rw [FieldCodec.tagged_decodeBy] at hparse
  split_ifs at hparse
  · exact (parses_error.mp hparse).elim
  · simp only [ValueCodec.optional_decodeBy, parses_bind, parses_done] at hparse
    obtain ⟨decoded, mid, -, rfl, -⟩ := hparse
    exact Option.some_ne_none _

/-- What the message with the oneof reads, the other reads as well. -/
theorem Corresponds.forward (hcorr : Corresponds view m m') (h : F.Sound)
    (hk : F.field k = oneof.field) (htracked : Tracked view last lastTag m') (hle : last ≤ tag)
    {x : M × Canonicity}
    (hparse : ((F.message w).fieldBy way mode depth tag wireType (lastTag == some tag) m).Parses
      bytes x rest) :
    ∃ n', (((F.split k oneof e view).message w').fieldBy way mode depth tag wireType
        (lastTag == some tag) m').Parses bytes (n', x.2) rest ∧
      Corresponds view x.1 n' ∧ Tracked view tag (some tag) n' := by
  cases hfieldOf : F.fieldOf tag with
  | none =>
      obtain ⟨hskip, rfl⟩ := (parses_fieldBy_unknown hfieldOf).mp hparse
      refine ⟨m', ?_, hcorr, htracked.after hle (fun j htag => ?_) fun _ _ => rfl⟩
      · exact (parses_fieldBy_unknown ((split_fieldOf_eq_none hk).mpr hfieldOf)).mpr ⟨hskip, rfl⟩
      · exact absurd (htag ▸ oneof_tag_mem hk j) (fieldOf_eq_none.mp hfieldOf k)
  | some i =>
      have htag := h.fieldOf_eq_some.mp hfieldOf
      obtain ⟨decoded, hdecoded, rfl⟩ := (parses_fieldBy hfieldOf).mp hparse
      by_cases hik : i = k
      · subst hik
        -- a variant, which is read only if there was none
        have htags := htag
        rw [hk] at htags
        obtain ⟨j, -, rfl⟩ := List.mem_map.mp htags
        cases hcurrent : oneof.currentTag (F.get m i) with
        | some current =>
            rw [hk, oneof.field_decodeBy, hcurrent] at hdecoded
            exact (parses_error.mp hdecoded).elim
        | none =>
            have hnone := hcorr.currentTag_eq_none.mp hcurrent
            have hdup : (lastTag == some (oneof.tag j)) = false := by
              by_contra hdup
              rw [Bool.not_eq_false, beq_iff_eq] at hdup
              exact (htracked j).2 hdup (hnone j)
            rw [hdup] at hdecoded ⊢
            obtain ⟨value, hvalue, rfl⟩ := (parses_variant h hk hcurrent).mp hdecoded
            obtain ⟨n', hn'⟩ := view.surjective
              (Function.update (view m').1 (.inr j) (some value.1), (view m').2)
            obtain ⟨hvalues, hignored⟩ := Prod.ext_iff.mp hn'
            refine ⟨n', ?_, hcorr.set_variant hnone hvalues hignored,
              htracked.set_variant (h.oneof_tags_nodup hk) hle hvalues⟩
            refine (h.parses_split hk (.inr j) (List.mem_singleton_self _)).mpr
              ⟨(some value.1, value.2), ?_, hvalues, hignored, rfl⟩
            exact (parses_optional_variant (hnone j)).mpr ⟨value, hvalue, rfl⟩
      · obtain ⟨n', hn'⟩ := view.surjective
          (Function.update (view m').1 (.inl ⟨i, hik⟩) decoded.1, (view m').2)
        obtain ⟨hvalues, hignored⟩ := Prod.ext_iff.mp hn'
        obtain ⟨hset, hvariant⟩ := hcorr.set_kept hik hvalues hignored
        refine ⟨n', ?_, hset, htracked.after hle (fun j heq => ?_) fun j _ => hvariant j⟩
        · refine (h.parses_split hk (.inl ⟨i, hik⟩) htag).mpr
            ⟨decoded, ?_, hvalues, hignored, rfl⟩
          have hkept : (view m').1 (.inl ⟨i, hik⟩) = F.get m i := hcorr.kept ⟨i, hik⟩
          rw [hkept]
          exact hdecoded
        · exact absurd (h.eq_of_mem htag (heq ▸ oneof_tag_mem hk j)) hik

/-- What the message with optional fields reads, the other reads as well, unless
it is a second variant. -/
theorem Corresponds.backward (hcorr : Corresponds view m m') (h : F.Sound)
    (hk : F.field k = oneof.field) (htracked : Tracked view last lastTag m') (hle : last ≤ tag)
    {x' : M' × Canonicity}
    (hparse : (((F.split k oneof e view).message w').fieldBy way mode depth tag wireType
      (lastTag == some tag) m').Parses bytes x' rest) (hone : AtMostOne view x'.1) :
    ∃ n, ((F.message w).fieldBy way mode depth tag wireType (lastTag == some tag) m).Parses
        bytes (n, x'.2) rest ∧
      Corresponds view n x'.1 ∧ Tracked view tag (some tag) x'.1 := by
  cases hfieldOf : F.fieldOf tag with
  | none =>
      obtain ⟨hskip, rfl⟩ :=
        (parses_fieldBy_unknown ((split_fieldOf_eq_none hk).mpr hfieldOf)).mp hparse
      refine ⟨m, ?_, hcorr, htracked.after hle (fun j htag => ?_) fun _ _ => rfl⟩
      · exact (parses_fieldBy_unknown hfieldOf).mpr ⟨hskip, rfl⟩
      · exact absurd (htag ▸ oneof_tag_mem hk j) (fieldOf_eq_none.mp hfieldOf k)
  | some i =>
      have htag := h.fieldOf_eq_some.mp hfieldOf
      by_cases hik : i = k
      · subst hik
        have htags := htag
        rw [hk] at htags
        obtain ⟨j, -, rfl⟩ := List.mem_map.mp htags
        obtain ⟨decoded, hdecoded, hvalues, hignored, hcanon⟩ :=
          (h.parses_split hk (.inr j) (List.mem_singleton_self _)).mp hparse
        have hdup : (lastTag == some (oneof.tag j)) = false := by
          by_contra hdup
          rw [Bool.not_eq_false] at hdup
          rw [hdup] at hdecoded
          exact not_parses_optional_variant hdecoded
        have hj : variantValue view m' j = none := by
          by_contra hj
          rw [htracked.duplicated hj hle] at hdup
          cases hdup
        rw [hdup] at hdecoded ⊢
        obtain ⟨value, hvalue, rfl⟩ := (parses_optional_variant hj).mp hdecoded
        -- another variant would be a second one
        have hnone : ∀ j', variantValue view m' j' = none := by
          intro j'
          by_contra hj'
          have hne : (Sum.inr j' : F.Split i oneof) ≠ .inr j := by
            intro hinr
            rw [Sum.inr.inj hinr] at hj'
            exact hj' hj
          have hthere : variantValue view x'.1 j' ≠ none := by
            rw [variantValue, hvalues]
            exact (Function.update_of_ne hne _ _).trans_ne hj'
          have hself : variantValue view x'.1 j ≠ none := by
            rw [variantValue, hvalues]
            exact (Function.update_self (Sum.inr j : F.Split i oneof) _ _).trans_ne
              (Option.some_ne_none value.1)
          exact hne (congrArg Sum.inr (hone j' j hthere hself))
        refine ⟨F.set m i (oneof.construct j value.1), ?_, hcorr.set_variant hnone hvalues hignored,
          htracked.set_variant (h.oneof_tags_nodup hk) hle hvalues⟩
        have hcurrent := hcorr.currentTag_eq_none.mpr hnone
        refine (parses_fieldBy hfieldOf).mpr ⟨(oneof.construct j value.1, value.2), ?_, ?_⟩
        · exact (parses_variant h hk hcurrent).mpr ⟨value, hvalue, rfl⟩
        · exact Prod.ext rfl hcanon
      · obtain ⟨decoded, hdecoded, hvalues, hignored, hcanon⟩ :=
          (h.parses_split hk (.inl ⟨i, hik⟩) htag).mp hparse
        obtain ⟨hset, hvariant⟩ := hcorr.set_kept hik hvalues hignored
        refine ⟨F.set m i decoded.1, ?_, hset,
          htracked.after hle (fun j heq => ?_) fun j _ => hvariant j⟩
        · refine (parses_fieldBy hfieldOf).mpr ⟨decoded, ?_, Prod.ext rfl hcanon⟩
          have hkept : (view m').1 (.inl ⟨i, hik⟩) = F.get m i := hcorr.kept ⟨i, hik⟩
          rw [hkept] at hdecoded
          exact hdecoded
        · exact absurd (h.eq_of_mem htag (heq ▸ oneof_tag_mem hk j)) hik

/-- The two loops are at the same field, with messages that correspond. -/
structure Beside (view : M' ≃ ((s : F.Split k oneof) → F.splitTy k oneof s) × F.Ignored)
    (pos : Position (M × Canonicity)) (pos' : Position (M' × Canonicity)) : Prop where
  last : pos.last = pos'.last
  lastTag : pos.lastTag = pos'.lastTag
  rest : pos.rest = pos'.rest
  canon : pos.state.2 = pos'.state.2
  corresponds : Corresponds view pos.state.1 pos'.state.1
  tracked : Tracked view pos.last pos.lastTag pos'.state.1

theorem Beside.forward {pos final : Position (M × Canonicity)} {pos' : Position (M' × Canonicity)}
    {records : List Record} (hbeside : Beside view pos pos') (h : F.Sound)
    (hk : F.field k = oneof.field)
    (hreading : Reading ((F.message w).stepBy way mode depth) pos records final) :
    ∃ final', Reading (((F.split k oneof e view).message w').stepBy way mode depth) pos' records
      final' ∧ Beside view final final' := by
  induction hreading generalizing pos' with
  | nil => exact ⟨pos', .nil, hbeside⟩
  | @cons _ tag _ _ s _ _ rest _ _ hle htag hfield _ ih =>
      obtain ⟨last', lastTag', ⟨m', canon'⟩, rest'⟩ := pos'
      obtain ⟨rfl, rfl, rfl, rfl, hcorr, htracked⟩ := hbeside
      obtain ⟨decoded, hdecoded, rfl⟩ := MessageCodec.parses_stepBy.mp hfield
      obtain ⟨n', hn', hcorr', htracked'⟩ := hcorr.forward h hk htracked hle hdecoded
      have hnext : Beside view ⟨tag, some tag, (decoded.1, s.2.update decoded.2), rest⟩
          ⟨tag, some tag, (n', s.2.update decoded.2), rest⟩ :=
        ⟨rfl, rfl, rfl, rfl, hcorr', htracked'⟩
      obtain ⟨final', hfinal, hbeside'⟩ := ih hnext
      exact ⟨final', .cons hle htag (MessageCodec.parses_stepBy.mpr ⟨_, hn', rfl⟩) hfinal, hbeside'⟩

/-- An optional field that is there stays there. -/
theorem variant_stays {pos' final' : Position (M' × Canonicity)} {records : List Record}
    (h : F.Sound) (hk : F.field k = oneof.field)
    (hreading : Reading (((F.split k oneof e view).message w').stepBy way mode depth) pos' records
      final') {j : Fin oneof.count} (hj : variantValue view pos'.state.1 j ≠ none) :
    variantValue view final'.state.1 j ≠ none := by
  induction hreading with
  | nil => exact hj
  | @cons last tag _ _ s s' _ _ _ _ _ _ hfield _ ih =>
      apply ih
      obtain ⟨decoded, hdecoded, rfl⟩ := MessageCodec.parses_stepBy.mp hfield
      cases hfieldOf : (F.split k oneof e view).fieldOf tag with
      | none =>
          obtain ⟨-, rfl⟩ := (parses_fieldBy_unknown hfieldOf).mp hdecoded
          exact hj
      | some y =>
          have htag : tag ∈ (F.splitField k oneof (e.symm y)).tags :=
            (h.split hk).fieldOf_eq_some.mp hfieldOf
          generalize e.symm y = t at htag
          obtain ⟨value, hvalue, hvalues, -, -⟩ := (h.parses_split hk t htag).mp hdecoded
          rw [variantValue, hvalues]
          cases t with
          | inl i => exact (Function.update_of_ne Sum.inr_ne_inl _ _).trans_ne hj
          | inr j' =>
              by_cases hne : j = j'
              · subst hne
                exact (Function.update_self (Sum.inr j : F.Split k oneof) _ _).trans_ne
                  (parses_optional_ne_none hvalue)
              · have hne' : (Sum.inr j : F.Split k oneof) ≠ .inr j' :=
                  fun hinr => hne (Sum.inr.inj hinr)
                exact (Function.update_of_ne hne' _ _).trans_ne hj

theorem Beside.backward {pos : Position (M × Canonicity)} {pos' final' : Position (M' × Canonicity)}
    {records : List Record} (hbeside : Beside view pos pos') (h : F.Sound)
    (hk : F.field k = oneof.field)
    (hreading : Reading (((F.split k oneof e view).message w').stepBy way mode depth) pos' records
      final') (hone : AtMostOne view final'.state.1) :
    ∃ final, Reading ((F.message w).stepBy way mode depth) pos records final ∧
      Beside view final final' := by
  induction hreading generalizing pos with
  | nil => exact ⟨pos, .nil, hbeside⟩
  | @cons _ tag _ _ s _ _ rest _ _ hle htag hfield hmore ih =>
      obtain ⟨last, lastTag, ⟨m, canon⟩, bytes⟩ := pos
      obtain ⟨hlast, hlastTag, hrest, hcanon, hcorr, htracked⟩ := hbeside
      dsimp only at hlast hlastTag hrest hcanon hcorr htracked
      subst hlast hlastTag hrest hcanon
      obtain ⟨decoded, hdecoded, rfl⟩ := MessageCodec.parses_stepBy.mp hfield
      have hone' : AtMostOne view decoded.1 := fun j j' hj hj' =>
        hone j j' (variant_stays h hk hmore hj) (variant_stays h hk hmore hj')
      obtain ⟨n, hn, hcorr', htracked'⟩ := hcorr.backward h hk htracked hle hdecoded hone'
      have hnext : Beside view ⟨tag, some tag, (n, s.2.update decoded.2), rest⟩
          ⟨tag, some tag, (decoded.1, s.2.update decoded.2), rest⟩ :=
        ⟨rfl, rfl, rfl, rfl, hcorr', htracked'⟩
      obtain ⟨final, hfinal, hbeside'⟩ := ih hnext hone
      exact ⟨final, .cons hle htag (MessageCodec.parses_stepBy.mpr ⟨_, hn, rfl⟩) hfinal, hbeside'⟩

/-- The field that is written in place of one that is. -/
def images (e : F.Split k oneof ≃ Fin count)
    (view : M' ≃ ((s : F.Split k oneof) → F.splitTy k oneof s) × F.Ignored) (m : M) (i : F.Index) :
    List (F.split k oneof e view).Index :=
  if hik : i = k then
    match oneof.view (F.get m k) with
    | some v => [e (.inr v.1)]
    | none => []
  else [e (.inl ⟨i, hik⟩)]

theorem images_kept (m : M) (i : {i : F.Index // i ≠ k}) :
    images e view m i.1 = [e (.inl i)] :=
  dif_neg i.2

theorem images_variant {v : (j : Fin oneof.count) × oneof.Ty j}
    (hview : oneof.view (F.get m k) = some v) : images e view m k = [e (.inr v.1)] := by
  rw [images, dif_pos rfl, hview]
  rfl

theorem split_currentTag (m' : M') (s : F.Split k oneof) :
    (F.split k oneof e view).currentTag m' (e s) =
      (F.splitField k oneof s).currentTag ((view m').1 s) := by
  have hat (t : F.Split k oneof) (ht : t = s) :
      (F.splitField k oneof t).currentTag ((view m').1 t) =
        (F.splitField k oneof s).currentTag ((view m').1 s) := by
    rw [ht]
  exact hat _ (e.symm_apply_apply s)

theorem split_encode (m' : M') (s : F.Split k oneof) (tw : TagWriter) :
    ((F.split k oneof e view).field (e s)).encode ((F.split k oneof e view).get m' (e s)) tw =
      (F.splitField k oneof s).encode ((view m').1 s) tw := by
  have hat (t : F.Split k oneof) (ht : t = s) :
      (F.splitField k oneof t).encode ((view m').1 t) tw =
        (F.splitField k oneof s).encode ((view m').1 s) tw := by
    rw [ht]
  exact hat _ (e.symm_apply_apply s)

/-- A field that is written has one in its place, with the same tag and the same
bytes. -/
theorem Corresponds.images (hcorr : Corresponds view m m') (hk : F.field k = oneof.field)
    {i : F.Index} (hi : (F.currentTag m i).isSome) : ∃ x, Fields.images e view m i = [x] ∧
      (F.split k oneof e view).currentTag m' x = F.currentTag m i ∧
      ∀ tw, ((F.split k oneof e view).field x).encode ((F.split k oneof e view).get m' x) tw =
        (F.field i).encode (F.get m i) tw := by
  by_cases hik : i = k
  · subst hik
    rw [currentTag, hk] at hi
    obtain ⟨v, hv⟩ : ∃ v, oneof.view (F.get m i) = some v := by
      cases hview : oneof.view (F.get m i) with
      | none => simp [Oneof.field, Oneof.currentTag, hview] at hi
      | some v => exact ⟨v, rfl⟩
    have hvalue : (view m').1 (.inr v.1) = some v.2 := (hcorr.variant v.1 v.2).mpr hv
    refine ⟨e (.inr v.1), images_variant hv, ?_, fun tw => ?_⟩
    · rw [split_currentTag, hvalue, currentTag, hk]
      simp [splitField, FieldCodec.tagged, ValueCodec.optional, Oneof.field, Oneof.currentTag, hv]
    · rw [split_encode, hvalue, hk]
      simp only [splitField, FieldCodec.tagged, ValueCodec.optional, Oneof.field, hv]
  · have hvalue : (view m').1 (.inl ⟨i, hik⟩) = F.get m i := hcorr.kept ⟨i, hik⟩
    refine ⟨e (.inl ⟨i, hik⟩), images_kept m ⟨i, hik⟩, ?_, fun tw => ?_⟩
    · rw [split_currentTag, hvalue]
      rfl
    · rw [split_encode, hvalue]
      rfl

/-- Each field that is written is in the place of one. -/
theorem Corresponds.mem_images (hcorr : Corresponds view m m') (hk : F.field k = oneof.field)
    {x : (F.split k oneof e view).Index}
    (hx : ((F.split k oneof e view).currentTag m' x).isSome) :
    ∃ i, (F.currentTag m i).isSome ∧ x ∈ Fields.images e view m i := by
  obtain ⟨s, rfl⟩ := e.surjective x
  rw [split_currentTag] at hx
  cases s with
  | inl i =>
      have hvalue : (view m').1 (.inl i) = F.get m i.1 := hcorr.kept i
      rw [hvalue] at hx
      refine ⟨i.1, hx, ?_⟩
      rw [images_kept]
      exact List.mem_singleton_self _
  | inr j =>
      have hne : variantValue view m' j ≠ none := by
        intro hnone
        rw [variantValue] at hnone
        rw [hnone] at hx
        simp [splitField, FieldCodec.tagged, ValueCodec.optional] at hx
      obtain ⟨v, hv⟩ := Option.ne_none_iff_exists'.mp hne
      have hview := (hcorr.variant j v).mp hv
      refine ⟨k, ?_, ?_⟩
      · rw [currentTag, hk]
        simp [Oneof.field, Oneof.currentTag, hview]
      · rw [images_variant hview]
        exact List.mem_singleton_self _

theorem Corresponds.encodeIn_images (hcorr : Corresponds view m m') (hk : F.field k = oneof.field)
    {order : List F.Index} (horder : ∀ i ∈ order, (F.currentTag m i).isSome) (tw : TagWriter) :
    F.encodeIn m order tw =
      (F.split k oneof e view).encodeIn m' (order.flatMap (Fields.images e view m)) tw := by
  induction order generalizing tw with
  | nil => rfl
  | cons i order ih =>
      rw [List.forall_mem_cons] at horder
      obtain ⟨x, himages, -, hencode⟩ := hcorr.images (e := e) hk horder.1
      have hcons : (i :: order).flatMap (Fields.images e view m) =
          x :: order.flatMap (Fields.images e view m) := by
        rw [List.flatMap_cons, himages]
        rfl
      rw [hcons, encodeIn, encodeIn, hencode]
      simp only [ih horder.2]

/-- The fields are written in the same order, that of their tags. -/
theorem Corresponds.forward_images (hcorr : Corresponds view m m') (h : F.Sound)
    (hk : F.field k = oneof.field) (hw : w.Standard) (hw' : w'.Standard)
    (hspeaks : ∀ i, (F.field i).Speaks) :
    (w'.forward m').filter (fun x => ((F.split k oneof e view).currentTag m' x).isSome) =
      ((w.forward m).filter fun i => (F.currentTag m i).isSome).flatMap (Fields.images e view m) := by
  have hvalid : ∀ i, ∀ tag ∈ F.currentTag m i, tag ∈ (F.field i).tags :=
    fun i _ htag => (hspeaks i).valid htag
  have hvalid' : ∀ x, ∀ tag ∈ (F.split k oneof e view).currentTag m' x,
      tag ∈ ((F.split k oneof e view).field x).tags := fun x _ htag => (split_speaks hspeaks x).valid htag
  have hemits := (hw.emits h hvalid).1
  have hemits' := (hw'.emits (h.split hk) hvalid').1
  have hvisited (i : F.Index) : i ∈ (w.forward m).filter (fun i => (F.currentTag m i).isSome) ↔
      (F.currentTag m i).isSome := by
    rw [(hw.visits h).mem_iff, List.mem_filter]
    exact ⟨fun hi => hi.2, fun hi => ⟨List.mem_finRange i, hi⟩⟩
  have hvisited' (x : (F.split k oneof e view).Index) :
      x ∈ (w'.forward m').filter
          (fun x => ((F.split k oneof e view).currentTag m' x).isSome) ↔
        ((F.split k oneof e view).currentTag m' x).isSome := by
    rw [(hw'.visits (h.split hk)).mem_iff, List.mem_filter]
    exact ⟨fun hx => hx.2, fun hx => ⟨List.mem_finRange x, hx⟩⟩
  have hpair {i : F.Index} (hi : (F.currentTag m i).isSome) {x : (F.split k oneof e view).Index}
      (hx : x ∈ Fields.images e view m i) :
      (F.split k oneof e view).currentTag m' x = F.currentTag m i := by
    obtain ⟨y, himages, hcurrent, -⟩ := hcorr.images (e := e) hk hi
    rw [himages] at hx
    rw [List.mem_singleton.mp hx]
    exact hcurrent
  refine eq_of_emitsBefore (hemits'.filter _) ?_ (fun x hx => (hvisited' x).mp hx) fun x => ?_
  · rw [List.pairwise_flatMap]
    constructor
    · intro i hi
      obtain ⟨x, himages, -, -⟩ := hcorr.images (e := e) hk ((hvisited i).mp hi)
      rw [himages]
      exact List.pairwise_singleton _ _
    · refine (hemits.filter _).imp_of_mem fun {i i'} hi hi' hlt x hx x' hx' => ?_
      unfold EmitsBefore at hlt ⊢
      rw [hpair ((hvisited i).mp hi) hx, hpair ((hvisited i').mp hi') hx']
      exact hlt
  · rw [hvisited', List.mem_flatMap]
    constructor
    · intro hx
      obtain ⟨i, hi, hmem⟩ := hcorr.mem_images hk hx
      exact ⟨i, (hvisited i).mpr hi, hmem⟩
    · rintro ⟨i, hi, hx⟩
      have hi := (hvisited i).mp hi
      rw [hpair hi hx]
      exact hi

/-- Messages that correspond are encoded to the same bytes. -/
theorem Corresponds.rawEncode (hcorr : Corresponds view m m') (h : F.Sound)
    (hk : F.field k = oneof.field) (hw : w.Standard) (hw' : w'.Standard)
    (hspeaks : ∀ i, (F.field i).Speaks) :
    (F.message w).rawEncode m = ((F.split k oneof e view).message w').rawEncode m' := by
  have hwritten : ∀ i ∈ (w.forward m).filter fun i => (F.currentTag m i).isSome,
      (F.currentTag m i).isSome := fun i hi => (List.mem_filter.mp hi).2
  have hencode : F.encodeIn m (w.forward m) TagWriter.new =
      (F.split k oneof e view).encodeIn m' (w'.forward m') TagWriter.new := by
    rw [encodeIn_filter hspeaks, encodeIn_filter (split_speaks hspeaks),
      hcorr.forward_images h hk hw hw' hspeaks]
    exact hcorr.encodeIn_images hk hwritten _
  simp only [message, hencode]

theorem corresponds_empty (hk : F.field k = oneof.field) :
    Corresponds view (F.message w).empty ((F.split k oneof e view).message w').empty := by
  have hvalue (s : F.Split k oneof) :
      (view ((F.split k oneof e view).message w').empty).1 s = (F.splitField k oneof s).empty := by
    obtain ⟨x, rfl⟩ := e.symm.surjective s
    exact (F.split k oneof e view).get_empty w' x
  have hview := (F.split k oneof e view).view.apply_symm_apply
    (fun x => ((F.split k oneof e view).field x).empty, (F.split k oneof e view).ignoredDefault)
  constructor
  · have hignored : (F.view (F.message w).empty).2 = F.ignoredDefault := by
      simp [message]
    rw [hignored]
    exact (Prod.ext_iff.mp hview).2
  · intro i
    rw [get_empty]
    exact hvalue (.inl i)
  · intro j v
    have hnone : variantValue view ((F.split k oneof e view).message w').empty j = none :=
      hvalue (.inr j)
    rw [hnone, get_empty, hk]
    simp [Oneof.field]

theorem beside_empty (hk : F.field k = oneof.field) (canon : Canonicity) (bytes : Bytes) :
    Beside view ⟨0, none, ((F.message w).empty, canon), bytes⟩
      ⟨0, none, (((F.split k oneof e view).message w').empty, canon), bytes⟩ := by
  have hcorr : Corresponds view (F.message w).empty ((F.split k oneof e view).message w').empty :=
    corresponds_empty hk
  refine ⟨rfl, rfl, rfl, rfl, hcorr, fun j => ⟨fun hj => absurd ?_ hj, fun hj => by cases hj⟩⟩
  apply hcorr.currentTag_eq_none.mp
  rw [get_empty, hk]
  simp [Oneof.field, Oneof.currentTag]

/-- The variant of a oneof is the one that was read. -/
theorem currentTag_of_reading (h : F.Sound) (hk : F.field k = oneof.field)
    {pos final : Position (M × Canonicity)} {records : List Record}
    (hreading : Reading ((F.message w).stepBy way mode depth) pos records final)
    (j : Fin oneof.count) :
    oneof.currentTag (F.get final.state.1 k) = some (oneof.tag j) ↔
      oneof.currentTag (F.get pos.state.1 k) = some (oneof.tag j) ∨
        ∃ r ∈ records, r.tag = oneof.tag j := by
  induction hreading with
  | nil => simp
  | @cons last tag lastTag wireType s s' _ _ _ _ _ _ hfield _ ih =>
      rw [ih, List.exists_mem_cons_iff]
      obtain ⟨decoded, hdecoded, rfl⟩ := MessageCodec.parses_stepBy.mp hfield
      cases hfieldOf : F.fieldOf tag with
      | none =>
          obtain ⟨-, rfl⟩ := (parses_fieldBy_unknown hfieldOf).mp hdecoded
          have hne : tag ≠ oneof.tag j := fun htag =>
            fieldOf_eq_none.mp hfieldOf k (htag ▸ oneof_tag_mem hk j)
          simp [hne]
      | some i =>
          have htag := h.fieldOf_eq_some.mp hfieldOf
          obtain ⟨value, hvalue, rfl⟩ := (parses_fieldBy hfieldOf).mp hdecoded
          by_cases hik : i = k
          · subst hik
            have htags := htag
            rw [hk] at htags
            obtain ⟨j', -, rfl⟩ := List.mem_map.mp htags
            cases hcurrent : oneof.currentTag (F.get s.1 i) with
            | some current =>
                rw [hk, oneof.field_decodeBy, hcurrent] at hvalue
                exact (parses_error.mp hvalue).elim
            | none =>
                obtain ⟨inner, -, rfl⟩ := (parses_variant h hk hcurrent).mp hvalue
                simp [Oneof.currentTag, Oneof.construct]
          · have hne : tag ≠ oneof.tag j := fun heq =>
              hik (h.eq_of_mem htag (heq ▸ oneof_tag_mem hk j))
            simp [get_set_of_ne s.1 (Ne.symm hik), hne]

/-- What the decoder of a oneof does with a field, by what was read before. -/
theorem oneof_decoder (h : F.Sound) (hk : F.field k = oneof.field) {m : M}
    (hnone : oneof.view (F.get m k) = none) {bytes : Bytes} {canon : Canonicity}
    {final : Position (M × Canonicity)} {records : List Record}
    (hreading : Reading ((F.message w).stepBy way mode depth) ⟨0, none, (m, canon), bytes⟩ records
      final) (j : Fin oneof.count) (wireType : WireType) (dup : Bool) :
    let decoder := (F.field k).decodeBy way mode depth (oneof.tag j) wireType dup
      (F.get final.state.1 k)
    (∃ r ∈ records, ∃ j', j' ≠ j ∧ r.tag = oneof.tag j') ∧ decoder = error .conflictingFields ∨
      (∃ r ∈ records, r.tag = oneof.tag j) ∧ decoder = error .unexpectedlyRepeated ∨
      (∀ r ∈ records, ∀ j', r.tag ≠ oneof.tag j') ∧
        decoder = ((oneof.codec j).decodeFieldBy way mode true depth wireType
          (oneof.codec j).forOverwrite).bind fun decoded =>
            .done (oneof.construct j decoded.1, decoded.2) := by
  have hread (j' : Fin oneof.count) :
      oneof.currentTag (F.get final.state.1 k) = some (oneof.tag j') ↔
        ∃ r ∈ records, r.tag = oneof.tag j' := by
    have hstart : oneof.currentTag (F.get m k) = none := by
      rw [Oneof.currentTag, hnone]
      rfl
    simpa [hstart] using currentTag_of_reading h hk hreading j'
  intro decoder
  have hdecoder : decoder = oneof.field.decodeBy way mode depth (oneof.tag j) wireType dup
      (F.get final.state.1 k) := by
    rw [← hk]
  rw [hdecoder, oneof.field_decodeBy, Oneof.variant_tag (h.oneof_tags_nodup hk)]
  cases hview : oneof.view (F.get final.state.1 k) with
  | none =>
      have hcurrent : oneof.currentTag (F.get final.state.1 k) = none := by
        rw [Oneof.currentTag, hview]
        rfl
      rw [hcurrent]
      refine .inr (.inr ⟨fun r hr j' htag => ?_, rfl⟩)
      have hsome := (hread j').mpr ⟨r, hr, htag⟩
      rw [hcurrent] at hsome
      cases hsome
  | some v =>
      have hcurrent : oneof.currentTag (F.get final.state.1 k) = some (oneof.tag v.1) := by
        rw [Oneof.currentTag, hview]
        rfl
      obtain ⟨r, hr, htag⟩ := (hread v.1).mp hcurrent
      rw [hcurrent]
      by_cases heq : v.1 = j
      · rw [heq] at htag ⊢
        exact .inr (.inl ⟨⟨r, hr, htag⟩, by simp⟩)
      · have hne : oneof.tag v.1 ≠ oneof.tag j := fun htags =>
          heq (List.inj_on_of_nodup_map (h.oneof_tags_nodup hk) (List.mem_finRange _)
            (List.mem_finRange _) htags)
        exact .inl ⟨⟨r, hr, v.1, heq, htag⟩, by simp [hne]⟩

end

end Fields

open Fields in
/-- A message with a oneof decodes what the message with an optional field for
each variant, under the same tag and with the same encoding, decodes to no more
than one of them, and to the same, with the same canonicity; messages that
correspond are encoded to the same bytes. The decoder of the oneof reports a
conflict only where a field of another variant was read before. -/
theorem oneof_decodes_as_options {allowed : Features} {M M' : Type} {F : Fields M} {k : F.Index}
    {oneof : Oneof (F.Ty k)} {count : Nat} (e : F.Split k oneof ≃ Fin count)
    (view : M' ≃ ((s : F.Split k oneof) → F.splitTy k oneof s) × F.Ignored) (h : F.Sound)
    (hk : F.field k = oneof.field)
    (hothers : ∀ i, i ≠ k → Built allowed (.messageField (F.field i)))
    (hvariants : ∀ j, Built allowed (.value (oneof.codec j))) {w : F.Writing}
    {w' : (F.split k oneof e view).Writing} (hw : w.Standard) (hw' : w'.Standard) :
    (∀ {β : Type} [Buf β] (buf : β) way mode,
      (∀ m canon, (F.message w).decodeAs way mode .notCanonical buf = .ok (m, canon) →
        ∃ m', ((F.split k oneof e view).message w').decodeAs way mode .notCanonical buf =
          .ok (m', canon) ∧ AtMostOne view m' ∧ Corresponds view m m') ∧
      ∀ m' canon, ((F.split k oneof e view).message w').decodeAs way mode .notCanonical buf =
          .ok (m', canon) → AtMostOne view m' →
        ∃ m, (F.message w).decodeAs way mode .notCanonical buf = .ok (m, canon) ∧
          Corresponds view m m') ∧
    (∀ m m', Corresponds view m m' →
      (F.message w).rawEncode m = ((F.split k oneof e view).message w').rawEncode m') ∧
    ∀ way mode depth bytes records final,
      Reading ((F.message w).stepBy way mode depth)
        ⟨0, none, ((F.message w).empty, .canonical), bytes⟩ records final →
      ∀ j wireType dup,
        let decoder := (F.field k).decodeBy way mode depth (oneof.tag j) wireType dup
          (F.get final.state.1 k)
        (∃ r ∈ records, ∃ j', j' ≠ j ∧ r.tag = oneof.tag j') ∧ decoder = error .conflictingFields ∨
          (∃ r ∈ records, r.tag = oneof.tag j) ∧ decoder = error .unexpectedlyRepeated ∨
          (∀ r ∈ records, ∀ j', r.tag ≠ oneof.tag j') ∧
            decoder = ((oneof.codec j).decodeFieldBy way mode true depth wireType
              (oneof.codec j).forOverwrite).bind fun decoded =>
                .done (oneof.construct j decoded.1, decoded.2) := by
  have hfields (i : F.Index) : Built allowed (.messageField (F.field i)) := by
    by_cases hik : i = k
    · subst hik
      rw [hk]
      exact .oneof hvariants
    · exact hothers i hik
  have hsplit (x : (F.split k oneof e view).Index) :
      Built allowed (.messageField ((F.split k oneof e view).field x)) := by
    have hfield (s : F.Split k oneof) : Built allowed (.messageField (F.splitField k oneof s)) := by
      cases s with
      | inl i => exact hfields i.1
      | inr j => exact .tagged _ (.optional (hvariants j))
    exact hfield (e.symm x)
  have hregular : (F.message w).Regular := Fields.regular fun i => (hfields i).regular
  have hregular' : ((F.split k oneof e view).message w').Regular :=
    Fields.regular fun x => (hsplit x).regular
  refine ⟨fun buf way mode => ⟨fun m canon hdecode => ?_, fun m' canon hdecode hone => ?_⟩,
    fun m m' hcorr => hcorr.rawEncode h hk hw hw' fun i => (hfields i).speaks,
    fun way mode depth bytes records final hreading => ?_⟩
  · obtain ⟨-, records, last, lastTag, hreading⟩ :=
      hregular.parses_mergeBy.mp (hregular.decodeAs_eq_ok.mp hdecode)
    obtain ⟨⟨last', lastTag', ⟨m', canon'⟩, rest'⟩, hreading', hbeside⟩ :=
      (beside_empty hk .canonical (Buf.bytes buf)).forward h hk hreading
    obtain ⟨rfl, rfl, rfl, rfl, hcorr, -⟩ := hbeside
    refine ⟨m', ?_, hcorr.atMostOne, hcorr⟩
    rw [hregular'.decodeAs_eq_ok, hregular'.parses_mergeBy]
    exact ⟨rfl, records, _, _, hreading'⟩
  · obtain ⟨-, records, last, lastTag, hreading⟩ :=
      hregular'.parses_mergeBy.mp (hregular'.decodeAs_eq_ok.mp hdecode)
    obtain ⟨⟨last', lastTag', ⟨m, canon'⟩, rest'⟩, hreading', hbeside⟩ :=
      (beside_empty (w := w) hk .canonical (Buf.bytes buf)).backward h hk hreading hone
    obtain ⟨hlast, hlastTag, hrest, hcanon, hcorr, -⟩ := hbeside
    dsimp only at hlast hlastTag hrest hcanon hcorr
    subst hlast hlastTag hrest hcanon
    refine ⟨m, ?_, hcorr⟩
    rw [hregular.decodeAs_eq_ok, hregular.parses_mergeBy]
    exact ⟨rfl, records, _, _, hreading'⟩
  · apply oneof_decoder h hk _ hreading
    rw [get_empty, hk]
    simp [Oneof.field]

/-- A oneof of two numbers. -/
def numberOneof : Oneof (Option ((_ : Fin 2) × BitVec 32)) where
  count := 2
  Ty _ := BitVec 32
  tag j := j.1 + 1
  codec _ := VarintScalar.u32.scalar.codec
  view := Equiv.refl _

def numberFields : Fields (Option ((_ : Fin 2) × BitVec 32)) := Fields.single numberOneof.field

theorem numberFields_sound : numberFields.Sound where
  tagged _ := List.cons_ne_nil 1 [2]
  nodup _ := (by decide : [1, 2].Nodup)
  disjoint := List.pairwise_singleton _ _
  lt _ tag htag := by
    have hmem : tag = 1 ∨ tag = 2 := List.mem_pair.mp htag
    omega

/-- The only field. -/
def numberIndex : numberFields.Index := ⟨0, Nat.one_pos⟩

theorem eq_numberIndex (i : numberFields.Index) : i = numberIndex :=
  Fin.ext (Nat.lt_one_iff.mp i.isLt)

/-- The oneof as two fields. -/
def numberSplit : numberFields.Split numberIndex numberOneof ≃ Fin 2 :=
  have : IsEmpty {i : numberFields.Index // i ≠ numberIndex} := ⟨fun i => i.2 (eq_numberIndex i.1)⟩
  Equiv.emptySum {i : numberFields.Index // i ≠ numberIndex} (Fin 2)

abbrev NumberOptions : Type :=
  ((s : numberFields.Split numberIndex numberOneof) → numberFields.splitTy numberIndex numberOneof s) ×
    numberFields.Ignored

theorem oneof_decodes_as_options_number :
    ∃ m' : NumberOptions,
      ((numberFields.split numberIndex numberOneof numberSplit (Equiv.refl _)).message
        (Fields.derived _)).decodeAs .relaxed .owned .notCanonical ([4, 5] : Bytes) =
          .ok (m', .canonical) ∧
      Fields.variantValue (Equiv.refl NumberOptions) m' ⟨0, Nat.two_pos⟩ = some (5 : BitVec 32) := by
  have hvariants : ∀ j, Built .all (.value (numberOneof.codec j)) :=
    fun _ => .scalar (.varint (VarintScalar.lawful_unsigned (by decide)))
  have hothers : ∀ i : numberFields.Index, i ≠ numberIndex →
      Built .all (.messageField (numberFields.field i)) :=
    fun i hi => absurd (eq_numberIndex i) hi
  have hdecode : (numberFields.message numberFields.derived).decodeAs .relaxed .owned .notCanonical
      ([4, 5] : Bytes) = .ok (some ⟨0, 5⟩, .canonical) := rfl
  obtain ⟨m', hm', -, hcorr⟩ :=
    ((oneof_decodes_as_options numberSplit (Equiv.refl NumberOptions) numberFields_sound rfl
      hothers hvariants .derived .derived).1 ([4, 5] : Bytes) .relaxed .owned).1 _ _ hdecode
  exact ⟨m', hm', (hcorr.variant ⟨0, Nat.two_pos⟩ (5 : BitVec 32)).mpr rfl⟩

end Bilrost
