import Bilrost.Schema.MessageWrites
import Bilrost.Schema.Readings

/-!
A message with a oneof, and the message that has an optional field for each of
its variants in its place.
-/

namespace Bilrost

open Program

/-- What a field that has no tag to be written with writes: nothing. -/
structure MessageField.Speaks {T : Type} (field : MessageField T) : Prop where
  valid {value : T} {tag : Nat} : field.currentTag value = some tag → tag ∈ field.tags
  silent {value : T} : field.currentTag value = none →
    ∀ tw, field.encode value tw = some ([], tw)

theorem FieldCodec.speaks_tagged {T : Type} {codec : FieldCodec T} (tag : Nat)
    (h : ∀ value tw, codec.emptyState.isEmpty value = true →
      codec.encode tag value tw = some ([], tw)) : (codec.tagged tag).Speaks where
  valid hcurrent := by
    simp only [FieldCodec.tagged] at hcurrent ⊢
    split_ifs at hcurrent
    exact List.mem_singleton.mpr (Option.some.inj hcurrent).symm
  silent hcurrent tw := by
    simp only [FieldCodec.tagged] at hcurrent ⊢
    split_ifs at hcurrent with hempty
    exact h _ tw hempty

theorem Oneof.speaks {T : Type} (oneof : Oneof T) : oneof.field.Speaks where
  valid hcurrent := by
    obtain ⟨v, -, rfl⟩ := Option.map_eq_some_iff.mp hcurrent
    exact List.mem_map.mpr ⟨v.1, List.mem_finRange _, rfl⟩
  silent hcurrent tw := by
    have hview := Option.map_eq_none_iff.mp hcurrent
    simp only [Oneof.field, hview]

theorem Built.speaks {allowed : Features} {T : Type} {field : MessageField T}
    (h : Built allowed (.messageField field)) : field.Speaks := by
  cases h with
  | oneof hvariants => exact Oneof.speaks _
  | @tagged _ codec tag hcodec =>
      apply FieldCodec.speaks_tagged
      intro value tw hempty
      cases hcodec with
      | plain => exact if_pos hempty
      | optional =>
          obtain rfl : value = none := Option.isNone_iff_eq_none.mp hempty
          rfl
      | @unpackedField _ _ item coll hcoll =>
          have hnil : coll.iter value = [] := by
            rw [← List.isEmpty_iff, ← hcoll.isEmpty_iter]
            exact hempty
          simp only [ValueCodec.unpackedField, hnil, ValueCodec.encodeFields]
      | packedField => exact if_pos hempty
      | unpackedArrayField => exact if_pos hempty
      | packedArrayField => exact if_pos hempty
      | unpackedArrayOptionField =>
          obtain rfl : value = none := Option.isNone_iff_eq_none.mp hempty
          rfl

/-- Fields in the order of the tags that they are written with are in that order
in one way only. -/
theorem MessageFieldsSorted.eq_of_emitsBefore {φ : Type} {currentTag : φ → Option Nat}
    {fields fields' : List φ} (hemits : fields.Pairwise (EmitsBefore currentTag))
    (hemits' : fields'.Pairwise (EmitsBefore currentTag))
    (hsome : ∀ f ∈ fields, (currentTag f).isSome) (hmem : ∀ f, f ∈ fields ↔ f ∈ fields') :
    fields = fields' := by
  have hasymm {f g : φ} (hf : f ∈ fields) (hg : g ∈ fields)
      (hfg : EmitsBefore currentTag f g) : ¬EmitsBefore currentTag g f := by
    obtain ⟨s, hs⟩ := Option.isSome_iff_exists.mp (hsome f hf)
    obtain ⟨t, ht⟩ := Option.isSome_iff_exists.mp (hsome g hg)
    intro hgf
    exact absurd (hfg s hs t ht) (hgf t ht s hs).not_gt
  have hne {f g : φ} (hf : f ∈ fields) (hg : g ∈ fields)
      (hfg : EmitsBefore currentTag f g) : f ≠ g := by
    rintro rfl
    exact hasymm hf hg hfg hfg
  have hnodup : fields.Nodup := hemits.imp_of_mem hne
  have hnodup' : fields'.Nodup :=
    hemits'.imp_of_mem fun hf hg => hne ((hmem _).mpr hf) ((hmem _).mpr hg)
  apply List.Perm.eq_of_pairwise _ hemits hemits'
  · exact (List.perm_ext_iff_of_nodup hnodup hnodup').mpr hmem
  · intro f g hf hg hfg hgf
    exact absurd hgf (hasymm hf ((hmem g).mpr hg) hfg)

namespace Fields

open MessageFieldsSorted

section
variable {M : Type} {F : Fields M} {w : F.Writing} {m : M}

/-- The fields that are written are all visited, each once. -/
theorem Writing.Standard.visits (hw : w.Standard) (h : F.Sound) :
    ((w.forward m).filter fun i => (F.currentTag m i).isSome).Perm
      (F.indices.filter fun i => (F.currentTag m i).isSome) := by
  cases hw with
  | derived =>
      obtain ⟨chunks, hnew, -, hperm⟩ := new_chunksOk (fun i _ => h.tagged i) h.disjoint
      have hchunks : F.chunks = chunks := by
        rw [Fields.chunks, hnew]
        rfl
      simp only [Fields.derived, hchunks]
      exact (encodeOrder_perm _ _).trans (hperm.filter _)
  | listed => exact List.Perm.refl _

/-- Fields that are not written may be left out. -/
theorem encodeIn_filter (hspeaks : ∀ i, (F.field i).Speaks) (order : List F.Index)
    (tw : TagWriter) : F.encodeIn m order tw =
      F.encodeIn m (order.filter fun i => (F.currentTag m i).isSome) tw := by
  induction order generalizing tw with
  | nil => rfl
  | cons i order ih =>
      cases hcurrent : F.currentTag m i with
      | none =>
          rw [List.filter_cons_of_neg (by simp [hcurrent]), encodeIn,
            (hspeaks i).silent hcurrent tw, ← ih]
          simp only [Option.bind_eq_bind, Option.bind_some, List.nil_append]
          cases F.encodeIn m order tw <;> rfl
      | some tag =>
          rw [List.filter_cons_of_pos (by simp [hcurrent]), encodeIn, encodeIn]
          simp only [ih]

end

section
variable {M : Type} (F : Fields M) (k : F.Index) (oneof : Oneof (F.Ty k))

/-- The other fields, and the variants of the oneof. -/
abbrev Split : Type := {i : F.Index // i ≠ k} ⊕ Fin oneof.count

def splitTy : F.Split k oneof → Type
  | .inl i => F.Ty i.1
  | .inr j => Option (oneof.Ty j)

/-- The other fields are as they were. Each variant is an optional field, with
the tag and the encoding that it has in the oneof. -/
def splitField : (s : F.Split k oneof) → MessageField (F.splitTy k oneof s)
  | .inl i => F.field i.1
  | .inr j => (oneof.codec j).optional.tagged (oneof.tag j)

/-- The message with these fields, declared in any order. -/
def split {M' : Type} {count : Nat} (e : F.Split k oneof ≃ Fin count)
    (view : M' ≃ ((s : F.Split k oneof) → F.splitTy k oneof s) × F.Ignored) : Fields M' where
  count := count
  Ty x := F.splitTy k oneof (e.symm x)
  field x := F.splitField k oneof (e.symm x)
  Ignored := F.Ignored
  ignoredDefault := F.ignoredDefault
  view := view.trans ((Equiv.piCongrLeft' (F.splitTy k oneof) e).prodCongr (Equiv.refl F.Ignored))

end

section
variable {M M' : Type} {F : Fields M} {k : F.Index} {oneof : Oneof (F.Ty k)} {count : Nat}
  {e : F.Split k oneof ≃ Fin count}
  {view : M' ≃ ((s : F.Split k oneof) → F.splitTy k oneof s) × F.Ignored}

theorem splitField_tags (hk : F.field k = oneof.field) {s : F.Split k oneof} {tag : Nat}
    (h : tag ∈ (F.splitField k oneof s).tags) :
    ∃ i, tag ∈ (F.field i).tags ∧ ∀ j, s = .inr j → i = k := by
  cases s with
  | inl i => exact ⟨i.1, h, by simp⟩
  | inr j =>
      obtain rfl := List.mem_singleton.mp h
      refine ⟨k, ?_, fun _ _ => rfl⟩
      rw [hk]
      exact List.mem_map.mpr ⟨j, List.mem_finRange j, rfl⟩

/-- Each of the fields has tags of its own. -/
theorem Sound.splitField_unique (h : F.Sound) (hk : F.field k = oneof.field)
    {s s' : F.Split k oneof} {tag : Nat} (hs : tag ∈ (F.splitField k oneof s).tags)
    (hs' : tag ∈ (F.splitField k oneof s').tags) : s = s' := by
  have hmem (j : Fin oneof.count) : oneof.tag j ∈ (F.field k).tags := by
    rw [hk]
    exact List.mem_map.mpr ⟨j, List.mem_finRange j, rfl⟩
  have hnodup : ((List.finRange oneof.count).map oneof.tag).Nodup := by
    have hnodup := h.nodup k
    rw [hk] at hnodup
    exact hnodup
  cases s with
  | inl i =>
      cases s' with
      | inl i' => rw [Subtype.ext (h.eq_of_mem hs hs')]
      | inr j =>
          obtain rfl := List.mem_singleton.mp hs'
          exact absurd (h.eq_of_mem hs (hmem j)) i.2
  | inr j =>
      obtain rfl := List.mem_singleton.mp hs
      cases s' with
      | inl i => exact absurd (h.eq_of_mem hs' (hmem j)) i.2
      | inr j' =>
          have htag : oneof.tag j = oneof.tag j' := List.mem_singleton.mp hs'
          rw [List.inj_on_of_nodup_map hnodup (List.mem_finRange j) (List.mem_finRange j') htag]

theorem Sound.split (h : F.Sound) (hk : F.field k = oneof.field) : (F.split k oneof e view).Sound where
  tagged x := by
    change (F.splitField k oneof (e.symm x)).tags ≠ []
    cases e.symm x with
    | inl i => exact h.tagged i.1
    | inr j => exact List.cons_ne_nil _ _
  nodup x := by
    change (F.splitField k oneof (e.symm x)).tags.Nodup
    cases e.symm x with
    | inl i => exact h.nodup i.1
    | inr j => exact List.nodup_singleton _
  disjoint := by
    apply (List.nodup_finRange count).pairwise_of_forall_ne
    intro x _ y _ hne tag hx hy
    exact hne (e.symm.injective (h.splitField_unique hk hx hy))
  lt x tag htag := by
    obtain ⟨i, hi, -⟩ := splitField_tags hk htag
    exact h.lt i tag hi

theorem split_speaks (hspeaks : ∀ i, (F.field i).Speaks) (x : (F.split k oneof e view).Index) :
    ((F.split k oneof e view).field x).Speaks := by
  have hvariant (j : Fin oneof.count) : ((oneof.codec j).optional.tagged (oneof.tag j)).Speaks := by
    apply FieldCodec.speaks_tagged
    intro value tw hempty
    obtain rfl : value = none := Option.isNone_iff_eq_none.mp hempty
    rfl
  change (F.splitField k oneof (e.symm x)).Speaks
  cases e.symm x with
  | inl i => exact hspeaks i.1
  | inr j => exact hvariant j

theorem split_fieldOf_eq_none (hk : F.field k = oneof.field) {tag : Nat} :
    (F.split k oneof e view).fieldOf tag = none ↔ F.fieldOf tag = none := by
  rw [fieldOf_eq_none, fieldOf_eq_none]
  constructor
  · intro hnone i hi
    by_cases hik : i = k
    · subst hik
      rw [hk] at hi
      obtain ⟨j, -, rfl⟩ := List.mem_map.mp hi
      have hmem : oneof.tag j ∈ (F.splitField i oneof (e.symm (e (.inr j)))).tags := by
        rw [Equiv.symm_apply_apply]
        exact List.mem_singleton_self _
      exact hnone (e (.inr j)) hmem
    · have hmem : tag ∈ (F.splitField k oneof (e.symm (e (.inl ⟨i, hik⟩)))).tags := by
        rw [Equiv.symm_apply_apply]
        exact hi
      exact hnone (e (.inl ⟨i, hik⟩)) hmem
  · intro hnone x hx
    obtain ⟨i, hi, -⟩ := splitField_tags hk hx
    exact hnone i hi

theorem view_split_set (m' : M') (y : (F.split k oneof e view).Index)
    (value : F.splitTy k oneof (e.symm y)) :
    view ((F.split k oneof e view).set m' y value) =
      (Function.update (view m').1 (e.symm y) value, (view m').2) := by
  apply ((Equiv.piCongrLeft' (F.splitTy k oneof) e).prodCongr (Equiv.refl F.Ignored)).injective
  have hview := (F.split k oneof e view).view_set m' y value
  refine hview.trans (Prod.ext (funext fun z => ?_) rfl)
  by_cases hz : z = y
  · subst hz
    exact (Function.update_self ..).trans (Function.update_self ..).symm
  · have hne : e.symm z ≠ e.symm y := fun heq => hz (e.symm.injective heq)
    exact (Function.update_of_ne hz ..).trans (Function.update_of_ne hne ..).symm

/-- One of the fields is decoded into its place. -/
theorem Sound.parses_split (h : F.Sound) (hk : F.field k = oneof.field)
    {w : (F.split k oneof e view).Writing} {way : Way} {mode : DecodingMode} {depth tag : Nat}
    {wireType : WireType} {dup : Bool} {m' : M'} {bytes rest : Bytes} {x : M' × Canonicity}
    (s : F.Split k oneof) (hs : tag ∈ (F.splitField k oneof s).tags) :
    (((F.split k oneof e view).message w).fieldBy way mode depth tag wireType dup m').Parses bytes
        x rest ↔
      ∃ decoded, ((F.splitField k oneof s).decodeBy way mode depth tag wireType dup
          ((view m').1 s)).Parses bytes decoded rest ∧
        (view x.1).1 = Function.update (view m').1 s decoded.1 ∧ (view x.1).2 = (view m').2 ∧
        x.2 = decoded.2 := by
  obtain ⟨y, rfl⟩ := e.symm.surjective s
  have hfieldOf : (F.split k oneof e view).fieldOf tag = some y :=
    (h.split hk).fieldOf_eq_some.mpr hs
  rw [parses_fieldBy hfieldOf]
  constructor
  · rintro ⟨decoded, hdecoded, rfl⟩
    obtain ⟨hvalues, hignored⟩ := Prod.ext_iff.mp (view_split_set m' y decoded.1)
    exact ⟨decoded, hdecoded, hvalues, hignored, rfl⟩
  · rintro ⟨decoded, hdecoded, hvalues, hignored, hcanon⟩
    refine ⟨decoded, hdecoded, Prod.ext ?_ hcanon⟩
    apply view.injective
    have hview : view x.1 = (Function.update (view m').1 (e.symm y) decoded.1, (view m').2) :=
      Prod.ext hvalues hignored
    exact hview.trans (view_split_set m' y decoded.1).symm

end

end Fields

end Bilrost
