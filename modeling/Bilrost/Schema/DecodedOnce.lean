import Bilrost.Schema.Readings
import Bilrost.Schema.Structural

/-!
Each field of a message is decoded at most once. Tags never go down, a field that
is found again right behind itself is refused, and so is a oneof that has a
variant. So whatever is decoded into a field is decoded into the empty one.
-/

namespace Bilrost

open Program

/-- A field is not decoded into when it is not empty, unless it is another one
than was just read. -/
def MessageField.Fresh {T : Type} (field : MessageField T) : Prop :=
  ∀ ⦃way : Way⦄ ⦃mode : DecodingMode⦄ ⦃depth tag : Nat⦄ ⦃wireType : WireType⦄ ⦃dup : Bool⦄
    ⦃bytes rest : Bytes⦄ ⦃value : T⦄ ⦃x : T × Canonicity⦄, tag ∈ field.tags →
    (field.decodeBy way mode depth tag wireType dup value).Parses bytes x rest →
    value = field.empty ∨ field.tags = [tag] ∧ dup = false

section
variable {T : Type} {way : Way} {mode : DecodingMode} {depth tag : Nat} {wireType : WireType}
  {dup : Bool} {bytes rest : Bytes} {start : T} {x : T × Canonicity}

theorem FieldCodec.parses_tagged {codec : FieldCodec T} {fieldTag : Nat}
    (hparse : ((codec.tagged fieldTag).decodeBy way mode depth tag wireType dup start).Parses bytes
      x rest) : dup = false ∧ (codec.decodeBy way mode depth wireType start).Parses bytes x rest := by
  rw [codec.tagged_decodeBy] at hparse
  cases dup with
  | true => exact (parses_error.mp hparse).elim
  | false => exact ⟨rfl, hparse⟩

theorem FieldCodec.fresh_tagged (codec : FieldCodec T) (tag : Nat) : (codec.tagged tag).Fresh := by
  intro way mode depth tag' wireType dup bytes rest value x htag hparse
  obtain rfl := List.mem_singleton.mp htag
  exact .inr ⟨rfl, (codec.parses_tagged hparse).1⟩

/-- A oneof that is decoded into was empty, and has one of its variants then. -/
theorem Oneof.parses_field {oneof : Oneof T} (hcuts : ∀ i, (oneof.codec i).Cuts)
    (hparse : (oneof.field.decodeBy way mode depth tag wireType dup start).Parses bytes x rest) :
    oneof.view start = none ∧ ∃ i payload v, oneof.variant tag = some i ∧
      (oneof.codec i).wireType = wireType ∧ bytes = payload ++ rest ∧
      oneof.view x.1 = some ⟨i, v⟩ ∧
      ((oneof.codec i).decodeBy way mode true depth (oneof.codec i).forOverwrite).Parses
        payload (v, x.2) [] := by
  rw [Oneof.field_decodeBy] at hparse
  cases hcurrent : oneof.currentTag start with
  | some current =>
      simp only [hcurrent] at hparse
      exact (parses_error.mp hparse).elim
  | none =>
      cases hvariant : oneof.variant tag with
      | none =>
          simp only [hcurrent, hvariant] at hparse
          exact (parses_error.mp hparse).elim
      | some i =>
          simp only [hcurrent, hvariant] at hparse
          obtain ⟨⟨v, canon⟩, mid, hfield, hdone⟩ := parses_bind.mp hparse
          obtain ⟨rfl, rfl⟩ := parses_done.mp hdone
          obtain ⟨hwire, hvalue⟩ := ValueCodec.parses_decodeFieldBy.mp hfield
          obtain ⟨payload, rfl, hpayload⟩ := ((hcuts i).isLocal way mode true depth _).iff.mp hvalue
          refine ⟨Option.map_eq_none_iff.mp hcurrent, i, payload, v, rfl, hwire, rfl, ?_, hpayload⟩
          exact oneof.view.apply_symm_apply _

theorem Oneof.fresh {oneof : Oneof T} (hcuts : ∀ i, (oneof.codec i).Cuts) : oneof.field.Fresh := by
  intro way mode depth tag wireType dup bytes rest value x _ hparse
  left
  exact oneof.view.eq_symm_apply.mpr (Oneof.parses_field hcuts hparse).1

theorem Built.fresh {allowed : Features} {field : MessageField T}
    (h : Built allowed (.messageField field)) : field.Fresh := by
  cases h with
  | tagged tag => exact FieldCodec.fresh_tagged _ tag
  | oneof hvariants => exact Oneof.fresh fun i => (hvariants i).cuts

end

namespace Fields

variable {M : Type} {F : Fields M} {w : F.Writing} {way : Way} {mode : DecodingMode}
  {depth last tag : Nat} {lastTag : Option Nat} {m : M} {i : F.Index}

theorem set_get (m : M) (i : F.Index) : F.set m i (F.get m i) = m := by
  simp [set, get]

/-- The fields that are not empty are behind: their tags are not higher than the
one that was read last, and those that have it were just read. -/
def Behind (F : Fields M) (m : M) (last : Nat) (lastTag : Option Nat) : Prop :=
  ∀ (i : F.Index) (tag : Nat), F.get m i ≠ (F.field i).empty → (F.field i).tags = [tag] →
    tag ≤ last ∧ (tag = last → lastTag = some tag)

theorem behind_empty : F.Behind (F.message w).empty 0 none := by
  intro i tag hne
  exact absurd (get_empty w i) hne

/-- Whatever is read next, these fields are behind. -/
theorem Behind.later (hbehind : F.Behind m last lastTag) (hle : last ≤ tag) :
    F.Behind m tag (some tag) := by
  intro j tag' hne htags
  exact ⟨(hbehind j tag' hne htags).1.trans hle, fun heq => congrArg some heq.symm⟩

theorem Behind.set (hbehind : F.Behind m last lastTag) (hle : last ≤ tag)
    (htag : tag ∈ (F.field i).tags) (value : F.Ty i) :
    F.Behind (F.set m i value) tag (some tag) := by
  intro j tag' hne htags
  rcases eq_or_ne j i with rfl | hji
  · rw [htags] at htag
    obtain rfl := List.mem_singleton.mp htag
    exact ⟨le_rfl, fun _ => rfl⟩
  · rw [get_set_of_ne m hji] at hne
    exact hbehind.later hle j tag' hne htags

/-- A field that is read is empty. -/
theorem Behind.get_eq (hbehind : F.Behind m last lastTag) (hfresh : (F.field i).Fresh)
    (hle : last ≤ tag) (htag : tag ∈ (F.field i).tags) {wireType : WireType} {bytes rest : Bytes}
    {x : F.Ty i × Canonicity}
    (hparse : ((F.field i).decodeBy way mode depth tag wireType (lastTag == some tag)
      (F.get m i)).Parses bytes x rest) : F.get m i = (F.field i).empty := by
  by_contra hne
  obtain ⟨htags, hdup⟩ := (hfresh htag hparse).resolve_left hne
  obtain ⟨hge, hjust⟩ := hbehind i tag hne htags
  rw [hjust (le_antisymm hge hle), beq_self_eq_true] at hdup
  cases hdup

/-- A value that a field is decoded to when it was empty. -/
def DecodesField (F : Fields M) (way : Way) (mode : DecodingMode) (depth : Nat) (i : F.Index)
    (value : F.Ty i) : Prop :=
  ∃ tag wireType dup bytes canon rest, tag ∈ (F.field i).tags ∧
    ((F.field i).decodeBy way mode depth tag wireType dup (F.field i).empty).Parses bytes
      (value, canon) rest

/-- Reading on leaves a field as it is, or decodes it. -/
theorem decodesField_of_reading (h : F.Sound) (hfresh : ∀ i, (F.field i).Fresh)
    {pos pos' : Position (M × Canonicity)} {records : List Record}
    (hreading : Reading ((F.message w).stepBy way mode depth) pos records pos')
    (hbehind : F.Behind pos.state.1 pos.last pos.lastTag) (i : F.Index) :
    F.get pos'.state.1 i = F.get pos.state.1 i ∨
      F.DecodesField way mode depth i (F.get pos'.state.1 i) := by
  induction hreading with
  | nil => exact .inl rfl
  | @cons last tag lastTag wireType s s' payload rest records pos hle htag hfield hmore ih =>
      obtain ⟨decoded, hdecoded, rfl⟩ := MessageCodec.parses_stepBy.mp hfield
      cases hfieldOf : F.fieldOf tag with
      | none =>
          obtain ⟨-, rfl⟩ := (parses_fieldBy_unknown hfieldOf).mp hdecoded
          exact ih (hbehind.later hle)
      | some j =>
          have hmem := h.fieldOf_eq_some.mp hfieldOf
          obtain ⟨⟨value, canon⟩, hvalue, rfl⟩ := (parses_fieldBy hfieldOf).mp hdecoded
          have hempty := hbehind.get_eq (hfresh j) hle hmem hvalue
          rw [hempty] at hvalue
          rcases ih (hbehind.set hle hmem value) with hsame | hread
          · rcases eq_or_ne i j with rfl | hij
            · right
              rw [hsame, get_set_self]
              exact ⟨tag, wireType, _, _, canon, _, hmem, hvalue⟩
            · left
              rw [hsame, get_set_of_ne _ hij]
          · exact .inr hread

end Fields

end Bilrost
