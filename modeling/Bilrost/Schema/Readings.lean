import Bilrost.Codec.Entry
import Bilrost.Decode.Reading
import Bilrost.Schema.ArrayForms
import Bilrost.Schema.MessageLocks
import Bilrost.Schema.Regular

/-!
How messages are read: field by field, each found by its tag and decoded into
its place, with the others left as they are.
-/

namespace Bilrost

open Program

namespace Fields

variable {M : Type} {F : Fields M} {tag : Nat} {i j : F.Index} {m : M}

theorem Sound.eq_of_mem (h : F.Sound) (hi : tag ∈ (F.field i).tags) (hj : tag ∈ (F.field j).tags) :
    i = j := by
  by_contra hne
  have hsymm : Std.Symm fun i j : F.Index => (F.field i).tags.Disjoint (F.field j).tags :=
    ⟨fun _ _ hdisjoint => hdisjoint.symm⟩
  exact h.disjoint.forall (List.mem_finRange i) (List.mem_finRange j) hne hi hj

/-- A tag finds the field that has it. -/
theorem Sound.fieldOf_eq_some (h : F.Sound) : F.fieldOf tag = some i ↔ tag ∈ (F.field i).tags := by
  constructor
  · intro hfind
    simpa using List.find?_some hfind
  · intro hi
    cases hfind : F.fieldOf tag with
    | none =>
        rw [fieldOf, List.find?_eq_none] at hfind
        exact absurd (decide_eq_true hi) (hfind i (List.mem_finRange i))
    | some j =>
        have hj : tag ∈ (F.field j).tags := by simpa using List.find?_some hfind
        rw [h.eq_of_mem hi hj]

theorem fieldOf_eq_none : F.fieldOf tag = none ↔ ∀ i, tag ∉ (F.field i).tags := by
  rw [fieldOf, List.find?_eq_none]
  constructor
  · intro hnone i hi
    exact hnone i (List.mem_finRange i) (decide_eq_true hi)
  · intro hnone i _ hi
    exact hnone i (of_decide_eq_true hi)

@[simp] theorem view_set (m : M) (i : F.Index) (value : F.Ty i) :
    F.view (F.set m i value) = (Function.update (F.view m).1 i value, (F.view m).2) := by
  simp [set]

@[simp] theorem get_empty (w : F.Writing) (i : F.Index) :
    F.get (F.message w).empty i = (F.field i).empty := by
  simp [get, message]

end Fields

/-- The variant of a oneof is found by its tag. -/
theorem Oneof.variant_tag {T : Type} {oneof : Oneof T} (h : oneof.tags.Nodup)
    (j : Fin oneof.count) : oneof.variant (oneof.tag j) = some j := by
  cases hfind : oneof.variant (oneof.tag j) with
  | none =>
      rw [variant, List.find?_eq_none] at hfind
      exact absurd (decide_eq_true rfl) (hfind j (List.mem_finRange j))
  | some j' =>
      have htag : oneof.tag j' = oneof.tag j := by simpa using List.find?_some hfind
      rw [List.inj_on_of_nodup_map h (List.mem_finRange j') (List.mem_finRange j) htag]

/-- What the canonicity of a field that the message does not know is said to be. -/
def Way.extension : Way → Canonicity
  | relaxed => .canonical
  | distinguished => .hasExtensions

theorem Way.parses_skipUnknown {M : Type} {way : Way} {wireType : WireType} {m : M}
    {bytes rest : Bytes} {x : M × Canonicity} :
    (way.skipUnknown wireType m).Parses bytes x rest ↔
      (skipField wireType).Parses bytes () rest ∧ x = (m, way.extension) := by
  cases way with
  | relaxed =>
      simp only [skipUnknown, parses_bind, parses_done, extension]
      constructor
      · rintro ⟨u, mid, hskip, rfl, rfl⟩
        exact ⟨hskip, rfl⟩
      · rintro ⟨hskip, rfl⟩
        exact ⟨(), rest, hskip, rfl, rfl⟩
  | distinguished =>
      simp only [skipUnknown, parses_check, parses_bind, parses_done, extension]
      constructor
      · rintro ⟨u, mid, hskip, rfl, rfl⟩
        exact ⟨hskip, rfl⟩
      · rintro ⟨hskip, rfl⟩
        exact ⟨(), rest, hskip, rfl, rfl⟩

section
variable {M : Type} {codec : MessageCodec M} {way : Way} {mode : DecodingMode}
  {depth tag : Nat} {wireType : WireType} {dup : Bool} {bytes rest : Bytes}

theorem MessageCodec.parses_stepBy {state x : M × Canonicity} :
    (codec.stepBy way mode depth tag wireType dup state).Parses bytes x rest ↔
      ∃ decoded, (codec.fieldBy way mode depth tag wireType dup state.1).Parses bytes decoded rest ∧
        x = (decoded.1, state.2.update decoded.2) := by
  simp only [stepBy, parses_bind, parses_done]
  constructor
  · rintro ⟨decoded, mid, hfield, rfl, rfl⟩
    exact ⟨decoded, hfield, rfl⟩
  · rintro ⟨decoded, hfield, rfl⟩
    exact ⟨decoded, rest, hfield, rfl, rfl⟩

theorem MessageCodec.Regular.stepBy (h : codec.Regular) (way : Way) (mode : DecodingMode)
    (depth tag : Nat) (wireType : WireType) (dup : Bool) (state : M × Canonicity) :
    Program.Regular (codec.stepBy way mode depth tag wireType dup state) :=
  (regular_iff.mp h way mode depth tag wireType dup state.1).map _

/-- A message is read to its end. -/
theorem MessageCodec.Regular.parses_mergeBy (h : codec.Regular) {m : M} {x : M × Canonicity} :
    (codec.mergeBy way mode depth m).Parses bytes x rest ↔ rest = [] ∧
      ∃ records last lastTag, Reading (codec.stepBy way mode depth)
        ⟨0, none, (m, .canonical), bytes⟩ records ⟨last, lastTag, x, []⟩ :=
  parses_fieldsFrom_iff (h.stepBy way mode depth)

/-- Decoding without a restriction is merging into the empty message. -/
theorem MessageCodec.Regular.decodeAs_eq_ok (h : codec.Regular) {β : Type} [Buf β] {buf : β}
    {x : M × Canonicity} : codec.decodeAs way mode .notCanonical buf = .ok x ↔
      (codec.mergeBy way mode recursionLimit codec.empty).Parses (Buf.bytes buf) x [] := by
  have hends {lowest : Canonicity} {left : Bytes}
      (hparse : (codec.mergeBy way mode recursionLimit codec.empty).parse (Buf.bytes buf) =
        .ok ⟨x, lowest, left⟩) : left = [] :=
    (h.parses_mergeBy.mp ⟨lowest, hparse⟩).1
  cases way with
  | relaxed =>
      have hmerge : (codec.mergeBy .relaxed mode recursionLimit codec.empty).Parses
          (Buf.bytes buf) x [] ↔ (codec.merge mode recursionLimit codec.empty).Parses
            (Buf.bytes buf) x.1 [] ∧ x.2 = .canonical := by
        rw [← asCanonical_merge, parses_asCanonical]
      have hresult : codec.decodeAs .relaxed mode .notCanonical buf = .ok x ↔
          codec.decodeCapped mode (Capped.new buf) = .ok x.1 ∧ x.2 = .canonical := by
        rw [decodeAs]
        cases codec.decodeCapped mode (Capped.new buf) with
        | error stop => simp [Except.map]
        | ok m => simp [Except.map, Prod.ext_iff, eq_comm]
      rw [hresult, hmerge, decodeCapped_eq_ok h]
      constructor
      · rintro ⟨⟨lowest, left, hparse⟩, hcanon⟩
        have hboth : (codec.mergeBy .relaxed mode recursionLimit codec.empty).Parses
            (Buf.bytes buf) x left := by
          rw [← asCanonical_merge, parses_asCanonical]
          exact ⟨⟨lowest, hparse⟩, hcanon⟩
        obtain ⟨_, hboth⟩ := hboth
        obtain rfl := hends hboth
        exact ⟨⟨lowest, hparse⟩, hcanon⟩
      · rintro ⟨⟨lowest, hparse⟩, hcanon⟩
        exact ⟨⟨lowest, [], hparse⟩, hcanon⟩
  | distinguished =>
      rw [decodeAs, decodeRestrictedCapped_eq_ok h, mergeDistinguished_eq_mergeBy]
      constructor
      · rintro ⟨lowest, left, hparse, -, -⟩
        obtain rfl := hends hparse
        exact ⟨lowest, hparse⟩
      · rintro ⟨lowest, hparse⟩
        exact ⟨lowest, [], hparse, Canonicity.notCanonical_le _, Canonicity.notCanonical_le _⟩

/-- Whatever the restriction, what is decoded is what the message is merged from. -/
theorem MessageCodec.Regular.parses_of_decodeAs (h : codec.Regular) {β : Type} [Buf β] {buf : β}
    {restrictTo : Canonicity} {x : M × Canonicity}
    (hdecode : codec.decodeAs way mode restrictTo buf = .ok x) :
    (codec.mergeBy way mode recursionLimit codec.empty).Parses (Buf.bytes buf) x [] := by
  apply h.decodeAs_eq_ok.mp
  cases way with
  | relaxed => exact hdecode
  | distinguished =>
      rw [decodeAs, decodeRestrictedCapped_eq_ok h] at hdecode ⊢
      obtain ⟨lowest, left, hparse, -, -⟩ := hdecode
      exact ⟨lowest, left, hparse, Canonicity.notCanonical_le _, Canonicity.notCanonical_le _⟩

theorem MessageCodec.SameTo.stepBy {codec' : MessageCodec M} (h : codec.SameTo depth codec')
    (way : Way) (mode : DecodingMode) {d : Nat} (hd : d ≤ depth) :
    codec.stepBy way mode d = codec'.stepBy way mode d := by
  funext tag wireType dup state
  rw [MessageCodec.stepBy, MessageCodec.stepBy, h.fieldBy way mode hd]

/-- What a message does with some bytes is what an approximation to their number
does with them. -/
theorem MessageCodec.Unrolls.parses_stepBy {approx : Nat → MessageCodec M}
    {within : Nat → M → Prop} (h : codec.Unrolls approx within) {n : Nat}
    (hn : bytes.length ≤ n) {state x : M × Canonicity} :
    (codec.stepBy way mode depth tag wireType dup state).Parses bytes x rest ↔
      ((approx n).stepBy way mode depth tag wireType dup state).Parses bytes x rest := by
  rw [MessageCodec.parses_stepBy, MessageCodec.parses_stepBy, h.fieldBy]
  have hfield (decoded : M × Canonicity) :
      (Program.op .remainingBeforeCap fun len =>
        (approx len).fieldBy way mode depth tag wireType dup state.1).Parses bytes decoded rest ↔
        ((approx n).fieldBy way mode depth tag wireType dup state.1).Parses bytes decoded rest := by
    unfold Parses
    rw [h.coherent way mode depth tag wireType dup state.1 hn]
    exact Iff.rfl
  simp only [hfield]

variable {F : Fields M} {w : F.Writing} {m : M} {x : M × Canonicity}

theorem Fields.parses_fieldBy {i : F.Index} (hfield : F.fieldOf tag = some i) :
    ((F.message w).fieldBy way mode depth tag wireType dup m).Parses bytes x rest ↔
      ∃ decoded, ((F.field i).decodeBy way mode depth tag wireType dup (F.get m i)).Parses bytes
        decoded rest ∧ x = (F.set m i decoded.1, decoded.2) := by
  simp only [message_fieldBy, hfield, parses_bind, parses_done]
  constructor
  · rintro ⟨decoded, mid, hdecoded, rfl, rfl⟩
    exact ⟨decoded, hdecoded, rfl⟩
  · rintro ⟨decoded, hdecoded, rfl⟩
    exact ⟨decoded, rest, hdecoded, rfl, rfl⟩

theorem Fields.parses_fieldBy_unknown (hfield : F.fieldOf tag = none) :
    ((F.message w).fieldBy way mode depth tag wireType dup m).Parses bytes x rest ↔
      (skipField wireType).Parses bytes () rest ∧ x = (m, way.extension) := by
  simp only [message_fieldBy, hfield, Way.parses_skipUnknown]

end

end Bilrost
