import Bilrost.Codec.Message
import Bilrost.Decode.FieldLoop

/-!
Decoding whole messages is running the loop over fields. What a call returns on
a buffer, however the buffer is held, is what the loop parses from its bytes.
-/

namespace Bilrost

open Program

namespace MessageCodec

variable {M : Type} (codec : MessageCodec M)

/-- The decoders of the fields of a message are programs of the regular kind. -/
structure Regular : Prop where
  rawDecodeField (mode : DecodingMode) (depth tag : Nat) (wireType : WireType) (dup : Bool) (m : M) :
    Program.Regular (codec.rawDecodeField mode depth tag wireType dup m)
  rawDecodeFieldDistinguished (mode : DecodingMode) (depth tag : Nat) (wireType : WireType)
    (dup : Bool) (m : M) :
    Program.Regular (codec.rawDecodeFieldDistinguished mode depth tag wireType dup m)

/-- `raw_decode_field_distinguished`, which updates the canonicity of the
message. -/
def fieldDistinguished (mode : DecodingMode) (depth tag : Nat) (wireType : WireType) (dup : Bool)
    (state : M × Canonicity) : Program (M × Canonicity) :=
  (codec.rawDecodeFieldDistinguished mode depth tag wireType dup state.1).bind fun decoded =>
    .done (decoded.1, state.2.update decoded.2)

theorem merge_eq (mode : DecodingMode) (depth : Nat) (value : M) :
    codec.merge mode depth value = fieldsFrom (codec.rawDecodeField mode depth) 0 none value :=
  rfl

theorem mergeFieldDistinguished_eq (mode : DecodingMode) (depth : Nat) :
    codec.mergeFieldDistinguished mode depth = readField (codec.fieldDistinguished mode depth) := by
  funext ⟨tr, lastTag, value, canon⟩
  simp only [mergeFieldDistinguished, readField, fieldDistinguished, Program.bind_eq,
    Program.bind_assoc, done_bind]

theorem mergeDistinguished_eq (mode : DecodingMode) (depth : Nat) (value : M) :
    codec.mergeDistinguished mode depth value =
      fieldsFrom (codec.fieldDistinguished mode depth) 0 none (value, .canonical) := by
  rw [mergeDistinguished, mergeFieldDistinguished_eq]
  rfl

variable {codec}

theorem Regular.fieldDistinguished (h : codec.Regular) (mode : DecodingMode) (depth tag : Nat)
    (wireType : WireType) (dup : Bool) (state : M × Canonicity) :
    Program.Regular (codec.fieldDistinguished mode depth tag wireType dup state) :=
  (h.rawDecodeFieldDistinguished mode depth tag wireType dup state.1).map _

theorem Regular.merge (h : codec.Regular) (mode : DecodingMode) (depth : Nat) (value : M) :
    Program.Regular (codec.merge mode depth value) := by
  rw [merge_eq]
  exact regular_fieldsFrom (h.rawDecodeField mode depth) 0 none value

theorem Regular.mergeDistinguished (h : codec.Regular) (mode : DecodingMode) (depth : Nat)
    (value : M) : Program.Regular (codec.mergeDistinguished mode depth value) := by
  rw [mergeDistinguished_eq]
  exact regular_fieldsFrom (h.fieldDistinguished mode depth) 0 none _

theorem endsAtCap_merge (codec : MessageCodec M) (mode : DecodingMode) (depth : Nat) (value : M) :
    EndsAtCap (codec.merge mode depth value) := by
  rw [merge_eq]
  exact endsAtCap_fieldsFrom _ 0 none value

theorem endsAtCap_mergeDistinguished (codec : MessageCodec M) (mode : DecodingMode) (depth : Nat)
    (value : M) : EndsAtCap (codec.mergeDistinguished mode depth value) := by
  rw [mergeDistinguished_eq]
  exact endsAtCap_fieldsFrom _ 0 none _

section
variable {β : Type} [Buf β]

/-- A program that is run on a whole buffer returns what it parses, if the
canonicities it checked are good enough. -/
theorem run_new_eq_ok {α : Type} {p : Program α} (h : p.Regular) (minCanonicity : Canonicity)
    (buf : β) (x : α) :
    (∃ capped, p.run minCanonicity (Capped.new buf) = .ok (x, capped)) ↔
      ∃ lowest rest, p.parse (Buf.bytes buf) = .ok ⟨x, lowest, rest⟩ ∧ minCanonicity ≤ lowest := by
  have hrun := run_new h minCanonicity buf
  constructor
  · rintro ⟨capped, hok⟩
    rw [hok, outcome] at hrun
    cases hparse : p.parse (Buf.bytes buf) with
    | error fault => simp [hparse, Except.toOption] at hrun
    | ok parsed =>
      obtain ⟨y, lowest, rest⟩ := parsed
      by_cases hle : minCanonicity ≤ lowest
      · obtain rfl : x = y := by simpa [hparse, hle, Except.toOption] using hrun
        exact ⟨lowest, rest, rfl, hle⟩
      · simp [hparse, hle, Except.toOption] at hrun
  · rintro ⟨lowest, rest, hparse, hle⟩
    simp only [outcome, hparse, if_pos hle] at hrun
    cases hok : p.run minCanonicity (Capped.new buf) with
    | error stop => simp [hok, Except.toOption] at hrun
    | ok result =>
      obtain ⟨y, capped⟩ := result
      obtain rfl : y = x := by simpa [hok, Except.toOption] using hrun
      exact ⟨capped, rfl⟩

/-- Relaxed decoding of a whole buffer. -/
theorem decodeCapped_eq_ok (h : codec.Regular) {mode : DecodingMode} {buf : β} {value : M} :
    codec.decodeCapped mode (Capped.new buf) = .ok value ↔
      ∃ lowest rest, (codec.merge mode recursionLimit codec.empty).parse (Buf.bytes buf) =
        .ok ⟨value, lowest, rest⟩ := by
  have hrun := run_new_eq_ok (h.merge mode recursionLimit codec.empty) .notCanonical buf value
  simp only [Canonicity.notCanonical_le, and_true] at hrun
  rw [← hrun, decodeCapped]
  cases hok : (codec.merge mode recursionLimit codec.empty).run .notCanonical (Capped.new buf) with
  | error stop => simp [Bind.bind, Except.bind]
  | ok result => simp [Bind.bind, Except.bind, Prod.ext_iff]

/-- Restricted decoding of a whole buffer: what the fields checked and what the
loop returns are both good enough. -/
theorem decodeRestrictedCapped_eq_ok (h : codec.Regular) {mode : DecodingMode} {buf : β}
    {restrictTo canon : Canonicity} {value : M} :
    codec.decodeRestrictedCapped mode (Capped.new buf) restrictTo = .ok (value, canon) ↔
      ∃ lowest rest, (codec.mergeDistinguished mode recursionLimit codec.empty).parse
        (Buf.bytes buf) = .ok ⟨(value, canon), lowest, rest⟩ ∧
          restrictTo ≤ lowest ∧ restrictTo ≤ canon := by
  have hrun := run_new_eq_ok (h.mergeDistinguished mode recursionLimit codec.empty)
    restrictTo buf (value, canon)
  trans (∃ capped, (codec.mergeDistinguished mode recursionLimit codec.empty).run restrictTo
    (Capped.new buf) = .ok ((value, canon), capped)) ∧ restrictTo ≤ canon
  · rw [decodeRestrictedCapped]
    cases hok : (codec.mergeDistinguished mode recursionLimit codec.empty).run restrictTo
        (Capped.new buf) with
    | error stop => simp [Bind.bind, Except.bind]
    | ok result =>
      obtain ⟨⟨v, c⟩, capped⟩ := result
      simp only [Bind.bind, Except.bind, Except.ok.injEq, Prod.mk.injEq, exists_and_left,
        exists_eq', and_true]
      by_cases hle : restrictTo ≤ c
      · simp only [check_of_le hle, Except.mapError, Except.ok.injEq, Prod.mk.injEq]
        refine ⟨fun ⟨hv, hc⟩ => ⟨⟨hv, hc⟩, hc ▸ hle⟩, fun h => h.1⟩
      · obtain ⟨err, herr⟩ := check_of_lt (not_le.mp hle)
        simp only [herr, Except.mapError, reduceCtorEq, false_iff]
        rintro ⟨⟨-, rfl⟩, hle'⟩
        exact hle hle'
  · rw [hrun]
    constructor
    · rintro ⟨⟨lowest, rest, hparse, hlowest⟩, hcanon⟩
      exact ⟨lowest, rest, hparse, hlowest, hcanon⟩
    · rintro ⟨lowest, rest, hparse, hlowest, hcanon⟩
      exact ⟨⟨lowest, rest, hparse, hlowest⟩, hcanon⟩

end

end MessageCodec

end Bilrost
