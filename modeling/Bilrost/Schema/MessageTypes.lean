import Bilrost.Codec.OpaqueBijection
import Bilrost.Schema.MessageLocks
import Bilrost.Schema.Regular
import Bilrost.Schema.Tallies

/-!
All message types: those with a schema, and the opaque message, which has none
and is decoded alike in all ways.
-/

namespace Bilrost

open Program

/-- What `RawMessage` is implemented for. -/
inductive MessageCodec.Implemented (allowed : Features) : {M : Type} → MessageCodec M → Prop
  | schema {M : Type} {codec : MessageCodec M} (h : Built allowed (.message codec)) :
      Implemented allowed codec
  | opaqueMessage : Implemented allowed OpaqueMessage.codec

namespace OpaqueValue

/-- Values are the same whether they are copied or borrowed. -/
theorem lock_decodeValue {s : Sides} (wireType : WireType) :
    s.Lock Eq (decodeValue s.mode wireType) (decodeValue s.mode' wireType) := by
  cases wireType with
  | lengthDelimited =>
      refine (DelimitedRead.lock_bytes _ _).bind fun bytes bytes' hbytes => ?_
      rw [hbytes]
      exact lock_refl (fun _ => rfl) _
  | varint => exact lock_refl (fun _ => rfl) _
  | thirtyTwoBit => exact lock_refl (fun _ => rfl) _
  | sixtyFourBit => exact lock_refl (fun _ => rfl) _

theorem silent_arrayOf (n : Nat) (bytes : Bytes) : (arrayOf n bytes).Silent := by
  rw [arrayOf]
  split
  · exact silent_done _
  · exact silent_error _

theorem silent_sliceOf (bytes : Bytes) : (sliceOf bytes).Silent := by
  rw [sliceOf]
  split
  · exact silent_done _
  · exact silent_error _

theorem silent_decodeValue (mode : DecodingMode) (wireType : WireType) :
    (decodeValue mode wireType).Silent := by
  cases wireType with
  | varint => exact Silent.op fun _ => silent_done _
  | lengthDelimited =>
      exact (DelimitedRead.silent_bytes _).bind fun bytes =>
        (silent_sliceOf bytes).bind fun _ => silent_done _
  | thirtyTwoBit =>
      exact Silent.op fun bytes => (silent_arrayOf 4 bytes).bind fun _ => silent_done _
  | sixtyFourBit =>
      exact Silent.op fun bytes => (silent_arrayOf 8 bytes).bind fun _ => silent_done _

end OpaqueValue

namespace OpaqueMessage

theorem fieldBy_eq (way : Way) (mode : DecodingMode) (depth tag : Nat) (wireType : WireType)
    (dup : Bool) (message : OpaqueMessage) :
    codec.fieldBy way mode depth tag wireType dup message =
      asCanonical (rawDecodeField mode tag wireType message) := by
  cases way <;> rfl

theorem locks : codec.Locks where
  same := sameLaws_eq OpaqueMessage
  isEmpty message := by
    change message.fields.isEmpty = true ↔ message = new
    rw [SortedMap.isEmpty_iff, OpaqueMessage.ext_iff]
    rfl
  clear _ := rfl
  locks s b tag wireType dup message message' h := by
    obtain rfl : message = message' := h
    rw [fieldBy_eq, fieldBy_eq]
    apply Sides.lock_asCanonical
    refine (OpaqueValue.lock_decodeValue wireType).bind fun value value' hvalue => ?_
    rw [hvalue]
    exact lock_done rfl

theorem tallies : codec.Tallies := by
  intro way mode depth tag wireType dup message
  rw [fieldBy_eq]
  exact ((OpaqueValue.silent_decodeValue mode wireType).bind fun _ => silent_done _).asCanonical

end OpaqueMessage

namespace MessageCodec.Implemented

variable {allowed : Features} {M : Type} {codec : MessageCodec M}

theorem regular (h : codec.Implemented allowed) : codec.Regular := by
  cases h with
  | schema h => exact h.regular
  | opaqueMessage => exact OpaqueMessage.regular_codec

theorem locks (h : codec.Implemented allowed) : codec.Locks := by
  cases h with
  | schema h => exact h.locks
  | opaqueMessage => exact OpaqueMessage.locks

theorem tallies (h : codec.Implemented allowed) : codec.Tallies := by
  cases h with
  | schema h => exact h.tallies
  | opaqueMessage => exact OpaqueMessage.tallies

end MessageCodec.Implemented

end Bilrost
