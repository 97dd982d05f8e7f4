import Bilrost.Decode.FieldLoop

/-!
The grammar of an encoded message: fields whose tags never go down, each a key
and one complete value of its wire type. `takePayload` cuts such a value off
the front of a byte string, whatever it may mean.
-/

namespace Bilrost

/-- A complete value of a wire type. -/
def WireType.Complete : WireType → Bytes → Prop
  | varint, payload => ∃ n < 2 ^ 64, payload = Bilrost.varint n
  | lengthDelimited, payload =>
      ∃ content : Bytes, content.length < 2 ^ 64 ∧
        payload = Bilrost.varint content.length ++ content
  | thirtyTwoBit, payload => payload.length = 4
  | sixtyFourBit, payload => payload.length = 8

/-- Fields in order, each with a complete value. -/
structure WellFormed (records : List Record) : Prop where
  ascending : Ascending 0 records
  tag_lt : ∀ r ∈ records, r.tag < 2 ^ 32
  complete : ∀ r ∈ records, r.wireType.Complete r.payload

/-- A byte string that is a sequence of fields. -/
def IsFieldSequence (bytes : Bytes) : Prop :=
  ∃ records, WellFormed records ∧ bytes = wireRecords 0 records

/-- The first value of a byte string, and what follows it. -/
def takePayload : WireType → Bytes → Option (Bytes × Bytes)
  | .varint, bytes =>
      match parseVarint bytes with
      | .ok (n, rest) => some (varint n, rest)
      | .error _ => none
  | .lengthDelimited, bytes =>
      (parseDelimited bytes).map fun taken => (varint taken.1.length ++ taken.1, taken.2)
  | .thirtyTwoBit, bytes => if 4 ≤ bytes.length then some (bytes.take 4, bytes.drop 4) else none
  | .sixtyFourBit, bytes => if 8 ≤ bytes.length then some (bytes.take 8, bytes.drop 8) else none

/-- A value is found where it was put. -/
theorem WireType.Complete.takePayload {wireType : WireType} {payload : Bytes}
    (h : wireType.Complete payload) (rest : Bytes) :
    takePayload wireType (payload ++ rest) = some (payload, rest) := by
  cases wireType with
  | varint =>
    obtain ⟨n, hn, rfl⟩ := h
    simp only [Bilrost.takePayload, parseVarint_varint hn]
  | lengthDelimited =>
    obtain ⟨content, hlt, rfl⟩ := h
    simp only [Bilrost.takePayload, List.append_assoc, parseDelimited_append hlt, Option.map_some]
  | thirtyTwoBit =>
    have hlen : payload.length = 4 := h
    simp [Bilrost.takePayload, ← hlen]
  | sixtyFourBit =>
    have hlen : payload.length = 8 := h
    simp [Bilrost.takePayload, ← hlen]

end Bilrost
