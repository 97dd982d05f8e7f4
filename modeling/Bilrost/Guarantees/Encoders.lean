import Bilrost.Codec.OpaqueBijection
import Bilrost.Schema.MessageWrites
import Bilrost.Schema.Single

/-!
The ways to encode a message. All of them come to the same bytes, and a buffer
that has no room for these is refused before anything is written.
-/

namespace Bilrost

/-- All encoders write the same bytes or announce how many there are. -/
structure EncodesAs {M : Type} (codec : MessageCodec M) (m : M) (bytes : Bytes) : Prop where
  encodedLen : codec.encodedLen m = some bytes.length
  encode (remaining : Nat) : codec.encode m remaining =
    some (if bytes.length > remaining then .error ⟨bytes.length, remaining⟩ else .ok bytes)
  encodeToVec : codec.encodeToVec m = some bytes
  prepend (buf : Bytes) : codec.prepend m buf = some (bytes ++ buf)
  encodeFast : codec.encodeFast m = some bytes
  encodeContiguous : codec.encodeContiguous m = some bytes
  encodeLengthDelimited (remaining : Nat) : codec.encodeLengthDelimited m remaining =
    some (if bytes.length + (varint bytes.length).length > remaining then
      .error ⟨bytes.length + (varint bytes.length).length, remaining⟩
    else .ok (varint bytes.length ++ bytes))
  encodeLengthDelimitedToVec :
    codec.encodeLengthDelimitedToVec m = some (varint bytes.length ++ bytes)
  encodeLengthDelimitedFast :
    codec.encodeLengthDelimitedFast m = some (varint bytes.length ++ bytes)
  encodeLengthDelimitedContiguous :
    codec.encodeLengthDelimitedContiguous m = some (varint bytes.length ++ bytes)

section
variable {M : Type} {codec : MessageCodec M} {m : M} {bytes : Bytes}

theorem encode_of_raw (hencode : codec.rawEncode m = some bytes)
    (hlen : codec.rawEncodedLen m = some bytes.length) (remaining : Nat) :
    codec.encode m remaining =
      some (if bytes.length > remaining then .error ⟨bytes.length, remaining⟩ else .ok bytes) := by
  simp only [MessageCodec.encode, hlen, hencode, Option.bind_eq_bind, Option.bind_some]
  split_ifs <;> rfl

theorem encodeLengthDelimited_of_raw (hencode : codec.rawEncode m = some bytes)
    (hlen : codec.rawEncodedLen m = some bytes.length) (remaining : Nat) :
    codec.encodeLengthDelimited m remaining =
      some (if bytes.length + (varint bytes.length).length > remaining then
        .error ⟨bytes.length + (varint bytes.length).length, remaining⟩
      else .ok (varint bytes.length ++ bytes)) := by
  simp only [MessageCodec.encodeLengthDelimited, hlen, hencode, Option.bind_eq_bind,
    Option.bind_some, encodedLenVarint_eq, encodeVarint_eq]
  split_ifs <;> rfl

/-- The encoders of whole messages are put together from the raw ones. -/
theorem encodesAs_of_raw (hencode : codec.rawEncode m = some bytes)
    (hlen : codec.rawEncodedLen m = some bytes.length)
    (hprepend : ∀ buf, codec.rawPrepend m buf = some (bytes ++ buf)) :
    EncodesAs codec m bytes where
  encodedLen := hlen
  encode := encode_of_raw hencode hlen
  encodeToVec := by simp [MessageCodec.encodeToVec, MessageCodec.encodedLen, hlen, hencode]
  prepend := hprepend
  encodeFast := by simp [MessageCodec.encodeFast, hprepend]
  encodeContiguous := by
    simp [MessageCodec.encodeContiguous, MessageCodec.encodedLen, hlen, hprepend]
  encodeLengthDelimited := encodeLengthDelimited_of_raw hencode hlen
  encodeLengthDelimitedToVec := by
    simp [MessageCodec.encodeLengthDelimitedToVec, MessageCodec.encodedLen, hlen, hencode,
      encodeVarint_eq]
  encodeLengthDelimitedFast := by
    simp [MessageCodec.encodeLengthDelimitedFast, MessageCodec.encodeFast, hprepend]
  encodeLengthDelimitedContiguous := by
    simp [MessageCodec.encodeLengthDelimitedContiguous, MessageCodec.encodedLen, hlen, hprepend,
      Nat.add_comm]

end

/-- All ways to encode a message come to the same bytes. -/
theorem Built.encodesAs {allowed : Features} {M : Type} {codec : MessageCodec M}
    (h : Built allowed (.message codec)) (harrays : ¬allowed.emptyArrays)
    (hordered : ¬allowed.hashed) (m : M) : ∃ bytes, EncodesAs codec m bytes := by
  have hwrites : codec.Writes (¬allowed.hashed) := h.writes harrays
  obtain ⟨records, hwritten⟩ := hwrites m
  exact ⟨_, encodesAs_of_raw hwritten.encode hwritten.encodedLen (hwritten.prepend hordered)⟩

/-- Backward encoding, forward encoding and the announced length agree, for all
messages without hashed collections and without arrays of length zero. -/
theorem encodings_agree {allowed : Features} (hordered : ¬allowed.hashed)
    (harrays : ¬allowed.emptyArrays) {M : Type} {codec : MessageCodec M}
    (h : Built allowed (.message codec)) :
    (∀ m, ∃ bytes, EncodesAs codec m bytes) ∧
      ∀ message, ∃ bytes, EncodesAs OpaqueMessage.codec message bytes := by
  constructor
  · exact h.encodesAs harrays hordered
  · intro message
    obtain ⟨hencode, hprepend, hlen⟩ := OpaqueMessage.encoders_agree message
    exact ⟨_, encodesAs_of_raw hencode hlen hprepend⟩

theorem encodings_agree_u32 : ∃ bytes, EncodesAs (u32Field.derived 1) (300 : BitVec 32) bytes := by
  have hbuilt : Built ⟨False, True, False, True⟩ (.message (u32Field.derived 1)) :=
    .derived (by decide) (built_u32Field _)
  exact (encodings_agree (fun h => h) (fun h => h) hbuilt).1 _

/-- However bytes are divided into pieces, each finds room in a buffer that has
room for all of them. -/
theorem pieces_fit {bytes : Bytes} {remaining : Nat} (h : bytes.length ≤ remaining)
    {before after : List Bytes} {piece : Bytes} (hpieces : (before ++ piece :: after).flatten = bytes) :
    piece.length ≤ remaining - before.flatten.length := by
  have hlength := congrArg List.length hpieces
  simp only [List.flatten_append, List.flatten_cons, List.length_append] at hlength
  omega

/-- What an encoder does with a buffer of limited room: nothing if all of the
bytes do not fit, and otherwise it writes just these, none of which is without
room. -/
structure Atomic (result : Nat → Option (Except EncodeError Bytes)) (total : Nat) : Prop where
  refuses {remaining : Nat} : (∃ e, result remaining = some (.error e)) ↔ total > remaining
  error {remaining : Nat} {e : EncodeError} : result remaining = some (.error e) →
    e = ⟨total, remaining⟩
  writes {remaining : Nat} : total ≤ remaining → ∃ written : Bytes,
    result remaining = some (.ok written) ∧ written.length = total ∧
      ∀ (before after : List Bytes) (piece : Bytes),
        (before ++ piece :: after).flatten = written →
          piece.length ≤ remaining - before.flatten.length

theorem atomic_of_eq {result : Nat → Option (Except EncodeError Bytes)} {bytes : Bytes}
    (h : ∀ remaining, result remaining =
      some (if bytes.length > remaining then .error ⟨bytes.length, remaining⟩ else .ok bytes)) :
    Atomic result bytes.length := by
  constructor
  · intro remaining
    rw [h]
    split_ifs with hlt <;> simp [hlt]
  · intro remaining e herror
    rw [h] at herror
    split_ifs at herror with hlt
    · simpa [eq_comm] using herror
    · simp at herror
  · intro remaining hle
    refine ⟨bytes, ?_, rfl, fun before after piece hpieces => pieces_fit hle hpieces⟩
    rw [h, if_neg (Nat.not_lt.mpr hle)]

/-- Encoding to a buffer with limited room is all or nothing. -/
theorem encoding_atomic {allowed : Features} (harrays : ¬allowed.emptyArrays) {M : Type}
    {codec : MessageCodec M} (h : Built allowed (.message codec)) :
    (∀ m, ∃ len, codec.encodedLen m = some len ∧ Atomic (codec.encode m) len ∧
        Atomic (codec.encodeLengthDelimited m) (len + (varint len).length)) ∧
      ∀ message, ∃ len, OpaqueMessage.codec.encodedLen message = some len ∧
        Atomic (OpaqueMessage.codec.encode message) len ∧
        Atomic (OpaqueMessage.codec.encodeLengthDelimited message) (len + (varint len).length) := by
  have hatomic {M : Type} {codec : MessageCodec M} {m : M} {bytes : Bytes}
      (hencode : codec.rawEncode m = some bytes)
      (hlen : codec.rawEncodedLen m = some bytes.length) :
      ∃ len, codec.encodedLen m = some len ∧ Atomic (codec.encode m) len ∧
        Atomic (codec.encodeLengthDelimited m) (len + (varint len).length) := by
    have htotal : bytes.length + (varint bytes.length).length =
        (varint bytes.length ++ bytes).length := by
      rw [List.length_append, Nat.add_comm]
    have hdelimited := encodeLengthDelimited_of_raw hencode hlen
    refine ⟨bytes.length, hlen, atomic_of_eq (encode_of_raw hencode hlen), ?_⟩
    rw [htotal] at hdelimited ⊢
    exact atomic_of_eq hdelimited
  have hwrites : codec.Writes (¬allowed.hashed) := h.writes harrays
  constructor
  · intro m
    obtain ⟨records, hwritten⟩ := hwrites m
    exact hatomic hwritten.encode hwritten.encodedLen
  · intro message
    obtain ⟨hencode, -, hlen⟩ := OpaqueMessage.encoders_agree message
    exact hatomic hencode hlen

theorem encoding_atomic_u32 : ∃ len, (u32Field.derived 1).encodedLen (300 : BitVec 32) = some len ∧
    Atomic ((u32Field.derived 1).encode (300 : BitVec 32)) len := by
  have hbuilt : Built ⟨True, True, False, True⟩ (.message (u32Field.derived 1)) :=
    .derived (by decide) (built_u32Field _)
  obtain ⟨len, hlen, hatomic, -⟩ := (encoding_atomic (fun h => h) hbuilt).1 300
  exact ⟨len, hlen, hatomic⟩

end Bilrost
