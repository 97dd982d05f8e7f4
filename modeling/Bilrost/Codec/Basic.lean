import Bilrost.Decode.Fields

/-!
What an encoding does with a type, as records of functions: one for values
(`ValueEncoder` and the value decoders), one for whole fields (`Encoder` and the
field decoders), and one for messages (`RawMessage` and its decoders). An
encoder of the source returns nothing and may panic, so here it returns the
bytes it wrote, or `none`; a decoder is a program that returns the new value.

Two of the components are not functions of the source but say something about
the values of a type: `same` and `nestsWithin`.
-/

namespace Bilrost

open Program

/-- Whether decoded data may borrow from the input. -/
inductive DecodingMode where
  | owned
  | borrowed
  deriving DecidableEq, Repr

/-- `EmptyState`. The empty state itself is always what `ForOverwrite` produces:
`empty` does that by default, and where it is overridden it puts the empty
states of the parts together. -/
structure EmptyState (T : Type) where
  isEmpty : T → Bool
  clear : T → T

/-- How values of a type are encoded, with `ForOverwrite` and, if there is one,
`EmptyState`. -/
structure ValueCodec (T : Type) where
  forOverwrite : T
  emptyState : Option (EmptyState T)
  wireType : WireType
  encodeValue : T → Option Bytes
  prependValue : T → Bytes → Option Bytes
  valueEncodedLen : T → Option Nat
  manyValuesEncodedLen : List T → Option Nat
  /-- `decode_value` and `borrow_decode_value`, with the remaining depth of
  recursion and the value that is decoded into. -/
  decodeValue : DecodingMode → Nat → T → Program T
  checksEmpty : Bool
  /-- `decode_value_distinguished::<ALLOW_EMPTY>`. -/
  decodeValueDistinguished : DecodingMode → Bool → Nat → T → Program (T × Canonicity)
  /-- `same true` is equality, `same false` is equality up to the fields that
  are ignored by the encoding. -/
  same : Bool → T → T → Prop := fun _ => Eq
  /-- Messages and tuples are nested in a value to no more than this depth. -/
  nestsWithin : Nat → T → Prop := fun _ _ => True

/-- How whole fields of a type are encoded. -/
structure FieldCodec (T : Type) where
  forOverwrite : T
  emptyState : EmptyState T
  encode : Nat → T → TagWriter → Option (Bytes × TagWriter)
  prependEncode : Nat → T → Bytes → TagRevWriter → Option (Bytes × TagRevWriter)
  encodedLen : Nat → T → TagMeasurer → Option (Nat × TagMeasurer)
  decode : DecodingMode → Nat → WireType → T → Program T
  decodeDistinguished : DecodingMode → Nat → WireType → T → Program (T × Canonicity)
  same : Bool → T → T → Prop := fun _ => Eq
  nestsWithin : Nat → T → Prop := fun _ _ => True

/-- `RawMessage` with its decoders. -/
structure MessageCodec (M : Type) where
  empty : M
  isEmpty : M → Bool
  clear : M → M
  rawEncode : M → Option Bytes
  rawPrepend : M → Bytes → Option Bytes
  rawEncodedLen : M → Option Nat
  /-- `raw_decode_field`, with the tag, the wire type and whether the field
  before had the same tag. -/
  rawDecodeField : DecodingMode → Nat → Nat → WireType → Bool → M → Program M
  rawDecodeFieldDistinguished :
    DecodingMode → Nat → Nat → WireType → Bool → M → Program (M × Canonicity)
  same : Bool → M → M → Prop := fun _ => Eq
  /-- The fields of the message nest to no more than this depth. -/
  nestsWithin : Nat → M → Prop := fun _ _ => True

/-- `limit_reached`. -/
def limitReached (depth : Nat) : Program Unit := do
  noted (.meets depth)
  if depth = 0 then error .recursionLimitReached else .done ()

/-- Adds up lengths. -/
def sumLens {T : Type} (len : T → Option Nat) : List T → Option Nat
  | [] => some 0
  | v :: vs => do
      let n ← len v
      let rest ← sumLens len vs
      some (n + rest)

/-- Encodes values one after the other. -/
def encodeAll {T : Type} (encode : T → Option Bytes) : List T → Option Bytes
  | [] => some []
  | v :: vs => do
      let bytes ← encode v
      let rest ← encodeAll encode vs
      some (bytes ++ rest)

/-- Prepends values one after the other, in the order given. -/
def prependAll {T : Type} (prepend : T → Bytes → Option Bytes) : List T → Bytes → Option Bytes
  | [], buf => some buf
  | v :: vs, buf => do
      let buf ← prepend v buf
      prependAll prepend vs buf

/-- The default of `many_values_encoded_len`. -/
def manyValuesEncodedLenDefault {T : Type} (wireType : WireType) (valueEncodedLen : T → Option Nat)
    (values : List T) : Option Nat :=
  match wireType.fixedSize with
  | some fixedSize => some (fixedSize * values.length)
  | none => sumLens valueEncodedLen values

/-- A length and then that many bytes; the length is computed beforehand. -/
def encodeDelimited (len : Option Nat) (content : Option Bytes) : Option Bytes := do
  let len ← len
  let content ← content
  some (encodeVarint len ++ content)

/-- The content and then its length, which is how much the buffer grew. -/
def prependDelimited (content : Bytes → Option Bytes) (buf : Bytes) : Option Bytes := do
  let after ← content buf
  some (prependVarint (after.length - buf.length) after)

def delimitedLen (len : Option Nat) : Option Nat := do
  let len ← len
  some (encodedLenVarint len + len)

namespace ValueCodec

variable {T : Type} (codec : ValueCodec T)

/-- `FieldEncoder::encode_field`. -/
def encodeField (tag : Nat) (value : T) (tw : TagWriter) : Option (Bytes × TagWriter) := do
  let (key, tw) ← tw.encodeKey tag codec.wireType
  let bytes ← codec.encodeValue value
  some (key ++ bytes, tw)

/-- `FieldEncoder::prepend_field`. -/
def prependField (tag : Nat) (value : T) (buf : Bytes) (tw : TagRevWriter) :
    Option (Bytes × TagRevWriter) := do
  let (buf, tw) ← tw.beginField tag codec.wireType buf
  let buf ← codec.prependValue value buf
  some (buf, tw)

/-- `FieldEncoder::field_encoded_len`. -/
def fieldEncodedLen (tag : Nat) (value : T) (tm : TagMeasurer) : Option (Nat × TagMeasurer) := do
  let (keyLen, tm) ← tm.keyLen tag
  let len ← codec.valueEncodedLen value
  some (keyLen + len, tm)

/-- `FieldDecoder::decode_field`. -/
def decodeField (mode : DecodingMode) (depth : Nat) (wireType : WireType) (value : T) :
    Program T := do
  checkWireType codec.wireType wireType
  codec.decodeValue mode depth value

/-- `DistinguishedFieldDecoder::decode_field_distinguished::<ALLOW_EMPTY>`. -/
def decodeFieldDistinguished (mode : DecodingMode) (allowEmpty : Bool) (depth : Nat)
    (wireType : WireType) (value : T) : Program (T × Canonicity) := do
  checkWireType codec.wireType wireType
  codec.decodeValueDistinguished mode allowEmpty depth value

/-- A plain value as a field, which is there only when the value is not empty
(`encoding_implemented_via_value_encoding`). -/
def plain (state : EmptyState T) : FieldCodec T where
  forOverwrite := codec.forOverwrite
  emptyState := state
  encode tag value tw :=
    if state.isEmpty value then some ([], tw) else codec.encodeField tag value tw
  prependEncode tag value buf tw :=
    if state.isEmpty value then some (buf, tw) else codec.prependField tag value buf tw
  encodedLen tag value tm :=
    if state.isEmpty value then some (0, tm) else codec.fieldEncodedLen tag value tm
  decode := codec.decodeField
  decodeDistinguished mode depth wireType value := do
    let (value, canon) ← codec.decodeFieldDistinguished mode false depth wireType value
    if !codec.checksEmpty && state.isEmpty value then
      let emptyCanon ← checked .notCanonical
      .done (value, canon.update emptyCanon)
    else .done (value, canon)
  same := codec.same
  nestsWithin := codec.nestsWithin

/-- A field of an `Option`, which is there when the option is `Some`. -/
def optional : FieldCodec (Option T) where
  forOverwrite := none
  emptyState := { isEmpty := Option.isNone, clear := fun _ => none }
  encode tag value tw :=
    match value with
    | some value => codec.encodeField tag value tw
    | none => some ([], tw)
  prependEncode tag value buf tw :=
    match value with
    | some value => codec.prependField tag value buf tw
    | none => some (buf, tw)
  encodedLen tag value tm :=
    match value with
    | some value => codec.fieldEncodedLen tag value tm
    | none => some (0, tm)
  decode mode depth wireType value := do
    let decoded ← codec.decodeField mode depth wireType (value.getD codec.forOverwrite)
    .done (some decoded)
  decodeDistinguished mode depth wireType value := do
    let (decoded, canon) ←
      codec.decodeFieldDistinguished mode true depth wireType (value.getD codec.forOverwrite)
    .done (some decoded, canon)
  nestsWithin depth value := ∀ v ∈ value, codec.nestsWithin depth v

end ValueCodec

namespace MessageCodec

variable {M : Type} (codec : MessageCodec M)

/-- One round of `merge`: a key and the field behind it. -/
def mergeField (mode : DecodingMode) (depth : Nat) :
    TagReader × Option Nat × M → Program (TagReader × Option Nat × M)
  | (tr, lastTag, value) => do
      let ((tag, wireType), tr) ← tr.decodeKey
      let value ← codec.rawDecodeField mode depth tag wireType (lastTag == some tag) value
      .done (tr, some tag, value)

/-- `merge` and `borrow_merge`. -/
def merge (mode : DecodingMode) (depth : Nat) (value : M) : Program M := do
  let (_, _, value) ← whileRemaining (codec.mergeField mode depth) (TagReader.new, none, value)
  .done value

/-- One round of `merge_distinguished`. -/
def mergeFieldDistinguished (mode : DecodingMode) (depth : Nat) :
    TagReader × Option Nat × M × Canonicity → Program (TagReader × Option Nat × M × Canonicity)
  | (tr, lastTag, value, canon) => do
      let ((tag, wireType), tr) ← tr.decodeKey
      let (value, fieldCanon) ←
        codec.rawDecodeFieldDistinguished mode depth tag wireType (lastTag == some tag) value
      .done (tr, some tag, value, canon.update fieldCanon)

/-- `merge_distinguished` and `borrow_merge_distinguished`, without the debug
assertion at their end. -/
def mergeDistinguished (mode : DecodingMode) (depth : Nat) (value : M) :
    Program (M × Canonicity) := do
  let (_, _, value, canon) ←
    whileRemaining (codec.mergeFieldDistinguished mode depth) (TagReader.new, none, value, .canonical)
  .done (value, canon)

/-- Messages as values (`MessageEncoding`). -/
def nested : ValueCodec M where
  forOverwrite := codec.empty
  emptyState := some { isEmpty := codec.isEmpty, clear := codec.clear }
  wireType := .lengthDelimited
  encodeValue value := encodeDelimited (codec.rawEncodedLen value) (codec.rawEncode value)
  prependValue value := prependDelimited (codec.rawPrepend value)
  valueEncodedLen value := delimitedLen (codec.rawEncodedLen value)
  manyValuesEncodedLen := manyValuesEncodedLenDefault .lengthDelimited fun value =>
    delimitedLen (codec.rawEncodedLen value)
  decodeValue mode depth value := do
    limitReached depth
    delimited fun _ => do
      noted (.enters depth)
      codec.merge mode (depth - 1) value
  checksEmpty := true
  decodeValueDistinguished mode allowEmpty depth value := do
    limitReached depth
    delimited fun len => do
      noted (.enters depth)
      if !allowEmpty && len == 0 then do
        let canon ← checked .notCanonical
        .done (value, canon)
      else codec.mergeDistinguished mode (depth - 1) value
  same := codec.same
  nestsWithin depth value := ∃ inner, depth = inner + 1 ∧ codec.nestsWithin inner value

end MessageCodec

end Bilrost
