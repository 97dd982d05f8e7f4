import Bilrost.Codec.Repeated

/-!
Arrays. An array has all its items from the beginning, and they are decoded in
place, one after the other. It is empty when all of its items are.
-/

namespace Bilrost

open Program

/-- The empty state of arrays of items that have one. -/
def EmptyState.array {T : Type} (state : EmptyState T) (n : Nat) :
    EmptyState (List.Vector T n) where
  isEmpty value := value.toList.all state.isEmpty
  clear value := value.map state.clear

namespace ValueCodec

variable {T : Type}

/-- Decodes into one item after the other. -/
def decodeEach (decode : T → Program T) : {n : Nat} → List.Vector T n → Program (List.Vector T n)
  | 0, arr => .done arr
  | _ + 1, arr => do
      let item ← decode arr.head
      let rest ← decodeEach decode arr.tail
      .done (item ::ᵥ rest)

def decodeEachDistinguished (decode : T → Program (T × Canonicity)) :
    {n : Nat} → List.Vector T n → Program (List.Vector T n × Canonicity)
  | 0, arr => .done (arr, .canonical)
  | _ + 1, arr => do
      let (item, canon) ← decode arr.head
      let (rest, restCanon) ← decodeEachDistinguished decode arr.tail
      .done (item ::ᵥ rest, canon.update restCanon)

variable (item : ValueCodec T)

/-- Unless the size of the region was looked at, there is a byte for the next
item. -/
def anotherItem : Program Unit :=
  if item.wireType.fixedSize.isNone then
    .op .hasRemaining fun more => if more then .done () else error .invalidValue
  else .done ()

/-- Unless the size of the region was looked at, no byte is left. -/
def noMoreItems : Program Unit :=
  if item.wireType.fixedSize.isNone then
    .op .hasRemaining fun more => if more then error .invalidValue else .done ()
  else .done ()

/-- Whether the size of a region cannot be that of `n` items. -/
def missizes (n len : Nat) : Bool :=
  match item.wireType.fixedSize with
  | some size => len != size * n
  | none => false

/-- Values of arrays in the encoding `Packed`. -/
def packedArray (n : Nat) : ValueCodec (List.Vector T n) where
  forOverwrite := List.Vector.replicate n item.forOverwrite
  emptyState := item.emptyState.map fun state => state.array n
  wireType := .lengthDelimited
  encodeValue value :=
    encodeDelimited (item.manyValuesEncodedLen value.toList)
      (encodeAll item.encodeValue value.toList)
  prependValue value := prependDelimited (prependAll item.prependValue value.toList.reverse)
  valueEncodedLen value := delimitedLen (item.manyValuesEncodedLen value.toList)
  manyValuesEncodedLen := manyValuesEncodedLenDefault .lengthDelimited fun value =>
    delimitedLen (item.manyValuesEncodedLen value.toList)
  decodeValue mode depth value :=
    delimited fun len =>
      if item.missizes n len then error .invalidValue
      else do
        let value ← decodeEach (fun dest => do
          item.anotherItem
          item.decodeValue mode depth dest) value
        item.noMoreItems
        .done value
  checksEmpty := false
  decodeValueDistinguished mode _ depth value :=
    delimited fun len =>
      if item.missizes n len then error .invalidValue
      else do
        let (value, canon) ← decodeEachDistinguished (fun dest => do
          item.anotherItem
          item.decodeValueDistinguished mode true depth dest) value
        item.noMoreItems
        .done (value, canon)
  same b a a' := List.Forall₂ (item.same b) a.toList a'.toList
  nestsWithin depth value := ∀ v ∈ value.toList, item.nestsWithin depth v

/-- The key of the next field under the same tag. -/
def nextField : Program Unit :=
  .op .peekRepeatedField fun next =>
    match next with
    | some nextWireType => checkWireType item.wireType nextWireType
    | none => error .invalidValue

/-- There is no further field under the same tag. -/
def noMoreFields : Program Unit :=
  .op .peekRepeatedField fun next => if next.isSome then error .invalidValue else .done ()

/-- The items of an array that have fields of their own, after the key of the
first one. -/
def decodeArrayFields (decode : T → Program T) :
    {n : Nat} → List.Vector T n → Program (List.Vector T n)
  | 0, arr => .done arr
  | _ + 1, arr => do
      let first ← decode arr.head
      let rest ← decodeEach (fun dest => do
        item.nextField
        decode dest) arr.tail
      .done (first ::ᵥ rest)

def decodeArrayFieldsDistinguished (decode : T → Program (T × Canonicity)) :
    {n : Nat} → List.Vector T n → Program (List.Vector T n × Canonicity)
  | 0, arr => .done (arr, .canonical)
  | _ + 1, arr => do
      let (first, canon) ← decode arr.head
      let (rest, restCanon) ← decodeEachDistinguished (fun dest => do
        item.nextField
        decode dest) arr.tail
      .done (first ::ᵥ rest, canon.update restCanon)

/-- `decode_array_unpacked_only`. -/
def decodeArrayUnpackedOnly {n : Nat} (mode : DecodingMode) (depth : Nat) (wireType : WireType)
    (arr : List.Vector T n) : Program (List.Vector T n) := do
  checkWireType item.wireType wireType
  let arr ← item.decodeArrayFields (item.decodeValue mode depth) arr
  noMoreFields
  .done arr

/-- `decode_distinguished_array_unpacked_only`. -/
def decodeArrayUnpackedOnlyDistinguished {n : Nat} (mode : DecodingMode) (depth : Nat)
    (wireType : WireType) (arr : List.Vector T n) : Program (List.Vector T n × Canonicity) := do
  checkWireType item.wireType wireType
  let (arr, canon) ← item.decodeArrayFieldsDistinguished
    (item.decodeValueDistinguished mode true depth) arr
  noMoreFields
  .done (arr, canon)

/-- `decode_array_either_repr`. -/
def decodeArrayEitherRepr {n : Nat} (mode : DecodingMode) (depth : Nat) (wireType : WireType)
    (arr : List.Vector T n) : Program (List.Vector T n) :=
  if item.comesPacked wireType then (item.packedArray n).decodeValue mode depth arr
  else item.decodeArrayUnpackedOnly mode depth wireType arr

/-- `decode_distinguished_array_either_repr`. -/
def decodeArrayEitherReprDistinguished {n : Nat} (mode : DecodingMode) (depth : Nat)
    (wireType : WireType) (arr : List.Vector T n) : Program (List.Vector T n × Canonicity) :=
  if item.comesPacked wireType then do
    let _ ← checked .notCanonical
    let arr ← (item.packedArray n).decodeValue mode depth arr
    .done (arr, .notCanonical)
  else item.decodeArrayUnpackedOnlyDistinguished mode depth wireType arr

/-- Fields of arrays in the encoding `Unpacked`. -/
def unpackedArrayField (state : EmptyState T) (n : Nat) : FieldCodec (List.Vector T n) where
  forOverwrite := List.Vector.replicate n item.forOverwrite
  emptyState := state.array n
  encode tag value tw :=
    if (state.array n).isEmpty value then some ([], tw) else item.encodeFields tag value.toList tw
  prependEncode tag value buf tw :=
    if (state.array n).isEmpty value then some (buf, tw)
    else item.prependFields tag value.toList.reverse buf tw
  encodedLen tag value tm :=
    if (state.array n).isEmpty value then some (0, tm)
    else if value.toList.isEmpty then some (0, tm)
    else item.fieldsEncodedLen tag value.toList value.toList.length tm
  decode mode depth wireType value := item.decodeArrayEitherRepr mode depth wireType value
  decodeDistinguished mode depth wireType value := do
    let (value, canon) ← item.decodeArrayEitherReprDistinguished mode depth wireType value
    if (state.array n).isEmpty value then do
      let canon ← checked .notCanonical
      .done (value, canon)
    else .done (value, canon)
  same b a a' := List.Forall₂ (item.same b) a.toList a'.toList
  nestsWithin depth value := ∀ v ∈ value.toList, item.nestsWithin depth v

/-- Fields of arrays in the encoding `Packed`. -/
def packedArrayField (state : EmptyState T) (n : Nat) : FieldCodec (List.Vector T n) where
  forOverwrite := List.Vector.replicate n item.forOverwrite
  emptyState := state.array n
  encode tag value tw :=
    if (state.array n).isEmpty value then some ([], tw)
    else (item.packedArray n).encodeField tag value tw
  prependEncode tag value buf tw :=
    if (state.array n).isEmpty value then some (buf, tw)
    else (item.packedArray n).prependField tag value buf tw
  encodedLen tag value tm :=
    if (state.array n).isEmpty value then some (0, tm)
    else (item.packedArray n).fieldEncodedLen tag value tm
  decode mode depth wireType value :=
    if wireType = .lengthDelimited then (item.packedArray n).decodeValue mode depth value
    else item.decodeArrayUnpackedOnly mode depth wireType value
  decodeDistinguished mode depth wireType value :=
    if wireType = .lengthDelimited then do
      let (value, canon) ← (item.packedArray n).decodeValueDistinguished mode false depth value
      if (state.array n).isEmpty value then do
        let canon ← checked .notCanonical
        .done (value, canon)
      else .done (value, canon)
    else do
      let _ ← checked .notCanonical
      let value ← item.decodeArrayUnpackedOnly mode depth wireType value
      .done (value, .notCanonical)
  same b a a' := List.Forall₂ (item.same b) a.toList a'.toList
  nestsWithin depth value := ∀ v ∈ value.toList, item.nestsWithin depth v

/-- Fields of an `Option` of an array in the encoding `Unpacked`. A key is
measured also when there are no items. -/
def unpackedArrayOptionField (n : Nat) : FieldCodec (Option (List.Vector T n)) where
  forOverwrite := none
  emptyState := { isEmpty := Option.isNone, clear := fun _ => none }
  encode tag value tw :=
    match value with
    | some values => item.encodeFields tag values.toList tw
    | none => some ([], tw)
  prependEncode tag value buf tw :=
    match value with
    | some values => item.prependFields tag values.toList.reverse buf tw
    | none => some (buf, tw)
  encodedLen tag value tm :=
    match value with
    | some values => item.fieldsEncodedLen tag values.toList n tm
    | none => some (0, tm)
  decode mode depth wireType value := do
    let arr ← item.decodeArrayEitherRepr mode depth wireType
      (value.getD (List.Vector.replicate n item.forOverwrite))
    .done (some arr)
  decodeDistinguished mode depth wireType value := do
    let (arr, canon) ← item.decodeArrayEitherReprDistinguished mode depth wireType
      (value.getD (List.Vector.replicate n item.forOverwrite))
    .done (some arr, canon)
  nestsWithin depth value := ∀ arr ∈ value, ∀ v ∈ arr.toList, item.nestsWithin depth v

end ValueCodec

end Bilrost
