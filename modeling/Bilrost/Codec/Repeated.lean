import Bilrost.Codec.Collections
import Mathlib.Data.Vector.Basic

/-!
Repeated values. A packed collection is one delimited value, an unpacked one is
a run of fields under one tag; each can be read in the form of the other, which
is not canonical. Mappings are packed pairs of keys and values, and arrays are
like collections of a fixed number of items that are decoded in place.
-/

namespace Bilrost

open Program

def Collection.emptyState {C T : Type} (coll : Collection C T) : EmptyState C where
  isEmpty := coll.isEmpty
  clear := coll.clear

/-- `ctx.check(items.insert_distinguished(item)?)?` -/
def Collection.insertChecked {C T : Type} (coll : Collection C T) (items : C) (item : T) :
    Program (C × Canonicity) := do
  let (items, canon) ← ofResult (coll.insertDistinguished items item)
  let canon ← checked canon
  .done (items, canon)

/-- Whether no number of items of a fixed size makes up a region. -/
def misfits (fixedSize : Option Nat) (len : Nat) : Bool :=
  match fixedSize with
  | some size => len % size != 0
  | none => false

/-- `combined_fixed_size`. -/
def combinedFixedSize (a b : WireType) : Option Nat :=
  match a.fixedSize, b.fixedSize with
  | some a, some b => some (a + b)
  | _, _ => none

namespace ValueCodec

variable {C T K V : Type}

section
variable (fixedSize : Option Nat) (item : ValueCodec T) (coll : Collection C T)

/-- Decodes one item and inserts it. -/
def decodeItem (mode : DecodingMode) (depth : Nat) (items : C) : Program C := do
  let newVal ← item.decodeValue mode depth item.forOverwrite
  ofResult (coll.insert items newVal)

/-- Decodes one item, which may be empty, and inserts it. -/
def decodeItemDistinguished (mode : DecodingMode) (depth : Nat) :
    C × Canonicity → Program (C × Canonicity)
  | (items, canon) => do
      let (newVal, itemCanon) ← item.decodeValueDistinguished mode true depth item.forOverwrite
      let (items, insertCanon) ← coll.insertChecked items newVal
      .done (items, (canon.update itemCanon).update insertCanon)

/-- Items one after the other in a delimited region, whose size is checked
beforehand when all items have the same size. -/
def packedItems : ValueCodec C where
  forOverwrite := coll.empty
  emptyState := some coll.emptyState
  wireType := .lengthDelimited
  encodeValue value :=
    encodeDelimited (item.manyValuesEncodedLen (coll.iter value))
      (encodeAll item.encodeValue (coll.iter value))
  prependValue value := prependDelimited (prependAll item.prependValue (coll.reversed value))
  valueEncodedLen value := delimitedLen (item.manyValuesEncodedLen (coll.iter value))
  manyValuesEncodedLen := manyValuesEncodedLenDefault .lengthDelimited fun value =>
    delimitedLen (item.manyValuesEncodedLen (coll.iter value))
  decodeValue mode depth value :=
    delimited fun len =>
      if misfits fixedSize len then error .truncated
      else whileRemaining (item.decodeItem coll mode depth) value
  checksEmpty := false
  decodeValueDistinguished mode _ depth value :=
    delimited fun len =>
      if misfits fixedSize len then error .truncated
      else whileRemaining (item.decodeItemDistinguished coll mode depth) (value, .canonical)
  nestsWithin depth value := ∀ v ∈ coll.iter value, item.nestsWithin depth v

end

/-- Values of collections in the encoding `Packed`. -/
def packed (item : ValueCodec T) (coll : Collection C T) : ValueCodec C :=
  packedItems item.wireType.fixedSize item coll

/-- A key and its value, one after the other. As a pair they are never a field,
and their wire type is never asked for. -/
def entry (key : ValueCodec K) (val : ValueCodec V) : ValueCodec (K × V) where
  forOverwrite := (key.forOverwrite, val.forOverwrite)
  emptyState := none
  wireType := .lengthDelimited
  encodeValue e := do
    let keyBytes ← key.encodeValue e.1
    let valBytes ← val.encodeValue e.2
    some (keyBytes ++ valBytes)
  prependValue e buf := do
    let buf ← val.prependValue e.2 buf
    key.prependValue e.1 buf
  valueEncodedLen := len
  manyValuesEncodedLen entries :=
    match combinedFixedSize key.wireType val.wireType with
    | some fixedSize => some (entries.length * fixedSize)
    | none => sumLens len entries
  decodeValue mode depth e := do
    let newKey ← key.decodeValue mode depth e.1
    let newVal ← val.decodeValue mode depth e.2
    .done (newKey, newVal)
  checksEmpty := false
  decodeValueDistinguished mode allowEmpty depth e := do
    let (newKey, keyCanon) ← key.decodeValueDistinguished mode allowEmpty depth e.1
    let (newVal, valCanon) ← val.decodeValueDistinguished mode allowEmpty depth e.2
    .done ((newKey, newVal), keyCanon.update valCanon)
  same b e e' := key.same b e.1 e'.1 ∧ val.same b e.2 e'.2
  nestsWithin depth e := key.nestsWithin depth e.1 ∧ val.nestsWithin depth e.2
where
  len (e : K × V) : Option Nat := do
    let keyLen ← key.valueEncodedLen e.1
    let valLen ← val.valueEncodedLen e.2
    some (keyLen + valLen)

/-- `Map`. -/
def map (key : ValueCodec K) (val : ValueCodec V) (coll : Collection C (K × V)) : ValueCodec C :=
  packedItems (combinedFixedSize key.wireType val.wireType) (key.entry val) coll

section
variable (item : ValueCodec T)

/-- Encodes values as fields under one tag. -/
def encodeFields (tag : Nat) : List T → TagWriter → Option (Bytes × TagWriter)
  | [], tw => some ([], tw)
  | v :: vs, tw => do
      let (bytes, tw) ← item.encodeField tag v tw
      let (rest, tw) ← encodeFields tag vs tw
      some (bytes ++ rest, tw)

/-- Prepends values as fields under one tag, in the order given. -/
def prependFields (tag : Nat) : List T → Bytes → TagRevWriter → Option (Bytes × TagRevWriter)
  | [], buf, tw => some (buf, tw)
  | v :: vs, buf, tw => do
      let (buf, tw) ← item.prependField tag v buf tw
      prependFields tag vs buf tw

/-- The length of `count` fields under one tag, which after the first one have
keys of one byte. -/
def fieldsEncodedLen (tag : Nat) (values : List T) (count : Nat) (tm : TagMeasurer) :
    Option (Nat × TagMeasurer) := do
  let (keyLen, tm) ← tm.keyLen tag
  let len ← item.manyValuesEncodedLen values
  some (keyLen + len + count - 1, tm)

variable (coll : Collection C T)

/-- One field of an unpacked collection. -/
def decodeRepeated (mode : DecodingMode) (depth : Nat) (wireType : WireType) (items : C) :
    Program C := do
  checkWireType item.wireType wireType
  item.decodeItem coll mode depth items

def decodeRepeatedDistinguished (mode : DecodingMode) (depth : Nat) (wireType : WireType)
    (state : C × Canonicity) : Program (C × Canonicity) := do
  checkWireType item.wireType wireType
  item.decodeItemDistinguished coll mode depth state

/-- `unpacked::decode`. -/
def decodeUnpacked (mode : DecodingMode) (depth : Nat) (wireType : WireType) (items : C) :
    Program C := do
  let items ← item.decodeRepeated coll mode depth wireType items
  whileRepeated (item.decodeRepeated coll mode depth) items

/-- `unpacked::decode_distinguished`. -/
def decodeUnpackedDistinguished (mode : DecodingMode) (depth : Nat) (wireType : WireType)
    (items : C) : Program (C × Canonicity) := do
  let state ← item.decodeRepeatedDistinguished coll mode depth wireType (items, .canonical)
  whileRepeated (item.decodeRepeatedDistinguished coll mode depth) state

/-- Whether a field has the wire type of a packed value where unpacked ones are
expected. -/
def comesPacked (wireType : WireType) : Bool :=
  wireType == .lengthDelimited && item.wireType != .lengthDelimited

/-- Fields of collections in the encoding `Unpacked`. -/
def unpackedField : FieldCodec C where
  forOverwrite := coll.empty
  emptyState := coll.emptyState
  encode tag value tw := item.encodeFields tag (coll.iter value) tw
  prependEncode tag value buf tw := item.prependFields tag (coll.reversed value) buf tw
  encodedLen tag value tm :=
    if coll.len value > 0 then item.fieldsEncodedLen tag (coll.iter value) (coll.len value) tm
    else some (0, tm)
  decode mode depth wireType value :=
    if item.comesPacked wireType then (item.packed coll).decodeValue mode depth value
    else item.decodeUnpacked coll mode depth wireType value
  decodeDistinguished mode depth wireType value :=
    if item.comesPacked wireType then do
      let _ ← checked .notCanonical
      let value ← (item.packed coll).decodeValue mode depth value
      .done (value, .notCanonical)
    else item.decodeUnpackedDistinguished coll mode depth wireType value
  nestsWithin depth value := ∀ v ∈ coll.iter value, item.nestsWithin depth v

/-- Fields of collections in the encoding `Packed`. -/
def packedField : FieldCodec C where
  forOverwrite := coll.empty
  emptyState := coll.emptyState
  encode tag value tw :=
    if coll.isEmpty value then some ([], tw) else (item.packed coll).encodeField tag value tw
  prependEncode tag value buf tw :=
    if coll.isEmpty value then some (buf, tw)
    else (item.packed coll).prependField tag value buf tw
  encodedLen tag value tm :=
    if coll.isEmpty value then some (0, tm) else (item.packed coll).fieldEncodedLen tag value tm
  decode mode depth wireType value :=
    if wireType = .lengthDelimited then (item.packed coll).decodeValue mode depth value
    else item.decodeUnpacked coll mode depth wireType value
  decodeDistinguished mode depth wireType value :=
    if wireType = .lengthDelimited then do
      let (value, canon) ← (item.packed coll).decodeValueDistinguished mode false depth value
      if !(item.packed coll).checksEmpty && coll.isEmpty value then do
        let canon ← checked .notCanonical
        .done (value, canon)
      else .done (value, canon)
    else do
      let _ ← checked .notCanonical
      let value ← item.decodeUnpacked coll mode depth wireType value
      .done (value, .notCanonical)
  nestsWithin depth value := ∀ v ∈ coll.iter value, item.nestsWithin depth v

end

end ValueCodec

end Bilrost
