import Bilrost.Codec.Basic
import Bilrost.Derive.EncodeOrder
import Mathlib.Logic.Equiv.Defs

/-!
Messages made of fields. The generated code of a derived message, the tuples
and the types with handwritten fields all do the same with their fields: write
those that are not empty in the order of their tags, and decode each into its
place by its tag, skipping what is not known. A oneof is a field with several
tags, of which its value has one or none.

A message type is given by a view of its values as the values of its fields
together with whatever the encoding ignores.
-/

namespace Bilrost

open Program

/-- A field as the message it is in uses it. -/
structure MessageField (T : Type) where
  tags : List Nat
  /-- The tag that the field is written with, unless it is empty. Of a oneof
  this is `oneof_current_tag`; of other fields the source never asks for it. -/
  currentTag : T → Option Nat
  empty : T
  isEmpty : T → Bool
  clear : T → T
  encode : T → TagWriter → Option (Bytes × TagWriter)
  prependEncode : T → Bytes → TagRevWriter → Option (Bytes × TagRevWriter)
  encodedLen : T → TagMeasurer → Option (Nat × TagMeasurer)
  /-- Decodes a field with the tag, wire type and duplication given. -/
  decode : DecodingMode → Nat → Nat → WireType → Bool → T → Program T
  decodeDistinguished :
    DecodingMode → Nat → Nat → WireType → Bool → T → Program (T × Canonicity)
  same : Bool → T → T → Prop := fun _ => Eq
  nestsWithin : Nat → T → Prop := fun _ _ => True

/-- A field with one tag. -/
def FieldCodec.tagged {T : Type} (codec : FieldCodec T) (tag : Nat) : MessageField T where
  tags := [tag]
  currentTag value := if codec.emptyState.isEmpty value then none else some tag
  empty := codec.forOverwrite
  isEmpty := codec.emptyState.isEmpty
  clear := codec.emptyState.clear
  encode := codec.encode tag
  prependEncode := codec.prependEncode tag
  encodedLen := codec.encodedLen tag
  decode mode depth _ wireType duplicated value :=
    if duplicated then error .unexpectedlyRepeated else codec.decode mode depth wireType value
  decodeDistinguished mode depth _ wireType duplicated value :=
    if duplicated then error .unexpectedlyRepeated
    else codec.decodeDistinguished mode depth wireType value
  same := codec.same
  nestsWithin := codec.nestsWithin

/-- `Oneof`: variants with a tag each, and an empty state that is a variant of
the type itself or the `None` around it. -/
structure Oneof (T : Type) where
  count : Nat
  Ty : Fin count → Type
  tag : Fin count → Nat
  codec : (i : Fin count) → ValueCodec (Ty i)
  view : T ≃ Option ((i : Fin count) × Ty i)

namespace Oneof

variable {T : Type} (oneof : Oneof T)

def tags : List Nat := (List.finRange oneof.count).map oneof.tag

/-- The variant with a tag. -/
def variant (tag : Nat) : Option (Fin oneof.count) :=
  (List.finRange oneof.count).find? fun i => oneof.tag i = tag

/-- `oneof_current_tag`. -/
def currentTag (value : T) : Option Nat := (oneof.view value).map fun v => oneof.tag v.1

def construct (i : Fin oneof.count) (value : oneof.Ty i) : T := oneof.view.symm (some ⟨i, value⟩)

/-- `oneof_decode_field`. A value that is there already is not decoded into. -/
def decodeField (mode : DecodingMode) (depth tag : Nat) (wireType : WireType) (value : T) :
    Program T :=
  match oneof.currentTag value, oneof.variant tag with
  | some current, _ => error (if current = tag then .unexpectedlyRepeated else .conflictingFields)
  | none, some i => do
      let value ← (oneof.codec i).decodeField mode depth wireType (oneof.codec i).forOverwrite
      .done (oneof.construct i value)
  -- only called with tags of the oneof
  | none, none => error .other

/-- `oneof_decode_field_distinguished`. An empty value in a variant is fine. -/
def decodeFieldDistinguished (mode : DecodingMode) (depth tag : Nat) (wireType : WireType)
    (value : T) : Program (T × Canonicity) :=
  match oneof.currentTag value, oneof.variant tag with
  | some current, _ => error (if current = tag then .unexpectedlyRepeated else .conflictingFields)
  | none, some i => do
      let (value, canon) ← (oneof.codec i).decodeFieldDistinguished mode true depth wireType
        (oneof.codec i).forOverwrite
      .done (oneof.construct i value, canon)
  | none, none => error .other

/-- A oneof as a field of a message. -/
def field : MessageField T where
  tags := oneof.tags
  currentTag := oneof.currentTag
  empty := oneof.view.symm none
  isEmpty value := (oneof.view value).isNone
  clear _ := oneof.view.symm none
  encode value tw :=
    match oneof.view value with
    | some v => (oneof.codec v.1).encodeField (oneof.tag v.1) v.2 tw
    | none => some ([], tw)
  prependEncode value buf tw :=
    match oneof.view value with
    | some v => (oneof.codec v.1).prependField (oneof.tag v.1) v.2 buf tw
    | none => some (buf, tw)
  encodedLen value tm :=
    match oneof.view value with
    | some v => (oneof.codec v.1).fieldEncodedLen (oneof.tag v.1) v.2 tm
    | none => some (0, tm)
  decode mode depth tag wireType _ value := oneof.decodeField mode depth tag wireType value
  decodeDistinguished mode depth tag wireType _ value :=
    oneof.decodeFieldDistinguished mode depth tag wireType value
  nestsWithin depth value := ∀ v ∈ oneof.view value, (oneof.codec v.1).nestsWithin depth v.2

end Oneof

/-- `tag_measurer`: with small tags alone all keys have one byte. -/
def tagMeasurer (tags : List Nat) : TagMeasurer :=
  match tags.max? with
  | some maxTag => if maxTag < 32 then .trivial else .runtime 0
  | none => .runtime 0

/-- The fields of a message type and what the encoding ignores of it. -/
structure Fields (M : Type) where
  count : Nat
  Ty : Fin count → Type
  field : (i : Fin count) → MessageField (Ty i)
  Ignored : Type
  ignoredDefault : Ignored
  view : M ≃ ((i : Fin count) → Ty i) × Ignored

namespace Fields

variable {M : Type} (F : Fields M)

/-- The fields, by number. -/
abbrev Index : Type := Fin F.count

instance : Tagged F.Index where
  tags i := (F.field i).tags

def indices : List F.Index := List.finRange F.count

def get (m : M) (i : F.Index) : F.Ty i := (F.view m).1 i

def set (m : M) (i : F.Index) (value : F.Ty i) : M :=
  F.view.symm (Function.update (F.view m).1 i value, (F.view m).2)

/-- The field that has a tag. -/
def fieldOf (tag : Nat) : Option F.Index := F.indices.find? fun i => tag ∈ (F.field i).tags

/-- The tags that the fields of a message are written with. -/
def currentTag (m : M) (i : F.Index) : Option Nat := (F.field i).currentTag (F.get m i)

/-- The order in which fields are written, forwards and backwards, and how their
keys are measured. -/
structure Writing where
  measurer : TagMeasurer
  forward : M → List F.Index
  backward : M → List F.Index

/-- The chunks that the fields are planned in. Planning does not fail on fields
with distinct tags. -/
def chunks : List (FieldChunk F.Index) := (MessageFieldsSorted.new F.indices).getD []

/-- What the derive macro generates. -/
def derived : F.Writing where
  -- planning has used up the iterator of the fields when `tag_measurer` gets it
  measurer := tagMeasurer []
  forward m := MessageFieldsSorted.encodeOrder (F.currentTag m) F.chunks
  backward m := MessageFieldsSorted.prependOrder (F.currentTag m) F.chunks

/-- Fields that are written as they are listed. -/
def listed (measurer : TagMeasurer) : F.Writing where
  measurer := measurer
  forward _ := F.indices
  backward _ := F.indices.reverse

def encodeIn (m : M) : List F.Index → TagWriter → Option (Bytes × TagWriter)
  | [], tw => some ([], tw)
  | i :: is, tw => do
      let (bytes, tw) ← (F.field i).encode (F.get m i) tw
      let (rest, tw) ← encodeIn m is tw
      some (bytes ++ rest, tw)

def prependIn (m : M) : List F.Index → Bytes → TagRevWriter → Option (Bytes × TagRevWriter)
  | [], buf, tw => some (buf, tw)
  | i :: is, buf, tw => do
      let (buf, tw) ← (F.field i).prependEncode (F.get m i) buf tw
      prependIn m is buf tw

def encodedLenIn (m : M) : List F.Index → TagMeasurer → Option (Nat × TagMeasurer)
  | [], tm => some (0, tm)
  | i :: is, tm => do
      let (len, tm) ← (F.field i).encodedLen (F.get m i) tm
      let (rest, tm) ← encodedLenIn m is tm
      some (len + rest, tm)

/-- The message with these fields, written in this way. -/
def message (w : F.Writing) : MessageCodec M where
  empty := F.view.symm (fun i => (F.field i).empty, F.ignoredDefault)
  isEmpty m := F.indices.all fun i => (F.field i).isEmpty (F.get m i)
  clear m := F.view.symm (fun i => (F.field i).clear (F.get m i), (F.view m).2)
  rawEncode m := do
    let (bytes, _) ← F.encodeIn m (w.forward m) TagWriter.new
    some bytes
  rawPrepend m buf := do
    let (buf, tw) ← F.prependIn m (w.backward m) buf TagRevWriter.new
    some (tw.finalize buf)
  rawEncodedLen m := do
    let (len, _) ← F.encodedLenIn m (w.forward m) w.measurer
    some len
  rawDecodeField mode depth tag wireType duplicated m :=
    match F.fieldOf tag with
    | some i => do
        let value ← (F.field i).decode mode depth tag wireType duplicated (F.get m i)
        .done (F.set m i value)
    | none => do
        skipField wireType
        .done m
  rawDecodeFieldDistinguished mode depth tag wireType duplicated m :=
    match F.fieldOf tag with
    | some i => do
        let (value, canon) ←
          (F.field i).decodeDistinguished mode depth tag wireType duplicated (F.get m i)
        .done (F.set m i value, canon)
    | none => do
        let canon ← checked .hasExtensions
        skipField wireType
        .done (m, canon)
  same
    | true => Eq
    | false => fun m m' => ∀ i, (F.field i).same false (F.get m i) (F.get m' i)
  nestsWithin depth m := ∀ i, (F.field i).nestsWithin depth (F.get m i)

end Fields

namespace MessageCodec

variable {M : Type} (codec : MessageCodec M)

/-- Values of tuples, ranges and other types with handwritten fields. The region
is taken before the limit is tested, and without contents a value that may not
be empty is refused in between. -/
def tupled : ValueCodec M where
  forOverwrite := codec.empty
  emptyState := some { isEmpty := codec.isEmpty, clear := codec.clear }
  wireType := .lengthDelimited
  encodeValue value := encodeDelimited (codec.rawEncodedLen value) (codec.rawEncode value)
  prependValue value := prependDelimited (codec.rawPrepend value)
  valueEncodedLen value := delimitedLen (codec.rawEncodedLen value)
  manyValuesEncodedLen := manyValuesEncodedLenDefault .lengthDelimited fun value =>
    delimitedLen (codec.rawEncodedLen value)
  decodeValue mode depth value :=
    delimited fun _ => do
      limitReached depth
      noted (.enters depth)
      codec.merge mode (depth - 1) value
  checksEmpty := true
  decodeValueDistinguished mode allowEmpty depth value :=
    delimited fun len =>
      if !allowEmpty && len == 0 then do
        noted (.skipsEmpty depth)
        let canon ← checked .notCanonical
        .done (value, canon)
      else do
        limitReached depth
        noted (.enters depth)
        codec.mergeDistinguished mode (depth - 1) value
  same := codec.same
  nestsWithin depth value := ∃ inner, depth = inner + 1 ∧ codec.nestsWithin inner value

/-- A message variant of a oneof. Its decoder is generated in place and does not
look at the depth of recursion. -/
def inlined : ValueCodec M where
  forOverwrite := codec.empty
  emptyState := none
  wireType := .lengthDelimited
  encodeValue value := encodeDelimited (codec.rawEncodedLen value) (codec.rawEncode value)
  prependValue value := prependDelimited (codec.rawPrepend value)
  valueEncodedLen value := delimitedLen (codec.rawEncodedLen value)
  manyValuesEncodedLen := manyValuesEncodedLenDefault .lengthDelimited fun value =>
    delimitedLen (codec.rawEncodedLen value)
  decodeValue mode depth value :=
    delimited fun _ => do
      noted .entersVariant
      codec.merge mode depth value
  checksEmpty := false
  decodeValueDistinguished mode _ depth value :=
    delimited fun _ => do
      noted .entersVariant
      codec.mergeDistinguished mode depth value
  same := codec.same
  nestsWithin := codec.nestsWithin

end MessageCodec

end Bilrost
