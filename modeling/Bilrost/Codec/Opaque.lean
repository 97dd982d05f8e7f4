import Bilrost.Base.SortedMap
import Bilrost.Codec.Message
import Bilrost.Codec.Scalars

/-!
Opaque messages: any well-formed sequence of fields, kept as lists of values by
tag. Nothing is known about the fields, so every wire type is taken as it
comes, repeated tags keep the order of their values, and what is written is
what was read.
-/

namespace Bilrost

open Program

/-- Bytes that memory can hold. -/
abbrev Slice := {bytes : Bytes // bytes.length < 2 ^ 64}

inductive OpaqueValue where
  | varint (value : UInt64)
  | lengthDelimited (value : Slice)
  | thirtyTwoBit (value : List.Vector UInt8 4)
  | sixtyFourBit (value : List.Vector UInt8 8)
  deriving DecidableEq

namespace OpaqueValue

def wireType : OpaqueValue → WireType
  | varint _ => .varint
  | lengthDelimited _ => .lengthDelimited
  | thirtyTwoBit _ => .thirtyTwoBit
  | sixtyFourBit _ => .sixtyFourBit

def encodeValue : OpaqueValue → Bytes
  | varint value => encodeVarint value.toNat
  | lengthDelimited value => encodeVarint value.val.length ++ value.val
  | thirtyTwoBit value => value.toList
  | sixtyFourBit value => value.toList

def prependValue : OpaqueValue → Bytes → Bytes
  | varint value, buf => prependVarint value.toNat buf
  | lengthDelimited value, buf => prependVarint value.val.length (value.val ++ buf)
  | thirtyTwoBit value, buf => value.toList ++ buf
  | sixtyFourBit value, buf => value.toList ++ buf

def encodeField (value : OpaqueValue) (tag : Nat) (tw : TagWriter) : Option (Bytes × TagWriter) := do
  let (key, tw) ← tw.encodeKey tag value.wireType
  some (key ++ value.encodeValue, tw)

def prependField (value : OpaqueValue) (tag : Nat) (buf : Bytes) (tw : TagRevWriter) :
    Option (Bytes × TagRevWriter) := do
  let (buf, tw) ← tw.beginField tag value.wireType buf
  some (value.prependValue buf, tw)

def valueEncodedLen : OpaqueValue → Nat
  | varint value => encodedLenVarint value.toNat
  | lengthDelimited value => encodedLenVarint value.val.length + value.val.length
  | thirtyTwoBit _ => 4
  | sixtyFourBit _ => 8

/-- An array of `n` bytes out of the `n` bytes that were copied. -/
def arrayOf (n : Nat) (bytes : Bytes) : Program (List.Vector UInt8 n) :=
  if h : bytes.length = n then .done ⟨bytes, h⟩ else error .truncated

/-- A slice of bytes that were in memory. -/
def sliceOf (bytes : Bytes) : Program Slice :=
  if h : bytes.length < 2 ^ 64 then .done ⟨bytes, h⟩ else error .truncated

/-- `decode_value` and `borrow_decode_value`. -/
def decodeValue (mode : DecodingMode) : WireType → Program OpaqueValue
  | .varint => .op .decodeVarint fun value => .done (.varint (UInt64.ofNat value))
  | .lengthDelimited => do
      let bytes ← (match mode with
        | .owned => DelimitedRead.copied
        | .borrowed => DelimitedRead.borrowed).bytes
      let value ← sliceOf bytes
      .done (.lengthDelimited value)
  | .thirtyTwoBit => .op (.getBytes 4) fun bytes => do
      let value ← arrayOf 4 bytes
      .done (.thirtyTwoBit value)
  | .sixtyFourBit => .op (.getBytes 8) fun bytes => do
      let value ← arrayOf 8 bytes
      .done (.sixtyFourBit value)

/-- The value as a record with a tag. -/
def record (value : OpaqueValue) (tag : Nat) : Record := ⟨tag, value.wireType, value.encodeValue⟩

end OpaqueValue

/-- `u32` tags. -/
abbrev Tag := Fin (2 ^ 32)

/-- `OpaqueMessage`: lists of values by tag. A list is there from the first
insertion on, and values are never taken out. -/
@[ext] structure OpaqueMessage where
  fields : SortedMap Tag (List OpaqueValue)
  nonempty : ∀ field ∈ fields.entries, field.2 ≠ []

namespace OpaqueMessage

def new : OpaqueMessage := ⟨.empty, by simp [SortedMap.empty]⟩

/-- Pushes a value on the list that is there, if there is one. -/
def push (value : OpaqueValue) (values : Option (List OpaqueValue)) : List OpaqueValue :=
  values.getD [] ++ [value]

def insert (message : OpaqueMessage) (tag : Tag) (value : OpaqueValue) : OpaqueMessage where
  fields := message.fields.upsert tag (push value)
  nonempty field hfield := by
    rcases SortedMap.mem_upsertEntries hfield with h | rfl | ⟨values, rfl⟩
    · exact message.nonempty field h
    · simp [push]
    · simp [push]

/-- `iter`: all values with their tags. -/
def iter (message : OpaqueMessage) : List (Tag × OpaqueValue) :=
  message.fields.entries.flatMap fun field => field.2.map fun value => (field.1, value)

/-- `from_iter`. -/
def fromIter (items : List (Tag × OpaqueValue)) : OpaqueMessage :=
  items.foldl (fun message item => message.insert item.1 item.2) new

def isEmpty (message : OpaqueMessage) : Bool := message.fields.isEmpty

def encodeFields : List (Tag × OpaqueValue) → TagWriter → Option (Bytes × TagWriter)
  | [], tw => some ([], tw)
  | (tag, value) :: items, tw => do
      let (bytes, tw) ← value.encodeField tag.val tw
      let (rest, tw) ← encodeFields items tw
      some (bytes ++ rest, tw)

def prependFields : List (Tag × OpaqueValue) → Bytes → TagRevWriter → Option (Bytes × TagRevWriter)
  | [], buf, tw => some (buf, tw)
  | (tag, value) :: items, buf, tw => do
      let (buf, tw) ← value.prependField tag.val buf tw
      prependFields items buf tw

def measureFields : List (Tag × OpaqueValue) → TagMeasurer → Option Nat
  | [], _ => some 0
  | (tag, value) :: items, tm => do
      let (keyLen, tm) ← tm.keyLen tag.val
      let rest ← measureFields items tm
      some (keyLen + value.valueEncodedLen + rest)

def rawEncode (message : OpaqueMessage) : Option Bytes := do
  let (bytes, _) ← encodeFields message.iter TagWriter.new
  some bytes

def rawPrepend (message : OpaqueMessage) (buf : Bytes) : Option Bytes := do
  let (buf, tw) ← prependFields message.iter.reverse buf TagRevWriter.new
  some (tw.finalize buf)

def rawEncodedLen (message : OpaqueMessage) : Option Nat :=
  measureFields message.iter (.runtime 0)

def rawDecodeField (mode : DecodingMode) (tag : Nat) (wireType : WireType)
    (message : OpaqueMessage) : Program OpaqueMessage := do
  let value ← OpaqueValue.decodeValue mode wireType
  .done (message.insert (Fin.ofNat (2 ^ 32) tag) value)

/-- `RawMessage for OpaqueMessage`. -/
def codec : MessageCodec OpaqueMessage where
  empty := new
  isEmpty := isEmpty
  clear _ := new
  rawEncode := rawEncode
  rawPrepend := rawPrepend
  rawEncodedLen := rawEncodedLen
  rawDecodeField mode _ tag wireType _ message := rawDecodeField mode tag wireType message
  rawDecodeFieldDistinguished mode _ tag wireType _ message := do
    let message ← rawDecodeField mode tag wireType message
    .done (message, .canonical)

/-- The records that a message is written as. -/
def records (items : List (Tag × OpaqueValue)) : List Record :=
  items.map fun item => item.2.record item.1.val

end OpaqueMessage

end Bilrost
