import Bilrost.Codec.Basic

/-!
Scalars: types whose values are read in one piece. `Varint`, `Fixed` and the
length-delimited encodings of bytes and strings differ in how the bytes are
found and share everything else; each scalar type adds how it is converted.
Distinguished decoding of a scalar is decoding it: every representation is
canonical.
-/

namespace Bilrost

open Program

/-- `EmptyState` of a type whose empty state is one value. -/
def EmptyState.single {T : Type} [DecidableEq T] (empty : T) : EmptyState T where
  isEmpty value := value = empty
  clear _ := empty

/-- What the encodings of scalars have in common. -/
structure Scalar (T : Type) where
  forOverwrite : T
  emptyState : Option (EmptyState T)
  wireType : WireType
  encode : T → Bytes
  prepend : T → Bytes → Bytes
  encodedLen : T → Nat
  manyEncodedLen : List T → Nat
  decode : DecodingMode → Program T

def Scalar.codec {T : Type} (scalar : Scalar T) : ValueCodec T where
  forOverwrite := scalar.forOverwrite
  emptyState := scalar.emptyState
  wireType := scalar.wireType
  encodeValue value := some (scalar.encode value)
  prependValue value buf := some (scalar.prepend value buf)
  valueEncodedLen value := some (scalar.encodedLen value)
  manyValuesEncodedLen values := some (scalar.manyEncodedLen values)
  decodeValue mode _ _ := scalar.decode mode
  checksEmpty := false
  decodeValueDistinguished mode _ _ _ := do
    let value ← scalar.decode mode
    .done (value, .canonical)

/-- The default of `many_values_encoded_len`, for lengths that are always known. -/
def Scalar.manyDefault {T : Type} (wireType : WireType) (encodedLen : T → Nat)
    (values : List T) : Nat :=
  match wireType.fixedSize with
  | some fixedSize => fixedSize * values.length
  | none => (values.map encodedLen).sum

/-- A type that is written as a varint. -/
structure VarintScalar (T : Type) where
  forOverwrite : T
  emptyState : Option (EmptyState T)
  toUint64 : T → Nat
  fromUint64 : Nat → Except DecodeErrorKind T

/-- `Varint`. -/
def VarintScalar.scalar {T : Type} (s : VarintScalar T) : Scalar T where
  forOverwrite := s.forOverwrite
  emptyState := s.emptyState
  wireType := .varint
  encode value := encodeVarint (s.toUint64 value)
  prepend value buf := prependVarint (s.toUint64 value) buf
  encodedLen value := encodedLenVarint (s.toUint64 value)
  manyEncodedLen := Scalar.manyDefault .varint fun value => encodedLenVarint (s.toUint64 value)
  decode _ := .op .decodeVarint fun value => ofResult (s.fromUint64 value)

/-- The two sizes of `Fixed`. -/
inductive FixedWidth where
  | four
  | eight
  deriving DecidableEq, Repr

def FixedWidth.size : FixedWidth → Nat
  | four => 4
  | eight => 8

def FixedWidth.wireType : FixedWidth → WireType
  | four => .thirtyTwoBit
  | eight => .sixtyFourBit

/-- A type that is written as four or eight bytes. Numbers are read after a look
at the cap; arrays of bytes are copied after a look at the buffer only. -/
structure FixedScalar (T : Type) where
  forOverwrite : T
  emptyState : Option (EmptyState T)
  width : FixedWidth
  number : Bool
  toBytes : T → Bytes
  fromBytes : Bytes → Except DecodeErrorKind T

/-- `Fixed`. -/
def FixedScalar.scalar {T : Type} (s : FixedScalar T) : Scalar T where
  forOverwrite := s.forOverwrite
  emptyState := s.emptyState
  wireType := s.width.wireType
  encode := s.toBytes
  prepend value buf := s.toBytes value ++ buf
  encodedLen _ := s.width.size
  manyEncodedLen := Scalar.manyDefault s.width.wireType fun _ => s.width.size
  decode _ :=
    if s.number then .op (.getBytes s.width.size) fun bytes => ofResult (s.fromBytes bytes)
    else .op (.copyBytes s.width.size) fun bytes => ofResult (s.fromBytes bytes)

/-- How the bytes of a delimited scalar are got hold of. -/
inductive DelimitedRead where
  /-- `take_length_delimited`, and then everything is copied out. -/
  | copied
  /-- As `SmolStr` does it. -/
  | smolStr
  /-- `take_borrowed_length_delimited`. -/
  | borrowed
  deriving DecidableEq, Repr

def DelimitedRead.bytes : DelimitedRead → Program Bytes
  | copied => delimited fun _ => read .takeAll
  | smolStr => delimited fun _ => read .takeSmolStr
  | borrowed => read .takeBorrowed

/-- However the bytes are got hold of, they are the delimited bytes. -/
theorem DelimitedRead.parse_bytes (reads : DelimitedRead) (bytes : Bytes) :
    reads.bytes.parse bytes =
      match parseDelimited bytes with
      | some (delimited, rest) => .ok ⟨delimited, .canonical, rest⟩
      | none => .error .other := by
  cases reads with
  | copied =>
    simp only [DelimitedRead.bytes, Program.delimited, Program.parse, Program.read, Op.parse]
    cases parseDelimited bytes with
    | none => rfl
    | some taken => rfl
  | smolStr =>
    simp only [DelimitedRead.bytes, Program.delimited, Program.parse, Program.read, Op.parse]
    cases parseDelimited bytes with
    | none => rfl
    | some taken => rfl
  | borrowed =>
    simp only [DelimitedRead.bytes, Program.parse, Program.read, Op.parse]
    cases parseDelimited bytes with
    | none => rfl
    | some taken => rfl

/-- On a slice all of them are one read. -/
theorem DelimitedRead.run_slice (reads : DelimitedRead) (minCanonicity : Canonicity)
    (slice : Capped Bytes) :
    reads.bytes.run minCanonicity slice =
      match slice.takeBorrowedLengthDelimited with
      | .ok taken => .ok taken
      | .error kind => .error (.error kind) := by
  have hall (delimited : Capped Bytes) : delimited.takeSmolStr = delimited.takeAll := by
    have hle : delimited.remainingBeforeCap ≤ (Buf.bytes delimited.buf).length := Nat.sub_le _ _
    have hcopy := Buf.copyOut_spec _ hle
    rw [Capped.takeSmolStr]
    split_ifs
    · rfl
    · exact Prod.ext hcopy.1.symm (congrArg (Capped.mk · _) hcopy.2.symm)
    · rfl
  cases reads with
  | borrowed =>
    simp only [DelimitedRead.bytes, Program.run, Program.read, Op.run]
    cases slice.takeBorrowedLengthDelimited <;> rfl
  | copied =>
    rw [takeBorrowedLengthDelimited_eq]
    simp only [DelimitedRead.bytes, Program.delimited, Program.run, Program.read, Op.run]
    cases slice.takeLengthDelimited <;> rfl
  | smolStr =>
    rw [takeBorrowedLengthDelimited_eq]
    simp only [DelimitedRead.bytes, Program.delimited, Program.run, Program.read, Op.run, hall]
    cases slice.takeLengthDelimited <;> rfl

theorem sealed_takeAll (len : Nat) : Sealed len (read .takeAll) :=
  sealed_of_parse (regular_read _).seals fun bytes _ => ⟨bytes, .canonical, rfl⟩

theorem sealed_takeSmolStr (len : Nat) : Sealed len (read .takeSmolStr) :=
  sealed_of_parse (regular_read _).seals fun bytes _ => ⟨bytes, .canonical, rfl⟩

theorem DelimitedRead.regular_bytes (reads : DelimitedRead) : Regular reads.bytes := by
  cases reads with
  | copied => exact Regular.delimited (fun _ => regular_read _) sealed_takeAll
  | smolStr => exact Regular.delimited (fun _ => regular_read _) sealed_takeSmolStr
  | borrowed => exact regular_read _

theorem DelimitedRead.advances_bytes (reads : DelimitedRead) : Advances reads.bytes := by
  cases reads with
  | copied => exact advances_region _ _
  | smolStr => exact advances_region _ _
  | borrowed =>
    intro β _ minCanonicity capped capped' x hrun
    simp only [DelimitedRead.bytes, Program.run, Program.read, Op.run,
      takeBorrowedLengthDelimited_eq] at hrun
    cases htake : capped.takeLengthDelimited with
    | error kind => simp [htake] at hrun
    | ok delimited =>
      have hlt := (Capped.takeLengthDelimited_remaining htake).1
      simp only [htake, Except.ok.injEq, Prod.ext_iff] at hrun
      have hcopy := Capped.copy_shrinks
        (⟨delimited.buf, capped.extraBytesRemaining⟩ : Capped β)
        (n := delimited.remainingBeforeCap) (Nat.sub_le _ _)
      rw [← hrun.2]
      exact hcopy.remaining.trans_lt hlt

/-- A type that is written as a length and that many bytes. -/
structure DelimitedScalar (T : Type) where
  forOverwrite : T
  emptyState : Option (EmptyState T)
  toBytes : T → Bytes
  fromBytes : Bytes → Except DecodeErrorKind T
  reads : DecodingMode → DelimitedRead

/-- `PlainBytes` and the encodings of strings. -/
def DelimitedScalar.scalar {T : Type} (s : DelimitedScalar T) : Scalar T where
  forOverwrite := s.forOverwrite
  emptyState := s.emptyState
  wireType := .lengthDelimited
  encode value := encodeVarint (s.toBytes value).length ++ s.toBytes value
  prepend value buf := prependVarint (s.toBytes value).length (s.toBytes value ++ buf)
  encodedLen value := encodedLenVarint (s.toBytes value).length + (s.toBytes value).length
  manyEncodedLen := Scalar.manyDefault .lengthDelimited fun value =>
    encodedLenVarint (s.toBytes value).length + (s.toBytes value).length
  decode mode := do
    let bytes ← (s.reads mode).bytes
    ofResult (s.fromBytes bytes)

/-- `[u8; N]` in the encoding `PlainBytes`, which knows its length. -/
def plainArray (n : Nat) : Scalar (List.Vector UInt8 n) where
  forOverwrite := List.Vector.replicate n 0
  emptyState := some (EmptyState.single (List.Vector.replicate n 0))
  wireType := .lengthDelimited
  encode value := constVarint n ++ value.toList
  prepend value buf := constVarint n ++ (value.toList ++ buf)
  encodedLen _ := (constVarint n).length + n
  manyEncodedLen values := values.length * ((constVarint n).length + n)
  decode _ :=
    delimited fun len =>
      if len ≠ n then error .invalidValue
      else .op (.copyBytes n) fun bytes =>
        if h : bytes.length = n then .done ⟨bytes, h⟩ else error .truncated

/-- What a conversion that is not about messages never fails with. -/
def Refuses {T : Type} (result : Except DecodeErrorKind T) : Prop :=
  result ≠ .error .recursionLimitReached

/-- The conversions to and from `u64` are inverse to each other. -/
structure VarintScalar.Lawful {T : Type} (s : VarintScalar T) : Prop where
  lt (value : T) : s.toUint64 value < 2 ^ 64
  from_to (value : T) : s.fromUint64 (s.toUint64 value) = .ok value
  to_from {n : Nat} {value : T} : s.fromUint64 n = .ok value → s.toUint64 value = n
  refuses (n : Nat) : Refuses (s.fromUint64 n)

structure FixedScalar.Lawful {T : Type} (s : FixedScalar T) : Prop where
  length (value : T) : (s.toBytes value).length = s.width.size
  from_to (value : T) : s.fromBytes (s.toBytes value) = .ok value
  to_from {bytes : Bytes} {value : T} : s.fromBytes bytes = .ok value → s.toBytes value = bytes
  refuses (bytes : Bytes) : Refuses (s.fromBytes bytes)

structure DelimitedScalar.Lawful {T : Type} (s : DelimitedScalar T) : Prop where
  from_to (value : T) : s.fromBytes (s.toBytes value) = .ok value
  to_from {bytes : Bytes} {value : T} : s.fromBytes bytes = .ok value → s.toBytes value = bytes
  refuses (bytes : Bytes) : Refuses (s.fromBytes bytes)

end Bilrost
