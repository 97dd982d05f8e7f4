import Bilrost.Codec.Basic

/-!
What can be done with messages: encoding them in several forms, decoding whole
buffers and delimited messages, and replacing the contents of a message that is
already there.

A `ReverseBuffer` is the bytes it holds. What a failed merge leaves in a message
is not followed; where it matters it is a parameter.
-/

namespace Bilrost

open Program

structure EncodeError where
  required : Nat
  remaining : Nat
  deriving DecidableEq, Repr

namespace MessageCodec

variable {M : Type} (codec : MessageCodec M)

/-- `encode` to a buffer with room for `remaining` bytes. -/
def encode (value : M) (remaining : Nat) : Option (Except EncodeError Bytes) := do
  let required ← codec.rawEncodedLen value
  if required > remaining then some (.error ⟨required, remaining⟩)
  else do
    let bytes ← codec.rawEncode value
    some (.ok bytes)

def encodeLengthDelimited (value : M) (remaining : Nat) : Option (Except EncodeError Bytes) := do
  let len ← codec.rawEncodedLen value
  let required := len + encodedLenVarint len
  if required > remaining then some (.error ⟨required, remaining⟩)
  else do
    let bytes ← codec.rawEncode value
    some (.ok (encodeVarint len ++ bytes))

def prepend (value : M) (buf : Bytes) : Option Bytes := codec.rawPrepend value buf

def encodedLen (value : M) : Option Nat := codec.rawEncodedLen value

/-- `encode_to_vec` and `encode_to_bytes`. The capacity is computed first. -/
def encodeToVec (value : M) : Option Bytes := do
  let _ ← codec.encodedLen value
  codec.rawEncode value

/-- `encode_length_delimited_to_vec` and `encode_length_delimited_to_bytes`. -/
def encodeLengthDelimitedToVec (value : M) : Option Bytes := do
  let len ← codec.encodedLen value
  let bytes ← codec.rawEncode value
  some (encodeVarint len ++ bytes)

def encodeFast (value : M) : Option Bytes := codec.rawPrepend value []

def encodeLengthDelimitedFast (value : M) : Option Bytes := do
  let buf ← codec.encodeFast value
  some (prependVarint buf.length buf)

/-- `encode_contiguous`. A buffer with room for `len` bytes stays in one piece,
and full, exactly when `len` bytes are prepended, which the source asserts. -/
def encodeContiguous (value : M) : Option Bytes := do
  let len ← codec.encodedLen value
  let buf ← codec.rawPrepend value []
  if buf.length = len then some buf else none

def encodeLengthDelimitedContiguous (value : M) : Option Bytes := do
  let len ← codec.encodedLen value
  let buf ← codec.rawPrepend value []
  let buf := prependVarint len buf
  if buf.length = len + encodedLenVarint len then some buf else none

section Decode

variable {β : Type} [Buf β]

/-- `decode_capped`, and with borrowing what `decode_borrowed` does. -/
def decodeCapped (mode : DecodingMode) (capped : Capped β) : Except Stop M := do
  let (value, _) ← (codec.merge mode recursionLimit codec.empty).run .notCanonical capped
  .ok value

/-- `decode_restricted_capped`, and with borrowing what
`decode_restricted_borrowed` does. -/
def decodeRestrictedCapped (mode : DecodingMode) (capped : Capped β) (restrictTo : Canonicity) :
    Except Stop (M × Canonicity) := do
  let ((value, canon), _) ←
    (codec.mergeDistinguished mode recursionLimit codec.empty).run restrictTo capped
  let canon ← (check restrictTo canon).mapError .error
  .ok (value, canon)

def decode (buf : β) : Except Stop M := codec.decodeCapped .owned (Capped.new buf)

def decodeLengthDelimited (buf : β) : Except Stop M := do
  let capped ← (Capped.newLengthDelimited buf).mapError .error
  codec.decodeCapped .owned capped

def decodeRestricted (buf : β) (restrictTo : Canonicity) : Except Stop (M × Canonicity) :=
  codec.decodeRestrictedCapped .owned (Capped.new buf) restrictTo

def decodeRestrictedLengthDelimited (buf : β) (restrictTo : Canonicity) :
    Except Stop (M × Canonicity) := do
  let capped ← (Capped.newLengthDelimited buf).mapError .error
  codec.decodeRestrictedCapped .owned capped restrictTo

def decodeDistinguished (buf : β) : Except Stop (M × Canonicity) :=
  codec.decodeRestricted buf .notCanonical

def decodeDistinguishedLengthDelimited (buf : β) : Except Stop (M × Canonicity) :=
  codec.decodeRestrictedLengthDelimited buf .notCanonical

def decodeCanonical (buf : β) : Except Stop M :=
  (codec.decodeRestricted buf .canonical).map Prod.fst

def decodeCanonicalLengthDelimited (buf : β) : Except Stop M :=
  (codec.decodeRestrictedLengthDelimited buf .canonical).map Prod.fst

end Decode

section DecodeBorrowed

/-- The slice that the borrowing forms take off the front of a slice. -/
def takeDelimited (buf : Bytes) : Except Stop Bytes := do
  let (taken, _) ← (Capped.new buf).takeBorrowedLengthDelimited.mapError Stop.error
  .ok taken

def decodeBorrowed (buf : Bytes) : Except Stop M := codec.decodeCapped .borrowed (Capped.new buf)

def decodeBorrowedLengthDelimited (buf : Bytes) : Except Stop M := do
  let taken ← takeDelimited buf
  codec.decodeBorrowed taken

def decodeRestrictedBorrowed (buf : Bytes) (restrictTo : Canonicity) :
    Except Stop (M × Canonicity) :=
  codec.decodeRestrictedCapped .borrowed (Capped.new buf) restrictTo

def decodeRestrictedBorrowedLengthDelimited (buf : Bytes) (restrictTo : Canonicity) :
    Except Stop (M × Canonicity) := do
  let taken ← takeDelimited buf
  codec.decodeRestrictedBorrowed taken restrictTo

def decodeDistinguishedBorrowed (buf : Bytes) : Except Stop (M × Canonicity) :=
  codec.decodeRestrictedBorrowed buf .notCanonical

def decodeDistinguishedBorrowedLengthDelimited (buf : Bytes) : Except Stop (M × Canonicity) :=
  codec.decodeRestrictedBorrowedLengthDelimited buf .notCanonical

def decodeCanonicalBorrowed (buf : Bytes) : Except Stop M :=
  (codec.decodeRestrictedBorrowed buf .canonical).map Prod.fst

def decodeCanonicalBorrowedLengthDelimited (buf : Bytes) : Except Stop M :=
  (codec.decodeRestrictedBorrowedLengthDelimited buf .canonical).map Prod.fst

end DecodeBorrowed

section Replace

variable {β : Type} [Buf β]

/-- `replace_from_capped`: the message afterwards and the result. `residue` is
what the merge has left in the message where it fails. -/
def replaceFromCapped (mode : DecodingMode) (self residue : M) (capped : Capped β) :
    M × Except Stop Unit :=
  match (codec.merge mode recursionLimit (codec.clear self)).run .notCanonical capped with
  | .ok (value, _) => (value, .ok ())
  | .error stop => (codec.clear residue, .error stop)

/-- `replace_restricted_from_capped`. The message is not cleared any more when
the last check fails. -/
def replaceRestrictedFromCapped (mode : DecodingMode) (self residue : M) (capped : Capped β)
    (restrictTo : Canonicity) : M × Except Stop Canonicity :=
  match (codec.mergeDistinguished mode recursionLimit (codec.clear self)).run restrictTo capped with
  | .ok ((value, canon), _) => (value, (check restrictTo canon).mapError .error)
  | .error stop => (codec.clear residue, .error stop)

def replaceFrom (self residue : M) (buf : β) : M × Except Stop Unit :=
  codec.replaceFromCapped .owned self residue (Capped.new buf)

/-- `replace_from_length_delimited`. The delimiter is read before the message is
cleared. -/
def replaceFromLengthDelimited (self residue : M) (buf : β) : M × Except Stop Unit :=
  match Capped.newLengthDelimited buf with
  | .ok capped => codec.replaceFromCapped .owned self residue capped
  | .error kind => (self, .error (.error kind))

def replaceRestrictedFrom (self residue : M) (buf : β) (restrictTo : Canonicity) :
    M × Except Stop Canonicity :=
  codec.replaceRestrictedFromCapped .owned self residue (Capped.new buf) restrictTo

def replaceRestrictedFromLengthDelimited (self residue : M) (buf : β) (restrictTo : Canonicity) :
    M × Except Stop Canonicity :=
  match Capped.newLengthDelimited buf with
  | .ok capped => codec.replaceRestrictedFromCapped .owned self residue capped restrictTo
  | .error kind => (self, .error (.error kind))

def replaceDistinguishedFrom (self residue : M) (buf : β) : M × Except Stop Canonicity :=
  codec.replaceRestrictedFrom self residue buf .notCanonical

def replaceDistinguishedFromLengthDelimited (self residue : M) (buf : β) :
    M × Except Stop Canonicity :=
  codec.replaceRestrictedFromLengthDelimited self residue buf .notCanonical

def replaceCanonicalFrom (self residue : M) (buf : β) : M × Except Stop Unit :=
  let (after, result) := codec.replaceRestrictedFrom self residue buf .canonical
  (after, result.map fun _ => ())

def replaceCanonicalFromLengthDelimited (self residue : M) (buf : β) : M × Except Stop Unit :=
  let (after, result) := codec.replaceRestrictedFromLengthDelimited self residue buf .canonical
  (after, result.map fun _ => ())

def replaceBorrowedFrom (self residue : M) (buf : Bytes) : M × Except Stop Unit :=
  codec.replaceFromCapped .borrowed self residue (Capped.new buf)

def replaceBorrowedFromLengthDelimited (self residue : M) (buf : Bytes) : M × Except Stop Unit :=
  match takeDelimited buf with
  | .ok taken => codec.replaceBorrowedFrom self residue taken
  | .error stop => (self, .error stop)

def replaceRestrictedBorrowedFrom (self residue : M) (buf : Bytes) (restrictTo : Canonicity) :
    M × Except Stop Canonicity :=
  codec.replaceRestrictedFromCapped .borrowed self residue (Capped.new buf) restrictTo

def replaceRestrictedBorrowedFromLengthDelimited (self residue : M) (buf : Bytes)
    (restrictTo : Canonicity) : M × Except Stop Canonicity :=
  match takeDelimited buf with
  | .ok taken => codec.replaceRestrictedBorrowedFrom self residue taken restrictTo
  | .error stop => (self, .error stop)

def replaceDistinguishedBorrowedFrom (self residue : M) (buf : Bytes) :
    M × Except Stop Canonicity :=
  codec.replaceRestrictedBorrowedFrom self residue buf .notCanonical

def replaceDistinguishedBorrowedFromLengthDelimited (self residue : M) (buf : Bytes) :
    M × Except Stop Canonicity :=
  codec.replaceRestrictedBorrowedFromLengthDelimited self residue buf .notCanonical

def replaceCanonicalBorrowedFrom (self residue : M) (buf : Bytes) : M × Except Stop Unit :=
  let (after, result) := codec.replaceRestrictedBorrowedFrom self residue buf .canonical
  (after, result.map fun _ => ())

def replaceCanonicalBorrowedFromLengthDelimited (self residue : M) (buf : Bytes) :
    M × Except Stop Unit :=
  let (after, result) :=
    codec.replaceRestrictedBorrowedFromLengthDelimited self residue buf .canonical
  (after, result.map fun _ => ())

end Replace

end MessageCodec

end Bilrost
