import Bilrost.Codec.Merge

/-!
Streams of delimited messages. A buffer that is lent to the calls that decode a
delimited message is left behind it, so that the next message can be decoded
from there.
-/

namespace Bilrost

open Program

section
variable {β : Type} [Buf β]

/-- Reads things one after the other. -/
def readStream {α : Type} (read : β → Except Stop (α × β)) : Nat → β → Except Stop (List α × β)
  | 0, buf => .ok ([], buf)
  | n + 1, buf => do
      let (x, buf) ← read buf
      let (xs, buf) ← readStream read n buf
      .ok (x :: xs, buf)

/-- Bytes are read as a thing when they are at the front of a buffer, which is
left behind them. -/
def StreamsAs {α : Type} (read : β → Except Stop (α × β)) (x : α) (bytes : Bytes) : Prop :=
  ∀ (buf : β) (rest : Bytes), Buf.bytes buf = bytes ++ rest →
    ∃ left, read buf = .ok (x, left) ∧ Buf.bytes left = rest

/-- What can be read from the front can be read one after the other. -/
theorem readStream_of_streamsAs {α : Type} {read : β → Except Stop (α × β)} {xs : List α}
    {frames : List Bytes} (h : List.Forall₂ (StreamsAs read) xs frames) {buf : β} {rest : Bytes}
    (hbuf : Buf.bytes buf = frames.flatten ++ rest) :
    ∃ left, readStream read xs.length buf = .ok (xs, left) ∧ Buf.bytes left = rest := by
  induction h generalizing buf with
  | nil => exact ⟨buf, rfl, hbuf⟩
  | @cons x frame xs frames hx _ ih =>
    rw [List.flatten_cons, List.append_assoc] at hbuf
    obtain ⟨next, hread, hnext⟩ := hx buf (frames.flatten ++ rest) hbuf
    obtain ⟨left, hreads, hleft⟩ := ih hnext
    refine ⟨left, ?_, hleft⟩
    simp only [List.length_cons, readStream, hread, Bind.bind, Except.bind, hreads]

/-- The region behind a delimiter, told by the bytes of the buffer. -/
theorem newLengthDelimited_bytes (buf : β) :
    match parseDelimited (Buf.bytes buf) with
    | some (content, rest) =>
        ∃ capped, Capped.newLengthDelimited buf = .ok capped ∧ capped.Holds content rest
    | none => ∃ kind, Capped.newLengthDelimited buf = .error kind := by
  have hnew : Capped.newLengthDelimited buf = (Capped.new buf).takeLengthDelimited := by
    rw [Capped.newLengthDelimited, Capped.takeLengthDelimited, Capped.new]
    cases decodeLengthDelimiter buf with
    | error kind => rfl
    | ok taken => simp [Bind.bind, Except.bind]
  have htake := (holds_new buf).takeLengthDelimited
  simp only [List.append_nil] at htake
  rw [hnew]
  exact htake

/-- Borrowing the region behind a delimiter splits the slice. -/
theorem takeBorrowedLengthDelimited_bytes (buf : Bytes) :
    match parseDelimited buf with
    | some (content, rest) =>
        (Capped.new buf).takeBorrowedLengthDelimited = .ok (content, Capped.new rest)
    | none => ∃ kind, (Capped.new buf).takeBorrowedLengthDelimited = .error kind := by
  have htake := (holds_new buf).takeLengthDelimited
  rw [Buf.bytes_slice] at htake
  rw [takeBorrowedLengthDelimited_eq]
  cases hparse : parseDelimited buf with
  | none =>
    rw [hparse] at htake
    obtain ⟨kind, htaken⟩ := htake
    exact ⟨kind, by rw [htaken]⟩
  | some parts =>
    obtain ⟨content, rest⟩ := parts
    rw [hparse] at htake
    obtain ⟨capped, htaken, hholds⟩ := htake
    have hbytes := hholds.bytes
    rw [Buf.bytes_slice, List.append_nil] at hbytes
    have hfit : content.length ≤ (Buf.bytes (content ++ rest)).length := by simp
    obtain ⟨htaken', hleft⟩ := Buf.copyOut_spec (content ++ rest) hfit
    rw [Buf.bytes_slice, List.take_left] at htaken'
    rw [Buf.bytes_slice, Buf.bytes_slice, List.drop_left] at hleft
    simp only [htaken, hholds.remainingBeforeCap, Capped.copy, hbytes, htaken', hleft]
    rfl

end

namespace MessageCodec

variable {M : Type} (codec : MessageCodec M) {β : Type} [Buf β]

/-- `decode_length_delimited` from a buffer that is lent. -/
def readLengthDelimited (buf : β) : Except Stop (M × β) := do
  let capped ← (Capped.newLengthDelimited buf).mapError Stop.error
  let (value, capped) ← (codec.merge .owned recursionLimit codec.empty).run .notCanonical capped
  .ok (value, capped.buf)

/-- `decode_restricted_length_delimited` from a buffer that is lent. -/
def readRestrictedLengthDelimited (restrictTo : Canonicity) (buf : β) :
    Except Stop ((M × Canonicity) × β) := do
  let capped ← (Capped.newLengthDelimited buf).mapError Stop.error
  let ((value, canon), capped) ←
    (codec.mergeDistinguished .owned recursionLimit codec.empty).run restrictTo capped
  let canon ← (check restrictTo canon).mapError .error
  .ok ((value, canon), capped.buf)

/-- `decode_borrowed_length_delimited`: where there is a delimited region, what
it is decoded as and the slice afterwards. -/
def splitBorrowedLengthDelimited (buf : Bytes) : Except Stop (Except Stop M × Bytes) := do
  let (taken, capped) ← (Capped.new buf).takeBorrowedLengthDelimited.mapError Stop.error
  .ok (codec.decodeBorrowed taken, capped.buf)

/-- `decode_borrowed_length_delimited` where it succeeds. -/
def readBorrowedLengthDelimited (buf : Bytes) : Except Stop (M × Bytes) := do
  let (decoded, rest) ← codec.splitBorrowedLengthDelimited buf
  let value ← decoded
  .ok (value, rest)

/-- `decode_restricted_borrowed_length_delimited`. -/
def splitRestrictedBorrowedLengthDelimited (restrictTo : Canonicity) (buf : Bytes) :
    Except Stop (Except Stop (M × Canonicity) × Bytes) := do
  let (taken, capped) ← (Capped.new buf).takeBorrowedLengthDelimited.mapError Stop.error
  .ok (codec.decodeRestrictedBorrowed taken restrictTo, capped.buf)

end MessageCodec

end Bilrost
