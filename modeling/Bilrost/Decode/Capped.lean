import Bilrost.Wire.DecodeVarint

/-!
Reading up to a soft cap. A delimited region is not cut out of the buffer: a
`Capped` remembers how many bytes follow the region and the readers that look
at the cap compare the remaining bytes with that number. Most reads take what
they need from the buffer and may run past the cap.

`Capped.Holds` says what a buffer has before and after the cap, and every
operation is related to what it would do with the bytes before the cap alone:
either the same, or it fails, or it leaves the buffer over the cap.
-/

namespace Bilrost

/-- `Capped`. -/
structure Capped (β : Type) where
  buf : β
  extraBytesRemaining : Nat

/-- `decode_length_delimiter` on a platform with 64-bit lengths, where every
`u64` is a length. -/
def decodeLengthDelimiter {β : Type} [Buf β] (buf : β) : Except DecodeErrorKind (Nat × β) :=
  match decodeVarint buf with
  | (.ok len, buf) => .ok (len, buf)
  | (.error err, _) => .error err

namespace Capped

variable {β : Type} [Buf β]

/-- `Capped::new`: the cap at the end of the buffer. -/
def new (buf : β) : Capped β := ⟨buf, 0⟩

def remaining (capped : Capped β) : Nat := Buf.remaining capped.buf

def remainingBeforeCap (capped : Capped β) : Nat :=
  capped.remaining - capped.extraBytesRemaining

def overCap (capped : Capped β) : Bool := capped.remaining < capped.extraBytesRemaining

def advance (capped : Capped β) (n : Nat) : Capped β :=
  { capped with buf := Buf.advance capped.buf n }

/-- Copies `n` bytes that are known to be there. -/
def copy (capped : Capped β) (n : Nat) : Bytes × Capped β :=
  let (bytes, buf) := Buf.copyOut n capped.buf
  (bytes, { capped with buf })

/-- `Capped::new_length_delimited`. -/
def newLengthDelimited (buf : β) : Except DecodeErrorKind (Capped β) := do
  let (len, buf) ← decodeLengthDelimiter buf
  let remaining := Buf.remaining buf
  if len > remaining then .error .truncated else .ok ⟨buf, remaining - len⟩

/-- `take_length_delimited`: the cap of the region. -/
def takeLengthDelimited (capped : Capped β) : Except DecodeErrorKind (Capped β) := do
  let (len, buf) ← decodeLengthDelimiter capped.buf
  let remaining := Buf.remaining buf
  if len > remaining then .error .truncated
  else
    let extraBytesRemaining := remaining - len
    if extraBytesRemaining < capped.extraBytesRemaining then .error .truncated
    else .ok ⟨buf, extraBytesRemaining⟩

/-- `decode_varint`. -/
def decodeVarint (capped : Capped β) : Except DecodeErrorKind (Nat × Capped β) :=
  match Bilrost.decodeVarint capped.buf with
  | (.ok value, buf) => .ok (value, { capped with buf })
  | (.error err, buf) =>
      .error (if err = .invalidVarint ∧ ({ capped with buf } : Capped β).overCap then .truncated
        else err)

/-- `has_remaining`. -/
def hasRemaining (capped : Capped β) : Except DecodeErrorKind Bool :=
  match compare capped.remaining capped.extraBytesRemaining with
  | .lt => .error .truncated
  | .eq => .ok false
  | .gt => .ok true

/-- `peek_repeated_field`. -/
def peekRepeatedField (capped : Capped β) : Option WireType × Capped β :=
  if capped.remainingBeforeCap = 0 then (none, capped)
  else
    let peekKey := (Buf.chunk capped.buf).headD 0
    if 4 ≤ peekKey.toNat then (none, capped)
    else (some (WireType.fromU8 peekKey.toNat), capped.advance 1)

/-- Reads a number of fixed size, or bytes, after a look at the cap. -/
def getBytes (capped : Capped β) (n : Nat) : Except DecodeErrorKind (Bytes × Capped β) :=
  if capped.remainingBeforeCap < n then .error .truncated else .ok (capped.copy n)

/-- Copies bytes after a look at the buffer only. -/
def copyBytes (capped : Capped β) (n : Nat) : Except DecodeErrorKind (Bytes × Capped β) :=
  if capped.remaining < n then .error .truncated else .ok (capped.copy n)

/-- Drops bytes after a look at the buffer only. -/
def skipBytes (capped : Capped β) (n : Nat) : Except DecodeErrorKind (Capped β) :=
  if n > capped.remaining then .error .truncated else .ok (capped.advance n)

/-- Copies everything that `take_all` hands out. -/
def takeAll (capped : Capped β) : Bytes × Capped β := capped.copy capped.remainingBeforeCap

/-- The bytes of a region as they are read for a `SmolStr`: a short string is
copied, a long one is taken from the chunk when it is all there. -/
def takeSmolStr (capped : Capped β) : Bytes × Capped β :=
  let stringLen := capped.remainingBeforeCap
  if stringLen ≤ 23 then capped.takeAll
  else if stringLen ≤ (Buf.chunk capped.buf).length then
    ((Buf.chunk capped.buf).take stringLen, capped.advance stringLen)
  else capped.takeAll

/-- `take_borrowed_length_delimited`. It exists for slices, where copying the
bytes out is splitting the slice. -/
def takeBorrowedLengthDelimited (capped : Capped β) :
    Except DecodeErrorKind (Bytes × Capped β) := do
  let (len, buf) ← decodeLengthDelimiter capped.buf
  let remaining := Buf.remaining buf
  if len > remaining then .error .truncated
  else if remaining - len < capped.extraBytesRemaining then .error .truncated
  else .ok (({ capped with buf } : Capped β).copy len)

/-- The buffer has exactly these bytes before the cap and after it. -/
structure Holds (capped : Capped β) (region after : Bytes) : Prop where
  bytes : Buf.bytes capped.buf = region ++ after
  extra : capped.extraBytesRemaining = after.length

/-- More was read than there is before the cap. -/
def Over (capped : Capped β) : Prop := capped.remaining < capped.extraBytesRemaining

/-- What an operation leaves is under the same cap, with no bytes gained. -/
structure Shrinks (before after : Capped β) : Prop where
  extra : after.extraBytesRemaining = before.extraBytesRemaining
  remaining : after.remaining ≤ before.remaining

theorem Shrinks.refl (capped : Capped β) : Shrinks capped capped := ⟨rfl, le_rfl⟩

theorem Shrinks.trans {a b c : Capped β} (hab : Shrinks a b) (hbc : Shrinks b c) : Shrinks a c :=
  ⟨hbc.extra.trans hab.extra, hbc.remaining.trans hab.remaining⟩

/-- Nothing that is read brings a buffer back under the cap. -/
theorem Shrinks.over {before after : Capped β} (h : Shrinks before after) (hover : before.Over) :
    after.Over := by
  have hextra := h.extra
  have hremaining := h.remaining
  unfold Over at *
  omega

section
variable {capped : Capped β} {region after : Bytes}

theorem Holds.remaining (h : capped.Holds region after) :
    capped.remaining = region.length + after.length := by
  rw [Capped.remaining, Buf.remaining_eq, h.bytes, List.length_append]

theorem Holds.remainingBeforeCap (h : capped.Holds region after) :
    capped.remainingBeforeCap = region.length := by
  rw [Capped.remainingBeforeCap, h.remaining, h.extra]
  omega

theorem Holds.not_over (h : capped.Holds region after) : ¬ capped.Over := by
  rw [Over, h.remaining, h.extra]
  omega

/-- Every buffer that is not over the cap has some bytes before it. -/
theorem exists_holds (h : ¬ capped.Over) : ∃ region after, capped.Holds region after := by
  have hlen : capped.extraBytesRemaining ≤ (Buf.bytes capped.buf).length := by
    rw [← Buf.remaining_eq]
    exact Nat.not_lt.mp h
  refine ⟨(Buf.bytes capped.buf).take ((Buf.bytes capped.buf).length - capped.extraBytesRemaining),
    (Buf.bytes capped.buf).drop ((Buf.bytes capped.buf).length - capped.extraBytesRemaining),
    (List.take_append_drop _ _).symm, ?_⟩
  rw [List.length_drop]
  omega

theorem Holds.hasRemaining (h : capped.Holds region after) :
    capped.hasRemaining = .ok (decide (region ≠ [])) := by
  rw [Capped.hasRemaining, h.remaining, h.extra]
  cases region with
  | nil => simp
  | cons b region =>
    have hgt : compare ((b :: region).length + after.length) after.length = .gt := by
      rw [Nat.compare_eq_gt, List.length_cons]
      omega
    rw [hgt]
    rfl

theorem hasRemaining_eq_false (h : capped.hasRemaining = .ok false) :
    capped.remaining = capped.extraBytesRemaining := by
  rw [Capped.hasRemaining] at h
  split at h
  · cases h
  · next heq => exact Nat.compare_eq_eq.mp heq
  · cases h

theorem hasRemaining_eq_true (h : capped.hasRemaining = .ok true) :
    capped.extraBytesRemaining < capped.remaining := by
  rw [Capped.hasRemaining] at h
  split at h
  · cases h
  · cases h
  · next hgt => exact Nat.compare_eq_gt.mp hgt

theorem advance_shrinks (capped : Capped β) {n : Nat} (h : n ≤ capped.remaining) :
    Shrinks capped (capped.advance n) := by
  refine ⟨rfl, ?_⟩
  rw [Capped.remaining, Buf.remaining_eq] at h
  rw [Capped.remaining, Capped.remaining, Buf.remaining_eq, Buf.remaining_eq, advance,
    Buf.bytes_advance _ _ h, List.length_drop]
  exact Nat.sub_le _ _

theorem remaining_advance (capped : Capped β) {n : Nat} (h : n ≤ capped.remaining) :
    (capped.advance n).remaining = capped.remaining - n := by
  rw [Capped.remaining, Buf.remaining_eq] at h
  rw [Capped.remaining, Capped.remaining, Buf.remaining_eq, Buf.remaining_eq, advance,
    Buf.bytes_advance _ _ h, List.length_drop]

theorem remaining_copy (capped : Capped β) {n : Nat} (h : n ≤ capped.remaining) :
    (capped.copy n).2.remaining = capped.remaining - n := by
  rw [Capped.remaining, Buf.remaining_eq] at h
  rw [Capped.remaining, Capped.remaining, Buf.remaining_eq, Buf.remaining_eq, copy,
    (Buf.copyOut_spec _ h).2, List.length_drop]

theorem copy_shrinks (capped : Capped β) {n : Nat} (h : n ≤ capped.remaining) :
    Shrinks capped (capped.copy n).2 :=
  ⟨rfl, by rw [capped.remaining_copy h]; exact Nat.sub_le _ _⟩

theorem Holds.advance (h : capped.Holds region after) {n : Nat} (hn : n ≤ region.length) :
    (capped.advance n).Holds (region.drop n) after := by
  refine ⟨?_, h.extra⟩
  rw [Capped.advance, Buf.bytes_advance, h.bytes, List.drop_append_of_le_length hn]
  rw [h.bytes, List.length_append]
  omega

theorem Holds.copy (h : capped.Holds region after) {n : Nat} (hn : n ≤ region.length) :
    (capped.copy n).1 = region.take n ∧ (capped.copy n).2.Holds (region.drop n) after := by
  have hle : n ≤ (Buf.bytes capped.buf).length := by
    rw [h.bytes, List.length_append]
    omega
  have hcopy := Buf.copyOut_spec _ hle
  rw [h.bytes, List.take_append_of_le_length hn, List.drop_append_of_le_length hn] at hcopy
  exact ⟨hcopy.1, hcopy.2, h.extra⟩

end

end Capped

end Bilrost
