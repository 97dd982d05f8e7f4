import Bilrost.Wire.Varint

/-!
The varint decoders. `decodeVarint` looks at the first chunk: a single byte is
read on the spot, a chunk that is sure to contain the whole varint is read by
the unrolled decoder, and anything else byte by byte across the chunks. All of
them compute `parseVarint` of the bytes the buffer holds.

A decoder returns the buffer also when it fails, because the caller looks at
how far it was advanced.
-/

namespace Bilrost

/-- `decode_varint_slice`, without its assertions: the caller makes sure that
the slice has nine bytes or ends in a byte below `0x80`. The sums stay below
`2^30` and `2^58`, so the 32-bit and 64-bit additions of the source never
wrap. -/
def decodeVarintSlice (bytes : Bytes) : Except DecodeErrorKind (Nat × Nat) :=
  let byte (i : Nat) : Nat := (bytes.getD i 0).toNat
  let part0 := byte 0
  if byte 0 < 0x80 then .ok (part0, 1) else
  let part0 := part0 + byte 1 <<< 7
  if byte 1 < 0x80 then .ok (part0, 2) else
  let part0 := part0 + byte 2 <<< 14
  if byte 2 < 0x80 then .ok (part0, 3) else
  let part0 := part0 + byte 3 <<< 21
  if byte 3 < 0x80 then .ok (part0, 4) else
  let value := part0
  let part1 := byte 4
  if byte 4 < 0x80 then .ok (value + part1 <<< 28, 5) else
  let part1 := part1 + byte 5 <<< 7
  if byte 5 < 0x80 then .ok (value + part1 <<< 28, 6) else
  let part1 := part1 + byte 6 <<< 14
  if byte 6 < 0x80 then .ok (value + part1 <<< 28, 7) else
  let part1 := part1 + byte 7 <<< 21
  if byte 7 < 0x80 then .ok (value + part1 <<< 28, 8) else
  let value := value + part1 <<< 28
  if byte 8 + value >>> 56 > 0xff then .error .invalidVarint
  else .ok (value + byte 8 <<< 56, 9)

section
variable {β : Type} [Buf β]

/-- The loop of `decode_varint_slow` with `rounds` of its at most eight rounds
left, and what follows it. -/
def decodeVarintSlowLoop : Nat → Nat → Nat → β → Except DecodeErrorKind Nat × β
  | 0, _, value, buf =>
      if Buf.remaining buf = 0 then (.error .truncated, buf)
      else
        let (byte, buf) := Buf.getU8 buf
        let sum := value + byte.toNat <<< 56
        (if sum < 2 ^ 64 then .ok sum else .error .invalidVarint, buf)
  | rounds + 1, count, value, buf =>
      let (byte, buf) := Buf.getU8 buf
      let value := value + byte.toNat <<< (count * 7)
      if byte.toNat < 0x80 then (.ok value, buf)
      else decodeVarintSlowLoop rounds (count + 1) value buf

/-- `decode_varint_slow`. -/
def decodeVarintSlow (buf : β) : Except DecodeErrorKind Nat × β :=
  decodeVarintSlowLoop (min 8 (Buf.remaining buf)) 0 0 buf

/-- `decode_varint`. -/
def decodeVarint (buf : β) : Except DecodeErrorKind Nat × β :=
  let bytes := Buf.chunk buf
  let len := bytes.length
  if len = 0 then (.error .truncated, buf)
  else
    let byte := (bytes.getD 0 0).toNat
    if byte < 0x80 then (.ok byte, Buf.advance buf 1)
    else if 9 ≤ len ∨ (bytes.getD (len - 1) 0).toNat < 0x80 then
      match decodeVarintSlice bytes with
      | .ok (value, advance) => (.ok value, Buf.advance buf advance)
      | .error err => (.error err, Buf.advance buf 9)
    else decodeVarintSlow buf

end

/-- A decoder's answer is that of `parseVarint`: on success the same value with
the same bytes left, on failure the same error with no bytes gained. -/
def VarintResult {β : Type} [Buf β] (bytes : Bytes)
    (result : Except DecodeErrorKind Nat × β) : Prop :=
  match parseVarint bytes with
  | .ok (value, rest) => result.1 = .ok value ∧ Buf.bytes result.2 = rest
  | .error err => result.1 = .error err ∧ (Buf.bytes result.2).length ≤ bytes.length

section
variable {β : Type} [Buf β]

/-- How far the digits read so far can have come: `count` bytes of at most 255
each add up to no more than three units of the next position. -/
theorem sum_step {count value b : Nat} (hsum : value ≤ 3 * 2 ^ (7 * count)) (hb : b < 256) :
    value + b <<< (count * 7) ≤ 3 * 2 ^ (7 * (count + 1)) := by
  have hpow : 2 ^ (7 * (count + 1)) = 2 ^ (7 * count) * 128 := by
    rw [Nat.mul_succ, Nat.pow_add]
  rw [Nat.shiftLeft_eq, Nat.mul_comm count 7, hpow]
  generalize 2 ^ (7 * count) = unit at *
  have hmul : b * unit ≤ 255 * unit := Nat.mul_le_mul_right unit (by omega)
  omega

/-- The loop adds up, from the first byte on, what `BijectiveDigits.take` reads
from the last byte on: `value` is the sum of the `count` bytes before `buf`. -/
theorem slowLoop_spec (rounds count value : Nat) (buf : β)
    (hrounds : rounds = min (8 - count) (Buf.bytes buf).length) (hcount : count ≤ 8)
    (hsum : value ≤ 3 * 2 ^ (7 * count)) :
    match BijectiveDigits.take (9 - count) (Buf.bytes buf) with
    | none =>
        (decodeVarintSlowLoop rounds count value buf).1 = .error .truncated ∧
          Buf.bytes (decodeVarintSlowLoop rounds count value buf).2 = []
    | some (v, rest) =>
        (decodeVarintSlowLoop rounds count value buf).1 =
            (if value + v * 2 ^ (7 * count) < 2 ^ 64 then .ok (value + v * 2 ^ (7 * count))
              else .error .invalidVarint) ∧
          Buf.bytes (decodeVarintSlowLoop rounds count value buf).2 = rest := by
  induction rounds generalizing count value buf with
  | zero =>
    rw [decodeVarintSlowLoop, Buf.remaining_eq]
    cases hbytes : Buf.bytes buf with
    | nil =>
      obtain ⟨k, hk⟩ : ∃ k, 9 - count = k + 1 := ⟨8 - count, by omega⟩
      simp [hk, BijectiveDigits.take, hbytes]
    | cons b rest =>
      obtain rfl : count = 8 := by
        rw [hbytes, List.length_cons] at hrounds
        omega
      obtain ⟨hbyte, hleft⟩ := Buf.getU8_of_cons hbytes
      simp [BijectiveDigits.take, hbyte, hleft, Nat.shiftLeft_eq]
  | succ rounds ih =>
    have hpos : 0 < (Buf.bytes buf).length := by omega
    obtain ⟨b, rest, hbytes⟩ := List.exists_cons_of_ne_nil (List.length_pos_iff.mp hpos)
    obtain ⟨hbyte, hleft⟩ := Buf.getU8_of_cons hbytes
    obtain ⟨k, hk, hk'⟩ : ∃ k, 9 - count = k + 2 ∧ 9 - (count + 1) = k + 1 :=
      ⟨7 - count, by omega, by omega⟩
    have hb := b.toNat_lt
    rw [hbytes, List.length_cons] at hrounds
    rw [decodeVarintSlowLoop, hk, hbytes, BijectiveDigits.take]
    simp only [hbyte]
    by_cases hlow : b.toNat < 128
    · have hcap : value + b.toNat * 2 ^ (7 * count) < 2 ^ 64 := by
        have hunit : 2 ^ (7 * count) ≤ 2 ^ 49 := Nat.pow_le_pow_right (by decide) (by omega)
        generalize 2 ^ (7 * count) = unit at *
        have hmul : b.toNat * unit ≤ 127 * unit := Nat.mul_le_mul_right unit (by omega)
        omega
      simp only [hlow, ↓reduceIte, hleft, Nat.shiftLeft_eq, Nat.mul_comm count 7, if_pos hcap,
        and_self]
    · have hnext := ih (count + 1) (value + b.toNat <<< (count * 7)) (Buf.getU8 buf).2
        (by rw [hleft]; omega) (by omega) (sum_step hsum hb)
      rw [hk', hleft] at hnext
      simp only [hlow, ↓reduceIte]
      -- both sides now read the rest; the sums agree position by position
      cases htake : BijectiveDigits.take (k + 1) rest with
      | none => simpa [htake] using hnext
      | some found =>
        obtain ⟨v, left⟩ := found
        have hadd : value + b.toNat <<< (count * 7) + v * 2 ^ (7 * (count + 1)) =
            value + (b.toNat + 128 * v) * 2 ^ (7 * count) := by
          rw [Nat.shiftLeft_eq, Nat.mul_comm count 7, Nat.mul_succ, Nat.pow_add]
          ring
        simp only [htake, hadd] at hnext
        simpa using hnext

theorem decodeVarintSlow_spec (buf : β) :
    VarintResult (Buf.bytes buf) (decodeVarintSlow buf) := by
  have hloop := slowLoop_spec (min 8 (Buf.remaining buf)) 0 0 buf
    (by rw [Buf.remaining_eq]) (by omega) (by simp)
  unfold VarintResult parseVarint decodeVarintSlow
  cases htake : BijectiveDigits.take 9 (Buf.bytes buf) with
  | none =>
    simp only [Nat.sub_zero, htake] at hloop
    simp [hloop]
  | some found =>
    obtain ⟨v, rest⟩ := found
    simp only [Nat.sub_zero, htake, Nat.mul_zero, Nat.pow_zero, Nat.mul_one, Nat.zero_add] at hloop
    have hlen : rest.length ≤ (Buf.bytes buf).length := by
      rw [BijectiveDigits.eq_put_of_take htake, List.length_append]
      omega
    by_cases hv : v < 2 ^ 64
    · simp only [if_pos hv] at hloop ⊢
      exact hloop
    · simp only [if_neg hv] at hloop ⊢
      exact ⟨hloop.1, by rw [hloop.2]; exact hlen⟩

end

/-- What the unrolled decoder has to return for a slice that holds a whole
varint: its value and length, or an error after nine bytes. -/
def SliceResult (bytes : Bytes) : Prop :=
  ∃ value n, BijectiveDigits.take 9 bytes = some (value, bytes.drop n) ∧ n ≤ bytes.length ∧
    if value < 2 ^ 64 then decodeVarintSlice bytes = .ok (value, n)
    else decodeVarintSlice bytes = .error .invalidVarint ∧ n = 9

private theorem sliceResult_ok {bytes : Bytes} {value : Nat} (n : Nat)
    (htake : BijectiveDigits.take 9 bytes = some (value, bytes.drop n)) (hvalue : value < 2 ^ 64)
    (hslice : decodeVarintSlice bytes = .ok (value, n)) (hn : n ≤ bytes.length) :
    SliceResult bytes :=
  ⟨value, n, htake, hn, by rwa [if_pos hvalue]⟩

private theorem sliceResult_error {bytes : Bytes} {value : Nat}
    (htake : BijectiveDigits.take 9 bytes = some (value, bytes.drop 9)) (hvalue : ¬ value < 2 ^ 64)
    (hslice : decodeVarintSlice bytes = .error .invalidVarint) (hn : 9 ≤ bytes.length) :
    SliceResult bytes :=
  ⟨value, 9, htake, hn, by rw [if_neg hvalue]; exact ⟨hslice, rfl⟩⟩

/-- As long as only bytes from `0x80` on were seen, fewer than nine of them,
the slice has another byte. -/
private theorem another_byte (seen : Bytes) {rest : Bytes}
    (hfit : 9 ≤ (seen ++ rest).length ∨
      ((seen ++ rest).getD ((seen ++ rest).length - 1) 0).toNat < 0x80)
    (hseen : seen.length < 9) (hhigh : 0x80 ≤ (seen.getD (seen.length - 1) 0).toNat) :
    ∃ b tail, rest = b :: tail := by
  cases rest with
  | nil =>
    rw [List.append_nil] at hfit
    omega
  | cons b tail => exact ⟨b, tail, rfl⟩

/-- Nine bytes: the ninth is taken whole, and only it can take the sum past 64
bits. -/
private theorem decodeVarintSlice_nine {b0 b1 b2 b3 b4 b5 b6 b7 : UInt8} (b8 : UInt8) (t : Bytes)
    (h0 : ¬ b0.toNat < 128) (h1 : ¬ b1.toNat < 128) (h2 : ¬ b2.toNat < 128)
    (h3 : ¬ b3.toNat < 128) (h4 : ¬ b4.toNat < 128) (h5 : ¬ b5.toNat < 128)
    (h6 : ¬ b6.toNat < 128) (h7 : ¬ b7.toNat < 128) :
    SliceResult (b0 :: b1 :: b2 :: b3 :: b4 :: b5 :: b6 :: b7 :: b8 :: t) := by
  have hlow : ∃ low, low = b0.toNat + b1.toNat <<< 7 + b2.toNat <<< 14 + b3.toNat <<< 21 +
      (b4.toNat + b5.toNat <<< 7 + b6.toNat <<< 14 + b7.toNat <<< 21) <<< 28 := ⟨_, rfl⟩
  obtain ⟨low, hlow⟩ := hlow
  have hslice : decodeVarintSlice (b0 :: b1 :: b2 :: b3 :: b4 :: b5 :: b6 :: b7 :: b8 :: t) =
      if b8.toNat + low >>> 56 > 0xff then .error .invalidVarint
      else .ok (low + b8.toNat <<< 56, 9) := by
    simp [decodeVarintSlice, h0, h1, h2, h3, h4, h5, h6, h7, hlow]
  have htake : BijectiveDigits.take 9 (b0 :: b1 :: b2 :: b3 :: b4 :: b5 :: b6 :: b7 :: b8 :: t) =
      some (low + b8.toNat <<< 56, t) := by
    simp only [BijectiveDigits.take, h0, h1, h2, h3, h4, h5, h6, h7, ↓reduceIte, Option.map_some,
      hlow, Nat.shiftLeft_eq, Option.some.injEq, Prod.mk.injEq, and_true]
    ring
  rw [Nat.shiftLeft_eq] at htake hslice
  rw [Nat.shiftRight_eq_div_pow] at hslice
  clear hlow
  by_cases hbig : b8.toNat + low / 2 ^ 56 > 0xff
  · rw [if_pos hbig] at hslice
    exact sliceResult_error htake (by omega) hslice (by simp)
  · rw [if_neg hbig] at hslice
    exact sliceResult_ok 9 htake (by omega) hslice (by simp)

/-- The unrolled decoder, on a slice that is long enough or ends in a byte
below `0x80`, returns the value and the number of bytes it took. -/
theorem decodeVarintSlice_spec (bytes : Bytes) (hne : bytes ≠ [])
    (hfit : 9 ≤ bytes.length ∨ (bytes.getD (bytes.length - 1) 0).toNat < 0x80) :
    SliceResult bytes := by
  obtain ⟨b0, t, rfl⟩ := List.exists_cons_of_ne_nil hne
  have l0 := b0.toNat_lt
  by_cases h0 : b0.toNat < 128
  · exact sliceResult_ok 1 (by simp [BijectiveDigits.take, h0]; rfl)
      (by omega) (by simp [decodeVarintSlice, h0]) (by simp)
  obtain ⟨b1, t, rfl⟩ := another_byte [b0] hfit (by simp) (by simpa using h0)
  have l1 := b1.toNat_lt
  by_cases h1 : b1.toNat < 128
  · exact sliceResult_ok 2 (by simp [BijectiveDigits.take, h0, h1]; rfl)
      (by omega) (by simp [decodeVarintSlice, h0, h1, Nat.shiftLeft_eq]; omega) (by simp)
  obtain ⟨b2, t, rfl⟩ := another_byte [b0, b1] hfit (by simp) (by simpa using h1)
  have l2 := b2.toNat_lt
  by_cases h2 : b2.toNat < 128
  · exact sliceResult_ok 3 (by simp [BijectiveDigits.take, h0, h1, h2]; rfl)
      (by omega) (by simp [decodeVarintSlice, h0, h1, h2, Nat.shiftLeft_eq]; omega) (by simp)
  obtain ⟨b3, t, rfl⟩ := another_byte [b0, b1, b2] hfit (by simp) (by simpa using h2)
  have l3 := b3.toNat_lt
  by_cases h3 : b3.toNat < 128
  · exact sliceResult_ok 4 (by simp [BijectiveDigits.take, h0, h1, h2, h3]; rfl)
      (by omega) (by simp [decodeVarintSlice, h0, h1, h2, h3, Nat.shiftLeft_eq]; omega) (by simp)
  obtain ⟨b4, t, rfl⟩ := another_byte [b0, b1, b2, b3] hfit (by simp) (by simpa using h3)
  have l4 := b4.toNat_lt
  by_cases h4 : b4.toNat < 128
  · exact sliceResult_ok 5 (by simp [BijectiveDigits.take, h0, h1, h2, h3, h4]; rfl)
      (by omega) (by simp [decodeVarintSlice, h0, h1, h2, h3, h4, Nat.shiftLeft_eq]; omega) (by simp)
  obtain ⟨b5, t, rfl⟩ := another_byte [b0, b1, b2, b3, b4] hfit (by simp) (by simpa using h4)
  have l5 := b5.toNat_lt
  by_cases h5 : b5.toNat < 128
  · exact sliceResult_ok 6 (by simp [BijectiveDigits.take, h0, h1, h2, h3, h4, h5]; rfl)
      (by omega) (by simp [decodeVarintSlice, h0, h1, h2, h3, h4, h5, Nat.shiftLeft_eq]; omega) (by simp)
  obtain ⟨b6, t, rfl⟩ := another_byte [b0, b1, b2, b3, b4, b5] hfit (by simp) (by simpa using h5)
  have l6 := b6.toNat_lt
  by_cases h6 : b6.toNat < 128
  · exact sliceResult_ok 7 (by simp [BijectiveDigits.take, h0, h1, h2, h3, h4, h5, h6]; rfl)
      (by omega) (by simp [decodeVarintSlice, h0, h1, h2, h3, h4, h5, h6, Nat.shiftLeft_eq]; omega) (by simp)
  obtain ⟨b7, t, rfl⟩ := another_byte [b0, b1, b2, b3, b4, b5, b6] hfit (by simp) (by simpa using h6)
  have l7 := b7.toNat_lt
  by_cases h7 : b7.toNat < 128
  · exact sliceResult_ok 8 (by simp [BijectiveDigits.take, h0, h1, h2, h3, h4, h5, h6, h7]; rfl)
      (by omega) (by simp [decodeVarintSlice, h0, h1, h2, h3, h4, h5, h6, h7, Nat.shiftLeft_eq]; omega) (by simp)
  obtain ⟨b8, t, rfl⟩ := another_byte [b0, b1, b2, b3, b4, b5, b6, b7] hfit (by simp) (by simpa using h7)
  exact decodeVarintSlice_nine b8 t h0 h1 h2 h3 h4 h5 h6 h7

section
variable {β : Type} [Buf β]

/-- The unrolled decoder may be run on a chunk: the varint ends inside, so the
bytes after the chunk do not matter. -/
theorem sliceResult_chunk {buf : β} (h : SliceResult (Buf.chunk buf)) :
    ∃ value n, BijectiveDigits.take 9 (Buf.bytes buf) = some (value, (Buf.bytes buf).drop n) ∧
      n ≤ (Buf.bytes buf).length ∧
      if value < 2 ^ 64 then decodeVarintSlice (Buf.chunk buf) = .ok (value, n)
      else decodeVarintSlice (Buf.chunk buf) = .error .invalidVarint ∧ n = 9 := by
  obtain ⟨value, n, htake, hn, hslice⟩ := h
  obtain ⟨rest, hrest⟩ := Buf.chunk_isPrefix buf
  refine ⟨value, n, ?_, hn.trans (Buf.chunk_length_le buf), hslice⟩
  rw [← hrest, BijectiveDigits.take_append htake, List.drop_append_of_le_length hn]

/-- `decode_varint` reads what `parseVarint` says, whichever path it takes. -/
theorem decodeVarint_spec (buf : β) : VarintResult (Buf.bytes buf) (decodeVarint buf) := by
  unfold decodeVarint
  cases hbytes : Buf.bytes buf with
  | nil =>
    rw [Buf.chunk_eq_nil hbytes]
    simp [VarintResult, parseVarint, BijectiveDigits.take, hbytes]
  | cons b rest =>
    rw [← hbytes]
    have hne : Buf.bytes buf ≠ [] := by simp [hbytes]
    have hlen : (Buf.chunk buf).length ≠ 0 := (Buf.chunk_length_pos hne).ne'
    obtain ⟨tail, hchunk, -⟩ := Buf.chunk_eq_cons hbytes
    have hhead : (Buf.chunk buf).getD 0 0 = b := by simp [hchunk]
    simp only [hlen, ↓reduceIte, hhead]
    split_ifs with hlow hfit
    · -- one byte
      have htake : BijectiveDigits.take 9 (Buf.bytes buf) = some (b.toNat, rest) := by
        rw [hbytes, BijectiveDigits.take, if_pos hlow]
      have hlt : b.toNat < 2 ^ 64 := by omega
      simp only [VarintResult, parseVarint, htake, if_pos hlt]
      rw [Buf.bytes_advance buf 1 (by simp [hbytes]), hbytes]
      exact ⟨trivial, rfl⟩
    · -- the whole varint is in the chunk
      obtain ⟨value, n, htake, hn, hslice⟩ :=
        sliceResult_chunk (decodeVarintSlice_spec _ (Buf.chunk_ne_nil buf hne) hfit)
      by_cases hvalue : value < 2 ^ 64
      · rw [if_pos hvalue] at hslice
        simp only [VarintResult, parseVarint, htake, if_pos hvalue, hslice]
        exact ⟨trivial, Buf.bytes_advance buf n hn⟩
      · rw [if_neg hvalue] at hslice
        obtain ⟨herr, rfl⟩ := hslice
        simp only [VarintResult, parseVarint, htake, if_neg hvalue, herr]
        rw [Buf.bytes_advance buf 9 hn, List.length_drop]
        exact ⟨trivial, Nat.sub_le _ _⟩
    · exact decodeVarintSlow_spec buf

end

end Bilrost
