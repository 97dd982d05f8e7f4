import Bilrost.Base.BijectiveDigits
import Bilrost.Base.Buf
import Bilrost.Wire.Basic

/-!
LEB128-bijective varints of `u64` values: at most nine bytes, the ninth a whole
byte. `parseVarint` says what a varint at the front of a byte string means; the
encoders, the length function and the three decoders of the source (unrolled
over a slice, byte by byte over a buffer, and the choice between them) are
related to it here, and the rest of the development uses only `varint`,
`parseVarint` and these relations.
-/

namespace Bilrost

/-- The smallest values whose representation is `N + 1` bytes, by index `N`. -/
def varintLimit : Nat → Nat
  | 0 => 0
  | 1 => 0x80
  | 2 => 0x4080
  | 3 => 0x204080
  | 4 => 0x10204080
  | 5 => 0x810204080
  | 6 => 0x40810204080
  | 7 => 0x2040810204080
  | 8 => 0x102040810204080
  | _ => 0

/-- The unrolled body of `encode_varint` for a value of exactly `N` bytes. -/
def encodeVarintInner : Nat → Nat → Bytes
  | 0, _ => []
  | 1, value => [UInt8.ofNat value]
  | n + 2, value =>
      UInt8.ofNat ((value &&& 0x7F) ||| 0x80) :: encodeVarintInner (n + 1) ((value >>> 7) - 1)

/-- `encode_varint` as it is built by default: a decision tree over the limits
picks the number of bytes first. -/
def encodeVarint (value : Nat) : Bytes :=
  if value < varintLimit 1 then [UInt8.ofNat value]
  else if value < varintLimit 5 then
    if value < varintLimit 3 then
      if value < varintLimit 2 then encodeVarintInner 2 value
      else encodeVarintInner 3 value
    else if value < varintLimit 4 then encodeVarintInner 4 value
    else encodeVarintInner 5 value
  else if value < varintLimit 7 then
    if value < varintLimit 6 then encodeVarintInner 6 value
    else encodeVarintInner 7 value
  else if value < varintLimit 8 then encodeVarintInner 8 value
  else encodeVarintInner 9 value

/-- The loop of the other build of `encode_varint`, and of `const_varint`: one
round for each byte, nine at most. -/
def encodeVarintLoop : Nat → Nat → Bytes
  | 0, _ => []
  | rounds + 1, value =>
      if value < 0x80 then [UInt8.ofNat value]
      else
        UInt8.ofNat ((value &&& 0x7F) ||| 0x80) :: encodeVarintLoop rounds ((value >>> 7) - 1)

/-- `const_varint`. -/
def constVarint (value : Nat) : Bytes := encodeVarintLoop 9 value

/-- `prepend_varint`: the same bytes, put in front of what is there. -/
def prependVarint (value : Nat) (buf : Bytes) : Bytes := encodeVarint value ++ buf

/-- `encoded_len_varint`. -/
def encodedLenVarint (value : Nat) : Nat :=
  if value < varintLimit 1 then 1
  else if value < varintLimit 5 then
    if value < varintLimit 3 then
      if value < varintLimit 2 then 2 else 3
    else if value < varintLimit 4 then 4
    else 5
  else if value < varintLimit 7 then
    if value < varintLimit 6 then 6 else 7
  else if value < varintLimit 8 then 8
  else 9

/-- The one representation of a value. -/
def varint (value : Nat) : Bytes := BijectiveDigits.put 9 value

/-- What a varint at the front of a byte string means. -/
def parseVarint (bytes : Bytes) : Except DecodeErrorKind (Nat × Bytes) :=
  match BijectiveDigits.take 9 bytes with
  | none => .error .truncated
  | some (value, rest) => if value < 2 ^ 64 then .ok (value, rest) else .error .invalidVarint

theorem capacity_nine : BijectiveDigits.capacity 9 = 256 * 2 ^ 56 + varintLimit 8 := by decide

theorem lt_capacity {value : Nat} (h : value < 2 ^ 64) : value < BijectiveDigits.capacity 9 := by
  rw [capacity_nine]
  omega

@[simp] theorem varint_ne_nil (value : Nat) : varint value ≠ [] :=
  BijectiveDigits.put_ne_nil 8 value

theorem varint_length_pos (value : Nat) : 0 < (varint value).length :=
  BijectiveDigits.put_length_pos 8 value

theorem varint_length_le (value : Nat) : (varint value).length ≤ 9 :=
  BijectiveDigits.put_length_le 9 value

theorem varint_of_lt {value : Nat} (h : value < 0x80) : varint value = [UInt8.ofNat value] := by
  rw [varint, BijectiveDigits.put, if_pos h]

/-- Only the values below 128 have a first byte below 128, and they are that
byte. -/
theorem varint_of_ge {value : Nat} (h : 0x80 ≤ value) :
    ∃ b tail, varint value = b :: tail ∧ 0x80 ≤ b.toNat := by
  refine ⟨_, _, by rw [varint, BijectiveDigits.put, if_neg (by omega)], ?_⟩
  rw [UInt8.toNat_ofNat']
  omega

theorem parseVarint_varint {value : Nat} (h : value < 2 ^ 64) (rest : Bytes) :
    parseVarint (varint value ++ rest) = .ok (value, rest) := by
  rw [parseVarint, varint, BijectiveDigits.take_put 9 value rest (lt_capacity h)]
  exact if_pos h

theorem parseVarint_eq_ok {bytes rest : Bytes} {value : Nat}
    (h : parseVarint bytes = .ok (value, rest)) :
    value < 2 ^ 64 ∧ bytes = varint value ++ rest := by
  rw [parseVarint] at h
  split at h
  · cases h
  · next v r htake =>
    split at h
    · next hlt =>
      obtain ⟨rfl, rfl⟩ : v = value ∧ r = rest := by simpa using h
      exact ⟨hlt, BijectiveDigits.eq_put_of_take htake⟩
    · cases h

theorem parseVarint_length {bytes rest : Bytes} {value : Nat}
    (h : parseVarint bytes = .ok (value, rest)) : rest.length < bytes.length := by
  obtain ⟨-, rfl⟩ := parseVarint_eq_ok h
  have := varint_length_pos value
  rw [List.length_append]
  omega

theorem and_0x7F (value : Nat) : value &&& 0x7F = value % 128 :=
  Nat.and_two_pow_sub_one_eq_mod value 7

/-- Seven low bits with the high bit set are the low digit plus 128. -/
theorem low_digit (value : Nat) : (value &&& 0x7F) ||| 0x80 = value % 128 + 128 := by
  have hlt : value % 128 < 2 ^ 7 := Nat.mod_lt value (by decide)
  rw [and_0x7F, Nat.or_comm, Nat.add_comm]
  exact (Nat.two_pow_add_eq_or_of_lt hlt 1).symm

theorem next_digits (value : Nat) : (value >>> 7) - 1 = value / 128 - 1 := by
  rw [Nat.shiftRight_eq_div_pow]

theorem encodeVarintInner_eq_put (n k value : Nat) (hk : n < k)
    (hlow : BijectiveDigits.limit n ≤ value)
    (hhigh : value < BijectiveDigits.limit (n + 1) ∨ n + 1 = k) :
    encodeVarintInner (n + 1) value = BijectiveDigits.put k value := by
  induction n generalizing k value with
  | zero =>
    obtain ⟨k, rfl⟩ : ∃ j, k = j + 1 := ⟨k - 1, by omega⟩
    cases k with
    | zero => rfl
    | succ k =>
      have hlt : value < 128 := by
        rcases hhigh with h | h
        · simpa [BijectiveDigits.limit] using h
        · omega
      rw [encodeVarintInner, BijectiveDigits.put, if_pos hlt]
  | succ n ih =>
    obtain ⟨k, rfl⟩ : ∃ j, k = j + 2 := ⟨k - 2, by omega⟩
    rw [BijectiveDigits.limit] at hlow
    have hge : ¬ value < 128 := by omega
    rw [encodeVarintInner, BijectiveDigits.put, if_neg hge, low_digit, next_digits]
    congr 1
    apply ih (k + 1) (value / 128 - 1) (by omega) (by omega)
    rcases hhigh with h | h
    · rw [BijectiveDigits.limit] at h
      left
      omega
    · right
      omega

theorem encodeVarintLoop_eq_put (rounds value : Nat) (h : value < BijectiveDigits.capacity rounds) :
    encodeVarintLoop rounds value = BijectiveDigits.put rounds value := by
  induction rounds, value using BijectiveDigits.put.induct with
  | case1 => rfl
  | case2 value =>
    simp only [encodeVarintLoop, BijectiveDigits.put]
    split
    · rfl
    · rw [low_digit]
      simp only [BijectiveDigits.capacity] at h
      congr 2
      omega
  | case3 k value hlt => rw [encodeVarintLoop, BijectiveDigits.put, if_pos hlt, if_pos hlt]
  | case4 k value hge ih =>
    rw [BijectiveDigits.capacity] at h
    rw [encodeVarintLoop, BijectiveDigits.put, if_neg hge, if_neg hge, low_digit, next_digits,
      ih (by omega)]

/-- The limits of the source are those of the numeration. -/
theorem varintLimit_eq {n : Nat} (h : n ≤ 8) : varintLimit n = BijectiveDigits.limit n := by
  interval_cases n <;> rfl

theorem encodeVarint_eq (value : Nat) : encodeVarint value = varint value := by
  have inner (n : Nat) (hn : n ≤ 7) (hlow : varintLimit n ≤ value)
      (hhigh : value < varintLimit (n + 1)) : encodeVarintInner (n + 1) value = varint value :=
    encodeVarintInner_eq_put n 9 value (by omega)
      (by rwa [← varintLimit_eq (by omega)]) (.inl (by rwa [← varintLimit_eq (by omega)]))
  have last (hlow : varintLimit 8 ≤ value) : encodeVarintInner 9 value = varint value :=
    encodeVarintInner_eq_put 8 9 value (by omega)
      (by rwa [← varintLimit_eq (by omega)]) (.inr rfl)
  have first (h : value < varintLimit 1) : [UInt8.ofNat value] = varint value :=
    (varint_of_lt h).symm
  unfold encodeVarint
  split_ifs
  · exact first ‹_›
  · exact inner 1 (by omega) (by omega) ‹_›
  · exact inner 2 (by omega) (by omega) ‹_›
  · exact inner 3 (by omega) (by omega) ‹_›
  · exact inner 4 (by omega) (by omega) ‹_›
  · exact inner 5 (by omega) (by omega) ‹_›
  · exact inner 6 (by omega) (by omega) ‹_›
  · exact inner 7 (by omega) (by omega) ‹_›
  · exact last (by omega)

theorem constVarint_eq {value : Nat} (h : value < 2 ^ 64) : constVarint value = varint value :=
  encodeVarintLoop_eq_put 9 value (lt_capacity h)

@[simp] theorem prependVarint_eq (value : Nat) (buf : Bytes) :
    prependVarint value buf = varint value ++ buf := by
  rw [prependVarint, encodeVarint_eq]

theorem varint_length_le_iff (value : Nat) {n : Nat} (h : n ≤ 8) :
    (varint value).length ≤ n ↔ value < varintLimit n := by
  rw [varintLimit_eq h]
  exact BijectiveDigits.put_length_le_iff 9 n value (by omega)

@[simp] theorem encodedLenVarint_eq (value : Nat) :
    encodedLenVarint value = (varint value).length := by
  have exact_length (n : Nat) (hn : n ≤ 7) (hlow : ¬ value < varintLimit n)
      (hhigh : value < varintLimit (n + 1)) : n + 1 = (varint value).length := by
    have h₁ := mt (varint_length_le_iff value (show n ≤ 8 by omega)).mp hlow
    have h₂ := (varint_length_le_iff value (show n + 1 ≤ 8 by omega)).mpr hhigh
    omega
  unfold encodedLenVarint
  split_ifs
  · exact exact_length 0 (by omega) (by simp [varintLimit]) ‹_›
  · exact exact_length 1 (by omega) ‹_› ‹_›
  · exact exact_length 2 (by omega) ‹_› ‹_›
  · exact exact_length 3 (by omega) ‹_› ‹_›
  · exact exact_length 4 (by omega) ‹_› ‹_›
  · exact exact_length 5 (by omega) ‹_› ‹_›
  · exact exact_length 6 (by omega) ‹_› ‹_›
  · exact exact_length 7 (by omega) ‹_› ‹_›
  · have h₁ := mt (varint_length_le_iff value (le_refl 8)).mp ‹_›
    have h₂ := varint_length_le value
    omega

end Bilrost
