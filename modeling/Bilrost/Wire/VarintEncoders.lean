import Bilrost.Wire.DecodeVarint

/-!
Every varint encoder of the source: the unrolled and the generic builds of
`encode_varint` and of `prepend_varint`, and `const_varint`. The prepending
builds fill an array from its front and prepend what they filled; `const_varint`
returns its array with a length. All of them write the one representation of
the value.
-/

namespace Bilrost

/-- Bytes that are a varint of a value: they end at the first byte without the
high bit or at the ninth byte, and their sum, each byte weighted by 128 for
every byte before it, is the value. -/
structure IsVarint (value : Nat) (bytes : Bytes) : Prop where
  digits : BijectiveDigits.IsDigits 9 bytes
  denote : BijectiveDigits.denote bytes = value

theorem isVarint_varint {value : Nat} (h : value < 2 ^ 64) : IsVarint value (varint value) :=
  have hput := BijectiveDigits.isDigits_put (by decide) (lt_capacity h)
  ⟨hput.1, hput.2⟩

theorem IsVarint.eq {value : Nat} {bytes : Bytes} (h : IsVarint value bytes) :
    bytes = varint value := by
  rw [← h.denote]
  exact h.digits.eq_put

/-- The generic build of `encode_varint`. -/
def encodeVarintGeneric (value : Nat) : Bytes := encodeVarintLoop 9 value

/-- The unrolled `prepend_varint` for a value of exactly `N` bytes: the array is
filled and then prepended as one slice. -/
def prependVarintInner (n value : Nat) (buf : Bytes) : Bytes := encodeVarintInner n value ++ buf

/-- `prepend_varint` as it is built by default. -/
def prependVarintUnrolled (value : Nat) (buf : Bytes) : Bytes :=
  if value < varintLimit 1 then UInt8.ofNat value :: buf
  else if value < varintLimit 5 then
    if value < varintLimit 3 then
      if value < varintLimit 2 then prependVarintInner 2 value buf
      else prependVarintInner 3 value buf
    else if value < varintLimit 4 then prependVarintInner 4 value buf
    else prependVarintInner 5 value buf
  else if value < varintLimit 7 then
    if value < varintLimit 6 then prependVarintInner 6 value buf
    else prependVarintInner 7 value buf
  else if value < varintLimit 8 then prependVarintInner 8 value buf
  else prependVarintInner 9 value buf

/-- The loop of the generic `prepend_varint`, with what is filled so far. -/
def prependVarintLoop : Nat → Bytes → Nat → Bytes → Bytes
  | 0, filled, _, buf => filled ++ buf
  | rounds + 1, filled, value, buf =>
      if value < 0x80 then (filled ++ [UInt8.ofNat value]) ++ buf
      else
        prependVarintLoop rounds (filled ++ [UInt8.ofNat ((value &&& 0x7F) ||| 0x80)])
          ((value >>> 7) - 1) buf

/-- The generic build of `prepend_varint`. -/
def prependVarintGeneric (value : Nat) (buf : Bytes) : Bytes :=
  if value < 0x80 then UInt8.ofNat value :: buf else prependVarintLoop 9 [] value buf

/-- `ConstVarint`: nine bytes and how many of them matter. -/
structure ConstVarint where
  value : Bytes
  len : Nat

/-- The slice that a `ConstVarint` stands for. -/
def ConstVarint.deref (varint : ConstVarint) : Bytes := varint.value.take varint.len

def constVarintLoop : Nat → Nat → Bytes → Nat → ConstVarint
  | 0, _, res, _ => ⟨res, 9⟩
  | rounds + 1, i, res, value =>
      if value < 0x80 then ⟨res.set i (UInt8.ofNat value), i + 1⟩
      else
        constVarintLoop rounds (i + 1) (res.set i ((UInt8.ofNat value &&& 0x7F) ||| 0x80))
          ((value >>> 7) - 1)

/-- `const_varint`, with its array. -/
def constVarintArray (value : Nat) : ConstVarint :=
  constVarintLoop 9 0 (List.replicate 9 0) value

theorem encodeVarintGeneric_eq {value : Nat} (h : value < 2 ^ 64) :
    encodeVarintGeneric value = varint value :=
  encodeVarintLoop_eq_put 9 value (lt_capacity h)

/-- Prepending takes the same decisions as encoding. -/
theorem prependVarintUnrolled_eq (value : Nat) (buf : Bytes) :
    prependVarintUnrolled value buf = varint value ++ buf := by
  rw [← encodeVarint_eq]
  unfold prependVarintUnrolled encodeVarint prependVarintInner
  split_ifs <;> rfl

theorem prependVarintLoop_eq (rounds : Nat) (filled : Bytes) (value : Nat) (buf : Bytes) :
    prependVarintLoop rounds filled value buf =
      filled ++ encodeVarintLoop rounds value ++ buf := by
  induction rounds generalizing filled value with
  | zero => simp [prependVarintLoop, encodeVarintLoop]
  | succ rounds ih =>
    rw [prependVarintLoop, encodeVarintLoop]
    split
    · rfl
    · rw [ih]
      simp

theorem prependVarintGeneric_eq {value : Nat} (h : value < 2 ^ 64) (buf : Bytes) :
    prependVarintGeneric value buf = varint value ++ buf := by
  rw [prependVarintGeneric]
  split_ifs with hlow
  · rw [varint_of_lt hlow]
    rfl
  · rw [prependVarintLoop_eq, List.nil_append, encodeVarintLoop_eq_put 9 value (lt_capacity h)]
    rfl

/-- After `filled` bytes, the array has these bytes in front of whatever is
still there. -/
theorem constVarintLoop_eq (rounds : Nat) (filled left : Bytes) (value : Nat)
    (hleft : left.length = rounds) (hsum : filled.length + rounds = 9) :
    (constVarintLoop rounds filled.length (filled ++ left) value).deref =
      filled ++ encodeVarintLoop rounds value := by
  induction rounds generalizing filled left value with
  | zero =>
    obtain rfl := List.length_eq_zero_iff.mp hleft
    simp [constVarintLoop, encodeVarintLoop, ConstVarint.deref, hsum.symm]
  | succ rounds ih =>
    obtain ⟨b, left, rfl⟩ := List.exists_cons_of_length_eq_add_one hleft
    have hset (c : UInt8) : (filled ++ b :: left).set filled.length c = (filled ++ [c]) ++ left := by
      simp
    rw [constVarintLoop, encodeVarintLoop, hset, hset]
    split
    · rw [ConstVarint.deref, List.take_append_of_le_length (by simp)]
      simp
    · have hbyte : (UInt8.ofNat value &&& 0x7F) ||| 0x80 =
          UInt8.ofNat ((value &&& 0x7F) ||| 0x80) := by
        simp [UInt8.ofNat_or, UInt8.ofNat_and]
      have hlength : filled.length + 1 = (filled ++ [UInt8.ofNat ((value &&& 0x7F) ||| 0x80)]).length := by
        simp
      rw [hbyte, hlength, ih _ left _ (by simpa using hleft) (by simp; omega)]
      simp

theorem constVarintArray_deref {value : Nat} (h : value < 2 ^ 64) :
    (constVarintArray value).deref = varint value := by
  have hloop := constVarintLoop_eq 9 [] (List.replicate 9 0) value (by simp) rfl
  rw [List.nil_append, List.nil_append, encodeVarintLoop_eq_put 9 value (lt_capacity h)] at hloop
  exact hloop

/-- A longer representation is that of a greater value. -/
theorem lt_of_varint_length_lt {u v : Nat} (h : (varint u).length < (varint v).length) : u < v := by
  have hv := varint_length_le v
  have hu := (varint_length_le_iff u (by omega)).mp (le_refl (varint u).length)
  have hv : ¬ v < varintLimit (varint u).length := by
    rw [← varint_length_le_iff _ (by omega)]
    omega
  omega

/-- What the decoder maps to a value, from whatever buffer, is the value's one
representation. -/
theorem decodeVarint_eq_ok {β : Type} [Buf β] {buf buf' : β} {value : Nat}
    (h : decodeVarint buf = (.ok value, buf')) :
    Buf.bytes buf = varint value ++ Buf.bytes buf' := by
  have hspec := decodeVarint_spec buf
  rw [VarintResult, h] at hspec
  cases hparse : parseVarint (Buf.bytes buf) with
  | error err => simp [hparse] at hspec
  | ok taken =>
    obtain ⟨v, rest⟩ := taken
    obtain ⟨hvalue, hrest⟩ : value = v ∧ Buf.bytes buf' = rest := by simpa [hparse] using hspec
    rw [(parseVarint_eq_ok hparse).2, hvalue, hrest]

theorem decodeVarint_varint {β : Type} [Buf β] {buf : β} {value : Nat} (h : value < 2 ^ 64)
    {rest : Bytes} (hbytes : Buf.bytes buf = varint value ++ rest) :
    ∃ buf', decodeVarint buf = (.ok value, buf') ∧ Buf.bytes buf' = rest := by
  have hspec := decodeVarint_spec buf
  rw [VarintResult, hbytes, parseVarint_varint h] at hspec
  exact ⟨_, Prod.ext hspec.1 rfl, hspec.2⟩

/-- All encoders write the same bytes, which are the only varint of the value:
nothing else is decoded to it. Their number is what `encoded_len_varint` says,
between one and nine, and never smaller for a greater value. -/
theorem varint_encoders_agree {value : Nat} (h : value < 2 ^ 64) :
    ∃ bytes, IsVarint value bytes ∧ (∀ other, IsVarint value other → other = bytes) ∧
      encodeVarint value = bytes ∧ encodeVarintGeneric value = bytes ∧
      (∀ buf, prependVarintUnrolled value buf = bytes ++ buf) ∧
      (∀ buf, prependVarintGeneric value buf = bytes ++ buf) ∧
      (constVarintArray value).deref = bytes ∧
      encodedLenVarint value = bytes.length ∧ 1 ≤ bytes.length ∧ bytes.length ≤ 9 ∧
      (∀ (β : Type) [Buf β] (buf : β) (rest : Bytes),
        (∃ buf', decodeVarint buf = (.ok value, buf') ∧ Buf.bytes buf' = rest) ↔
          Buf.bytes buf = bytes ++ rest) ∧
      ∀ value' < 2 ^ 64, ∀ bytes', IsVarint value' bytes' →
        bytes.length < bytes'.length → value < value' := by
  refine ⟨varint value, isVarint_varint h, fun other hother => hother.eq, encodeVarint_eq value,
    encodeVarintGeneric_eq h, prependVarintUnrolled_eq value, prependVarintGeneric_eq h,
    constVarintArray_deref h, encodedLenVarint_eq value, varint_length_pos value,
    varint_length_le value, fun β _ buf rest => ⟨?_, decodeVarint_varint h⟩, ?_⟩
  · rintro ⟨buf', hdecode, rfl⟩
    exact decodeVarint_eq_ok hdecode
  · intro value' _ bytes' hbytes' hlt
    rw [hbytes'.eq] at hlt
    exact lt_of_varint_length_lt hlt

/-- The greatest value takes nine bytes. -/
theorem varint_encoders_agree_max :
    ∃ bytes, IsVarint (2 ^ 64 - 1) bytes ∧ encodeVarint (2 ^ 64 - 1) = bytes ∧
      bytes = [255, 254, 254, 254, 254, 254, 254, 254, 254] := by
  obtain ⟨bytes, hvarint, -, hencode, -⟩ :=
    @varint_encoders_agree (2 ^ 64 - 1) (by decide)
  exact ⟨bytes, hvarint, hencode, by rw [← hencode]; decide⟩

end Bilrost
