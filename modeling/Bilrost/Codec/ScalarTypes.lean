import Bilrost.Codec.Scalars

/-!
The scalar types. Integers are bit vectors of their width, signed ones in two's
complement, and so are floats; `usize` and `isize` have 64 bits. Each type is a
general construction at its own values, and the conversions of each construction
are shown to be inverse to each other.
-/

namespace Bilrost

/-- `i8_to_unsigned` and its siblings: zigzag, which stores the sign in the
lowest bit. -/
def toUnsigned {w : Nat} (value : BitVec w) : BitVec w :=
  (value <<< 1) ^^^ value.sshiftRight (w - 1)

/-- `u8_to_signed` and its siblings. -/
def toSigned {w : Nat} (value : BitVec w) : BitVec w := (value >>> 1) ^^^ -(value &&& 1)

section
variable {w i : Nat} (x : BitVec w)

theorem getLsbD_neg_lowest (hi : i < w) : (-(x &&& 1)).getLsbD i = x.getLsbD 0 := by
  have h : x &&& 1 = if x.getLsbD 0 then 1 else 0 := by
    ext j hj
    rw [BitVec.getElem_and]
    by_cases hj0 : j = 0
    · subst hj0
      cases hx : x.getLsbD 0 <;> simp_all
    · cases hx : x.getLsbD 0 <;> simp_all
  rw [h]
  cases hx : x.getLsbD 0 with
  | true =>
    have hones : -(1 : BitVec w) = BitVec.allOnes w := BitVec.neg_one_eq_allOnes
    rw [if_pos rfl, hones]
    simp [hi]
  | false => simp

theorem getLsbD_toUnsigned (hi : i < w) :
    (toUnsigned x).getLsbD i = ((decide (0 < i) && x.getLsbD (i - 1)) ^^ x.msb) := by
  rw [BitVec.msb_eq_getLsbD_last]
  simp only [toUnsigned, BitVec.getLsbD_xor, BitVec.getLsbD_shiftLeft, BitVec.getLsbD_sshiftRight,
    BitVec.msb_eq_getLsbD_last]
  rcases Nat.eq_zero_or_pos i with rfl | hpos
  · simp only [Nat.add_zero, Nat.sub_lt hi Nat.one_pos, if_true, not_le.mpr hi]
    simp
  · have hlast : ¬ w - 1 + i < w := by omega
    simp [hi, hlast, hpos, hpos.ne']

theorem getLsbD_toSigned (hi : i < w) :
    (toSigned x).getLsbD i = (x.getLsbD (i + 1) ^^ x.getLsbD 0) := by
  rw [toSigned, BitVec.getLsbD_xor, getLsbD_neg_lowest x hi, BitVec.getLsbD_ushiftRight,
    Nat.add_comm]

@[simp] theorem toSigned_toUnsigned : toSigned (toUnsigned x) = x := by
  apply BitVec.eq_of_getLsbD_eq
  intro i hi
  have hsign : (toUnsigned x).getLsbD 0 = x.msb := by
    rw [getLsbD_toUnsigned x (by omega)]
    simp
  rw [getLsbD_toSigned _ hi, hsign]
  by_cases hlast : i + 1 < w
  · rw [getLsbD_toUnsigned x hlast]
    simp
  · obtain rfl : i = w - 1 := by omega
    rw [BitVec.getLsbD_of_ge _ _ (by omega), BitVec.msb_eq_getLsbD_last, Bool.false_xor]

@[simp] theorem toUnsigned_toSigned : toUnsigned (toSigned x) = x := by
  apply BitVec.eq_of_getLsbD_eq
  intro i hi
  have hsign : (toSigned x).msb = x.getLsbD 0 := by
    rw [BitVec.msb_eq_getLsbD_last, getLsbD_toSigned x (by omega),
      BitVec.getLsbD_of_ge _ _ (by omega), Bool.false_xor]
  rw [getLsbD_toUnsigned _ hi, hsign]
  rcases Nat.eq_zero_or_pos i with rfl | hpos
  · simp
  · rw [getLsbD_toSigned x (by omega), Nat.sub_add_cancel hpos]
    simp [hpos]

end

/-- `try_from` on a `u64`. -/
def tryFrom (w n : Nat) : Except DecodeErrorKind (BitVec w) :=
  if n < 2 ^ w then .ok (BitVec.ofNat w n) else .error .outOfDomainValue

theorem tryFrom_toNat {w : Nat} (value : BitVec w) : tryFrom w value.toNat = .ok value := by
  rw [tryFrom, if_pos value.isLt, BitVec.ofNat_toNat, BitVec.setWidth_eq]

theorem tryFrom_eq_ok {w n : Nat} {value : BitVec w} (h : tryFrom w n = .ok value) :
    value.toNat = n := by
  rw [tryFrom] at h
  split_ifs at h with hlt
  obtain rfl := Except.ok.inj h
  rw [BitVec.toNat_ofNat, Nat.mod_eq_of_lt hlt]

namespace VarintScalar

/-- `bool` -/
def bool : VarintScalar Bool where
  forOverwrite := false
  emptyState := some (EmptyState.single false)
  toUint64 value := value.toNat
  fromUint64
    | 0 => .ok false
    | 1 => .ok true
    | _ => .error .outOfDomainValue

def unsigned (w : Nat) : VarintScalar (BitVec w) where
  forOverwrite := 0
  emptyState := some (EmptyState.single 0)
  toUint64 := BitVec.toNat
  fromUint64 := tryFrom w

def signed (w : Nat) : VarintScalar (BitVec w) where
  forOverwrite := 0
  emptyState := some (EmptyState.single 0)
  toUint64 value := (toUnsigned value).toNat
  fromUint64 n := (tryFrom w n).map toSigned

/-- The `NonZero` of an integer type. It has no empty state. -/
def nonZero {w : Nat} (s : VarintScalar (BitVec w)) (one : {x : BitVec w // x ≠ 0}) :
    VarintScalar {x : BitVec w // x ≠ 0} where
  forOverwrite := one
  emptyState := none
  toUint64 value := s.toUint64 value.1
  fromUint64 n := do
    let value ← s.fromUint64 n
    if h : value ≠ 0 then .ok ⟨value, h⟩ else .error .invalidValue

def u8 : VarintScalar (BitVec 8) := unsigned 8
def u16 : VarintScalar (BitVec 16) := unsigned 16
def u32 : VarintScalar (BitVec 32) := unsigned 32
def u64 : VarintScalar (BitVec 64) := unsigned 64
def usize : VarintScalar (BitVec 64) := unsigned 64
def i8 : VarintScalar (BitVec 8) := signed 8
def i16 : VarintScalar (BitVec 16) := signed 16
def i32 : VarintScalar (BitVec 32) := signed 32
def i64 : VarintScalar (BitVec 64) := signed 64
def isize : VarintScalar (BitVec 64) := signed 64
def nonZeroU8 := u8.nonZero ⟨1, by decide⟩
def nonZeroU16 := u16.nonZero ⟨1, by decide⟩
def nonZeroU32 := u32.nonZero ⟨1, by decide⟩
def nonZeroU64 := u64.nonZero ⟨1, by decide⟩
def nonZeroUsize := usize.nonZero ⟨1, by decide⟩
def nonZeroI8 := i8.nonZero ⟨1, by decide⟩
def nonZeroI16 := i16.nonZero ⟨1, by decide⟩
def nonZeroI32 := i32.nonZero ⟨1, by decide⟩
def nonZeroI64 := i64.nonZero ⟨1, by decide⟩
def nonZeroIsize := isize.nonZero ⟨1, by decide⟩

theorem lawful_bool : bool.Lawful where
  lt value := by cases value <;> decide
  from_to value := by cases value <;> rfl
  to_from {n value} h := by
    match n, h with
    | 0, h =>
      obtain rfl := Except.ok.inj h
      rfl
    | 1, h =>
      obtain rfl := Except.ok.inj h
      rfl
  refuses n := by
    match n with
    | 0 | 1 | _ + 2 => rintro ⟨⟩

theorem refuses_tryFrom (w n : Nat) : Refuses (tryFrom w n) := by
  rw [tryFrom, Refuses]
  split_ifs <;> simp

theorem lawful_unsigned {w : Nat} (h : w ≤ 64) : (unsigned w).Lawful where
  lt value := value.isLt.trans_le (Nat.pow_le_pow_right Nat.two_pos h)
  from_to := tryFrom_toNat
  to_from := tryFrom_eq_ok
  refuses := refuses_tryFrom w

theorem lawful_signed {w : Nat} (h : w ≤ 64) : (signed w).Lawful where
  lt value := (toUnsigned value).isLt.trans_le (Nat.pow_le_pow_right Nat.two_pos h)
  from_to value := by
    simp only [signed, tryFrom_toNat, Except.map, toSigned_toUnsigned]
  to_from {n value} hfrom := by
    simp only [signed] at hfrom ⊢
    cases htry : tryFrom w n with
    | error kind => simp [htry, Except.map] at hfrom
    | ok unsigned =>
      obtain rfl : toSigned unsigned = value := by simpa [htry, Except.map] using hfrom
      rw [toUnsigned_toSigned]
      exact tryFrom_eq_ok htry
  refuses n := by
    have hrefuses := refuses_tryFrom w n
    simp only [signed, Refuses] at hrefuses ⊢
    cases htry : tryFrom w n with
    | error kind => simpa [htry, Except.map] using hrefuses
    | ok unsigned => simp [Except.map]

theorem Lawful.nonZero {w : Nat} {s : VarintScalar (BitVec w)} (h : s.Lawful)
    (one : {x : BitVec w // x ≠ 0}) : (s.nonZero one).Lawful where
  lt value := h.lt value.1
  from_to value := by
    simp only [VarintScalar.nonZero, h.from_to value.1, Bind.bind, Except.bind, dif_pos value.2]
  to_from {n value} hfrom := by
    simp only [VarintScalar.nonZero] at hfrom ⊢
    cases hs : s.fromUint64 n with
    | error kind => simp [hs, Bind.bind, Except.bind] at hfrom
    | ok x =>
      simp only [hs, Bind.bind, Except.bind] at hfrom
      split_ifs at hfrom with hne
      obtain rfl := Except.ok.inj hfrom
      exact h.to_from hs
  refuses n := by
    have hrefuses := h.refuses n
    simp only [VarintScalar.nonZero, Refuses] at hrefuses ⊢
    cases hs : s.fromUint64 n with
    | error kind => simpa [hs, Bind.bind, Except.bind] using hrefuses
    | ok x =>
      simp only [Bind.bind, Except.bind]
      split_ifs <;> simp

end VarintScalar

/-- The lowest `size` bytes of a number, lowest first (`put_u32_le` and its
siblings). -/
def leBytes : Nat → Nat → Bytes
  | 0, _ => []
  | size + 1, n => UInt8.ofNat n :: leBytes size (n / 256)

/-- `get_u32_le` and its siblings. -/
def leValue : Bytes → Nat
  | [] => 0
  | b :: bytes => b.toNat + 256 * leValue bytes

@[simp] theorem length_leBytes (size n : Nat) : (leBytes size n).length = size := by
  induction size generalizing n with
  | zero => rfl
  | succ size ih => rw [leBytes, List.length_cons, ih]

theorem leValue_lt (bytes : Bytes) : leValue bytes < 256 ^ bytes.length := by
  induction bytes with
  | nil => decide
  | cons b bytes ih =>
    have hb := b.toNat_lt
    rw [leValue, List.length_cons, pow_succ]
    omega

theorem leValue_leBytes {size n : Nat} (h : n < 256 ^ size) : leValue (leBytes size n) = n := by
  induction size generalizing n with
  | zero =>
    obtain rfl : n = 0 := by simpa using h
    rfl
  | succ size ih =>
    have hdiv : n / 256 < 256 ^ size := by
      rw [Nat.div_lt_iff_lt_mul (by decide), ← pow_succ]
      exact h
    rw [leBytes, leValue, ih hdiv, UInt8.toNat_ofNat']
    exact Nat.mod_add_div n 256

theorem leBytes_leValue (bytes : Bytes) : leBytes bytes.length (leValue bytes) = bytes := by
  induction bytes with
  | nil => rfl
  | cons b bytes ih =>
    have hb := b.toNat_lt
    have hdiv : (b.toNat + 256 * leValue bytes) / 256 = leValue bytes := by omega
    have hmod : UInt8.ofNat (b.toNat + 256 * leValue bytes) = b := by
      rw [← UInt8.toNat_inj, UInt8.toNat_ofNat']
      omega
    rw [leValue, List.length_cons, leBytes, hdiv, ih, hmod]

namespace FixedScalar

/-- Numbers of the size of the encoding. -/
def ofBits (width : FixedWidth) : FixedScalar (BitVec (8 * width.size)) where
  forOverwrite := 0
  emptyState := some (EmptyState.single 0)
  width := width
  number := true
  toBytes value := leBytes width.size value.toNat
  fromBytes bytes :=
    if bytes.length = width.size then .ok (BitVec.ofNat _ (leValue bytes)) else .error .truncated

/-- The `NonZero` of an integer type. -/
def nonZero {w : Nat} (s : FixedScalar (BitVec w)) (one : {x : BitVec w // x ≠ 0}) :
    FixedScalar {x : BitVec w // x ≠ 0} where
  forOverwrite := one
  emptyState := none
  width := s.width
  number := true
  toBytes value := s.toBytes value.1
  fromBytes bytes := do
    let value ← s.fromBytes bytes
    if h : value ≠ 0 then .ok ⟨value, h⟩ else .error .invalidValue

/-- Arrays of bytes. -/
def array (width : FixedWidth) : FixedScalar (List.Vector UInt8 width.size) where
  forOverwrite := List.Vector.replicate width.size 0
  emptyState := some (EmptyState.single (List.Vector.replicate width.size 0))
  width := width
  number := false
  toBytes := List.Vector.toList
  fromBytes bytes :=
    if h : bytes.length = width.size then .ok ⟨bytes, h⟩ else .error .truncated

/-- A float is empty when all of its bits are zero, so that `-0.0` is not. -/
def f32 : FixedScalar (BitVec 32) := ofBits .four
def f64 : FixedScalar (BitVec 64) := ofBits .eight
def u32 : FixedScalar (BitVec 32) := ofBits .four
def u64 : FixedScalar (BitVec 64) := ofBits .eight
def i32 : FixedScalar (BitVec 32) := ofBits .four
def i64 : FixedScalar (BitVec 64) := ofBits .eight
def nonZeroU32 := u32.nonZero ⟨1, by decide⟩
def nonZeroU64 := u64.nonZero ⟨1, by decide⟩
def nonZeroI32 := i32.nonZero ⟨1, by decide⟩
def nonZeroI64 := i64.nonZero ⟨1, by decide⟩
def u8x4 : FixedScalar (List.Vector UInt8 4) := array .four
def u8x8 : FixedScalar (List.Vector UInt8 8) := array .eight

theorem lawful_ofBits (width : FixedWidth) : (ofBits width).Lawful where
  length value := length_leBytes _ _
  from_to value := by
    have hlt : value.toNat < 256 ^ width.size := by
      have hvalue := value.isLt
      rwa [Nat.pow_mul] at hvalue
    simp only [ofBits, length_leBytes, if_true, leValue_leBytes hlt, BitVec.ofNat_toNat,
      BitVec.setWidth_eq]
  to_from {bytes value} h := by
    simp only [ofBits] at h ⊢
    split_ifs at h with hlen
    obtain rfl := Except.ok.inj h
    have hlt : leValue bytes < 2 ^ (8 * width.size) := by
      rw [Nat.pow_mul, ← hlen]
      exact leValue_lt bytes
    rw [BitVec.toNat_ofNat, Nat.mod_eq_of_lt hlt, ← hlen, leBytes_leValue]
  refuses bytes := by
    simp only [ofBits, Refuses]
    split_ifs <;> simp

theorem Lawful.nonZero {w : Nat} {s : FixedScalar (BitVec w)} (h : s.Lawful)
    (one : {x : BitVec w // x ≠ 0}) : (s.nonZero one).Lawful where
  length value := h.length value.1
  from_to value := by
    simp only [FixedScalar.nonZero, h.from_to value.1, Bind.bind, Except.bind, dif_pos value.2]
  to_from {bytes value} hfrom := by
    simp only [FixedScalar.nonZero] at hfrom ⊢
    cases hs : s.fromBytes bytes with
    | error kind => simp [hs, Bind.bind, Except.bind] at hfrom
    | ok x =>
      simp only [hs, Bind.bind, Except.bind] at hfrom
      split_ifs at hfrom with hne
      obtain rfl := Except.ok.inj hfrom
      exact h.to_from hs
  refuses bytes := by
    have hrefuses := h.refuses bytes
    simp only [FixedScalar.nonZero, Refuses] at hrefuses ⊢
    cases hs : s.fromBytes bytes with
    | error kind => simpa [hs, Bind.bind, Except.bind] using hrefuses
    | ok x =>
      simp only [Bind.bind, Except.bind]
      split_ifs <;> simp

theorem lawful_array (width : FixedWidth) : (array width).Lawful where
  length value := value.2
  from_to value := dif_pos value.2
  to_from {bytes value} h := by
    simp only [array] at h ⊢
    split_ifs at h with hlen
    obtain rfl := Except.ok.inj h
    rfl
  refuses bytes := by
    simp only [array, Refuses]
    split_ifs <;> simp

end FixedScalar

namespace DelimitedScalar

def bytesBy (reads : DecodingMode → DelimitedRead) : DelimitedScalar Bytes where
  forOverwrite := []
  emptyState := some { isEmpty := List.isEmpty, clear := fun _ => [] }
  toBytes := id
  fromBytes := .ok
  reads := reads

/-- `from_utf8` -/
def fromUtf8 (bytes : Bytes) : Except DecodeErrorKind String :=
  match String.fromUTF8? ⟨bytes.toArray⟩ with
  | some value => .ok value
  | none => .error .invalidValue

def stringBy (reads : DecodingMode → DelimitedRead) : DelimitedScalar String where
  forOverwrite := ""
  emptyState := some (EmptyState.single "")
  toBytes value := value.toUTF8.data.toList
  fromBytes := fromUtf8
  reads := reads

/-- How types that may borrow are read. -/
def whereBorrowed : DecodingMode → DelimitedRead
  | .owned => .copied
  | .borrowed => .borrowed

/-- `Vec<u8>`, `Bytes` and `Blob`. -/
def vecU8 : DelimitedScalar Bytes := bytesBy fun _ => .copied
/-- `Cow<[u8]>`, and `&[u8]` as far as it is decoded. -/
def cowBytes : DelimitedScalar Bytes := bytesBy whereBorrowed
/-- `String` -/
def string : DelimitedScalar String := stringBy fun _ => .copied
/-- `Cow<str>`, and `&str` as far as it is decoded. -/
def cowStr : DelimitedScalar String := stringBy whereBorrowed
/-- `SmolStr` -/
def smolStr : DelimitedScalar String := stringBy fun _ => .smolStr

theorem lawful_bytesBy (reads : DecodingMode → DelimitedRead) : (bytesBy reads).Lawful where
  from_to _ := rfl
  to_from h := (Except.ok.inj h).symm
  refuses _ h := by cases h

theorem lawful_stringBy (reads : DecodingMode → DelimitedRead) : (stringBy reads).Lawful where
  from_to value := by
    have hvalid : value.toUTF8.IsValidUTF8 := value.isValidUTF8
    simp only [stringBy, fromUtf8, Array.toArray_toList, String.fromUTF8?]
    rw [dif_pos hvalid]
    rfl
  to_from {bytes value} h := by
    simp only [stringBy, fromUtf8, String.fromUTF8?] at h ⊢
    split_ifs at h with hvalid
    obtain rfl := Except.ok.inj h
    rfl
  refuses bytes := by
    simp only [stringBy, fromUtf8, Refuses]
    split <;> simp

end DelimitedScalar

end Bilrost
