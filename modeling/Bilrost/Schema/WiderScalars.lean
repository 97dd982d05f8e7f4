import Bilrost.Codec.Enumeration
import Bilrost.Schema.Widens

/-!
Scalars that widen others. Numbers may become wider, `true` is one or minus one,
what is never zero may become zero, strings are bytes, and enumerations may have
further variants.
-/

namespace Bilrost

theorem Widens.varint {T T' : Type} {s : VarintScalar T} {s' : VarintScalar T'} {f : T → T'}
    (h : s.Lawful) (h' : s'.Lawful) (hto : ∀ value, s'.toUint64 (f value) = s.toUint64 value) :
    Widens (.value s.scalar.codec) (.value s'.scalar.codec) f :=
  .scalar (.varint h) (.varint h') rfl fun value => congrArg encodeVarint (hto value)

/-- Different numbers stay different when they become wider. -/
theorem VarintScalar.injective_of_toUint64 {T T' : Type} {s : VarintScalar T} {s' : VarintScalar T'}
    {f : T → T'} (h : s.Lawful) (hto : ∀ value, s'.toUint64 (f value) = s.toUint64 value) :
    Function.Injective f := by
  intro x y hxy
  have hfrom := h.from_to x
  rw [← hto, hxy, hto, h.from_to y] at hfrom
  exact (Except.ok.inj hfrom).symm

/-- Fields of numbers, which are left out when they are zero. -/
theorem Widens.plainVarint {T T' : Type} [DecidableEq T] [DecidableEq T'] {s : VarintScalar T}
    {s' : VarintScalar T'} {f : T → T'} (h : s.Lawful) (h' : s'.Lawful)
    (hstate : s.emptyState = some (EmptyState.single s.forOverwrite))
    (hstate' : s'.emptyState = some (EmptyState.single s'.forOverwrite))
    (hzero : f s.forOverwrite = s'.forOverwrite)
    (hto : ∀ value, s'.toUint64 (f value) = s.toUint64 value) :
    Widens (.field (s.scalar.codec.plain (EmptyState.single s.forOverwrite)))
      (.field (s'.scalar.codec.plain (EmptyState.single s'.forOverwrite))) f := by
  have hf : Function.Injective f := VarintScalar.injective_of_toUint64 h hto
  apply Widens.plain hstate hstate' (Scalar.empties_single s.scalar)
    (Scalar.empties_single s'.scalar) _ (.varint h h' hto)
  intro value
  change decide (f value = s'.forOverwrite) = decide (value = s.forOverwrite)
  rw [← hzero]
  exact decide_eq_decide.mpr hf.eq_iff

namespace VarintScalar

variable {w w' : Nat}

theorem toUnsigned_signExtend (hw : 0 < w) (hle : w ≤ w') (x : BitVec w) :
    toUnsigned (x.signExtend w') = (toUnsigned x).setWidth w' := by
  have hmsb : (x.signExtend w').msb = x.msb := by
    have hlast : ¬(w' ≤ w - 1) := by omega
    rw [BitVec.msb_eq_getLsbD_last, BitVec.getLsbD_signExtend]
    by_cases heq : w' = w
    · subst heq
      simp [BitVec.msb_eq_getLsbD_last, hw]
    · have hge : ¬w' - 1 < w := by omega
      have hpos : w' - 1 < w' := by omega
      simp [hge, hpos]
  apply BitVec.eq_of_getLsbD_eq
  intro i hi
  rw [getLsbD_toUnsigned _ hi, hmsb, BitVec.getLsbD_setWidth, BitVec.getLsbD_signExtend]
  have hprev : i - 1 < w' := by omega
  by_cases hlt : i < w
  · have hprev' : i - 1 < w := by omega
    rw [getLsbD_toUnsigned _ hlt]
    simp [hi, hprev, hprev']
  · have hout : (toUnsigned x).getLsbD i = false := BitVec.getLsbD_of_ge _ _ (not_lt.mp hlt)
    have hpos : 0 < i := by omega
    rw [hout]
    by_cases heq : i = w
    · subst heq
      have hlast : i - 1 < i := by omega
      rw [BitVec.msb_eq_getLsbD_last]
      simp [hpos, hprev, hlast]
    · have hprev' : ¬i - 1 < w := by omega
      simp [hpos, hprev, hprev']

theorem toUnsigned_allOnes (hw : 0 < w) : toUnsigned (BitVec.allOnes w) = 1 := by
  apply BitVec.eq_of_getLsbD_eq
  intro i hi
  have hmsb : (BitVec.allOnes w).msb = true := by simp [BitVec.msb_eq_getLsbD_last, hw]
  rw [getLsbD_toUnsigned _ hi, hmsb]
  rcases Nat.eq_zero_or_pos i with rfl | hpos
  · simp [hw]
  · have hprev : i - 1 < w := by omega
    simp [hpos, hw, hprev, hpos.ne', BitVec.getLsbD_one]

/-- `u8`, `u16`, `u32` and `u64`, each in the next. -/
theorem widens_unsigned (hle : w ≤ w') (hle' : w' ≤ 64) :
    Widens (.value (unsigned w).scalar.codec) (.value (unsigned w').scalar.codec)
      (BitVec.setWidth w') :=
  .varint (lawful_unsigned (hle.trans hle')) (lawful_unsigned hle') fun _ =>
    BitVec.toNat_setWidth_of_le hle

theorem toUint64_signExtend (hw : 0 < w) (hle : w ≤ w') (value : BitVec w) :
    (signed w').toUint64 (value.signExtend w') = (signed w).toUint64 value := by
  simp only [signed, toUnsigned_signExtend hw hle]
  exact BitVec.toNat_setWidth_of_le hle

/-- `i8`, `i16`, `i32` and `i64`, each in the next. -/
theorem widens_signed (hw : 0 < w) (hle : w ≤ w') (hle' : w' ≤ 64) :
    Widens (.value (signed w).scalar.codec) (.value (signed w').scalar.codec)
      (BitVec.signExtend w') :=
  .varint (lawful_signed (hle.trans hle')) (lawful_signed hle') (toUint64_signExtend hw hle)

theorem toUint64_ofNat (hw : 0 < w) (value : Bool) :
    (unsigned w).toUint64 (BitVec.ofNat w value.toNat) = bool.toUint64 value := by
  have hlt : value.toNat < 2 ^ w := (Bool.toNat_lt value).trans_le (Nat.pow_le_pow_right Nat.two_pos hw)
  exact Nat.mod_eq_of_lt hlt

/-- `true` is one. -/
theorem widens_bool_unsigned (hw : 0 < w) (hle : w ≤ 64) :
    Widens (.value bool.scalar.codec) (.value (unsigned w).scalar.codec)
      (fun value : Bool => BitVec.ofNat w value.toNat) :=
  .varint lawful_bool (lawful_unsigned hle) (toUint64_ofNat hw)

/-- A boolean as a signed number, of which all bits are the same. -/
def ofBool (w : Nat) : Bool → BitVec w
  | true => BitVec.allOnes w
  | false => 0

theorem toUint64_ofBool (hw : 0 < w) (value : Bool) :
    (signed w).toUint64 (ofBool w value) = bool.toUint64 value := by
  cases value with
  | true =>
      simp only [signed, ofBool, toUnsigned_allOnes hw]
      exact Nat.mod_eq_of_lt (Nat.one_lt_two_pow hw.ne')
  | false => simp [signed, ofBool, toUnsigned, bool]

/-- `true` is minus one. -/
theorem widens_bool_signed (hw : 0 < w) (hle : w ≤ 64) :
    Widens (.value bool.scalar.codec) (.value (signed w).scalar.codec) (ofBool w) :=
  .varint lawful_bool (lawful_signed hle) (toUint64_ofBool hw)

theorem widens_nonZero {s : VarintScalar (BitVec w)} (h : s.Lawful) (one : {x : BitVec w // x ≠ 0}) :
    Widens (.value (s.nonZero one).scalar.codec) (.value s.scalar.codec) Subtype.val :=
  .varint (h.nonZero one) h fun _ => rfl

end VarintScalar

theorem FixedScalar.widens_nonZero {w : Nat} {s : FixedScalar (BitVec w)} (h : s.Lawful)
    (one : {x : BitVec w // x ≠ 0}) :
    Widens (.value (s.nonZero one).scalar.codec) (.value s.scalar.codec) Subtype.val :=
  .scalar (.fixed (h.nonZero one)) (.fixed h) rfl fun _ => rfl

namespace DelimitedScalar

/-- A string is its bytes. -/
theorem widens_string (reads reads' : DecodingMode → DelimitedRead) :
    Widens (.value (stringBy reads).scalar.codec) (.value (bytesBy reads').scalar.codec)
      (fun value : String => value.toUTF8.data.toList) :=
  .scalar (.delimited (lawful_stringBy reads)) (.delimited (lawful_bytesBy reads')) rfl fun _ => rfl

theorem widens_plainArray {n : Nat} (hn : n < 2 ^ 64) (reads : DecodingMode → DelimitedRead) :
    Widens (.value (plainArray n).codec) (.value (bytesBy reads).scalar.codec)
      List.Vector.toList := by
  apply Widens.scalar (.plainArray n) (.delimited (lawful_bytesBy reads)) rfl
  intro arr
  change encodeVarint arr.toList.length ++ arr.toList = constVarint n ++ arr.toList
  rw [List.Vector.toList_length, encodeVarint_eq, constVarint_eq hn]

end DelimitedScalar

namespace Enumeration

/-- An enumeration with all the variants of another, under the same numbers. -/
theorem widens {e e' : Enumeration} {f : e.Variant → e'.Variant}
    (h : ∀ variant, e'.toNumber (f variant) = e.toNumber variant) :
    Widens (.value e.scalar.scalar.codec) (.value e'.scalar.scalar.codec) f :=
  .varint e.lawful_scalar e'.lawful_scalar fun variant => congrArg BitVec.toNat (h variant)

/-- An enumeration is its number. -/
theorem widens_u32 (e : Enumeration) :
    Widens (.value e.scalar.scalar.codec) (.value VarintScalar.u32.scalar.codec) e.toNumber :=
  .varint e.lawful_scalar (VarintScalar.lawful_unsigned (by decide)) fun _ => rfl

end Enumeration

end Bilrost
