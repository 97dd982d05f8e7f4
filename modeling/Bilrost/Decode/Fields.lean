import Bilrost.Decode.Outcome
import Bilrost.Wire.Tags

/-!
Reading the fields of a message one after the other: keys, the check of the
wire type, and skipping a field that is not known together with its
repetitions.
-/

namespace Bilrost

open Program

/-- `TagReader`. -/
structure TagReader where
  lastTag : Nat
  deriving DecidableEq

namespace TagReader

def new : TagReader := ⟨0⟩

/-- What `decode_key` makes of a key. -/
def readKey (tr : TagReader) (key : Nat) : Except DecodeErrorKind ((Nat × WireType) × TagReader) :=
  let tagDelta := key >>> 2
  if 2 ^ 32 ≤ tagDelta then .error .tagOverflowed
  else
    let tag := tr.lastTag + tagDelta
    if 2 ^ 32 ≤ tag then .error .tagOverflowed
    else .ok ((tag, WireType.fromU8 key), ⟨tag⟩)

/-- `decode_key`. -/
def decodeKey (tr : TagReader) : Program ((Nat × WireType) × TagReader) :=
  .op .decodeVarint fun key => ofResult (tr.readKey key)

theorem readKey_eq_ok {tr tr' : TagReader} {key tag : Nat} {wireType : WireType}
    (h : tr.readKey key = .ok ((tag, wireType), tr')) :
    tr' = ⟨tag⟩ ∧ tr.lastTag ≤ tag ∧ tag < 2 ^ 32 ∧
      key = 4 * (tag - tr.lastTag) + wireType.toU64 := by
  simp only [readKey, Nat.shiftRight_eq_div_pow] at h
  split_ifs at h with hdelta htag
  simp only [Except.ok.injEq, Prod.mk.injEq] at h
  obtain ⟨⟨rfl, rfl⟩, rfl⟩ := h
  refine ⟨rfl, Nat.le_add_right _ _, by omega, ?_⟩
  rw [WireType.toU64_fromU8]
  omega

theorem readKey_of_le {last tag : Nat} (hle : last ≤ tag) (htag : tag < 2 ^ 32)
    (wireType : WireType) :
    readKey ⟨last⟩ (4 * (tag - last) + wireType.toU64) = .ok ((tag, wireType), ⟨tag⟩) := by
  have hlt := wireType.toU64_lt
  have hdelta : (4 * (tag - last) + wireType.toU64) >>> 2 = tag - last := by
    rw [Nat.shiftRight_eq_div_pow]
    omega
  have hsum : last + (tag - last) = tag := by omega
  simp only [readKey, hdelta, hsum, WireType.fromU8_key]
  rw [if_neg (by omega), if_neg (by omega)]

/-- Reading a key that was written for a tag. -/
theorem parse_decodeKey {last tag : Nat} (hle : last ≤ tag) (htag : tag < 2 ^ 32)
    (wireType : WireType) (rest : Bytes) :
    (decodeKey ⟨last⟩).parse (keyBytes (tag - last) wireType ++ rest) =
      .ok ⟨((tag, wireType), ⟨tag⟩), .canonical, rest⟩ := by
  have hlt := wireType.toU64_lt
  rw [decodeKey, parse, Op.parse, keyBytes, parseVarint_varint (by omega)]
  simp only [Except.toOption, readKey_of_le hle htag, ofResult]
  rfl

/-- Every key that is read was written for its tag. -/
theorem parse_decodeKey_eq_ok {tr tr' : TagReader} {bytes rest : Bytes} {tag : Nat}
    {wireType : WireType} {lowest : Canonicity}
    (h : (decodeKey tr).parse bytes = .ok ⟨((tag, wireType), tr'), lowest, rest⟩) :
    tr' = ⟨tag⟩ ∧ lowest = .canonical ∧ tr.lastTag ≤ tag ∧ tag < 2 ^ 32 ∧
      bytes = keyBytes (tag - tr.lastTag) wireType ++ rest := by
  rw [decodeKey, parse, Op.parse] at h
  cases hvarint : parseVarint bytes with
  | error err => simp [hvarint, Except.toOption] at h
  | ok taken =>
    obtain ⟨key, left⟩ := taken
    simp only [hvarint, Except.toOption] at h
    cases hkey : tr.readKey key with
    | error err => simp [hkey, ofResult, Program.error, parse] at h
    | ok result =>
      simp only [hkey, ofResult, parse, Except.ok.injEq, Parsed.mk.injEq] at h
      obtain ⟨rfl, rfl, rfl⟩ := h
      obtain ⟨rfl, hle, htag, rfl⟩ := readKey_eq_ok hkey
      exact ⟨rfl, rfl, hle, htag, (parseVarint_eq_ok hvarint).2⟩

theorem regular_decodeKey (tr : TagReader) : Regular (decodeKey tr) :=
  Regular.op _ fun _ => regular_ofResult _

theorem advances_decodeKey (tr : TagReader) : Advances (decodeKey tr) :=
  advances_decodeVarint _

end TagReader

/-- `check_wire_type`. -/
def checkWireType (expected actual : WireType) : Program Unit :=
  if expected ≠ actual then error .wrongWireType else .done ()

theorem regular_checkWireType (expected actual : WireType) :
    Regular (checkWireType expected actual) := by
  rw [checkWireType]
  split_ifs
  · exact regular_error _
  · exact regular_done ()

@[simp] theorem checkWireType_self (wireType : WireType) :
    checkWireType wireType wireType = .done () := if_neg (not_not.mpr rfl)

/-- One round of `skip_field`: the value of a field. -/
def skipValue : WireType → Program Unit
  | .varint => .op .decodeVarint fun _ => read (.skipBytes 0)
  | .thirtyTwoBit => read (.skipBytes 4)
  | .sixtyFourBit => read (.skipBytes 8)
  | .lengthDelimited => .op .decodeVarint fun len => read (.skipBytes len)

/-- `skip_field`. -/
def skipField (wireType : WireType) : Program Unit := do
  skipValue wireType
  whileRepeated (fun wireType _ => skipValue wireType) ()

theorem regular_skipValue (wireType : WireType) : Regular (skipValue wireType) := by
  cases wireType with
  | varint => exact Regular.op _ fun _ => regular_read _
  | lengthDelimited => exact Regular.op _ fun _ => regular_read _
  | thirtyTwoBit => exact regular_read _
  | sixtyFourBit => exact regular_read _

theorem regular_skipField (wireType : WireType) : Regular (skipField wireType) :=
  (regular_skipValue wireType).bind fun _ =>
    Regular.whileRepeated (fun wireType _ => regular_skipValue wireType) ()

/-- Skipping checks no canonicity. -/
theorem yields_skipField (wireType : WireType) :
    (skipField wireType).Yields fun lowest _ => lowest = .canonical := by
  have value (wireType : WireType) :
      (skipValue wireType).Yields fun lowest _ => lowest = .canonical := by
    cases wireType with
    | varint => exact Yields.op fun _ => Yields.op fun _ => Yields.done rfl
    | lengthDelimited => exact Yields.op fun _ => Yields.op fun _ => Yields.done rfl
    | thirtyTwoBit => exact Yields.op fun _ => Yields.done rfl
    | sixtyFourBit => exact Yields.op fun _ => Yields.done rfl
  refine Yields.bind (value wireType) fun lowest _ hlowest => ?_
  subst hlowest
  refine (Yields.whileRepeated (fun lowest _ => lowest = .canonical)
    (fun wireType lowest _ hlowest => ?_) rfl).mono fun lowest _ hlowest => by simpa using hlowest
  subst hlowest
  exact (value wireType).mono fun lowest _ hlowest => by simpa using hlowest

end Bilrost
