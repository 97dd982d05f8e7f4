import Bilrost.Wire.VarintEncoders

/-!
The two varint decoders again, with the width of every addition of the source:
an addition that does not fit in its 32 or 64 bits, or a byte read past the end
of the slice, is `none`. None of this ever happens, so the checked decoders are
the ones everything else is about, and both sort all byte strings in the same
way into values, truncated varints and varints that are too great.
-/

namespace Bilrost

/-- An addition of two `u32`. -/
def addU32 (a b : Nat) : Option Nat := if a + b < 2 ^ 32 then some (a + b) else none

/-- An addition of two `u64`. -/
def addU64 (a b : Nat) : Option Nat := if a + b < 2 ^ 64 then some (a + b) else none

theorem addU32_of_lt {a b : Nat} (h : a + b < 2 ^ 32) : addU32 a b = some (a + b) := if_pos h

theorem addU64_of_lt {a b : Nat} (h : a + b < 2 ^ 64) : addU64 a b = some (a + b) := if_pos h

/-- `decode_varint_slice`, with its reads and its additions checked. -/
def decodeVarintSliceChecked (bytes : Bytes) : Option (Except DecodeErrorKind (Nat × Nat)) := do
  let byte (i : Nat) : Option Nat := bytes[i]?.map UInt8.toNat
  let b ← byte 0
  let part0 := b
  if b < 0x80 then some (.ok (part0, 1)) else
  let b ← byte 1
  let part0 ← addU32 part0 (b <<< 7)
  if b < 0x80 then some (.ok (part0, 2)) else
  let b ← byte 2
  let part0 ← addU32 part0 (b <<< 14)
  if b < 0x80 then some (.ok (part0, 3)) else
  let b ← byte 3
  let part0 ← addU32 part0 (b <<< 21)
  if b < 0x80 then some (.ok (part0, 4)) else
  let value := part0
  let b ← byte 4
  let part1 := b
  if b < 0x80 then (do let sum ← addU64 value (part1 <<< 28); some (.ok (sum, 5))) else
  let b ← byte 5
  let part1 ← addU32 part1 (b <<< 7)
  if b < 0x80 then (do let sum ← addU64 value (part1 <<< 28); some (.ok (sum, 6))) else
  let b ← byte 6
  let part1 ← addU32 part1 (b <<< 14)
  if b < 0x80 then (do let sum ← addU64 value (part1 <<< 28); some (.ok (sum, 7))) else
  let b ← byte 7
  let part1 ← addU32 part1 (b <<< 21)
  if b < 0x80 then (do let sum ← addU64 value (part1 <<< 28); some (.ok (sum, 8))) else
  let value ← addU64 value (part1 <<< 28)
  let b ← byte 8
  let high ← addU32 b (value >>> 56)
  if high > 0xff then some (.error .invalidVarint)
  else do
    let sum ← addU64 value (b <<< 56)
    some (.ok (sum, 9))

section
variable {β : Type} [Buf β]

/-- The loop of `decode_varint_slow`, with its additions checked. The last one
is the `checked_add` of the source. -/
def decodeVarintSlowLoopChecked : Nat → Nat → Nat → β → Option (Except DecodeErrorKind Nat × β)
  | 0, _, value, buf =>
      if Buf.remaining buf = 0 then some (.error .truncated, buf)
      else
        let (byte, buf) := Buf.getU8 buf
        match addU64 value (byte.toNat <<< 56) with
        | some sum => some (.ok sum, buf)
        | none => some (.error .invalidVarint, buf)
  | rounds + 1, count, value, buf => do
      let (byte, buf) := Buf.getU8 buf
      let value ← addU64 value (byte.toNat <<< (count * 7))
      if byte.toNat < 0x80 then some (.ok value, buf)
      else decodeVarintSlowLoopChecked rounds (count + 1) value buf

/-- `decode_varint_slow`, with its additions checked. -/
def decodeVarintSlowChecked (buf : β) : Option (Except DecodeErrorKind Nat × β) :=
  decodeVarintSlowLoopChecked (min 8 (Buf.remaining buf)) 0 0 buf

/-- The sum of the first eight bytes stays below `2^58`. -/
theorem decodeVarintSlowLoopChecked_eq (rounds count value : Nat) (buf : β)
    (hcount : count + rounds ≤ 8) (hsum : value ≤ 3 * 2 ^ (7 * count)) :
    decodeVarintSlowLoopChecked rounds count value buf =
      some (decodeVarintSlowLoop rounds count value buf) := by
  induction rounds generalizing count value buf with
  | zero =>
    rw [decodeVarintSlowLoopChecked, decodeVarintSlowLoop]
    split
    · rfl
    · by_cases hlt : value + (Buf.getU8 buf).1.toNat <<< 56 < 2 ^ 64
      · simp only [addU64_of_lt hlt, if_pos hlt]
      · simp only [addU64, if_neg hlt]
  | succ rounds ih =>
    have hstep := sum_step hsum (Buf.getU8 buf).1.toNat_lt
    have hpow : 2 ^ (7 * (count + 1)) ≤ 2 ^ 56 := Nat.pow_le_pow_right (by decide) (by omega)
    rw [decodeVarintSlowLoopChecked, decodeVarintSlowLoop]
    simp only [addU64_of_lt (show value + (Buf.getU8 buf).1.toNat <<< (count * 7) < 2 ^ 64 by omega),
      Option.bind_eq_bind, Option.bind_some]
    split
    · rfl
    · exact ih (count + 1) _ _ (by omega) hstep

theorem decodeVarintSlowChecked_eq (buf : β) :
    decodeVarintSlowChecked buf = some (decodeVarintSlow buf) :=
  decodeVarintSlowLoopChecked_eq _ 0 0 buf (by omega) (by decide)

end

/-- One step of a computation that does not fail. -/
private theorem bind_step {α γ : Type} {o : Option α} {a : α} {f : α → Option γ} {r : Option γ}
    (ho : o = some a) (hf : f a = r) : o.bind f = r := by
  rw [ho]
  exact hf

/-- The unrolled decoder reads no byte past the slice and none of its sums
overflows. -/
theorem decodeVarintSliceChecked_eq {bytes : Bytes} (hne : bytes ≠ [])
    (hfit : 9 ≤ bytes.length ∨ (bytes.getD (bytes.length - 1) 0).toNat < 0x80) :
    decodeVarintSliceChecked bytes = some (decodeVarintSlice bytes) := by
  have hpos : 0 < bytes.length := List.length_pos_iff.mpr hne
  -- where all bytes before it say that more follow, there is a byte
  have next (i : Nat) (hi : i < 8) (hlen : i < bytes.length)
      (hhigh : ¬ (bytes.getD i 0).toNat < 0x80) : i + 1 < bytes.length := by
    by_contra hlast
    obtain rfl : i = bytes.length - 1 := by omega
    omega
  have read (i : Nat) (hlen : i < bytes.length) :
      bytes[i]?.map UInt8.toNat = some (bytes.getD i 0).toNat := by
    rw [List.getD_eq_getElem?_getD, List.getElem?_eq_getElem hlen]
    rfl
  have l0 := (bytes.getD 0 0).toNat_lt
  have l1 := (bytes.getD 1 0).toNat_lt
  have l2 := (bytes.getD 2 0).toNat_lt
  have l3 := (bytes.getD 3 0).toNat_lt
  have l4 := (bytes.getD 4 0).toNat_lt
  have l5 := (bytes.getD 5 0).toNat_lt
  have l6 := (bytes.getD 6 0).toNat_lt
  have l7 := (bytes.getD 7 0).toNat_lt
  have l8 := (bytes.getD 8 0).toNat_lt
  unfold decodeVarintSliceChecked decodeVarintSlice
  refine bind_step (read 0 hpos) ?_
  by_cases h0 : (bytes.getD 0 0).toNat < 0x80
  · simp only [h0, ↓reduceIte]
  have hlen := next 0 (by omega) hpos h0
  simp only [h0, ↓reduceIte, Nat.shiftLeft_eq, Nat.shiftRight_eq_div_pow]
  refine bind_step (read 1 hlen) (bind_step (addU32_of_lt (by omega)) ?_)
  by_cases h1 : (bytes.getD 1 0).toNat < 0x80
  · simp only [h1, ↓reduceIte]
  have hlen := next 1 (by omega) hlen h1
  simp only [h1, ↓reduceIte]
  refine bind_step (read 2 hlen) (bind_step (addU32_of_lt (by omega)) ?_)
  by_cases h2 : (bytes.getD 2 0).toNat < 0x80
  · simp only [h2, ↓reduceIte]
  have hlen := next 2 (by omega) hlen h2
  simp only [h2, ↓reduceIte]
  refine bind_step (read 3 hlen) (bind_step (addU32_of_lt (by omega)) ?_)
  by_cases h3 : (bytes.getD 3 0).toNat < 0x80
  · simp only [h3, ↓reduceIte]
  have hlen := next 3 (by omega) hlen h3
  simp only [h3, ↓reduceIte]
  refine bind_step (read 4 hlen) ?_
  by_cases h4 : (bytes.getD 4 0).toNat < 0x80
  · simp only [h4, ↓reduceIte]
    exact bind_step (addU64_of_lt (by omega)) rfl
  have hlen := next 4 (by omega) hlen h4
  simp only [h4, ↓reduceIte]
  refine bind_step (read 5 hlen) (bind_step (addU32_of_lt (by omega)) ?_)
  by_cases h5 : (bytes.getD 5 0).toNat < 0x80
  · simp only [h5, ↓reduceIte]
    exact bind_step (addU64_of_lt (by omega)) rfl
  have hlen := next 5 (by omega) hlen h5
  simp only [h5, ↓reduceIte]
  refine bind_step (read 6 hlen) (bind_step (addU32_of_lt (by omega)) ?_)
  by_cases h6 : (bytes.getD 6 0).toNat < 0x80
  · simp only [h6, ↓reduceIte]
    exact bind_step (addU64_of_lt (by omega)) rfl
  have hlen := next 6 (by omega) hlen h6
  simp only [h6, ↓reduceIte]
  refine bind_step (read 7 hlen) (bind_step (addU32_of_lt (by omega)) ?_)
  by_cases h7 : (bytes.getD 7 0).toNat < 0x80
  · simp only [h7, ↓reduceIte]
    exact bind_step (addU64_of_lt (by omega)) rfl
  have hlen := next 7 (by omega) hlen h7
  simp only [h7, ↓reduceIte]
  refine bind_step (addU64_of_lt (by omega))
    (bind_step (read 8 hlen) (bind_step (addU32_of_lt (by omega)) ?_))
  split_ifs with hbig
  · rfl
  · exact bind_step (addU64_of_lt (by omega)) rfl

/-- Nine bytes are there and none of the first eight ends a varint. -/
def NineBytes (bytes : Bytes) : Prop :=
  9 ≤ bytes.length ∧ ∀ b ∈ bytes.take 8, 0x80 ≤ b.toNat

/-- What decoding a byte string has to give, and how many bytes it takes unless
the varint is truncated. -/
structure VarintClass (bytes : Bytes) (result : Except DecodeErrorKind Nat) (used : Nat) :
    Prop where
  ok_iff (value : Nat) : result = .ok value ↔
    value < 2 ^ 64 ∧ used ≤ bytes.length ∧ IsVarint value (bytes.take used)
  only {value : Nat} {found : Bytes} : found <+: bytes → IsVarint value found → value < 2 ^ 64 →
    result = .ok value ∧ used = found.length
  invalid_iff : result = .error .invalidVarint ↔
    NineBytes bytes ∧ 2 ^ 64 ≤ BijectiveDigits.denote (bytes.take 9)
  invalid_used : result = .error .invalidVarint → used = 9
  truncated_iff : result = .error .truncated ↔
    (¬ ∃ value, result = .ok value) ∧ result ≠ .error .invalidVarint

theorem NineBytes.isDigits {bytes : Bytes} (h : NineBytes bytes) :
    BijectiveDigits.IsDigits 9 (bytes.take 9) := by
  have hlen : (bytes.take 9).length = 9 := by
    rw [List.length_take]
    exact min_eq_left h.1
  refine ⟨List.ne_nil_of_length_pos (by omega), hlen.le, fun b hb => h.2 b ?_, .inl hlen⟩
  rw [List.dropLast_eq_take, hlen, List.take_take] at hb
  exact hb

theorem isVarint_of_isPrefix {value : Nat} {found bytes : Bytes} (hpre : found <+: bytes)
    (h : IsVarint value found) :
    BijectiveDigits.take 9 bytes = some (value, bytes.drop found.length) := by
  obtain ⟨rest, rfl⟩ := hpre
  rw [BijectiveDigits.take_of_isDigits h.digits, h.denote, List.drop_left]

/-- A varint that is too great takes nine bytes. -/
theorem varint_length_of_ge {value : Nat} (h : 2 ^ 64 ≤ value) : (varint value).length = 9 := by
  have hle := varint_length_le value
  have hgt := mt (varint_length_le_iff value (le_refl 8)).mp
    (by rw [varintLimit]; omega)
  omega

theorem varintClass_of_take_none {bytes : Bytes} (h : BijectiveDigits.take 9 bytes = none) :
    VarintClass bytes (.error .truncated) 0 := by
  have hshort := (BijectiveDigits.take_eq_none.mp h).1
  refine ⟨fun value => ?_, fun hpre hvarint => ?_, ?_, ?_, ?_⟩
  · refine iff_of_false (by simp) fun hvalue => ?_
    exact hvalue.2.2.digits.ne_nil (by simp)
  · rw [isVarint_of_isPrefix hpre hvarint] at h
    cases h
  · exact iff_of_false (by simp) fun hnine => by have := hnine.1.1; omega
  · simp
  · simp

theorem varintClass_of_take_some {bytes rest : Bytes} {value : Nat}
    (h : BijectiveDigits.take 9 bytes = some (value, rest)) :
    VarintClass bytes (if value < 2 ^ 64 then .ok value else .error .invalidVarint)
      (varint value).length := by
  have hbytes : bytes = varint value ++ rest := BijectiveDigits.eq_put_of_take h
  have hput := BijectiveDigits.isDigits_put (by decide) (BijectiveDigits.lt_capacity_of_take h)
  have hvarint : IsVarint value (varint value) := ⟨hput.1, hput.2⟩
  have htake : bytes.take (varint value).length = varint value := by rw [hbytes, List.take_left]
  have only {v : Nat} {found : Bytes} (hpre : found <+: bytes) (hfound : IsVarint v found) :
      value = v ∧ found = varint value := by
    rw [isVarint_of_isPrefix hpre hfound] at h
    obtain ⟨rfl, -⟩ : v = value ∧ _ := by simpa using h
    exact ⟨rfl, hfound.eq⟩
  by_cases hlt : value < 2 ^ 64
  · rw [if_pos hlt]
    refine ⟨fun v => ⟨?_, ?_⟩, fun hpre hfound _ => ?_, ?_, by simp, by simp⟩
    · intro hok
      obtain rfl : value = v := by simpa using hok
      exact ⟨hlt, by rw [hbytes]; simp, by rwa [htake]⟩
    · rintro ⟨-, -, hfound⟩
      rw [(only (List.take_prefix _ _) hfound).1]
    · obtain ⟨rfl, rfl⟩ := only hpre hfound
      exact ⟨rfl, rfl⟩
    · refine iff_of_false (by simp) fun ⟨hnine, hsum⟩ => ?_
      obtain ⟨heq, -⟩ := only (List.take_prefix 9 bytes) ⟨hnine.isDigits, rfl⟩
      omega
  · have hge : 2 ^ 64 ≤ value := by omega
    have hlen := varint_length_of_ge hge
    rw [if_neg hlt]
    refine ⟨fun v => ?_, fun hpre hfound hv => ?_, iff_of_true rfl ?_, fun _ => hlen, by simp⟩
    · refine iff_of_false (by simp) fun ⟨hv, _, hfound⟩ => ?_
      obtain ⟨rfl, -⟩ := only (List.take_prefix _ _) hfound
      exact hlt hv
    · obtain ⟨rfl, -⟩ := only hpre hfound
      exact absurd hv hlt
    · rw [hlen] at htake
      rw [htake, hvarint.denote]
      refine ⟨⟨?_, fun b hb => hput.1.high b ?_⟩, hge⟩
      · rw [hbytes, List.length_append]
        omega
      · rw [List.dropLast_eq_take]
        have hinit : bytes.take 8 = (varint value).take 8 := by
          rw [← htake, List.take_take]
          rfl
        rw [hinit] at hb
        rwa [show (BijectiveDigits.put 9 value).length = 9 from hlen]

section
variable {β : Type} [Buf β]

/-- The byte-by-byte decoder, as it reads the first varint of its buffer. -/
theorem decodeVarintSlow_of_take {buf : β} {bytes rest : Bytes} {value : Nat}
    (hbytes : Buf.bytes buf = bytes)
    (h : BijectiveDigits.take 9 bytes = some (value, rest)) :
    (decodeVarintSlow buf).1 = (if value < 2 ^ 64 then .ok value else .error .invalidVarint) ∧
      Buf.bytes (decodeVarintSlow buf).2 = rest := by
  have hloop := slowLoop_spec (min 8 (Buf.remaining buf)) 0 0 buf
    (by rw [Buf.remaining_eq]) (by omega) (by simp)
  simp only [Nat.sub_zero, hbytes, h, Nat.mul_zero, Nat.pow_zero, Nat.mul_one, Nat.zero_add]
    at hloop
  exact hloop

theorem decodeVarintSlow_of_take_none {buf : β} {bytes : Bytes} (hbytes : Buf.bytes buf = bytes)
    (h : BijectiveDigits.take 9 bytes = none) :
    (decodeVarintSlow buf).1 = .error .truncated := by
  have hloop := slowLoop_spec (min 8 (Buf.remaining buf)) 0 0 buf
    (by rw [Buf.remaining_eq]) (by omega) (by simp)
  simp only [Nat.sub_zero, hbytes, h] at hloop
  exact hloop.1

/-- So does the decoder that chooses between the two: a varint that is too great
is passed over here as well. -/
theorem decodeVarint_of_take {buf : β} {bytes rest : Bytes} {value : Nat}
    (hbytes : Buf.bytes buf = bytes)
    (h : BijectiveDigits.take 9 bytes = some (value, rest)) :
    (decodeVarint buf).1 = (if value < 2 ^ 64 then .ok value else .error .invalidVarint) ∧
      Buf.bytes (decodeVarint buf).2 = rest := by
  subst hbytes
  have hne : Buf.bytes buf ≠ [] := fun hnil => by simp [hnil, BijectiveDigits.take] at h
  obtain ⟨b, left, hcons⟩ := List.exists_cons_of_ne_nil hne
  have hlen : (Buf.chunk buf).length ≠ 0 := (Buf.chunk_length_pos hne).ne'
  obtain ⟨tail, hchunk, -⟩ := Buf.chunk_eq_cons hcons
  have hhead : (Buf.chunk buf).getD 0 0 = b := by simp [hchunk]
  unfold decodeVarint
  simp only [hlen, ↓reduceIte, hhead]
  by_cases hlow : b.toNat < 0x80
  · -- one byte
    rw [hcons, BijectiveDigits.take, if_pos hlow] at h
    obtain ⟨rfl, rfl⟩ : b.toNat = value ∧ left = rest := by simpa using h
    rw [if_pos hlow, if_pos (by omega)]
    refine ⟨rfl, ?_⟩
    rw [Buf.bytes_advance buf 1 (by simp [hcons]), hcons]
    rfl
  rw [if_neg hlow]
  by_cases hfit : 9 ≤ (Buf.chunk buf).length ∨
      ((Buf.chunk buf).getD ((Buf.chunk buf).length - 1) 0).toNat < 0x80
  · -- the whole varint is in the chunk
    rw [if_pos hfit]
    obtain ⟨v, n, htake, hn, hslice⟩ :=
      sliceResult_chunk (decodeVarintSlice_spec _ (Buf.chunk_ne_nil buf hne) hfit)
    rw [h] at htake
    obtain ⟨rfl, rfl⟩ : value = v ∧ rest = (Buf.bytes buf).drop n := by simpa using htake
    by_cases hvalue : value < 2 ^ 64
    · rw [if_pos hvalue] at hslice ⊢
      simp only [hslice]
      exact ⟨trivial, Buf.bytes_advance buf n hn⟩
    · rw [if_neg hvalue] at hslice ⊢
      obtain ⟨herr, rfl⟩ := hslice
      simp only [herr]
      exact ⟨trivial, Buf.bytes_advance buf 9 hn⟩
  · rw [if_neg hfit]
    exact decodeVarintSlow_of_take rfl h

theorem decodeVarint_of_take_none {buf : β} {bytes : Bytes} (hbytes : Buf.bytes buf = bytes)
    (h : BijectiveDigits.take 9 bytes = none) : (decodeVarint buf).1 = .error .truncated := by
  have hspec := decodeVarint_spec buf
  rw [VarintResult, parseVarint, hbytes, h] at hspec
  exact hspec.1

end

/-- Every byte string has one class. Both decoders return it, take the same
bytes, and overflow nowhere on the way: the slice decoder wherever it may be
called, the other one on every buffer that holds these bytes. So does the
decoder that chooses between them. -/
theorem decodeVarint_classifies (bytes : Bytes) :
    ∃ result used, VarintClass bytes result used ∧
      (∀ (β : Type) [Buf β] (buf : β), Buf.bytes buf = bytes →
        (∃ buf', decodeVarintSlowChecked buf = some (result, buf') ∧
          (result ≠ .error .truncated → Buf.bytes buf' = bytes.drop used)) ∧
        ∃ buf', decodeVarint buf = (result, buf') ∧
          (result ≠ .error .truncated → Buf.bytes buf' = bytes.drop used)) ∧
      (bytes ≠ [] → 9 ≤ bytes.length ∨ (bytes.getD (bytes.length - 1) 0).toNat < 0x80 →
        decodeVarintSliceChecked bytes = some (result.map fun value => (value, used)) ∧
          result ≠ .error .truncated) := by
  cases htake : BijectiveDigits.take 9 bytes with
  | none =>
    refine ⟨_, 0, varintClass_of_take_none htake, fun β _ buf hbuf => ⟨?_, ?_⟩,
      fun hne hfit => ?_⟩
    · refine ⟨(decodeVarintSlow buf).2, ?_, by simp⟩
      rw [decodeVarintSlowChecked_eq, ← decodeVarintSlow_of_take_none hbuf htake]
    · exact ⟨(decodeVarint buf).2, Prod.ext (decodeVarint_of_take_none hbuf htake) rfl, by simp⟩
    · obtain ⟨value, n, hslice, -⟩ := decodeVarintSlice_spec bytes hne hfit
      rw [htake] at hslice
      cases hslice
  | some found =>
    obtain ⟨value, rest⟩ := found
    have hbytes : bytes = varint value ++ rest := BijectiveDigits.eq_put_of_take htake
    have hdrop : rest = bytes.drop (varint value).length := by rw [hbytes, List.drop_left]
    refine ⟨_, _, varintClass_of_take_some htake, fun β _ buf hbuf => ⟨?_, ?_⟩,
      fun hne hfit => ?_⟩
    · obtain ⟨hresult, hleft⟩ := decodeVarintSlow_of_take hbuf htake
      refine ⟨(decodeVarintSlow buf).2, ?_, fun _ => hleft.trans hdrop⟩
      rw [decodeVarintSlowChecked_eq, ← hresult]
    · obtain ⟨hresult, hleft⟩ := decodeVarint_of_take hbuf htake
      exact ⟨(decodeVarint buf).2, Prod.ext hresult rfl, fun _ => hleft.trans hdrop⟩
    · rw [decodeVarintSliceChecked_eq hne hfit]
      obtain ⟨v, n, hslice, hn, hresult⟩ := decodeVarintSlice_spec bytes hne hfit
      rw [htake] at hslice
      obtain ⟨rfl, hrest⟩ : value = v ∧ rest = bytes.drop n := by simpa using hslice
      have hused : (varint value).length = n := by
        have hlen := congrArg List.length hbytes
        rw [List.length_append, hrest, List.length_drop] at hlen
        omega
      by_cases hlt : value < 2 ^ 64
      · rw [if_pos hlt] at hresult ⊢
        rw [hresult, hused]
        exact ⟨rfl, fun h => by cases h⟩
      · rw [if_neg hlt] at hresult ⊢
        rw [hresult.1]
        exact ⟨rfl, fun h => by cases h⟩

end Bilrost
