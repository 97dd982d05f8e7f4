import Bilrost.Guarantees.Rereading
import Bilrost.Guarantees.Restricted

/-!
The fuzzing harnesses. They take whatever data they are given, try to decode a
message from these, and report whatever goes wrong from there on. A report is a
bug in the library, and none is ever made.
-/

namespace Bilrost.Fuzz

/-- What a harness reports, by the texts of the reports. -/
inductive Report where
  /-- "expected encoded len ({}) did not match actual encoded len ({})" -/
  | encodedLen (expected actual : Nat)
  /-- "expected encoded len ({}) did not match actual prepended len ({})" -/
  | prependedLen (expected actual : Nat)
  /-- "encoded and prepended messages were different" -/
  | prependedDiffers
  /-- "message did not round trip: {error}" -/
  | notRoundTripped (stop : Stop)
  /-- "messages did not roundtrip canonically: {error}" -/
  | notRoundTrippedCanonically (stop : Stop)
  /-- "roundtripped encoded buffers do not match" -/
  | buffersDiffer
  /-- "roundtripped encoded buffers do not match with prepend-encoding" -/
  | prependedBuffersDiffer
  /-- "roundtripped message structs are not equal" -/
  | structsDiffer
  /-- "decoded canonically but did not round trip" -/
  | canonicalDiffers
  /-- "decoded non-canonically but restricted mode did not err" -/
  | restrictedPasses
  /-- "decoded non-canonically but partially restricted mode did not err" -/
  | partiallyRestrictedPasses
  /-- "decoded non-canonically but partially restricted mode produced the wrong
  error: {err}" -/
  | wrongError (stop : Stop)
  /-- "decoded non-canonically but round tripped unchanged" -/
  | unchanged
  /-- "only borrowed relaxed failed: {err}" and "only borrowed distinguished
  failed: {err}" -/
  | onlyBorrowedFailed (stop : Stop)
  /-- "only owned relaxed failed: {err}" and "only owned distinguished failed:
  {err}" -/
  | onlyOwnedFailed (stop : Stop)
  /-- "owned and borrowed are equivalent in relaxed mode: …" and "owned and
  borrowed results are unequal in distinguished mode: …" -/
  | borrowedDiffers

inductive RoundtripError where
  /-- The data could not be decoded, which may be as it should. -/
  | decodeError (stop : Stop)
  | error (report : Report)

/-- `None` where an encoder panics. -/
abbrev RoundtripResult := Option (Except RoundtripError Bytes)

/-- `fuzz_bail!` -/
def bail (report : Report) : RoundtripResult := some (.error (.error report))

/-- `fuzz_result` -/
def fuzzResult : Except RoundtripError Bytes → Except Report (Except Stop Bytes)
  | .error (.error report) => .error report
  | .ok bytes => .ok (.ok bytes)
  | .error (.decodeError stop) => .ok (.error stop)

section
variable {M : Type} (codec : MessageCodec M)

def roundtrip (data : Bytes) : RoundtripResult :=
  match codec.decode data with
  | .error stop => some (.error (.decodeError stop))
  | .ok message => do
      let encodedLen ← codec.encodedLen message
      let buf1 ← codec.encodeToVec message
      if encodedLen ≠ buf1.length then bail (.encodedLen encodedLen buf1.length)
      else do
        let prependBuf ← codec.encodeFast message
        if encodedLen ≠ prependBuf.length then bail (.prependedLen encodedLen prependBuf.length)
        else if prependBuf ≠ buf1 then bail .prependedDiffers
        else
          match codec.decode buf1 with
          | .error stop => bail (.notRoundTripped stop)
          | .ok again => do
              let buf2 ← codec.encodeToVec again
              let buf3 ← codec.encodeFast again
              if buf1 ≠ buf2 then bail .buffersDiffer
              else if buf1 ≠ buf3 then bail .prependedBuffersDiffer
              else some (.ok buf1)

/-- What `roundtrip_distinguished` makes of the canonicity of the data, when the
message is encoded as `buf1`. -/
def canonicityReport (data : Bytes) (canon : Canonicity) (buf1 : Bytes) : Option Report :=
  match canon with
  | .canonical => if buf1 ≠ data then some .canonicalDiffers else none
  | _ =>
      match codec.decodeRestricted data .canonical with
      | .ok _ => some .restrictedPasses
      | .error _ =>
          let partially : Option Report :=
            if canon = .notCanonical then
              match codec.decodeRestricted data .hasExtensions with
              | .ok _ => some .partiallyRestrictedPasses
              | .error stop =>
                  if stop ≠ .error .notCanonical then some (.wrongError stop) else none
            else none
          match partially with
          | some report => some report
          | none => if buf1 = data then some .unchanged else none

def roundtripDistinguished [DecidableEq M] (data : Bytes) : RoundtripResult :=
  match codec.decodeDistinguished data with
  | .error stop => some (.error (.decodeError stop))
  | .ok (message, canon) => do
      let encodedLen ← codec.encodedLen message
      let buf1 ← codec.encodeToVec message
      if encodedLen ≠ buf1.length then bail (.encodedLen encodedLen buf1.length)
      else
        match canonicityReport codec data canon buf1 with
        | some report => bail report
        | none => do
            let prependBuf ← codec.encodeFast message
            if encodedLen ≠ prependBuf.length then
              bail (.prependedLen encodedLen prependBuf.length)
            else if prependBuf ≠ buf1 then bail .prependedDiffers
            else
              match codec.decodeCanonical buf1 with
              | .error stop => bail (.notRoundTrippedCanonically stop)
              | .ok again =>
                  if again ≠ message then bail .structsDiffer
                  else do
                    let buf2 ← codec.encodeToVec again
                    let buf3 ← codec.encodeFast again
                    if buf1 ≠ buf2 then bail .buffersDiffer
                    else if buf1 ≠ buf3 then bail .prependedBuffersDiffer
                    else some (.ok buf1)

def fuzzBorrowing (data : Bytes) : RoundtripResult :=
  match codec.decode data, codec.decodeBorrowed data with
  | .ok owned, .ok borrowed => do
      let buf ← codec.encodeToVec owned
      let borrowedBuf ← codec.encodeToVec borrowed
      if buf ≠ borrowedBuf then bail .borrowedDiffers else some (.ok [])
  | .error stop, .error _ => some (.error (.decodeError stop))
  | .ok _, .error stop => bail (.onlyBorrowedFailed stop)
  | .error stop, .ok _ => bail (.onlyOwnedFailed stop)

def fuzzBorrowingDistinguished [DecidableEq M] (data : Bytes) : RoundtripResult :=
  match codec.decodeDistinguished data, codec.decodeDistinguishedBorrowed data with
  | .ok owned, .ok borrowed => if owned ≠ borrowed then bail .borrowedDiffers else some (.ok [])
  | .error stop, .error _ => some (.error (.decodeError stop))
  | .ok _, .error stop => bail (.onlyBorrowedFailed stop)
  | .error stop, .ok _ => bail (.onlyOwnedFailed stop)

end

/-- What `check_fuzz_result` is happy with. -/
def Silent (result : RoundtripResult) : Prop :=
  ∃ outcome, result.map fuzzResult = some (.ok outcome)

theorem silent_ok (bytes : Bytes) : Silent (some (.ok bytes)) := ⟨.ok bytes, rfl⟩

theorem silent_decodeError (stop : Stop) : Silent (some (.error (.decodeError stop))) :=
  ⟨.error stop, rfl⟩

section
variable {M : Type} {codec : MessageCodec M} {m : M} {data bytes : Bytes}

/-- A message of the data that is encoded again fits into memory. -/
def Fits (codec : MessageCodec M) (data : Bytes) : Prop :=
  data.length < 2 ^ 64 ∧ ∀ m bytes, codec.Decoded data m → codec.encodeToVec m = some bytes →
    bytes.length < 2 ^ 64

theorem silent_roundtrip (h : Structural (.message codec)) (hfits : Fits codec data) :
    Silent (roundtrip codec data) := by
  unfold roundtrip
  cases hdecode : codec.decode data with
  | error stop => exact silent_decodeError stop
  | ok message =>
      have hdecoded : codec.Decoded data message := .inl hdecode
      obtain ⟨bytes, hencodes⟩ := h.encodesAs message
      have hback := h.readsBack_of_decoded hdecoded
      have hlt := hfits.2 message bytes hdecoded hencodes.encodeToVec
      have hagain : codec.decode bytes = .ok message :=
        (h.built.decodesTo_of_readsBack not_false hback hencodes.encodeToVec hlt).decode rfl
      simp only [hencodes.encodedLen, hencodes.encodeToVec, hencodes.encodeFast, hagain,
        Option.bind_eq_bind, Option.bind_some, ne_eq, not_true_eq_false, if_false]
      exact silent_ok bytes

theorem decodeRestricted_refuses {canon restrictTo : Canonicity}
    (hdecode : codec.decodeDistinguished data = .ok (m, canon)) (hlt : canon < restrictTo) :
    ∃ canon' kind, check restrictTo canon' = .error kind ∧
      codec.decodeRestricted data restrictTo = .error (.error kind) :=
  decodeRestrictedCapped_of_lt hdecode hlt

/-- Where extensions are let through, only what is not canonical is refused. -/
theorem kind_of_check_hasExtensions {canon : Canonicity} {kind : DecodeErrorKind}
    (h : check .hasExtensions canon = .error kind) : kind = .notCanonical := by
  cases canon with
  | notCanonical => exact (Except.error.inj h).symm
  | hasExtensions => cases h
  | canonical => cases h

/-- Whatever the canonicity of the data, it is what it should be. -/
theorem canonicityReport_eq_none (h : Structural (.message codec)) {canon : Canonicity}
    (hfits : Fits codec data) (hdecode : codec.decodeDistinguished data = .ok (m, canon))
    (hencode : codec.encodeToVec m = some bytes) :
    canonicityReport codec data canon bytes = none := by
  have hdecoded : codec.Decoded data m := .inr ⟨canon, hdecode⟩
  have hback := h.readsBack_of_decoded hdecoded
  -- what is encoded as the data would have been decoded as canonical
  have hdiffers (hcanon : canon ≠ .canonical) : bytes ≠ data := by
    rintro rfl
    have hagain : codec.decodeDistinguished bytes = .ok (m, .canonical) :=
      (h.built.decodesTo_of_readsBack not_false hback hencode hfits.1).decodeDistinguished rfl
    rw [hdecode] at hagain
    exact hcanon (congrArg Prod.snd (Except.ok.inj hagain))
  cases canon with
  | canonical =>
      have hsame : bytes = data :=
        Option.some.inj (hencode.symm.trans (h.encodeToVec_of_canonical hdecode))
      simp [canonicityReport, hsame]
  | hasExtensions =>
      obtain ⟨_, kind, -, hrefused⟩ :=
        decodeRestricted_refuses hdecode (by decide : _ < Canonicity.canonical)
      simp [canonicityReport, hrefused, hdiffers]
  | notCanonical =>
      obtain ⟨_, kind, -, hrefused⟩ :=
        decodeRestricted_refuses hdecode (by decide : _ < Canonicity.canonical)
      obtain ⟨_, kind', hcheck, hpartially⟩ :=
        decodeRestricted_refuses hdecode (by decide : _ < Canonicity.hasExtensions)
      obtain rfl := kind_of_check_hasExtensions hcheck
      simp [canonicityReport, hrefused, hpartially, hdiffers]

theorem silent_roundtripDistinguished [DecidableEq M] (h : Structural (.message codec))
    (hfits : Fits codec data) : Silent (roundtripDistinguished codec data) := by
  unfold roundtripDistinguished
  cases hdecode : codec.decodeDistinguished data with
  | error stop => exact silent_decodeError stop
  | ok decoded =>
      obtain ⟨message, canon⟩ := decoded
      have hdecoded : codec.Decoded data message := .inr ⟨canon, hdecode⟩
      obtain ⟨bytes, hencodes⟩ := h.encodesAs message
      have hback := h.readsBack_of_decoded hdecoded
      have hlt := hfits.2 message bytes hdecoded hencodes.encodeToVec
      have hagain : codec.decodeCanonical bytes = .ok message :=
        (h.built.decodesTo_of_readsBack not_false hback hencodes.encodeToVec hlt).decodeCanonical rfl
      have hreport := canonicityReport_eq_none h hfits hdecode hencodes.encodeToVec
      simp only [hencodes.encodedLen, hencodes.encodeToVec, hencodes.encodeFast, hagain, hreport,
        Option.bind_eq_bind, Option.bind_some, ne_eq, not_true_eq_false, if_false]
      exact silent_ok bytes

/-- Owned and borrowed decoding return the same messages. -/
theorem decodeBorrowed_eq_ok (h : Structural (.message codec)) (data : Bytes) (m : M) :
    codec.decodeBorrowed data = .ok m ↔ codec.decode data = .ok m := by
  have hmodes := h.built.locks.faulted_modes .relaxed .borrowed .owned (Capped.new data)
  have hfaulted : faulted (codec.decodeBorrowed data) = faulted (codec.decode data) := by
    rw [MessageCodec.decodeBorrowed, MessageCodec.decode, MessageCodec.decodeCapped_eq,
      MessageCodec.decodeCapped_eq, faulted_map, faulted_map, hmodes]
  rw [← faulted_eq_ok, hfaulted, faulted_eq_ok]

theorem decodeDistinguishedBorrowed_eq_ok (h : Structural (.message codec)) (data : Bytes)
    (decoded : M × Canonicity) : codec.decodeDistinguishedBorrowed data = .ok decoded ↔
      codec.decodeDistinguished data = .ok decoded := by
  have hmodes := h.built.locks.faulted_modes .distinguished .borrowed .owned (Capped.new data)
  have hdistinguished (mode : DecodingMode) :=
    codec.decodeRestrictedCapped_notCanonical mode (Capped.new data)
  have hfaulted : faulted (codec.decodeDistinguishedBorrowed data) =
      faulted (codec.decodeDistinguished data) := by
    rw [MessageCodec.decodeDistinguishedBorrowed, MessageCodec.decodeRestrictedBorrowed,
      MessageCodec.decodeDistinguished, MessageCodec.decodeRestricted, hdistinguished,
      hdistinguished, hmodes]
  rw [← faulted_eq_ok, hfaulted, faulted_eq_ok]

theorem silent_fuzzBorrowing (h : Structural (.message codec)) :
    Silent (fuzzBorrowing codec data) := by
  have hiff := decodeBorrowed_eq_ok h data
  unfold fuzzBorrowing
  cases howned : codec.decode data with
  | error stop =>
      cases hborrowed : codec.decodeBorrowed data with
      | error _ => exact silent_decodeError stop
      | ok m =>
          rw [(hiff m).mp hborrowed] at howned
          cases howned
  | ok m =>
      obtain ⟨bytes, hencodes⟩ := h.encodesAs m
      rw [(hiff m).mpr howned]
      simp only [hencodes.encodeToVec, Option.bind_eq_bind, Option.bind_some, ne_eq,
        not_true_eq_false, if_false]
      exact silent_ok []

theorem silent_fuzzBorrowingDistinguished [DecidableEq M] (h : Structural (.message codec)) :
    Silent (fuzzBorrowingDistinguished codec data) := by
  have hiff := decodeDistinguishedBorrowed_eq_ok h data
  unfold fuzzBorrowingDistinguished
  cases howned : codec.decodeDistinguished data with
  | error stop =>
      cases hborrowed : codec.decodeDistinguishedBorrowed data with
      | error _ => exact silent_decodeError stop
      | ok decoded =>
          rw [(hiff decoded).mp hborrowed] at howned
          cases howned
  | ok decoded =>
      rw [(hiff decoded).mpr howned]
      simp only [ne_eq, not_true_eq_false, if_false]
      exact silent_ok []

/-- No harness ever reports anything: whatever the data, either they are not
decoded, or the message that they are decoded to comes back from its encoding,
with the canonicity it should have, and borrowing makes no difference. -/
theorem harnesses_are_silent [DecidableEq M] (h : Structural (.message codec))
    (hfits : Fits codec data) :
    Silent (roundtrip codec data) ∧ Silent (roundtripDistinguished codec data) ∧
      Silent (fuzzBorrowing codec data) ∧ Silent (fuzzBorrowingDistinguished codec data) := by
  refine ⟨silent_roundtrip h hfits, silent_roundtripDistinguished h hfits, ?_, ?_⟩
  · exact silent_fuzzBorrowing h
  · exact silent_fuzzBorrowingDistinguished h

end

theorem harnesses_are_silent_nestedNumber :
    Fits (nestedNumber.derived 1) ([5, 2, 8, 7] : Bytes) ∧
      Silent (roundtrip (nestedNumber.derived 1) [5, 2, 8, 7]) ∧
        Silent (roundtripDistinguished (nestedNumber.derived 1) [5, 2, 8, 7]) ∧
          Silent (fuzzBorrowing (nestedNumber.derived 1) [5, 2, 8, 7]) ∧
            Silent (fuzzBorrowingDistinguished (nestedNumber.derived 1) [5, 2, 8, 7]) := by
  have hfits : Fits (nestedNumber.derived 1) ([5, 2, 8, 7] : Bytes) := by
    constructor
    · decide
    · intro m bytes hdecoded hencode
      obtain rfl := eq_zero_of_decoded_nestedNumber hdecoded
      obtain rfl : [] = bytes := Option.some.inj ((rfl : some ([] : Bytes) = _).trans hencode)
      decide
  exact ⟨hfits, harnesses_are_silent structural_nestedNumber hfits⟩

end Bilrost.Fuzz
