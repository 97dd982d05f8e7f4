import Bilrost.Decode.Parse

/-!
Execution refines parsing. Where parsing succeeds, a run succeeds if its
context tolerates the lowest canonicity, with the same value and the same bytes
left. Where parsing fails, a run fails or ends over the cap, which whoever
decodes the region notices.
-/

namespace Bilrost

/-- What a read does to the buffer, as told by the bytes before the cap: the
same, or it fails, or it ends over the cap. -/
def ReadRefines {β ε γ : Type} [Buf β] (after : Bytes) (outcome : Option (γ × Bytes))
    (result : Except ε (γ × Capped β)) : Prop :=
  match outcome with
  | some (x, rest) => ∃ capped', result = .ok (x, capped') ∧ capped'.Holds rest after
  | none => ∀ x capped', result = .ok (x, capped') → capped'.Over

namespace Capped

variable {β : Type} [Buf β] {capped : Capped β} {region after : Bytes}

/-- A varint at the end of a region: when the region ends inside of it, reading
it takes bytes from behind the cap, or fails. -/
theorem decodeVarint_append {buf : β} (h : Buf.bytes buf = region ++ after) :
    match parseVarint region with
    | .ok (value, rest) =>
        ∃ buf', Bilrost.decodeVarint buf = (.ok value, buf') ∧ Buf.bytes buf' = rest ++ after
    | .error _ =>
        ∀ value buf', Bilrost.decodeVarint buf = (.ok value, buf') →
          Buf.remaining buf' < after.length := by
  have hspec := decodeVarint_spec buf
  rw [h, VarintResult] at hspec
  cases hregion : BijectiveDigits.take 9 region with
  | some taken =>
    obtain ⟨value, rest⟩ := taken
    have hwhole := BijectiveDigits.take_append hregion after
    simp only [parseVarint, hregion, hwhole] at hspec ⊢
    split_ifs at hspec ⊢
    · exact ⟨_, Prod.ext hspec.1 rfl, hspec.2⟩
    · intro value' buf' hrun
      rw [hrun] at hspec
      cases hspec.1
  | none =>
    simp only [parseVarint, hregion]
    intro value buf' hrun
    rw [hrun] at hspec
    cases hwhole : BijectiveDigits.take 9 (region ++ after) with
    | none =>
      simp only [parseVarint, hwhole] at hspec
      cases hspec.1
    | some taken =>
      obtain ⟨value', rest⟩ := taken
      have hrest : Buf.bytes buf' = rest := by
        simp only [parseVarint, hwhole] at hspec
        split_ifs at hspec
        · exact hspec.2
        · cases hspec.1
      rw [Buf.remaining_eq, hrest]
      by_contra hge
      -- otherwise the region would have held all of the varint
      have hput := BijectiveDigits.eq_put_of_take hwhole
      have hlen := congrArg List.length hput
      rw [List.length_append, List.length_append] at hlen
      have hall : BijectiveDigits.put 9 value' <+: region ++ after := hput ▸ List.prefix_append _ _
      have hpre : BijectiveDigits.put 9 value' <+: region :=
        List.prefix_of_prefix_length_le hall (List.prefix_append _ _) (by omega)
      obtain ⟨left, rfl⟩ := hpre
      rw [BijectiveDigits.take_put 9 value' left (BijectiveDigits.lt_capacity_of_take hwhole)]
        at hregion
      cases hregion

/-- Reading a varint takes at least one byte. -/
theorem decodeVarint_remaining {value : Nat} {capped' : Capped β}
    (h : capped.decodeVarint = .ok (value, capped')) :
    capped'.extraBytesRemaining = capped.extraBytesRemaining ∧
      capped'.remaining < capped.remaining := by
  have hspec := decodeVarint_spec capped.buf
  rw [Capped.decodeVarint] at h
  split at h
  · next v buf hrun =>
    obtain ⟨rfl, rfl⟩ : v = value ∧ { capped with buf } = capped' := by simpa using h
    refine ⟨rfl, ?_⟩
    rw [hrun, VarintResult] at hspec
    split at hspec
    · next v' rest hparse =>
      have := parseVarint_length hparse
      rw [remaining, remaining, Buf.remaining_eq, Buf.remaining_eq, hspec.2]
      exact this
    · cases hspec.1
  · cases h

/-- Reading a length leaves a shorter buffer. -/
theorem decodeLengthDelimiter_remaining {buf buf' : β} {len : Nat}
    (h : decodeLengthDelimiter buf = .ok (len, buf')) :
    Buf.remaining buf' < Buf.remaining buf := by
  have hvarint : (⟨buf, 0⟩ : Capped β).decodeVarint = .ok (len, ⟨buf', 0⟩) := by
    rw [decodeLengthDelimiter] at h
    split at h
    · next v b hrun =>
      obtain ⟨rfl, rfl⟩ : v = len ∧ b = buf' := by simpa using h
      rw [Capped.decodeVarint, hrun]
    · cases h
  exact (decodeVarint_remaining hvarint).2

theorem takeLengthDelimited_remaining {delimited : Capped β}
    (h : capped.takeLengthDelimited = .ok delimited) :
    delimited.remaining < capped.remaining ∧
      capped.extraBytesRemaining ≤ delimited.extraBytesRemaining ∧ ¬ delimited.Over := by
  rw [takeLengthDelimited] at h
  cases hlen : decodeLengthDelimiter capped.buf with
  | error err => simp [hlen, bind, Except.bind] at h
  | ok taken =>
    obtain ⟨len, buf⟩ := taken
    have hshort := decodeLengthDelimiter_remaining hlen
    simp only [hlen, bind, Except.bind] at h
    split_ifs at h
    obtain rfl : (⟨buf, Buf.remaining buf - len⟩ : Capped β) = delimited := by simpa using h
    refine ⟨hshort, ?_, ?_⟩
    · simp only
      omega
    · simp only [Over, remaining]
      omega

end Capped

open Capped

section
variable {β : Type} [Buf β] {capped : Capped β} {region after : Bytes}

/-- Borrowing a region is copying it out of the buffer. -/
theorem takeBorrowedLengthDelimited_eq (capped : Capped β) :
    capped.takeBorrowedLengthDelimited =
      match capped.takeLengthDelimited with
      | .ok delimited =>
          .ok ((⟨delimited.buf, capped.extraBytesRemaining⟩ : Capped β).copy
            delimited.remainingBeforeCap)
      | .error err => .error err := by
  rw [Capped.takeBorrowedLengthDelimited, Capped.takeLengthDelimited]
  cases decodeLengthDelimiter capped.buf with
  | error err => rfl
  | ok taken =>
    obtain ⟨len, buf⟩ := taken
    simp only [bind, Except.bind]
    split_ifs
    · rfl
    · rfl
    · have hlen : Buf.remaining buf - (Buf.remaining buf - len) = len := by omega
      simp only [Capped.remainingBeforeCap, Capped.remaining, hlen]

theorem Capped.Holds.takeLengthDelimited (h : capped.Holds region after) :
    match parseDelimited region with
    | some (delimited, rest) => ∃ capped', capped.takeLengthDelimited = .ok capped' ∧
        capped'.Holds delimited (rest ++ after)
    | none => ∃ err, capped.takeLengthDelimited = .error err := by
  have hvarint := decodeVarint_append h.bytes
  rw [parseDelimited, Capped.takeLengthDelimited, decodeLengthDelimiter]
  cases hparse : parseVarint region with
  | ok found =>
    obtain ⟨len, rest⟩ := found
    rw [hparse] at hvarint
    obtain ⟨buf, hrun, hbytes⟩ := hvarint
    have hremaining : Buf.remaining buf = rest.length + after.length := by
      rw [Buf.remaining_eq, hbytes, List.length_append]
    have hextra := h.extra
    simp only [hrun, bind, Except.bind]
    split_ifs
    · omega
    · omega
    · refine ⟨_, rfl, ?_, ?_⟩
      · rw [← List.append_assoc, List.take_append_drop]
        exact hbytes
      · simp only [List.length_append, List.length_drop]
        omega
    · exact ⟨_, rfl⟩
    · exact ⟨_, rfl⟩
    · omega
  | error err =>
    rw [hparse] at hvarint
    have hextra := h.extra
    cases hrun : Bilrost.decodeVarint capped.buf with
    | mk result buf =>
      cases result with
      | error err => exact ⟨err, rfl⟩
      | ok len =>
        have hover := hvarint len buf hrun
        simp only [bind, Except.bind]
        split_ifs
        · exact ⟨_, rfl⟩
        · exact ⟨_, rfl⟩
        · omega

/-- Every read looks at the bytes before the cap only, or ends over it. -/
theorem Op.run_refines {γ : Type} (o : Op γ) (h : capped.Holds region after) :
    ReadRefines after (o.parse region) (o.run capped) := by
  have hremaining := h.remaining
  have hbefore := h.remainingBeforeCap
  cases o with
  | decodeVarint =>
    have hvarint := decodeVarint_append h.bytes
    simp only [Op.parse, Op.run]
    split at hvarint
    · next value rest hparse =>
      obtain ⟨buf, hrun, hbytes⟩ := hvarint
      rw [hparse]
      refine ⟨{ capped with buf }, ?_, hbytes, h.extra⟩
      rw [Capped.decodeVarint, hrun]
    · next err hparse =>
      rw [hparse]
      intro value capped' hrun
      rw [Capped.decodeVarint] at hrun
      split at hrun
      · next v buf hdecode =>
        obtain ⟨-, rfl⟩ : v = value ∧ { capped with buf } = capped' := by simpa using hrun
        have := hvarint v buf hdecode
        rw [Over, Capped.remaining, h.extra]
        exact this
      · cases hrun
  | remainingBeforeCap => exact ⟨capped, by rw [Op.run, hbefore], h⟩
  | hasRemaining => exact ⟨capped, by rw [Op.run, h.hasRemaining]; rfl, h⟩
  | peekRepeatedField =>
    rw [Op.run, Capped.peekRepeatedField, hbefore]
    cases region with
    | nil => exact ⟨capped, rfl, h⟩
    | cons b region =>
      obtain ⟨tail, hchunk, -⟩ := Buf.chunk_eq_cons h.bytes
      simp only [List.length_cons, Nat.add_eq_zero_iff, one_ne_zero, and_false, ↓reduceIte, hchunk,
        List.headD_cons, Op.parse]
      split
      · exact ⟨capped, rfl, h⟩
      · exact ⟨capped.advance 1, rfl, h.advance (by simp)⟩
  | getBytes n =>
    simp only [Op.parse, Op.run, Capped.getBytes, hbefore]
    by_cases hn : n ≤ region.length
    · obtain ⟨hread, hleft⟩ := h.copy hn
      rw [if_pos hn, if_neg (by omega)]
      exact ⟨_, by rw [← hread], hleft⟩
    · rw [if_neg hn, if_pos (by omega)]
      intro _ _ hrun
      cases hrun
  | copyBytes n =>
    simp only [Op.parse, Op.run, Capped.copyBytes]
    by_cases hn : n ≤ region.length
    · obtain ⟨hread, hleft⟩ := h.copy hn
      rw [if_pos hn, if_neg (by omega)]
      exact ⟨_, by rw [← hread], hleft⟩
    · rw [if_neg hn]
      intro x capped' hrun
      split_ifs at hrun with hshort
      obtain rfl : (capped.copy n).2 = capped' := congrArg Prod.snd (Except.ok.inj hrun)
      have hextra := h.extra
      have hcopy := capped.remaining_copy (n := n) (by omega)
      rw [Over, hcopy, (capped.copy_shrinks (n := n) (by omega)).extra]
      omega
  | skipBytes n =>
    simp only [Op.parse, Op.run, Capped.skipBytes]
    by_cases hn : n ≤ region.length
    · rw [if_pos hn, if_neg (by omega)]
      exact ⟨capped.advance n, rfl, h.advance hn⟩
    · rw [if_neg hn]
      intro x capped' hrun
      split_ifs at hrun with hshort
      · cases hrun
      · obtain rfl : capped.advance n = capped' := congrArg Prod.snd (Except.ok.inj hrun)
        have hextra := h.extra
        have hadvance := capped.remaining_advance (n := n) (by omega)
        rw [Over, hadvance, (capped.advance_shrinks (n := n) (by omega)).extra]
        omega
  | takeAll =>
    obtain ⟨hread, hleft⟩ := h.copy le_rfl
    rw [List.take_length] at hread
    rw [List.drop_length] at hleft
    rw [← hbefore] at hread hleft
    exact ⟨_, by rw [Op.run, Capped.takeAll, ← hread], hleft⟩
  | takeSmolStr =>
    obtain ⟨hread, hleft⟩ := h.copy le_rfl
    rw [List.take_length] at hread
    rw [List.drop_length] at hleft
    simp only [Op.parse, Op.run, Capped.takeSmolStr, Capped.takeAll, hbefore]
    split_ifs with hshort hchunk
    · exact ⟨_, congrArg Except.ok (Prod.ext hread rfl), hleft⟩
    · refine ⟨capped.advance region.length, ?_, ?_⟩
      · rw [Buf.take_chunk hchunk, h.bytes, List.take_left]
      · have := h.advance le_rfl
        rwa [List.drop_length] at this
    · exact ⟨_, congrArg Except.ok (Prod.ext hread rfl), hleft⟩
  | takeBorrowed =>
    have hdelimited := h.takeLengthDelimited
    rw [Op.run, takeBorrowedLengthDelimited_eq, Op.parse]
    split at hdelimited
    · next delimited rest hparse =>
      obtain ⟨region', hrun, hregion⟩ := hdelimited
      have hbuf : Holds (⟨region'.buf, capped.extraBytesRemaining⟩ : Capped β)
          (delimited ++ rest) after := by
        refine ⟨?_, h.extra⟩
        rw [List.append_assoc]
        exact hregion.bytes
      obtain ⟨hread, hleft⟩ := hbuf.copy (n := delimited.length) (by simp)
      rw [List.take_left] at hread
      rw [List.drop_left] at hleft
      simp only [hparse, hrun, hregion.remainingBeforeCap]
      exact ⟨_, congrArg Except.ok (Prod.ext hread rfl), hleft⟩
    · next hparse =>
      obtain ⟨err, hrun⟩ := hdelimited
      rw [hparse, hrun]
      intro _ _ hok
      cases hok
  | note n => exact ⟨capped, rfl, h⟩

/-- A read gains no bytes and keeps the cap. -/
theorem Op.run_shrinks {γ : Type} (o : Op γ) {x : γ} {capped' : Capped β}
    (hrun : o.run capped = .ok (x, capped')) : Shrinks capped capped' := by
  have copied {n : Nat} (hn : n ≤ capped.remaining) {result : Bytes × Capped β}
      (h : (.ok (capped.copy n) : Except DecodeErrorKind _) = .ok result) :
      Shrinks capped result.2 := by
    obtain rfl := Except.ok.inj h
    exact capped.copy_shrinks hn
  have hbefore : capped.remainingBeforeCap ≤ capped.remaining := Nat.sub_le _ _
  cases o with
  | decodeVarint =>
    obtain ⟨hextra, hlt⟩ := decodeVarint_remaining hrun
    exact ⟨hextra, hlt.le⟩
  | remainingBeforeCap =>
    cases hrun
    exact .refl capped
  | hasRemaining =>
    rw [Op.run] at hrun
    cases hmore : capped.hasRemaining with
    | error err => simp [hmore, Except.map] at hrun
    | ok more =>
      rw [hmore] at hrun
      cases hrun
      exact .refl capped
  | peekRepeatedField =>
    obtain rfl : capped.peekRepeatedField.2 = capped' := congrArg Prod.snd (Except.ok.inj hrun)
    rw [Capped.peekRepeatedField]
    dsimp only
    split_ifs
    · exact .refl capped
    · exact .refl capped
    · exact capped.advance_shrinks (by omega)
  | getBytes n =>
    simp only [Op.run, Capped.getBytes] at hrun
    split_ifs at hrun
    exact copied (by omega) hrun
  | copyBytes n =>
    simp only [Op.run, Capped.copyBytes] at hrun
    split_ifs at hrun
    exact copied (by omega) hrun
  | skipBytes n =>
    simp only [Op.run, Capped.skipBytes] at hrun
    split_ifs at hrun
    · cases hrun
    · cases hrun
      exact capped.advance_shrinks (by omega)
  | takeAll => exact copied hbefore hrun
  | takeSmolStr =>
    simp only [Op.run, Capped.takeSmolStr, Capped.takeAll] at hrun
    split_ifs at hrun
    · exact copied hbefore hrun
    · cases hrun
      exact capped.advance_shrinks hbefore
    · exact copied hbefore hrun
  | takeBorrowed =>
    rw [Op.run, takeBorrowedLengthDelimited_eq] at hrun
    split at hrun
    · next delimited hdelimited =>
      obtain ⟨hlt, hextra, hover⟩ := takeLengthDelimited_remaining hdelimited
      have hle : delimited.remainingBeforeCap ≤ delimited.remaining := Nat.sub_le _ _
      obtain rfl : _ = capped' := congrArg Prod.snd (Except.ok.inj hrun)
      have hcopy := copy_shrinks (⟨delimited.buf, capped.extraBytesRemaining⟩ : Capped β) hle
      exact (show Shrinks capped ⟨delimited.buf, _⟩ from ⟨rfl, hlt.le⟩).trans hcopy
    · cases hrun
  | note n =>
    cases hrun
    exact .refl capped

end

namespace Program

section
variable {β : Type} [Buf β] {minCanonicity : Canonicity} {capped capped' : Capped β}

/-- A run gains no bytes and keeps the cap. -/
theorem run_shrinks {α : Type} (p : Program α) {capped capped' : Capped β} {x : α}
    (hrun : p.run minCanonicity capped = .ok (x, capped')) : Shrinks capped capped' := by
  induction p generalizing capped capped' with
  | done value =>
    cases hrun
    exact .refl capped
  | fail stop => cases hrun
  | check canon next ih =>
    rw [run] at hrun
    split at hrun
    · exact ih hrun
    · cases hrun
  | op o next ih =>
    rw [run] at hrun
    split at hrun
    · next y mid hread => exact (o.run_shrinks hread).trans (ih _ hrun)
    · cases hrun
  | region inner next ihInner ih =>
    rw [run] at hrun
    split at hrun
    · next delimited hdelimited =>
      split at hrun
      · next y left hinner =>
        obtain ⟨hlt, -, -⟩ := takeLengthDelimited_remaining hdelimited
        have hleft := (ihInner _ hinner).remaining
        have hmid : Shrinks capped ⟨left.buf, capped.extraBytesRemaining⟩ :=
          ⟨rfl, hleft.trans hlt.le⟩
        exact hmid.trans (ih _ hrun)
      · cases hrun
    · cases hrun

/-- What a run makes of a region, as told by what its bytes mean. -/
def RunRefines {β α : Type} [Buf β] (minCanonicity : Canonicity) (after : Bytes)
    (outcome : Except Fault (Parsed α)) (result : Except Stop (α × Capped β)) : Prop :=
  match outcome with
  | .ok parsed =>
      (minCanonicity ≤ parsed.lowest →
        ∃ capped', result = .ok (parsed.value, capped') ∧ capped'.Holds parsed.rest after) ∧
      (parsed.lowest < minCanonicity → ∃ stop, result = .error stop)
  | .error fault =>
      (∀ x capped', result = .ok (x, capped') → capped'.Over) ∧
        (fault = .limit → minCanonicity = .notCanonical →
          result = .error (.error .recursionLimitReached))

theorem RunRefines.lower {α : Type} {after : Bytes} {canon : Canonicity}
    (hle : minCanonicity ≤ canon) {outcome : Except Fault (Parsed α)}
    {result : Except Stop (α × Capped β)} (h : RunRefines minCanonicity after outcome result) :
    RunRefines minCanonicity after (outcome.map (Parsed.lower canon)) result := by
  cases outcome with
  | error fault => exact h
  | ok parsed =>
    refine ⟨fun hmin => h.1 (Canonicity.le_update_iff.mp hmin).2, fun hlt => h.2 ?_⟩
    by_contra hge
    exact absurd (Canonicity.le_update_iff.mpr ⟨hle, not_lt.mp hge⟩) hlt.not_ge

/-- Failing for canonicity is right whatever is parsed after a check. -/
theorem RunRefines.of_check_failed {α : Type} {after : Bytes} {canon : Canonicity}
    (hlt : canon < minCanonicity) {outcome : Except Fault (Parsed α)} {stop : Stop} :
    RunRefines (β := β) minCanonicity after (outcome.map (Parsed.lower canon)) (.error stop) := by
  cases outcome with
  | error fault =>
    refine ⟨fun _ _ h => (by cases h), fun _ hmin => ?_⟩
    rw [hmin] at hlt
    exact absurd hlt (Canonicity.notCanonical_le canon).not_gt
  | ok parsed =>
    refine ⟨fun hmin => ?_, fun _ => ⟨stop, rfl⟩⟩
    exact absurd (Canonicity.le_update_iff.mp hmin).1 hlt.not_ge

theorem RunRefines.of_over {α : Type} {after : Bytes} {result : Except Stop (α × Capped β)}
    (h : ∀ x capped', result = .ok (x, capped') → capped'.Over) :
    RunRefines minCanonicity after (.error .other) result :=
  ⟨h, fun hfault => by cases hfault⟩

/-- A program runs on a region of a buffer the way it parses the bytes of the
region. -/
theorem run_refines {α : Type} (minCanonicity : Canonicity) (p : Program α)
    (hsealed : p.SealsRegions) {region after : Bytes} (h : capped.Holds region after) :
    RunRefines minCanonicity after (p.parse region) (p.run minCanonicity capped) := by
  induction p generalizing capped region after with
  | done value =>
    refine ⟨fun _ => ⟨capped, rfl, h⟩, fun hlt => ?_⟩
    exact absurd hlt (Canonicity.le_canonical _).not_gt
  | fail stop =>
    refine ⟨fun _ _ hok => (by cases hok), fun hlimit _ => ?_⟩
    rw [run]
    unfold Stop.fault at hlimit
    split at hlimit
    · rfl
    · cases hlimit
  | check canon next ih =>
    rw [parse, run]
    rcases le_or_gt minCanonicity canon with hle | hlt
    · rw [check_of_le hle]
      exact (ih hsealed h).lower hle
    · obtain ⟨err, herr⟩ := check_of_lt hlt
      rw [herr]
      exact .of_check_failed hlt
  | op o next ih =>
    have hread := o.run_refines h
    rw [parse, run]
    cases hparse : o.parse region with
    | some taken =>
      obtain ⟨x, rest⟩ := taken
      rw [hparse] at hread
      obtain ⟨mid, hrun, hmid⟩ := hread
      rw [hrun]
      exact ih x (hsealed x) hmid
    | none =>
      rw [hparse] at hread
      refine .of_over fun y capped' hok => ?_
      split at hok
      · next x mid hrun => exact (run_shrinks _ hok).over (hread x mid hrun)
      · cases hok
  | region inner next ihInner ih =>
    have hdelimited := h.takeLengthDelimited
    rw [parse, run]
    cases hparse : parseDelimited region with
    | none =>
      rw [hparse] at hdelimited
      obtain ⟨err, hrun⟩ := hdelimited
      rw [hrun]
      exact .of_over fun x capped' hok => by cases hok
    | some taken =>
      obtain ⟨bytes, rest⟩ := taken
      rw [hparse] at hdelimited
      obtain ⟨mid, hrun, hmid⟩ := hdelimited
      obtain ⟨⟨hinnerSeals, hsealedInner⟩, hnextSeals⟩ :
        ((inner bytes.length).SealsRegions ∧ Sealed bytes.length (inner bytes.length)) ∧
          ∀ x, (next x).SealsRegions := ⟨hsealed.1 bytes.length, hsealed.2⟩
      have hinner := ihInner bytes.length hinnerSeals hmid
      have hend {x capped'} (hok : (inner bytes.length).run minCanonicity mid = .ok (x, capped')) :=
        hsealedInner mid hmid.not_over hmid.remainingBeforeCap minCanonicity x capped' hok
      simp only [hrun, hmid.remainingBeforeCap]
      cases houtcome : (inner bytes.length).parse bytes with
      | error fault =>
        rw [houtcome] at hinner
        obtain ⟨hover, hlimit⟩ := hinner
        refine ⟨fun x capped' hok => ?_, fun hfault hmin => by rw [hlimit hfault hmin]⟩
        split at hok
        · next y left hinnerRun =>
          have hleft := hover y left hinnerRun
          exact absurd (hend hinnerRun) (Nat.ne_of_lt hleft)
        · cases hok
      | ok parsed =>
        obtain ⟨y, lowest, left⟩ := parsed
        rw [houtcome] at hinner
        rcases le_or_gt minCanonicity lowest with hle | hlt
        · obtain ⟨capped', hinnerRun, hholds⟩ := hinner.1 hle
          replace hholds : capped'.Holds left (rest ++ after) := hholds
          obtain rfl : left = [] := by
            have hlen := hend hinnerRun
            have hremaining := hholds.remaining
            have hextra := hholds.extra
            exact List.length_eq_zero_iff.mp (by omega)
          have hleft : (⟨capped'.buf, capped.extraBytesRemaining⟩ : Capped β).Holds rest after :=
            ⟨hholds.bytes, h.extra⟩
          rw [hinnerRun]
          exact (ih y (hnextSeals y) hleft).lower hle
        · obtain ⟨stop, hstop⟩ := hinner.2 hlt
          rw [hstop]
          cases left with
          | nil => exact .of_check_failed hlt
          | cons b left => exact .of_over fun _ _ hok => by cases hok

end

end Program

end Bilrost
