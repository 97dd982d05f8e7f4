import Bilrost.Types.Grammar

/-!
What the parsers of timestamps and durations accept, and what they return. Both
return for every string.
-/

namespace Bilrost.Types

open Decimal Attempt

theorem TwoDigits.is_ascii {text : Str} {n : U8} (h : TwoDigits text n) : isAscii text = true :=
  isAscii_of_digits h.2.1

theorem YearText.is_ascii {text : Str} {year : I64} (h : YearText text year) :
    isAscii text = true := by
  cases h with
  | plain _ hds => exact isAscii_of_digits hds
  | plus _ hds => exact isAscii_cons.mpr ⟨by decide, isAscii_of_digits hds⟩
  | minus _ hds => exact isAscii_cons.mpr ⟨by decide, isAscii_of_digits hds⟩

theorem DateText.is_ascii {text : Str} {date : I64 × U8 × U8} (h : DateText text date) :
    isAscii text = true := by
  obtain ⟨year, month, day, rfl, hyear, hmonth, hday⟩ := h
  simp only [isAscii_append, isAscii_cons, hyear.is_ascii, hmonth.is_ascii, hday.is_ascii]
  decide

theorem FractionText.is_ascii {text : Str} {nanos : U32} (h : FractionText text nanos) :
    isAscii text = true := by
  cases h with
  | none => rfl
  | some _ hds => exact isAscii_cons.mpr ⟨by decide, isAscii_of_digits hds⟩

theorem TimeText.is_ascii {text : Str} {time : U8 × U8 × U8 × U32} (h : TimeText text time) :
    isAscii text = true := by
  obtain ⟨hour, minute, second, fraction, rfl, hhour, hminute, hsecond, hfraction⟩ := h
  simp only [isAscii_append, isAscii_cons, hhour.is_ascii, hminute.is_ascii, hsecond.is_ascii,
    hfraction.is_ascii]
  decide

theorem MinuteText.is_ascii {text : Str} {minute : U8} (h : MinuteText text minute) :
    isAscii text = true := by
  cases h with
  | none => rfl
  | digits hds => exact hds.is_ascii
  | colon hds => exact isAscii_cons.mpr ⟨by decide, hds.is_ascii⟩

theorem ZoneText.is_ascii {text : Str} {offset : I8 × I8} (h : ZoneText MinuteText text offset) :
    isAscii text = true := by
  cases h with
  | zulu hz => rcases hz with rfl | rfl <;> rfl
  | plus hds hminutes =>
      exact isAscii_cons.mpr ⟨by decide, isAscii_append.mpr ⟨hds.is_ascii, hminutes.is_ascii⟩⟩
  | minus hds hminutes =>
      exact isAscii_cons.mpr ⟨by decide, isAscii_append.mpr ⟨hds.is_ascii, hminutes.is_ascii⟩⟩

theorem OffsetText.is_ascii {text : Str} {offset : I8 × I8} (h : OffsetText MinuteText text offset) :
    isAscii text = true := by
  cases h with
  | none => rfl
  | zone h => exact h.is_ascii
  | spaceZone h => exact isAscii_cons.mpr ⟨by decide, h.is_ascii⟩

theorem TimestampText.is_ascii {text : Str} {dt : DateTime} {offset : I8 × I8}
    (h : TimestampText MinuteText text dt offset) : isAscii text = true := by
  cases h with
  | date hdate => exact hdate.is_ascii
  | time hdate hdelimiter htime hoffset =>
      simp only [isAscii_append, isAscii_cons, hdate.is_ascii, htime.is_ascii, hoffset.is_ascii]
      rcases hdelimiter with rfl | rfl | rfl <;> decide

/-- What begins an offset ends a fraction. -/
theorem OffsetText.noFraction {text : Str} {offset : I8 × I8}
    (h : OffsetText MinuteText text offset) : NoFraction text := by
  have hhead {b : UInt8} {s : Str} (hb : ¬IsDigit b ∧ b ≠ ascii '.') : NoFraction (b :: s) := by
    constructor
    · intro c hc
      obtain rfl := Option.some.inj hc
      exact hb.1
    · exact fun hpoint => hb.2 (Option.some.inj hpoint)
  cases h with
  | none =>
      constructor
      · rintro b ⟨⟩
      · rintro ⟨⟩
  | spaceZone h => exact hhead (by decide)
  | zone h =>
      cases h with
      | zulu hz => rcases hz with rfl | rfl <;> exact hhead (by decide)
      | plus => exact hhead (by decide)
      | minus => exact hhead (by decide)

/-- Only valid date-times are timestamps. -/
theorem Timestamp.tryFromDateTime_eq_ok {casts : Casts} {dt : DateTime} {t : Timestamp} :
    tryFromDateTime casts dt = .ok t ↔
      dt.isValid = .ok true ∧ t.Canonical ∧ t.total = dt.total := by
  constructor
  · intro h
    obtain ⟨valid, hvalid, hensure⟩ := bind_eq_ok.mp h
    obtain ⟨_, hensure, -⟩ := bind_eq_ok.mp hensure
    rw [ensure_eq_ok.mp hensure] at hvalid
    obtain ⟨t', ht', hcanonical, htotal⟩ := tryFromDateTime_returns casts hvalid
    obtain rfl := Except.ok.inj (h.symm.trans ht')
    exact ⟨hvalid, hcanonical, htotal⟩
  · rintro ⟨hvalid, hcanonical, htotal⟩
    obtain ⟨t', ht', hcanonical', htotal'⟩ := tryFromDateTime_returns casts hvalid
    rw [ht', Timestamp.covers.inj hcanonical' hcanonical (htotal'.trans htotal.symm)]

theorem Timestamp.safe_tryFromDateTime (casts : Casts) (dt : DateTime) :
    Safe (tryFromDateTime casts dt) := by
  have hvalid := dt.isValid_eq
  by_cases h : dt.isValid = .ok true
  · obtain ⟨t, ht, -⟩ := tryFromDateTime_returns casts h
    exact safe_of_eq_ok ht
  · rw [hvalid, Except.ok.injEq, Bool.not_eq_true] at h
    rw [tryFromDateTime, hvalid, h]
    simp [Safe, ensure, Bind.bind, Except.bind]

/-- An offset in seconds. -/
def offsetSeconds (offset : I8 × I8) : Int := offset.1.val * 3600 + offset.2.val * 60

/-- The timestamps that a text denotes. -/
def TimestampText.Denotes (M : Str → U8 → Prop) (s : Str) (t : Timestamp) : Prop :=
  ∃ dt offset, TimestampText M s dt offset ∧ dt.isValid = .ok true ∧ t.Canonical ∧
    t.total = dt.total - offsetSeconds offset * nanosPerSecond

theorem offset_returns (offset : I8 × I8) : ∃ hours minutes o : I64,
    Ranged.fit (offset.1.val * 3600) = .ok hours ∧ Ranged.fit (offset.2.val * 60) = .ok minutes ∧
      Ranged.fit (hours.val + minutes.val) = .ok o ∧ o.val = offsetSeconds offset := by
  have hle := offset.1.le_val
  have hge := offset.1.val_le
  have hle' := offset.2.le_val
  have hge' := offset.2.val_le
  refine ⟨⟨offset.1.val * 3600, by omega, by omega⟩, ⟨offset.2.val * 60, by omega, by omega⟩,
    ⟨offsetSeconds offset, ?_, ?_⟩, Ranged.fit_eq_ok.mpr rfl, Ranged.fit_eq_ok.mpr rfl,
    Ranged.fit_eq_ok.mpr rfl, rfl⟩
  · unfold offsetSeconds
    omega
  · unfold offsetSeconds
    omega

/-- The offset is taken away from the instant of the local date-time. -/
theorem subtractOffset_eq_ok {casts : Casts} {dt : DateTime} {offset : I8 × I8} {t : Timestamp} :
    subtractOffset casts dt offset.1 offset.2 = .ok t ↔ dt.isValid = .ok true ∧ t.Canonical ∧
      t.total = dt.total - offsetSeconds offset * nanosPerSecond := by
  obtain ⟨hours, minutes, o, hhours, hminutes, ho, hval⟩ := offset_returns offset
  simp only [subtractOffset, bind_eq_ok, Timestamp.tryFromDateTime_eq_ok, hhours, hminutes,
    ofOption_eq_ok, Ranged.fit?_eq_some, Except.ok.injEq]
  constructor
  · rintro ⟨local', ⟨hvalid, hcanonical, htotal⟩, _, rfl, _, rfl, _, ho', seconds, hseconds, rfl⟩
    obtain rfl := Except.ok.inj (ho.symm.trans ho')
    refine ⟨hvalid, hcanonical, ?_⟩
    rw [← htotal]
    unfold Timestamp.total
    dsimp only
    rw [hseconds, hval]
    ring
  · rintro ⟨hvalid, hcanonical, htotal⟩
    obtain ⟨local', hlocal, hcanonical', htotal'⟩ :=
      Timestamp.tryFromDateTime_returns casts hvalid
    rw [← htotal'] at htotal
    have hparts : t.seconds.val = local'.seconds.val - o.val ∧ t.nanos.val = local'.nanos.val := by
      unfold Timestamp.Canonical Timestamp.total nanosPerSecond at *
      omega
    exact ⟨local', ⟨hvalid, hcanonical', htotal'⟩, hours, rfl, minutes, rfl, o, ho, t.seconds,
      hparts.1, Timestamp.ext rfl (Ranged.ext hparts.2.symm)⟩

theorem safe_subtractOffset (casts : Casts) (dt : DateTime) (offset : I8 × I8) :
    Safe (subtractOffset casts dt offset.1 offset.2) := by
  obtain ⟨hours, minutes, o, hhours, hminutes, ho, -⟩ := offset_returns offset
  apply Safe.bind (Timestamp.safe_tryFromDateTime casts dt)
  intro t _
  rw [hhours, hminutes, ok_bind, ok_bind, ho, ok_bind]
  apply Safe.bind (safe_ofOption _)
  intro seconds _
  exact safe_ok _

theorem parseClock_eq_ok {casts : Casts} {year : I64} {month day : U8} {s : Str} {t : Timestamp}
    (hs : isAscii s = true) : parseClock casts year month day s = .ok t ↔
      ∃ delimiter time hour minute second nanos zone offset, s = delimiter :: (time ++ zone) ∧
        (delimiter = ascii 'T' ∨ delimiter = ascii 't' ∨ delimiter = ascii ' ') ∧
        TimeText time (hour, minute, second, nanos) ∧ OffsetText MinuteText zone offset ∧
        subtractOffset casts ⟨year, month, day, hour, minute, rollBack second, nanos⟩ offset.1
          offset.2 = .ok t := by
  constructor
  · intro h
    obtain ⟨r₁, hr₁, h₁⟩ := bind_eq_ok.mp h
    obtain ⟨_, delimiter, s₁, rfl, rfl, rfl, hdelimiter⟩ := parseDelimiter_reads.sound hr₁
    obtain ⟨r₂, hr₂, h₂⟩ := bind_eq_ok.mp h₁
    obtain ⟨time, ⟨hour, minute, second, nanos⟩, s₂, rfl, hs₁, htime⟩ :=
      (parseTime_reads casts).sound hr₂
    obtain ⟨r₃, hr₃, h₃⟩ := bind_eq_ok.mp h₂
    obtain ⟨zone, offset, s₃, rfl, rfl, hoffset⟩ := (parseOffset_reads casts).sound hr₃
    obtain ⟨_, hrest, h₄⟩ := bind_eq_ok.mp h₃
    obtain rfl := List.isEmpty_iff.mp (ensure_eq_ok.mp hrest)
    rw [List.append_nil] at hs₁
    refine ⟨delimiter, time, hour, minute, second, nanos, zone, offset, ?_, hdelimiter, htime, hoffset,
      h₄⟩
    rw [List.singleton_append, ← hs₁]
  · rintro ⟨delimiter, time, hour, minute, second, nanos, zone, offset, rfl, hdelimiter, htime,
      hoffset, h⟩
    have hs₁ := (isAscii_cons.mp hs).2
    have hread₁ := parseDelimiter_reads.complete [delimiter] (time ++ zone) hs ⟨rfl, hdelimiter⟩ trivial
    have hread₂ := (parseTime_reads casts).complete _ _ hs₁ htime hoffset.noFraction
    have hread₃ := (parseOffset_reads casts).complete zone []
      (by rw [List.append_nil]; exact hoffset.is_ascii) hoffset rfl
    rw [List.append_nil] at hread₃
    rw [List.singleton_append] at hread₁
    rw [parseClock, hread₁, ok_bind]
    dsimp only [id]
    rw [hread₂, ok_bind]
    dsimp only
    rw [hread₃, ok_bind]
    exact h

theorem safe_parseClock {casts : Casts} {year : I64} {month day : U8} {s : Str}
    (hs : isAscii s = true) : Safe (parseClock casts year month day s) := by
  apply Safe.bind (parseDelimiter_reads.safe hs)
  intro r₁ hr₁
  obtain ⟨_, _, s₁, rfl, rfl, -⟩ := parseDelimiter_reads.sound hr₁
  have hs₁ := (isAscii_append.mp hs).2
  apply Safe.bind ((parseTime_reads casts).safe hs₁)
  intro r₂ hr₂
  obtain ⟨_, _, s₂, rfl, rfl, -⟩ := (parseTime_reads casts).sound hr₂
  have hs₂ := (isAscii_append.mp hs₁).2
  apply Safe.bind ((parseOffset_reads casts).safe hs₂)
  intro r₃ hr₃
  obtain ⟨_, offset, _, rfl, -⟩ := (parseOffset_reads casts).sound hr₃
  apply Safe.bind (safe_ensure _)
  intro _ _
  exact safe_subtractOffset _ _ offset

/-- A timestamp is parsed exactly if it is in the grammar, and is what that says. -/
theorem parseTimestamp_eq_ok {casts : Casts} {s : Str} {t : Timestamp} :
    parseTimestamp casts s = .ok t ↔ TimestampText.Denotes MinuteText s t := by
  constructor
  · intro h
    obtain ⟨_, hs, h₁⟩ := bind_eq_ok.mp h
    obtain ⟨r, hr, h₂⟩ := bind_eq_ok.mp h₁
    obtain ⟨date, ⟨year, month, day⟩, rest, rfl, rfl, hdate, -⟩ := parseDate_reads.sound hr
    have hrest := (isAscii_append.mp (ensure_eq_ok.mp hs)).2
    dsimp only at h₂
    split_ifs at h₂ with hempty
    · obtain rfl := List.isEmpty_iff.mp hempty
      obtain ⟨hvalid, hcanonical, htotal⟩ := Timestamp.tryFromDateTime_eq_ok.mp h₂
      rw [List.append_nil]
      refine ⟨_, _, .date hdate, hvalid, hcanonical, ?_⟩
      rw [htotal]
      simp [offsetSeconds]
    · obtain ⟨delimiter, time, hour, minute, second, nanos, zone, offset, rfl, hdelimiter, htime,
        hoffset, h₃⟩ := (parseClock_eq_ok hrest).mp h₂
      exact ⟨_, offset, .time hdate hdelimiter htime hoffset, subtractOffset_eq_ok.mp h₃⟩
  · rintro ⟨dt, offset, htext, hvalid, hcanonical, htotal⟩
    have hs := htext.is_ascii
    have hyear : -9223372036854775808 < dt.year.val := by
      rw [DateTime.isValid_eq, Except.ok.injEq, decide_eq_true_iff] at hvalid
      exact lt_of_lt_of_le (by decide) (DateTime.year_le_of_le hvalid.1)
    have hensure : ensure (isAscii s) = .ok () := ensure_eq_ok.mpr hs
    rw [parseTimestamp, hensure, ok_bind]
    cases htext with
    | date hdate =>
        have hread := parseDate_reads.complete _ [] (by rwa [List.append_nil])
          ⟨hdate, hyear⟩ trivial
        rw [List.append_nil] at hread
        rw [hread, ok_bind]
        apply Timestamp.tryFromDateTime_eq_ok.mpr
        refine ⟨hvalid, hcanonical, htotal.trans ?_⟩
        simp [offsetSeconds]
    | time hdate hdelimiter htime hoffset =>
        have hread := parseDate_reads.complete _ _ hs ⟨hdate, hyear⟩ trivial
        rw [hread, ok_bind]
        apply (parseClock_eq_ok (isAscii_append.mp hs).2).mpr
        exact ⟨_, _, _, _, _, _, _, _, rfl, hdelimiter, htime, hoffset,
          subtractOffset_eq_ok.mpr ⟨hvalid, hcanonical, htotal⟩⟩

theorem safe_parseTimestamp (casts : Casts) (s : Str) : Safe (parseTimestamp casts s) := by
  apply Safe.bind (safe_ensure _)
  intro _ hs
  have hs := ensure_eq_ok.mp hs
  apply Safe.bind (parseDate_reads.safe hs)
  intro r hr
  obtain ⟨date, ⟨year, month, day⟩, s, rfl, rfl, -⟩ := parseDate_reads.sound hr
  dsimp only
  split_ifs
  · exact Timestamp.safe_tryFromDateTime _ _
  · exact safe_parseClock (isAscii_append.mp hs).2

/-- The texts of durations, of which the digits are those of a number of the type.
A minus in front is that of the seconds and of the nanoseconds. -/
def DurationText (s : Str) (d : Duration) : Prop :=
  ∃ ds fraction, ∃ nanos : U32, ds ≠ [] ∧ Digits ds ∧ value ds ≤ 9223372036854775807 ∧
    FractionText fraction nanos ∧
    (s = ds ++ (fraction ++ [ascii 's']) ∧ d.seconds.val = value ds ∧ d.nanos.val = nanos.val ∨
      s = ascii '-' :: (ds ++ (fraction ++ [ascii 's'])) ∧ d.seconds.val = -value ds ∧
        d.nanos.val = -nanos.val)

theorem FractionText.nanos_lt {text : Str} {nanos : U32} (h : FractionText text nanos) :
    nanos.val < 1000000000 := by
  cases h with
  | none hzero =>
      rw [hzero]
      decide
  | @some ds _ _ hds hval =>
      have hlt := value_lt hds
      have hdiv : value ds * 10 ^ 9 / 10 ^ ds.length < 10 ^ 9 := by
        apply Nat.div_lt_of_lt_mul
        exact Nat.mul_lt_mul_of_pos_right hlt (by decide)
      rw [hval]
      exact_mod_cast hdiv

/-- What begins a fraction ends the digits. -/
theorem FractionText.noDigit {text : Str} {nanos : U32} (h : FractionText text nanos) :
    NoDigit (text ++ [ascii 's']) := by
  cases h with
  | none =>
      rintro b hb
      obtain rfl := Option.some.inj hb
      decide
  | some =>
      rintro b hb
      obtain rfl := Option.some.inj hb
      decide

/-- Both parts of a duration are given the sign. -/
theorem spanOf_returns (casts : Casts) (isNegative : Bool) {seconds : I64} {nanos : U32}
    (hseconds : 0 ≤ seconds.val) (hnanos : nanos.val < 1000000000) :
    (spanOf casts isNegative seconds nanos).Returns fun d =>
      d.seconds.val = (if isNegative then -seconds.val else seconds.val) ∧
        d.nanos.val = if isNegative then -nanos.val else nanos.val := by
  have hle := nanos.le_val
  have hge := seconds.val_le
  have hensure : ensure (nanos.val < 1000000000) = .ok () :=
    ensure_eq_ok.mpr (decide_eq_true hnanos)
  rw [spanOf, hensure, ok_bind]
  apply Casts.cast_bind (by omega) (by omega)
  intro nanos' hval
  cases isNegative with
  | true =>
      apply Ranged.fit_bind (by omega) (by omega)
      intro seconds' hseconds'
      apply Ranged.fit_bind (by omega) (by omega)
      intro nanos'' hnanos''
      apply Returns.ok
      exact ⟨hseconds', hnanos''.trans (congrArg Neg.neg hval)⟩
  | false => exact .ok ⟨rfl, hval⟩

/-- The digits of a number of the type are its value. -/
theorem seconds_eq {ds : Str} (hds : Digits ds) {seconds : I64}
    (h : ofOption (parseInt ds) = .ok seconds) : ds ≠ [] ∧ seconds.val = value ds :=
  (parseInt_of_digits hds).mp (ofOption_eq_ok.mp h)

theorem parseSpan_eq_ok {casts : Casts} {isNegative : Bool} {s : Str} {d : Duration}
    (hs : isAscii s = true) : parseSpan casts isNegative s = .ok d ↔
      ∃ ds fraction, ∃ nanos : U32, ds ≠ [] ∧ Digits ds ∧ value ds ≤ 9223372036854775807 ∧
        FractionText fraction nanos ∧ s = ds ++ (fraction ++ [ascii 's']) ∧
        d.seconds.val = (if isNegative then -value ds else value ds : Int) ∧
        d.nanos.val = if isNegative then -nanos.val else nanos.val := by
  constructor
  · intro h
    obtain ⟨r₁, hr₁, h₁⟩ := bind_eq_ok.mp h
    obtain ⟨_, ds, s₁, rfl, rfl, rfl, hds⟩ := parseDigits_reads.sound hr₁
    obtain ⟨seconds, hseconds, h₂⟩ := bind_eq_ok.mp h₁
    obtain ⟨hne, hval⟩ := seconds_eq hds hseconds
    obtain ⟨r₂, hr₂, h₃⟩ := bind_eq_ok.mp h₂
    obtain ⟨fraction, nanos, s₂, rfl, rfl, hfraction⟩ := (parseNanos_reads casts).sound hr₂
    obtain ⟨s₃, hr₃, h₄⟩ := bind_eq_ok.mp h₃
    obtain rfl := parseChar_eq_ok hr₃
    obtain ⟨_, hempty, h₅⟩ := bind_eq_ok.mp h₄
    obtain rfl := List.isEmpty_iff.mp (ensure_eq_ok.mp hempty)
    have hnonneg : 0 ≤ seconds.val := by omega
    obtain ⟨d', hret, hsign⟩ := spanOf_returns casts isNegative hnonneg hfraction.nanos_lt
    obtain rfl := Except.ok.inj (h₅.symm.trans hret)
    have hle := seconds.val_le
    rw [hval] at hsign
    exact ⟨_, fraction, nanos, hne, hds, by omega, hfraction, rfl, hsign⟩
  · rintro ⟨ds, fraction, nanos, hne, hds, hle, hfraction, rfl, hsign⟩
    have hs₁ := (isAscii_append.mp hs).2
    have hs₂ := (isAscii_append.mp hs₁).2
    have hunit : NoFraction [ascii 's'] := by
      constructor
      · rintro b hb
        obtain rfl := Option.some.inj hb
        decide
      · rintro hb
        exact absurd (Option.some.inj hb) (by decide)
    obtain ⟨seconds, hval⟩ : ∃ n : I64, n.val = value ds := ⟨⟨value ds, by omega, by omega⟩, rfl⟩
    have hparse : parseInt ds = some seconds := (parseInt_of_digits hds).mpr ⟨hne, hval⟩
    have hread₁ := parseDigits_reads.complete ds _ hs ⟨rfl, hds⟩ hfraction.noDigit
    have hread₂ := (parseNanos_reads casts).complete fraction _ hs₁ hfraction hunit
    have hread₃ : parseChar [ascii 's'] (ascii 's') = .ok [] :=
      (parseChar_reads _).complete [ascii 's'] [] hs₂ ⟨rfl, rfl⟩ trivial
    have hnonneg : 0 ≤ seconds.val := by omega
    obtain ⟨d', hret, hsign'⟩ := spanOf_returns casts isNegative hnonneg hfraction.nanos_lt
    rw [hval] at hsign'
    have hsame : d' = d := Duration.ext (Ranged.ext (hsign'.1.trans hsign.1.symm))
      (Ranged.ext (hsign'.2.trans hsign.2.symm))
    have hempty : ensure ([] : Str).isEmpty = .ok () := rfl
    rw [parseSpan, hread₁, ok_bind]
    dsimp only
    rw [hparse, ofOption, ok_bind, hread₂, ok_bind]
    dsimp only
    rw [hread₃, ok_bind, hempty, ok_bind, hret, hsame]

theorem safe_parseSpan {casts : Casts} {isNegative : Bool} {s : Str} (hs : isAscii s = true) :
    Safe (parseSpan casts isNegative s) := by
  apply Safe.bind (parseDigits_reads.safe hs)
  intro r₁ hr₁
  obtain ⟨_, ds, s₁, rfl, rfl, rfl, hds⟩ := parseDigits_reads.sound hr₁
  have hs₁ := (isAscii_append.mp hs).2
  apply Safe.bind (safe_ofOption _)
  intro seconds hseconds
  obtain ⟨-, hval⟩ := seconds_eq hds hseconds
  apply Safe.bind ((parseNanos_reads casts).safe hs₁)
  intro r₂ hr₂
  obtain ⟨fraction, nanos, s₂, rfl, rfl, hfraction⟩ := (parseNanos_reads casts).sound hr₂
  apply Safe.bind ((parseChar_reads _).safe (isAscii_append.mp hs₁).2)
  intro s₃ _
  apply Safe.bind (safe_ensure _)
  intro _ _
  obtain ⟨d, hret, -⟩ := spanOf_returns casts isNegative (by omega : 0 ≤ seconds.val)
    hfraction.nanos_lt
  exact safe_of_eq_ok hret

/-- A duration is parsed exactly if it is in the grammar, and is what that says. -/
theorem parseDuration_eq_ok {casts : Casts} {s : Str} {d : Duration} :
    parseDuration casts s = .ok d ↔ DurationText s d := by
  constructor
  · intro h
    obtain ⟨_, hs, h₁⟩ := bind_eq_ok.mp h
    have hs := ensure_eq_ok.mp hs
    obtain ⟨minus, hminus, h₂⟩ := bind_eq_ok.mp h₁
    cases minus with
    | none =>
        obtain ⟨ds, fraction, nanos, hne, hds, hle, hfraction, rfl, hsign⟩ :=
          (parseSpan_eq_ok hs).mp h₂
        exact ⟨ds, fraction, nanos, hne, hds, hle, hfraction, .inl ⟨rfl, hsign⟩⟩
    | some rest =>
        obtain rfl := parseChar_eq_ok (orNone_eq_ok_some.mp hminus)
        obtain ⟨ds, fraction, nanos, hne, hds, hle, hfraction, rfl, hsign⟩ :=
          (parseSpan_eq_ok (isAscii_cons.mp hs).2).mp h₂
        exact ⟨ds, fraction, nanos, hne, hds, hle, hfraction, .inr ⟨rfl, hsign⟩⟩
  · rintro ⟨ds, fraction, nanos, hne, hds, hle, hfraction, htext⟩
    have hspan : isAscii (ds ++ (fraction ++ [ascii 's'])) = true := by
      simp only [isAscii_append, isAscii_of_digits hds, hfraction.is_ascii]
      decide
    rcases htext with ⟨rfl, hsign⟩ | ⟨rfl, hsign⟩
    · have hensure : ensure (isAscii (ds ++ (fraction ++ [ascii 's']))) = .ok () :=
        ensure_eq_ok.mpr hspan
      have hminus : orNone (parseChar (ds ++ (fraction ++ [ascii 's'])) (ascii '-')) = .ok none := by
        refine orNone_eq_ok_none.mpr ⟨(parseChar_reads _).safe hspan, parseChar_ne_ok ?_⟩
        rw [List.head?_append_of_ne_nil _ hne]
        intro hhead
        exact absurd (hds _ (List.mem_of_mem_head? hhead)) (by decide)
      rw [parseDuration, hensure, ok_bind, hminus, ok_bind]
      exact (parseSpan_eq_ok hspan).mpr ⟨ds, fraction, nanos, hne, hds, hle, hfraction, rfl, hsign⟩
    · have hs : isAscii (ascii '-' :: (ds ++ (fraction ++ [ascii 's']))) = true :=
        isAscii_cons.mpr ⟨by decide, hspan⟩
      have hensure : ensure (isAscii (ascii '-' :: (ds ++ (fraction ++ [ascii 's'])))) = .ok () :=
        ensure_eq_ok.mpr hs
      have hminus : orNone (parseChar (ascii '-' :: (ds ++ (fraction ++ [ascii 's']))) (ascii '-')) =
          .ok (some (ds ++ (fraction ++ [ascii 's']))) := by
        apply orNone_eq_ok_some.mpr
        exact (parseChar_reads _).complete [ascii '-'] _ hs ⟨rfl, rfl⟩ trivial
      rw [parseDuration, hensure, ok_bind, hminus, ok_bind]
      exact (parseSpan_eq_ok hspan).mpr ⟨ds, fraction, nanos, hne, hds, hle, hfraction, rfl, hsign⟩

theorem safe_parseDuration (casts : Casts) (s : Str) : Safe (parseDuration casts s) := by
  apply Safe.bind (safe_ensure _)
  intro _ hs
  have hs := ensure_eq_ok.mp hs
  apply Safe.bind (safe_orNone ((parseChar_reads _).safe hs))
  intro minus hminus
  cases minus with
  | none => exact safe_parseSpan hs
  | some rest =>
      obtain rfl := parseChar_eq_ok (orNone_eq_ok_some.mp hminus)
      exact safe_parseSpan (isAscii_cons.mp hs).2

/-- The local date-time is valid, and the seconds that are left without the offset
are those of a timestamp. -/
def TimestampText.InRange (dt : DateTime) (offset : I8 × I8) : Prop :=
  dt.isValid = .ok true ∧ -9223372036854775808 ≤ dt.seconds - offsetSeconds offset ∧
    dt.seconds - offsetSeconds offset ≤ 9223372036854775807

theorem TimestampText.exists_denotes_iff {M : Str → U8 → Prop} {s : Str} :
    (∃ t, Denotes M s t) ↔ ∃ dt offset, TimestampText M s dt offset ∧ InRange dt offset := by
  constructor
  · rintro ⟨t, dt, offset, htext, hvalid, hcanonical, htotal⟩
    have hnanos := (DateTime.isValid_eq_true_iff.mp hvalid).1.2.2.2.2
    have hle := t.seconds.le_val
    have hge := t.seconds.val_le
    have hnonneg := dt.nanos.le_val
    refine ⟨dt, offset, htext, hvalid, ?_⟩
    unfold Timestamp.Canonical Timestamp.total DateTime.total nanosPerSecond at *
    omega
  · rintro ⟨dt, offset, htext, hvalid, hmin, hmax⟩
    have hnanos := (DateTime.isValid_eq_true_iff.mp hvalid).1.2.2.2.2
    have hnonneg := dt.nanos.le_val
    refine ⟨⟨⟨dt.seconds - offsetSeconds offset, hmin, hmax⟩, ⟨dt.nanos.val, ?_, ?_⟩⟩, dt, offset, htext,
      hvalid, ⟨hnonneg, hnanos⟩, ?_⟩
    · omega
    · omega
    · unfold Timestamp.total DateTime.total
      ring

/-- Both parsers return for every string, with something exactly if it is in their
grammar and what it denotes is in range, and then with the canonical timestamp or
the duration that it denotes. -/
theorem parsers_accept_exactly (casts : Casts) (s : Str) :
    Safe (parseTimestamp casts s) ∧
    ((∃ t, parseTimestamp casts s = .ok t) ↔
      ∃ dt offset, TimestampText MinuteText s dt offset ∧ TimestampText.InRange dt offset) ∧
    (∀ t, parseTimestamp casts s = .ok t ↔ TimestampText.Denotes MinuteText s t) ∧
    Safe (parseDuration casts s) ∧
    ∀ d, parseDuration casts s = .ok d ↔ DurationText s d := by
  refine ⟨safe_parseTimestamp casts s, ?_, fun _ => parseTimestamp_eq_ok, safe_parseDuration casts s,
    fun _ => parseDuration_eq_ok⟩
  simp only [parseTimestamp_eq_ok]
  exact TimestampText.exists_denotes_iff

/-- The minutes of an offset, with a colon that is optional by itself. -/
def LooseMinuteText (text : Str) (minute : U8) : Prop :=
  ∃ colon digits, text = colon ++ digits ∧ (colon = [] ∨ colon = [ascii ':']) ∧
    (digits = [] ∧ minute.val = 0 ∨ TwoDigits digits minute)

/-- The bytes of an ASCII text. -/
def ofString (s : String) : Str := s.toList.map ascii

/-- A colon without minutes is not accepted. -/
theorem colon_needs_minutes : ¬∀ s : Str, (∃ t, parseTimestamp .strict s = .ok t) ↔
    ∃ dt offset, TimestampText LooseMinuteText s dt offset ∧ TimestampText.InRange dt offset := by
  intro h
  have hfails : parseTimestamp .strict (ofString "2000-01-01T00:00:00+08:") = .error .nothing := by
    decide
  have hdate : DateText (ofString "2000-01-01") (.lit 2000, .lit 1, .lit 1) :=
    ⟨ofString "2000", ofString "01", ofString "01", by decide,
      .plain (by decide) (by decide) (by decide), by decide, by decide⟩
  have htime : TimeText (ofString "00:00:00") (0, 0, 0, 0) :=
    ⟨ofString "00", ofString "00", ofString "00", [], by decide, by decide, by decide, by decide,
      .none rfl⟩
  have hzone : ZoneText LooseMinuteText (ascii '+' :: (ofString "08" ++ ofString ":"))
      (.lit 8, 0) :=
    @ZoneText.plus _ _ _ (.lit 8) 0 _ (by decide)
      ⟨[ascii ':'], [], by decide, .inr rfl, .inl ⟨rfl, rfl⟩⟩ (by decide) (by decide) rfl rfl
  have htext := TimestampText.time hdate (.inl rfl) htime (.zone hzone)
  have hrange : TimestampText.InRange ⟨.lit 2000, .lit 1, .lit 1, 0, 0, 0, 0⟩
      (.lit 8, 0) := ⟨by decide, by decide, by decide⟩
  obtain ⟨t, ht⟩ := (h (ofString "2000-01-01T00:00:00+08:")).mpr ⟨_, _, htext, hrange⟩
  rw [hfails] at ht
  cases ht

end Bilrost.Types
