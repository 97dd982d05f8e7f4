import Bilrost.Types.CivilTime
import Bilrost.Types.Parsers

/-!
Timestamps and durations through their texts. What is formatted is a text of the
grammar, so that the parsers' theorems say what is read back.
-/

namespace Bilrost.Types

open Decimal Attempt

theorem formatInt_of_nonneg {width : Nat} {n : Int} (h : 0 ≤ n) :
    formatInt width n = padded width n.toNat := by
  have hnat : n.natAbs = n.toNat := by omega
  rw [formatInt, if_neg (not_lt.mpr h), hnat]

theorem twoDigits_formatInt {n : U8} (h : n.val < 100) : TwoDigits (formatInt 2 n.val) n := by
  have hle := n.le_val
  rw [formatInt_of_nonneg hle]
  refine ⟨length_padded_of_lt (by decide) (by omega), digits_padded _ _, ?_⟩
  rw [value_padded]
  omega

theorem yearText_formatYear (year : I64) : YearText (DateTime.formatYear year) year := by
  unfold DateTime.formatYear
  split_ifs with hbig hneg
  · rw [formatInt_of_nonneg (by omega)]
    refine .plus (lt_length_padded (by omega)) (digits_padded _ _) ?_
    rw [value_padded]
    omega
  · rw [formatInt, if_pos hneg]
    refine .minus (le_length_padded _ _) (digits_padded _ _) ?_
    rw [value_padded]
    omega
  · rw [formatInt_of_nonneg (by omega)]
    refine .plain (length_padded_of_lt (by decide) (by omega)) (digits_padded _ _) ?_
    rw [value_padded]
    omega

/-- A number of units that are each `10 ^ k` nanoseconds, of which there are
`10 ^ width` in a second. -/
theorem fractionText_padded {width units : Nat} (scale : Nat) {nanos : U32} (hwidth : 1 ≤ width)
    (hscale : 10 ^ 9 = scale * 10 ^ width) (hunits : units < 10 ^ width)
    (hnanos : nanos.val = (units * scale : Nat)) :
    FractionText (ascii '.' :: padded width units) nanos := by
  refine .some (padded_ne_nil _ _) (digits_padded _ _) ?_
  rw [value_padded, length_padded_of_lt hwidth hunits, hscale, ← Nat.mul_assoc,
    Nat.mul_div_cancel _ (Nat.pow_pos (by decide)), hnanos]

theorem formatNanos_eq {n : Nat} (h : n < 1000000000) (ending : Char) : ∃ fraction,
    formatNanos n ending = fraction ++ [ascii ending] ∧
      ∀ nanos : U32, nanos.val = n → FractionText fraction nanos := by
  unfold formatNanos
  split_ifs with hzero hmillis hmicros
  · refine ⟨[], rfl, fun nanos hnanos => .none ?_⟩
    rw [hnanos, hzero]
    rfl
  · refine ⟨_, rfl, fun nanos hnanos => fractionText_padded 1000000 (by decide)
      (by decide) (by omega) ?_⟩
    omega
  · refine ⟨_, rfl, fun nanos hnanos => fractionText_padded 1000 (by decide) (by decide)
      (by omega) ?_⟩
    omega
  · refine ⟨_, rfl, fun nanos hnanos => fractionText_padded 1 (by decide) (by decide)
      (by omega) ?_⟩
    omega

/-- A date-time is formatted as itself, with no offset. -/
theorem timestampText_fmt {dt : DateTime} (h : dt.OnCalendar) :
    TimestampText MinuteText dt.fmt dt noOffset := by
  obtain ⟨⟨⟨hm, hm'⟩, hd, hd'⟩, hhour, hminute, hsecond, hnanos⟩ := h
  have hnonneg := dt.nanos.le_val
  have hlength : Gregorian.monthLength dt.year.val dt.month.val ≤ 31 := by
    unfold Gregorian.monthLength
    split_ifs <;> decide
  obtain ⟨fraction, hformat, hfraction⟩ :=
    formatNanos_eq (n := dt.nanos.val.toNat) (by omega) 'Z'
  have hcast : dt.nanos.val = dt.nanos.val.toNat := by omega
  have hroll : rollBack dt.second = dt.second := if_neg (by omega)
  have hdate : DateText (DateTime.formatYear dt.year ++ ascii '-' :: (formatInt 2 dt.month.val ++
      ascii '-' :: formatInt 2 dt.day.val)) (dt.year, dt.month, dt.day) :=
    ⟨_, _, _, rfl, yearText_formatYear _, twoDigits_formatInt (by omega),
      twoDigits_formatInt (by omega)⟩
  have htime : TimeText (formatInt 2 dt.hour.val ++ ascii ':' :: (formatInt 2 dt.minute.val ++
      ascii ':' :: (formatInt 2 dt.second.val ++ fraction)))
      (dt.hour, dt.minute, dt.second, dt.nanos) :=
    ⟨_, _, _, _, rfl, twoDigits_formatInt (by omega), twoDigits_formatInt (by omega),
      twoDigits_formatInt (by omega), hfraction _ hcast⟩
  have htext := TimestampText.time (M := MinuteText) hdate (.inl rfl) htime
    (.zone (.zulu (.inl rfl) rfl rfl : ZoneText MinuteText [ascii 'Z'] noOffset))
  rw [hroll] at htext
  have hfmt : dt.fmt = (DateTime.formatYear dt.year ++ ascii '-' :: (formatInt 2 dt.month.val ++
      ascii '-' :: formatInt 2 dt.day.val)) ++ ascii 'T' :: ((formatInt 2 dt.hour.val ++
      ascii ':' :: (formatInt 2 dt.minute.val ++ ascii ':' ::
      (formatInt 2 dt.second.val ++ fraction))) ++ [ascii 'Z']) := by
    rw [DateTime.fmt, hformat]
    simp only [List.append_assoc, List.cons_append]
  rw [hfmt]
  exact htext

/-- Conversion normalizes first. -/
theorem DateTime.fromTimestamp_eq_of_normalize {casts : Casts} {t c : Timestamp}
    (h : t.normalize = .ok c) : fromTimestamp casts t = fromTimestamp casts c := by
  have hc := t.normalizes.idempotent h
  rw [fromTimestamp, h, fromTimestamp, hc]

/-- Every timestamp is formatted, and its text is parsed as the normalized timestamp. -/
theorem timestamp_text_round_trip (casts : Casts) (t : Timestamp) : ∃ s c,
    t.fmt casts = .ok s ∧ t.normalize = .ok c ∧ parseTimestamp casts s = .ok c := by
  obtain ⟨c, hc⟩ := t.normalizes.returns
  have hcanonical := t.normalizes.canonical hc
  obtain ⟨dt, hdt, hvalid, htotal⟩ := DateTime.fromTimestamp_returns casts hcanonical
  refine ⟨dt.fmt, c, ?_, hc, ?_⟩
  · rw [Timestamp.fmt, DateTime.fromTimestamp_eq_of_normalize hc, hdt, ok_bind]
  · apply parseTimestamp_eq_ok.mpr
    refine ⟨dt, noOffset, timestampText_fmt (DateTime.isValid_eq_true_iff.mp hvalid).1, hvalid,
      hcanonical, ?_⟩
    rw [htotal]
    simp [offsetSeconds, noOffset]

namespace Duration

/-- The sign that is printed is that of the parts as they are given. -/
def PrintsMinus (d : Duration) : Prop := d.seconds.val < 0 ∨ d.nanos.val < 0

instance (d : Duration) : Decidable d.PrintsMinus := inferInstanceAs (Decidable (_ ∨ _))

/-- What is printed of a duration, and read back. -/
theorem fmt_returns (casts : Casts) {d c : Duration} (h : d.normalize = .ok c)
    (hleast : c.seconds.val ≠ -9223372036854775808) : ∃ s back, d.fmt = .ok s ∧
      parseDuration casts s = .ok back ∧
      back.seconds.val = (if d.PrintsMinus then -|c.seconds.val| else |c.seconds.val|) ∧
      back.nanos.val = if d.PrintsMinus then -|c.nanos.val| else |c.nanos.val| := by
  obtain ⟨⟨hnanos, hnanos'⟩, -⟩ := d.normalizes.canonical h
  unfold nanosMax nanosPerSecond at hnanos hnanos'
  have hle := c.seconds.le_val
  have hge := c.seconds.val_le
  have habs := abs_nonneg c.seconds.val
  have habs' := abs_nonneg c.nanos.val
  have hseconds_le : |c.seconds.val| ≤ 9223372036854775807 := by
    rw [abs_le]
    omega
  have hnanos_le : |c.nanos.val| ≤ 999999999 := by
    rw [abs_le]
    omega
  obtain ⟨seconds, hseconds⟩ : ∃ n : I64, n.val = |c.seconds.val| := ⟨⟨_, by omega, by omega⟩, rfl⟩
  obtain ⟨nanos, hval⟩ : ∃ n : I32, n.val = |c.nanos.val| := ⟨⟨_, by omega, by omega⟩, rfl⟩
  obtain ⟨unsigned, hunsigned⟩ : ∃ n : U32, n.val = |c.nanos.val| := ⟨⟨_, by omega, by omega⟩, rfl⟩
  obtain ⟨fraction, hformat, hfraction⟩ := formatNanos_eq (n := nanos.val.toNat) (by omega) 's'
  have hcast : unsigned.val = nanos.val.toNat := by omega
  have hdigits : formatInt 1 seconds.val = padded 1 seconds.val.toNat :=
    formatInt_of_nonneg (by omega)
  have hvalue : (value (padded 1 seconds.val.toNat) : Int) = |c.seconds.val| := by
    rw [value_padded]
    omega
  have hfmt : d.fmt = .ok ((if d.PrintsMinus then [ascii '-'] else []) ++
      padded 1 seconds.val.toNat ++ (fraction ++ [ascii 's'])) := by
    rw [fmt, h, ok_bind, Ranged.fit_eq_ok.mpr hseconds, Ranged.fit_eq_ok.mpr hval, ok_bind, ok_bind,
      hdigits, hformat]
    rfl
  by_cases hminus : d.PrintsMinus
  · rw [if_pos hminus, List.append_assoc] at hfmt
    rw [if_pos hminus, if_pos hminus]
    refine ⟨_, ⟨⟨-|c.seconds.val|, by omega, by omega⟩, ⟨-|c.nanos.val|, by omega, by omega⟩⟩, hfmt,
      parseDuration_eq_ok.mpr ⟨padded 1 seconds.val.toNat, fraction, unsigned, padded_ne_nil _ _,
        digits_padded _ _, by omega, hfraction _ hcast, .inr ⟨rfl, ?_, ?_⟩⟩, rfl, rfl⟩
    · rw [hvalue]
    · rw [hunsigned]
  · rw [if_neg hminus, List.nil_append] at hfmt
    rw [if_neg hminus, if_neg hminus]
    refine ⟨_, ⟨⟨|c.seconds.val|, by omega, by omega⟩, ⟨|c.nanos.val|, by omega, by omega⟩⟩, hfmt,
      parseDuration_eq_ok.mpr ⟨padded 1 seconds.val.toNat, fraction, unsigned, padded_ne_nil _ _,
        digits_padded _ _, by omega, hfraction _ hcast, .inl ⟨rfl, ?_, ?_⟩⟩, rfl, rfl⟩
    · rw [hvalue]
    · rw [hunsigned]

theorem fmt_panics {d c : Duration} (h : d.normalize = .ok c)
    (hleast : c.seconds.val = -9223372036854775808) : d.fmt = .error .panic := by
  have hoverflow : (Ranged.fit |c.seconds.val| : Attempt I64) = .error .panic := by
    apply Ranged.fit_of_not_mem
    rw [hleast]
    decide
  rw [fmt, h, ok_bind, hoverflow]
  rfl

/-- A duration is printed, and its text is parsed as the normalized duration. -/
def TextRoundTrips (casts : Casts) (d : Duration) : Prop := ∃ s c,
  d.fmt = .ok s ∧ d.normalize = .ok c ∧ parseDuration casts s = .ok c

/-- The text of a duration is parsed as the normalized one exactly if it is not
below the opposite of the greatest number of seconds and, with a part that is
negative, is not positive. -/
theorem text_round_trips_iff (casts : Casts) (d : Duration) : d.TextRoundTrips casts ↔
    -9223372036854775808 * nanosPerSecond < d.total ∧ (d.PrintsMinus → d.total ≤ 0) := by
  obtain ⟨c, hc, hcanonical, htotal⟩ := d.normalize_spec
  have hle := c.seconds.le_val
  by_cases hleast : c.seconds.val = -9223372036854775808
  · have hfails : ¬d.TextRoundTrips casts := by
      rintro ⟨s, _, hs, -⟩
      rw [fmt_panics hc hleast] at hs
      cases hs
    have hlow : ¬-9223372036854775808 * nanosPerSecond < d.total := by
      unfold Canonical total leastTotal greatestTotal nanosMax nanosPerSecond at *
      omega
    exact iff_of_false hfails fun h => hlow h.1
  · obtain ⟨s, back, hs, hparse, hseconds, hnanos⟩ := fmt_returns casts hc hleast
    have hsame : d.TextRoundTrips casts ↔ back = c := by
      constructor
      · rintro ⟨s', c', hs', hc', hparse'⟩
        obtain rfl := Except.ok.inj (hs.symm.trans hs')
        obtain rfl := Except.ok.inj (hc.symm.trans hc')
        exact Except.ok.inj (hparse.symm.trans hparse')
      · rintro rfl
        exact ⟨s, back, hs, hc, hparse⟩
    have hhigh : -9223372036854775808 * nanosPerSecond < d.total := by
      unfold Canonical total leastTotal greatestTotal nanosMax nanosPerSecond at *
      omega
    rw [hsame, Duration.ext_iff, Ranged.ext_iff, Ranged.ext_iff, hseconds, hnanos]
    by_cases hminus : d.PrintsMinus
    · rw [if_pos hminus, if_pos hminus, neg_eq_iff_eq_neg, abs_eq_neg_self, neg_eq_iff_eq_neg,
        abs_eq_neg_self]
      simp only [hminus, hhigh, true_and, true_imp_iff]
      unfold Canonical total leastTotal greatestTotal nanosMax nanosPerSecond at *
      omega
    · rw [if_neg hminus, if_neg hminus, abs_eq_self, abs_eq_self]
      simp only [hminus, hhigh, true_and, false_imp_iff, iff_true]
      unfold PrintsMinus Canonical total leastTotal greatestTotal nanosMax nanosPerSecond at *
      omega

theorem not_all_texts_round_trip : ¬∀ d : Duration, d.TextRoundTrips .strict := by
  intro h
  obtain ⟨s, c, hs, hc, hparse⟩ := h ⟨.lit 1, .lit (-1)⟩
  have hprinted : Duration.fmt ⟨.lit 1, .lit (-1)⟩ = .ok (ofString "-0.999999999s") := by decide
  have hnormal : Duration.normalize ⟨.lit 1, .lit (-1)⟩ = .ok ⟨0, .lit 999999999⟩ := by decide
  have hback : parseDuration .strict (ofString "-0.999999999s") =
      .ok ⟨0, .lit (-999999999)⟩ := by decide
  obtain rfl := Except.ok.inj (hprinted.symm.trans hs)
  obtain rfl := Except.ok.inj (hnormal.symm.trans hc)
  exact absurd (Except.ok.inj (hback.symm.trans hparse)) (by decide)

end Duration

end Bilrost.Types
