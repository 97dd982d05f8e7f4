import Bilrost.Types.Calendar

/-!
From the number of a day to its date. The days since the first of March 2000 are
split into cycles of 400, 100, 4 and 1 years and then into months, with the leap
day at the very end, so that all cycles but the last ones have the same length.
-/

namespace Bilrost.Types

open Gregorian Attempt

theorem splitDays_returns {casts : Casts} (t : I64) : (splitDays casts t).Returns fun split =>
    t.val = 86400 * (split.1.val + 11017) + split.2.val ∧
      (0 ≤ split.2.val ∧ split.2.val < 86400) ∧
      -110000000000000 ≤ split.1.val ∧ split.1.val ≤ 110000000000000 := by
  have := t.le_val
  have := t.val_le
  obtain ⟨hdiv, hpos, hneg⟩ := tdiv_tmod_spec t.val (by decide : (0 : Int) < 86400)
  unfold splitDays
  apply Ranged.fit_bind (by omega) (by omega)
  intro leapoch hleapoch
  apply Ranged.fit_bind (by omega) (by omega)
  intro days hdays
  have hepoch : leapoch.val.tdiv 86400 = 11017 := by
    rw [hleapoch]
    decide
  apply Ranged.fit_bind (by omega) (by omega)
  intro epochDays hepochDays
  apply Ranged.fit_bind (by omega) (by omega)
  intro since hsince
  apply Ranged.fit_bind (by omega) (by omega)
  intro rem hrem
  apply Casts.cast_bind (by omega) (by omega)
  intro remsecs hremsecs
  split_ifs with hlt
  · apply Ranged.fit_bind (by omega) (by omega)
    intro remsecs' hremsecs'
    apply Ranged.fit_bind (by omega) (by omega)
    intro since' hsince'
    apply Returns.ok
    dsimp only
    omega
  · apply Returns.ok
    dsimp only
    omega

theorem splitQcCycles_returns {casts : Casts} {days : I64} (hle : -110000000000000 ≤ days.val)
    (hge : days.val ≤ 110000000000000) : (splitQcCycles casts days).Returns fun split =>
      days.val = 146097 * split.1.val + split.2.val ∧
        (0 ≤ split.2.val ∧ split.2.val < 146097) ∧
        -1000000000 ≤ split.1.val ∧ split.1.val ≤ 1000000000 := by
  obtain ⟨hdiv, hpos, hneg⟩ := tdiv_tmod_spec days.val (by decide : (0 : Int) < 146097)
  unfold splitQcCycles
  apply Ranged.fit_bind (by omega) (by omega)
  intro cycles hcycles
  apply Casts.cast_bind (by omega) (by omega)
  intro qcCycles hqcCycles
  apply Ranged.fit_bind (by omega) (by omega)
  intro rem hrem
  apply Casts.cast_bind (by omega) (by omega)
  intro remdays hremdays
  split_ifs with hlt
  · apply Ranged.fit_bind (by omega) (by omega)
    intro remdays' hremdays'
    apply Ranged.fit_bind (by omega) (by omega)
    intro qcCycles' hqcCycles'
    apply Returns.ok
    dsimp only
    omega
  · apply Returns.ok
    dsimp only
    omega

/-- Cycles with less days than their length are left, except behind the last one,
where there may be one more. -/
structure Cycles (length count : Int) (remdays cycles left : Int) : Prop where
  split : remdays = cycles * length + left
  nonneg : 0 ≤ cycles
  lt : cycles < count
  left_nonneg : 0 ≤ left
  left_le : left ≤ length
  last : left = length → cycles = count - 1

theorem splitCycles_returns {length count : Int} {remdays : I32} (hlength : 0 < length)
    (hcount : 0 < count) (hle : 0 ≤ remdays.val) (hge : remdays.val ≤ count * length) :
    (splitCycles length count remdays).Returns fun split =>
      Cycles length count remdays.val split.1.val split.2.val := by
  have hbound := remdays.val_le
  obtain ⟨hdiv, hpos, -⟩ := tdiv_tmod_spec remdays.val hlength
  obtain ⟨hrem, hlt⟩ := hpos hle
  have hcycles : 0 ≤ remdays.val.tdiv length := Int.tdiv_nonneg hle hlength.le
  have hself : remdays.val.tdiv length ≤ remdays.val := by
    nlinarith
  have hmax : remdays.val.tdiv length ≤ count := by
    by_contra hmore
    nlinarith
  unfold splitCycles
  apply Ranged.fit_bind (by omega) (by omega)
  intro cycles hval
  apply Returns.bind (Q := fun used : I32 => used.val = min cycles.val (count - 1))
  · split_ifs with hall
    · apply Ranged.fit_returns (by omega) (by omega)
      intro used hused
      omega
    · apply Returns.ok
      omega
  · intro used hused
    -- only a full number of cycles is cut down
    have hcut : remdays.val = used.val * length + (remdays.val - used.val * length) ∧
        0 ≤ remdays.val - used.val * length ∧ remdays.val - used.val * length ≤ length ∧
        (remdays.val - used.val * length = length → used.val = count - 1) := by
      by_cases hall : remdays.val.tdiv length = count
      · have hlast : used.val = count - 1 := by omega
        rw [hall, mul_comm] at hdiv
        rw [hlast, sub_mul, one_mul]
        omega
      · have hsame : used.val = remdays.val.tdiv length := by omega
        rw [hsame, mul_comm]
        omega
    have hproduct : 0 ≤ used.val * length := mul_nonneg (by omega) hlength.le
    apply Ranged.fit_bind (by omega) (by omega)
    intro taken htaken
    apply Ranged.fit_bind (by omega) (by omega)
    intro left hleft
    apply Returns.ok
    dsimp only
    rw [hleft, htaken]
    exact ⟨hcut.1, by omega, by omega, hcut.2.1, hcut.2.2.1, hcut.2.2.2⟩

/-- Where the loop over the months stops. -/
theorem splitMonths_returns (lengths : List Int) (months : I32) {remdays : I32}
    (hmonths : 0 ≤ months.val) (hroom : months.val + lengths.length ≤ 1000)
    (hle : 0 ≤ remdays.val) (hlt : remdays.val < lengths.sum) (hpos : ∀ n ∈ lengths, 0 < n) :
    (splitMonths lengths months remdays).Returns fun split => ∃ k, ∃ h : k < lengths.length,
      split.1.val = months.val + k ∧ remdays.val = (lengths.take k).sum + split.2.val ∧
        0 ≤ split.2.val ∧ split.2.val < lengths[k] := by
  induction lengths generalizing months remdays with
  | nil =>
      rw [List.sum_nil] at hlt
      omega
  | cons length lengths ih =>
      have hbound := remdays.val_le
      have hlength := hpos length List.mem_cons_self
      rw [List.length_cons] at hroom
      rw [List.sum_cons] at hlt
      rw [splitMonths]
      split_ifs with hmore
      · apply Ranged.fit_bind (by omega) (by omega)
        intro left hleft
        apply Ranged.fit_bind (by omega) (by push_cast at hroom; omega)
        intro next hnext
        apply (ih next (by omega) (by push_cast at hroom; omega) (by omega) (by omega)
          fun n hn => hpos n (List.mem_cons_of_mem _ hn)).imp
        rintro split ⟨k, hk, hsplit, hsum, hnonneg, hin⟩
        refine ⟨k + 1, Nat.succ_lt_succ hk, ?_, ?_, hnonneg, hin⟩
        · push_cast
          omega
        · rw [List.take_succ_cons, List.sum_cons]
          omega
      · apply Returns.ok
        refine ⟨0, Nat.succ_pos _, ?_, ?_, hle, ?_⟩
        · simp
        · simp
        · exact lt_of_not_ge hmore

/-- The months from March on. -/
def marchMonths : List Int := [31, 30, 31, 30, 31, 31, 30, 31, 30, 31, 31, 29]

/-- A day of the year that begins in March, as a date of that year or, from
January on, of the next one. -/
theorem march_date {y k left : Int} {n : Nat} (hk : k = n) (hn : n < marchMonths.length)
    (hle : 0 ≤ left) (hlt : left < marchMonths[n])
    (hleap : (marchMonths.take n).sum + left = 365 → IsLeap (y + 1)) :
    (k < 10 → ValidDate y (k + 3) (left + 1) ∧ dayNumber y (k + 3) (left + 1) =
      dayNumber y 3 1 + ((marchMonths.take n).sum + left)) ∧
    (10 ≤ k → ValidDate (y + 1) (k - 9) (left + 1) ∧ dayNumber (y + 1) (k - 9) (left + 1) =
      dayNumber y 3 1 + ((marchMonths.take n).sum + left)) := by
  subst hk
  have hn : n < 12 := hn
  unfold dayNumber ValidDate
  rw [daysBeforeYear_succ]
  constructor
  · intro hlow
    rw [daysBeforeMonth_eq y (m := n + 3) (by omega) (by omega),
      daysBeforeMonth_eq y (m := 3) (by decide) (by decide)]
    interval_cases n <;> simp [marchMonths, monthLength] at * <;> omega
  · intro hhigh
    rw [daysBeforeMonth_eq (y + 1) (by omega) (by omega),
      daysBeforeMonth_eq y (m := 3) (by decide) (by decide)]
    unfold yearLength
    by_cases hnext : IsLeap (y + 1)
    · interval_cases n <;> simp [marchMonths, monthLength, hnext] at * <;> split_ifs <;> omega
    · interval_cases n <;> simp [marchMonths, monthLength, hnext] at * <;> split_ifs <;> omega

section
variable {rem₁ rem₂ rem₃ rem₄ c q y : Int} (qc : Int)

/-- The first of March of a year, from the cycles that lead to it. -/
theorem dayNumber_march (hc : Cycles 36524 4 rem₁ c rem₂) (hq : Cycles 1461 25 rem₂ q rem₃)
    (hy : Cycles 365 4 rem₃ y rem₄) :
    dayNumber (y + 4 * q + 100 * c + 400 * qc + 2000) 3 1 + rem₄ = 146097 * qc + rem₁ + 11017 := by
  have hc₁ := hc.split
  have hq₁ := hq.split
  have hy₁ := hy.split
  have := hc.nonneg
  have := hc.lt
  have := hq.nonneg
  have := hq.lt
  have := hy.nonneg
  have := hy.lt
  have hbase : leapsTo 1969 = 477 := by decide
  have hleaps : leapsTo (y + 4 * q + 100 * c + 400 * qc + 2000 - 1) +
      (if IsLeap (y + 4 * q + 100 * c + 400 * qc + 2000) then 1 else 0) =
        q + 24 * c + 97 * qc + 485 := by
    unfold leapsTo IsLeap
    split_ifs <;> omega
  rw [dayNumber, daysBeforeMonth_eq _ (by decide) (by decide), daysBeforeYear, hbase]
  norm_num
  omega

/-- The day after the last one is left over only in front of the end of February
of a leap year. -/
theorem isLeap_next (hc : Cycles 36524 4 rem₁ c rem₂) (hq : Cycles 1461 25 rem₂ q rem₃)
    (hy : Cycles 365 4 rem₃ y rem₄) (h : rem₄ = 365) :
    IsLeap (y + 4 * q + 100 * c + 400 * qc + 2000 + 1) := by
  have hyear := hy.last h
  have hy₁ := hy.split
  have hq₁ := hq.split
  have hc₁ := hc.split
  have hlast := hc.last
  have := hc.nonneg
  have := hc.lt
  have := hq.nonneg
  have := hq.lt
  have := hc.left_le
  unfold IsLeap
  omega

end

/-- The months from January on are those of the next year. -/
theorem shiftMonths_returns {months : I32} {years : I64} (hle : 0 ≤ months.val)
    (hlt : months.val < 12) (hbound : -1000000000000 ≤ years.val)
    (hbound' : years.val ≤ 1000000000000) :
    (shiftMonths months years).Returns fun shifted =>
      (months.val < 10 → shifted.1.val = months.val ∧ shifted.2.val = years.val) ∧
        (10 ≤ months.val →
          shifted.1.val = months.val - 12 ∧ shifted.2.val = years.val + 1) := by
  unfold shiftMonths
  split_ifs with hnext
  · apply Ranged.fit_bind (by omega) (by omega)
    intro months' hmonths'
    apply Ranged.fit_bind (by omega) (by omega)
    intro years' hyears'
    apply Returns.ok
    exact ⟨fun hlow => absurd hnext (not_le_of_gt hlow), fun _ => ⟨hmonths', hyears'⟩⟩
  · apply Returns.ok
    exact ⟨fun _ => ⟨rfl, rfl⟩, fun hhigh => absurd hhigh hnext⟩

/-- A date and the seconds of a day are put together without loss. -/
theorem DateTime.assemble_returns (casts : Casts) {t : Timestamp} (h : t.Canonical) {days : I64}
    {remsecs months remdays : I32} {year : I64}
    (hdays : t.seconds.val = 86400 * (days.val + 11017) + remsecs.val)
    (hsecs : 0 ≤ remsecs.val) (hsecs' : remsecs.val < 86400)
    (hdate : ValidDate year.val (months.val + 3) (remdays.val + 1))
    (hnumber : dayNumber year.val (months.val + 3) (remdays.val + 1) = days.val + 11017) :
    Attempt.Returns (do
      let month : I32 ← Ranged.fit (months.val + 3)
      let month ← casts.cast month.val
      let day : I32 ← Ranged.fit (remdays.val + 1)
      let day ← casts.cast day.val
      let hour ← casts.cast (remsecs.val.tdiv 3600)
      let minute ← casts.cast ((remsecs.val.tdiv 60).tmod 60)
      let second ← casts.cast (remsecs.val.tmod 60)
      let nanos ← casts.cast t.nanos.val
      let dateTime : DateTime := ⟨year, month, day, hour, minute, second, nanos⟩
      let valid ← dateTime.isValid
      Attempt.assert valid
      .ok dateTime) fun dt => dt.isValid = .ok true ∧ dt.total = t.total := by
  obtain ⟨hnanos, hnanos'⟩ := id h
  unfold nanosPerSecond at hnanos'
  obtain ⟨⟨hm, hm'⟩, hd, hd'⟩ := id hdate
  have hlength : monthLength year.val (months.val + 3) ≤ 31 := by
    unfold monthLength
    split_ifs <;> decide
  obtain ⟨hhours, hhours', -⟩ := tdiv_tmod_spec remsecs.val (by decide : (0 : Int) < 3600)
  obtain ⟨hminutes, hminutes', -⟩ := tdiv_tmod_spec remsecs.val (by decide : (0 : Int) < 60)
  have := hhours' hsecs
  have := hminutes' hsecs
  obtain ⟨hhour, hhour', -⟩ :=
    tdiv_tmod_spec (remsecs.val.tdiv 60) (by decide : (0 : Int) < 60)
  have := hhour' (by omega)
  apply Ranged.fit_bind (by omega) (by omega)
  intro month hmonth
  apply Casts.cast_bind (by omega) (by omega)
  intro month' hmonth'
  apply Ranged.fit_bind (by omega) (by omega)
  intro day hday
  apply Casts.cast_bind (by omega) (by omega)
  intro day' hday'
  apply Casts.cast_bind (by omega) (by omega)
  intro hour hhour
  apply Casts.cast_bind (by omega) (by omega)
  intro minute hminute
  apply Casts.cast_bind (by omega) (by omega)
  intro second hsecond
  apply Casts.cast_bind (by omega) (by omega)
  intro nanos hvalue
  obtain ⟨dt, hdt⟩ : ∃ dt, dt = DateTime.mk year month' day' hour minute second nanos := ⟨_, rfl⟩
  have hmonth : dt.month.val = months.val + 3 := by rw [hdt]; exact hmonth'.trans hmonth
  have hday : dt.day.val = remdays.val + 1 := by rw [hdt]; exact hday'.trans hday
  have hcalendar : dt.OnCalendar := by
    unfold OnCalendar
    rw [hmonth, hday, hdt]
    refine ⟨hdate, ?_, ?_, ?_, ?_⟩ <;> dsimp only <;> omega
  have htotal : dt.total = t.total := by
    unfold total seconds Timestamp.total nanosPerSecond
    rw [hmonth, hday, hdt]
    dsimp only
    omega
  have hvalid : dt.isValid = .ok true := by
    rw [isValid_eq_true_iff, htotal]
    exact ⟨hcalendar, Timestamp.covers.mem h⟩
  have hassert : Attempt.assert true = .ok () := rfl
  rw [← hdt]
  dsimp only
  rw [hvalid, ok_bind, hassert, ok_bind]
  exact .ok ⟨hvalid, htotal⟩

/-- Every canonical timestamp is a valid date-time of the same instant. -/
theorem DateTime.fromTimestamp_returns (casts : Casts) {t : Timestamp} (h : t.Canonical) :
    (fromTimestamp casts t).Returns fun dt => dt.isValid = .ok true ∧ dt.total = t.total := by
  have hnormalize : t.normalize = .ok t := t.normalizes.unchanged.mpr h
  rw [fromTimestamp, hnormalize, ok_bind]
  apply (splitDays_returns t.seconds).bind
  rintro ⟨days, remsecs⟩ ⟨hdays, ⟨hsecs, hsecs'⟩, hbound, hbound'⟩
  dsimp only at hdays hsecs hsecs' hbound hbound' ⊢
  apply (splitQcCycles_returns hbound hbound').bind
  rintro ⟨qcCycles, rem₁⟩ ⟨hqc, ⟨hrem, hrem'⟩, hqcs, hqcs'⟩
  dsimp only at hqc hrem hrem' hqcs hqcs' ⊢
  apply (splitCycles_returns (by decide) (by decide) hrem (by omega)).bind
  rintro ⟨cCycles, rem₂⟩ hc
  dsimp only at hc ⊢
  have := hc.left_le
  apply (splitCycles_returns (by decide) (by decide) hc.left_nonneg (by omega)).bind
  rintro ⟨qCycles, rem₃⟩ hq
  dsimp only at hq ⊢
  have hshort : rem₃.val ≤ 4 * 365 := by
    have := hq.split
    have := hq.left_le
    have := hq.last
    omega
  apply (splitCycles_returns (by decide) (by decide) hq.left_nonneg hshort).bind
  rintro ⟨remyears, rem₄⟩ hy
  dsimp only at hy ⊢
  have := hc.nonneg
  have := hc.lt
  have := hq.nonneg
  have := hq.lt
  have := hy.nonneg
  have := hy.lt
  apply Ranged.fit_bind (by omega) (by omega)
  intro quads hquads
  apply Ranged.fit_bind (by omega) (by omega)
  intro centuries hcenturies
  apply Ranged.fit_bind (by omega) (by omega)
  intro cycles hcycles
  apply Ranged.fit_bind (by omega) (by omega)
  intro years₁ hyears₁
  apply Ranged.fit_bind (by omega) (by omega)
  intro years₂ hyears₂
  apply Ranged.fit_bind (by omega) (by omega)
  intro years hyears
  have hmarch := dayNumber_march qcCycles.val hc hq hy
  have hleap := isLeap_next qcCycles.val hc hq hy
  have hsame : remyears.val + 4 * qCycles.val + 100 * cCycles.val + 400 * qcCycles.val =
      years.val := by omega
  rw [hsame] at hmarch hleap
  have hyear : rem₄.val < marchMonths.sum := lt_of_le_of_lt hy.left_le (by decide)
  apply (splitMonths_returns marchMonths 0 le_rfl (by decide)
    hy.left_nonneg hyear (by decide)).bind
  rintro ⟨months, remdays⟩ ⟨k, hk, hmonths, hsplit, hremdays, hin⟩
  dsimp only at hmonths hsplit hremdays hin ⊢
  rw [Ranged.val_zero, zero_add] at hmonths
  obtain ⟨hlow, hhigh⟩ := march_date hmonths hk hremdays hin fun hday => hleap (hsplit.trans hday)
  have hmonths_nonneg : 0 ≤ months.val := by omega
  have hmonths_lt : months.val < 12 := by
    have hlength : marchMonths.length = 12 := rfl
    omega
  apply (shiftMonths_returns hmonths_nonneg hmonths_lt (by omega) (by omega)).bind
  rintro ⟨months', years'⟩ ⟨hsame_year, hnext_year⟩
  dsimp only at hsame_year hnext_year ⊢
  apply Ranged.fit_bind (by omega) (by omega)
  intro year hyear'
  have hdate : ValidDate year.val (months'.val + 3) (remdays.val + 1) ∧
      dayNumber year.val (months'.val + 3) (remdays.val + 1) = days.val + 11017 := by
    by_cases hhalf : months.val < 10
    · obtain ⟨hvalid, hnumber⟩ := hlow hhalf
      obtain ⟨hm, hy'⟩ := hsame_year hhalf
      rw [hyear', hm, hy']
      exact ⟨hvalid, by omega⟩
    · obtain ⟨hvalid, hnumber⟩ := hhigh (not_lt.mp hhalf)
      obtain ⟨hm, hy'⟩ := hnext_year (not_lt.mp hhalf)
      have hmonth : months'.val + 3 = months.val - 9 := by omega
      have hnext : year.val = years.val + 2000 + 1 := by omega
      rw [hmonth, hnext]
      exact ⟨hvalid, by omega⟩
  exact assemble_returns casts h hdays hsecs hsecs' hdate.1 hdate.2

/-- The derived `PartialOrd`. -/
instance : LT Timestamp where
  lt t t' := t.seconds.val < t'.seconds.val ∨
    t.seconds.val = t'.seconds.val ∧ t.nanos.val < t'.nanos.val

theorem Timestamp.lt_iff_total {t t' : Timestamp} (h : t.Canonical) (h' : t'.Canonical) :
    t < t' ↔ t.total < t'.total := by
  have hlt : t < t' ↔ t.seconds.val < t'.seconds.val ∨
      t.seconds.val = t'.seconds.val ∧ t.nanos.val < t'.nanos.val := Iff.rfl
  rw [hlt]
  unfold Canonical total nanosPerSecond at *
  omega

/-- Canonical timestamps and valid date-times are the same instants. Both
conversions return, whether or not casts are checked, and keep the instant, so
that they undo each other and keep the order. A date-time is valid if it is on
the calendar and in between the bounds. -/
theorem timestamps_are_date_times (casts : Casts) :
    (∀ dt : DateTime, dt.isValid = .ok (decide (DateTime.minValue ≤ dt ∧ dt ≤ DateTime.maxValue ∧
      dt.OnCalendar))) ∧
    (∀ t : Timestamp, t.Canonical → ∃ dt, DateTime.fromTimestamp casts t = .ok dt ∧
      dt.isValid = .ok true ∧ dt.total = t.total ∧ Timestamp.tryFromDateTime casts dt = .ok t) ∧
    (∀ dt : DateTime, dt.isValid = .ok true → ∃ t, Timestamp.tryFromDateTime casts dt = .ok t ∧
      t.Canonical ∧ t.total = dt.total ∧ DateTime.fromTimestamp casts t = .ok dt) ∧
    ∀ (t t' : Timestamp) (dt dt' : DateTime), t.Canonical → t'.Canonical →
      DateTime.fromTimestamp casts t = .ok dt → DateTime.fromTimestamp casts t' = .ok dt' →
      (t < t' ↔ dt < dt') := by
  refine ⟨DateTime.isValid_eq, ?_, ?_, ?_⟩
  · intro t h
    obtain ⟨dt, hdt, hvalid, htotal⟩ := DateTime.fromTimestamp_returns casts h
    obtain ⟨t', ht', h', htotal'⟩ := Timestamp.tryFromDateTime_returns casts hvalid
    have hsame : t' = t := Timestamp.covers.inj h' h (htotal'.trans htotal)
    exact ⟨dt, hdt, hvalid, htotal, by rw [ht', hsame]⟩
  · intro dt hvalid
    obtain ⟨t, ht, h, htotal⟩ := Timestamp.tryFromDateTime_returns casts hvalid
    obtain ⟨dt', hdt', hvalid', htotal'⟩ := DateTime.fromTimestamp_returns casts h
    have hcalendar := (DateTime.isValid_eq_true_iff.mp hvalid).1
    have hcalendar' := (DateTime.isValid_eq_true_iff.mp hvalid').1
    have hsame : dt' = dt := DateTime.eq_of_total hcalendar' hcalendar (htotal'.trans htotal)
    exact ⟨t, ht, h, htotal, by rw [hdt', hsame]⟩
  · intro t t' dt dt' h h' hdt hdt'
    obtain ⟨_, hret, hvalid, htotal⟩ := DateTime.fromTimestamp_returns casts h
    obtain ⟨_, hret', hvalid', htotal'⟩ := DateTime.fromTimestamp_returns casts h'
    obtain rfl := Except.ok.inj (hdt.symm.trans hret)
    obtain rfl := Except.ok.inj (hdt'.symm.trans hret')
    have hcalendar := (DateTime.isValid_eq_true_iff.mp hvalid).1
    have hcalendar' := (DateTime.isValid_eq_true_iff.mp hvalid').1
    rw [Timestamp.lt_iff_total h h', DateTime.lt_iff_total hcalendar hcalendar', htotal, htotal']

end Bilrost.Types
