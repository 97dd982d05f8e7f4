import Bilrost.Types.Years

/-!
Date-times and timestamps are two spellings of the same instants. A date-time
stands for a number of nanoseconds by the number of its day, and both conversions
keep that number; it is also what either is ordered by.
-/

namespace Bilrost.Types

open Gregorian Attempt

theorem Casts.cast_bind {δ : Type} {lo hi n : Int} [HoldsZero lo hi] {casts : Casts}
    {f : Ranged lo hi → Attempt δ} {P : δ → Prop} (hle : lo ≤ n) (hge : n ≤ hi)
    (hf : ∀ x, x.val = n → (f x).Returns P) : (casts.cast n >>= f).Returns P := by
  cases casts with
  | wrapping => exact hf _ (Ranged.val_wrap hle hge)
  | strict => exact Ranged.fit_bind hle hge hf

theorem Casts.cast_returns {lo hi n : Int} [HoldsZero lo hi] {casts : Casts}
    {P : Ranged lo hi → Prop} (hle : lo ≤ n) (hge : n ≤ hi) (h : ∀ x, x.val = n → P x) :
    (casts.cast n).Returns P := by
  cases casts with
  | wrapping => exact .ok (h _ (Ranged.val_wrap hle hge))
  | strict => exact Ranged.fit_returns hle hge h

namespace DateTime

/-- The exact number of seconds since the epoch. -/
def seconds (dt : DateTime) : Int :=
  86400 * dayNumber dt.year.val dt.month.val dt.day.val + 3600 * dt.hour.val + 60 * dt.minute.val +
    dt.second.val

/-- The exact number of nanoseconds since the epoch. -/
def total (dt : DateTime) : Int := dt.seconds * nanosPerSecond + dt.nanos.val

/-- A day of the calendar and a time of the day. -/
def OnCalendar (dt : DateTime) : Prop :=
  ValidDate dt.year.val dt.month.val dt.day.val ∧ dt.hour.val < 24 ∧ dt.minute.val < 60 ∧
    dt.second.val < 60 ∧ dt.nanos.val < 1000000000

instance (dt : DateTime) : Decidable dt.OnCalendar := inferInstanceAs (Decidable (_ ∧ _))

/-- Date-times are compared field by field. -/
theorem lt_iff {dt dt' : DateTime} : dt < dt' ↔ dt.year.val < dt'.year.val ∨
    dt.year.val = dt'.year.val ∧ (dt.month.val < dt'.month.val ∨
    dt.month.val = dt'.month.val ∧ (dt.day.val < dt'.day.val ∨
    dt.day.val = dt'.day.val ∧ (dt.hour.val < dt'.hour.val ∨
    dt.hour.val = dt'.hour.val ∧ (dt.minute.val < dt'.minute.val ∨
    dt.minute.val = dt'.minute.val ∧ (dt.second.val < dt'.second.val ∨
    dt.second.val = dt'.second.val ∧ dt.nanos.val < dt'.nanos.val))))) := by
  have hkey : dt < dt' ↔ dt.key < dt'.key := Iff.rfl
  simp only [hkey, key, Prod.Lex.toLex_lt_toLex]

theorem total_lt_of_lt {dt dt' : DateTime} (h : dt.OnCalendar) (h' : dt'.OnCalendar)
    (hlt : dt < dt') : dt.total < dt'.total := by
  obtain ⟨hdate, hhour, hminute, hsecond, hnanos⟩ := h
  obtain ⟨hdate', hhour', hminute', hsecond', hnanos'⟩ := h'
  have hday := dayNumber_lt_of_lt hdate hdate'
  have := dt.hour.le_val
  have := dt.minute.le_val
  have := dt.second.le_val
  have := dt.nanos.le_val
  have := dt'.hour.le_val
  have := dt'.minute.le_val
  have := dt'.second.le_val
  have := dt'.nanos.le_val
  rw [lt_iff] at hlt
  unfold total seconds nanosPerSecond
  by_cases hsame : dt.year.val = dt'.year.val ∧ dt.month.val = dt'.month.val ∧
      dt.day.val = dt'.day.val
  · obtain ⟨hyear, hmonth, hday⟩ := hsame
    rw [hyear, hmonth, hday] at hlt ⊢
    omega
  · have hday := hday (by omega)
    omega

/-- Of two date-times on the calendar the later one is the greater one. -/
theorem lt_iff_total {dt dt' : DateTime} (h : dt.OnCalendar) (h' : dt'.OnCalendar) :
    dt < dt' ↔ dt.total < dt'.total := by
  constructor
  · exact total_lt_of_lt h h'
  · intro htotal
    rcases lt_trichotomy dt dt' with hlt | rfl | hgt
    · exact hlt
    · exact absurd htotal (lt_irrefl _)
    · exact absurd (total_lt_of_lt h' h hgt) htotal.not_gt

theorem eq_of_total {dt dt' : DateTime} (h : dt.OnCalendar) (h' : dt'.OnCalendar)
    (htotal : dt.total = dt'.total) : dt = dt' := by
  rcases lt_trichotomy dt dt' with hlt | heq | hgt
  · exact absurd htotal (total_lt_of_lt h h' hlt).ne
  · exact heq
  · exact absurd htotal (total_lt_of_lt h' h hgt).ne'

theorem le_iff_total {dt dt' : DateTime} (h : dt.OnCalendar) (h' : dt'.OnCalendar) :
    dt ≤ dt' ↔ dt.total ≤ dt'.total := by
  rw [← not_lt, lt_iff_total h' h, not_lt]

theorem year_le_of_le {dt dt' : DateTime} (h : dt ≤ dt') : dt.year.val ≤ dt'.year.val := by
  have hnot := not_lt.mpr h
  rw [lt_iff] at hnot
  omega

theorem onCalendar_minValue : minValue.OnCalendar := by decide

theorem onCalendar_maxValue : maxValue.OnCalendar := by decide

theorem total_minValue : minValue.total = Timestamp.leastTotal := by decide

theorem total_maxValue : maxValue.total = Timestamp.greatestTotal := by decide

end DateTime

theorem index_returns {α : Type} {table : List α} {i : Nat} {P : α → Prop} {a : α}
    (hget : table[i]? = some a) (h : P a) : (index table i).Returns P := ⟨a, by simp [index, hget], h⟩

/-- The length of a month, from that in a year that is no leap year. -/
theorem monthLength_eq (y m : Int) :
    monthLength y m = monthLength 1 m + if m = 2 ∧ IsLeap y then 1 else 0 := by
  have hone : ¬IsLeap 1 := by decide
  unfold monthLength
  by_cases hm : m = 2
  · by_cases hleap : IsLeap y <;> simp [hm, hone, hleap]
  · simp [hm]

theorem daysBeforeMonth_eq_add (y : Int) {m : Int} (hle : 1 ≤ m) (hge : m ≤ 12) :
    daysBeforeMonth y m = daysBeforeMonth 1 m + if 2 < m ∧ IsLeap y then 1 else 0 := by
  have hone : ¬IsLeap 1 := by decide
  rw [daysBeforeMonth_eq y hle hge, daysBeforeMonth_eq 1 hle hge]
  simp [hone]

theorem daysInMonth_returns {year : I64} {month : U8} (hle : -292277022657 ≤ year.val)
    (hge : year.val ≤ 292277026596) (hmonth : 1 ≤ month.val) (hmonth' : month.val ≤ 12) :
    (daysInMonth year month).Returns fun days => days.val = monthLength year.val month.val := by
  have htable (n : Nat) (hn : n < 12) :
      ([31, 28, 31, 30, 31, 30, 31, 31, 30, 31, 30, 31] : List Int)[n]? =
        some (monthLength 1 (n + 1)) := by
    interval_cases n <;> decide
  have hlength : 0 < monthLength 1 month.val ∧ monthLength 1 month.val ≤ 31 := by
    unfold monthLength
    split_ifs <;> decide
  unfold daysInMonth
  apply (yearToSeconds_returns hle hge).bind
  rintro ⟨start, isLeap⟩ ⟨-, hleap⟩
  dsimp only at hleap ⊢
  apply Ranged.fit_bind (by omega) (by omega)
  intro i hi
  have hindex : ((i.val.toNat : Nat) : Int) + 1 = month.val := by omega
  have hentry := htable i.val.toNat (by omega)
  rw [hindex] at hentry
  apply (index_returns hentry rfl : Returns _ fun days => days = monthLength 1 month.val).bind
  rintro days rfl
  have hextra : (((isLeap && decide (month.val = 2)).toNat : Nat) : Int) =
      if month.val = 2 ∧ IsLeap year.val then 1 else 0 := by
    by_cases hm : month.val = 2
    · have hbool : isLeap = decide (IsLeap year.val) := Bool.eq_iff_iff.mpr (by simpa using hleap)
      by_cases hy : IsLeap year.val <;> simp [hm, hy, hbool]
    · simp [hm]
  rw [hextra]
  apply Ranged.fit_returns
  · split_ifs <;> omega
  · split_ifs <;> omega
  · intro days hdays
    exact hdays.trans (monthLength_eq year.val month.val).symm

/-- The seconds of the year before a month. -/
theorem monthToSeconds_returns {month : U8} {isLeap : Bool} {y : Int} (hmonth : 1 ≤ month.val)
    (hmonth' : month.val ≤ 12) (hleap : isLeap = true ↔ IsLeap y) :
    (monthToSeconds month isLeap).Returns fun t =>
      t.val = 86400 * daysBeforeMonth y month.val ∧ t.val ≤ 86400 * 335 := by
  have htable (n : Nat) (hn : n < 12) :
      ([0, 31 * 86400, 59 * 86400, 90 * 86400, 120 * 86400, 151 * 86400, 181 * 86400, 212 * 86400,
        243 * 86400, 273 * 86400, 304 * 86400, 334 * 86400] : List Int)[n]? =
        some (86400 * daysBeforeMonth 1 (n + 1)) := by
    interval_cases n <;> decide
  have hdays : 0 ≤ daysBeforeMonth 1 month.val ∧ daysBeforeMonth 1 month.val ≤ 334 := by
    have hmono := (daysInMonths_strictMono 1).monotone
    exact ⟨hmono (Nat.zero_le _), hmono (by omega : (month.val - 1).toNat ≤ 11)⟩
  unfold monthToSeconds
  apply Ranged.fit_bind (by omega) (by omega)
  intro i hi
  have hindex : ((i.val.toNat : Nat) : Int) + 1 = month.val := by omega
  have hentry := htable i.val.toNat (by omega)
  rw [hindex] at hentry
  apply (index_returns hentry rfl : Returns _ fun t => t = 86400 * daysBeforeMonth 1 month.val).bind
  rintro t rfl
  rw [daysBeforeMonth_eq_add y hmonth hmonth']
  by_cases hextra : 2 < month.val ∧ IsLeap y
  · rw [if_pos (by simpa [hleap] using hextra.symm), if_pos hextra]
    apply Ranged.fit_returns (by omega) (by omega)
    intro t ht
    omega
  · rw [if_neg (by simpa [hleap, and_comm] using hextra), if_neg hextra]
    apply Ranged.fit_returns (by omega) (by omega)
    intro t ht
    omega

namespace DateTime

variable {dt : DateTime}

/-- A date-time is valid if it is on the calendar and in the range of timestamps. -/
theorem isValid_eq (dt : DateTime) :
    dt.isValid = .ok (decide (minValue ≤ dt ∧ dt ≤ maxValue ∧ dt.OnCalendar)) := by
  unfold isValid
  by_cases hrange : minValue ≤ dt ∧ dt ≤ maxValue ∧ 1 ≤ dt.month.val ∧ dt.month.val ≤ 12
  · rw [if_pos hrange]
    obtain ⟨hmin, hmax, hmonth⟩ := hrange
    obtain ⟨days, hdays, hlength⟩ := daysInMonth_returns (year_le_of_le hmin) (year_le_of_le hmax)
      hmonth.1 hmonth.2
    rw [hdays, ok_bind, hlength]
    simp only [OnCalendar, ValidDate, hmin, hmax, hmonth, true_and]
  · rw [if_neg hrange]
    have hnot : ¬(minValue ≤ dt ∧ dt ≤ maxValue ∧ dt.OnCalendar) := by
      rintro ⟨hmin, hmax, hcalendar⟩
      exact hrange ⟨hmin, hmax, hcalendar.1.1⟩
    rw [decide_eq_false hnot]

theorem isValid_eq_true_iff : dt.isValid = .ok true ↔ dt.OnCalendar ∧
    Timestamp.leastTotal ≤ dt.total ∧ dt.total ≤ Timestamp.greatestTotal := by
  rw [isValid_eq, Except.ok.injEq, decide_eq_true_iff, ← total_minValue, ← total_maxValue]
  constructor
  · rintro ⟨hmin, hmax, h⟩
    exact ⟨h, (le_iff_total onCalendar_minValue h).mp hmin, (le_iff_total h onCalendar_maxValue).mp hmax⟩
  · rintro ⟨h, hmin, hmax⟩
    exact ⟨(le_iff_total onCalendar_minValue h).mpr hmin, (le_iff_total h onCalendar_maxValue).mpr hmax, h⟩

/-- The seconds of a date-time in the range. -/
theorem toSeconds_returns {casts : Casts} (h : dt.OnCalendar) (hmin : minValue ≤ dt)
    (hmax : dt ≤ maxValue) : (dt.toSeconds casts).Returns fun s => s.val = dt.seconds := by
  obtain ⟨⟨⟨hm, hm'⟩, hd, hd'⟩, hhour, hminute, hsecond, hnanos⟩ := id h
  have hlength : monthLength dt.year.val dt.month.val ≤ 31 := by
    unfold monthLength
    split_ifs <;> decide
  have := dt.hour.le_val
  have := dt.minute.le_val
  have := dt.second.le_val
  have := dt.nanos.le_val
  have hrange : -9223372036854775808 ≤ dt.seconds ∧ dt.seconds ≤ 9223372036854775807 := by
    have hle := (le_iff_total onCalendar_minValue h).mp hmin
    have hge := (le_iff_total h onCalendar_maxValue).mp hmax
    rw [total_minValue] at hle
    rw [total_maxValue] at hge
    unfold total Timestamp.leastTotal Timestamp.greatestTotal nanosPerSecond at *
    omega
  unfold toSeconds
  apply (yearToSeconds_returns (year_le_of_le hmin) (year_le_of_le hmax)).bind
  rintro ⟨startOfYear, isLeap⟩ ⟨hstart, hleap⟩
  dsimp only at hstart hleap ⊢
  apply (monthToSeconds_returns hm hm' hleap).bind
  rintro months ⟨hmonths, hbound⟩
  have := months.le_val
  apply Ranged.fit_bind (by omega) (by omega)
  intro days hdays
  apply Ranged.fit_bind (by omega) (by omega)
  intro daySeconds hdaySeconds
  apply Ranged.fit_bind (by omega) (by omega)
  intro hours hhours
  apply Ranged.fit_bind (by omega) (by omega)
  intro minutes hminutes
  apply Ranged.fit_bind (by omega) (by omega)
  intro within₁ hwithin₁
  apply Ranged.fit_bind (by omega) (by omega)
  intro within₂ hwithin₂
  apply Ranged.fit_bind (by omega) (by omega)
  intro within₃ hwithin₃
  apply Ranged.fit_bind (by omega) (by omega)
  intro within₄ hwithin₄
  have hsum : startOfYear.val + within₄.val = dt.seconds := by
    unfold seconds dayNumber
    omega
  apply Ranged.fit_bind (by omega) (by omega)
  intro seconds hseconds
  apply Casts.cast_returns (by omega) (by omega)
  intro s hs
  omega

end DateTime

/-- A valid date-time is the canonical timestamp of the same instant. -/
theorem Timestamp.tryFromDateTime_returns (casts : Casts) {dt : DateTime}
    (h : dt.isValid = .ok true) :
    (tryFromDateTime casts dt).Returns fun t => t.Canonical ∧ t.total = dt.total := by
  rw [tryFromDateTime, h, ok_bind]
  rw [DateTime.isValid_eq, Except.ok.injEq, decide_eq_true_iff] at h
  obtain ⟨hmin, hmax, hcalendar⟩ := h
  have hnanos := hcalendar.2.2.2.2
  have := dt.nanos.le_val
  have hensure : ensure true = .ok () := rfl
  rw [hensure, ok_bind]
  apply (DateTime.toSeconds_returns hcalendar hmin hmax).bind
  intro seconds hseconds
  apply Casts.cast_bind (by omega) (by omega)
  intro nanos hval
  apply Returns.ok
  unfold Canonical total DateTime.total nanosPerSecond
  rw [hval, hseconds]
  exact ⟨⟨by omega, hnanos⟩, rfl⟩

end Bilrost.Types
