import Mathlib.Tactic

/-!
The proleptic Gregorian calendar. Years are integers, and a year is a leap year
by the rule of 400 years whether it is before or after the calendar came into
use. Days are numbered from the start of 1970, one after the other: a year begins
where the one before ends, and so does a month.
-/

namespace Bilrost.Gregorian

/-- The leap years. -/
def IsLeap (y : Int) : Prop := y % 4 = 0 ∧ (y % 100 ≠ 0 ∨ y % 400 = 0)

instance (y : Int) : Decidable (IsLeap y) := inferInstanceAs (Decidable (_ ∧ _))

def yearLength (y : Int) : Int := if IsLeap y then 366 else 365

def monthLength (y : Int) (m : Int) : Int :=
  if m = 2 then (if IsLeap y then 29 else 28)
  else if m = 4 ∨ m = 6 ∨ m = 9 ∨ m = 11 then 30
  else 31

/-- The number of leap years among the first `n` years after the year zero, or
as many less than zero. -/
def leapsTo (n : Int) : Int := n / 4 - n / 100 + n / 400

/-- The number of the first day of a year. -/
def daysBeforeYear (y : Int) : Int := 365 * (y - 1970) + leapsTo (y - 1) - leapsTo 1969

/-- The number of days in the first months of a year. -/
def daysInMonths (y : Int) : Nat → Int
  | 0 => 0
  | n + 1 => daysInMonths y n + monthLength y (n + 1)

def daysBeforeMonth (y m : Int) : Int := daysInMonths y (m - 1).toNat

/-- A month of the year and a day of the month. -/
def ValidDate (y m d : Int) : Prop := (1 ≤ m ∧ m ≤ 12) ∧ 1 ≤ d ∧ d ≤ monthLength y m

instance (y m d : Int) : Decidable (ValidDate y m d) := inferInstanceAs (Decidable (_ ∧ _))

def dayNumber (y m d : Int) : Int := daysBeforeYear y + daysBeforeMonth y m + (d - 1)

theorem daysBeforeYear_succ (y : Int) :
    daysBeforeYear (y + 1) = daysBeforeYear y + yearLength y := by
  unfold daysBeforeYear yearLength leapsTo IsLeap
  split_ifs <;> omega

theorem yearLength_pos (y : Int) : 0 < yearLength y := by
  unfold yearLength
  split_ifs <;> decide

theorem daysBeforeYear_strictMono : StrictMono daysBeforeYear := by
  apply strictMono_int_of_lt_succ
  intro y
  rw [daysBeforeYear_succ]
  exact Int.lt_add_of_pos_right _ (yearLength_pos y)

theorem monthLength_pos (y m : Int) : 0 < monthLength y m := by
  unfold monthLength
  split_ifs <;> decide

/-- The months of a year are as long as the year. -/
theorem daysInMonths_twelve (y : Int) : daysInMonths y 12 = yearLength y := by
  unfold yearLength
  simp only [daysInMonths, monthLength]
  norm_num
  split_ifs <;> rfl

theorem daysInMonths_strictMono (y : Int) : StrictMono (daysInMonths y) :=
  strictMono_nat_of_lt_succ fun _ => Int.lt_add_of_pos_right _ (monthLength_pos y _)

/-- The first days of the months, counted from the start of the year. -/
theorem daysBeforeMonth_eq (y : Int) {m : Int} (hle : 1 ≤ m) (hge : m ≤ 12) :
    daysBeforeMonth y m =
      (if m = 1 then 0 else if m = 2 then 31 else if m = 3 then 59 else if m = 4 then 90
        else if m = 5 then 120 else if m = 6 then 151 else if m = 7 then 181
        else if m = 8 then 212 else if m = 9 then 243 else if m = 10 then 273
        else if m = 11 then 304 else 334) + if 2 < m ∧ IsLeap y then 1 else 0 := by
  obtain ⟨n, rfl⟩ : ∃ n : Nat, m = n + 1 := ⟨(m - 1).toNat, by omega⟩
  have hn : n < 12 := by omega
  have hcast : ((n : Int) + 1 - 1).toNat = n := by omega
  rw [daysBeforeMonth, hcast]
  by_cases hleap : IsLeap y
  · interval_cases n <;> norm_num [daysInMonths, monthLength, hleap]
  · interval_cases n <;> norm_num [daysInMonths, monthLength, hleap]

section
variable {y m d y' m' d' : Int}

/-- The day is in its month. -/
theorem ValidDate.day_lt (h : ValidDate y m d) :
    daysBeforeMonth y m + (d - 1) < daysInMonths y m.toNat := by
  obtain ⟨⟨hm, -⟩, -, hd⟩ := h
  have hsucc : m.toNat = (m - 1).toNat + 1 := by omega
  have hcast : (((m - 1).toNat : Nat) : Int) + 1 = m := by omega
  rw [hsucc, daysInMonths, hcast, daysBeforeMonth]
  omega

/-- The day is in its year. -/
theorem ValidDate.dayNumber_lt (h : ValidDate y m d) : dayNumber y m d < daysBeforeYear (y + 1) := by
  have hday := h.day_lt
  have hmonth : daysInMonths y m.toNat ≤ daysInMonths y 12 :=
    (daysInMonths_strictMono y).monotone (by have := h.1.2; omega)
  rw [daysInMonths_twelve] at hmonth
  rw [daysBeforeYear_succ, dayNumber]
  omega

theorem ValidDate.le_dayNumber (h : ValidDate y m d) : daysBeforeYear y ≤ dayNumber y m d := by
  have hmonth : daysInMonths y 0 ≤ daysInMonths y (m - 1).toNat :=
    (daysInMonths_strictMono y).monotone (Nat.zero_le _)
  have hday := h.2.1
  rw [dayNumber, daysBeforeMonth]
  rw [daysInMonths] at hmonth
  omega

/-- A later year, a later month of the year or a later day of the month is a
later day. -/
theorem dayNumber_lt_of_lt (h : ValidDate y m d) (h' : ValidDate y' m' d')
    (hlt : y < y' ∨ y = y' ∧ (m < m' ∨ m = m' ∧ d < d')) :
    dayNumber y m d < dayNumber y' m' d' := by
  rcases hlt with hyear | ⟨rfl, hmonth | ⟨rfl, hday⟩⟩
  · calc dayNumber y m d < daysBeforeYear (y + 1) := h.dayNumber_lt
      _ ≤ daysBeforeYear y' := daysBeforeYear_strictMono.monotone hyear
      _ ≤ dayNumber y' m' d' := h'.le_dayNumber
  · have hday := h.day_lt
    have hm := h.1.1
    have hd' := h'.2.1
    have hmono : daysInMonths y m.toNat ≤ daysInMonths y (m' - 1).toNat :=
      (daysInMonths_strictMono y).monotone (by omega)
    unfold dayNumber
    unfold daysBeforeMonth at hday ⊢
    omega
  · unfold dayNumber
    omega

end

/-- What a clock shows: a year, a day of it from zero on, and a time of day. -/
@[ext] structure Clock where
  year : Int
  day : Int
  hour : Int
  minute : Int
  second : Int
  nanos : Int

/-- The day is in its year, and the time in its day. -/
def Clock.Valid (r : Clock) : Prop :=
  (0 ≤ r.day ∧ r.day < yearLength r.year) ∧ (0 ≤ r.hour ∧ r.hour < 24) ∧
    (0 ≤ r.minute ∧ r.minute < 60) ∧ 0 ≤ r.second ∧ r.second < 60

/-- The number of the second from the start of 1970, and the nanoseconds of it. -/
def Clock.number (r : Clock) : Int × Int :=
  ((daysBeforeYear r.year + r.day) * 86400 + (r.hour * 3600 + r.minute * 60 + r.second), r.nanos)

/-- Years do not overlap. -/
theorem daysBeforeYear_add_inj {y day y' day' : Int} (hday : 0 ≤ day ∧ day < yearLength y)
    (hday' : 0 ≤ day' ∧ day' < yearLength y')
    (h : daysBeforeYear y + day = daysBeforeYear y' + day') : y = y' ∧ day = day' := by
  have hle {y day y' day' : Int} (hday : day < yearLength y) (hday' : 0 ≤ day')
      (h : daysBeforeYear y + day = daysBeforeYear y' + day') : y' ≤ y := by
    by_contra hlt
    have hmono := daysBeforeYear_strictMono.monotone (show y + 1 ≤ y' by omega)
    rw [daysBeforeYear_succ] at hmono
    omega
  obtain rfl : y = y' := le_antisymm (hle hday'.2 hday.1 h.symm) (hle hday.2 hday'.1 h)
  exact ⟨rfl, by omega⟩

/-- Every second has a number of its own. -/
theorem Clock.number_inj {r r' : Clock} (h : r.Valid) (h' : r'.Valid)
    (heq : r.number = r'.number) : r = r' := by
  obtain ⟨hday, hhour, hminute, hsecond⟩ := h
  obtain ⟨hday', hhour', hminute', hsecond'⟩ := h'
  obtain ⟨hnumber, hnanos⟩ := Prod.ext_iff.mp heq
  simp only [number] at hnumber hnanos
  obtain ⟨hyear, hdays⟩ := daysBeforeYear_add_inj hday hday' (by omega)
  rw [hyear, hdays] at hnumber
  exact Clock.ext hyear hdays (by omega) (by omega) (by omega) hnanos

end Bilrost.Gregorian
