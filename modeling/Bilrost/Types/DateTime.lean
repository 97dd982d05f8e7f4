import Bilrost.Base.Gregorian
import Bilrost.Types.Normalize

/-!
Dates and times of day, and their conversions from and to timestamps. A cast
wraps around, or is strict: then it panics instead of changing the number. What
does not depend on that truncates nothing.
-/

namespace Bilrost.Types

/-- What casts do with numbers that are out of range. -/
inductive Casts where
  | wrapping
  | strict
  deriving DecidableEq, Repr

/-- A cast of `n`. -/
def Casts.cast {lo hi : Int} [HoldsZero lo hi] (casts : Casts) (n : Int) :
    Attempt (Ranged lo hi) :=
  match casts with
  | wrapping => .ok (.wrap n)
  | strict => Ranged.fit n

@[ext] structure DateTime where
  year : I64
  month : U8
  day : U8
  hour : U8
  minute : U8
  second : U8
  nanos : U32
  deriving DecidableEq, Repr

/-- `trailing_zeros`, with the number of bits. -/
def trailingZeros : Nat → Int → Nat
  | 0, _ => 0
  | bits + 1, n => if n % 2 = 0 then trailingZeros bits (n / 2) + 1 else 0

/-- `year_to_seconds` for the years from 1901 to 2038, which count from 1900. -/
def fastYearToSeconds (year : I64) : Attempt (I128 × Bool) := do
  let since : I64 ← Ranged.fit (year.val - 68)
  let leaps : I64 := ⟨since.val / 4, by have := since.le_val; omega, by have := since.val_le; omega⟩
  let isLeap := decide (2 ≤ trailingZeros 64 since.val)
  let leaps ← (if isLeap then Ranged.fit (leaps.val - 1) else .ok leaps : Attempt I64)
  let years : I64 ← Ranged.fit (year.val - 70)
  let yearSeconds : I64 ← Ranged.fit (31536000 * years.val)
  let leapSeconds : I64 ← Ranged.fit (86400 * leaps.val)
  let seconds : I64 ← Ranged.fit (yearSeconds.val + leapSeconds.val)
  let seconds ← Ranged.fit seconds.val
  .ok (seconds, isLeap)

/-- Whole centuries of up to 400 years, and the years that are left. -/
def splitCenturies (rem : I64) : Attempt (I64 × I64) :=
  if 200 ≤ rem.val then
    if 300 ≤ rem.val then do
      let rem ← Ranged.fit (rem.val - 300)
      .ok (.lit 3, rem)
    else do
      let rem ← Ranged.fit (rem.val - 200)
      .ok (.lit 2, rem)
  else if 100 ≤ rem.val then do
    let rem ← Ranged.fit (rem.val - 100)
    .ok (.lit 1, rem)
  else .ok (0, rem)

/-- Whether the year is a leap year, with the centuries and the leap years of the
last century. -/
def splitCycle (rem : I64) : Attempt (Bool × I64 × I64) :=
  if rem.val = 0 then .ok (true, 0, 0)
  else do
    let (centuries, rem) ← splitCenturies rem
    if rem.val = 0 then .ok (false, centuries, 0)
    else do
      let leaps ← Ranged.fit (rem.val.tdiv 4)
      let rem : I64 ← Ranged.fit (rem.val.tmod 4)
      .ok (decide (rem.val = 0), centuries, leaps)

/-- Cycles of 400 years, rounded down. -/
def splitYears (years : I64) : Attempt (I64 × I64) := do
  let cycles : I64 ← Ranged.fit (years.val.tdiv 400)
  let rem : I64 ← Ranged.fit (years.val.tmod 400)
  if rem.val < 0 then do
    let cycles ← Ranged.fit (cycles.val - 1)
    let rem ← Ranged.fit (rem.val + 400)
    .ok (cycles, rem)
  else .ok (cycles, rem)

/-- `year_to_seconds` for the other years, which count from 1900. -/
def slowYearToSeconds (year : I64) : Attempt (I128 × Bool) := do
  let years : I64 ← Ranged.fit (year.val - 100)
  let (cycles, rem) ← splitYears years
  let (isLeap, centuries, leaps) ← splitCycle rem
  let cycleLeaps : I64 ← Ranged.fit (97 * cycles.val)
  let centuryLeaps : I64 ← Ranged.fit (24 * centuries.val)
  let added : I64 ← Ranged.fit (cycleLeaps.val + centuryLeaps.val)
  let added : I64 ← Ranged.fit (added.val - isLeap.toNat)
  let leaps : I64 ← Ranged.fit (leaps.val + added.val)
  let yearSeconds : I64 ← Ranged.fit (years.val * 31536000)
  let leapSeconds : I64 ← Ranged.fit (leaps.val * 86400)
  let leapSeconds : I64 ← Ranged.fit (leapSeconds.val + 946684800)
  let leapSeconds : I64 ← Ranged.fit (leapSeconds.val + 86400)
  let seconds ← Ranged.fit (yearSeconds.val + leapSeconds.val)
  .ok (seconds, isLeap)

def yearToSeconds (year : I64) : Attempt (I128 × Bool) := do
  let year : I64 ← Ranged.fit (year.val - 1900)
  if 1 ≤ year.val ∧ year.val ≤ 138 then fastYearToSeconds year else slowYearToSeconds year

/-- An item of a table, which panics if there is none. -/
def index {α : Type} (table : List α) (i : Nat) : Attempt α := Attempt.unwrap table[i]?

def daysInMonth (year : I64) (month : U8) : Attempt U8 := do
  let (_, isLeap) ← yearToSeconds year
  let i : U8 ← Ranged.fit (month.val - 1)
  let days ← index [31, 28, 31, 30, 31, 30, 31, 31, 30, 31, 30, 31] i.val.toNat
  Ranged.fit (days + (isLeap && month.val = 2).toNat)

def monthToSeconds (month : U8) (isLeap : Bool) : Attempt U32 := do
  let i : U8 ← Ranged.fit (month.val - 1)
  let t ← index [0, 31 * 86400, 59 * 86400, 90 * 86400, 120 * 86400, 151 * 86400, 181 * 86400,
    212 * 86400, 243 * 86400, 273 * 86400, 304 * 86400, 334 * 86400] i.val.toNat
  if isLeap && decide (2 < month.val) then Ranged.fit (t + 86400) else Ranged.fit t

namespace DateTime

/-- The fields in the order in which date-times are compared. -/
def key (dt : DateTime) : Int ×ₗ Int ×ₗ Int ×ₗ Int ×ₗ Int ×ₗ Int ×ₗ Int :=
  toLex (dt.year.val, toLex (dt.month.val, toLex (dt.day.val, toLex (dt.hour.val,
    toLex (dt.minute.val, toLex (dt.second.val, dt.nanos.val))))))

theorem key_injective : Function.Injective key := by
  intro dt dt' h
  simp only [key, EmbeddingLike.apply_eq_iff_eq, Prod.mk.injEq] at h
  obtain ⟨hyear, hmonth, hday, hhour, hminute, hsecond, hnanos⟩ := h
  exact DateTime.ext (Ranged.ext hyear) (Ranged.ext hmonth) (Ranged.ext hday) (Ranged.ext hhour)
    (Ranged.ext hminute) (Ranged.ext hsecond) (Ranged.ext hnanos)

/-- The derived `Ord`. -/
instance : LinearOrder DateTime := LinearOrder.lift' key key_injective

/-- `DateTime::MIN` -/
def minValue : DateTime :=
  ⟨.lit (-292277022657), .lit 1, .lit 27, .lit 8, .lit 29, .lit 52, 0⟩

/-- `DateTime::MAX` -/
def maxValue : DateTime :=
  ⟨.lit 292277026596, .lit 12, .lit 4, .lit 15, .lit 30, .lit 7, .lit 999999999⟩

/-- `is_valid`, which looks up the length of the month only of a month. -/
def isValid (dt : DateTime) : Attempt Bool :=
  if minValue ≤ dt ∧ dt ≤ maxValue ∧ 1 ≤ dt.month.val ∧ dt.month.val ≤ 12 then do
    let days ← daysInMonth dt.year dt.month
    .ok (decide ((1 ≤ dt.day.val ∧ dt.day.val ≤ days.val) ∧ dt.hour.val < 24 ∧
      dt.minute.val < 60 ∧ dt.second.val < 60 ∧ dt.nanos.val < 1000000000))
  else .ok false

/-- `date_time_to_seconds` -/
def toSeconds (casts : Casts) (tm : DateTime) : Attempt I64 := do
  let (startOfYear, isLeap) ← yearToSeconds tm.year
  let months ← monthToSeconds tm.month isLeap
  let days : U8 ← Ranged.fit (tm.day.val - 1)
  let days : U32 ← Ranged.fit (86400 * days.val)
  let hours : U32 ← Ranged.fit (3600 * tm.hour.val)
  let minutes : U32 ← Ranged.fit (60 * tm.minute.val)
  let within : U32 ← Ranged.fit (months.val + days.val)
  let within : U32 ← Ranged.fit (within.val + hours.val)
  let within : U32 ← Ranged.fit (within.val + minutes.val)
  let within : U32 ← Ranged.fit (within.val + tm.second.val)
  let seconds : I128 ← Ranged.fit (startOfYear.val + within.val)
  casts.cast seconds.val

end DateTime

/-- `TryFrom<DateTime> for Timestamp`, with nothing for its only error. -/
def Timestamp.tryFromDateTime (casts : Casts) (dateTime : DateTime) : Attempt Timestamp := do
  let valid ← dateTime.isValid
  Attempt.ensure valid
  let seconds ← dateTime.toSeconds casts
  let nanos ← casts.cast dateTime.nanos.val
  .ok ⟨seconds, nanos⟩

/-- Days since the first of March 2000, and the seconds of the day. -/
def splitDays (casts : Casts) (t : I64) : Attempt (I64 × I32) := do
  let leapoch : I64 ← Ranged.fit (946684800 + 86400 * (31 + 29))
  let days : I64 ← Ranged.fit (t.val.tdiv 86400)
  let epochDays : I64 ← Ranged.fit (leapoch.val.tdiv 86400)
  let days : I64 ← Ranged.fit (days.val - epochDays.val)
  let rem : I64 ← Ranged.fit (t.val.tmod 86400)
  let remsecs : I32 ← casts.cast rem.val
  if remsecs.val < 0 then do
    let remsecs ← Ranged.fit (remsecs.val + 86400)
    let days ← Ranged.fit (days.val - 1)
    .ok (days, remsecs)
  else .ok (days, remsecs)

/-- Cycles of 400 years, and the days that are left. -/
def splitQcCycles (casts : Casts) (days : I64) : Attempt (I32 × I32) := do
  let cycles : I64 ← Ranged.fit (days.val.tdiv 146097)
  let qcCycles : I32 ← casts.cast cycles.val
  let rem : I64 ← Ranged.fit (days.val.tmod 146097)
  let remdays : I32 ← casts.cast rem.val
  if remdays.val < 0 then do
    let remdays ← Ranged.fit (remdays.val + 146097)
    let qcCycles ← Ranged.fit (qcCycles.val - 1)
    .ok (qcCycles, remdays)
  else .ok (qcCycles, remdays)

/-- Cycles of `length` days, of which there are less than `count`, and the days
that are left. The last cycle may be a day longer. -/
def splitCycles (length count : Int) (remdays : I32) : Attempt (I32 × I32) := do
  let cycles : I32 ← Ranged.fit (remdays.val.tdiv length)
  let cycles ← (if cycles.val = count then Ranged.fit (cycles.val - 1) else .ok cycles : Attempt I32)
  let taken : I32 ← Ranged.fit (cycles.val * length)
  let remdays ← Ranged.fit (remdays.val - taken.val)
  .ok (cycles, remdays)

/-- The loop over the months, from March on. -/
def splitMonths : List Int → I32 → I32 → Attempt (I32 × I32)
  | [], _, _ => .error .panic
  | length :: lengths, months, remdays =>
      if length ≤ remdays.val then do
        let remdays ← Ranged.fit (remdays.val - length)
        let months ← Ranged.fit (months.val + 1)
        splitMonths lengths months remdays
      else .ok (months, remdays)

/-- January and February belong to the next year. -/
def shiftMonths (months : I32) (years : I64) : Attempt (I32 × I64) :=
  if 10 ≤ months.val then do
    let months ← Ranged.fit (months.val - 12)
    let years ← Ranged.fit (years.val + 1)
    .ok (months, years)
  else .ok (months, years)

/-- `From<Timestamp> for DateTime` -/
def DateTime.fromTimestamp (casts : Casts) (timestamp : Timestamp) : Attempt DateTime := do
  let timestamp ← timestamp.normalize
  let (days, remsecs) ← splitDays casts timestamp.seconds
  let (qcCycles, remdays) ← splitQcCycles casts days
  let (cCycles, remdays) ← splitCycles 36524 4 remdays
  let (qCycles, remdays) ← splitCycles 1461 25 remdays
  let (remyears, remdays) ← splitCycles 365 4 remdays
  let quads : I64 ← Ranged.fit (4 * qCycles.val)
  let centuries : I64 ← Ranged.fit (100 * cCycles.val)
  let cycles : I64 ← Ranged.fit (400 * qcCycles.val)
  let years : I64 ← Ranged.fit (remyears.val + quads.val)
  let years : I64 ← Ranged.fit (years.val + centuries.val)
  let years : I64 ← Ranged.fit (years.val + cycles.val)
  let (months, remdays) ←
    splitMonths [31, 30, 31, 30, 31, 31, 30, 31, 30, 31, 31, 29] 0 remdays
  let (months, years) ← shiftMonths months years
  let year ← Ranged.fit (years.val + 2000)
  let month : I32 ← Ranged.fit (months.val + 3)
  let month ← casts.cast month.val
  let day : I32 ← Ranged.fit (remdays.val + 1)
  let day ← casts.cast day.val
  let hour ← casts.cast (remsecs.val.tdiv 3600)
  let minute ← casts.cast ((remsecs.val.tdiv 60).tmod 60)
  let second ← casts.cast (remsecs.val.tmod 60)
  let nanos ← casts.cast timestamp.nanos.val
  let dateTime : DateTime := ⟨year, month, day, hour, minute, second, nanos⟩
  let valid ← dateTime.isValid
  Attempt.assert valid
  .ok dateTime

end Bilrost.Types
