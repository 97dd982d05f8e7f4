import Bilrost.Base.Str
import Bilrost.Types.DateTime

/-!
The texts of durations and timestamps: how they are formatted, and the parsers.
-/

namespace Bilrost.Types

open Decimal Attempt

/-- Subseconds, either nothing, millis, micros, or nanos. -/
def formatNanos (nanos : Nat) (ending : Char) : Str :=
  if nanos = 0 then [ascii ending]
  else if nanos % 1000000 = 0 then ascii '.' :: padded 3 (nanos / 1000000) ++ [ascii ending]
  else if nanos % 1000 = 0 then ascii '.' :: padded 6 (nanos / 1000) ++ [ascii ending]
  else ascii '.' :: padded 9 nanos ++ [ascii ending]

def DateTime.formatYear (year : I64) : Str :=
  if 9999 < year.val then ascii '+' :: formatInt 1 year.val
  else if year.val < 0 then formatInt 5 year.val
  else formatInt 4 year.val

/-- `Display for DateTime` -/
def DateTime.fmt (dt : DateTime) : Str :=
  formatYear dt.year ++ ascii '-' :: formatInt 2 dt.month.val ++
    ascii '-' :: formatInt 2 dt.day.val ++ ascii 'T' :: formatInt 2 dt.hour.val ++
    ascii ':' :: formatInt 2 dt.minute.val ++ ascii ':' :: formatInt 2 dt.second.val ++
    formatNanos dt.nanos.val.toNat 'Z'

/-- `Display for Timestamp` -/
def Timestamp.fmt (casts : Casts) (t : Timestamp) : Attempt Str := do
  let dt ← DateTime.fromTimestamp casts t
  .ok dt.fmt

/-- `Display for Duration` -/
def Duration.fmt (self : Duration) : Attempt Str := do
  let d ← self.normalize
  let sign := if self.seconds.val < 0 ∨ self.nanos.val < 0 then [ascii '-'] else []
  let seconds : I64 ← Ranged.fit |d.seconds.val|
  let nanos : I32 ← Ranged.fit |d.nanos.val|
  .ok (sign ++ formatInt 1 seconds.val ++ formatNanos nanos.val.toNat 's')

def parseChar (s : Str) (c : UInt8) : Attempt Str := do
  Attempt.assert (isAscii s)
  let first ← Attempt.ofOption s.head?
  Attempt.ensure (first == c)
  sliceFrom s 1

def parseCharIgnoreCase (s : Str) (c : UInt8) : Attempt Str := do
  Attempt.assert (isAscii s)
  let first ← Attempt.ofOption s.head?
  Attempt.ensure (toAsciiLowercase first == toAsciiLowercase c)
  sliceFrom s 1

/-- Splits at the first character that is not a digit, or at the end. -/
def parseDigits (s : Str) : Attempt (Str × Str) := do
  Attempt.assert (isAscii s)
  splitAt s (s.findIdx fun c => !decide (IsDigit c))

def parseTwoDigitNumeric (s : Str) : Attempt (U8 × Str) := do
  Attempt.assert (isAscii s)
  Attempt.ensure (2 ≤ s.length)
  Attempt.ensure (s.head? != some (ascii '+'))
  let (digits, s) ← splitAt s 2
  let n ← Attempt.ofOption (parseInt digits)
  .ok (n, s)

/-- The digits of a year behind a plus. -/
def parsePlusYear (s : Str) : Attempt (I64 × Str) := do
  let (digits, s) ← parseDigits s
  Attempt.ensure (5 ≤ digits.length)
  let date ← Attempt.ofOption (parseInt digits)
  .ok (date, s)

/-- The digits of a year behind a minus. -/
def parseMinusYear (s : Str) : Attempt (I64 × Str) := do
  let (digits, s) ← parseDigits s
  Attempt.ensure (4 ≤ digits.length)
  let date : I64 ← Attempt.ofOption (parseInt digits)
  let date ← Ranged.fit (-date.val)
  .ok (date, s)

/-- A year of four digits. -/
def parsePlainYear (s : Str) : Attempt (I64 × Str) := do
  let (n₁, s) ← parseTwoDigitNumeric s
  let (n₂, s) ← parseTwoDigitNumeric s
  let hundreds : I64 ← Ranged.fit (n₁.val * 100)
  let date ← Ranged.fit (hundreds.val + n₂.val)
  .ok (date, s)

/-- The year in one of three formats. -/
def parseYear (s : Str) : Attempt (I64 × Str) := do
  let first ← index s 0
  if first = ascii '+' then do
    let s ← sliceFrom s 1
    parsePlusYear s
  else if first = ascii '-' then do
    let s ← sliceFrom s 1
    parseMinusYear s
  else parsePlainYear s

/-- The month and the day of a date, behind its year. -/
def parseMonthDay (year : I64) (s : Str) : Attempt (I64 × U8 × U8 × Str) := do
  let s ← parseChar s (ascii '-')
  let (month, s) ← parseTwoDigitNumeric s
  let s ← parseChar s (ascii '-')
  let (day, s) ← parseTwoDigitNumeric s
  .ok (year, month, day, s)

def parseDate (s : Str) : Attempt (I64 × U8 × U8 × Str) := do
  Attempt.assert (isAscii s)
  Attempt.ensure (10 ≤ s.length)
  let (year, s) ← parseYear s
  parseMonthDay year s

/-- The digits up to the nanoseconds. -/
def nanoDigits (digits : Str) : Attempt Str :=
  if 9 < digits.length then do
    let (digits, _) ← splitAt digits 9
    .ok digits
  else .ok digits

/-- The nanoseconds of the digits behind the point. -/
def nanosOfDigits (casts : Casts) (digits : Str) : Attempt U32 := do
  let digits ← nanoDigits digits
  let length : U32 ← casts.cast digits.length
  let exponent : U32 ← Ranged.fit (9 - length.val)
  let scale : U32 ← Ranged.fit (10 ^ exponent.val.toNat)
  let fraction : U32 ← Attempt.ofOption (parseInt digits)
  Ranged.fit (scale.val * fraction.val)

/-- The digits behind the point. -/
def parseFraction (casts : Casts) (s : Str) : Attempt (U32 × Str) := do
  let (digits, s) ← parseDigits s
  let nanos ← nanosOfDigits casts digits
  .ok (nanos, s)

def parseNanos (casts : Casts) (s : Str) : Attempt (U32 × Str) := do
  Attempt.assert (isAscii s)
  match ← orNone (parseChar s (ascii '.')) with
  | some s => parseFraction casts s
  | none => .ok (0, s)

def parseTime (casts : Casts) (s : Str) : Attempt (U8 × U8 × U8 × U32 × Str) := do
  Attempt.assert (isAscii s)
  let (hour, s) ← parseTwoDigitNumeric s
  let s ← parseChar s (ascii ':')
  let (minute, s) ← parseTwoDigitNumeric s
  let s ← parseChar s (ascii ':')
  let (second, s) ← parseTwoDigitNumeric s
  let (nanos, s) ← parseNanos casts s
  .ok (hour, minute, second, nanos, s)

/-- The sign of an offset, as whether it is positive. -/
def parseSign (s : Str) : Attempt (Bool × Str) := do
  match ← orNone (parseChar s (ascii '+')) with
  | some s => .ok (true, s)
  | none => do
      let s ← parseChar s (ascii '-')
      .ok (false, s)

/-- Two digits, with or without a colon in front. -/
def parseColonMinute (s : Str) : Attempt (U8 × Str) := do
  let colon ← orNone (parseChar s (ascii ':'))
  parseTwoDigitNumeric (colon.getD s)

/-- The minutes of an offset, which may be left out. -/
def parseOffsetMinute (s : Str) : Attempt (U8 × Str) :=
  if s.isEmpty then .ok (0, s) else parseColonMinute s

/-- The hours and minutes of an offset behind its sign. -/
def parseSigned (casts : Casts) (isPositive : Bool) (s : Str) : Attempt (I8 × I8 × Str) := do
  let (hour, s) ← parseTwoDigitNumeric s
  let (minute, s) ← parseOffsetMinute s
  Attempt.ensure (hour.val < 24 && minute.val < 60)
  let hour : I8 ← casts.cast hour.val
  let minute : I8 ← casts.cast minute.val
  if isPositive then .ok (hour, minute, s)
  else do
    let hour ← Ranged.fit (-hour.val)
    let minute ← Ranged.fit (-minute.val)
    .ok (hour, minute, s)

/-- An offset that is not left out, behind the space. -/
def parseZone (casts : Casts) (s : Str) : Attempt (I8 × I8 × Str) := do
  match ← orNone (parseCharIgnoreCase s (ascii 'Z')) with
  | some s => .ok (0, 0, s)
  | none => do
      let (isPositive, s) ← parseSign s
      parseSigned casts isPositive s

/-- An offset behind the space in front of it, if there is one. -/
def parseSpaceZone (casts : Casts) (s : Str) : Attempt (I8 × I8 × Str) := do
  let space ← orNone (parseChar s (ascii ' '))
  parseZone casts (space.getD s)

def parseOffset (casts : Casts) (s : Str) : Attempt (I8 × I8 × Str) := do
  Attempt.assert (isAscii s)
  if s.isEmpty then .ok (0, 0, s) else parseSpaceZone casts s

/-- The delimiter between date and time. -/
def parseDelimiter (s : Str) : Attempt Str := do
  match ← orNone (parseCharIgnoreCase s (ascii 'T')) with
  | some s => .ok s
  | none => parseChar s (ascii ' ')

/-- A leap second is rolled back to the second before. -/
def rollBack (second : U8) : U8 := if second.val = 60 then .lit 59 else second

/-- The timestamp of a local date-time. -/
def subtractOffset (casts : Casts) (dateTime : DateTime) (offsetHour offsetMinute : I8) :
    Attempt Timestamp := do
  let timestamp ← Timestamp.tryFromDateTime casts dateTime
  let hours : I64 ← Ranged.fit (offsetHour.val * 3600)
  let minutes : I64 ← Ranged.fit (offsetMinute.val * 60)
  let offset : I64 ← Ranged.fit (hours.val + minutes.val)
  let seconds ← Attempt.ofOption (Ranged.fit? (timestamp.seconds.val - offset.val))
  .ok ⟨seconds, timestamp.nanos⟩

/-- The rest of a timestamp behind its date, to the end of the string. -/
def parseClock (casts : Casts) (year : I64) (month day : U8) (s : Str) : Attempt Timestamp := do
  let s ← parseDelimiter s
  let (hour, minute, second, nanos, s) ← parseTime casts s
  let (offsetHour, offsetMinute, s) ← parseOffset casts s
  Attempt.ensure s.isEmpty
  subtractOffset casts ⟨year, month, day, hour, minute, rollBack second, nanos⟩ offsetHour
    offsetMinute

def parseTimestamp (casts : Casts) (s : Str) : Attempt Timestamp := do
  Attempt.ensure (isAscii s)
  let (year, month, day, s) ← parseDate s
  if s.isEmpty then
    Timestamp.tryFromDateTime casts ⟨year, month, day, 0, 0, 0, 0⟩
  else parseClock casts year month day s

/-- If the duration is negative, the sign of the nanos is flipped as well. -/
def spanOf (casts : Casts) (isNegative : Bool) (seconds : I64) (nanos : U32) :
    Attempt Duration := do
  Attempt.ensure (nanos.val < 1000000000)
  let nanos : I32 ← casts.cast nanos.val
  if isNegative then do
    let seconds ← Ranged.fit (-seconds.val)
    let nanos ← Ranged.fit (-nanos.val)
    .ok ⟨seconds, nanos⟩
  else .ok ⟨seconds, nanos⟩

/-- A duration behind its sign, to the end of the string. -/
def parseSpan (casts : Casts) (isNegative : Bool) (s : Str) : Attempt Duration := do
  let (digits, s) ← parseDigits s
  let seconds : I64 ← Attempt.ofOption (parseInt digits)
  let (nanos, s) ← parseNanos casts s
  let s ← parseChar s (ascii 's')
  Attempt.ensure s.isEmpty
  spanOf casts isNegative seconds nanos

def parseDuration (casts : Casts) (s : Str) : Attempt Duration := do
  Attempt.ensure (isAscii s)
  match ← orNone (parseChar s (ascii '-')) with
  | some s => parseSpan casts true s
  | none => parseSpan casts false s

end Bilrost.Types
