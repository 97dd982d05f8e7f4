import Bilrost.Base.Gregorian
import Bilrost.Guarantees.CalendarParts

/-!
The guarantees of dates, times of day and durations together: every type comes
back from its parts, dates are read as date-times, and the two crates write the
same bytes.
-/

namespace Bilrost

open Program Bilrost.Types

/-- A value has the bytes of a narrower one, and is what they are decoded to. -/
structure ValueCodec.Widens {V W : Type} (narrow : ValueCodec V) (wide : ValueCodec W) (v : V)
    (w : W) (bytes : Bytes) : Prop where
  narrowGives : narrow.Gives v bytes
  wideGives : wide.Gives w bytes
  decodes {β : Type} [Buf β] {buf : β} {rest : Bytes} (mode : DecodingMode) (depth : Nat)
    (value : W) : Buf.bytes buf = bytes ++ rest →
      (wide.decodeValue mode depth value).Leaves buf w rest
  decodesDistinguished {β : Type} [Buf β] {buf : β} {rest : Bytes} (mode : DecodingMode)
    (allowEmpty : Bool) (depth : Nat) (value : W) : Buf.bytes buf = bytes ++ rest →
      (wide.decodeValueDistinguished mode allowEmpty depth value).Leaves buf (w, .canonical) rest

namespace ArrayParts

variable {V W T : Type} {n n' : Nat} [DecidableEq T] [Zero T] {array : ArrayParts V T n}
  {wide : ArrayParts W T n'} {part : VarintScalar T} {acceptable : W → Prop} {v : V} {w : W}
  {arr : List.Vector T n} {arr' : List.Vector T n'}

/-- The same parts are the same bytes. -/
theorem same_bytes (hpart : part.Lawful) (harr : array.parts v = .ok arr)
    (harr' : wide.parts w = .ok arr') (hsame : arr'.toList = padded n' 0 arr.toList) :
    ∃ bytes, (array.support.codec part).Gives v bytes ∧ (wide.support.codec part).Gives w bytes := by
  obtain ⟨hlength, hencode⟩ := encodeProxy_support harr
  obtain ⟨hlength', hencode'⟩ := encodeProxy_support harr'
  have htrimmed : LocalProxy.trimmed (EmptyState.single 0) arr'.toList =
      LocalProxy.trimmed (EmptyState.single 0) arr.toList := by
    rw [hsame, LocalProxy.trimmed_padded (EmptyState.lawful_single 0)]
  simp only [htrimmed] at hencode'
  exact ⟨_, PartsSupport.gives_of_encodeProxy hpart hencode,
    PartsSupport.gives_of_encodeProxy hpart hencode'⟩

/-- Parts that are filled up with zeros are those of a wider value. -/
theorem Inverse.widens (h : wide.Inverse acceptable) (hpart : part.Lawful) (hn : 9 * n' < 2 ^ 64)
    (harr : array.parts v = .ok arr) (harr' : wide.parts w = .ok arr')
    (hsame : arr'.toList = padded n' 0 arr.toList) (hacceptable : acceptable w) :
    ∃ bytes, (array.support.codec part).Widens (wide.support.codec part) v w bytes := by
  obtain ⟨hlength, hencode⟩ := encodeProxy_support harr
  obtain ⟨hlength', hencode'⟩ := encodeProxy_support harr'
  have htrimmed : LocalProxy.trimmed (EmptyState.single 0) arr'.toList =
      LocalProxy.trimmed (EmptyState.single 0) arr.toList := by
    rw [hsame, LocalProxy.trimmed_padded (EmptyState.lawful_single 0)]
  simp only [htrimmed] at hencode'
  have hround := h.roundTrips hpart hn
  have hdistinguishes := h.distinguishes hpart hn
  have hback := hround.back hacceptable hencode'
  refine ⟨_, PartsSupport.gives_of_encodeProxy hpart hencode,
    PartsSupport.gives_of_encodeProxy hpart hencode', ?_, ?_⟩
  · intro β _ buf rest mode depth value hbuf
    exact (hround.decodes mode depth value).mpr ⟨_, _, hbuf, hback⟩
  · intro β _ buf rest mode allowEmpty depth value hbuf
    obtain ⟨canon, hdecode⟩ := hdistinguishes.accepts.mp hback
    obtain rfl := (hdistinguishes.canonical_iff hdecode).mpr hencode'
    exact (hdistinguishes.decodes mode allowEmpty depth value).mpr ⟨_, _, hbuf, hdecode⟩

end ArrayParts

section
variable {NaiveDate NaiveTime NaiveDateTime Date Time PrimitiveDateTime : Type}
  (chrono : ChronoCalendar NaiveDate NaiveTime NaiveDateTime)
  (time : TimeCalendar Date Time PrimitiveDateTime)

/-- The same date in both crates, of which one counts the days from zero. -/
def ChronoCalendar.SameDate (naive : NaiveDate) (date : Date) : Prop :=
  chrono.year naive = time.year date ∧
    (chrono.ordinal0 naive).val + 1 = (time.ordinal date).val

/-- The same time of day in both crates. -/
def ChronoCalendar.SameTime (naive : NaiveTime) (t : Time) : Prop :=
  (chrono.hour naive).val = (time.hour t).val ∧ (chrono.minute naive).val = (time.minute t).val ∧
    (chrono.second naive).val = (time.second t).val ∧
      chrono.nanosecond naive = time.nanosecond t

end

/-- What is expected of the two crates and the standard library. -/
structure CalendarParts {NaiveDate NaiveTime NaiveDateTime Date Time PrimitiveDateTime : Type}
    [DecidableEq Date] [DecidableEq Time]
    (chrono : ChronoCalendar NaiveDate NaiveTime NaiveDateTime)
    (time : TimeCalendar Date Time PrimitiveDateTime) : Prop where
  chronoDate : chrono.naiveDate.support.RoundTrips .rangedI32 chrono.DateAccepted ∧
    chrono.naiveDate.support.Distinguishes .rangedI32
  chronoTime : chrono.naiveTime.support.RoundTrips .rangedU32 chrono.TimeAccepted ∧
    chrono.naiveTime.support.Distinguishes .rangedU32
  chronoDateTime : chrono.naiveDateTime.support.RoundTrips .rangedI32 chrono.DateTimeAccepted ∧
    chrono.naiveDateTime.support.Distinguishes .rangedI32
  timeDate : time.dateParts.support.RoundTrips .rangedI32 time.DateAccepted ∧
    time.dateParts.support.Distinguishes .rangedI32
  timeTime : time.timeParts.support.RoundTrips .rangedU32 time.TimeAccepted ∧
    time.timeParts.support.Distinguishes .rangedU32
  timeDateTime :
    time.primitiveDateTime.support.RoundTrips .rangedI32 time.DateTimeAccepted ∧
      time.primitiveDateTime.support.Distinguishes .rangedI32
  duration : CoreDuration.parts.support.RoundTrips .rangedU64 (fun _ => True) ∧
    CoreDuration.parts.support.Distinguishes .rangedU64
  systemTime : SystemTime.parts.RoundTrips .rangedU64 fun _ => True
  naiveDate_widens {date : NaiveDate} {midnight : NaiveTime} : chrono.DateAccepted date →
    chrono.fromHmsNanoOpt 0 0 0 0 = some midnight →
      ∃ bytes, (chrono.naiveDate.support.codec .rangedI32).Widens
        (chrono.naiveDateTime.support.codec .rangedI32) date (chrono.new date midnight) bytes
  date_widens {date : Date} {midnight : Time} : time.DateAccepted date →
    time.fromHmsNano 0 0 0 0 = some midnight →
      ∃ bytes, (time.dateParts.support.codec .rangedI32).Widens
        (time.primitiveDateTime.support.codec .rangedI32) date (time.new date midnight) bytes
  dates_agree {naive : NaiveDate} {date : Date} : chrono.SameDate time naive date →
    ∃ bytes, (chrono.naiveDate.support.codec .rangedI32).Gives naive bytes ∧
      (time.dateParts.support.codec .rangedI32).Gives date bytes
  times_agree {naive : NaiveTime} {t : Time} : chrono.SameTime time naive t →
    ∃ bytes, (chrono.naiveTime.support.codec .rangedU32).Gives naive bytes ∧
      (time.timeParts.support.codec .rangedU32).Gives t bytes
  dateTimes_agree {naive : NaiveDateTime} {dt : PrimitiveDateTime} :
    chrono.SameDate time (chrono.date naive) (time.date dt) →
      chrono.SameTime time (chrono.time naive) (time.time dt) →
        ∃ bytes, (chrono.naiveDateTime.support.codec .rangedI32).Gives naive bytes ∧
          (time.primitiveDateTime.support.codec .rangedI32).Gives dt bytes

section
variable {NaiveDate NaiveTime NaiveDateTime Date Time PrimitiveDateTime : Type}
  {chrono : ChronoCalendar NaiveDate NaiveTime NaiveDateTime}
  {time : TimeCalendar Date Time PrimitiveDateTime}

theorem ChronoCalendar.Documented.naiveDate_widens (h : chrono.Documented) {date : NaiveDate}
    {midnight : NaiveTime} (hdate : chrono.DateAccepted date)
    (hmidnight : chrono.fromHmsNanoOpt 0 0 0 0 = some midnight) :
    ∃ bytes, (chrono.naiveDate.support.codec .rangedI32).Widens
      (chrono.naiveDateTime.support.codec .rangedI32) date (chrono.new date midnight) bytes := by
  obtain ⟨htime, hhour, hminute, hsecond, hnano⟩ := h.fromHmsNanoOpt_eq_some.mp hmidnight
  have hnarrow : chrono.naiveDate.parts date = .ok _ := rfl
  have hwide : chrono.naiveDateTime.parts (chrono.new date midnight) = .ok _ := rfl
  apply h.inverse_naiveDateTime.widens VarintScalar.lawful_rangedI32 (by decide) hnarrow hwide
  · rw [h.date_new, h.time_new, hhour, hminute, hsecond, hnano]
    rfl
  · rw [DateTimeAccepted, h.date_new, h.time_new]
    exact ⟨hdate, htime⟩

theorem TimeCalendar.Documented.date_widens [DecidableEq Date] [DecidableEq Time]
    (h : time.Documented) {date : Date} {midnight : Time} (hdate : time.DateAccepted date)
    (hmidnight : time.fromHmsNano 0 0 0 0 = some midnight) :
    ∃ bytes, (time.dateParts.support.codec .rangedI32).Widens
      (time.primitiveDateTime.support.codec .rangedI32) date (time.new date midnight) bytes := by
  obtain ⟨htime, hhour, hminute, hsecond, hnano⟩ := h.fromHmsNano_eq_some.mp hmidnight
  obtain ⟨ordinal0, hfit, -, -⟩ := h.fit_ordinal0 date
  have hnarrow : time.dateParts.parts date =
      .ok (time.year date ::ᵥ .wrap ordinal0.val ::ᵥ .nil) := by
    simp only [TimeCalendar.dateParts, hfit, Attempt.ok_bind]
  have hwide : time.primitiveDateTime.parts (time.new date midnight) =
      .ok (time.year date ::ᵥ .wrap ordinal0.val ::ᵥ 0 ::ᵥ 0 ::ᵥ 0 ::ᵥ 0 ::ᵥ .nil) := by
    simp only [TimeCalendar.primitiveDateTime, h.date_new, h.time_new, hfit, Attempt.ok_bind,
      hhour, hminute, hsecond, hnano]
    rfl
  apply h.inverse_primitiveDateTime.widens VarintScalar.lawful_rangedI32 (by decide) hnarrow hwide
  · rfl
  · rw [DateTimeAccepted, h.date_new, h.time_new]
    exact ⟨hdate, htime⟩

variable (htime : time.Documented)
include htime

/-- The two crates have the same days. -/
theorem ChronoCalendar.SameDate.fit_ordinal0 {naive : NaiveDate} {date : Date}
    (h : chrono.SameDate time naive date) : ∃ ordinal0 : U16,
      Ranged.fit ((time.ordinal date).val - 1) = .ok ordinal0 ∧
        ordinal0.val = (chrono.ordinal0 naive).val := by
  obtain ⟨ordinal0, hfit, hval, -⟩ := htime.fit_ordinal0 date
  have hsame := h.2
  exact ⟨ordinal0, hfit, by omega⟩

theorem ChronoCalendar.SameDate.same_bytes [DecidableEq Date] {naive : NaiveDate} {date : Date}
    (h : chrono.SameDate time naive date) :
    ∃ bytes, (chrono.naiveDate.support.codec .rangedI32).Gives naive bytes ∧
      (time.dateParts.support.codec .rangedI32).Gives date bytes := by
  obtain ⟨ordinal0, hfit, hval⟩ := h.fit_ordinal0 htime
  have hparts : time.dateParts.parts date = chrono.naiveDate.parts naive := by
    simp only [TimeCalendar.dateParts, ChronoCalendar.naiveDate, hfit, Attempt.ok_bind, hval, h.1]
  exact ArrayParts.same_bytes VarintScalar.lawful_rangedI32 rfl hparts rfl

theorem ChronoCalendar.SameDate.same_bytes_dateTime [DecidableEq Date] [DecidableEq Time]
    {naive : NaiveDateTime} {dt : PrimitiveDateTime} (hdate : chrono.SameDate time (chrono.date naive) (time.date dt))
    (hclock : chrono.SameTime time (chrono.time naive) (time.time dt)) :
    ∃ bytes, (chrono.naiveDateTime.support.codec .rangedI32).Gives naive bytes ∧
      (time.primitiveDateTime.support.codec .rangedI32).Gives dt bytes := by
  obtain ⟨ordinal0, hfit, hval⟩ := hdate.fit_ordinal0 htime
  obtain ⟨hhour, hminute, hsecond, hnano⟩ := hclock
  have hparts : time.primitiveDateTime.parts dt = chrono.naiveDateTime.parts naive := by
    simp only [TimeCalendar.primitiveDateTime, ChronoCalendar.naiveDateTime, hfit, Attempt.ok_bind,
      hval, hdate.1, hhour, hminute, hsecond, hnano]
  exact ArrayParts.same_bytes VarintScalar.lawful_rangedI32 rfl hparts rfl

end

theorem ChronoCalendar.SameTime.same_bytes {NaiveDate NaiveTime NaiveDateTime Date Time
    PrimitiveDateTime : Type} [DecidableEq Time]
    {chrono : ChronoCalendar NaiveDate NaiveTime NaiveDateTime}
    {time : TimeCalendar Date Time PrimitiveDateTime} {naive : NaiveTime} {t : Time}
    (h : chrono.SameTime time naive t) :
    ∃ bytes, (chrono.naiveTime.support.codec .rangedU32).Gives naive bytes ∧
      (time.timeParts.support.codec .rangedU32).Gives t bytes := by
  obtain ⟨hhour, hminute, hsecond, hnano⟩ := h
  have hwrap {x : U32} {y : U8} (hval : x.val = y.val) : .wrap y.val = x := by
    rw [Ranged.widen_eq_iff (by decide) (by decide), hval]
  have hparts : time.timeParts.parts t = chrono.naiveTime.parts naive := by
    simp only [TimeCalendar.timeParts, ChronoCalendar.naiveTime, hwrap hhour, hwrap hminute,
      hwrap hsecond, hnano]
  exact ArrayParts.same_bytes VarintScalar.lawful_rangedU32 rfl hparts rfl

/-- Assuming what the two crates say about their dates and times, all of them come
back from their parts, with one canonical list each; dates widen to date-times,
and the crates write the same bytes. -/
theorem calendar_parts_round_trip {NaiveDate NaiveTime NaiveDateTime Date Time
    PrimitiveDateTime : Type} [DecidableEq Date] [DecidableEq Time]
    {chrono : ChronoCalendar NaiveDate NaiveTime NaiveDateTime}
    {time : TimeCalendar Date Time PrimitiveDateTime} (hchrono : chrono.Documented)
    (htime : time.Documented) : CalendarParts chrono time := by
  have hboth {V T : Type} {n : Nat} [DecidableEq T] [Zero T] {array : ArrayParts V T n}
      {acceptable : V → Prop} {part : VarintScalar T} (h : array.Inverse acceptable)
      (hpart : part.Lawful) (hn : 9 * n < 2 ^ 64) :
      array.support.RoundTrips part acceptable ∧ array.support.Distinguishes part :=
    ⟨h.roundTrips hpart hn, h.distinguishes hpart hn⟩
  constructor
  · exact hboth hchrono.inverse_naiveDate VarintScalar.lawful_rangedI32 (by decide)
  · exact hboth hchrono.inverse_naiveTime VarintScalar.lawful_rangedU32 (by decide)
  · exact hboth hchrono.inverse_naiveDateTime VarintScalar.lawful_rangedI32 (by decide)
  · exact hboth htime.inverse_dateParts VarintScalar.lawful_rangedI32 (by decide)
  · exact hboth htime.inverse_timeParts VarintScalar.lawful_rangedU32 (by decide)
  · exact hboth htime.inverse_primitiveDateTime VarintScalar.lawful_rangedI32 (by decide)
  · exact hboth CoreDuration.inverse_parts VarintScalar.lawful_rangedU64 (by decide)
  · exact SystemTime.roundTrips_parts
  · exact fun hdate hmidnight => hchrono.naiveDate_widens hdate hmidnight
  · exact fun hdate hmidnight => htime.date_widens hdate hmidnight
  · exact fun hsame => hsame.same_bytes htime
  · exact fun hsame => hsame.same_bytes
  · exact fun hdate hclock => hdate.same_bytes_dateTime htime hclock

/-- A year of some range and a day in it. -/
@[ext] structure OrdinalDate (least greatest : Int) where
  year : I32
  ordinal : U16
  year_mem : least ≤ year.val ∧ year.val ≤ greatest
  ordinal_mem : 1 ≤ ordinal.val ∧ ordinal.val ≤ Gregorian.yearLength year.val
  deriving DecidableEq

/-- A time of day, whose seconds have up to a number of nanoseconds. -/
@[ext] structure ClockTime (nanos : Int) where
  hour : U8
  minute : U8
  second : U8
  nanosecond : U32
  hour_lt : hour.val < 24
  minute_lt : minute.val < 60
  second_lt : second.val < 60
  nanosecond_lt : nanosecond.val < nanos
  deriving DecidableEq

theorem OrdinalDate.ordinal_le {least greatest : Int} (date : OrdinalDate least greatest) :
    date.ordinal.val ≤ 366 := by
  have hmem := date.ordinal_mem
  unfold Gregorian.yearLength at hmem
  split_ifs at hmem <;> omega

/-- The date of a year and a day in it, if there is one. -/
def OrdinalDate.of? (least greatest : Int) (year : I32) (ordinal : Int) :
    Option (OrdinalDate least greatest) :=
  if h : (least ≤ year.val ∧ year.val ≤ greatest) ∧
      1 ≤ ordinal ∧ ordinal ≤ Gregorian.yearLength year.val ∧ ordinal ≤ 366 then
    some ⟨year, ⟨ordinal, by omega, by omega⟩, h.1, h.2.1, h.2.2.1⟩
  else none

theorem OrdinalDate.of?_eq_some {least greatest : Int} {year : I32} {ordinal : Int}
    {date : OrdinalDate least greatest} (h : of? least greatest year ordinal = some date) :
    date.year = year ∧ date.ordinal.val = ordinal := by
  unfold of? at h
  split_ifs at h
  obtain rfl := Option.some.inj h
  exact ⟨rfl, rfl⟩

/-- The time of its parts, if there is one. -/
def ClockTime.of? (nanos : Int) (hour minute second : Int) (nanosecond : U32) :
    Option (ClockTime nanos) :=
  if h : (0 ≤ hour ∧ hour < 24) ∧ (0 ≤ minute ∧ minute < 60) ∧ (0 ≤ second ∧ second < 60) ∧
      nanosecond.val < nanos then
    some ⟨⟨hour, by omega, by omega⟩, ⟨minute, by omega, by omega⟩, ⟨second, by omega, by omega⟩,
      nanosecond, h.1.2, h.2.1.2, h.2.2.1.2, h.2.2.2⟩
  else none

theorem ClockTime.of?_eq_some {nanos : Int} {hour minute second : Int} {nanosecond : U32}
    {t : ClockTime nanos} (h : of? nanos hour minute second nanosecond = some t) :
    t.hour.val = hour ∧ t.minute.val = minute ∧ t.second.val = second ∧
      t.nanosecond = nanosecond := by
  unfold of? at h
  split_ifs at h
  obtain rfl := Option.some.inj h
  exact ⟨rfl, rfl, rfl, rfl⟩

/-- Dates and times of `chrono`. Only the last second of a minute is made with
more than a billion nanoseconds. -/
def ChronoCalendar.ofParts : ChronoCalendar (OrdinalDate (-262143) 262142) (ClockTime 2000000000)
    (OrdinalDate (-262143) 262142 × ClockTime 2000000000) where
  fromYoOpt year ordinal := OrdinalDate.of? _ _ year ordinal.val
  year date := date.year
  ordinal0 date := .wrap (date.ordinal.val - 1)
  fromHmsNanoOpt hour minute second nano :=
    if nano.val < 1000000000 ∨ second.val = 59 then
      ClockTime.of? _ hour.val minute.val second.val nano
    else none
  fromNumSecondsFromMidnightOpt secs nano :=
    if nano.val < 1000000000 ∨ secs.val % 60 = 59 then
      ClockTime.of? _ (secs.val / 3600) (secs.val / 60 % 60) (secs.val % 60) nano
    else none
  hour time := .wrap time.hour.val
  minute time := .wrap time.minute.val
  second time := .wrap time.second.val
  nanosecond time := time.nanosecond
  numSecondsFromMidnight time :=
    .wrap (time.hour.val * 3600 + time.minute.val * 60 + time.second.val)
  new := Prod.mk
  date := Prod.fst
  time := Prod.snd
  emptyDate := ⟨0, firstOrdinal, by decide, by decide⟩
  emptyTime := ⟨0, 0, 0, 0, by decide, by decide, by decide, by decide⟩

/-- Dates and times of `time`. -/
def TimeCalendar.ofParts : TimeCalendar (OrdinalDate (-9999) 9999) (ClockTime 1000000000)
    (OrdinalDate (-9999) 9999 × ClockTime 1000000000) where
  fromOrdinalDate year ordinal := OrdinalDate.of? _ _ year ordinal.val
  year date := date.year
  ordinal date := date.ordinal
  fromHmsNano hour minute second nano := ClockTime.of? _ hour.val minute.val second.val nano
  hour t := t.hour
  minute t := t.minute
  second t := t.second
  nanosecond t := t.nanosecond
  midnight := ⟨0, 0, 0, 0, by decide, by decide, by decide, by decide⟩
  new := Prod.mk
  date := Prod.fst
  time := Prod.snd
  emptyDate := ⟨0, firstOrdinal, by decide, by decide⟩

theorem TimeCalendar.documented_ofParts : TimeCalendar.ofParts.Documented where
  date_ext hyear hordinal := OrdinalDate.ext hyear hordinal
  one_le_ordinal date := date.ordinal_mem.1
  ordinal_le date := date.ordinal_le
  fromOrdinalDate h := by
    obtain ⟨hyear, hordinal⟩ := OrdinalDate.of?_eq_some h
    exact ⟨hyear, Ranged.ext hordinal⟩
  time_ext hhour hminute hsecond hnano := ClockTime.ext hhour hminute hsecond hnano
  nanosecond_lt t := t.nanosecond_lt
  fromHmsNano h := by
    obtain ⟨hhour, hminute, hsecond, hnano⟩ := ClockTime.of?_eq_some h
    exact ⟨Ranged.ext hhour, Ranged.ext hminute, Ranged.ext hsecond, hnano⟩
  midnight := by decide
  date_new _ _ := rfl
  time_new _ _ := rfl
  new_date_time _ := rfl
  emptyDate := by decide

theorem U8.val_widen (n : U8) : (.wrap n.val : U32).val = n.val :=
  (Ranged.widen_eq_iff (by decide) (by decide)).mp rfl |>.symm

theorem ChronoCalendar.val_ordinal0_ofParts (date : OrdinalDate (-262143) 262142) :
    (ofParts.ordinal0 date).val = date.ordinal.val - 1 := by
  have hone := date.ordinal_mem.1
  have hle := date.ordinal_le
  exact Ranged.val_wrap (by omega) (by omega)

theorem ChronoCalendar.documented_ofParts : ChronoCalendar.ofParts.Documented := by
  have hinj {n n' : U8} (h : (.wrap n.val : U32) = .wrap n'.val) : n = n' := by
    rw [Ranged.widen_eq_iff (by decide) (by decide), U8.val_widen] at h
    exact Ranged.ext h
  have hsecs (time : ClockTime 2000000000) : (ofParts.numSecondsFromMidnight time).val =
      time.hour.val * 3600 + time.minute.val * 60 + time.second.val := by
    have := time.hour.le_val
    have := time.minute.le_val
    have := time.second.le_val
    have := time.hour_lt
    have := time.minute_lt
    have := time.second_lt
    exact Ranged.val_wrap (by omega) (by omega)
  constructor
  · intro date date' hyear hsame
    have hval := congrArg Ranged.val hsame
    rw [val_ordinal0_ofParts, val_ordinal0_ofParts] at hval
    exact OrdinalDate.ext hyear (Ranged.ext (by omega))
  · intro date
    have hle := date.ordinal_le
    rw [val_ordinal0_ofParts]
    omega
  · intro year ordinal date h
    obtain ⟨hyear, hval⟩ := OrdinalDate.of?_eq_some h
    rw [val_ordinal0_ofParts]
    exact ⟨hyear, by omega⟩
  · intro time time' hhour hminute hsecond hnano
    exact ClockTime.ext (hinj hhour) (hinj hminute) (hinj hsecond) hnano
  · intro time
    exact (U8.val_widen _).trans_lt time.hour_lt
  · intro time
    exact (U8.val_widen _).trans_lt time.minute_lt
  · intro time
    exact (U8.val_widen _).trans_lt time.second_lt
  · intro time
    exact time.nanosecond_lt
  · intro hour minute second nano time h
    unfold ofParts at h
    dsimp only at h
    split_ifs at h
    obtain ⟨hhour, hminute, hsecond, hnano⟩ := ClockTime.of?_eq_some h
    exact ⟨Ranged.ext ((U8.val_widen _).trans hhour), Ranged.ext ((U8.val_widen _).trans hminute),
      Ranged.ext ((U8.val_widen _).trans hsecond), hnano⟩
  · intro time
    rw [hsecs]
    show _ = (.wrap _ : U32).val * 3600 + (.wrap _ : U32).val * 60 + (.wrap _ : U32).val
    rw [U8.val_widen, U8.val_widen, U8.val_widen]
  · exact fun _ _ => rfl
  · exact fun _ _ => rfl
  · exact fun _ => rfl
  · decide
  · decide
  · intro secs nano time h
    unfold ofParts at h
    dsimp only at h
    split_ifs at h
    obtain ⟨hhour, hminute, hsecond, hnano⟩ := ClockTime.of?_eq_some h
    refine ⟨Ranged.ext ?_, hnano⟩
    rw [hsecs]
    omega

/-- Dates and times that are nothing but their parts. -/
theorem calendar_parts_round_trip_ofParts :
    CalendarParts ChronoCalendar.ofParts TimeCalendar.ofParts :=
  calendar_parts_round_trip ChronoCalendar.documented_ofParts TimeCalendar.documented_ofParts

end Bilrost
