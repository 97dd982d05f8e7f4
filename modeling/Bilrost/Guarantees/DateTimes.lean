import Bilrost.Guarantees.Calendar
import Bilrost.Guarantees.Offsets

/-!
Date-times with an offset in the two crates. Both write the parts of a clock and
the offset, but one writes the clock without the offset, and the other the clock
with it: they are the same only if the offset is zero.
-/

namespace Bilrost

open Gregorian Program Bilrost.Types

/-- The numbers that a clock shows. -/
def Gregorian.Clock.toList (r : Clock) : List Int :=
  [r.year, r.day, r.hour, r.minute, r.second, r.nanos]

theorem Gregorian.Clock.toList_inj {r r' : Clock} : r.toList = r'.toList ↔ r = r' := by
  simp only [toList, List.cons.injEq, and_true, Clock.ext_iff]

/-- The parts of a date-time are the numbers that a clock shows. -/
theorem map_val_eq_toList {arr : List.Vector I32 6} {r : Clock} :
    arr.toList.map Ranged.val = r.toList ↔ (r.year = (arr.get 0).val ∧ r.day = (arr.get 1).val) ∧
      r.hour = (arr.get 2).val ∧ r.minute = (arr.get 3).val ∧ r.second = (arr.get 4).val ∧
        r.nanos = (arr.get 5).val := by
  have harr := congrArg List.Vector.toList
    ((@eq_vector_six I32 _ _ _ _ _ _ arr).mpr ⟨⟨rfl, rfl⟩, rfl, rfl, rfl, rfl⟩)
  rw [← harr]
  simp only [Clock.toList, List.Vector.toList_cons, List.Vector.toList_nil, List.map_cons,
    List.map_nil, List.cons.injEq, and_true, and_assoc, eq_comm]

/-- The seconds of an offset. -/
def OffsetParts.total (parts : OffsetParts) : Int :=
  parts.1.val * 60 * 60 + parts.2.1.val * 60 + parts.2.2.val

/-- The parts of an offset have one sign, and minutes and seconds are carried. -/
def OffsetParts.Normal (parts : OffsetParts) : Prop :=
  TimeZones.SameSigns parts ∧ (-60 < parts.2.1.val ∧ parts.2.1.val < 60) ∧
    -60 < parts.2.2.val ∧ parts.2.2.val < 60

theorem OffsetParts.Normal.total_inj {parts parts' : OffsetParts} (h : parts.Normal)
    (h' : parts'.Normal) (htotal : parts.total = parts'.total) : parts = parts' := by
  obtain ⟨hours, mins, secs⟩ := parts
  obtain ⟨hours', mins', secs'⟩ := parts'
  simp only [Normal, TimeZones.SameSigns, total] at h h' htotal
  obtain ⟨hhours, hmins, hsecs⟩ : hours.val = hours'.val ∧ mins.val = mins'.val ∧
      secs.val = secs'.val := by omega
  rw [Ranged.ext hhours, Ranged.ext hmins, Ranged.ext hsecs]

/-- A value is what both ways to decode it return for some bytes in front of
others, however they are stored, and it is canonical. -/
structure ValueCodec.DecodesTo {T : Type} (codec : ValueCodec T) (bytes : Bytes) (value : T) :
    Prop where
  decodeValue {β : Type} [Buf β] {buf : β} {rest : Bytes} (mode : DecodingMode) :
    Buf.bytes buf = bytes ++ rest →
      (codec.decodeValue mode recursionLimit codec.forOverwrite).Leaves buf value rest
  decodeValueDistinguished {β : Type} [Buf β] {buf : β} {rest : Bytes} (mode : DecodingMode) :
    Buf.bytes buf = bytes ++ rest →
      (codec.decodeValueDistinguished mode true recursionLimit codec.forOverwrite).Leaves buf
        (value, .canonical) rest

section
variable {T : Type} {codec : ValueCodec T} {allowed : Features} {value : T} {bytes : Bytes}

/-- However a value is encoded, it is encoded as the same bytes. -/
theorem Built.gives (h : Built allowed (.value codec)) (harrays : ¬allowed.emptyArrays)
    (hhashed : ¬allowed.hashed) (hencode : codec.encodeValue value = some bytes) :
    codec.Gives value bytes := by
  have hwrites : codec.Writes (¬allowed.hashed) := h.writes harrays
  exact ⟨hencode, hwrites.prepend hhashed hencode, hwrites.encodedLen hencode⟩

theorem Built.valueDecodesTo (h : Built allowed (.value codec))
    (hback : ∀ way mode, codec.ReadsBack way mode true recursionLimit value)
    (hencode : codec.encodeValue value = some bytes) (hlt : bytes.length < 2 ^ 64) :
    codec.DecodesTo bytes value := by
  have hregular : codec.Regular := h.regular
  have hprogram (way : Way) (mode : DecodingMode) :=
    hregular.regular way mode true recursionLimit codec.forOverwrite
  have hparse (way : Way) (mode : DecodingMode) (rest : Bytes) :
      (codec.decodeBy way mode true recursionLimit codec.forOverwrite).Parses (bytes ++ rest)
        (value, .canonical) rest :=
    (h.cuts.isLocal way mode true recursionLimit _).append (hback way mode _ hencode hlt) rest
  constructor
  · intro β _ buf rest mode hbuf
    have hrelaxed : (asCanonical (codec.decodeValue mode recursionLimit codec.forOverwrite)).Regular :=
      hprogram .relaxed mode
    rw [leaves_iff hrelaxed.of_asCanonical, hbuf]
    exact (parses_asCanonical.mp (hparse .relaxed mode rest)).1
  · intro β _ buf rest mode hbuf
    refine (leaves_iff (hprogram .distinguished mode)).mpr ?_
    rw [hbuf]
    exact hparse .distinguished mode rest

end

/-- A type of date-times with an offset: how it is encoded, and the instant and
the offset, in seconds, that a value stands for. -/
structure Zoned (Z : Type) where
  codec : ValueCodec Z
  instant : Z → Int × Int
  offset : Z → Int

section
variable {Z Z' : Type} (zoned : Zoned Z) (other : Zoned Z')

/-- The same instant and the same offset. -/
def Zoned.Corresponds (z : Z) (z' : Z') : Prop :=
  zoned.instant z = other.instant z' ∧ zoned.offset z = other.offset z'

/-- What a value is encoded as is decoded as another type to the same instant and
the same offset. -/
def Zoned.DecodesAs (z : Z) : Prop :=
  ∃ bytes z', zoned.codec.Gives z bytes ∧ other.codec.DecodesTo bytes z' ∧
    zoned.Corresponds other z z'

/-- Values are encoded as the same bytes, which are decoded as either type. -/
structure Zoned.Interchangeable (z : Z) (z' : Z') : Prop where
  gives : ∃ bytes, zoned.codec.Gives z bytes ∧ other.codec.Gives z' bytes
  decodesAs : zoned.DecodesAs other z
  decodesAs' : other.DecodesAs zoned z'

end

namespace ChronoCalendar

variable {NaiveDate NaiveTime NaiveDateTime : Type}
  (chrono : ChronoCalendar NaiveDate NaiveTime NaiveDateTime)

/-- What a clock shows at a date-time. -/
def reading (dt : NaiveDateTime) : Clock where
  year := (chrono.year (chrono.date dt)).val
  day := (chrono.ordinal0 (chrono.date dt)).val
  hour := (chrono.hour (chrono.time dt)).val
  minute := (chrono.minute (chrono.time dt)).val
  second := (chrono.second (chrono.time dt)).val
  nanos := (chrono.nanosecond (chrono.time dt)).val

/-- What `chrono` says about its calendar, which is the Gregorian one: every date
is made from its year and day, and every time from its parts, unless it is in a
leap second. -/
structure Proleptic : Prop where
  ordinal0_lt (date : NaiveDate) :
    (chrono.ordinal0 date).val < yearLength (chrono.year date).val
  dateAccepted (date : NaiveDate) : chrono.DateAccepted date
  timeAccepted {time : NaiveTime} :
    (chrono.nanosecond time).val < 1000000000 → chrono.TimeAccepted time

theorem Documented.valid_reading {chrono : ChronoCalendar NaiveDate NaiveTime NaiveDateTime}
    (h : chrono.Documented) (hcalendar : chrono.Proleptic) (dt : NaiveDateTime) :
    (chrono.reading dt).Valid :=
  ⟨⟨Ranged.le_val _, hcalendar.ordinal0_lt _⟩, ⟨Ranged.le_val _, h.hour_lt _⟩,
    ⟨Ranged.le_val _, h.minute_lt _⟩, Ranged.le_val _, h.second_lt _⟩

end ChronoCalendar

namespace TimeCalendar

variable {Date Time PrimitiveDateTime : Type} (time : TimeCalendar Date Time PrimitiveDateTime)

/-- What a clock shows at a time of a date. -/
def reading (date : Date) (t : Time) : Clock where
  year := (time.year date).val
  day := (time.ordinal date).val - 1
  hour := (time.hour t).val
  minute := (time.minute t).val
  second := (time.second t).val
  nanos := (time.nanosecond t).val

/-- What `time` says about its calendar, which is the Gregorian one. -/
structure Proleptic : Prop where
  ordinal_le (date : Date) : (time.ordinal date).val ≤ yearLength (time.year date).val
  hour_lt (t : Time) : (time.hour t).val < 24
  minute_lt (t : Time) : (time.minute t).val < 60
  second_lt (t : Time) : (time.second t).val < 60
  dateAccepted (date : Date) : time.DateAccepted date
  timeAccepted (t : Time) : time.TimeAccepted t

theorem Documented.valid_reading {time : TimeCalendar Date Time PrimitiveDateTime}
    (h : time.Documented) (hcalendar : time.Proleptic) (date : Date) (t : Time) :
    (time.reading date t).Valid := by
  have hone := h.one_le_ordinal date
  have hle := hcalendar.ordinal_le date
  refine ⟨?_, ⟨Ranged.le_val _, hcalendar.hour_lt _⟩, ⟨Ranged.le_val _, hcalendar.minute_lt _⟩,
    Ranged.le_val _, hcalendar.second_lt _⟩
  show 0 ≤ (time.ordinal date).val - 1 ∧
    (time.ordinal date).val - 1 < yearLength (time.year date).val
  omega

end TimeCalendar

/-- A date-time with an offset in `chrono`. -/
def ChronoZones.zoned {NaiveDate NaiveTime NaiveDateTime FixedOffset DateTime : Type}
    (zones : ChronoZones NaiveDateTime FixedOffset DateTime)
    (chrono : ChronoCalendar NaiveDate NaiveTime NaiveDateTime) : Zoned DateTime where
  codec := zones.dateTimeCodec chrono
  instant dt := (chrono.reading (zones.naiveUtc dt)).number
  offset dt := (zones.localMinusUtc (zones.offset dt)).val

namespace TimeZones

variable {Date Time PrimitiveDateTime UtcOffset OffsetDateTime : Type}
  (zones : TimeZones Date Time PrimitiveDateTime UtcOffset OffsetDateTime)

/-- A date-time with an offset in `time`, whose clock is ahead by the offset. -/
def zoned [DecidableEq Date] [DecidableEq Time] [DecidableEq UtcOffset]
    (time : TimeCalendar Date Time PrimitiveDateTime) : Zoned OffsetDateTime where
  codec := zones.offsetDateTimeCodec time
  instant odt := (time.reading (zones.date odt) (zones.time odt)).number -
    ((zones.asHms (zones.offset odt)).total, 0)
  offset odt := (zones.asHms (zones.offset odt)).total

end TimeZones

/-- A date-time with an offset is written as what a clock that is so many seconds
ahead of it shows, and the parts of the offset. -/
structure Zoned.WrittenAhead {Z : Type} (zoned : Zoned Z) (z : Z) (seconds : Int) (r : Clock)
    (parts : OffsetParts) : Prop where
  encode : ∃ arr : List.Vector I32 6, arr.toList.map Ranged.val = r.toList ∧
    zoned.codec.encodeValue z = zonedBytes arr parts
  valid : r.Valid
  number : r.number = zoned.instant z + (seconds, 0)
  normal : parts.Normal
  total : parts.total = zoned.offset z

/-- Date-times that correspond are written as the same bytes if and only if they
are written by clocks that show the same. -/
theorem Zoned.Corresponds.encodeValue_eq_iff {Z Z' : Type} {zoned : Zoned Z} {other : Zoned Z'}
    {z : Z} {z' : Z'} {seconds seconds' : Int} {r r' : Clock} {parts parts' : OffsetParts}
    (h : zoned.Corresponds other z z') (hz : zoned.WrittenAhead z seconds r parts)
    (hz' : other.WrittenAhead z' seconds' r' parts') :
    zoned.codec.encodeValue z = other.codec.encodeValue z' ↔ seconds = seconds' := by
  obtain ⟨hinstant, hoffset⟩ := h
  obtain ⟨arr, harr, hencode⟩ := hz.encode
  obtain ⟨arr', harr', hencode'⟩ := hz'.encode
  have hparts : parts = parts' :=
    hz.normal.total_inj hz'.normal (hz.total.trans (hoffset.trans hz'.total.symm))
  have hreading : arr = arr' ↔ r = r' := by
    have hinjective : Function.Injective (Ranged.val : I32 → Int) := fun _ _ => Ranged.ext
    rw [← Clock.toList_inj, ← harr, ← harr', (List.map_injective_iff.mpr hinjective).eq_iff,
      List.Vector.toList_injective.eq_iff]
  rw [hencode, hencode', zonedBytes_inj, hreading]
  constructor
  · rintro ⟨rfl, -⟩
    have hnumber := hz.number.symm.trans hz'.number
    rw [hinstant, add_right_inj] at hnumber
    exact congrArg Prod.fst hnumber
  · rintro rfl
    refine ⟨Clock.number_inj hz.valid hz'.valid ?_, hparts⟩
    rw [hz.number, hz'.number, hinstant]

section
variable {NaiveDate NaiveTime NaiveDateTime FixedOffset DateTime : Type}
  {chrono : ChronoCalendar NaiveDate NaiveTime NaiveDateTime}
  {zones : ChronoZones NaiveDateTime FixedOffset DateTime}

/-- In `chrono` the clock is that without the offset. -/
theorem ChronoZones.Documented.writtenAhead (h : zones.Documented) (hchrono : chrono.Documented)
    (hcalendar : chrono.Proleptic) (dt : DateTime) :
    (zones.zoned chrono).WrittenAhead dt 0 (chrono.reading (zones.naiveUtc dt))
      (zones.fixedOffset.encodeProxy (zones.offset dt)) := by
  refine ⟨?_, hchrono.valid_reading hcalendar _, (add_zero _).symm, ?_, ?_⟩
  · obtain ⟨arr, harr⟩ := hchrono.inverse_naiveDateTime.parts_returns (zones.naiveUtc dt)
    refine ⟨arr, map_val_eq_toList.mpr (hchrono.parts_naiveDateTime.mp harr), ?_⟩
    exact ZonedSupport.encodeValue_eq (zones.dateTime chrono) hchrono.inverse_naiveDateTime
      hchrono.determines_naiveDateTime h.lossless_fixedOffset harr
  · rcases hparts : zones.fixedOffset.encodeProxy (zones.offset dt) with ⟨hours, mins, secs⟩
    obtain ⟨-, hsigns, -, hmins, hsecs⟩ := h.encodeProxy_fixedOffset hparts
    refine ⟨hsigns, ?_⟩
    show (-60 < mins.val ∧ mins.val < 60) ∧ -60 < secs.val ∧ secs.val < 60
    omega
  · rcases hparts : zones.fixedOffset.encodeProxy (zones.offset dt) with ⟨hours, mins, secs⟩
    exact (h.encodeProxy_fixedOffset hparts).1

end

section
variable {Date Time PrimitiveDateTime UtcOffset OffsetDateTime : Type} [DecidableEq Date]
  [DecidableEq Time] [DecidableEq UtcOffset]
  {zones : TimeZones Date Time PrimitiveDateTime UtcOffset OffsetDateTime}
  {time : TimeCalendar Date Time PrimitiveDateTime}

/-- In `time` the clock is that with the offset. -/
theorem TimeZones.Documented.writtenAhead (h : zones.Documented time) (htime : time.Documented)
    (hcalendar : time.Proleptic) (odt : OffsetDateTime) :
    (zones.zoned time).WrittenAhead odt ((zones.zoned time).offset odt)
      (time.reading (zones.date odt) (zones.time odt)) (zones.asHms (zones.offset odt)) := by
  refine ⟨?_, htime.valid_reading hcalendar _ _, (sub_add_cancel _ _).symm, ?_, rfl⟩
  · obtain ⟨arr, harr⟩ :=
      htime.inverse_primitiveDateTime.parts_returns (zones.odtDecompose time odt).1
    refine ⟨arr, map_val_eq_toList.mpr ?_, ?_⟩
    · have hparts := htime.parts_primitiveDateTime.mp harr
      simp only [TimeZones.odtDecompose, htime.date_new, htime.time_new] at hparts
      exact hparts
    · exact ZonedSupport.encodeValue_eq (zones.offsetDateTime time) htime.inverse_primitiveDateTime
        htime.determines_primitiveDateTime h.lossless_utcOffset harr
  · exact ⟨h.sameSigns _, h.mins_lt _, h.secs_lt _⟩

end

namespace ZonedSupport

variable {Z N O : Type} {support : ZonedSupport Z N O} {naive : ArrayParts N I32 6}
  {offset : OffsetSupport O} {acceptable : N → Prop} (hnaive : naive.Inverse acceptable)
  (hdetermines : naive.Determines) (hoffset : offset.Lossless)
include hnaive hdetermines hoffset

variable (support) in
theorem exists_gives (z : Z) : ∃ bytes, (support.codec naive.support offset).Gives z bytes := by
  have hbuilt : Built .proxied (.value (support.codec naive.support offset)) :=
    built hnaive hdetermines hoffset trivial
  obtain ⟨bytes, hencode, -⟩ :=
    exists_encodeValue support hnaive hdetermines hoffset z
  exact ⟨bytes, hbuilt.gives not_false not_false hencode⟩

/-- What a date-time with an offset is encoded as is decoded to it, if its
date-time is made from its parts. -/
theorem Lossless.decodesTo (h : support.Lossless naive offset) {z : Z} {bytes : Bytes}
    (hz : acceptable (support.encodeProxy z).1)
    (hencode : (support.codec naive.support offset).encodeValue z = some bytes) :
    (support.codec naive.support offset).DecodesTo bytes z := by
  have hbuilt : Built .proxied (.value (support.codec naive.support offset)) :=
    built hnaive hdetermines hoffset trivial
  obtain ⟨bytes', hbytes, hle⟩ :=
    exists_encodeValue support hnaive hdetermines hoffset z
  obtain rfl := Option.some.inj (hbytes.symm.trans hencode)
  refine hbuilt.valueDecodesTo (fun way mode => ?_) hencode (hle.trans_lt (by decide))
  have hdepth : recursionLimit = 98 + 2 := rfl
  rw [hdepth]
  exact h.readsBack hnaive hdetermines hoffset (by decide) hz (.inl rfl)

end ZonedSupport

/-- Assuming what the two crates say about them, date-times at the same instant
and the same offset are interchangeable if and only if the offset is zero. -/
theorem date_times_interchange_iff {NaiveDate NaiveTime NaiveDateTime FixedOffset DateTime Date Time
    PrimitiveDateTime UtcOffset OffsetDateTime : Type} [DecidableEq Date] [DecidableEq Time]
    [DecidableEq UtcOffset] {chrono : ChronoCalendar NaiveDate NaiveTime NaiveDateTime}
    {chronoZones : ChronoZones NaiveDateTime FixedOffset DateTime}
    {time : TimeCalendar Date Time PrimitiveDateTime}
    {timeZones : TimeZones Date Time PrimitiveDateTime UtcOffset OffsetDateTime}
    (hchrono : chrono.Documented) (hproleptic : chrono.Proleptic)
    (hchronoZones : chronoZones.Documented) (htime : time.Documented)
    (hproleptic' : time.Proleptic) (htimeZones : timeZones.Documented time) {dt : DateTime}
    {odt : OffsetDateTime}
    (h : (chronoZones.zoned chrono).Corresponds (timeZones.zoned time) dt odt) :
    (chronoZones.zoned chrono).Interchangeable (timeZones.zoned time) dt odt ↔
      (chronoZones.localMinusUtc (chronoZones.offset dt)).val = 0 := by
  have hiff := h.encodeValue_eq_iff (hchronoZones.writtenAhead hchrono hproleptic dt)
    (htimeZones.writtenAhead htime hproleptic' odt)
  have hoffset : (timeZones.zoned time).offset odt =
      (chronoZones.localMinusUtc (chronoZones.offset dt)).val := h.2.symm
  rw [hoffset, eq_comm (a := (0 : Int))] at hiff
  constructor
  · rintro ⟨⟨bytes, hgives, hgives'⟩, -, -⟩
    exact hiff.mp (hgives.encode.trans hgives'.encode.symm)
  · intro hzero
    have hsame := hiff.mpr hzero
    obtain ⟨bytes, hgives⟩ := ZonedSupport.exists_gives
      (chronoZones.dateTime chrono) hchrono.inverse_naiveDateTime
      hchrono.determines_naiveDateTime hchronoZones.lossless_fixedOffset dt
    obtain ⟨bytes', hgives'⟩ := ZonedSupport.exists_gives
      (timeZones.offsetDateTime time) htime.inverse_primitiveDateTime
      htime.determines_primitiveDateTime htimeZones.lossless_utcOffset odt
    obtain rfl : bytes = bytes' :=
      Option.some.inj (hgives.encode.symm.trans (hsame.trans hgives'.encode))
    have hback : (chronoZones.zoned chrono).codec.DecodesTo bytes dt := by
      apply hchronoZones.lossless_dateTime.decodesTo hchrono.inverse_naiveDateTime
        hchrono.determines_naiveDateTime hchronoZones.lossless_fixedOffset _ hgives.encode
      refine ⟨hproleptic.dateAccepted _, hproleptic.timeAccepted ?_⟩
      -- the other crate has no leap seconds
      have hnanos : (chrono.nanosecond (chrono.time (chronoZones.naiveUtc dt))).val =
          (time.nanosecond (timeZones.time odt)).val - 0 := congrArg Prod.snd h.1
      have hlt := htime.nanosecond_lt (timeZones.time odt)
      show (chrono.nanosecond (chrono.time (chronoZones.naiveUtc dt))).val < 1000000000
      omega
    have hback' : (timeZones.zoned time).codec.DecodesTo bytes odt := by
      apply (htimeZones.lossless_offsetDateTime htime).decodesTo htime.inverse_primitiveDateTime
        htime.determines_primitiveDateTime htimeZones.lossless_utcOffset _ hgives'.encode
      exact ⟨hproleptic'.dateAccepted _, hproleptic'.timeAccepted _⟩
    exact ⟨⟨bytes, hgives, hgives'⟩, ⟨bytes, odt, hgives, hback', h⟩,
      ⟨bytes, dt, hgives', hback, h.1.symm, h.2.symm⟩⟩

/-- Dates and times of `chrono` that are nothing but their parts are Gregorian. -/
theorem ChronoCalendar.proleptic_ofParts : ChronoCalendar.ofParts.Proleptic where
  ordinal0_lt date := by
    have hle : date.ordinal.val ≤ yearLength date.year.val := date.ordinal_mem.2
    rw [val_ordinal0_ofParts]
    exact Int.sub_one_lt_of_le hle
  dateAccepted date := by
    have hle := date.ordinal_le
    have hone := date.ordinal_mem.1
    refine ⟨⟨date.ordinal.val, by omega, by omega⟩, ?_, ?_⟩
    · rw [val_ordinal0_ofParts]
      exact (Int.sub_add_cancel _ _).symm
    · exact Option.isSome_dite.mpr ⟨date.year_mem, hone, date.ordinal_mem.2, hle⟩
  timeAccepted {time} hnanos := by
    show (ite _ _ _ : Option (ClockTime 2000000000)).isSome
    rw [if_pos (.inl hnanos)]
    refine Option.isSome_dite.mpr ?_
    show (0 ≤ (.wrap _ : U32).val ∧ (.wrap _ : U32).val < 24) ∧
      (0 ≤ (.wrap _ : U32).val ∧ (.wrap _ : U32).val < 60) ∧
        (0 ≤ (.wrap _ : U32).val ∧ (.wrap _ : U32).val < 60) ∧ _
    rw [U8.val_widen, U8.val_widen, U8.val_widen]
    exact ⟨⟨time.hour.le_val, time.hour_lt⟩, ⟨time.minute.le_val, time.minute_lt⟩,
      ⟨time.second.le_val, time.second_lt⟩, time.nanosecond_lt⟩

theorem TimeCalendar.proleptic_ofParts : TimeCalendar.ofParts.Proleptic where
  ordinal_le date := date.ordinal_mem.2
  hour_lt := ClockTime.hour_lt
  minute_lt := ClockTime.minute_lt
  second_lt := ClockTime.second_lt
  dateAccepted date := Option.isSome_dite.mpr
    ⟨date.year_mem, date.ordinal_mem.1, date.ordinal_mem.2, date.ordinal_le⟩
  timeAccepted t := Option.isSome_dite.mpr ⟨⟨t.hour.le_val, t.hour_lt⟩,
    ⟨t.minute.le_val, t.minute_lt⟩, ⟨t.second.le_val, t.second_lt⟩, t.nanosecond_lt⟩

/-- Offsets of `chrono`, as numbers of seconds, and date-times with them. -/
def ChronoZones.ofParts {NaiveDateTime : Type} : ChronoZones NaiveDateTime
    { secs : I32 // -86400 < secs.val ∧ secs.val < 86400 }
    (NaiveDateTime × { secs : I32 // -86400 < secs.val ∧ secs.val < 86400 }) where
  eastOpt secs := if h : -86400 < secs.val ∧ secs.val < 86400 then some ⟨secs, h⟩ else none
  localMinusUtc := Subtype.val
  emptyOffset := ⟨0, by decide⟩
  fromNaiveUtcAndOffset := Prod.mk
  naiveUtc := Prod.fst
  offset := Prod.snd

theorem ChronoZones.documented_ofParts {NaiveDateTime : Type} :
    (@ofParts NaiveDateTime).Documented where
  offset_ext := Subtype.ext
  lt_day := Subtype.property
  eastOpt {secs offset} h := by
    simp only [ofParts] at h
    split_ifs at h
    exact congrArg Subtype.val (Option.some.inj h).symm
  eastOpt_isSome {secs} hgt hlt := by
    simp only [ofParts, dif_pos (And.intro hgt hlt), Option.isSome_some]
  emptyOffset := rfl
  naiveUtc _ _ := rfl
  offset _ _ := rfl
  fromNaiveUtcAndOffset _ := rfl

instance (parts : OffsetParts) : Decidable parts.Normal :=
  inferInstanceAs (Decidable ((_ ∧ _ ∧ _ ∨ _ ∧ _ ∧ _) ∧ (_ ∧ _) ∧ _ ∧ _))

/-- The parts of an offset of up to 25 hours. -/
def HmsOffset : Type :=
  { parts : OffsetParts // parts.Normal ∧ -25 ≤ parts.1.val ∧ parts.1.val ≤ 25 }

instance : DecidableEq HmsOffset := inferInstanceAs (DecidableEq { _parts : OffsetParts // _ })

/-- Offsets of `time`, as their parts, and date-times with them. -/
def TimeZones.ofParts {Date Time : Type} (unixEpoch : Date × Time) :
    TimeZones Date Time (Date × Time) HmsOffset ((Date × Time) × HmsOffset) where
  utc := ⟨(0, 0, 0), by decide⟩
  fromHms hours mins secs :=
    if h : OffsetParts.Normal (hours, mins, secs) ∧ -25 ≤ hours.val ∧ hours.val ≤ 25 then
      some ⟨_, h⟩
    else none
  asHms := Subtype.val
  unixEpoch := (unixEpoch, ⟨(0, 0, 0), by decide⟩)
  replaceOffset odt offset := (odt.1, offset)
  replaceDateTime odt dt := (dt, odt.2)
  date odt := odt.1.1
  time odt := odt.1.2
  offset odt := odt.2

theorem TimeZones.documented_ofParts
    (unixEpoch : OrdinalDate (-9999) 9999 × ClockTime 1000000000) :
    (ofParts unixEpoch).Documented TimeCalendar.ofParts where
  offset_ext := Subtype.ext
  sameSigns offset := offset.property.1.1
  mins_lt offset := offset.property.1.2.1
  secs_lt offset := offset.property.1.2.2
  fromHms {hours mins secs offset} _ h := by
    simp only [ofParts] at h
    split_ifs at h
    exact congrArg Subtype.val (Option.some.inj h).symm
  fromHms_isSome offset := by
    simp only [ofParts]
    rw [dif_pos offset.property]
    rfl
  utc := rfl
  dateTime_ext hdate htime hoffset := Prod.ext (Prod.ext hdate htime) hoffset
  offset_replaceOffset _ _ := rfl
  date_replaceDateTime _ _ := rfl
  time_replaceDateTime _ _ := rfl
  offset_replaceDateTime _ _ := rfl

theorem U8.zero_lt_sixty : (0 : U8).val < 60 := by decide

/-- An hour of the first day of 1970. -/
def hourOf1970 {least greatest nanos : Int} (hyear : least ≤ 1970 ∧ 1970 ≤ greatest)
    (hnanos : 0 < nanos) (hour : U8) (hlt : hour.val < 24) :
    OrdinalDate least greatest × ClockTime nanos :=
  (⟨⟨1970, by decide, by decide⟩, firstOrdinal, hyear, by decide⟩,
    ⟨hour, 0, 0, 0, hlt, U8.zero_lt_sixty, U8.zero_lt_sixty, hnanos⟩)

/-- The start of 1970, as it is seen an hour ahead of it. In `chrono` that is
midnight with an offset, and in `time` one o'clock with it. -/
theorem date_times_not_interchangeable :
    ¬∀ dt odt, (ChronoZones.ofParts.zoned ChronoCalendar.ofParts).Corresponds
        ((TimeZones.ofParts (hourOf1970 (by decide) (by decide) 0 (by decide))).zoned
          TimeCalendar.ofParts) dt odt →
      (ChronoZones.ofParts.zoned ChronoCalendar.ofParts).Interchangeable
        ((TimeZones.ofParts (hourOf1970 (by decide) (by decide) 0 (by decide))).zoned
          TimeCalendar.ofParts) dt odt := by
  intro hall
  have hboth := hall
    (hourOf1970 (by decide) (by decide) 0 (by decide), ⟨⟨3600, by decide, by decide⟩, by decide⟩)
    (hourOf1970 (by decide) (by decide) ⟨1, by decide, by decide⟩ (by decide),
      ⟨(⟨1, by decide, by decide⟩, 0, 0), by decide⟩) ⟨by decide, by decide⟩
  obtain ⟨bytes, hgives, hgives'⟩ := hboth.gives
  exact absurd (hgives.encode.trans hgives'.encode.symm) (by decide)

/-- At the offset zero the two write the same. -/
theorem date_times_interchange_iff_utc :
    (ChronoZones.ofParts.zoned ChronoCalendar.ofParts).Interchangeable
        ((TimeZones.ofParts (hourOf1970 (by decide) (by decide) 0 (by decide))).zoned
          TimeCalendar.ofParts)
      (hourOf1970 (by decide) (by decide) 0 (by decide), ⟨0, by decide⟩)
      (hourOf1970 (by decide) (by decide) 0 (by decide), ⟨(0, 0, 0), by decide⟩) :=
  (date_times_interchange_iff ChronoCalendar.documented_ofParts ChronoCalendar.proleptic_ofParts
    ChronoZones.documented_ofParts TimeCalendar.documented_ofParts TimeCalendar.proleptic_ofParts
    (TimeZones.documented_ofParts _) ⟨by decide, by decide⟩).mpr rfl

end Bilrost
