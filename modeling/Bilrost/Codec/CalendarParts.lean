import Bilrost.Codec.Collections
import Bilrost.Codec.Proxied
import Bilrost.Codec.Repeated
import Bilrost.Codec.TimeSpans
import Bilrost.Types.Conversions

/-!
Dates, times of day and durations as lists of their parts. The parts are packed
varints, and those that are zero are left off at the end. What is used of the
two crates is a parameter, along with what they say about it; the types of the
standard library are those of the conversions.
-/

namespace Bilrost

open Program Bilrost.Types

/-- Unsigned integers as their bits. -/
def Ranged.unsignedBits {hi : Int} (w : Nat) (hhi : hi = 2 ^ w - 1) : Ranged 0 hi ≃ BitVec w where
  toFun n := BitVec.ofNat w n.val.toNat
  invFun b :=
    { val := b.toNat
      le_val := Int.natCast_nonneg _
      val_le := by
        have hlt : (b.toNat : Int) < 2 ^ w := by exact_mod_cast b.isLt
        omega }
  left_inv n := by
    have hle := n.le_val
    have hge := n.val_le
    have hlt : n.val.toNat < 2 ^ w := by
      have hlt : n.val < ((2 ^ w : Nat) : Int) := by
        rw [Nat.cast_pow, Nat.cast_two]
        omega
      omega
    apply Ranged.ext
    show ((BitVec.ofNat w n.val.toNat).toNat : Int) = n.val
    rw [BitVec.toNat_ofNat, Nat.mod_eq_of_lt hlt]
    exact Int.toNat_of_nonneg hle
  right_inv b := by
    show BitVec.ofNat w (b.toNat : Int).toNat = b
    rw [Int.toNat_natCast, BitVec.ofNat_toNat, BitVec.setWidth_eq]

def U32.bits : U32 ≃ BitVec 32 := Ranged.unsignedBits 32 (by decide)

def U64.bits : U64 ≃ BitVec 64 := Ranged.unsignedBits 64 (by decide)

namespace VarintScalar

variable {T U : Type} [DecidableEq U] [Zero U]

/-- The same scalar with other values, of which zero is the empty one. -/
def valuedAs (s : VarintScalar T) (view : U ≃ T) : VarintScalar U where
  forOverwrite := 0
  emptyState := some (EmptyState.single 0)
  toUint64 value := s.toUint64 (view value)
  fromUint64 n := (s.fromUint64 n).map view.symm

theorem Lawful.valuedAs {s : VarintScalar T} (h : s.Lawful) (view : U ≃ T) :
    (s.valuedAs view).Lawful where
  lt value := h.lt _
  from_to value := by
    simp only [VarintScalar.valuedAs, h.from_to, Except.map, Equiv.symm_apply_apply]
  to_from {n value} hfrom := by
    simp only [VarintScalar.valuedAs] at hfrom ⊢
    cases hs : s.fromUint64 n with
    | error kind => simp [hs, Except.map] at hfrom
    | ok x =>
        obtain rfl : view.symm x = value := by simpa [hs, Except.map] using hfrom
        rw [Equiv.apply_symm_apply]
        exact h.to_from hs
  refuses n := by
    have hrefuses := h.refuses n
    simp only [VarintScalar.valuedAs, Refuses] at hrefuses ⊢
    cases hs : s.fromUint64 n with
    | error kind => simpa [hs, Except.map] using hrefuses
    | ok x => simp [Except.map]

def rangedI32 : VarintScalar I32 := i32.valuedAs I32.bits
def rangedU32 : VarintScalar U32 := u32.valuedAs U32.bits
def rangedU64 : VarintScalar U64 := u64.valuedAs U64.bits

end VarintScalar

/-- `ok_or` -/
def okOr {α : Type} (kind : DecodeErrorKind) : Option α → Except DecodeErrorKind α
  | some a => .ok a
  | none => .error kind

@[simp] theorem okOr_eq_ok {α : Type} {kind : DecodeErrorKind} {x : Option α} {a : α} :
    okOr kind x = .ok a ↔ x = some a := by
  cases x <;> simp [okOr]

/-- `Proxiable` and `DistinguishedProxiable` of a type that is encoded as a list
of parts, with its `ForOverwrite` and `EmptyState`. -/
structure PartsSupport (V T : Type) (n : Nat) where
  forOverwrite : V
  isEmpty : V → Bool
  encodeProxy : V → Attempt (LocalProxy T n)
  decodeProxy : LocalProxy T n → Attempt (Except DecodeErrorKind V)
  decodeProxyDistinguished : LocalProxy T n → Attempt (Except DecodeErrorKind (V × Canonicity))

/-- A type whose support goes by way of an array of all parts. -/
structure ArrayParts (V T : Type) (n : Nat) where
  forOverwrite : V
  isEmpty : V → Bool
  parts : V → Attempt (List.Vector T n)
  ofParts : List.Vector T n → Attempt (Except DecodeErrorKind V)

/-- The zeros at the end of the array are left off. -/
def ArrayParts.support {V T : Type} {n : Nat} [DecidableEq T] [Zero T] (array : ArrayParts V T n) :
    PartsSupport V T n where
  forOverwrite := array.forOverwrite
  isEmpty := array.isEmpty
  encodeProxy v := do
    let arr ← array.parts v
    .ok (.newWithoutEmptySuffix (EmptyState.single 0) arr)
  decodeProxy proxy := array.ofParts proxy.intoInner
  decodeProxyDistinguished proxy := do
    let (arr, canon) := proxy.intoInnerDistinguished (EmptyState.single 0)
    let decoded ← array.ofParts arr
    .ok (decoded.map fun v => (v, canon))

/-- The parts of a pair. -/
def firstPart {T : Type} (arr : List.Vector T 2) : T := arr.get ⟨0, Nat.two_pos⟩

def secondPart {T : Type} (arr : List.Vector T 2) : T := arr.get ⟨1, Nat.one_lt_two⟩

namespace PartsSupport

variable {V T : Type} {n : Nat}

/-- As a proxy. None of them panics. -/
def proxy [Zero T] (support : PartsSupport V T n) : Proxy V (LocalProxy T n) where
  encodeProxy v :=
    match support.encodeProxy v with
    | .ok proxy => proxy
    | .error _ => .new 0
  decodeProxy proxy :=
    match support.decodeProxy proxy with
    | .ok decoded => decoded
    | .error _ => .error .other
  decodeProxyDistinguished proxy :=
    match support.decodeProxyDistinguished proxy with
    | .ok decoded => decoded
    | .error _ => .error .other

/-- `delegate_proxied_encoding`, to `Packed<Varint>`. -/
def codec [Zero T] (support : PartsSupport V T n) (part : VarintScalar T) : ValueCodec V :=
  (part.scalar.codec.packed (LocalProxy.collection T n 0)).proxied support.proxy
    support.forOverwrite
    (some { isEmpty := support.isEmpty, clear := fun _ => support.forOverwrite })

end PartsSupport

/-- A range that holds one. -/
class HoldsOne (hi : Int) : Prop where
  one_le : 1 ≤ hi

instance holdsOneU16 : HoldsOne 65535 := ⟨by decide⟩
instance holdsOneU32 : HoldsOne 4294967295 := ⟨by decide⟩

/-- Days of the year are counted from one, in either type. -/
def firstOrdinal {hi : Int} [HoldsOne hi] : Ranged 0 hi := ⟨1, Int.one_nonneg, HoldsOne.one_le⟩

/-- What is used of `chrono` for dates and times of day. What a date-time says of
its parts is what its date and its time say. -/
structure ChronoCalendar (NaiveDate NaiveTime NaiveDateTime : Type) where
  fromYoOpt : I32 → U32 → Option NaiveDate
  year : NaiveDate → I32
  ordinal0 : NaiveDate → U32
  fromHmsNanoOpt : U32 → U32 → U32 → U32 → Option NaiveTime
  fromNumSecondsFromMidnightOpt : U32 → U32 → Option NaiveTime
  hour : NaiveTime → U32
  minute : NaiveTime → U32
  second : NaiveTime → U32
  nanosecond : NaiveTime → U32
  numSecondsFromMidnight : NaiveTime → U32
  new : NaiveDate → NaiveTime → NaiveDateTime
  date : NaiveDateTime → NaiveDate
  time : NaiveDateTime → NaiveTime
  /-- `NaiveDate::from_yo_opt(0, 1).unwrap()` -/
  emptyDate : NaiveDate
  /-- `NaiveTime::from_num_seconds_from_midnight_opt(0, 0).unwrap()` -/
  emptyTime : NaiveTime

namespace ChronoCalendar

variable {NaiveDate NaiveTime NaiveDateTime : Type}
  (chrono : ChronoCalendar NaiveDate NaiveTime NaiveDateTime)

/-- What `chrono` says about it: dates and times are determined by their parts,
which are those that they were made from. A second has up to two billion
nanoseconds. -/
structure Documented : Prop where
  date_ext {date date' : NaiveDate} : chrono.year date = chrono.year date' →
    chrono.ordinal0 date = chrono.ordinal0 date' → date = date'
  ordinal0_le (date : NaiveDate) : (chrono.ordinal0 date).val ≤ 365
  fromYoOpt {year : I32} {ordinal : U32} {date : NaiveDate} :
    chrono.fromYoOpt year ordinal = some date →
      chrono.year date = year ∧ (chrono.ordinal0 date).val + 1 = ordinal.val
  time_ext {time time' : NaiveTime} : chrono.hour time = chrono.hour time' →
    chrono.minute time = chrono.minute time' → chrono.second time = chrono.second time' →
      chrono.nanosecond time = chrono.nanosecond time' → time = time'
  hour_lt (time : NaiveTime) : (chrono.hour time).val < 24
  minute_lt (time : NaiveTime) : (chrono.minute time).val < 60
  second_lt (time : NaiveTime) : (chrono.second time).val < 60
  nanosecond_lt (time : NaiveTime) : (chrono.nanosecond time).val < 2000000000
  fromHmsNanoOpt {hour minute second nano : U32} {time : NaiveTime} :
    chrono.fromHmsNanoOpt hour minute second nano = some time →
      chrono.hour time = hour ∧ chrono.minute time = minute ∧ chrono.second time = second ∧
        chrono.nanosecond time = nano
  numSecondsFromMidnight (time : NaiveTime) : (chrono.numSecondsFromMidnight time).val =
    (chrono.hour time).val * 3600 + (chrono.minute time).val * 60 + (chrono.second time).val
  date_new (date : NaiveDate) (time : NaiveTime) : chrono.date (chrono.new date time) = date
  time_new (date : NaiveDate) (time : NaiveTime) : chrono.time (chrono.new date time) = time
  new_date_time (dt : NaiveDateTime) : chrono.new (chrono.date dt) (chrono.time dt) = dt
  emptyDate : chrono.fromYoOpt 0 firstOrdinal = some chrono.emptyDate
  emptyTime : chrono.fromNumSecondsFromMidnightOpt 0 0 = some chrono.emptyTime
  fromNumSecondsFromMidnightOpt {secs nano : U32} {time : NaiveTime} :
    chrono.fromNumSecondsFromMidnightOpt secs nano = some time →
      chrono.numSecondsFromMidnight time = secs ∧ chrono.nanosecond time = nano

/-- `parts_to_naivedate` -/
def partsToNaiveDate (year ordinal0 : I32) : Option NaiveDate := do
  let ordinal0 : U32 ← Ranged.fit? ordinal0.val
  let ordinal : U32 ← Ranged.fit? (ordinal0.val + 1)
  chrono.fromYoOpt year ordinal

/-- `parts_to_naivetime` -/
def partsToNaiveTime (hour min sec nanos : I32) : Option NaiveTime := do
  let hour : U32 ← Ranged.fit? hour.val
  let min : U32 ← Ranged.fit? min.val
  let sec : U32 ← Ranged.fit? sec.val
  let nanos : U32 ← Ranged.fit? nanos.val
  chrono.fromHmsNanoOpt hour min sec nanos

/-- `NaiveDate`: the year and the day in the year, from zero. -/
def naiveDate : ArrayParts NaiveDate I32 2 where
  forOverwrite := chrono.emptyDate
  isEmpty date := (chrono.year date, chrono.ordinal0 date) == (0, 0)
  parts date := .ok (chrono.year date ::ᵥ .wrap (chrono.ordinal0 date).val ::ᵥ .nil)
  ofParts arr := .ok (okOr .outOfDomainValue (chrono.partsToNaiveDate (firstPart arr) (secondPart arr)))

/-- `NaiveTime` -/
def naiveTime : ArrayParts NaiveTime U32 4 where
  forOverwrite := chrono.emptyTime
  isEmpty time := (chrono.numSecondsFromMidnight time, chrono.nanosecond time) == (0, 0)
  parts time := .ok (chrono.hour time ::ᵥ chrono.minute time ::ᵥ chrono.second time ::ᵥ
    chrono.nanosecond time ::ᵥ .nil)
  ofParts arr := .ok (okOr .outOfDomainValue
    (chrono.fromHmsNanoOpt (arr.get 0) (arr.get 1) (arr.get 2) (arr.get 3)))

/-- `NaiveDateTime` -/
def naiveDateTime : ArrayParts NaiveDateTime I32 6 where
  forOverwrite := chrono.new chrono.emptyDate chrono.emptyTime
  isEmpty dt := (chrono.year (chrono.date dt), chrono.ordinal0 (chrono.date dt),
    chrono.numSecondsFromMidnight (chrono.time dt), chrono.nanosecond (chrono.time dt)) ==
      (0, 0, 0, 0)
  parts dt := .ok (chrono.year (chrono.date dt) ::ᵥ .wrap (chrono.ordinal0 (chrono.date dt)).val ::ᵥ
    .wrap (chrono.hour (chrono.time dt)).val ::ᵥ .wrap (chrono.minute (chrono.time dt)).val ::ᵥ
    .wrap (chrono.second (chrono.time dt)).val ::ᵥ
    .wrap (chrono.nanosecond (chrono.time dt)).val ::ᵥ .nil)
  ofParts arr := .ok do
    let date ← okOr .outOfDomainValue (chrono.partsToNaiveDate (arr.get 0) (arr.get 1))
    let time ← okOr .outOfDomainValue
      (chrono.partsToNaiveTime (arr.get 2) (arr.get 3) (arr.get 4) (arr.get 5))
    .ok (chrono.new date time)

end ChronoCalendar

/-- What is used of `time` for dates and times of day. -/
structure TimeCalendar (Date Time PrimitiveDateTime : Type) where
  fromOrdinalDate : I32 → U16 → Option Date
  year : Date → I32
  ordinal : Date → U16
  fromHmsNano : U8 → U8 → U8 → U32 → Option Time
  hour : Time → U8
  minute : Time → U8
  second : Time → U8
  nanosecond : Time → U32
  midnight : Time
  new : Date → Time → PrimitiveDateTime
  date : PrimitiveDateTime → Date
  time : PrimitiveDateTime → Time
  /-- `Date::from_ordinal_date(0, 1).unwrap()` -/
  emptyDate : Date

namespace TimeCalendar

variable {Date Time PrimitiveDateTime : Type} (time : TimeCalendar Date Time PrimitiveDateTime)

/-- What `time` says about it. -/
structure Documented : Prop where
  date_ext {date date' : Date} : time.year date = time.year date' →
    time.ordinal date = time.ordinal date' → date = date'
  one_le_ordinal (date : Date) : 1 ≤ (time.ordinal date).val
  ordinal_le (date : Date) : (time.ordinal date).val ≤ 366
  fromOrdinalDate {year : I32} {ordinal : U16} {date : Date} :
    time.fromOrdinalDate year ordinal = some date →
      time.year date = year ∧ time.ordinal date = ordinal
  time_ext {t t' : Time} : time.hour t = time.hour t' → time.minute t = time.minute t' →
    time.second t = time.second t' → time.nanosecond t = time.nanosecond t' → t = t'
  nanosecond_lt (t : Time) : (time.nanosecond t).val < 1000000000
  fromHmsNano {hour minute second : U8} {nano : U32} {t : Time} :
    time.fromHmsNano hour minute second nano = some t →
      time.hour t = hour ∧ time.minute t = minute ∧ time.second t = second ∧
        time.nanosecond t = nano
  midnight : time.fromHmsNano 0 0 0 0 = some time.midnight
  date_new (date : Date) (t : Time) : time.date (time.new date t) = date
  time_new (date : Date) (t : Time) : time.time (time.new date t) = t
  new_date_time (dt : PrimitiveDateTime) : time.new (time.date dt) (time.time dt) = dt
  emptyDate : time.fromOrdinalDate 0 firstOrdinal = some time.emptyDate

/-- `parts_to_date` -/
def partsToDate (year ordinal0 : I32) : Option Date := do
  let ordinal0 : U16 ← Ranged.fit? ordinal0.val
  let ordinal : U16 ← Ranged.fit? (ordinal0.val + 1)
  time.fromOrdinalDate year ordinal

/-- `parts_to_time` -/
def partsToTime {lo hi : Int} (hour min sec nano : Ranged lo hi) : Option Time := do
  let hour : U8 ← Ranged.fit? hour.val
  let min : U8 ← Ranged.fit? min.val
  let sec : U8 ← Ranged.fit? sec.val
  let nano : U32 ← Ranged.fit? nano.val
  time.fromHmsNano hour min sec nano

variable [DecidableEq Date] [DecidableEq Time]

/-- `Date`: the year and the day in the year, from zero. -/
def dateParts : ArrayParts Date I32 2 where
  forOverwrite := time.emptyDate
  isEmpty date := date == time.emptyDate
  parts date := do
    let ordinal0 : U16 ← Ranged.fit ((time.ordinal date).val - 1)
    .ok (time.year date ::ᵥ .wrap ordinal0.val ::ᵥ .nil)
  ofParts arr := .ok (okOr .outOfDomainValue (time.partsToDate (firstPart arr) (secondPart arr)))

/-- `Time` -/
def timeParts : ArrayParts Time U32 4 where
  forOverwrite := time.midnight
  isEmpty t := t == time.midnight
  parts t := .ok (.wrap (time.hour t).val ::ᵥ .wrap (time.minute t).val ::ᵥ
    .wrap (time.second t).val ::ᵥ time.nanosecond t ::ᵥ .nil)
  ofParts arr := .ok (okOr .outOfDomainValue
    (time.partsToTime (arr.get 0) (arr.get 1) (arr.get 2) (arr.get 3)))

/-- `PrimitiveDateTime` -/
def primitiveDateTime : ArrayParts PrimitiveDateTime I32 6 where
  forOverwrite := time.new time.emptyDate time.midnight
  isEmpty dt := time.date dt == time.emptyDate && time.time dt == time.midnight
  parts dt := do
    let ordinal0 : U16 ← Ranged.fit ((time.ordinal (time.date dt)).val - 1)
    .ok (time.year (time.date dt) ::ᵥ .wrap ordinal0.val ::ᵥ .wrap (time.hour (time.time dt)).val ::ᵥ
      .wrap (time.minute (time.time dt)).val ::ᵥ .wrap (time.second (time.time dt)).val ::ᵥ
      .wrap (time.nanosecond (time.time dt)).val ::ᵥ .nil)
  ofParts arr := .ok do
    let date ← okOr .outOfDomainValue (time.partsToDate (arr.get 0) (arr.get 1))
    let t ← okOr .outOfDomainValue
      (time.partsToTime (arr.get 2) (arr.get 3) (arr.get 4) (arr.get 5))
    .ok (time.new date t)

end TimeCalendar

namespace Types

/-- `core::time::Duration` -/
def CoreDuration.parts : ArrayParts CoreDuration U64 2 where
  forOverwrite := ⟨0, 0⟩
  isEmpty d := d == ⟨0, 0⟩
  parts d := .ok (d.secs ::ᵥ .wrap d.nanos.val ::ᵥ .nil)
  ofParts arr :=
    if (secondPart arr).val ≤ 999999999 then do
      let d ← CoreDuration.new (firstPart arr) (.wrap (secondPart arr).val)
      .ok (.ok d)
    else .ok (.error .invalidValue)

namespace SystemTime

def plus : U64 := .lit 43

def minus : U64 := .lit 45

/-- `duration_since` and the `expect` behind it. -/
def magnitude (big small : SystemTime) : Attempt CoreDuration :=
  match big.durationSince small with
  | .ok d => .ok d
  | .error _ => .error .panic

/-- The sign, as the character for it, and the distance from the epoch. -/
def withSymbol (symbol : U64) (small big : SystemTime) : Attempt (LocalProxy U64 3) := do
  let d ← magnitude big small
  .ok (.newWithoutEmptySuffix (EmptyState.single 0)
    (symbol ::ᵥ d.secs ::ᵥ .wrap d.nanos.val ::ᵥ .nil))

def encodeProxy (st : SystemTime) : Attempt (LocalProxy U64 3) :=
  match compare st.total unixEpoch.total with
  | .eq => .ok (.new 0)
  | .gt => withSymbol plus unixEpoch st
  | .lt => withSymbol minus st unixEpoch

def decodeProxy (proxy : LocalProxy U64 3) : Attempt (Except DecodeErrorKind SystemTime) :=
  let arr := proxy.intoInner
  if arr.get 0 = 0 ∧ arr.get 1 = 0 ∧ arr.get 2 = 0 then .ok (.ok unixEpoch)
  else if (arr.get 0 = plus ∨ arr.get 0 = minus) ∧ (arr.get 2).val ≤ 999999999 then do
    let d ← CoreDuration.new (arr.get 1) (.wrap (arr.get 2).val)
    .ok (okOr .outOfDomainValue
      (if arr.get 0 = plus then unixEpoch.checkedAdd d else unixEpoch.checkedSub d))
  else .ok (.error .invalidValue)

/-- The support of `SystemTime`. There is no distinguished form; every list that
is taken is canonical. -/
def parts : PartsSupport SystemTime U64 3 where
  forOverwrite := unixEpoch
  isEmpty st := st == unixEpoch
  encodeProxy := encodeProxy
  decodeProxy := decodeProxy
  decodeProxyDistinguished proxy := do
    let decoded ← decodeProxy proxy
    .ok (decoded.map fun st => (st, .canonical))

end SystemTime

end Types

end Bilrost
