import Bilrost.Codec.CalendarParts

/-!
Date-times with an offset. They are encoded as pairs of a date-time and the
offset, and an offset as the triple of its hours, minutes and seconds. What is
used of the two crates is a parameter, along with what they say about it: the
date-time that one of them hands out is that of a clock without an offset, and
the one that the other hands out is that of the clock with it.
-/

namespace Bilrost

open Program Bilrost.Types

def I8.bits : I8 ≃ BitVec 8 := Ranged.bits 8 (by decide) (by decide) (by decide)

def VarintScalar.rangedI8 : VarintScalar I8 := i8.valuedAs I8.bits

section
variable {A B T : Type}

def itemTy (A B : Type) : Fin 2 → Type
  | 0 => A
  | 1 => B

def itemField (first : FieldCodec A) (second : FieldCodec B) :
    (i : Fin 2) → MessageField (itemTy A B i)
  | 0 => first.tagged 0
  | 1 => second.tagged 1

def pairParts : A × B ≃ ((i : Fin 2) → itemTy A B i) :=
  Equiv.symm (piFinTwoEquiv (itemTy A B))

/-- The items of a pair, with their indices as the tags. -/
def pairFields (first : FieldCodec A) (second : FieldCodec B) : Fields (A × B) where
  count := 2
  Ty := itemTy A B
  field := itemField first second
  Ignored := Unit
  ignoredDefault := ()
  view := pairParts.trans (Equiv.prodPUnit _).symm

def pair (first : FieldCodec A) (second : FieldCodec B) : MessageCodec (A × B) :=
  (pairFields first second).message ((pairFields first second).listed .trivial)

def tripleParts : T × T × T ≃ (Fin 3 → T) :=
  (Equiv.prodCongrRight fun _ => (finTwoArrowEquiv T).symm).trans (Fin.consEquiv fun _ => T)

/-- The items of a triple of one type. -/
def tripleFields (item : FieldCodec T) : Fields (T × T × T) where
  count := 3
  Ty _ := T
  field i := item.tagged i.val
  Ignored := Unit
  ignoredDefault := ()
  view := tripleParts.trans (Equiv.prodPUnit _).symm

def triple (item : FieldCodec T) : MessageCodec (T × T × T) :=
  (tripleFields item).message ((tripleFields item).listed .trivial)

end

/-- Hours, minutes and seconds. -/
abbrev OffsetParts := I8 × I8 × I8

/-- `(Varint, Varint, Varint)` -/
def OffsetParts.message : MessageCodec OffsetParts :=
  triple (VarintScalar.rangedI8.scalar.codec.plain (EmptyState.single (0 : I8)))

/-- Which of the signs there are: below zero, zero, and above it. -/
def signums (components : List I8) : List Bool :=
  components.foldl (fun signums component =>
    signums.set (component.val.sign + 1).toNat true) [false, false, false]

/-- The sign of all three components should be the same. -/
def mixedSigns : OffsetParts → Bool
  | (hours, mins, secs) =>
    match signums [hours, mins, secs] with
    | [true, _, true] => true
    | _ => false

/-- `Proxiable` and `DistinguishedProxiable` of a type of offsets, with its
`ForOverwrite` and `EmptyState`. -/
structure OffsetSupport (O : Type) where
  forOverwrite : O
  isEmpty : O → Bool
  encodeProxy : O → OffsetParts
  decodeProxy : OffsetParts → Attempt (Except DecodeErrorKind O)

namespace OffsetSupport

variable {O : Type} (support : OffsetSupport O)

/-- `decode_proxy_distinguished`, which is the same for all of them. -/
def decodeProxyDistinguished (parts : OffsetParts) :
    Attempt (Except DecodeErrorKind (O × Canonicity)) := do
  let decoded ← support.decodeProxy parts
  .ok (decoded.map fun offset => (offset, .canonical))

/-- As a proxy. None of them panics. -/
def proxy : Proxy O OffsetParts where
  encodeProxy := support.encodeProxy
  decodeProxy parts :=
    match support.decodeProxy parts with
    | .ok decoded => decoded
    | .error _ => .error .other
  decodeProxyDistinguished parts :=
    match support.decodeProxyDistinguished parts with
    | .ok decoded => decoded
    | .error _ => .error .other

def emptyState : EmptyState O where
  isEmpty := support.isEmpty
  clear _ := support.forOverwrite

/-- `delegate_proxied_encoding`, to `(Varint, Varint, Varint)`. -/
def codec : ValueCodec O :=
  OffsetParts.message.tupled.proxied support.proxy support.forOverwrite (some support.emptyState)

end OffsetSupport

/-- `EmptyState` of a type that is encoded as a list of parts. -/
def PartsSupport.emptyState {V T : Type} {n : Nat} (support : PartsSupport V T n) :
    EmptyState V where
  isEmpty := support.isEmpty
  clear _ := support.forOverwrite

/-- `Proxiable` and `DistinguishedProxiable` of a type of date-times with an
offset, with its `ForOverwrite` and `EmptyState`. Every pair is the proxy of a
date-time, and canonical. -/
structure ZonedSupport (Z N O : Type) where
  forOverwrite : Z
  isEmpty : Z → Bool
  encodeProxy : Z → N × O
  decodeProxy : N × O → Z

/-- The pair of a date-time and its offset. -/
def zonedPair {N O : Type} {n : Nat} (naive : PartsSupport N I32 n) (offset : OffsetSupport O) :
    MessageCodec (N × O) :=
  pair ((naive.codec .rangedI32).plain naive.emptyState) (offset.codec.plain offset.emptyState)

namespace ZonedSupport

variable {Z N O : Type} (support : ZonedSupport Z N O)

def proxy : Proxy Z (N × O) where
  encodeProxy := support.encodeProxy
  decodeProxy parts := .ok (support.decodeProxy parts)
  decodeProxyDistinguished parts := .ok (support.decodeProxy parts, .canonical)

def emptyState : EmptyState Z where
  isEmpty := support.isEmpty
  clear _ := support.forOverwrite

/-- `delegate_proxied_encoding`, to `General`, which is that of the pair. -/
def codec {n : Nat} (naive : PartsSupport N I32 n) (offset : OffsetSupport O) : ValueCodec Z :=
  (zonedPair naive offset).tupled.proxied support.proxy support.forOverwrite
    (some support.emptyState)

end ZonedSupport

/-- What is used of `chrono` for offsets and date-times with an offset. -/
structure ChronoZones (NaiveDateTime FixedOffset DateTime : Type) where
  eastOpt : I32 → Option FixedOffset
  localMinusUtc : FixedOffset → I32
  /-- `FixedOffset::east_opt(0).unwrap()` -/
  emptyOffset : FixedOffset
  fromNaiveUtcAndOffset : NaiveDateTime → FixedOffset → DateTime
  naiveUtc : DateTime → NaiveDateTime
  offset : DateTime → FixedOffset

namespace ChronoZones

variable {NaiveDate NaiveTime NaiveDateTime FixedOffset DateTime : Type}
  (zones : ChronoZones NaiveDateTime FixedOffset DateTime)
  (chrono : ChronoCalendar NaiveDate NaiveTime NaiveDateTime)

/-- What `chrono` says about it: an offset is less than a day of seconds, and a
date-time is a date-time without the offset, along with the offset. -/
structure Documented : Prop where
  offset_ext {offset offset' : FixedOffset} :
    zones.localMinusUtc offset = zones.localMinusUtc offset' → offset = offset'
  lt_day (offset : FixedOffset) :
    -86400 < (zones.localMinusUtc offset).val ∧ (zones.localMinusUtc offset).val < 86400
  eastOpt {secs : I32} {offset : FixedOffset} : zones.eastOpt secs = some offset →
    zones.localMinusUtc offset = secs
  eastOpt_isSome {secs : I32} : -86400 < secs.val → secs.val < 86400 → (zones.eastOpt secs).isSome
  emptyOffset : zones.eastOpt 0 = some zones.emptyOffset
  naiveUtc (naive : NaiveDateTime) (offset : FixedOffset) :
    zones.naiveUtc (zones.fromNaiveUtcAndOffset naive offset) = naive
  offset (naive : NaiveDateTime) (offset : FixedOffset) :
    zones.offset (zones.fromNaiveUtcAndOffset naive offset) = offset
  fromNaiveUtcAndOffset (dt : DateTime) :
    zones.fromNaiveUtcAndOffset (zones.naiveUtc dt) (zones.offset dt) = dt

/-- `FixedOffset`, which is divided toward zero. -/
def fixedOffset : OffsetSupport FixedOffset where
  forOverwrite := zones.emptyOffset
  isEmpty offset := zones.localMinusUtc offset == 0
  encodeProxy offset :=
    let offsetSecs := (zones.localMinusUtc offset).val
    let offsetMins := offsetSecs.tdiv 60
    (.wrap (offsetMins.tdiv 60), .wrap (offsetMins.tmod 60), .wrap (offsetSecs.tmod 60))
  decodeProxy parts :=
    let (hours, mins, secs) := parts
    if (-23 ≤ hours.val ∧ hours.val ≤ 23) ∧ (-59 ≤ mins.val ∧ mins.val ≤ 59) ∧
        -59 ≤ secs.val ∧ secs.val ≤ 59 then do
      let totalOffset : I32 ← Ranged.fit (hours.val * 60 * 60 + mins.val * 60 + secs.val)
      if mixedSigns parts then .ok (.error .invalidValue)
      else do
        let offset ← Attempt.unwrap (zones.eastOpt totalOffset)
        .ok (.ok offset)
    else .ok (.error .outOfDomainValue)

/-- `DateTime<FixedOffset>` -/
def dateTime : ZonedSupport DateTime NaiveDateTime FixedOffset where
  forOverwrite := zones.fromNaiveUtcAndOffset chrono.naiveDateTime.forOverwrite zones.emptyOffset
  isEmpty dt := chrono.naiveDateTime.isEmpty (zones.naiveUtc dt) &&
    zones.fixedOffset.isEmpty (zones.offset dt)
  encodeProxy dt := (zones.naiveUtc dt, zones.offset dt)
  decodeProxy parts := zones.fromNaiveUtcAndOffset parts.1 parts.2

/-- The encoding of `DateTime<FixedOffset>`. -/
def dateTimeCodec : ValueCodec DateTime :=
  (zones.dateTime chrono).codec chrono.naiveDateTime.support zones.fixedOffset

end ChronoZones

/-- What is used of `time` for offsets and date-times with an offset. -/
structure TimeZones (Date Time PrimitiveDateTime UtcOffset OffsetDateTime : Type) where
  utc : UtcOffset
  fromHms : I8 → I8 → I8 → Option UtcOffset
  asHms : UtcOffset → OffsetParts
  unixEpoch : OffsetDateTime
  replaceOffset : OffsetDateTime → UtcOffset → OffsetDateTime
  replaceDateTime : OffsetDateTime → PrimitiveDateTime → OffsetDateTime
  date : OffsetDateTime → Date
  time : OffsetDateTime → Time
  offset : OffsetDateTime → UtcOffset

namespace TimeZones

variable {Date Time PrimitiveDateTime UtcOffset OffsetDateTime : Type}
  (zones : TimeZones Date Time PrimitiveDateTime UtcOffset OffsetDateTime)
  (time : TimeCalendar Date Time PrimitiveDateTime)

/-- The parts of an offset have the same sign. -/
def SameSigns : OffsetParts → Prop
  | (hours, mins, secs) => 0 ≤ hours.val ∧ 0 ≤ mins.val ∧ 0 ≤ secs.val ∨
      hours.val ≤ 0 ∧ mins.val ≤ 0 ∧ secs.val ≤ 0

/-- What `time` says about it: an offset is determined by its parts, which have
the same sign, and what has the same sign is taken for the parts as it is. A
date-time is the date and the time of day of the clock with the offset, along
with the offset, and to replace either leaves the other. -/
structure Documented : Prop where
  offset_ext {offset offset' : UtcOffset} :
    zones.asHms offset = zones.asHms offset' → offset = offset'
  sameSigns (offset : UtcOffset) : SameSigns (zones.asHms offset)
  mins_lt (offset : UtcOffset) :
    -60 < (zones.asHms offset).2.1.val ∧ (zones.asHms offset).2.1.val < 60
  secs_lt (offset : UtcOffset) :
    -60 < (zones.asHms offset).2.2.val ∧ (zones.asHms offset).2.2.val < 60
  fromHms {hours mins secs : I8} {offset : UtcOffset} : SameSigns (hours, mins, secs) →
    zones.fromHms hours mins secs = some offset → zones.asHms offset = (hours, mins, secs)
  fromHms_isSome (offset : UtcOffset) : (zones.fromHms (zones.asHms offset).1
    (zones.asHms offset).2.1 (zones.asHms offset).2.2).isSome
  utc : zones.asHms zones.utc = (0, 0, 0)
  dateTime_ext {odt odt' : OffsetDateTime} : zones.date odt = zones.date odt' →
    zones.time odt = zones.time odt' → zones.offset odt = zones.offset odt' → odt = odt'
  offset_replaceOffset (odt : OffsetDateTime) (offset : UtcOffset) :
    zones.offset (zones.replaceOffset odt offset) = offset
  date_replaceDateTime (odt : OffsetDateTime) (dt : PrimitiveDateTime) :
    zones.date (zones.replaceDateTime odt dt) = time.date dt
  time_replaceDateTime (odt : OffsetDateTime) (dt : PrimitiveDateTime) :
    zones.time (zones.replaceDateTime odt dt) = time.time dt
  offset_replaceDateTime (odt : OffsetDateTime) (dt : PrimitiveDateTime) :
    zones.offset (zones.replaceDateTime odt dt) = zones.offset odt

/-- `UtcOffset` -/
def utcOffset [DecidableEq UtcOffset] : OffsetSupport UtcOffset where
  forOverwrite := zones.utc
  isEmpty offset := offset == zones.utc
  encodeProxy := zones.asHms
  decodeProxy parts :=
    if mixedSigns parts then .ok (.error .invalidValue)
    else .ok (okOr .outOfDomainValue (zones.fromHms parts.1 parts.2.1 parts.2.2))

/-- `odt_compose` -/
def odtCompose (utcTimestamp : PrimitiveDateTime) (offset : UtcOffset) : OffsetDateTime :=
  zones.replaceDateTime (zones.replaceOffset zones.unixEpoch offset) utcTimestamp

/-- `odt_decompose` -/
def odtDecompose (odt : OffsetDateTime) : PrimitiveDateTime × UtcOffset :=
  (time.new (zones.date odt) (zones.time odt), zones.offset odt)

variable [DecidableEq Date] [DecidableEq Time] [DecidableEq UtcOffset]

/-- `OffsetDateTime` -/
def offsetDateTime : ZonedSupport OffsetDateTime PrimitiveDateTime UtcOffset where
  forOverwrite := zones.odtCompose time.primitiveDateTime.forOverwrite zones.utc
  isEmpty odt := time.dateParts.isEmpty (zones.date odt) && time.timeParts.isEmpty (zones.time odt) &&
    zones.utcOffset.isEmpty (zones.offset odt)
  encodeProxy := zones.odtDecompose time
  decodeProxy parts := zones.odtCompose parts.1 parts.2

/-- The encoding of `OffsetDateTime`. -/
def offsetDateTimeCodec : ValueCodec OffsetDateTime :=
  (zones.offsetDateTime time).codec time.primitiveDateTime.support zones.utcOffset

end TimeZones

end Bilrost
