import Bilrost.Guarantees.DateTimes
import Bilrost.Guarantees.Ranges

/-!
Equality and encodings. Distinguished types promise that equal values, and no
others, are encoded as the same bytes, and that these are decoded to an equal
value. Date-times with an offset are compared without it, and ranges along with a
flag that is not written. For these the promise is kept on conditions.
-/

namespace Bilrost

open Program Bilrost.Types

/-- How values of a type are passed on: the bytes that they are encoded as, and
what bytes are decoded to. -/
structure Transport (T : Type) where
  writes : T → Bytes → Prop
  decodes : Bytes → T → Prop

/-- Values on their own. -/
def ValueCodec.transport {T : Type} (codec : ValueCodec T) : Transport T where
  writes value bytes := codec.encodeValue value = some bytes
  decodes := codec.DecodesTo

def MessageCodec.transport {M : Type} (codec : MessageCodec M) : Transport M where
  writes m bytes := codec.encodeToVec m = some bytes
  decodes := codec.DecodesTo

namespace Transport

variable {T : Type} {transport : Transport T} {eq : T → T → Prop} {a a' b : T} {accepted : Prop}
  {bytes : Bytes}

/-- The promise, for two values. They are equal if and only if they are encoded
as the same bytes, and the first is decoded to a value that is equal to it. -/
structure KeepsEquality (transport : Transport T) (eq : T → T → Prop) (a b : T) : Prop where
  encode : eq a b ↔ ∃ bytes, transport.writes a bytes ∧ transport.writes b bytes
  decode : ∃ bytes a', transport.writes a bytes ∧ transport.decodes bytes a' ∧ eq a' a

/-- A value is passed on as these bytes, and arrives as another one if it is
accepted. -/
structure Carries (transport : Transport T) (a a' : T) (accepted : Prop) (bytes : Bytes) :
    Prop where
  writes_iff {bytes' : Bytes} : transport.writes a bytes' ↔ bytes' = bytes
  decodes_iff {x : T} : transport.decodes bytes x ↔ accepted ∧ x = a'

theorem Carries.keepsEquality_iff (h : transport.Carries a a' accepted bytes) :
    transport.KeepsEquality eq a b ↔ (eq a b ↔ transport.writes b bytes) ∧ accepted ∧ eq a' a := by
  have hsame : (∃ bytes, transport.writes a bytes ∧ transport.writes b bytes) ↔
      transport.writes b bytes := by
    simp only [h.writes_iff, exists_eq_left]
  constructor
  · rintro ⟨hencode, bytes', x, hwrites, hdecodes, heq⟩
    obtain rfl := h.writes_iff.mp hwrites
    obtain ⟨haccepted, rfl⟩ := h.decodes_iff.mp hdecodes
    exact ⟨hencode.trans hsame, haccepted, heq⟩
  · rintro ⟨hencode, haccepted, heq⟩
    exact ⟨hencode.trans hsame.symm, bytes, a', h.writes_iff.mpr rfl,
      h.decodes_iff.mpr ⟨haccepted, rfl⟩, heq⟩

/-- Values are kept apart, and arrive as they are if they are accepted. -/
structure Faithful (transport : Transport T) (accepted : T → Prop) : Prop where
  carries (a : T) : ∃ bytes, transport.Carries a a (accepted a) bytes
  inj {a b : T} {bytes : Bytes} : transport.writes a bytes → transport.writes b bytes → a = b

theorem Faithful.keepsEquality_iff {accepted : T → Prop} (h : transport.Faithful accepted)
    (hrefl : eq a a) : transport.KeepsEquality eq a b ↔ accepted a ∧ (eq a b → a = b) := by
  obtain ⟨bytes, hcarries⟩ := h.carries a
  have hwrites : transport.writes a bytes := hcarries.writes_iff.mpr rfl
  rw [hcarries.keepsEquality_iff]
  constructor
  · rintro ⟨hencode, haccepted, -⟩
    exact ⟨haccepted, fun heq => h.inj hwrites (hencode.mp heq)⟩
  · rintro ⟨haccepted, hsame⟩
    refine ⟨⟨fun heq => hsame heq ▸ hwrites, fun hwrites' => ?_⟩, haccepted, hrefl⟩
    exact h.inj hwrites hwrites' ▸ hrefl

end Transport

/-- Where a value is: on its own, or the only field of a message. -/
inductive Place where
  | alone
  | field (tag : Fin (2 ^ 32))

/-- How values are passed on in a place. -/
def ValueCodec.transportIn {T : Type} (codec : ValueCodec T) (state : EmptyState T) :
    Place → Transport T
  | .alone => codec.transport
  | .field tag => ((codec.plain state).derived tag.val).transport

section
variable {T : Type} {codec : ValueCodec T} {value value' : T} {bytes : Bytes}

theorem ValueCodec.DecodesTo.unique (h : codec.DecodesTo bytes value)
    (h' : codec.DecodesTo bytes value') : value = value' := by
  have hbytes : Buf.bytes bytes = bytes ++ [] := (List.append_nil _).symm
  obtain ⟨capped, hrun, -⟩ := h.decodeValue .owned hbytes
  obtain ⟨capped', hrun', -⟩ := h'.decodeValue .owned hbytes
  exact congrArg Prod.fst (Except.ok.inj (hrun.symm.trans hrun'))

theorem ValueCodec.DecodesTo.parses (h : codec.DecodesTo bytes value) (hregular : codec.Regular) :
    (codec.decodeBy .relaxed .owned true recursionLimit codec.forOverwrite).Parses bytes
      (value, .canonical) [] := by
  have hprogram : (asCanonical
      (codec.decodeValue .owned recursionLimit codec.forOverwrite)).Regular :=
    hregular.regular .relaxed .owned true recursionLimit codec.forOverwrite
  have hbytes : Buf.bytes bytes = bytes ++ [] := (List.append_nil _).symm
  have hparse := (leaves_iff hprogram.of_asCanonical).mp (h.decodeValue .owned hbytes)
  exact parses_asCanonical.mpr ⟨hparse, rfl⟩

/-- A value is carried if it arrives whenever anything does. -/
theorem ValueCodec.carries {accepted : Prop} (hencode : codec.encodeValue value = some bytes)
    (haccepted : ∀ {x}, codec.DecodesTo bytes x → accepted)
    (hdecodes : accepted → codec.DecodesTo bytes value') :
    codec.transport.Carries value value' accepted bytes where
  writes_iff {bytes'} := by
    show _ = some bytes' ↔ _
    rw [hencode, Option.some.injEq, eq_comm]
  decodes_iff {x} := by
    constructor
    · intro hx
      exact ⟨haccepted hx, hx.unique (hdecodes (haccepted hx))⟩
    · rintro ⟨hvalue, rfl⟩
      exact hdecodes hvalue

end

section
variable {M : Type} {codec : MessageCodec M} {m m' : M} {bytes : Bytes}

theorem MessageCodec.DecodesTo.unique (h : codec.DecodesTo bytes m)
    (h' : codec.DecodesTo bytes m') : m = m' :=
  Except.ok.inj (h.decodeBorrowed.symm.trans h'.decodeBorrowed)

theorem MessageCodec.carries {accepted : Prop} (hencode : codec.encodeToVec m = some bytes)
    (haccepted : ∀ {x}, codec.DecodesTo bytes x → accepted)
    (hdecodes : accepted → codec.DecodesTo bytes m') :
    codec.transport.Carries m m' accepted bytes where
  writes_iff {bytes'} := by
    show _ = some bytes' ↔ _
    rw [hencode, Option.some.injEq, eq_comm]
  decodes_iff {x} := by
    constructor
    · intro hx
      exact ⟨haccepted hx, hx.unique (hdecodes (haccepted hx))⟩
    · rintro ⟨hm, rfl⟩
      exact hdecodes hm

end

section
variable {T : Type} {codec : ValueCodec T} {state : EmptyState T} {ordered : Prop} {tag : Nat}
  {value value' : T}

/-- A message with one field is written as one record, or as none. -/
theorem ValueCodec.written_derived (htag : tag < 2 ^ 32) (hwrites : codec.Writes ordered)
    {payload : Bytes} (hpayload : codec.encodeValue value = some payload) :
    ((codec.plain state).derived tag).Written ordered value
      (if state.isEmpty value then [] else [⟨tag, codec.wireType, payload⟩]) := by
  have hfield := (guards_plain codec state).written hwrites hpayload
  have hwritten := hfield.derived htag ((guards_plain codec state).writes hwrites)
  have hrecords : (if state.isEmpty value then [] else [payload]).map
      (Record.mk tag codec.wireType) =
        if state.isEmpty value then [] else [⟨tag, codec.wireType, payload⟩] := by
    cases state.isEmpty value <;> rfl
  exact hrecords ▸ hwritten

theorem ValueCodec.writes_derived (htag : tag < 2 ^ 32) (hwrites : codec.Writes ordered) :
    ((codec.plain state).derived tag).Writes ordered := fun value =>
  have ⟨_, hpayload⟩ := hwrites.encode value
  ⟨_, written_derived htag hwrites hpayload⟩

theorem ValueCodec.encodeToVec_derived (htag : tag < 2 ^ 32) (hwrites : codec.Writes ordered)
    {payload : Bytes} (hpayload : codec.encodeValue value = some payload) :
    ((codec.plain state).derived tag).encodeToVec value =
      some (if state.isEmpty value then [] else keyBytes tag codec.wireType ++ payload) := by
  have hmessage : ((codec.plain state).derived tag).Writes ordered := writes_derived htag hwrites
  rw [hmessage.encodeToVec_eq, (written_derived htag hwrites hpayload).encode]
  cases state.isEmpty value with
  | true => rfl
  | false => exact congrArg some (List.append_nil _)

/-- Different values are different messages. -/
theorem ValueCodec.encodeToVec_derived_inj (htag : tag < 2 ^ 32) (hwrites : codec.Writes ordered)
    (hempty : ∀ {value}, state.isEmpty value = true → value = codec.forOverwrite)
    (hinj : codec.encodeValue value = codec.encodeValue value' → value = value')
    (h : ((codec.plain state).derived tag).encodeToVec value =
      ((codec.plain state).derived tag).encodeToVec value') : value = value' := by
  obtain ⟨payload, hpayload⟩ := hwrites.encode value
  obtain ⟨payload', hpayload'⟩ := hwrites.encode value'
  have hkey (payload : Bytes) : keyBytes tag codec.wireType ++ payload ≠ [] := fun hnil =>
    varint_ne_nil _ (List.append_eq_nil_iff.mp hnil).1
  rw [encodeToVec_derived htag hwrites hpayload, encodeToVec_derived htag hwrites hpayload',
    Option.some.injEq] at h
  split_ifs at h with hisEmpty hisEmpty' hisEmpty'
  · rw [hempty hisEmpty, hempty hisEmpty']
  · exact absurd h.symm (hkey payload')
  · exact absurd h (hkey payload)
  · apply hinj
    rw [hpayload, hpayload', List.append_cancel_left h]

end

section
variable {T : Type} {allowed : Features} {codec : ValueCodec T} {state : EmptyState T} {tag : Nat}
  {value : T} {accepted : Prop}

/-- Where a message is decoded from what it is written as, so is its field. -/
theorem Built.parses_of_derived (h : Built allowed (.value codec)) (harrays : ¬allowed.emptyArrays)
    (hplain : Built allowed (.field (codec.plain state))) (htag : tag < 2 ^ 32)
    {payload bytes : Bytes} {x : T} (hpayload : codec.encodeValue value = some payload)
    (hisEmpty : state.isEmpty value = false)
    (hencode : ((codec.plain state).derived tag).encodeToVec value = some bytes)
    (hlt : bytes.length < 2 ^ 64) (hdecode : ((codec.plain state).derived tag).DecodesTo bytes x) :
    ∃ y, (codec.decodeBy .relaxed .owned false recursionLimit codec.forOverwrite).Parses payload y
      [] := by
  have hwrites : codec.Writes (¬allowed.hashed) := h.writes harrays
  have hbuilt : Built allowed (.message ((codec.plain state).derived tag)) := hplain.derived htag
  have hmessage : ((codec.plain state).derived tag).Writes (¬allowed.hashed) :=
    hbuilt.writes harrays
  have hwritten : ((codec.plain state).derived tag).Written (¬allowed.hashed) value
      (if state.isEmpty value then [] else [⟨tag, codec.wireType, payload⟩]) :=
    ValueCodec.written_derived htag hwrites hpayload
  rw [hisEmpty, if_neg Bool.false_ne_true] at hwritten
  rw [hmessage.encodeToVec_eq, hwritten.encode, Option.some.injEq] at hencode
  obtain rfl := hencode
  have hwhole : ((codec.plain state).derived tag).decodeAs .relaxed .owned .notCanonical
      (wireRecords 0 [⟨tag, codec.wireType, payload⟩]) = .ok (x, .canonical) := by
    have hrelaxed : ((codec.plain state).derived tag).decodeCapped .owned
        (Capped.new (wireRecords 0 [⟨tag, codec.wireType, payload⟩])) = .ok x := hdecode.decode rfl
    rw [MessageCodec.decodeAs, hrelaxed]
    rfl
  have hfield : (Fields.single ((codec.plain state).tagged tag)).fieldOf tag =
      some (Fields.onlyIndex ((codec.plain state).tagged tag)) :=
    (Fields.singleBy_sound htag).fieldOf_eq_some.mpr (List.mem_singleton_self tag)
  obtain ⟨decoded, hdecoded⟩ := Fields.parses_first harrays hbuilt hfield hwritten (by simp) hlt
    (hbuilt.regular.decodeAs_eq_ok.mp hwhole)
  have hparse : ((codec.plain state).decodeBy .relaxed .owned recursionLimit codec.wireType
      codec.forOverwrite).Parses payload decoded [] := (FieldCodec.parses_tagged hdecoded).2
  rw [ValueCodec.plain_decodeBy] at hparse
  obtain ⟨y, mid, hvalue, hresult⟩ := parses_bind.mp hparse
  obtain ⟨-, rfl⟩ := Way.parses_refuseEmpty.mp hresult
  exact ⟨y, (ValueCodec.parses_decodeFieldBy.mp hvalue).2⟩

/-- A value that is the only field of a message is passed on as it is on its own,
if it is accepted where it is empty. -/
theorem Built.carries_derived (h : Built allowed (.value codec)) (harrays : ¬allowed.emptyArrays)
    (hplain : Built allowed (.field (codec.plain state))) (htag : tag < 2 ^ 32) {n : Nat}
    (hn : n + 9 < 2 ^ 64) (hmost : codec.AtMost value n)
    (hisEmpty : state.isEmpty value = true → value = codec.forOverwrite ∧ accepted)
    (haccepted : ∀ {payload : Bytes} {y : T × Canonicity}, codec.encodeValue value = some payload →
      (codec.decodeBy .relaxed .owned false recursionLimit codec.forOverwrite).Parses payload y [] →
        accepted)
    (hback : accepted → state.isEmpty value = false → ∀ way mode,
      codec.ReadsBack way mode false recursionLimit value) :
    ∃ bytes, ((codec.plain state).derived tag).transport.Carries value value accepted bytes := by
  have hwrites : codec.Writes (¬allowed.hashed) := h.writes harrays
  have hbuilt : Built allowed (.message ((codec.plain state).derived tag)) := hplain.derived htag
  obtain ⟨payload, hpayload⟩ := hwrites.encode value
  obtain ⟨bytes, hencode, hlt⟩ : ∃ bytes,
      ((codec.plain state).derived tag).encodeToVec value = some bytes ∧ bytes.length < 2 ^ 64 := by
    refine ⟨_, ValueCodec.encodeToVec_derived htag hwrites hpayload, ?_⟩
    have hkey : (keyBytes tag codec.wireType).length ≤ 9 := varint_length_le _
    have hle := hmost payload hpayload
    split_ifs
    · exact Nat.two_pow_pos 64
    · rw [List.length_append]
      omega
  have hdecodes (hvalue : accepted) : ((codec.plain state).derived tag).DecodesTo bytes value := by
    refine hbuilt.decodesTo_of_readsBack harrays (fun way mode => ?_) hencode hlt
    apply Built.readsBack_derived harrays htag hplain
    exact ValueCodec.ReadsBack.plain h.cuts hwrites (fun hempty => (hisEmpty hempty).1)
      fun hempty => hback hvalue hempty way mode
  refine ⟨bytes, MessageCodec.carries hencode (fun {x} hdecode => ?_) hdecodes⟩
  cases hempty : state.isEmpty value with
  | true => exact (hisEmpty hempty).2
  | false =>
      obtain ⟨y, hparse⟩ :=
        h.parses_of_derived harrays hplain htag hpayload hempty hencode hlt hdecode
      exact haccepted hpayload hparse

end

namespace ZonedSupport

variable {Z N O : Type} {support : ZonedSupport Z N O} {naive : ArrayParts N I32 6}
  {offset : OffsetSupport O} {acceptable : N → Prop} (hnaive : naive.Inverse acceptable)
  (hdetermines : naive.Determines) (hoffset : offset.Lossless) (hempty : acceptable naive.forOverwrite)
include hnaive hdetermines hoffset hempty

/-- Date-times with an offset are kept apart wherever they are, and arrive if
their date-times are made from their parts. -/
theorem Lossless.faithful (h : support.Lossless naive offset) (place : Place) :
    ((support.codec naive.support offset).transportIn support.emptyState place).Faithful
      fun z => acceptable (support.encodeProxy z).1 := by
  have hbuilt : Built .proxied (.value (support.codec naive.support offset)) :=
    built hnaive hdetermines hoffset trivial
  have hwrites : (support.codec naive.support offset).Writes (¬Features.proxied.hashed) :=
    hbuilt.writes not_false
  have hisEmpty {z : Z} : support.isEmpty z = true → z = support.forOverwrite :=
    (h.empty_iff hnaive hdetermines hoffset z).mp
  have hmost (z : Z) : (support.codec naive.support offset).AtMost z 153 := by
    obtain ⟨bytes, hbytes, hle⟩ := exists_encodeValue support hnaive hdetermines hoffset z
    intro payload hpayload
    obtain rfl := Option.some.inj (hbytes.symm.trans hpayload)
    exact hle
  have hinj {z z' : Z} : (support.codec naive.support offset).encodeValue z =
      (support.codec naive.support offset).encodeValue z' ↔ z = z' :=
    h.encodeValue_inj hnaive hdetermines hoffset
  cases place with
  | alone =>
      refine ⟨fun z => ?_, fun ha hb => hinj.mp (ha.trans hb.symm)⟩
      obtain ⟨bytes, hencode⟩ := hwrites.encode z
      refine ⟨bytes, ValueCodec.carries hencode (fun hdecode => ?_) fun hz => ?_⟩
      · exact acceptable_of_parses hnaive hdetermines hoffset hempty hencode
          (hdecode.parses hbuilt.regular)
      · exact h.decodesTo hnaive hdetermines hoffset hz hencode
  | field tag =>
      have hplain : Built .proxied
          (.field ((support.codec naive.support offset).plain support.emptyState)) :=
        .plain rfl ⟨h.empty_iff hnaive hdetermines hoffset, fun _ => rfl⟩ hbuilt
      refine ⟨fun z => ?_, fun ha hb => ?_⟩
      · apply hbuilt.carries_derived not_false hplain tag.isLt (by decide : 153 + 9 < 2 ^ 64) (hmost z)
        · intro hz
          obtain rfl := hisEmpty hz
          refine ⟨rfl, ?_⟩
          rw [h.forOverwrite]
          exact hempty
        · intro payload y hpayload hparse
          exact acceptable_of_parses hnaive hdetermines hoffset hempty hpayload hparse
        · intro hz hnot way mode
          exact h.readsBack hnaive hdetermines hoffset (by decide) hz (.inr hnot)
      · exact ValueCodec.encodeToVec_derived_inj tag.isLt hwrites hisEmpty hinj.mp
          (ha.trans hb.symm)

end ZonedSupport

/-- Both crates compare these by the instant only. -/
def Zoned.SameInstant {Z : Type} (zoned : Zoned Z) (a b : Z) : Prop :=
  zoned.instant a = zoned.instant b

theorem Zoned.keepsEquality_iff {Z : Type} {zoned : Zoned Z} {transport : Transport Z}
    {accepted : Z → Prop} (h : transport.Faithful accepted)
    (hext : ∀ {a b}, zoned.Corresponds zoned a b → a = b) {a b : Z} :
    transport.KeepsEquality zoned.SameInstant a b ↔
      accepted a ∧ (zoned.SameInstant a b → zoned.offset a = zoned.offset b) := by
  rw [h.keepsEquality_iff (Eq.refl (zoned.instant a))]
  exact and_congr_right fun _ => ⟨fun hsame hinstant => congrArg zoned.offset (hsame hinstant),
    fun hoffset hinstant => hext ⟨hinstant, hoffset hinstant⟩⟩

section
variable {NaiveDate NaiveTime NaiveDateTime FixedOffset DateTime : Type}
  {chrono : ChronoCalendar NaiveDate NaiveTime NaiveDateTime}
  {zones : ChronoZones NaiveDateTime FixedOffset DateTime} (hchrono : chrono.Documented)
  (hcalendar : chrono.Proleptic) (hzones : zones.Documented)
include hchrono hcalendar hzones

/-- A date-time of `chrono` keeps the promise unless it is a leap second that is
not made from its parts, or the other one has another offset. -/
theorem ChronoZones.keepsEquality_iff (place : Place) {a b : DateTime} :
    ((zones.dateTimeCodec chrono).transportIn (zones.dateTime chrono).emptyState
        place).KeepsEquality (zones.zoned chrono).SameInstant a b ↔
      chrono.TimeAccepted (chrono.time (zones.naiveUtc a)) ∧
        ((zones.zoned chrono).SameInstant a b →
          (zones.zoned chrono).offset a = (zones.zoned chrono).offset b) := by
  have hempty : chrono.DateTimeAccepted chrono.naiveDateTime.forOverwrite := by
    refine ⟨hcalendar.dateAccepted _, hcalendar.timeAccepted ?_⟩
    rw [show chrono.naiveDateTime.forOverwrite = chrono.new chrono.emptyDate chrono.emptyTime
      from rfl, hchrono.time_new, (hchrono.fromNumSecondsFromMidnightOpt hchrono.emptyTime).2]
    decide
  have hfaithful := hzones.lossless_dateTime.faithful hchrono.inverse_naiveDateTime
    hchrono.determines_naiveDateTime hzones.lossless_fixedOffset hempty place
  have hext {a b : DateTime} (h : (zones.zoned chrono).Corresponds (zones.zoned chrono) a b) :
      a = b := by
    apply (hzones.lossless_dateTime.encodeValue_inj hchrono.inverse_naiveDateTime
      hchrono.determines_naiveDateTime hzones.lossless_fixedOffset).mp
    exact (h.encodeValue_eq_iff (hzones.writtenAhead hchrono hcalendar a)
      (hzones.writtenAhead hchrono hcalendar b)).mpr rfl
  exact (Zoned.keepsEquality_iff hfaithful hext).trans
    (and_congr_left' (and_iff_right (hcalendar.dateAccepted _)))

end

section
variable {Date Time PrimitiveDateTime UtcOffset OffsetDateTime : Type} [DecidableEq Date]
  [DecidableEq Time] [DecidableEq UtcOffset]
  {zones : TimeZones Date Time PrimitiveDateTime UtcOffset OffsetDateTime}
  {time : TimeCalendar Date Time PrimitiveDateTime} (htime : time.Documented)
  (hcalendar : time.Proleptic) (hzones : zones.Documented time)
include htime hcalendar hzones

/-- A date-time of `time` keeps the promise unless the other one has another
offset. -/
theorem TimeZones.keepsEquality_iff (place : Place) {a b : OffsetDateTime} :
    ((zones.offsetDateTimeCodec time).transportIn (zones.offsetDateTime time).emptyState
        place).KeepsEquality (zones.zoned time).SameInstant a b ↔
      ((zones.zoned time).SameInstant a b →
        (zones.zoned time).offset a = (zones.zoned time).offset b) := by
  have haccepted (dt : PrimitiveDateTime) : time.DateTimeAccepted dt :=
    ⟨hcalendar.dateAccepted _, hcalendar.timeAccepted _⟩
  have hfaithful := (hzones.lossless_offsetDateTime htime).faithful htime.inverse_primitiveDateTime
    htime.determines_primitiveDateTime hzones.lossless_utcOffset (haccepted _) place
  have hext {a b : OffsetDateTime} (h : (zones.zoned time).Corresponds (zones.zoned time) a b) :
      a = b := by
    apply ((hzones.lossless_offsetDateTime htime).encodeValue_inj htime.inverse_primitiveDateTime
      htime.determines_primitiveDateTime hzones.lossless_utcOffset).mp
    exact (h.encodeValue_eq_iff (hzones.writtenAhead htime hcalendar a)
      (hzones.writtenAhead htime hcalendar b)).mpr h.2
  exact (Zoned.keepsEquality_iff hfaithful hext).trans (and_iff_right (haccepted _))

end

section
variable {S P : Type} {codec : ValueCodec P} {takeApart : S → P} {compose : P → S}

theorem Program.Leaves.map {α δ β : Type} [Buf β] {p : Program α} {buf : β} {x : α} {rest : Bytes}
    (h : p.Leaves buf x rest) (f : α → δ) : (p.bind fun x => .done (f x)).Leaves buf (f x) rest := by
  obtain ⟨capped, hrun, hholds⟩ := h
  refine ⟨capped, ?_, hholds⟩
  rw [run_bind, hrun]
  rfl

/-- A value that is taken apart is decoded as its parts are. -/
theorem ValueCodec.DecodesTo.through (hinverse : ∀ parts, takeApart (compose parts) = parts)
    {bytes : Bytes} {parts : P} (h : codec.DecodesTo bytes parts) :
    (codec.through takeApart compose).DecodesTo bytes (compose parts) := by
  constructor
  · intro β _ buf rest mode hbuf
    have hleaves := (h.decodeValue mode hbuf).map compose
    rw [← hinverse codec.forOverwrite] at hleaves
    exact hleaves
  · intro β _ buf rest mode hbuf
    have hleaves := (h.decodeValueDistinguished mode hbuf).map fun decoded =>
      (compose decoded.1, decoded.2)
    rw [← hinverse codec.forOverwrite] at hleaves
    exact hleaves

end

namespace RangeInclusive

variable {T : Type} {start stop : FieldCodec T} (hstart : Structural (.field start))
  (hstop : Structural (.field stop))
include hstart hstop

/-- A range is passed on as its bounds are, and arrives as the range between them. -/
theorem carries (place : Place) {range : RangeInclusive T}
    (hnests : (codec start stop).nestsWithin recursionLimit range)
    (hshort : ∀ payload, (codec start stop).encodeValue range = some payload →
      payload.length < 2 ^ 63) :
    ∃ bytes, ((codec start stop).transportIn ((boundsState start stop).through intoInner new)
        place).Carries range (new range.intoInner) True bytes ∧
      ∀ range', ((codec start stop).transportIn ((boundsState start stop).through intoInner new)
        place).writes range' bytes ↔ range.intoInner = range'.intoInner := by
  have htupled : Structural (.value (bounds start stop).tupled) :=
    .tupled (structural_bounds hstart hstop)
  have hwrites : (bounds start stop).tupled.Writes _ := htupled.built.writes not_false
  obtain ⟨payload, hpayload⟩ := hwrites.encode range.intoInner
  have hlt : payload.length < 2 ^ 63 := hshort payload hpayload
  cases place with
  | alone =>
      have hdecodes : (codec start stop).DecodesTo payload (new range.intoInner) := by
        apply ValueCodec.DecodesTo.through fun _ => rfl
        refine htupled.built.valueDecodesTo (fun way mode => ?_) hpayload (hlt.trans (by decide))
        exact htupled.readsBack way mode true recursionLimit _ hnests (.inl rfl)
      refine ⟨payload, ValueCodec.carries hpayload (fun _ => trivial) fun _ => hdecodes, ?_⟩
      refine fun range' => ⟨fun hrange' => ?_, fun hsame => ?_⟩
      · exact htupled.encodeValue_inj hpayload hrange' (hlt.trans (by decide))
      · show (bounds start stop).tupled.encodeValue range'.intoInner = some payload
        rw [← hsame, hpayload]
  | field tag =>
      have hmessage := structural_boundsMessage hstart hstop tag.isLt
      obtain ⟨bytes, hencode, hfits⟩ : ∃ bytes,
          (boundsMessage start stop tag.val).encodeToVec range.intoInner = some bytes ∧
            bytes.length < 2 ^ 64 := by
        refine ⟨_, ValueCodec.encodeToVec_derived tag.isLt hwrites hpayload, ?_⟩
        have hkey : (keyBytes tag.val (bounds start stop).tupled.wireType).length ≤ 9 :=
          varint_length_le _
        split_ifs
        · exact Nat.two_pow_pos 64
        · rw [List.length_append]
          omega
      have hdecodes : (message start stop tag.val).DecodesTo bytes (new range.intoInner) :=
        (hmessage.decodesTo (fun _ => hnests) hencode hfits).composed decodeAs_message
      have hrange : (message start stop tag.val).encodeToVec range = some bytes :=
        (encodeToVec_message range).trans hencode
      refine ⟨bytes, MessageCodec.carries hrange (fun _ => trivial) fun _ => hdecodes, ?_⟩
      refine fun range' => ⟨fun hrange' => ?_, fun hsame => ?_⟩
      · have hencode' := (encodeToVec_message range').symm.trans hrange'
        exact hmessage.encodeToVec_inj hencode hencode' hfits
      · show (message start stop tag.val).encodeToVec range' = some bytes
        rw [encodeToVec_message, ← hsame, hencode]

/-- A range keeps the promise unless it is exhausted, or the other one has the same
bounds and is. -/
theorem keepsEquality_iff (place : Place) {a b : RangeInclusive T}
    (hnests : (codec start stop).nestsWithin recursionLimit a)
    (hshort : ∀ payload, (codec start stop).encodeValue a = some payload →
      payload.length < 2 ^ 63) :
    ((codec start stop).transportIn ((boundsState start stop).through intoInner new)
        place).KeepsEquality Eq a b ↔
      a.exhausted = false ∧ (a.intoInner = b.intoInner → b.exhausted = false) := by
  obtain ⟨bytes, hcarries, hwrites⟩ := carries hstart hstop place hnests hshort
  have hnew : new a.intoInner = a ↔ a.exhausted = false :=
    ⟨fun h => h ▸ rfl, new_intoInner⟩
  have heq (hnot : a.exhausted = false) : a = b ↔ a.intoInner = b.intoInner ∧ b.exhausted = false := by
    constructor
    · rintro rfl
      exact ⟨rfl, hnot⟩
    · rintro ⟨hsame, hnot'⟩
      rw [← new_intoInner hnot, hsame, new_intoInner hnot']
  rw [hcarries.keepsEquality_iff, hwrites, hnew, true_and]
  constructor
  · rintro ⟨hiff, hnot⟩
    exact ⟨hnot, fun hsame => ((heq hnot).mp (hiff.mpr hsame)).2⟩
  · rintro ⟨hnot, himp⟩
    exact ⟨(heq hnot).trans (and_iff_left_of_imp himp), hnot⟩

end RangeInclusive

open RangeInclusive in
/-- Assuming what the two crates say about their date-times, these keep the promise
about equality if and only if the first is not a leap second that `chrono` does
not make from its parts, and the other is not the same instant at another offset.
Ranges keep it if and only if the first is not exhausted, and the other is not an
exhausted one with the same bounds. It is the same on their own and as the field
of a message. -/
theorem equality_kept_iff {NaiveDate NaiveTime NaiveDateTime FixedOffset DateTime Date Time
    PrimitiveDateTime UtcOffset OffsetDateTime : Type} [DecidableEq Date] [DecidableEq Time]
    [DecidableEq UtcOffset] {chrono : ChronoCalendar NaiveDate NaiveTime NaiveDateTime}
    {chronoZones : ChronoZones NaiveDateTime FixedOffset DateTime}
    {time : TimeCalendar Date Time PrimitiveDateTime}
    {timeZones : TimeZones Date Time PrimitiveDateTime UtcOffset OffsetDateTime}
    (hchrono : chrono.Documented) (hproleptic : chrono.Proleptic)
    (hchronoZones : chronoZones.Documented) (htime : time.Documented)
    (hproleptic' : time.Proleptic) (htimeZones : timeZones.Documented time) (place : Place) :
    (∀ a b, ((chronoZones.dateTimeCodec chrono).transportIn (chronoZones.dateTime chrono).emptyState
        place).KeepsEquality (chronoZones.zoned chrono).SameInstant a b ↔
      chrono.TimeAccepted (chrono.time (chronoZones.naiveUtc a)) ∧
        ((chronoZones.zoned chrono).SameInstant a b →
          (chronoZones.zoned chrono).offset a = (chronoZones.zoned chrono).offset b)) ∧
    (∀ a b, ((timeZones.offsetDateTimeCodec time).transportIn
        (timeZones.offsetDateTime time).emptyState
        place).KeepsEquality (timeZones.zoned time).SameInstant a b ↔
      ((timeZones.zoned time).SameInstant a b →
        (timeZones.zoned time).offset a = (timeZones.zoned time).offset b)) ∧
    ∀ {T : Type} {start stop : FieldCodec T}, Structural (.field start) → Structural (.field stop) →
      ∀ a b, (codec start stop).nestsWithin recursionLimit a →
        (∀ payload, (codec start stop).encodeValue a = some payload → payload.length < 2 ^ 63) →
          (((codec start stop).transportIn ((boundsState start stop).through intoInner new)
              place).KeepsEquality Eq a b ↔
            a.exhausted = false ∧ (a.intoInner = b.intoInner → b.exhausted = false)) :=
  ⟨fun _ _ => ChronoZones.keepsEquality_iff hchrono hproleptic hchronoZones place,
    fun _ _ => TimeZones.keepsEquality_iff htime hproleptic' htimeZones place,
    fun hstart hstop _ _ hnests hshort => keepsEquality_iff hstart hstop place hnests hshort⟩

/-- The start of 1970, as it is seen an hour ahead of it, is the same instant, but
not the same bytes. -/
theorem equality_not_kept :
    ¬((ChronoZones.ofParts.dateTimeCodec ChronoCalendar.ofParts).transportIn
        (ChronoZones.ofParts.dateTime ChronoCalendar.ofParts).emptyState .alone).KeepsEquality
      (ChronoZones.ofParts.zoned ChronoCalendar.ofParts).SameInstant
      (hourOf1970 (by decide) (by decide) 0 (by decide), ⟨0, by decide⟩)
      (hourOf1970 (by decide) (by decide) 0 (by decide),
        ⟨⟨3600, by decide, by decide⟩, by decide⟩) := by
  intro h
  obtain ⟨bytes, ha, hb⟩ := h.encode.mp rfl
  exact absurd (ha.trans hb.symm) (by decide)

/-- A range of numbers that was not iterated over is not the one that was. -/
theorem equality_kept_iff_range :
    ((RangeInclusive.codec u32Field u32Field).transportIn
        ((boundsState u32Field u32Field).through RangeInclusive.intoInner .new)
        (.field 1)).KeepsEquality Eq ⟨7, 9, false⟩ ⟨7, 8, true⟩ := by
  have hnests : (RangeInclusive.codec u32Field u32Field).nestsWithin recursionLimit
      ⟨7, 9, false⟩ := by
    refine ⟨99, rfl, fun i => ?_⟩
    fin_cases i <;> exact trivial
  have hshort : ∀ payload, (RangeInclusive.codec u32Field u32Field).encodeValue ⟨7, 9, false⟩ =
      some payload → payload.length < 2 ^ 63 := by
    intro payload hpayload
    have hbytes : (RangeInclusive.codec u32Field u32Field).encodeValue ⟨7, 9, false⟩ =
        some [4, 0, 7, 4, 9] := by decide
    obtain rfl := Option.some.inj (hbytes.symm.trans hpayload)
    decide
  have hkept := (equality_kept_iff ChronoCalendar.documented_ofParts
    ChronoCalendar.proleptic_ofParts ChronoZones.documented_ofParts
    TimeCalendar.documented_ofParts TimeCalendar.proleptic_ofParts
    (TimeZones.documented_ofParts (hourOf1970 (by decide) (by decide) 0 (by decide)))
    (.field 1)).2.2 structural_u32Field structural_u32Field ⟨7, 9, false⟩ ⟨7, 8, true⟩ hnests hshort
  exact hkept.mpr ⟨rfl, by decide⟩

end Bilrost
