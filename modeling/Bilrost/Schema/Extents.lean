import Bilrost.Schema.MessageReadBack

/-!
How far fields reach. Whatever the decoder of a field makes of it, it takes one
complete value of its wire type, and possibly the fields behind with the same
tag. What follows these does not matter to it, except that it has another tag.
-/

namespace Bilrost

open Program

/-- Further fields under a tag. -/
def Repeats (tag : Nat) (records : List Record) : Prop :=
  ∀ r ∈ records, r.tag = tag ∧ r.wireType.Complete r.payload

/-- A complete value, and with it further fields under the same tag. -/
def IsExtent (tag : Nat) (wireType : WireType) (taken : Bytes) : Prop :=
  ∃ payload more, wireType.Complete payload ∧ Repeats tag more ∧
    taken = payload ++ wireRecords tag more

namespace Program

/-- A decoder that takes a value and maybe its repetitions, and to which all that
follows is alike as long as it does not repeat the field once more. -/
def Reaches {α : Type} (tag : Nat) (wireType : WireType) (p : Program α) : Prop :=
  ∀ ⦃bytes : Bytes⦄ ⦃x : α⦄ ⦃rest : Bytes⦄, p.Parses bytes x rest →
    ∃ taken, bytes = taken ++ rest ∧ IsExtent tag wireType taken ∧
      ∀ ⦃rest' : Bytes⦄, (NoRepeat rest → NoRepeat rest') → p.Parses (taken ++ rest') x rest'

/-- A program that takes nothing. -/
def Idle {α : Type} (p : Program α) : Prop :=
  ∀ ⦃bytes : Bytes⦄ ⦃x : α⦄ ⦃rest : Bytes⦄, p.Parses bytes x rest →
    bytes = rest ∧ ∀ bytes', p.Parses bytes' x bytes'

section
variable {α δ : Type} {tag : Nat} {wireType : WireType} {p : Program α}

theorem idle_done (value : α) : (done value).Idle := by
  intro bytes x rest hparse
  obtain ⟨rfl, rfl⟩ := parses_done.mp hparse
  exact ⟨rfl, fun _ => parses_done.mpr ⟨rfl, rfl⟩⟩

theorem Local.reaches (h : p.Local)
    (hcomplete : ∀ {payload x}, p.Parses payload x [] → wireType.Complete payload) :
    p.Reaches tag wireType := by
  intro bytes x rest hparse
  obtain ⟨payload, rfl, hpayload⟩ := h.iff.mp hparse
  refine ⟨payload, rfl, ⟨payload, [], hcomplete hpayload, ?_, ?_⟩, fun rest' _ => ?_⟩
  · exact fun r hr => absurd hr List.not_mem_nil
  · exact (List.append_nil payload).symm
  · exact h.append hpayload rest'

theorem Reaches.bind (h : p.Reaches tag wireType) {f : α → Program δ} (hf : ∀ x, (f x).Idle) :
    (p.bind f).Reaches tag wireType := by
  intro bytes y rest hparse
  obtain ⟨x, mid, hx, hy⟩ := parses_bind.mp hparse
  obtain ⟨rfl, hidle⟩ := hf x hy
  obtain ⟨taken, rfl, hextent, hmore⟩ := h hx
  refine ⟨taken, rfl, hextent, fun rest' hrest' => ?_⟩
  exact parses_bind.mpr ⟨x, rest', hmore hrest', hidle rest'⟩

/-- The canonicity that is added to a value has nothing to do with its extent. -/
theorem Reaches.of_asCanonical (h : (asCanonical p).Reaches tag wireType) :
    p.Reaches tag wireType := by
  intro bytes x rest hparse
  have hboth : (asCanonical p).Parses bytes (x, .canonical) rest := parses_asCanonical.mpr ⟨hparse, rfl⟩
  obtain ⟨taken, rfl, hextent, hmore⟩ := h hboth
  exact ⟨taken, rfl, hextent, fun rest' hrest' => (parses_asCanonical.mp (hmore hrest')).1⟩

theorem reaches_error (kind : DecodeErrorKind) : (error kind : Program α).Reaches tag wireType :=
  fun _ _ _ hparse => (parses_error.mp hparse).elim

theorem Reaches.demote (h : p.Reaches tag wireType) (way : Way) :
    (way.demote p).Reaches tag wireType := by
  intro bytes x rest hparse
  obtain ⟨hvalue, hcanon⟩ := Way.parses_demote.mp hparse
  obtain ⟨taken, rfl, hextent, hmore⟩ := h hvalue
  exact ⟨taken, rfl, hextent, fun rest' hrest' => Way.parses_demote.mpr ⟨hmore hrest', hcanon⟩⟩

end

end Program

theorem Way.idle_refuseEmpty {T : Type} (way : Way) (isEmpty : Bool) (decoded : T × Canonicity) :
    (way.refuseEmpty isEmpty decoded).Idle := by
  intro bytes x rest hparse
  obtain ⟨hx, rfl⟩ := Way.parses_refuseEmpty.mp hparse
  exact ⟨rfl, fun _ => Way.parses_refuseEmpty.mpr ⟨hx, rfl⟩⟩

theorem parses_skipValue {wireType : WireType} {bytes rest : Bytes} {x : Unit} :
    (skipValue wireType).Parses bytes x rest ↔
      ∃ payload, bytes = payload ++ rest ∧ wireType.Complete payload := by
  have hskip {n : Nat} {bytes : Bytes} : (read (.skipBytes n)).Parses bytes x rest ↔
      ∃ taken : Bytes, taken.length = n ∧ bytes = taken ++ rest := by
    unfold Program.read
    rw [parses_op]
    simp only [Op.parse, Option.ite_none_right_eq_some, Option.some.injEq, Prod.mk.injEq,
      parses_done]
    constructor
    · rintro ⟨y, mid, ⟨hle, -, rfl⟩, -, rfl⟩
      exact ⟨bytes.take n, List.length_take_of_le hle, (List.take_append_drop n bytes).symm⟩
    · rintro ⟨taken, rfl, rfl⟩
      exact ⟨x, rest, ⟨by simp, trivial, by simp⟩, trivial, rfl⟩
  cases wireType with
  | varint =>
      simp only [skipValue, parses_op, parses_decodeVarint, hskip, List.length_eq_zero_iff,
        WireType.Complete]
      constructor
      · rintro ⟨n, mid, ⟨hlt, rfl⟩, taken, rfl, rfl⟩
        exact ⟨varint n, rfl, n, hlt, rfl⟩
      · rintro ⟨payload, rfl, n, hlt, rfl⟩
        exact ⟨n, rest, ⟨hlt, rfl⟩, [], rfl, rfl⟩
  | lengthDelimited =>
      simp only [skipValue, parses_op, parses_decodeVarint, hskip, WireType.Complete]
      constructor
      · rintro ⟨n, mid, ⟨hlt, rfl⟩, taken, rfl, rfl⟩
        exact ⟨varint taken.length ++ taken, (List.append_assoc ..).symm, taken, hlt, rfl⟩
      · rintro ⟨payload, rfl, content, hlt, rfl⟩
        exact ⟨content.length, content ++ rest, ⟨hlt, List.append_assoc ..⟩, content, rfl, rfl⟩
  | thirtyTwoBit =>
      simp only [skipValue, hskip, WireType.Complete]
      constructor
      · rintro ⟨taken, hlen, rfl⟩
        exact ⟨taken, rfl, hlen⟩
      · rintro ⟨taken, rfl, hlen⟩
        exact ⟨taken, hlen, rfl⟩
  | sixtyFourBit =>
      simp only [skipValue, hskip, WireType.Complete]
      constructor
      · rintro ⟨taken, hlen, rfl⟩
        exact ⟨taken, rfl, hlen⟩
      · rintro ⟨taken, rfl, hlen⟩
        exact ⟨taken, hlen, rfl⟩

/-- A field that repeats the tag of the one before begins with a small key. -/
theorem keyBytes_zero_append (wireType : WireType) (bytes : Bytes) :
    ∃ key : UInt8, key.toNat < 4 ∧ WireType.fromU8 key.toNat = wireType ∧
      keyBytes 0 wireType ++ bytes = key :: bytes := by
  have hkey : (UInt8.ofNat wireType.toU64).toNat = wireType.toU64 := by
    cases wireType <;> rfl
  refine ⟨UInt8.ofNat wireType.toU64, ?_, ?_, ?_⟩
  · rw [hkey]
    exact wireType.toU64_lt
  · rw [hkey, WireType.fromU8_toU64]
  · rw [keyBytes_zero, List.singleton_append]

/-- Any bytes are a repeated field or do not begin with one. -/
theorem exists_key_of_repeat {bytes : Bytes} (h : ¬NoRepeat bytes) :
    ∃ wireType left, bytes = keyBytes 0 wireType ++ left := by
  cases bytes with
  | nil => exact absurd (fun _ h => by cases h) h
  | cons key left =>
      have hlt : key.toNat < 4 := by simpa [NoRepeat] using h
      refine ⟨WireType.fromU8 key.toNat, left, ?_⟩
      have hkey : (UInt8.ofNat (WireType.fromU8 key.toNat).toU64).toNat = key.toNat := by
        rw [WireType.toU64_fromU8, Nat.mod_eq_of_lt hlt, UInt8.toNat_ofNat']
        omega
      rw [keyBytes_zero, List.singleton_append, UInt8.toNat_inj.mp hkey]

theorem parses_skipRepeated (tag : Nat) {bytes rest : Bytes} {x : Unit} :
    (whileRepeated (fun wireType _ => skipValue wireType) ()).Parses bytes x rest ↔
      NoRepeat rest ∧ ∃ more, Repeats tag more ∧ bytes = wireRecords tag more ++ rest := by
  have hle : ∀ wireType (s : Unit) bytes parsed, (skipValue wireType).parse bytes = .ok parsed →
      parsed.rest.length ≤ bytes.length := by
    intro wireType s bytes parsed hparse
    obtain ⟨payload, rfl, -⟩ := parses_skipValue.mp ⟨parsed.lowest, hparse⟩
    simp
  have hcons {wireType : WireType} {bytes rest : Bytes} :
      (whileRepeated (fun wireType _ => skipValue wireType) ()).Parses
          (keyBytes 0 wireType ++ bytes) x rest ↔
        ∃ payload mid, wireType.Complete payload ∧ bytes = payload ++ mid ∧
          (whileRepeated (fun wireType _ => skipValue wireType) ()).Parses mid x rest := by
    obtain ⟨key, hkey, rfl, heq⟩ := keyBytes_zero_append wireType bytes
    have hsame : (whileRepeated (fun wireType _ => skipValue wireType) ()).parse (key :: bytes) =
        ((skipValue (WireType.fromU8 key.toNat)).bind fun s =>
          whileRepeated (fun wireType _ => skipValue wireType) s).parse bytes :=
      (parse_whileRepeated_cons hle () hkey).trans (parse_bind ..).symm
    rw [heq, Parses, hsame]
    change Parses _ bytes x rest ↔ _
    rw [parses_bind]
    simp only [parses_skipValue]
    constructor
    · rintro ⟨s, mid, ⟨payload, rfl, hcomplete⟩, hmore⟩
      exact ⟨payload, mid, hcomplete, rfl, hmore⟩
    · rintro ⟨payload, mid, hcomplete, rfl, hmore⟩
      exact ⟨(), mid, ⟨payload, rfl, hcomplete⟩, hmore⟩
  constructor
  · intro hloop
    induction hn : bytes.length using Nat.strongRecOn generalizing bytes with
    | ind n ih =>
        by_cases hstop : NoRepeat bytes
        · obtain ⟨lowest, hparse⟩ := hloop
          rw [parse_whileRepeated_stop _ _ hstop] at hparse
          obtain ⟨-, -, rfl⟩ : () = x ∧ .canonical = lowest ∧ bytes = rest := by simpa using hparse
          exact ⟨hstop, [], fun r hr => absurd hr List.not_mem_nil, rfl⟩
        · obtain ⟨wireType, left, rfl⟩ := exists_key_of_repeat hstop
          obtain ⟨payload, mid, hcomplete, rfl, hmore⟩ := hcons.mp hloop
          have hlt : mid.length < n := by
            have hpos := List.length_pos_iff.mpr hcomplete.ne_nil
            rw [← hn, List.length_append, List.length_append]
            omega
          obtain ⟨hend, more, hrepeats, rfl⟩ := ih mid.length hlt hmore rfl
          refine ⟨hend, ⟨tag, wireType, payload⟩ :: more, ?_, ?_⟩
          · exact List.forall_mem_cons.mpr ⟨⟨rfl, hcomplete⟩, hrepeats⟩
          · rw [wireRecords, Nat.sub_self]
            simp only [List.append_assoc]
  · rintro ⟨hstop, more, hrepeats, rfl⟩
    induction more with
    | nil => exact ⟨_, parse_whileRepeated_stop _ _ hstop⟩
    | cons r more ih =>
        obtain ⟨⟨rfl, hcomplete⟩, hrest⟩ := List.forall_mem_cons.mp hrepeats
        rw [wireRecords, Nat.sub_self, List.append_assoc, List.append_assoc]
        exact hcons.mpr ⟨r.payload, _, hcomplete, rfl, ih hrest⟩

/-- A field that is skipped is skipped together with its repetitions, whatever
their wire types. -/
theorem parses_skipField (tag : Nat) {wireType : WireType} {bytes rest : Bytes} {x : Unit} :
    (skipField wireType).Parses bytes x rest ↔
      NoRepeat rest ∧ ∃ payload more, wireType.Complete payload ∧ Repeats tag more ∧
        bytes = payload ++ (wireRecords tag more ++ rest) := by
  rw [skipField, bind_eq, parses_bind]
  simp only [parses_skipValue, parses_skipRepeated tag]
  constructor
  · rintro ⟨u, mid, ⟨payload, rfl, hcomplete⟩, hstop, more, hrepeats, rfl⟩
    exact ⟨hstop, payload, more, hcomplete, hrepeats, rfl⟩
  · rintro ⟨hstop, payload, more, hcomplete, hrepeats, rfl⟩
    exact ⟨(), _, ⟨payload, rfl, hcomplete⟩, hstop, more, hrepeats, rfl⟩

theorem reaches_skipField (tag : Nat) (wireType : WireType) :
    (skipField wireType).Reaches tag wireType := by
  intro bytes x rest hparse
  obtain ⟨hstop, payload, more, hcomplete, hrepeats, rfl⟩ := (parses_skipField tag).mp hparse
  refine ⟨payload ++ wireRecords tag more, (List.append_assoc ..).symm,
    ⟨payload, more, hcomplete, hrepeats, rfl⟩, fun rest' hrest' => ?_⟩
  apply (parses_skipField tag).mpr
  exact ⟨hrest' hstop, payload, more, hcomplete, hrepeats, List.append_assoc ..⟩

def FieldCodec.ReachesAt {T : Type} (codec : FieldCodec T) (tag : Nat) (wireType : WireType) :
    Prop :=
  ∀ way mode depth value, (codec.decodeBy way mode depth wireType value).Reaches tag wireType

def MessageField.ReachesAt {T : Type} (field : MessageField T) (tag : Nat) (wireType : WireType) :
    Prop :=
  ∀ way mode depth dup value,
    (field.decodeBy way mode depth tag wireType dup value).Reaches tag wireType

def MessageCodec.ReachesAt {M : Type} (codec : MessageCodec M) (tag : Nat) (wireType : WireType) :
    Prop :=
  ∀ way mode depth dup m, (codec.fieldBy way mode depth tag wireType dup m).Reaches tag wireType

/-- Every field has an extent. -/
def MessageCodec.Reaches {M : Type} (codec : MessageCodec M) : Prop :=
  ∀ tag wireType, codec.ReachesAt tag wireType

namespace Part

/-- The field that is found under a tag with a wire type is an array of length
zero, and its items have that wire type. Its decoder leaves what follows the key
where it is. -/
inductive EmptyArrayAt (tag : Nat) : WireType → Part → Prop
  | unpacked {T : Type} (item : ValueCodec T) (state : EmptyState T) :
      EmptyArrayAt tag item.wireType (.field (item.unpackedArrayField state 0))
  | packed {T : Type} (item : ValueCodec T) (state : EmptyState T)
      (hitem : item.wireType ≠ .lengthDelimited) :
      EmptyArrayAt tag item.wireType (.field (item.packedArrayField state 0))
  | optional {T : Type} (item : ValueCodec T) :
      EmptyArrayAt tag item.wireType (.field (item.unpackedArrayOptionField 0))
  | tagged {T : Type} {codec : FieldCodec T} {wireType : WireType} (tag' : Nat)
      (h : EmptyArrayAt tag wireType (.field codec)) :
      EmptyArrayAt tag wireType (.messageField (codec.tagged tag'))
  | fields {M : Type} {F : Fields M} {w : F.Writing} {wireType : WireType} {i : F.Index}
      (hi : F.fieldOf tag = some i) (h : EmptyArrayAt tag wireType (.messageField (F.field i))) :
      EmptyArrayAt tag wireType (.message (F.message w))
  | recursive {M : Type} {codec : MessageCodec M} {wireType : WireType}
      (approx : Nat → MessageCodec M) (hsame : ∀ depth, codec.SameTo depth (approx depth))
      (depth : Nat) (h : EmptyArrayAt tag wireType (.message (approx depth))) :
      EmptyArrayAt tag wireType (.message codec)
  | unrolled {M : Type} {codec : MessageCodec M} {wireType : WireType}
      (approx : Nat → MessageCodec M) (within : Nat → M → Prop)
      (hunrolls : codec.Unrolls approx within) (n : Nat)
      (h : EmptyArrayAt tag wireType (.message (approx n))) :
      EmptyArrayAt tag wireType (.message codec)

def ReachesAt (tag : Nat) (wireType : WireType) : Part → Prop
  | .value _ => True
  | .field codec => codec.ReachesAt tag wireType
  | .messageField fld => fld.ReachesAt tag wireType
  | .message codec => codec.ReachesAt tag wireType

end Part

namespace ValueCodec

variable {T C : Type} {item codec : ValueCodec T} {way : Way} {mode : DecodingMode}
  {depth tag : Nat} {wireType : WireType}

theorem Cuts.reaches_decodeBy (h : codec.Cuts) (allowEmpty : Bool) (value : T) :
    (codec.decodeBy way mode allowEmpty depth value).Reaches tag codec.wireType :=
  (h.isLocal way mode allowEmpty depth value).reaches h.complete

theorem Cuts.reaches_decodeFieldBy (h : codec.Cuts) (allowEmpty : Bool) (value : T) :
    (codec.decodeFieldBy way mode allowEmpty depth wireType value).Reaches tag wireType := by
  intro bytes x rest hparse
  obtain ⟨rfl, hvalue⟩ := parses_decodeFieldBy.mp hparse
  obtain ⟨taken, rfl, hextent, hmore⟩ := h.reaches_decodeBy allowEmpty value hvalue
  refine ⟨taken, rfl, hextent, fun rest' hrest' => ?_⟩
  exact parses_decodeFieldBy.mpr ⟨rfl, hmore hrest'⟩

/-- Items with keys between them. -/
theorem isExtent_payloads {payload : Bytes} {payloads : List Bytes}
    (h : ∀ p ∈ payload :: payloads, wireType.Complete p) :
    IsExtent tag wireType (payload ++ unpackedPayloads wireType payloads) := by
  obtain ⟨hfirst, hmore⟩ := List.forall_mem_cons.mp h
  refine ⟨payload, payloads.map (Record.mk tag wireType), hfirst, ?_, ?_⟩
  · intro r hr
    obtain ⟨p, hp, rfl⟩ := List.mem_map.mp hr
    exact ⟨rfl, hmore p hp⟩
  · rw [wireRecords_repeated]

theorem Cuts.reaches_decodeUnpackedBy (h : item.Cuts) (coll : Collection C T) (value : C) :
    (item.decodeUnpackedBy coll way mode depth wireType value).Reaches tag wireType := by
  intro bytes x rest hparse
  obtain ⟨rfl, hstop, payload, payloads, rfl, hrounds⟩ := h.parses_decodeUnpackedBy.mp hparse
  refine ⟨payload ++ unpackedPayloads item.wireType payloads, (List.append_assoc ..).symm,
    isExtent_payloads (h.complete_of_rounds hrounds), fun rest' hrest' => ?_⟩
  apply h.parses_decodeUnpackedBy.mpr
  exact ⟨rfl, hrest' hstop, payload, payloads, List.append_assoc .., hrounds⟩

/-- Items in fields of their own, if there are any or their wire type is not that
of the field. -/
theorem Cuts.reaches_decodeArrayUnpackedOnlyBy (h : item.Cuts) {n : Nat} (arr : List.Vector T n)
    (hn : 0 < n ∨ wireType ≠ item.wireType) :
    (item.decodeArrayUnpackedOnlyBy way mode depth wireType arr).Reaches tag wireType := by
  intro bytes x rest hparse
  have hwire : item.wireType = wireType := by
    obtain ⟨u, mid, hcheck, -⟩ := parses_bind.mp hparse
    exact (parses_checkWireType.mp hcheck).1
  obtain ⟨k, rfl⟩ := Nat.exists_eq_succ_of_ne_zero (hn.resolve_right (not_not_intro hwire.symm)).ne'
  obtain ⟨rfl, hstop, payload, payloads, rfl, hfills⟩ :=
    h.parses_decodeArrayUnpackedOnlyBy.mp hparse
  refine ⟨payload ++ unpackedPayloads item.wireType payloads, (List.append_assoc ..).symm,
    isExtent_payloads (h.complete_of_fills hfills), fun rest' hrest' => ?_⟩
  apply h.parses_decodeArrayUnpackedOnlyBy.mpr
  exact ⟨rfl, hrest' hstop, payload, payloads, List.append_assoc .., hfills⟩

/-- Only fields in a region come packed. -/
theorem wireType_of_comesPacked (h : item.comesPacked wireType = true) :
    wireType = .lengthDelimited := by
  have hboth : wireType = .lengthDelimited ∧ item.wireType ≠ .lengthDelimited := by
    simpa [comesPacked] using h
  exact hboth.1

theorem Cuts.reaches_decodeArrayEitherReprBy (h : item.Cuts) {n : Nat} (arr : List.Vector T n)
    (hn : 0 < n ∨ wireType ≠ item.wireType) :
    (item.decodeArrayEitherReprBy way mode depth wireType arr).Reaches tag wireType := by
  unfold decodeArrayEitherReprBy
  split_ifs with hpacked
  · rw [wireType_of_comesPacked hpacked]
    have hvalue : ((item.packedArray n).decodeBy .relaxed mode true depth arr).Reaches tag
        .lengthDelimited := (cuts_packedArray item n).reaches_decodeBy true arr
    exact hvalue.of_asCanonical.demote way
  · exact h.reaches_decodeArrayUnpackedOnlyBy arr hn

theorem Cuts.reaches_plain (h : codec.Cuts) (state : EmptyState T) :
    (codec.plain state).ReachesAt tag wireType := by
  intro way mode depth value
  rw [plain_decodeBy]
  exact (h.reaches_decodeFieldBy false value).bind fun decoded => way.idle_refuseEmpty _ decoded

theorem Cuts.reaches_optional (h : codec.Cuts) : codec.optional.ReachesAt tag wireType := by
  intro way mode depth value
  rw [optional_decodeBy]
  exact (h.reaches_decodeFieldBy true _).bind fun decoded => idle_done _

theorem Cuts.reaches_unpackedField (h : item.Cuts) (coll : Collection C T) :
    (item.unpackedField coll).ReachesAt tag wireType := by
  intro way mode depth value
  rw [unpackedField_decodeBy]
  split_ifs with hpacked
  · rw [wireType_of_comesPacked hpacked]
    have hcuts : (item.packed coll).Cuts := cuts_packedItems item.wireType.fixedSize item coll
    have hvalue : ((item.packed coll).decodeBy .relaxed mode true depth value).Reaches tag
        .lengthDelimited := hcuts.reaches_decodeBy true value
    exact hvalue.of_asCanonical.demote way
  · exact h.reaches_decodeUnpackedBy coll value

theorem Cuts.reaches_packedField (h : item.Cuts) (coll : Collection C T) :
    (item.packedField coll).ReachesAt tag wireType := by
  intro way mode depth value
  rw [packedField_decodeBy]
  split_ifs with hwire
  · subst hwire
    have hcuts : (item.packed coll).Cuts := cuts_packedItems item.wireType.fixedSize item coll
    have hvalue : ((item.packed coll).decodeBy way mode false depth value).Reaches tag
        .lengthDelimited := hcuts.reaches_decodeBy false value
    exact hvalue.bind fun decoded => way.idle_refuseEmpty _ decoded
  · have hvalue : (item.decodeUnpackedBy coll .relaxed mode depth wireType value).Reaches tag
        wireType := h.reaches_decodeUnpackedBy coll value
    rw [decodeUnpackedBy_relaxed] at hvalue
    exact hvalue.of_asCanonical.demote way

section
variable {n : Nat}

theorem Cuts.reaches_unpackedArrayField (h : item.Cuts) (state : EmptyState T)
    (hn : 0 < n ∨ wireType ≠ item.wireType) :
    (item.unpackedArrayField state n).ReachesAt tag wireType := by
  intro way mode depth value
  rw [unpackedArrayField_decodeBy]
  apply (h.reaches_decodeArrayEitherReprBy value hn).bind
  exact fun decoded => way.idle_refuseEmpty _ decoded

theorem Cuts.reaches_packedArrayField (h : item.Cuts) (state : EmptyState T)
    (hn : 0 < n ∨ wireType ≠ item.wireType ∨ wireType = .lengthDelimited) :
    (item.packedArrayField state n).ReachesAt tag wireType := by
  intro way mode depth value
  rw [packedArrayField_decodeBy]
  split_ifs with hwire
  · subst hwire
    have hvalue : ((item.packedArray n).decodeBy way mode false depth value).Reaches tag
        .lengthDelimited := (cuts_packedArray item n).reaches_decodeBy false value
    exact hvalue.bind fun decoded => way.idle_refuseEmpty _ decoded
  · have hitems : 0 < n ∨ wireType ≠ item.wireType := hn.imp_right fun h => h.resolve_right hwire
    have hvalue : (item.decodeArrayUnpackedOnlyBy .relaxed mode depth wireType value).Reaches tag
        wireType := h.reaches_decodeArrayUnpackedOnlyBy value hitems
    rw [decodeArrayUnpackedOnlyBy_relaxed] at hvalue
    exact hvalue.of_asCanonical.demote way

theorem Cuts.reaches_unpackedArrayOptionField (h : item.Cuts)
    (hn : 0 < n ∨ wireType ≠ item.wireType) :
    (item.unpackedArrayOptionField n).ReachesAt tag wireType := by
  intro way mode depth value
  rw [unpackedArrayOptionField_decodeBy]
  exact (h.reaches_decodeArrayEitherReprBy _ hn).bind fun decoded => idle_done _

end

end ValueCodec

section
variable {tag : Nat} {wireType : WireType}

theorem FieldCodec.ReachesAt.tagged {T : Type} {codec : FieldCodec T}
    (h : codec.ReachesAt tag wireType) (tag' : Nat) :
    (codec.tagged tag').ReachesAt tag wireType := by
  intro way mode depth dup value
  rw [FieldCodec.tagged_decodeBy]
  split_ifs
  · exact reaches_error _
  · exact h way mode depth value

theorem Oneof.reaches {T : Type} {oneof : Oneof T} (hcuts : ∀ i, (oneof.codec i).Cuts) :
    oneof.field.ReachesAt tag wireType := by
  intro way mode depth dup value
  rw [Oneof.field_decodeBy]
  cases oneof.currentTag value with
  | some current => exact reaches_error _
  | none =>
      cases oneof.variant tag with
      | none => exact reaches_error _
      | some i => exact ((hcuts i).reaches_decodeFieldBy true _).bind fun decoded => idle_done _

theorem Way.reaches_skipUnknown {M : Type} (way : Way) (tag : Nat) (wireType : WireType) (m : M) :
    (way.skipUnknown wireType m).Reaches tag wireType := by
  intro bytes x rest hparse
  obtain ⟨hskip, hx⟩ := Way.parses_skipUnknown.mp hparse
  obtain ⟨taken, rfl, hextent, hmore⟩ := reaches_skipField tag wireType hskip
  exact ⟨taken, rfl, hextent, fun rest' hrest' => Way.parses_skipUnknown.mpr ⟨hmore hrest', hx⟩⟩

theorem Fields.reaches {M : Type} {F : Fields M} {w : F.Writing}
    (h : ∀ i, F.fieldOf tag = some i → (F.field i).ReachesAt tag wireType) :
    (F.message w).ReachesAt tag wireType := by
  intro way mode depth dup m
  rw [message_fieldBy]
  cases hi : F.fieldOf tag with
  | none => exact way.reaches_skipUnknown tag wireType m
  | some i => exact (h i hi way mode depth dup _).bind fun decoded => idle_done _

end

namespace MessageCodec

variable {M : Type} {codec : MessageCodec M} {approx : Nat → MessageCodec M} {tag : Nat}
  {wireType : WireType}

theorem reaches_of_sameTo (hsame : ∀ depth, codec.SameTo depth (approx depth))
    (h : ∀ depth, (approx depth).ReachesAt tag wireType) : codec.ReachesAt tag wireType := by
  intro way mode depth
  rw [(hsame depth).fieldBy way mode le_rfl]
  exact h depth way mode depth

theorem Unrolls.parses_fieldBy {within : Nat → M → Prop} (hunrolls : codec.Unrolls approx within)
    {way : Way} {mode : DecodingMode} {depth tag : Nat} {wireType : WireType} {dup : Bool} {m : M}
    {bytes rest : Bytes} {x : M × Canonicity} {n : Nat} (hn : bytes.length ≤ n) :
    (codec.fieldBy way mode depth tag wireType dup m).Parses bytes x rest ↔
      ((approx n).fieldBy way mode depth tag wireType dup m).Parses bytes x rest := by
  rw [hunrolls.fieldBy]
  unfold Parses
  rw [hunrolls.coherent way mode depth tag wireType dup m hn]
  exact Iff.rfl

/-- The bytes behind a field may be more than there were, so that another
approximation reads it. -/
theorem reaches_of_unrolls {within : Nat → M → Prop} (hunrolls : codec.Unrolls approx within)
    (h : ∀ n, (approx n).ReachesAt tag wireType) : codec.ReachesAt tag wireType := by
  intro way mode depth dup m bytes x rest hparse
  have hextents (n : Nat) (hn : bytes.length ≤ n) :=
    h n way mode depth dup m ((hunrolls.parses_fieldBy hn).mp hparse)
  obtain ⟨taken, rfl, hextent, -⟩ := hextents bytes.length le_rfl
  refine ⟨taken, rfl, hextent, fun rest' hrest' => ?_⟩
  obtain ⟨taken', heq, -, hmore⟩ := hextents (max (taken ++ rest).length (taken ++ rest').length)
    (le_max_left _ _)
  obtain rfl := List.append_cancel_right heq
  exact (hunrolls.parses_fieldBy (le_max_right _ _)).mpr (hmore hrest')

end MessageCodec

/-- Every field has an extent that is not an array of length zero. -/
theorem Built.reachesAt {allowed : Features} {tag : Nat} {wireType : WireType} {part : Part}
    (h : Built allowed part) (harrays : allowed.emptyArrays → ¬part.EmptyArrayAt tag wireType) :
    part.ReachesAt tag wireType := by
  have hitems {n : Nat} (hn : 0 < n ∨ allowed.emptyArrays) {itemType : WireType}
      (h : n = 0 → allowed.emptyArrays → wireType ≠ itemType) : 0 < n ∨ wireType ≠ itemType := by
    rcases n.eq_zero_or_pos with rfl | hpos
    · exact .inr (h rfl (hn.resolve_left (lt_irrefl 0)))
    · exact .inl hpos
  induction h with
  | plain _ _ hcodec => exact hcodec.cuts.reaches_plain _
  | optional hcodec => exact hcodec.cuts.reaches_optional
  | unpackedField _ hitem => exact hitem.cuts.reaches_unpackedField _
  | packedField _ hitem => exact hitem.cuts.reaches_packedField _
  | unpackedArrayField hn _ _ hitem =>
      apply hitem.cuts.reaches_unpackedArrayField _ (hitems hn _)
      rintro rfl hempty rfl
      exact harrays hempty (.unpacked _ _)
  | @packedArrayField T item state n hn _ _ hitem =>
      apply hitem.cuts.reaches_packedArrayField
      by_cases hwire : wireType = .lengthDelimited
      · exact .inr (.inr hwire)
      · refine (hitems hn ?_).imp_right .inl
        rintro rfl hempty rfl
        exact harrays hempty (.packed _ _ hwire)
  | unpackedArrayOptionField hn hitem =>
      apply hitem.cuts.reaches_unpackedArrayOptionField (hitems hn _)
      rintro rfl hempty rfl
      exact harrays hempty (.optional _)
  | tagged tag' _ ih =>
      exact (ih fun hempty harray => harrays hempty (.tagged tag' harray)).tagged tag'
  | oneof hvariants => exact Oneof.reaches fun i => (hvariants i).cuts
  | fields _ _ _ _ ih =>
      exact Fields.reaches fun i hi => ih i fun hempty harray => harrays hempty (.fields hi harray)
  | recursive approx hsame _ _ ih =>
      apply MessageCodec.reaches_of_sameTo hsame
      exact fun depth => ih depth fun hempty harray =>
        harrays hempty (.recursive approx hsame depth harray)
  | unrolled approx within hunrolls _ ih =>
      apply MessageCodec.reaches_of_unrolls hunrolls
      exact fun n => ih n fun hempty harray =>
        harrays hempty (.unrolled approx within hunrolls n harray)
  | scalar | packed | localProxy | map | packedArray | proxied | nested | tupled | inlined =>
      exact trivial

/-- The decoder of what is under a tag takes nothing where nothing is left. -/
def Part.TakesNothing (tag : Nat) (wireType : WireType) : Part → Prop
  | .value _ => False
  | .field codec => ∀ value, ∃ x,
      (codec.decodeBy .relaxed .owned 0 wireType value).Parses [] x []
  | .messageField fld => ∀ value, ∃ x,
      (fld.decodeBy .relaxed .owned 0 tag wireType false value).Parses [] x []
  | .message codec => ∀ m, ∃ x,
      (codec.fieldBy .relaxed .owned 0 tag wireType false m).Parses [] x []

section
variable {tag : Nat} {wireType : WireType}

theorem Part.EmptyArrayAt.takesNothing {part : Part} (h : part.EmptyArrayAt tag wireType) :
    part.TakesNothing tag wireType := by
  induction h with
  | unpacked item state =>
      intro value
      refine ⟨(value, .canonical), ?_⟩
      rw [ValueCodec.unpackedArrayField_decodeBy]
      apply parses_bind.mpr
      exact ⟨_, [], ValueCodec.parses_decodeArrayEitherReprBy_zero, by simp⟩
  | packed item state hitem =>
      intro value
      refine ⟨(value, Way.relaxed.demoted), ?_⟩
      rw [ValueCodec.packedArrayField_decodeBy, if_neg hitem]
      have hvalue : (item.decodeArrayUnpackedOnlyBy .relaxed .owned 0 item.wireType value).Parses []
          (value, .canonical) [] := ValueCodec.parses_decodeArrayUnpackedOnlyBy_zero
      rw [ValueCodec.decodeArrayUnpackedOnlyBy_relaxed] at hvalue
      exact Way.parses_demote.mpr ⟨(parses_asCanonical.mp hvalue).1, rfl⟩
  | optional item =>
      intro value
      refine ⟨(some (value.getD (List.Vector.replicate 0 item.forOverwrite)), .canonical), ?_⟩
      rw [ValueCodec.unpackedArrayOptionField_decodeBy]
      apply parses_bind.mpr
      exact ⟨_, [], ValueCodec.parses_decodeArrayEitherReprBy_zero, parses_done.mpr ⟨rfl, rfl⟩⟩
  | tagged tag' _ ih =>
      intro value
      rw [FieldCodec.tagged_decodeBy, if_neg Bool.false_ne_true]
      exact ih value
  | @fields M F w wireType i hi _ ih =>
      intro m
      obtain ⟨x, hx⟩ := ih (F.get m i)
      refine ⟨(F.set m i x.1, x.2), ?_⟩
      rw [Fields.message_fieldBy, hi]
      exact parses_bind.mpr ⟨x, [], hx, parses_done.mpr ⟨rfl, rfl⟩⟩
  | recursive approx hsame depth _ ih =>
      intro m
      rw [(hsame depth).fieldBy .relaxed .owned (Nat.zero_le depth)]
      exact ih m
  | unrolled approx within hunrolls n _ ih =>
      intro m
      obtain ⟨x, hx⟩ := ih m
      exact ⟨x, (hunrolls.parses_fieldBy (Nat.zero_le n)).mpr hx⟩

/-- The fields of a message type have an extent but for the arrays of length zero. -/
theorem Built.reachesAt_iff {M : Type} {codec : MessageCodec M} {allowed : Features}
    (h : Built allowed (.message codec)) :
    codec.ReachesAt tag wireType ↔ ¬(Part.message codec).EmptyArrayAt tag wireType := by
  constructor
  · intro hreaches harray
    obtain ⟨x, hx⟩ := harray.takesNothing codec.empty
    obtain ⟨taken, hnil, ⟨payload, more, hcomplete, -, rfl⟩, -⟩ := hreaches _ _ _ _ _ hx
    simp only [List.append_nil] at hnil
    exact hcomplete.ne_nil (List.append_eq_nil_iff.mp hnil.symm).1
  · exact fun harray => h.reachesAt fun _ => harray

end

/-- Without arrays of length zero every field has an extent. -/
theorem Built.reaches {allowed : Features} (hallowed : ¬allowed.emptyArrays) {M : Type}
    {codec : MessageCodec M} (h : Built allowed (.message codec)) : codec.Reaches :=
  fun _ _ => h.reachesAt fun hempty => absurd hempty hallowed

theorem Built.not_emptyArrayAt {allowed : Features} (hallowed : ¬allowed.emptyArrays) {M : Type}
    {codec : MessageCodec M} (h : Built allowed (.message codec)) (tag : Nat) (wireType : WireType) :
    ¬(Part.message codec).EmptyArrayAt tag wireType :=
  h.reachesAt_iff.mp (h.reaches hallowed tag wireType)

end Bilrost
