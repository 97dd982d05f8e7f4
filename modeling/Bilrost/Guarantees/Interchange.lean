import Bilrost.Schema.ArrayForms
import Bilrost.Schema.MessageWrites
import Bilrost.Schema.Regular
import Bilrost.Schema.Single

/-!
Packed and unpacked. What is written in one form is read by the encoding of the
other just as well, and just as badly if it does not fit.
-/

namespace Bilrost

open Program

/-- The same items in either form under either encoding. -/
structure Interchanges {C : Type} (field : Form → FieldCodec C) (wireType : WireType)
    (written : Form → Bytes) (next : Bytes) (mode : DecodingMode) (depth : Nat) (value : C) :
    Prop where
  relaxed {β β' : Type} [Buf β] [Buf β'] {buf : β} {buf' : β'} (own own' form form' : Form)
    {decoded : C} {rest : Bytes} : Buf.bytes buf = written form ++ next →
    Buf.bytes buf' = written form' ++ next →
    (((field own).decode mode depth (form.wireType wireType) value).Leaves buf decoded rest ↔
      ((field own').decode mode depth (form'.wireType wireType) value).Leaves buf' decoded rest)
  rest {β : Type} [Buf β] {buf : β} (own form : Form) {decoded : C} {rest : Bytes} :
    Buf.bytes buf = written form ++ next →
    ((field own).decode mode depth (form.wireType wireType) value).Leaves buf decoded rest →
    rest = next
  distinguished {β : Type} [Buf β] {buf : β} {own form : Form} {decoded : C} {canon : Canonicity}
    {rest : Bytes} : form ≠ own → Buf.bytes buf = written form ++ next →
    (((field own).decodeDistinguished mode depth (form.wireType wireType) value).Leaves buf
        (decoded, canon) rest ↔
      ((field own).decode mode depth (form.wireType wireType) value).Leaves buf decoded rest ∧
        canon = .notCanonical)

/-- It is enough that all parse what one set of items decodes to. -/
theorem interchanges_of_parses {C : Type} {field : Form → FieldCodec C} {wireType : WireType}
    {written : Form → Bytes} {next : Bytes} {mode : DecodingMode} {depth : Nat} {value : C}
    (hregular : ∀ own, (field own).Regular) (accepts : C → Prop)
    (hown : ∀ form decoded rest,
      ((field form).decodeBy .relaxed mode depth (form.wireType wireType) value).Parses
          (written form ++ next) (decoded, .canonical) rest ↔ rest = next ∧ accepts decoded)
    (hother : ∀ way own form decoded canon rest, form ≠ own →
      (((field own).decodeBy way mode depth (form.wireType wireType) value).Parses
          (written form ++ next) (decoded, canon) rest ↔
        rest = next ∧ canon = way.demoted ∧ accepts decoded)) :
    Interchanges field wireType written next mode depth value := by
  have hrelaxed {β : Type} [Buf β] {buf : β} (own form : Form) {decoded : C} {rest : Bytes}
      (hbuf : Buf.bytes buf = written form ++ next) :
      ((field own).decode mode depth (form.wireType wireType) value).Leaves buf decoded rest ↔
        rest = next ∧ accepts decoded := by
    have hdecoder := hregular own .relaxed mode depth (form.wireType wireType) value
    have hparses : ((field own).decode mode depth (form.wireType wireType) value).Parses
        (written form ++ next) decoded rest ↔
        ((field own).decodeBy .relaxed mode depth (form.wireType wireType) value).Parses
          (written form ++ next) (decoded, .canonical) rest := by
      simp [FieldCodec.decodeBy]
    rw [leaves_iff hdecoder.of_asCanonical, hbuf, hparses]
    by_cases hform : form = own
    · subst hform
      exact hown form decoded rest
    · rw [hother .relaxed own form decoded .canonical rest hform]
      simp [Way.demoted]
  constructor
  · intro β β' _ _ buf buf' own own' form form' decoded rest hbuf hbuf'
    rw [hrelaxed own form hbuf, hrelaxed own' form' hbuf']
  · intro β _ buf own form decoded rest hbuf hleaves
    exact ((hrelaxed own form hbuf).mp hleaves).1
  · intro β _ buf own form decoded canon rest hform hbuf
    have hdecoder : ((field own).decodeDistinguished mode depth (form.wireType wireType) value).Regular :=
      hregular own .distinguished mode depth _ value
    have hparses := hother .distinguished own form decoded canon rest hform
    rw [hrelaxed own form hbuf, leaves_iff hdecoder, hbuf]
    refine hparses.trans ?_
    rw [Way.demoted]
    tauto

def Part.WritesUndelimited : Part → Prop
  | .value codec => codec.wireType ≠ .lengthDelimited → codec.Writes True
  | _ => True

/-- What is not delimited is a scalar, or stands for one. -/
theorem Built.writes_undelimited {allowed : Features} {part : Part} (h : Built allowed part) :
    part.WritesUndelimited := by
  induction h with
  | scalar h => exact fun _ => h.writes True
  | proxied _ _ _ _ _ hcodec => exact fun hwire => (hcodec hwire).proxied _ _ _
  | packed | localProxy | map | packedArray | nested | tupled | inlined =>
      exact fun hwire => absurd rfl hwire
  | _ => trivial

/-- Records under the tag of the one before. -/
theorem encodeRecords_repeated (tag : Nat) (wireType : WireType) (payloads : List Bytes) :
    TagWriter.encodeRecords ⟨tag⟩ (payloads.map (Record.mk tag wireType)) =
      some (ValueCodec.unpackedPayloads wireType payloads, ⟨tag⟩) := by
  induction payloads with
  | nil => rfl
  | cons payload payloads ih =>
      simp [TagWriter.encodeRecords, ih, ValueCodec.unpackedPayloads]

/-- The key of a field and the form of its items behind. -/
theorem encode_form {T : Type} {item : ValueCodec T} (h : item.Writes True) {items : List T}
    (hne : items ≠ []) {payloads : List Bytes} (hmap : items.map item.encodeValue = payloads.map some)
    (hall : encodeAll item.encodeValue items = some payloads.flatten) (form : Form) (tag : Nat)
    (tw : TagWriter) : (form.field item (Collection.vec T)).encode tag items tw =
      (tw.encodeKey tag (form.wireType item.wireType)).map fun key =>
        (key.1 ++ form.bytes item.wireType payloads, key.2) := by
  cases form with
  | packed =>
      have hempty : ¬(Collection.vec T).isEmpty items = true := by
        simpa [Collection.vec] using hne
      have hvalue : (item.packed (Collection.vec T)).encodeValue items =
          some (Form.packed.bytes item.wireType payloads) := by
        have hiter : (Collection.vec T).iter items = items := rfl
        simp only [ValueCodec.packed, ValueCodec.packedItems, encodeDelimited, hiter, hall,
          h.many hall, encodeVarint_eq, Form.bytes]
        rfl
      simp only [Form.field, ValueCodec.packedField, if_neg hempty, ValueCodec.encodeField, hvalue]
      cases htw : tw.encodeKey tag (item.packed (Collection.vec T)).wireType <;>
        simp [Form.wireType, ValueCodec.packed, ValueCodec.packedItems] at htw ⊢ <;> simp [htw]
  | unpacked =>
      cases payloads with
      | nil => exact absurd (List.map_eq_nil_iff.mp hmap) hne
      | cons payload payloads =>
          have hfields : (Form.unpacked.field item (Collection.vec T)).encode tag items tw =
              tw.encodeRecords ((payload :: payloads).map (Record.mk tag item.wireType)) :=
            ValueCodec.encodeFields_eq hmap tw
          rw [hfields, List.map_cons, TagWriter.encodeRecords, Form.wireType, Form.bytes]
          cases hkey : tw.encodeKey tag item.wireType with
          | none => rfl
          | some key =>
              have hnext : key.2 = ⟨tag⟩ := by
                rw [TagWriter.encodeKey] at hkey
                split_ifs at hkey
                exact (congrArg Prod.snd (Option.some.inj hkey)).symm
              simp [hnext, encodeRecords_repeated]

/-- The bytes of a list in either form, and what they are decoded to. Whichever
encoding reads whichever form, the collection or the array is the same, or there
is none. The form that is not the encoding's own is not canonical. -/
theorem packed_unpacked_interchange {allowed : Features} {T : Type} {item : ValueCodec T}
    (hitem : Built allowed (.value item)) (hwire : item.wireType ≠ .lengthDelimited)
    {items : List T} (hne : items ≠ []) :
    ∃ payloads : List Bytes,
      (∀ (form : Form) tag tw, (form.field item (Collection.vec T)).encode tag items tw =
        (tw.encodeKey tag (form.wireType item.wireType)).map fun key =>
          (key.1 ++ form.bytes item.wireType payloads, key.2)) ∧
      (payloads.flatten.length < 2 ^ 64 → ∀ next, NoRepeat next → ∀ mode depth,
        (∀ {C : Type} {coll : Collection C T}, coll.Standard allowed → ∀ value,
          Interchanges (fun own => own.field item coll) item.wireType
            (fun form => form.bytes item.wireType payloads) next mode depth value) ∧
        ∀ {state : EmptyState T} {n : Nat}, 0 < n → item.emptyState = some state →
          item.Empties state → ∀ value,
            Interchanges (fun own => own.arrayField item state n) item.wireType
              (fun form => form.bytes item.wireType payloads) next mode depth value) := by
  have hwrites : item.Writes True := hitem.writes_undelimited hwire
  have hcuts : item.Cuts := hitem.cuts
  obtain ⟨payloads, hmap, hall⟩ := hwrites.exists_encodeAll items
  refine ⟨payloads, encode_form hwrites hne hmap hall, fun hlength next hnext mode depth => ?_⟩
  have hfits (form : Form) : form.Fits item.wireType payloads next := by
    constructor
    · intro payload hpayload
      have hmem : some payload ∈ items.map item.encodeValue := hmap ▸ List.mem_map_of_mem hpayload
      obtain ⟨v, -, hv⟩ := List.mem_map.mp hmem
      exact hwrites.complete hv fun hdelimited => absurd hdelimited hwire
    · exact fun _ => hlength
    · rintro - rfl
      exact hne (List.map_eq_nil_iff.mp hmap)
    · exact fun _ => hnext
  constructor
  · intro C coll hcoll value
    have hregular (own : Form) : (own.field item coll).Regular := by
      cases own with
      | packed => exact (Built.packedField hcoll hitem).regular
      | unpacked => exact (Built.unpackedField hcoll hitem).regular
    apply interchanges_of_parses hregular fun decoded =>
      Rounds (item.Takes coll .relaxed mode depth) (value, .canonical) payloads (decoded, .canonical)
    · intro form decoded rest
      rw [(hfits form).parses_own hcuts]
      simp only [Way.demoted, Canonicity.update_canonical, ite_self, Prod.mk.eta, exists_eq_right']
    · intro way own form decoded canon rest hform
      exact (hfits form).parses_other hcuts hform hwire
  · intro state n hn hstate hempties value
    obtain ⟨n, rfl⟩ := Nat.exists_eq_add_one_of_ne_zero hn.ne'
    have hregular (own : Form) : (own.arrayField item state (n + 1)).Regular := by
      cases own with
      | packed => exact (Built.packedArrayField (.inl hn) hstate hempties hitem).regular
      | unpacked => exact (Built.unpackedArrayField (.inl hn) hstate hempties hitem).regular
    apply interchanges_of_parses hregular fun decoded =>
      ValueCodec.Fills (item.Replaces .relaxed mode depth) value payloads (decoded, .canonical)
    · intro form decoded rest
      rw [(hfits form).parses_ownArray hcuts]
      simp only [Way.demoted, Canonicity.update_canonical, ite_self, Prod.mk.eta, exists_eq_right']
    · intro way own form decoded canon rest hform
      exact (hfits form).parses_otherArray hcuts hform hwire

/-- Two booleans, and what each encoding reads of the other's form. -/
theorem packed_unpacked_interchange_bool :
    let packed := VarintScalar.bool.scalar.codec.packedField (Collection.vec Bool)
    let unpacked := VarintScalar.bool.scalar.codec.unpackedField (Collection.vec Bool)
    packed.encode 1 [true, false] TagWriter.new = some ([5, 2, 1, 0], ⟨1⟩) ∧
      unpacked.encode 1 [true, false] TagWriter.new = some ([4, 1, 0, 0], ⟨1⟩) ∧
        (packed.decodeDistinguished .owned 0 .varint []).Leaves ([1, 0, 0] : Bytes)
            ([true, false], .notCanonical) [] ∧
          (unpacked.decodeDistinguished .owned 0 .lengthDelimited []).Leaves ([2, 1, 0] : Bytes)
            ([true, false], .notCanonical) [] := by
  intro packed unpacked
  have hitem : Built .all (.value VarintScalar.bool.scalar.codec) :=
    .scalar (.varint VarintScalar.lawful_bool)
  have hpacked : packed.encode 1 [true, false] TagWriter.new = some ([5, 2, 1, 0], ⟨1⟩) := by
    decide +kernel
  have hunpacked : unpacked.encode 1 [true, false] TagWriter.new = some ([4, 1, 0, 0], ⟨1⟩) := by
    decide +kernel
  obtain ⟨payloads, hwritten, hdecodes⟩ :=
    packed_unpacked_interchange hitem (by decide) (List.cons_ne_nil true [false])
  have hbytes (form : Form) {key : UInt8} {bytes : Bytes}
      (hkey : TagWriter.new.encodeKey 1 (form.wireType VarintScalar.bool.scalar.codec.wireType) =
        some ([key], ⟨1⟩))
      (hencode : (form.field VarintScalar.bool.scalar.codec (Collection.vec Bool)).encode 1
        [true, false] TagWriter.new = some (key :: bytes, ⟨1⟩)) :
      form.bytes VarintScalar.bool.scalar.codec.wireType payloads = bytes := by
    have hform := (hwritten form 1 TagWriter.new).symm.trans hencode
    rw [hkey] at hform
    exact (List.cons.inj (congrArg Prod.fst (Option.some.inj hform))).2
  have hpackedBytes := hbytes .packed (by decide) hpacked
  have hunpackedBytes := hbytes .unpacked (by decide) hunpacked
  have hflatten : payloads.flatten.length < 2 ^ 64 := by
    have hlength := congrArg List.length hpackedBytes
    simp only [Form.bytes, List.length_append, List.length_cons, List.length_nil] at hlength
    omega
  have hreads := (hdecodes hflatten [] (by rintro key ⟨⟩) .owned 0).1 (.vec Bool) []
  have hbuf : Buf.bytes ([2, 1, 0] : Bytes) =
      Form.packed.bytes VarintScalar.bool.scalar.codec.wireType payloads ++ [] := by
    rw [hpackedBytes]
    rfl
  have hbuf' : Buf.bytes ([1, 0, 0] : Bytes) =
      Form.unpacked.bytes VarintScalar.bool.scalar.codec.wireType payloads ++ [] := by
    rw [hunpackedBytes]
    rfl
  -- what each encoding reads of its own form
  have hown : (packed.decode .owned 0 .lengthDelimited []).Leaves ([2, 1, 0] : Bytes)
      [true, false] [] := ⟨_, rfl, rfl, rfl⟩
  have hown' : (unpacked.decode .owned 0 .varint []).Leaves ([1, 0, 0] : Bytes)
      [true, false] [] := ⟨_, rfl, rfl, rfl⟩
  refine ⟨hpacked, hunpacked, ?_, ?_⟩
  · apply (hreads.distinguished (by decide : Form.unpacked ≠ Form.packed) hbuf').mpr
    exact ⟨(hreads.relaxed .packed .unpacked .unpacked .unpacked hbuf' hbuf').mpr hown', rfl⟩
  · apply (hreads.distinguished (by decide : Form.packed ≠ Form.unpacked) hbuf).mpr
    exact ⟨(hreads.relaxed .unpacked .packed .packed .packed hbuf hbuf).mpr hown, rfl⟩

end Bilrost
