import Bilrost.Schema.DecodedOnce
import Bilrost.Schema.OneofSplit
import Bilrost.Schema.Sheds

/-!
Fields and messages that are decoded are what would be written, but for the
extensions. A message whose decoder objected to nothing else was read from its
fields in the order of their tags, each of them once and none of them empty but
for extensions, with fields in between that it does not know. Without these
that is the order in which the fields are encoded.
-/

namespace Bilrost

open Program

/-- What is decoded into an empty field is written as what the payloads it was
decoded from extend. -/
def FieldCodec.Sheds {T : Type} (ordered : Prop) (least : Canonicity) (codec : FieldCodec T) :
    Prop :=
  ∀ ⦃mode : DecodingMode⦄ ⦃depth : Nat⦄ ⦃wireType : WireType⦄ ⦃bytes rest : Bytes⦄ ⦃value : T⦄
    ⦃canon : Canonicity⦄,
    (codec.decodeBy .distinguished mode depth wireType codec.forOverwrite).Parses bytes
      (value, canon) rest → least ≤ canon →
    ∃ payload payloads payloads',
      bytes = payload ++ (ValueCodec.unpackedPayloads wireType payloads ++ rest) ∧
      codec.Written ordered value wireType payloads' ∧
      Extends least (.field codec) (payload :: payloads) payloads' ∧
      (payloads' = [] → value = codec.forOverwrite)

/-- What is decoded into an empty field of a message is written as what the
records it was decoded from extend. -/
def MessageField.Sheds {T : Type} (ordered : Prop) (least : Canonicity)
    (field : MessageField T) : Prop :=
  ∀ ⦃mode : DecodingMode⦄ ⦃depth tag : Nat⦄ ⦃wireType : WireType⦄ ⦃dup : Bool⦄
    ⦃bytes rest : Bytes⦄ ⦃value : T⦄ ⦃canon : Canonicity⦄, tag ∈ field.tags →
    (field.decodeBy .distinguished mode depth tag wireType dup field.empty).Parses bytes
      (value, canon) rest → least ≤ canon →
    ∃ payload records records', bytes = payload ++ (wireRecords tag records ++ rest) ∧
      (∀ r ∈ records, r.tag = tag) ∧ field.Written ordered value records' ∧
      (∀ r ∈ records', r.tag = tag) ∧
      Extends least (.messageField field) (⟨tag, wireType, payload⟩ :: records) records' ∧
      (records' = [] → value = field.empty)

namespace Way

section
variable {T : Type} {value : T} {canon : Canonicity} {bytes rest : Bytes}
  (hcanon : .hasExtensions ≤ canon)
include hcanon

/-- What is not objected to was in its own form, and was not empty. -/
theorem not_parses_demote {p : Program T} :
    ¬(distinguished.demote p).Parses bytes (value, canon) rest := by
  intro hparse
  obtain rfl : canon = .notCanonical := (parses_demote.mp hparse).2
  exact absurd hcanon (by decide)

theorem parses_refuseEmpty_of_le {isEmpty : Bool} {decoded : T × Canonicity} :
    (distinguished.refuseEmpty isEmpty decoded).Parses bytes (value, canon) rest ↔
      isEmpty = false ∧ decoded = (value, canon) ∧ bytes = rest := by
  rw [parses_refuseEmpty]
  cases isEmpty with
  | false => simp [Prod.ext_iff, eq_comm]
  | true =>
      have hne : canon ≠ .notCanonical := by
        rintro rfl
        exact absurd hcanon (by decide)
      simp [demoted, hne]

end

end Way

namespace ValueCodec

variable {T C : Type} {item codec : ValueCodec T} {coll : Collection C T} {state : EmptyState T}
  {ordered : Prop} {n : Nat} {least : Canonicity}

/-- Fields with one payload that are not empty. -/
theorem Guards.sheds_of_nonempty {field : FieldCodec T} (h : codec.Guards field)
    (hwrites : codec.Writes ordered) (hcarries : field.Carries codec) {value : T}
    (hempty : field.emptyState.isEmpty value = false) {payload payload' : Bytes}
    (hpayload : codec.encodeValue value = some payload')
    (hextends : Extends least (.value codec) payload payload') :
    field.Written ordered value codec.wireType [payload'] ∧
      Extends least (.field field) [payload] [payload'] := by
  have hwritten := h.written hwrites hpayload
  rw [hempty] at hwritten
  exact ⟨hwritten, .payloads_of_each hcarries (.cons hextends .nil)⟩

theorem Sheds.plain (h : codec.Sheds least) (hleast : .hasExtensions ≤ least)
    (hcuts : codec.Cuts) (hwrites : codec.Writes ordered)
    (hempty : ∀ value, state.isEmpty value = true → value = codec.forOverwrite) :
    (codec.plain state).Sheds ordered least := by
  intro mode depth wireType bytes rest value canon hparse hcanon
  rw [plain_decodeBy] at hparse
  obtain ⟨decoded, mid, hfield, hrefuse⟩ := parses_bind.mp hparse
  obtain ⟨hstays, rfl, rfl⟩ := (Way.parses_refuseEmpty_of_le (hleast.trans hcanon)).mp hrefuse
  obtain ⟨rfl, hvalue⟩ := parses_decodeFieldBy.mp hfield
  obtain ⟨payload, rfl, hpayload⟩ := (hcuts.isLocal .distinguished mode false depth _).iff.mp hvalue
  obtain ⟨payload', hencode, hextends⟩ := h.encode hpayload hcanon
  have hguards := guards_plain codec state
  cases hisEmpty : state.isEmpty value with
  | false =>
      obtain ⟨hwritten, hfield⟩ :=
        hguards.sheds_of_nonempty hwrites (.plain codec state) hisEmpty hencode hextends
      exact ⟨payload, [], [payload'], rfl, hwritten, hfield, fun hnil => by cases hnil⟩
  | true =>
      -- nothing but extensions: the value goes with its field
      have hchecks : codec.checksEmpty = true := by
        rw [hisEmpty, Bool.and_true, Bool.not_eq_false'] at hstays
        exact hstays
      have hvalue := hempty value hisEmpty
      have hwritten := hguards.written hwrites hencode
      rw [show (codec.plain state).emptyState.isEmpty value = true from hisEmpty] at hwritten
      have hencode' : codec.encodeValue codec.forOverwrite = some payload' := hvalue ▸ hencode
      have hne : payload ≠ payload' := by
        rintro rfl
        exact h.ne hchecks hpayload hcanon hencode'
      have hleast' : least ≤ .hasExtensions := by
        by_contra hlt
        obtain rfl : least = .canonical := by
          revert hlt
          cases least <;> decide
        exact hne hextends.eq_of_canonical
      exact ⟨payload, [], [], rfl, hwritten, .emptied hleast' hchecks hencode' hne hextends,
        fun _ => hvalue⟩

/-- A field is decoded as a packed value. Any other form is not canonical. -/
def Packs (codec : ValueCodec T) (field : FieldCodec T) : Prop :=
  ∃ unpacked : DecodingMode → Nat → WireType → Program T, ∀ mode depth wireType,
    field.decodeBy .distinguished mode depth wireType field.forOverwrite =
      if wireType = .lengthDelimited then
        (codec.decodeBy .distinguished mode false depth codec.forOverwrite).bind fun decoded =>
          Way.distinguished.refuseEmpty (field.emptyState.isEmpty decoded.1) decoded
      else Way.distinguished.demote (unpacked mode depth wireType)

theorem packs_packedField (item : ValueCodec T) (coll : Collection C T) :
    (item.packed coll).Packs (item.packedField coll) :=
  ⟨_, fun _ _ _ => packedField_decodeBy ..⟩

theorem packs_packedArrayField (item : ValueCodec T) (state : EmptyState T) (n : Nat) :
    (item.packedArray n).Packs (item.packedArrayField state n) :=
  ⟨_, fun _ _ _ => packedArrayField_decodeBy ..⟩

theorem Packs.parses_iff {field : FieldCodec T} (h : codec.Packs field) (hcuts : codec.Cuts)
    {mode : DecodingMode} {depth : Nat} {wireType : WireType} {bytes rest : Bytes} {value : T}
    {canon : Canonicity} (hcanon : .hasExtensions ≤ canon) :
    (field.decodeBy .distinguished mode depth wireType field.forOverwrite).Parses bytes
        (value, canon) rest ↔
      wireType = .lengthDelimited ∧ field.emptyState.isEmpty value = false ∧
        ∃ payload, bytes = payload ++ rest ∧
          (codec.decodeBy .distinguished mode false depth codec.forOverwrite).Parses payload
            (value, canon) [] := by
  obtain ⟨unpacked, hdecode⟩ := h
  have hlocal := hcuts.isLocal .distinguished mode false depth codec.forOverwrite
  rw [hdecode]
  constructor
  · intro hparse
    split_ifs at hparse with hwire
    · obtain ⟨decoded, mid, hpacked, hrefuse⟩ := parses_bind.mp hparse
      obtain ⟨hne, rfl, rfl⟩ := (Way.parses_refuseEmpty_of_le hcanon).mp hrefuse
      exact ⟨hwire, hne, hlocal.iff.mp hpacked⟩
    · exact (Way.not_parses_demote hcanon hparse).elim
  · rintro ⟨rfl, hne, hpayload⟩
    rw [if_pos rfl]
    refine parses_bind.mpr ⟨_, _, hlocal.iff.mpr hpayload, ?_⟩
    exact (Way.parses_refuseEmpty_of_le hcanon).mpr ⟨hne, rfl, rfl⟩

theorem Sheds.packed {field : FieldCodec T} (h : codec.Sheds least)
    (hleast : .hasExtensions ≤ least) (hpacks : codec.Packs field) (hcuts : codec.Cuts)
    (hguards : codec.Guards field) (hcarries : field.Carries codec)
    (hwire : codec.wireType = .lengthDelimited) (hwrites : codec.Writes ordered) :
    field.Sheds ordered least := by
  intro mode depth wireType bytes rest value canon hparse hcanon
  obtain ⟨rfl, hne, payload, rfl, hpayload⟩ :=
    (hpacks.parses_iff hcuts (hleast.trans hcanon)).mp hparse
  obtain ⟨payload', hencode, hextends⟩ := h.encode hpayload hcanon
  obtain ⟨hwritten, hfield⟩ := hguards.sheds_of_nonempty hwrites hcarries hne hencode hextends
  rw [hwire] at hwritten
  exact ⟨payload, [], [payload'], rfl, hwritten, hfield, fun hnil => by cases hnil⟩

theorem Sheds.packedField (h : (item.packed coll).Sheds least) (hleast : .hasExtensions ≤ least)
    (hwrites : (item.packed coll).Writes ordered) : (item.packedField coll).Sheds ordered least :=
  h.packed hleast (packs_packedField item coll) (cuts_packedItems _ item coll)
    (guards_packedField item coll) (.packedField item coll) rfl hwrites

theorem Sheds.packedArrayField (h : (item.packedArray n).Sheds least)
    (hleast : .hasExtensions ≤ least) (hwrites : (item.packedArray n).Writes ordered) :
    (item.packedArrayField state n).Sheds ordered least :=
  h.packed hleast (packs_packedArrayField item state n) (cuts_packedArray item n)
    (guards_packedArrayField item state n) (.packedArrayField item state n) rfl hwrites

theorem Sheds.optional (h : codec.Sheds least) (hcuts : codec.Cuts)
    (hwrites : codec.Writes ordered) : codec.optional.Sheds ordered least := by
  intro mode depth wireType bytes rest value canon hparse hcanon
  rw [optional_decodeBy] at hparse
  obtain ⟨⟨v, canon'⟩, mid, hfield, hdone⟩ := parses_bind.mp hparse
  obtain ⟨heq, rfl⟩ := parses_done.mp hdone
  obtain ⟨rfl, rfl⟩ : some v = value ∧ canon' = canon := by simpa using heq
  obtain ⟨rfl, hvalue⟩ := parses_decodeFieldBy.mp hfield
  obtain ⟨payload, rfl, hpayload⟩ := (hcuts.isLocal .distinguished mode true depth _).iff.mp hvalue
  obtain ⟨payload', hencode, hextends⟩ := h.encode hpayload hcanon
  exact ⟨payload, [], [payload'], rfl, hwrites.written_some hencode,
    .payloads_of_each (.optional codec) (.cons hextends .nil), fun hnil => by cases hnil⟩

/-- Payloads of items that are written as another field has them. -/
theorem written_of_each {field : FieldCodec C} {value : C} {items : List T}
    {payload : Bytes} {payloads payloads' : List Bytes}
    (hencodes : items.map item.encodeValue = payloads'.map some)
    (hextends : ExtendsEach least item (payload :: payloads) payloads')
    (hwritten : ∃ payloads', items.map item.encodeValue = payloads'.map some ∧
      field.Written ordered value item.wireType payloads') :
    field.Written ordered value item.wireType payloads' ∧ payloads' ≠ [] := by
  obtain ⟨written, hencodes', hwritten⟩ := hwritten
  obtain rfl : payloads' = written :=
    List.map_injective_iff.mpr (Option.some_injective _) (hencodes.symm.trans hencodes')
  refine ⟨hwritten, ?_⟩
  rintro rfl
  cases hextends

theorem Spells.unpackedField (h : item.Spells least) (hleast : .hasExtensions ≤ least)
    (hcuts : item.Cuts) (hwrites : item.Writes ordered) {allowed : Features}
    (hcoll : coll.Standard allowed) (hhashed : ¬allowed.hashed)
    (hreversed : ordered → ∀ items, coll.reversed items = (coll.iter items).reverse) :
    (item.unpackedField coll).Sheds ordered least := by
  intro mode depth wireType bytes rest items canon hparse hcanon
  rw [unpackedField_decodeBy] at hparse
  split_ifs at hparse
  · exact (Way.not_parses_demote (hleast.trans hcanon) hparse).elim
  · obtain ⟨rfl, -, payload, payloads, rfl, hrounds⟩ := hcuts.parses_decodeUnpackedBy.mp hparse
    obtain ⟨payloads', hencodes, hextends⟩ :=
      h.rounds_empty hleast (hcoll.appends hhashed) hcoll.iter_empty hrounds hcanon
    obtain ⟨hwritten, hne⟩ := written_of_each hencodes hextends
      (hwrites.written_unpackedField hcoll hreversed items)
    exact ⟨payload, payloads, payloads', rfl, hwritten,
      .payloads_of_each (.unpackedField item coll) hextends, fun hnil => absurd hnil hne⟩

/-- The items of an array in its own form. -/
theorem fills_of_eitherRepr (hcuts : item.Cuts) {mode : DecodingMode} {depth : Nat}
    {wireType : WireType} {bytes rest : Bytes} {arr : List.Vector T (n + 1)} {canon : Canonicity}
    (hcanon : .hasExtensions ≤ canon)
    (hparse : (item.decodeArrayEitherReprBy .distinguished mode depth wireType
      (List.Vector.replicate (n + 1) item.forOverwrite)).Parses bytes (arr, canon) rest) :
    item.wireType = wireType ∧ ∃ payload payloads,
      bytes = payload ++ (unpackedPayloads item.wireType payloads ++ rest) ∧
      Fills (item.Replaces .distinguished mode depth)
        (List.Vector.replicate (n + 1) item.forOverwrite) (payload :: payloads) (arr, canon) := by
  unfold decodeArrayEitherReprBy at hparse
  split_ifs at hparse
  · exact (Way.not_parses_demote hcanon hparse).elim
  · obtain ⟨hwire, -, hfills⟩ := hcuts.parses_decodeArrayUnpackedOnlyBy.mp hparse
    exact ⟨hwire, hfills⟩

theorem Spells.unpackedArrayField (h : item.Spells least) (hleast : .hasExtensions ≤ least)
    (hcuts : item.Cuts) (hwrites : item.Writes ordered) :
    (item.unpackedArrayField state (n + 1)).Sheds ordered least := by
  intro mode depth wireType bytes rest arr canon hparse hcanon
  rw [unpackedArrayField_decodeBy] at hparse
  obtain ⟨decoded, mid, heither, hrefuse⟩ := parses_bind.mp hparse
  obtain ⟨hne, rfl, rfl⟩ := (Way.parses_refuseEmpty_of_le (hleast.trans hcanon)).mp hrefuse
  obtain ⟨rfl, payload, payloads, rfl, hfills⟩ :=
    fills_of_eitherRepr hcuts (hleast.trans hcanon) heither
  obtain ⟨payloads', hencodes, hextends⟩ := h.fills hfills hcanon
  obtain ⟨hwritten, hne'⟩ := written_of_each hencodes hextends
    (hwrites.written_unpackedArrayField hne)
  exact ⟨payload, payloads, payloads', rfl, hwritten,
    .payloads_of_each (.unpackedArrayField item state _) hextends, fun hnil => absurd hnil hne'⟩

theorem Spells.unpackedArrayOptionField (h : item.Spells least) (hleast : .hasExtensions ≤ least)
    (hcuts : item.Cuts) (hwrites : item.Writes ordered) :
    (item.unpackedArrayOptionField (n + 1)).Sheds ordered least := by
  intro mode depth wireType bytes rest value canon hparse hcanon
  rw [unpackedArrayOptionField_decodeBy] at hparse
  obtain ⟨⟨arr, canon'⟩, mid, heither, hdone⟩ := parses_bind.mp hparse
  obtain ⟨heq, rfl⟩ := parses_done.mp hdone
  obtain ⟨rfl, rfl⟩ : some arr = value ∧ canon' = canon := by simpa using heq
  obtain ⟨rfl, payload, payloads, rfl, hfills⟩ :=
    fills_of_eitherRepr hcuts (hleast.trans hcanon) heither
  obtain ⟨payloads', hencodes, hextends⟩ := h.fills hfills hcanon
  obtain ⟨hwritten, hne⟩ := written_of_each hencodes hextends
    (hwrites.written_unpackedArrayOptionField n.succ_pos arr)
  exact ⟨payload, payloads, payloads', rfl, hwritten,
    .payloads_of_each (.unpackedArrayOptionField item _) hextends, fun hnil => absurd hnil hne⟩

end ValueCodec

section
variable {T : Type} {ordered : Prop} {least : Canonicity}

theorem FieldCodec.Sheds.tagged {codec : FieldCodec T} (h : codec.Sheds ordered least) (tag : Nat) :
    (codec.tagged tag).Sheds ordered least := by
  intro mode depth tag' wireType dup bytes rest value canon htag hparse hcanon
  obtain rfl := List.mem_singleton.mp htag
  obtain ⟨payload, payloads, payloads', hbytes, hwritten, hextends, hempty⟩ :=
    h (codec.parses_tagged hparse).2 hcanon
  refine ⟨payload, payloads.map (Record.mk _ _), payloads'.map (Record.mk _ _), ?_, ?_,
    hwritten.tagged _, ?_, hextends.tagged _ _, ?_⟩
  · rw [wireRecords_repeated]
    exact hbytes
  · simp
  · simp
  · exact fun hnil => hempty (List.map_eq_nil_iff.mp hnil)

theorem Oneof.sheds {oneof : Oneof T} (hcuts : ∀ i, (oneof.codec i).Cuts)
    (hwrites : ∀ i, (oneof.codec i).Writes ordered) (h : ∀ i, (oneof.codec i).Sheds least) :
    oneof.field.Sheds ordered least := by
  intro mode depth tag wireType dup bytes rest value canon _ hparse hcanon
  obtain ⟨-, i, payload, v, hvariant, rfl, rfl, hview, hpayload⟩ := Oneof.parses_field hcuts hparse
  obtain rfl : oneof.tag i = tag := by simpa using List.find?_some hvariant
  obtain ⟨payload', hencode, hextends⟩ := (h i).encode hpayload hcanon
  have hwritten := Oneof.written_some hwrites hview hencode
  refine ⟨payload, [], _, rfl, by simp, hwritten, by simp, hextends.variant i, ?_⟩
  exact fun hnil => by cases hnil

end

theorem MessageCodec.le_of_reading {M : Type} {codec : MessageCodec M} {way : Way}
    {mode : DecodingMode} {depth : Nat} {least : Canonicity} {pos pos' : Position (M × Canonicity)}
    {records : List Record} (h : Reading (codec.stepBy way mode depth) pos records pos')
    (hcanon : least ≤ pos'.state.2) : least ≤ pos.state.2 := by
  induction h with
  | nil => exact hcanon
  | cons _ _ hfield _ ih =>
      obtain ⟨decoded, -, rfl⟩ := MessageCodec.parses_stepBy.mp hfield
      exact (Canonicity.le_update_iff.mp (ih hcanon)).1

/-- What a stretch of records is to the message. -/
structure Stretch.Fits {M : Type} {F : Fields M} (least : Canonicity) (s : Stretch F) : Prop where
  known (i : F.Index) : s.field = some i →
    Extends least (.messageField (F.field i)) s.records s.remaining
  unknown : s.field = none → least ≤ .hasExtensions ∧ s.remaining = [] ∧
    ∀ r ∈ s.records, F.fieldOf r.tag = none

namespace Fields

open MessageFieldsSorted

variable {M : Type} {F : Fields M} {w : F.Writing} {ordered : Prop} {mode : DecodingMode}
  {depth last tag : Nat} {lastTag : Option Nat} {m m' : M} {i : F.Index} {least : Canonicity}

/-- Some fields of a message are read into another one, in an order, from what
extends the records that they are written as. -/
structure Spells (ordered : Prop) (F : Fields M) (m m' : M) (last : Nat) (order : List F.Index)
    (emit : F.Index → List Record) : Prop where
  written (i : F.Index) : i ∈ order → (F.field i).Written ordered (F.get m' i) (emit i)
  ne_nil (i : F.Index) : i ∈ order → emit i ≠ []
  empty (i : F.Index) : i ∈ order → F.get m i = (F.field i).empty
  unread (i : F.Index) : i ∉ order → F.get m' i = F.get m i
  silent (i : F.Index) : i ∉ order → emit i = []
  le (i : F.Index) : i ∈ order → ∀ tag ∈ F.currentTag m' i, last ≤ tag
  emits : order.Pairwise (EmitsBefore (F.currentTag m'))

theorem Spells.nil (m : M) (last : Nat) : F.Spells ordered m m last [] fun _ => [] := by
  constructor <;> simp

theorem Spells.mono {order : List F.Index} {emit : F.Index → List Record}
    (h : F.Spells ordered m m' tag order emit) (hle : last ≤ tag) :
    F.Spells ordered m m' last order emit :=
  { h with le := fun i hi tag' htag' => hle.trans (h.le i hi tag' htag') }

section
variable {order : List F.Index} {emit : F.Index → List Record} {value : F.Ty i}
  {records : List Record}

/-- A field that was just read is not read again. -/
theorem Spells.not_mem (hspells : F.Spells ordered (F.set m i value) m' tag order emit)
    (hshows : (F.field i).isEmpty (F.field i).empty = true)
    (hwritten : (F.field i).Written ordered value records) (hne : records ≠ []) : i ∉ order := by
  intro hmem
  have hvalue := hspells.empty i hmem
  rw [get_set_self] at hvalue
  rw [hvalue] at hwritten
  exact hne (hwritten.isEmpty.mp hshows)

/-- One more field, in front. -/
theorem Spells.cons (hspells : F.Spells ordered (F.set m i value) m' tag order emit)
    (h : F.Sound) (hfields : ∀ i, (F.field i).Writes ordered) (hi : i ∉ order) (hle : last ≤ tag)
    (htag : tag ∈ (F.field i).tags) (hempty : F.get m i = (F.field i).empty)
    (hwritten : (F.field i).Written ordered value records)
    (hcurrent : (F.field i).currentTag value = some tag) (hne : records ≠ []) :
    F.Spells ordered m m' last (i :: order) (Function.update emit i records) := by
  have hget : F.get m' i = value := (hspells.unread i hi).trans (get_set_self m i value)
  have htag' : F.currentTag m' i = some tag := (congrArg (F.field i).currentTag hget).trans hcurrent
  have hother {j : F.Index} (hj : j ∈ order) : j ≠ i := fun heq => hi (heq ▸ hj)
  constructor
  · intro j hj
    rcases List.mem_cons.mp hj with rfl | hj
    · rw [Function.update_self, hget]
      exact hwritten
    · rw [Function.update_of_ne (hother hj)]
      exact hspells.written j hj
  · intro j hj
    rcases List.mem_cons.mp hj with rfl | hj
    · rw [Function.update_self]
      exact hne
    · rw [Function.update_of_ne (hother hj)]
      exact hspells.ne_nil j hj
  · intro j hj
    rcases List.mem_cons.mp hj with rfl | hj
    · exact hempty
    · rw [← get_set_of_ne m (hother hj) value]
      exact hspells.empty j hj
  · intro j hj
    obtain ⟨hji, hj⟩ := not_or.mp (List.mem_cons.not.mp hj)
    rw [hspells.unread j hj, get_set_of_ne m hji]
  · intro j hj
    obtain ⟨hji, hj⟩ := not_or.mp (List.mem_cons.not.mp hj)
    rw [Function.update_of_ne hji]
    exact hspells.silent j hj
  · intro j hj tag' hcurrent'
    rcases List.mem_cons.mp hj with rfl | hj
    · rw [htag'] at hcurrent'
      obtain rfl := Option.some.inj hcurrent'
      exact hle
    · exact hle.trans (hspells.le j hj tag' hcurrent')
  · refine List.pairwise_cons.mpr ⟨fun j hj s hs t ht => ?_, hspells.emits⟩
    obtain rfl : tag = s := Option.some.inj (htag'.symm.trans hs)
    refine lt_of_le_of_ne (hspells.le j hj t ht) ?_
    rintro rfl
    exact hother hj (h.eq_of_mem ((hfields j).valid ht) htag)

end

/-- What is read to the end extends the records of some fields. -/
theorem exists_spells_of_reading (h : F.Sound) (hfields : ∀ i, (F.field i).Writes ordered)
    (hfresh : ∀ i, (F.field i).Fresh) (hsheds : ∀ i, (F.field i).Sheds ordered least)
    (hshows : ∀ i, (F.field i).Shows) {pos pos' : Position (M × Canonicity)} {records : List Record}
    (hreading : Reading ((F.message w).stepBy .distinguished mode depth) pos records pos')
    (hcanon : least ≤ pos'.state.2) (hend : pos'.rest = [])
    (hbehind : F.Behind pos.state.1 pos.last pos.lastTag) :
    ∃ order emit, ∃ stretches : List (Stretch F),
      F.Spells ordered pos.state.1 pos'.state.1 pos.last order emit ∧
      (∀ s ∈ stretches, Stretch.Fits least s) ∧
      pos.rest = wireRecords pos.last (stretches.flatMap Stretch.records) ∧
      order.flatMap emit = stretches.flatMap Stretch.remaining := by
  induction hreading with
  | nil => exact ⟨[], fun _ => [], [], .nil _ _, by simp, hend, rfl⟩
  | @cons last tag lastTag wireType s s' payload rest records pos hle htag hfield hmore ih =>
      obtain ⟨decoded, hdecoded, rfl⟩ := MessageCodec.parses_stepBy.mp hfield
      have hboth := MessageCodec.le_of_reading hmore hcanon
      have hdecodedCanon := (Canonicity.le_update_iff.mp hboth).2
      cases hfieldOf : F.fieldOf tag with
      | none =>
          obtain ⟨hskip, rfl⟩ := (parses_fieldBy_unknown hfieldOf).mp hdecoded
          obtain ⟨-, first, more, -, hrepeats, hbytes⟩ := (parses_skipField tag).mp hskip
          obtain ⟨order, emit, stretches, hspells, hfits, hstretches, hremaining⟩ :=
            ih hcanon hend (hbehind.later hle)
          refine ⟨order, emit, ⟨none, ⟨tag, wireType, first⟩ :: more, []⟩ :: stretches,
            hspells.mono hle, ?_, ?_, hremaining⟩
          · apply List.forall_mem_cons.mpr ⟨⟨fun i hi => (by cases hi), fun _ => ?_⟩, hfits⟩
            refine ⟨hdecodedCanon, rfl, List.forall_mem_cons.mpr ⟨hfieldOf, fun r hr => ?_⟩⟩
            rw [(hrepeats r hr).1]
            exact hfieldOf
          · exact wireRecords_of_run hbytes (fun r hr => (hrepeats r hr).1) hstretches
      | some i =>
          have hmem := h.fieldOf_eq_some.mp hfieldOf
          obtain ⟨⟨value, canon⟩, hvalue, rfl⟩ := (parses_fieldBy hfieldOf).mp hdecoded
          have hempty := hbehind.get_eq (hfresh i) hle hmem hvalue
          rw [hempty] at hvalue
          obtain ⟨first, more, records', hbytes, hmoreTags, hwritten, htags', hextends, hnil⟩ :=
            hsheds i hmem hvalue hdecodedCanon
          obtain ⟨order, emit, stretches, hspells, hfits, hstretches, hremaining⟩ :=
            ih hcanon hend (hbehind.set hle hmem value)
          have hfit : Stretch.Fits least (F := F) ⟨some i, ⟨tag, wireType, first⟩ :: more, records'⟩ :=
            ⟨fun j hj => Option.some.inj hj ▸ hextends, fun hj => by cases hj⟩
          have hall := List.forall_mem_cons.mpr ⟨hfit, hfits⟩
          cases records' with
          | nil =>
              -- the value is empty again, and so the message is as before
              rw [hnil rfl, ← hempty, set_get] at hspells
              exact ⟨order, emit, _, hspells.mono hle, hall,
                wireRecords_of_run hbytes hmoreTags hstretches, hremaining⟩
          | cons r records' =>
              have hne := List.cons_ne_nil r records'
              have hcurrent : (F.field i).currentTag value = some tag := by
                rw [hwritten.currentTag r List.mem_cons_self, htags' r List.mem_cons_self]
              have hi := hspells.not_mem (hshows i).empty hwritten hne
              refine ⟨i :: order, Function.update emit i (r :: records'), _,
                hspells.cons h hfields hi hle hmem hempty hwritten hcurrent hne, hall,
                wireRecords_of_run hbytes hmoreTags hstretches, ?_⟩
              have hothers :
                  order.flatMap (Function.update emit i (r :: records')) = order.flatMap emit := by
                apply List.flatMap_congr
                intro j hj
                exact Function.update_of_ne (ne_of_mem_of_not_mem hj hi) ..
              rw [List.flatMap_cons, Function.update_self, hothers, hremaining]
              rfl

theorem flatMap_filter_of_silent {order : List F.Index} {emit : F.Index → List Record}
    {p : F.Index → Bool} (h : ∀ i, p i = false → emit i = []) :
    (order.filter p).flatMap emit = order.flatMap emit := by
  induction order with
  | nil => rfl
  | cons i order ih =>
      cases hp : p i with
      | true => rw [List.filter_cons_of_pos hp, List.flatMap_cons, List.flatMap_cons, ih]
      | false =>
          rw [List.filter_cons_of_neg (by simp [hp]), List.flatMap_cons, h i hp, ih,
            List.nil_append]

/-- The fields that are read into the empty message are those that are written,
in the order in which they are. -/
theorem Spells.order_eq {order : List F.Index} {emit : F.Index → List Record}
    (hspells : F.Spells ordered (F.message w).empty m 0 order emit) (h : F.Sound)
    (hw : w.Standard) (hfields : ∀ i, (F.field i).Writes ordered)
    (hshows : ∀ i, (F.field i).Shows) :
    ((w.forward m).filter fun i => (F.currentTag m i).isSome) = order := by
  have hvalid : ∀ i, ∀ tag ∈ F.currentTag m i, tag ∈ (F.field i).tags :=
    fun i tag htag => (hfields i).valid htag
  have hemits := (hw.emits h hvalid).1
  have hsome (i : F.Index) : (F.currentTag m i).isSome = !(F.field i).isEmpty (F.get m i) :=
    (hshows i).currentTag _
  apply MessageFieldsSorted.eq_of_emitsBefore (hemits.filter _) hspells.emits
  · exact fun i hi => (List.mem_filter.mp hi).2
  · intro i
    rw [List.mem_filter]
    constructor
    · rintro ⟨-, hcurrent⟩
      by_contra hi
      rw [hsome, (hspells.unread i hi).trans (get_empty w i), (hshows i).empty] at hcurrent
      cases hcurrent
    · intro hi
      have hisEmpty : (F.field i).isEmpty (F.get m i) = false := by
        rw [Bool.eq_false_iff]
        exact fun hisEmpty => hspells.ne_nil i hi ((hspells.written i hi).isEmpty.mp hisEmpty)
      exact ⟨hw.mem_forward h hshows hisEmpty, by rw [hsome, hisEmpty]; rfl⟩

/-- A message sheds its extensions if its fields do. -/
theorem sheds (h : F.Sound) (hw : w.Standard) (hregular : (F.message w).Regular)
    (hshows : ∀ i, (F.field i).Shows) (hfields : ∀ i, (F.field i).Writes ordered)
    (hfresh : ∀ i, (F.field i).Fresh) (hsheds : ∀ i, (F.field i).Sheds ordered least) :
    (F.message w).Sheds least := by
  intro mode depth bytes m canon hparse hcanon
  obtain ⟨-, records, last, lastTag, hreading⟩ := hregular.parses_mergeBy.mp hparse
  obtain ⟨order, emit, stretches, hspells, hfits, hbytes, hremaining⟩ :=
    exists_spells_of_reading h hfields hfresh hsheds hshows hreading hcanon rfl (behind_empty (w := w))
  have hwritten (i : F.Index) : (F.field i).Written ordered (F.get m i) (emit i) := by
    by_cases hi : i ∈ order
    · exact hspells.written i hi
    · obtain ⟨records, hwritten⟩ := (hfields i).written (F.get m i)
      have hget := (hspells.unread i hi).trans (get_empty w i)
      have hnil : records = [] := by
        apply hwritten.isEmpty.mp
        rw [hget]
        exact (hshows i).empty
      rw [hspells.silent i hi, ← hnil]
      exact hwritten
  have hsilent (i : F.Index) (hcurrent : (F.currentTag m i).isSome = false) : emit i = [] := by
    rw [List.eq_nil_iff_forall_not_mem]
    intro r hr
    have hsome : F.currentTag m i = some r.tag := (hwritten i).currentTag r hr
    rw [hsome] at hcurrent
    cases hcurrent
  have hbytes : bytes = wireRecords 0 (stretches.flatMap Stretch.records) := hbytes
  refine ⟨wireRecords 0 (stretches.flatMap Stretch.remaining), ?_, ?_⟩
  · rw [(written h hw hfields hwritten).encode, ← flatMap_filter_of_silent hsilent,
      hspells.order_eq h hw hfields hshows, hremaining]
  · rw [hbytes]
    exact .fields stretches (fun s hs => (hfits s hs).known) fun s hs => (hfits s hs).unknown

end Fields

namespace MessageCodec

variable {M : Type} {codec : MessageCodec M}

/-- With more room for nesting the same is decoded. -/
theorem Locks.parses_deeper (h : codec.Locks) (hregular : codec.Regular) {way : Way}
    {mode : DecodingMode} {d d' : Nat} (hd : d ≤ d') {m : M} {bytes rest : Bytes}
    {x : M × Canonicity} (hparse : (codec.mergeBy way mode d m).Parses bytes x rest) :
    (codec.mergeBy way mode d' m).Parses bytes x rest := by
  have hmerge (depth : Nat) : Program.Regular (codec.mergeBy way mode depth m) :=
    regular_fieldsFrom (hregular.stepBy way mode depth) 0 none _
  have hleaves : (codec.mergeBy way mode d m).Leaves bytes x rest :=
    (leaves_iff (hmerge d)).mpr hparse
  obtain ⟨capped, hrun, hholds⟩ := hleaves
  have hlock := h.mergeBy ⟨way, way, mode, mode, d, d', .inr rfl, hd⟩ true (h.same.refl true m)
    (Capped.new bytes)
  simp only [LockAt, hrun, reduceCtorEq, false_and, false_or] at hlock
  obtain ⟨hsame, -⟩ := hlock
  cases hrun' : (codec.mergeBy way mode d' m).run .notCanonical (Capped.new bytes) with
  | error stop =>
      rw [hrun'] at hsame
      exact hsame.elim
  | ok y =>
      rw [hrun'] at hsame
      obtain ⟨⟨hm, hcanon⟩, hslice⟩ := hsame
      obtain rfl : x = y.1 := Prod.ext ((h.same.eq _ _).mp hm) (hcanon rfl)
      exact (leaves_iff (hmerge d')).mp ⟨y.2, hrun', hslice ▸ hholds⟩

theorem sheds_of_sameTo {approx : Nat → MessageCodec M} {least : Canonicity}
    (hsame : ∀ depth, codec.SameTo depth (approx depth))
    (hwithin : ∀ m, ∃ depth, ∀ d, depth ≤ d → codec.nestsWithin d m) (hlocks : codec.Locks)
    (hregular : codec.Regular) (h : ∀ depth, (approx depth).Sheds least) : codec.Sheds least := by
  intro mode depth bytes m canon hparse hcanon
  obtain ⟨k, hk⟩ := hwithin m
  -- deep enough for the bytes to be read and for the message to be written
  have hshed (d : Nat) (hd : max k depth ≤ d) : ∃ bytes', codec.rawEncode m = some bytes' ∧
      Extends least (.message (approx d)) bytes bytes' := by
    have hdeeper := hlocks.parses_deeper hregular ((le_max_right k depth).trans hd) hparse
    rw [(hsame d).mergeBy .distinguished mode le_rfl, (hsame d).empty] at hdeeper
    rw [(hsame d).rawEncode (hk _ ((le_max_left k depth).trans hd))]
    exact h d hdeeper hcanon
  obtain ⟨bytes', hencode, -⟩ := hshed _ le_rfl
  refine ⟨bytes', hencode, .recursive hsame (max k depth) fun d hd => ?_⟩
  obtain ⟨bytes'', hencode', hextends⟩ := hshed d hd
  obtain rfl := Option.some.inj (hencode.symm.trans hencode')
  exact hextends

theorem sheds_of_unrolls {approx : Nat → MessageCodec M} {within : Nat → M → Prop}
    {least : Canonicity} (hunrolls : codec.Unrolls approx within)
    (hgrows : ∀ {n n' m}, n ≤ n' → within n m → within n' m) (hregular : codec.Regular)
    (happrox : ∀ n, (approx n).Regular) (h : ∀ n, (approx n).Sheds least) : codec.Sheds least := by
  intro mode depth bytes m canon hparse hcanon
  obtain ⟨k, hk⟩ := hunrolls.reached m
  have hshed (n : Nat) (hn : max k bytes.length ≤ n) : ∃ bytes', codec.rawEncode m = some bytes' ∧
      Extends least (.message (approx n)) bytes bytes' := by
    rw [hunrolls.parses_mergeBy hregular (happrox n) ((le_max_right k bytes.length).trans hn),
      hunrolls.empty n] at hparse
    rw [hunrolls.rawEncode (hgrows ((le_max_left k bytes.length).trans hn) hk)]
    exact h n hparse hcanon
  obtain ⟨bytes', hencode, -⟩ := hshed _ le_rfl
  refine ⟨bytes', hencode, .unrolled hunrolls (max k bytes.length) fun n hn => ?_⟩
  obtain ⟨bytes'', hencode', hextends⟩ := hshed n hn
  obtain rfl := Option.some.inj (hencode.symm.trans hencode')
  exact hextends

end MessageCodec

def Part.Sheds (least : Canonicity) : Part → Prop
  | .value codec => codec.Sheds least
  | .field codec => codec.Sheds (¬Features.structural.hashed) least
  | .messageField fld => fld.Sheds (¬Features.structural.hashed) least
  | .message codec => codec.Sheds least

theorem Structural.rawEncode_empty {M : Type} {codec : MessageCodec M}
    (h : Structural (.message codec)) : codec.rawEncode codec.empty = some [] := by
  have hshows : codec.Shows := h.built.shows not_false
  exact (hshows.rawEncode codec.empty).mp hshows.empty

/-- Whatever of a structural schema is decoded, and was not objected to but for
extensions, is encoded as what the bytes that it was decoded from extend. -/
theorem Structural.sheds {part : Part} (h : Structural part) {least : Canonicity}
    (hleast : .hasExtensions ≤ least) : part.Sheds least := by
  induction h with
  | scalar h => exact ValueCodec.sheds_scalar h
  | @packed _ _ item coll hcoll hitem ih =>
      have hwrites : ValueCodec.Writes _ _ := hitem.built.writes not_false
      exact ih.spells.sheds_packedItems hleast hitem.built.cuts.separate hwrites.toPuts
        (hcoll.appends not_false) hcoll.iter_empty
  | @map _ _ _ key val coll hcoll hkey hval ihkey ihval =>
      have hputs : (key.entry val).Puts (¬Features.structural.hashed) :=
        ValueCodec.Writes.puts_entry (hkey.built.writes not_false) (hval.built.writes not_false)
      have hspells := ihkey.spells.entry hkey.built.cuts ihval.spells
      exact hspells.sheds_packedItems hleast (hkey.built.cuts.separate_entry hval.built.cuts) hputs
        (hcoll.appends not_false) hcoll.iter_empty
  | packedArray _ hitem ih =>
      have hwrites : ValueCodec.Writes _ _ := hitem.built.writes not_false
      exact ih.spells.sheds_packedArray hitem.built.cuts hwrites.toPuts _
  | nested hcodec ih =>
      exact ih.embedded hleast (hcodec.built.writes not_false) hcodec.rawEncode_empty .nested rfl
        MessageCodec.contents_of_nested
  | tupled hcodec ih =>
      exact ih.embedded hleast (hcodec.built.writes not_false) hcodec.rawEncode_empty .tupled rfl
        MessageCodec.contents_of_tupled
  | inlined hcodec ih => exact ih.inlined (hcodec.built.writes not_false)
  | plain _ hempties hcodec ih =>
      exact ih.plain hleast hcodec.built.cuts (hcodec.built.writes not_false) fun value =>
        (hcodec.isEmpty_iff hempties value).mp
  | optional hcodec ih => exact ih.optional hcodec.built.cuts (hcodec.built.writes not_false)
  | unpackedField hcoll hitem ih =>
      exact ih.spells.unpackedField hleast hitem.built.cuts (hitem.built.writes not_false) hcoll
        not_false hcoll.reversed_iter
  | @packedField _ _ item coll hcoll hitem ih =>
      have hwrites : ValueCodec.Writes _ _ := hitem.built.writes not_false
      apply ValueCodec.Sheds.packedField _ hleast
      · exact ValueCodec.writes_packedItems hwrites.toPuts hcoll.reversed_iter
      · exact ih.spells.sheds_packedItems hleast hitem.built.cuts.separate hwrites.toPuts
          (hcoll.appends not_false) hcoll.iter_empty
  | unpackedArrayField hn _ _ hitem ih =>
      obtain ⟨n, rfl⟩ := Nat.exists_eq_succ_of_ne_zero hn.ne'
      exact ih.spells.unpackedArrayField hleast hitem.built.cuts (hitem.built.writes not_false)
  | packedArrayField _ _ _ hitem ih =>
      have hwrites : ValueCodec.Writes _ _ := hitem.built.writes not_false
      apply ValueCodec.Sheds.packedArrayField _ hleast
      · exact hwrites.packedArray _
      · exact ih.spells.sheds_packedArray hitem.built.cuts hwrites.toPuts _
  | unpackedArrayOptionField hn hitem ih =>
      obtain ⟨n, rfl⟩ := Nat.exists_eq_succ_of_ne_zero hn.ne'
      exact ih.spells.unpackedArrayOptionField hleast hitem.built.cuts
        (hitem.built.writes not_false)
  | tagged tag _ ih => exact ih.tagged tag
  | oneof hvariants ih =>
      exact Oneof.sheds (fun i => (hvariants i).built.cuts)
        (fun i => (hvariants i).built.writes not_false) ih
  | fields hsound hw hignored hfields ih =>
      apply Fields.sheds hsound hw
      · exact (Structural.fields hsound hw hignored hfields).built.regular
      · exact fun i => (hfields i).built.shows not_false
      · exact fun i => (hfields i).built.writes not_false
      · exact fun i => (hfields i).built.fresh
      · exact ih
  | recursive approx hsame hwithin happrox ih =>
      have hbuilt := (Structural.recursive approx hsame hwithin happrox).built
      exact MessageCodec.sheds_of_sameTo hsame hwithin hbuilt.locks hbuilt.regular ih
  | unrolled approx within hunrolls hgrows happrox ih =>
      apply MessageCodec.sheds_of_unrolls hunrolls hgrows
      · exact (Structural.unrolled approx within hunrolls hgrows happrox).built.regular
      · exact fun n => (happrox n).built.regular
      · exact ih

/-- What a message is decoded from, and is canonical, is what it is encoded as. -/
theorem Structural.exact {M : Type} {codec : MessageCodec M} (h : Structural (.message codec))
    {mode : DecodingMode} {depth : Nat} {bytes : Bytes} {m : M}
    (hparse : (codec.mergeBy .distinguished mode depth codec.empty).Parses bytes
      (m, .canonical) []) : codec.rawEncode m = some bytes := by
  have hsheds : codec.Sheds .canonical := h.sheds (Canonicity.le_canonical _)
  obtain ⟨bytes', hencode, hextends⟩ := hsheds hparse le_rfl
  rw [hencode, hextends.eq_of_canonical]

end Bilrost
