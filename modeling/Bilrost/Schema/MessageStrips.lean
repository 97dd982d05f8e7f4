import Bilrost.Schema.Strips

/-!
Fields and messages that are decoded from what remains of their bytes. The loop
over the fields of a message is run again on the records that remain: those of
a field are decoded as before, and where none remain the field was empty.
-/

namespace Bilrost

open Program

/-- What is merged into the empty message, but for extensions, is merged from
what remains of the bytes. -/
def MessageCodec.Strips {M : Type} (codec : MessageCodec M) : Prop :=
  ∀ ⦃mode : DecodingMode⦄ ⦃depth : Nat⦄ ⦃bytes : Bytes⦄ ⦃m : M⦄ ⦃canon : Canonicity⦄,
    (codec.mergeBy .distinguished mode depth codec.empty).Parses bytes (m, canon) [] →
      .hasExtensions ≤ canon →
        ∃ bytes' : Bytes, Remains depth (.message codec) bytes bytes' ∧
          (codec.mergeBy .distinguished mode depth codec.empty).Parses bytes' (m, .canonical) []

namespace MessageCodec

variable {M : Type} {codec : MessageCodec M} {value : ValueCodec M} {way : Way}
  {mode : DecodingMode} {allowEmpty : Bool} {depth : Nat} {content : Bytes} {m : M}
  {x : M × Canonicity}

/-- A message value that is entered, a level deeper. -/
theorem Strips.embedded (h : codec.Strips) (hforOverwrite : value.forOverwrite = codec.empty)
    (hchecks : value.checksEmpty = true)
    (hcontents : ∀ {mode allowEmpty depth payload x},
      (value.decodeBy .distinguished mode allowEmpty depth codec.empty).Parses payload x [] →
        codec.DecodesContents .distinguished mode allowEmpty depth payload x)
    (hparses : ∀ {mode allowEmpty depth content x}, content.length < 2 ^ 64 →
      Way.distinguished.shortcut allowEmpty content.length = false →
      (codec.mergeBy .distinguished mode depth codec.empty).Parses content x [] →
        (value.decodeBy .distinguished mode allowEmpty (depth + 1) codec.empty).Parses
          (varint content.length ++ (content ++ [])) x [])
    (hremains : ∀ {depth : Nat} {content content' : Bytes},
      Remains depth (.message codec) content content' →
        Remains (depth + 1) (.value value) (regionBytes content) (regionBytes content')) :
    value.Strips := by
  -- contents that were looked at are merged from what remains of them
  have hstrips {mode : DecodingMode} {allowEmpty : Bool} {depth : Nat} {payload : Bytes} {m : M}
      {canon : Canonicity}
      (hparse : (value.decodeBy .distinguished mode allowEmpty depth value.forOverwrite).Parses
        payload (m, canon) []) (hcanon : .hasExtensions ≤ canon) :
      ∃ content content' : Bytes, payload = regionBytes content ∧
        Way.distinguished.shortcut allowEmpty content.length = false ∧
        Remains depth (.value value) payload (regionBytes content') ∧
        ∀ {allowEmpty}, Way.distinguished.shortcut allowEmpty content'.length = false →
          (value.decodeBy .distinguished mode allowEmpty depth value.forOverwrite).Parses
            (regionBytes content') (m, .canonical) [] := by
    rw [hforOverwrite] at hparse ⊢
    obtain ⟨content, hlt, rfl, ⟨-, heq⟩ | ⟨hshort, hdepth, hmerge⟩⟩ := hcontents hparse
    · obtain rfl : canon = .notCanonical := congrArg Prod.snd heq
      exact absurd hcanon Canonicity.not_hasExtensions_le_notCanonical
    · obtain ⟨depth, rfl⟩ := Nat.exists_eq_succ_of_ne_zero hdepth.ne'
      obtain ⟨content', hcontent', hmerge'⟩ := h hmerge hcanon
      refine ⟨content, content', rfl, hshort, hremains hcontent', fun hshort' => ?_⟩
      have hlt' : content'.length < 2 ^ 64 := lt_of_le_of_lt hcontent'.shrinks hlt
      rw [← region_eq]
      exact hparses hlt' hshort' hmerge'
  constructor
  · intro mode depth payload m canon hparse hcanon
    obtain ⟨content, content', -, -, hremains, hdecode⟩ := hstrips hparse hcanon
    exact ⟨regionBytes content', hremains, hdecode (by simp [Way.shortcut])⟩
  · intro mode depth payload m canon hparse hcanon
    obtain ⟨content, content', rfl, hshort, hremains, hdecode⟩ := hstrips hparse hcanon
    refine ⟨regionBytes content', hremains, ?_⟩
    cases hshort' : Way.distinguished.shortcut false content'.length with
    | false => exact .inl (hdecode hshort')
    | true =>
        obtain rfl : content' = [] := by simpa [Way.shortcut] using hshort'
        have hne : content ≠ [] := by
          rintro rfl
          cases hshort
        exact .inr ⟨hchecks, (ne_nil_of_region_ne hne).symm, rfl, hdecode (by simp [Way.shortcut])⟩

theorem Strips.nested (h : codec.Strips) : codec.nested.Strips :=
  h.embedded rfl rfl contents_of_nested parses_nested .nested

theorem Strips.tupled (h : codec.Strips) : codec.tupled.Strips :=
  h.embedded rfl rfl contents_of_tupled parses_tupled .tupled

theorem Strips.inlined (h : codec.Strips) : codec.inlined.Strips := by
  have hcleans : codec.inlined.Cleans := by
    intro mode depth payload m canon hmeans hcanon
    obtain ⟨content, hlt, rfl, hmerge⟩ := contents_of_inlined hmeans
    obtain ⟨content', hremains, hmerge'⟩ := h hmerge hcanon
    refine ⟨regionBytes content', .inlined hremains, ?_⟩
    rw [← region_eq]
    exact parses_inlined (lt_of_le_of_lt hremains.shrinks hlt) hmerge'
  apply hcleans.strips
  intro mode depth payload x
  rw [ValueCodec.Means, (codec.inlined_decodeBy _ _ _ _ _).parses,
    (codec.inlined_decodeBy _ _ _ _ _).parses]

end MessageCodec

/-- What the distinguished decoder makes of the payloads of a field. The first
one is found by its tag, and those that follow repeat it. -/
def FieldCodec.Yields {T : Type} (codec : FieldCodec T) (mode : DecodingMode) (depth : Nat)
    (wireType : WireType) : List Bytes → T → Prop
  | [], value => value = codec.forOverwrite
  | payload :: payloads, value => ∀ ⦃rest : Bytes⦄, NoRepeat rest →
      (codec.decodeBy .distinguished mode depth wireType codec.forOverwrite).Parses
        (payload ++ (ValueCodec.unpackedPayloads wireType payloads ++ rest)) (value, .canonical) rest

/-- What is decoded into an empty field is what the payloads that remain yield. -/
def FieldCodec.Strips {T : Type} (codec : FieldCodec T) : Prop :=
  ∀ ⦃mode : DecodingMode⦄ ⦃depth : Nat⦄ ⦃wireType : WireType⦄ ⦃bytes rest : Bytes⦄ ⦃value : T⦄
    ⦃canon : Canonicity⦄,
    (codec.decodeBy .distinguished mode depth wireType codec.forOverwrite).Parses bytes
      (value, canon) rest → .hasExtensions ≤ canon →
    ∃ (payload : Bytes) (payloads payloads' : List Bytes),
      bytes = payload ++ (ValueCodec.unpackedPayloads wireType payloads ++ rest) ∧
      Remains depth (.field codec) (payload :: payloads) payloads' ∧
      codec.Yields mode depth wireType payloads' value

/-- What the records of a field of a message yield. -/
def MessageField.Yields {T : Type} (field : MessageField T) (mode : DecodingMode) (depth : Nat) :
    List Record → T → Prop
  | [], value => value = field.empty
  | r :: rs, value => ∀ ⦃rest : Bytes⦄, NoRepeat rest →
      (field.decodeBy .distinguished mode depth r.tag r.wireType false field.empty).Parses
        (r.payload ++ (wireRecords r.tag rs ++ rest)) (value, .canonical) rest

def MessageField.Strips {T : Type} (field : MessageField T) : Prop :=
  ∀ ⦃mode : DecodingMode⦄ ⦃depth tag : Nat⦄ ⦃wireType : WireType⦄ ⦃dup : Bool⦄
    ⦃bytes rest : Bytes⦄ ⦃value : T⦄ ⦃canon : Canonicity⦄, tag ∈ field.tags →
    (field.decodeBy .distinguished mode depth tag wireType dup field.empty).Parses bytes
      (value, canon) rest → .hasExtensions ≤ canon →
    ∃ (payload : Bytes) (records records' : List Record),
      bytes = payload ++ (wireRecords tag records ++ rest) ∧ (∀ r ∈ records, r.tag = tag) ∧
      (∀ r ∈ records', r.tag = tag) ∧
      Remains depth (.messageField field) (⟨tag, wireType, payload⟩ :: records) records' ∧
      field.Yields mode depth records' value

namespace ValueCodec

variable {T C : Type} {item codec : ValueCodec T} {coll : Collection C T} {state : EmptyState T}
  {mode : DecodingMode} {depth n : Nat}

theorem Strips.plain (h : codec.Strips) (hcuts : codec.Cuts) (hreads : codec.ReadsEmpty) :
    (codec.plain state).Strips := by
  intro mode depth wireType bytes rest value canon hparse hcanon
  rw [plain_decodeBy] at hparse
  obtain ⟨decoded, mid, hfield, hrefuse⟩ := parses_bind.mp hparse
  obtain ⟨hstays, rfl, rfl⟩ := (Way.parses_refuseEmpty_of_le hcanon).mp hrefuse
  obtain ⟨rfl, hvalue⟩ := parses_decodeFieldBy.mp hfield
  have hlocal := hcuts.isLocal .distinguished mode false depth codec.forOverwrite
  obtain ⟨payload, rfl, hpayload⟩ := hlocal.iff.mp hvalue
  obtain ⟨payload', hremains, hdecode⟩ := h.decode hpayload hcanon
  rcases hdecode with hpayload' | ⟨hchecks, hne, rfl, hmeans⟩
  · refine ⟨payload, [], [payload'], rfl,
      .payloads_of_each (.plain codec state) (.cons hremains .nil), ?_⟩
    intro rest _
    rw [plain_decodeBy]
    have hfield := parses_decodeFieldBy.mpr ⟨rfl, hlocal.append hpayload' rest⟩
    refine parses_bind.mpr ⟨_, _, hfield, ?_⟩
    rw [hstays, Way.refuseEmpty_false]
    exact parses_done.mpr ⟨rfl, rfl⟩
  · -- nothing but extensions: the value goes with its field
    exact ⟨payload, [], [], rfl, .emptied hchecks hne hremains, hreads hchecks hmeans⟩

theorem Cleans.optional (h : codec.Cleans) (hcuts : codec.Cuts) : codec.optional.Strips := by
  intro mode depth wireType bytes rest value canon hparse hcanon
  rw [optional_decodeBy] at hparse
  obtain ⟨⟨v, canon'⟩, mid, hfield, hdone⟩ := parses_bind.mp hparse
  obtain ⟨heq, rfl⟩ := parses_done.mp hdone
  obtain ⟨rfl, rfl⟩ : some v = value ∧ canon' = canon := by simpa using heq
  obtain ⟨rfl, hvalue⟩ := parses_decodeFieldBy.mp hfield
  have hlocal := hcuts.isLocal .distinguished mode true depth codec.forOverwrite
  obtain ⟨payload, rfl, hpayload⟩ := hlocal.iff.mp hvalue
  obtain ⟨payload', hremains, hpayload'⟩ := h hpayload hcanon
  refine ⟨payload, [], [payload'], rfl,
    .payloads_of_each (.optional codec) (.cons hremains .nil), ?_⟩
  intro rest _
  rw [optional_decodeBy]
  refine parses_bind.mpr ⟨(v, .canonical), rest, ?_, parses_done.mpr ⟨rfl, rfl⟩⟩
  exact parses_decodeFieldBy.mpr ⟨rfl, hlocal.append hpayload' _⟩

theorem Cleans.unpackedField (h : item.Cleans) (hcuts : item.Cuts) (hcoll : coll.Decides) :
    (item.unpackedField coll).Strips := by
  intro mode depth wireType bytes rest items canon hparse hcanon
  rw [unpackedField_decodeBy] at hparse
  split_ifs at hparse with hcomes
  · exact (Way.not_parses_demote hcanon hparse).elim
  · obtain ⟨rfl, -, payload, payloads, rfl, hrounds⟩ := hcuts.parses_decodeUnpackedBy.mp hparse
    obtain ⟨-, payloads', hremains, hrounds'⟩ := h.rounds hcoll hrounds hcanon
    refine ⟨payload, payloads, payloads', rfl, .payloads_of_each (.unpackedField item coll) hremains,
      ?_⟩
    cases hremains with
    | cons _ _ =>
        intro rest hrest
        rw [unpackedField_decodeBy, if_neg hcomes]
        exact hcuts.parses_decodeUnpackedBy.mpr ⟨rfl, hrest, _, _, rfl, hrounds'⟩

theorem Strips.packed {field : FieldCodec T} (h : codec.Strips) (hpacks : codec.Packs field)
    (hcuts : codec.Cuts) (hchecks : codec.checksEmpty = false) (hcarries : field.Carries codec) :
    field.Strips := by
  intro mode depth wireType bytes rest value canon hparse hcanon
  obtain ⟨rfl, hne, payload, rfl, hpayload⟩ := (hpacks.parses_iff hcuts hcanon).mp hparse
  obtain ⟨payload', hremains, hpayload' | ⟨hchecks', -⟩⟩ := h.decode hpayload hcanon
  · refine ⟨payload, [], [payload'], rfl, .payloads_of_each hcarries (.cons hremains .nil), ?_⟩
    intro rest _
    exact (hpacks.parses_iff hcuts (by decide)).mpr ⟨rfl, hne, payload', rfl, hpayload'⟩
  · rw [hchecks] at hchecks'
    cases hchecks'

theorem Strips.packedField (h : (item.packed coll).Strips) : (item.packedField coll).Strips :=
  h.packed (packs_packedField item coll) (cuts_packedItems _ item coll) rfl (.packedField item coll)

theorem Strips.packedArrayField (h : (item.packedArray n).Strips) :
    (item.packedArrayField state n).Strips :=
  h.packed (packs_packedArrayField item state n) (cuts_packedArray item n) rfl
    (.packedArrayField item state n)

/-- The fields of an array, of which as many remain. -/
theorem Cleans.eitherRepr (h : item.Cleans) (hcuts : item.Cuts) {wireType : WireType}
    {bytes rest : Bytes} {arr : List.Vector T (n + 1)} {canon : Canonicity}
    (hparse : (item.decodeArrayEitherReprBy .distinguished mode depth wireType
      (List.Vector.replicate (n + 1) item.forOverwrite)).Parses bytes (arr, canon) rest)
    (hcanon : .hasExtensions ≤ canon) :
    ∃ (payload payload' : Bytes) (payloads payloads' : List Bytes),
      bytes = payload ++ (unpackedPayloads wireType payloads ++ rest) ∧
      RemainsEach depth item (payload :: payloads) (payload' :: payloads') ∧
      ∀ ⦃rest : Bytes⦄, NoRepeat rest →
        (item.decodeArrayEitherReprBy .distinguished mode depth wireType
          (List.Vector.replicate (n + 1) item.forOverwrite)).Parses
            (payload' ++ (unpackedPayloads wireType payloads' ++ rest)) (arr, .canonical) rest := by
  obtain ⟨rfl, payload, payloads, rfl, hfills⟩ := fills_of_eitherRepr hcuts hcanon hparse
  obtain ⟨payloads', hremains, hfills'⟩ := h.fills hfills hcanon
  cases hremains with
  | @cons _ payload' _ payloads' hfirst hmore =>
      refine ⟨payload, payload', payloads, payloads', rfl, .cons hfirst hmore, fun rest hrest => ?_⟩
      rw [decodeArrayEitherReprBy, comesPacked_wireType, if_neg Bool.false_ne_true]
      exact hcuts.parses_decodeArrayUnpackedOnlyBy.mpr ⟨rfl, hrest, _, _, rfl, hfills'⟩

theorem Cleans.unpackedArrayField (h : item.Cleans) (hcuts : item.Cuts) :
    (item.unpackedArrayField state (n + 1)).Strips := by
  intro mode depth wireType bytes rest arr canon hparse hcanon
  rw [unpackedArrayField_decodeBy] at hparse
  obtain ⟨decoded, mid, heither, hrefuse⟩ := parses_bind.mp hparse
  obtain ⟨hstays, rfl, rfl⟩ := (Way.parses_refuseEmpty_of_le hcanon).mp hrefuse
  obtain ⟨payload, payload', payloads, payloads', rfl, hremains, hdecode⟩ :=
    h.eitherRepr hcuts heither hcanon
  refine ⟨payload, payloads, payload' :: payloads', rfl,
    .payloads_of_each (.unpackedArrayField item state _) hremains, fun rest hrest => ?_⟩
  rw [unpackedArrayField_decodeBy]
  refine parses_bind.mpr ⟨_, _, hdecode hrest, ?_⟩
  rw [hstays, Way.refuseEmpty_false]
  exact parses_done.mpr ⟨rfl, rfl⟩

/-- An array without items is empty, which is not canonical. -/
theorem strips_unpackedArrayField_zero (item : ValueCodec T) (state : EmptyState T) :
    (item.unpackedArrayField state 0).Strips := by
  intro mode depth wireType bytes rest arr canon hparse hcanon
  rw [unpackedArrayField_decodeBy] at hparse
  obtain ⟨decoded, mid, -, hrefuse⟩ := parses_bind.mp hparse
  obtain ⟨hstays, rfl, -⟩ := (Way.parses_refuseEmpty_of_le hcanon).mp hrefuse
  have hempty : (state.array 0).isEmpty arr = true := by
    rw [arr.eq_nil]
    rfl
  rw [hempty] at hstays
  cases hstays

theorem Cleans.unpackedArrayOptionField (h : item.Cleans) (hcuts : item.Cuts) :
    (item.unpackedArrayOptionField (n + 1)).Strips := by
  intro mode depth wireType bytes rest value canon hparse hcanon
  rw [unpackedArrayOptionField_decodeBy] at hparse
  obtain ⟨⟨arr, canon'⟩, mid, heither, hdone⟩ := parses_bind.mp hparse
  obtain ⟨heq, rfl⟩ := parses_done.mp hdone
  obtain ⟨rfl, rfl⟩ : some arr = value ∧ canon' = canon := by simpa using heq
  obtain ⟨payload, payload', payloads, payloads', rfl, hremains, hdecode⟩ :=
    h.eitherRepr hcuts heither hcanon
  refine ⟨payload, payloads, payload' :: payloads', rfl,
    .payloads_of_each (.unpackedArrayOptionField item _) hremains, fun rest hrest => ?_⟩
  rw [unpackedArrayOptionField_decodeBy]
  exact parses_bind.mpr ⟨_, _, hdecode hrest, parses_done.mpr ⟨rfl, rfl⟩⟩

end ValueCodec

section
variable {T : Type}

theorem FieldCodec.Strips.tagged {codec : FieldCodec T} (h : codec.Strips) (tag : Nat) :
    (codec.tagged tag).Strips := by
  intro mode depth tag' wireType dup bytes rest value canon htag hparse hcanon
  obtain rfl := List.mem_singleton.mp htag
  obtain ⟨payload, payloads, payloads', hbytes, hremains, hyields⟩ :=
    h (codec.parses_tagged hparse).2 hcanon
  refine ⟨payload, payloads.map (Record.mk _ _), payloads'.map (Record.mk _ _), ?_, ?_, ?_,
    hremains.tagged _ _, ?_⟩
  · rw [wireRecords_repeated]
    exact hbytes
  · simp
  · simp
  · cases payloads' with
    | nil => exact hyields
    | cons payload' payloads' =>
        intro rest hrest
        rw [FieldCodec.tagged_decodeBy, if_neg Bool.false_ne_true, wireRecords_repeated]
        exact hyields hrest

theorem Oneof.strips {oneof : Oneof T} (hcuts : ∀ i, (oneof.codec i).Cuts)
    (h : ∀ i, (oneof.codec i).Cleans) : oneof.field.Strips := by
  intro mode depth tag wireType dup bytes rest value canon _ hparse hcanon
  obtain ⟨-, i, payload, v, hvariant, rfl, rfl, hview, hpayload⟩ := Oneof.parses_field hcuts hparse
  obtain rfl : oneof.tag i = tag := by simpa using List.find?_some hvariant
  obtain ⟨payload', hremains, hpayload'⟩ := h i hpayload hcanon
  refine ⟨payload, [], _, rfl, by simp, by simp, hremains.variant i, ?_⟩
  intro rest _
  have hcurrent : oneof.currentTag (oneof.view.symm none) = none := by simp [Oneof.currentTag]
  have hconstruct : oneof.construct i v = value := oneof.view.symm_apply_eq.mpr hview.symm
  have hempty : oneof.field.empty = oneof.view.symm none := rfl
  have hlocal := (hcuts i).isLocal .distinguished mode true depth (oneof.codec i).forOverwrite
  rw [Oneof.field_decodeBy]
  simp only [hempty, hcurrent, hvariant]
  refine parses_bind.mpr ⟨(v, .canonical), rest, ?_, ?_⟩
  · exact ValueCodec.parses_decodeFieldBy.mpr ⟨rfl, hlocal.append hpayload' rest⟩
  · exact parses_done.mpr ⟨by rw [hconstruct], rfl⟩

end

/-- A field that was decoded is not decoded again right behind itself. -/
def MessageField.Closes {T : Type} (field : MessageField T) : Prop :=
  ∀ ⦃mode : DecodingMode⦄ ⦃depth tag : Nat⦄ ⦃wireType wireType' : WireType⦄ ⦃dup : Bool⦄
    ⦃bytes bytes' rest rest' : Bytes⦄ ⦃value : T⦄ ⦃x x' : T × Canonicity⦄,
    (field.decodeBy .distinguished mode depth tag wireType dup value).Parses bytes x rest →
      ¬(field.decodeBy .distinguished mode depth tag wireType' true x.1).Parses bytes' x' rest'

theorem Attested.closes {T : Type} {field : MessageField T} (h : Attested (.messageField field)) :
    field.Closes := by
  intro mode depth tag wireType wireType' dup bytes bytes' rest rest' value x x' hparse hagain
  cases h with
  | tagged fieldTag =>
      have hdup := (FieldCodec.parses_tagged hagain).1
      cases hdup
  | oneof hvariants =>
      have hcuts := fun i => (hvariants i).built.cuts
      obtain ⟨-, i, payload, v, -, -, -, hview, -⟩ := Oneof.parses_field hcuts hparse
      rw [(Oneof.parses_field hcuts hagain).1] at hview
      cases hview

/-- What remains of a stretch of records. -/
structure Stretch.Leaves {M : Type} {F : Fields M} (depth : Nat) (s : Stretch F) : Prop where
  known (i : F.Index) : s.field = some i →
    Remains depth (.messageField (F.field i)) s.records s.remaining
  unknown : s.field = none → s.remaining = [] ∧ ∀ r ∈ s.records, F.fieldOf r.tag = none

namespace Fields

variable {M : Type} {F : Fields M} {w : F.Writing} {mode : DecodingMode} {depth last tag : Nat}
  {lastTag : Option Nat} {m m' : M} {i : F.Index}

/-- The field that was just read will not be read again. -/
def Settled (F : Fields M) (mode : DecodingMode) (depth : Nat) (m : M) (last : Nat)
    (lastTag : Option Nat) : Prop :=
  lastTag = some last ∧ ∀ ⦃i wireType bytes x rest⦄, last ∈ (F.field i).tags →
    ¬((F.field i).decodeBy .distinguished mode depth last wireType true (F.get m i)).Parses bytes x
      rest

theorem settled_of_unknown (hunknown : F.fieldOf tag = none) :
    F.Settled mode depth m tag (some tag) :=
  ⟨rfl, fun i _ _ _ _ hi => absurd hi (fieldOf_eq_none.mp hunknown i)⟩

theorem settled_of_parses (h : F.Sound) (hcloses : (F.field i).Closes)
    (htag : tag ∈ (F.field i).tags) {wireType : WireType} {dup : Bool} {bytes rest : Bytes}
    {start : F.Ty i} {x : F.Ty i × Canonicity}
    (hparse : ((F.field i).decodeBy .distinguished mode depth tag wireType dup start).Parses bytes x
      rest) : F.Settled mode depth (F.set m i x.1) tag (some tag) := by
  refine ⟨rfl, fun j wireType' bytes' x' rest' hj hagain => ?_⟩
  obtain rfl := h.eq_of_mem htag hj
  rw [get_set_self] at hagain
  exact hcloses hparse hagain

/-- The records that remain of some bytes are read, wherever the loop is before
them, if the first one is not taken for a repeated field. -/
structure Resumes (F : Fields M) (w : F.Writing) (mode : DecodingMode) (depth : Nat) (m m' : M)
    (last : Nat) (settled : Prop) (remaining : List Record) : Prop where
  le : ∀ r ∈ remaining, last ≤ r.tag
  lt : settled → ∀ r ∈ remaining, last < r.tag
  reading {last₀ : Nat} {lastTag₀ : Option Nat} : last₀ ≤ last →
    (∀ r ∈ remaining, lastTag₀ ≠ some r.tag) →
      ∃ records last₁ lastTag₁, Reading ((F.message w).stepBy .distinguished mode depth)
        ⟨last₀, lastTag₀, (m, .canonical), wireRecords last₀ remaining⟩ records
        ⟨last₁, lastTag₁, (m', .canonical), []⟩

theorem Resumes.nil (m : M) (last : Nat) (settled : Prop) :
    F.Resumes w mode depth m m last settled [] where
  le := by simp
  lt := by simp
  reading _ _ := ⟨[], _, _, .nil⟩

section
variable {settled settled' : Prop} {remaining : List Record}

/-- Nothing remains of a field that was read. -/
theorem Resumes.skip (h : F.Resumes w mode depth m m' tag settled' remaining) (hsettled : settled')
    (hle : last ≤ tag) : F.Resumes w mode depth m m' last settled remaining where
  le r hr := hle.trans (h.lt hsettled r hr).le
  lt _ r hr := hle.trans_lt (h.lt hsettled r hr)
  reading hle₀ hne := h.reading (hle₀.trans hle) hne

/-- One more field, in front. -/
theorem Resumes.cons {value : F.Ty i} {r : Record} {rs : List Record}
    (h : F.Resumes w mode depth (F.set m i value) m' tag settled' remaining) (hsettled : settled')
    (hle : last ≤ tag) (hne : settled → last ≠ tag) (hsound : F.Sound)
    (htag : tag ∈ (F.field i).tags) (hempty : F.get m i = (F.field i).empty)
    (htags : ∀ r' ∈ r :: rs, r'.tag = tag)
    (hyields : (F.field i).Yields mode depth (r :: rs) value) :
    F.Resumes w mode depth m m' last settled ((r :: rs) ++ remaining) := by
  obtain ⟨rfl, hrs⟩ := List.forall_mem_cons.mp htags
  have hafter := h.lt hsettled
  constructor
  · intro r' hr'
    rcases List.mem_append.mp hr' with hfirst | hlater
    · exact hle.trans (htags r' hfirst).ge
    · exact hle.trans (hafter r' hlater).le
  · intro hlast r' hr'
    have hlt := lt_of_le_of_ne hle (hne hlast)
    rcases List.mem_append.mp hr' with hfirst | hlater
    · exact hlt.trans_eq (htags r' hfirst).symm
    · exact hlt.trans (hafter r' hlater)
  · intro last₀ lastTag₀ hle₀ hne₀
    have hdup : (lastTag₀ == some r.tag) = false :=
      beq_false_of_ne (hne₀ r (List.mem_append_left _ List.mem_cons_self))
    have hstep : ((F.message w).stepBy .distinguished mode depth r.tag r.wireType
        (lastTag₀ == some r.tag) (m, .canonical)).Parses
          ((r.payload ++ wireRecords r.tag rs) ++ wireRecords r.tag remaining)
          (F.set m i value, .canonical) (wireRecords r.tag remaining) := by
      rw [hdup]
      refine MessageCodec.parses_stepBy.mpr ⟨(F.set m i value, .canonical), ?_, rfl⟩
      refine (parses_fieldBy (hsound.fieldOf_eq_some.mpr htag)).mpr ⟨(value, .canonical), ?_, rfl⟩
      rw [hempty, List.append_assoc]
      exact hyields (noRepeat_wireRecords hafter)
    have hnext : ∀ r' ∈ remaining, some r.tag ≠ some r'.tag := by
      intro r' hr'
      have hne := (hafter r' hr').ne
      simpa using hne
    obtain ⟨records, last₁, lastTag₁, hreading⟩ := h.reading le_rfl hnext
    rw [wireRecords_run last₀ hrs]
    exact ⟨_, last₁, lastTag₁, .cons (hle₀.trans hle) (hsound.lt i r.tag htag) hstep hreading⟩

end

/-- What is read to the end is read again from what remains of its records. -/
theorem exists_stretches_of_reading (h : F.Sound) (hfresh : ∀ i, (F.field i).Fresh)
    (hcloses : ∀ i, (F.field i).Closes) (hstrips : ∀ i, (F.field i).Strips)
    {pos pos' : Position (M × Canonicity)} {records : List Record}
    (hreading : Reading ((F.message w).stepBy .distinguished mode depth) pos records pos')
    (hcanon : .hasExtensions ≤ pos'.state.2) (hend : pos'.rest = [])
    (hbehind : F.Behind pos.state.1 pos.last pos.lastTag) :
    ∃ stretches : List (Stretch F), (∀ s ∈ stretches, Stretch.Leaves depth s) ∧
      pos.rest = wireRecords pos.last (stretches.flatMap Stretch.records) ∧
      F.Resumes w mode depth pos.state.1 pos'.state.1 pos.last
        (F.Settled mode depth pos.state.1 pos.last pos.lastTag)
        (stretches.flatMap Stretch.remaining) := by
  induction hreading with
  | nil => exact ⟨[], by simp, hend, .nil _ _ _⟩
  | @cons last tag lastTag wireType s s' payload rest records pos hle htag hfield hmore ih =>
      obtain ⟨decoded, hdecoded, rfl⟩ := MessageCodec.parses_stepBy.mp hfield
      have hboth := MessageCodec.le_of_reading hmore hcanon
      have hdecodedCanon := (Canonicity.le_update_iff.mp hboth).2
      cases hfieldOf : F.fieldOf tag with
      | none =>
          obtain ⟨hskip, rfl⟩ := (parses_fieldBy_unknown hfieldOf).mp hdecoded
          obtain ⟨-, first, more, -, hrepeats, hbytes⟩ := (parses_skipField tag).mp hskip
          obtain ⟨stretches, hleaves, hstretches, hresumes⟩ := ih hcanon hend (hbehind.later hle)
          refine ⟨⟨none, ⟨tag, wireType, first⟩ :: more, []⟩ :: stretches, ?_, ?_,
            hresumes.skip (settled_of_unknown hfieldOf) hle⟩
          · apply List.forall_mem_cons.mpr ⟨⟨fun i hi => (by cases hi), fun _ => ?_⟩, hleaves⟩
            refine ⟨rfl, List.forall_mem_cons.mpr ⟨hfieldOf, fun r hr => ?_⟩⟩
            rw [(hrepeats r hr).1]
            exact hfieldOf
          · exact wireRecords_of_run hbytes (fun r hr => (hrepeats r hr).1) hstretches
      | some i =>
          have hmem := h.fieldOf_eq_some.mp hfieldOf
          obtain ⟨⟨value, canon⟩, hvalue, rfl⟩ := (parses_fieldBy hfieldOf).mp hdecoded
          have hempty := hbehind.get_eq (hfresh i) hle hmem hvalue
          -- a tag that repeats itself would be refused
          have hne : F.Settled mode depth s.1 last lastTag → last ≠ tag := by
            rintro ⟨rfl, hsettled⟩ rfl
            rw [beq_self_eq_true] at hvalue
            exact hsettled hmem hvalue
          have hsettled := settled_of_parses (m := s.1) h (hcloses i) hmem hvalue
          rw [hempty] at hvalue
          obtain ⟨first, more, records', hbytes, hmoreTags, htags', hremains, hyields⟩ :=
            hstrips i hmem hvalue hdecodedCanon
          obtain ⟨stretches, hleaves, hstretches, hresumes⟩ :=
            ih hcanon hend (hbehind.set hle hmem value)
          refine ⟨⟨some i, ⟨tag, wireType, first⟩ :: more, records'⟩ :: stretches, ?_,
            wireRecords_of_run hbytes hmoreTags hstretches, ?_⟩
          · apply List.forall_mem_cons.mpr ⟨⟨?_, fun hnone => (by cases hnone)⟩, hleaves⟩
            rintro j ⟨⟩
            exact hremains
          · rw [List.flatMap_cons]
            cases records' with
            | nil =>
                -- the value is empty, and so the message is as before
                have hsame : F.set s.1 i value = s.1 := by
                  rw [show value = F.get s.1 i from hyields.trans hempty.symm, set_get]
                simp only [hsame] at hresumes hsettled
                exact hresumes.skip hsettled hle
            | cons r rs => exact hresumes.cons hsettled hle hne h hmem hempty htags' hyields

/-- A message is merged from what remains if its fields are. -/
theorem strips (h : F.Sound) (hregular : (F.message w).Regular) (hfresh : ∀ i, (F.field i).Fresh)
    (hcloses : ∀ i, (F.field i).Closes) (hstrips : ∀ i, (F.field i).Strips) :
    (F.message w).Strips := by
  intro mode depth bytes m canon hparse hcanon
  obtain ⟨-, records, last, lastTag, hreading⟩ := hregular.parses_mergeBy.mp hparse
  obtain ⟨stretches, hleaves, hbytes, hresumes⟩ := exists_stretches_of_reading h hfresh hcloses
    hstrips hreading hcanon rfl (behind_empty (w := w))
  have hbytes : bytes = wireRecords 0 (stretches.flatMap Stretch.records) := hbytes
  refine ⟨wireRecords 0 (stretches.flatMap Stretch.remaining), ?_, ?_⟩
  · rw [hbytes]
    exact .fields stretches (fun s hs => (hleaves s hs).known) fun s hs => (hleaves s hs).unknown
  · apply hregular.parses_mergeBy.mpr ⟨rfl, ?_⟩
    exact hresumes.reading le_rfl fun r _ => (Option.some_ne_none _).symm

end Fields

namespace MessageCodec

variable {M : Type} {codec : MessageCodec M}

theorem strips_of_sameTo {approx : Nat → MessageCodec M}
    (hsame : ∀ depth, codec.SameTo depth (approx depth)) (h : ∀ depth, (approx depth).Strips) :
    codec.Strips := by
  intro mode depth bytes m canon hparse hcanon
  have hmerge := (hsame depth).mergeBy .distinguished mode le_rfl
  rw [hmerge, (hsame depth).empty] at hparse ⊢
  obtain ⟨bytes', hremains, hparse'⟩ := h depth hparse hcanon
  exact ⟨bytes', .recursive (hsame depth) hremains, hparse'⟩

theorem strips_of_unrolls {approx : Nat → MessageCodec M} {within : Nat → M → Prop}
    (hunrolls : codec.Unrolls approx within) (hregular : codec.Regular)
    (happrox : ∀ n, (approx n).Regular) (h : ∀ n, (approx n).Strips) : codec.Strips := by
  intro mode depth bytes m canon hparse hcanon
  rw [hunrolls.parses_mergeBy hregular (happrox _) le_rfl, hunrolls.empty bytes.length] at hparse
  obtain ⟨bytes', hremains, hparse'⟩ := h bytes.length hparse hcanon
  refine ⟨bytes', .unrolled hunrolls hremains, ?_⟩
  -- there are no more bytes than before, so the same approximation reads them
  rw [hunrolls.parses_mergeBy hregular (happrox bytes.length) hremains.shrinks,
    hunrolls.empty bytes.length]
  exact hparse'

end MessageCodec

def Part.Strips : Part → Prop
  | .value codec => codec.Strips
  | .field codec => codec.Strips
  | .messageField fld => fld.Strips
  | .message codec => codec.Strips

/-- Whatever is decoded with nothing worse than extensions is decoded from what
remains without them, canonically. -/
theorem Attested.strips {part : Part} (h : Attested part) : part.Strips := by
  induction h with
  | @scalar _ s _ => exact ValueCodec.strips_scalar s
  | packed hcoll hitem ih => exact ih.cleans.strips_packed hitem.built.cuts (hcoll.decides not_false)
  | localProxy n empty hitem ih =>
      exact ih.cleans.strips_packed hitem.built.cuts
        (Collection.decides_of_trivially LocalProxy.insert rfl)
  | map hcoll hkey hval ihkey ihval =>
      exact ihkey.cleans.strips_map hkey.built.cuts hval.built.cuts ihval.cleans
        (hcoll.decides not_false)
  | packedArray hitem ih => exact ih.cleans.strips_packedArray hitem.built.cuts _
  | proxied forOverwrite emptyState _ hreports _ ih =>
      exact ih.proxied hreports forOverwrite emptyState
  | nested _ ih => exact ih.nested
  | tupled _ ih => exact ih.tupled
  | inlined _ ih => exact ih.inlined
  | plain _ _ hreads hcodec ih => exact ih.plain hcodec.built.cuts hreads
  | optional hcodec ih => exact ih.cleans.optional hcodec.built.cuts
  | unpackedField hcoll hitem ih =>
      exact ih.cleans.unpackedField hitem.built.cuts (hcoll.decides not_false)
  | packedField hcoll hitem ih =>
      exact (ih.cleans.strips_packed hitem.built.cuts (hcoll.decides not_false)).packedField
  | @unpackedArrayField _ _ _ n _ _ hitem ih =>
      cases n with
      | zero => exact ValueCodec.strips_unpackedArrayField_zero _ _
      | succ n => exact ih.cleans.unpackedArrayField hitem.built.cuts
  | packedArrayField _ _ hitem ih =>
      exact (ih.cleans.strips_packedArray hitem.built.cuts _).packedArrayField
  | unpackedArrayOptionField hn hitem ih =>
      obtain ⟨n, rfl⟩ := Nat.exists_eq_succ_of_ne_zero hn.ne'
      exact ih.cleans.unpackedArrayOptionField hitem.built.cuts
  | tagged tag _ ih => exact ih.tagged tag
  | oneof hvariants ih =>
      exact Oneof.strips (fun i => (hvariants i).built.cuts) fun i => (ih i).cleans
  | fields hsound hw hfields ih =>
      apply Fields.strips hsound
      · exact (Attested.fields hsound hw hfields).built.regular
      · exact fun i => (hfields i).built.fresh
      · exact fun i => (hfields i).closes
      · exact ih
  | recursive approx hsame hwithin happrox ih => exact MessageCodec.strips_of_sameTo hsame ih
  | unrolled approx within hunrolls happrox ih =>
      apply MessageCodec.strips_of_unrolls hunrolls
      · exact (Attested.unrolled approx within hunrolls happrox).built.regular
      · exact fun n => (happrox n).built.regular
      · exact ih

end Bilrost
