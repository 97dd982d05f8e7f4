import Bilrost.Schema.Extends
import Bilrost.Schema.RepeatedReadBack

/-!
What is decoded is what would be written, but for the extensions. Wherever the
distinguished decoder of a value objects to nothing but fields that it does not
know, the bytes that it took extend those that the value is encoded as. They are
the same where it has nothing to object to at all; together with `ReadsBack`
this makes the canonical encodings and the values of a schema a bijection.
-/

namespace Bilrost

open Program

namespace Collection

variable {C T : Type}

/-- An item whose insertion is not objected to goes to the end. -/
def Appends (coll : Collection C T) : Prop :=
  ∀ ⦃front next : C⦄ ⦃item : T⦄ ⦃canon : Canonicity⦄,
    coll.inserted .distinguished front item = .ok (next, canon) → .hasExtensions ≤ canon →
      coll.iter next = coll.iter front ++ [item]

theorem appends_vec : (vec T).Appends := by
  intro front next item canon h _
  obtain rfl : front ++ [item] = next := congrArg Prod.fst (Except.ok.inj h)
  rfl

theorem appends_arrayVec {capacity : Nat} : (arrayVec T capacity).Appends := by
  intro front next item canon h _
  have hmap : (arrayVec.push T capacity front item).map (fun items => (items, Canonicity.canonical)) =
      .ok (next, canon) := h
  unfold arrayVec.push at hmap
  split_ifs at hmap
  · obtain rfl := congrArg Prod.fst (Except.ok.inj hmap)
    rfl
  · cases hmap

/-- An entry in the right place has a key above all others. -/
theorem appends_btreeMap {K V : Type} [LinearOrder K] : (btreeMap K V).Appends := by
  intro front next entry canon h hcanon
  simp only [inserted, btreeMap] at h
  have happend (hlt : ∀ e ∈ front.last, e.1 < entry.1)
      (hnext : front.insert entry.1 entry.2 = next) :
      next.entries = front.entries ++ [entry] :=
    hnext ▸ SortedMap.entries_insert_of_lt entry.2 hlt
  cases hlast : front.last with
  | none =>
      simp only [hlast, Except.ok.injEq, Prod.mk.injEq] at h
      exact happend (by simp [hlast]) h.1
  | some last =>
      cases hcompare : compare entry.1 last.1 with
      | lt =>
          simp only [hlast, hcompare] at h
          cases hnew : btreeMap.insertNew K V front entry with
          | error kind => simp [hnew, Except.map] at h
          | ok map =>
              simp only [hnew, Except.map, Except.ok.injEq, Prod.mk.injEq] at h
              exact absurd (h.2 ▸ hcanon) (by decide)
      | eq => simp [hlast, hcompare] at h
      | gt =>
          simp only [hlast, hcompare, Except.ok.injEq, Prod.mk.injEq] at h
          apply happend _ h.1
          intro e he
          obtain rfl : last = e := Option.some.inj (hlast.symm.trans he)
          exact compare_gt_iff_gt.mp hcompare

theorem appends_btreeSet [LinearOrder T] : (btreeSet T).Appends := by
  intro front next item canon h hcanon
  have hentries : next.entries = front.entries ++ [(item, ())] :=
    appends_btreeMap (K := T) (V := Unit) h hcanon
  exact (congrArg (List.map Prod.fst) hentries).trans List.map_append

theorem Standard.appends {allowed : Features} {coll : Collection C T} (h : coll.Standard allowed)
    (hordered : ¬allowed.hashed) : coll.Appends := by
  cases h with
  | vec => exact appends_vec
  | arrayVec => exact appends_arrayVec
  | btreeMap => exact appends_btreeMap
  | btreeSet => exact appends_btreeSet
  | hashMap K V place hhashed => exact absurd hhashed hordered
  | hashSet T place hhashed => exact absurd hhashed hordered

theorem Standard.iter_empty {allowed : Features} {coll : Collection C T}
    (h : coll.Standard allowed) : coll.iter coll.empty = [] := by
  have hempty := (h.isEmpty coll.empty).mpr rfl
  rwa [h.isEmpty_iter, List.isEmpty_iff] at hempty

end Collection

theorem region_eq (content : Bytes) :
    varint content.length ++ (content ++ []) = regionBytes content := by
  rw [List.append_nil, regionBytes]

theorem ne_nil_of_region_ne {content : Bytes} (h : content ≠ []) :
    regionBytes [] ≠ regionBytes content := by
  intro heq
  have hlength : (varint 0).length + 0 = (varint content.length).length + content.length := by
    simpa [regionBytes] using congrArg List.length heq
  have hshort : (varint 0).length = 1 := by decide
  have hpos := List.length_pos_iff.mpr (varint_ne_nil content.length)
  have hcontent := List.length_pos_iff.mpr h
  omega

namespace ValueCodec

variable {T C K V : Type}

/-- What some bytes mean as an item is encoded as what they extend. -/
def Spells (least : Canonicity) (item : ValueCodec T) : Prop :=
  ∀ ⦃mode : DecodingMode⦄ ⦃depth : Nat⦄ ⦃payload : Bytes⦄ ⦃value : T⦄ ⦃canon : Canonicity⦄,
    item.Means .distinguished mode depth payload (value, canon) → least ≤ canon →
      ∃ payload', item.encodeValue value = some payload' ∧
        Extends least (.value item) payload payload'

/-- What is decoded is encoded as what the bytes that it was decoded from
extend. A message that may not be empty has contents. -/
structure Sheds (least : Canonicity) (codec : ValueCodec T) : Prop where
  encode {mode : DecodingMode} {allowEmpty : Bool} {depth : Nat} {payload : Bytes} {value : T}
    {canon : Canonicity} :
    (codec.decodeBy .distinguished mode allowEmpty depth codec.forOverwrite).Parses payload
      (value, canon) [] → least ≤ canon →
      ∃ payload', codec.encodeValue value = some payload' ∧
        Extends least (.value codec) payload payload'
  ne {mode : DecodingMode} {depth : Nat} {payload : Bytes} {value : T} {canon : Canonicity} :
    codec.checksEmpty = true →
      (codec.decodeBy .distinguished mode false depth codec.forOverwrite).Parses payload
        (value, canon) [] → least ≤ canon → codec.encodeValue codec.forOverwrite ≠ some payload

theorem Sheds.spells {least : Canonicity} {codec : ValueCodec T} (h : codec.Sheds least) :
    codec.Spells least :=
  fun _ _ _ _ _ hmeans hcanon => h.encode hmeans hcanon

/-- What is encoded of some values, one after the other, are their payloads. -/
theorem encodeAll_of_map {encode : T → Option Bytes} {values : List T} {payloads : List Bytes}
    (h : values.map encode = payloads.map some) : encodeAll encode values = some payloads.flatten := by
  induction values generalizing payloads with
  | nil =>
      obtain rfl := List.map_eq_nil_iff.mp h.symm
      rfl
  | cons value values ih =>
      cases payloads with
      | nil => cases h
      | cons payload payloads =>
          obtain ⟨hvalue, hvalues⟩ := List.cons.inj h
          exact encodeAll_cons_eq_some.mpr ⟨payload, _, hvalue, ih hvalues, rfl⟩

/-- A region is encoded as its length and its contents. -/
theorem encodeDelimited_of_eq {len : Option Nat} {content : Option Bytes} {bytes : Bytes}
    (hlen : len = some bytes.length) (hcontent : content = some bytes) :
    encodeDelimited len content = some (regionBytes bytes) := by
  simp [encodeDelimited, hlen, hcontent, encodeVarint_eq, regionBytes]

end ValueCodec

/-- Scalars have one representation only. -/
theorem Scalar.Standard.encode_of_parses {T : Type} {scalar : Scalar T} (h : scalar.Standard)
    {mode : DecodingMode} {payload : Bytes} {value : T}
    (hparse : (scalar.decode mode).Parses payload value []) : scalar.encode value = payload := by
  cases h with
  | @varint _ s h =>
      obtain ⟨n, mid, hvarint, hnext⟩ := parses_op.mp hparse
      obtain ⟨-, rfl⟩ := parses_decodeVarint.mp hvarint
      obtain ⟨hfrom, rfl⟩ := parses_ofResult.mp hnext
      simp [VarintScalar.scalar, h.to_from hfrom, encodeVarint_eq]
  | @fixed _ s h =>
      have hread {bytes rest : Bytes} (hnext : (ofResult (s.fromBytes bytes)).Parses rest value [])
          (hbytes : payload = bytes ++ rest) : s.toBytes value = payload := by
        obtain ⟨hfrom, rfl⟩ := parses_ofResult.mp hnext
        rw [h.to_from hfrom, hbytes, List.append_nil]
      simp only [FixedScalar.scalar] at hparse
      split_ifs at hparse
      · obtain ⟨bytes, mid, hop, hnext⟩ := parses_op.mp hparse
        exact hread hnext (parse_bytes_iff.mp hop).2
      · obtain ⟨bytes, mid, hop, hnext⟩ := parses_op.mp hparse
        exact hread hnext (parse_bytes_iff.mp hop).2
  | @delimited _ s h =>
      obtain ⟨content, mid, hread, hnext⟩ := parses_bind.mp hparse
      obtain ⟨-, rfl⟩ := DelimitedRead.parses_bytes.mp hread
      obtain ⟨hfrom, rfl⟩ := parses_ofResult.mp hnext
      simp [DelimitedScalar.scalar, h.to_from hfrom, encodeVarint_eq]
  | plainArray n =>
      obtain ⟨content, hlt, rfl, hinner⟩ := parses_delimited.mp hparse
      split_ifs at hinner with hlen
      · exact (parses_error.mp hinner).elim
      · obtain ⟨bytes, mid, hop, hnext⟩ := parses_op.mp hinner
        obtain ⟨hbytes, rfl⟩ := parse_bytes_iff.mp hop
        rw [dif_pos hbytes] at hnext
        obtain ⟨rfl, rfl⟩ := parses_done.mp hnext
        have hn : (bytes ++ ([] : Bytes)).length = n := not_not.mp hlen
        rw [List.append_nil] at hn hlt ⊢
        simp only [Bilrost.plainArray, List.append_nil, hn]
        rw [constVarint_eq (hn ▸ hlt)]
        rfl

namespace ValueCodec

variable {T C K V : Type} {ordered : Prop} {least : Canonicity}

theorem sheds_scalar {scalar : Scalar T} (h : scalar.Standard) : scalar.codec.Sheds least where
  encode hparse _ := by
    rw [Scalar.decodeBy_eq, parses_asCanonical] at hparse
    exact ⟨_, congrArg some (h.encode_of_parses hparse.1), .same _⟩
  ne hchecks := by cases hchecks

theorem Spells.entry {key : ValueCodec K} {val : ValueCodec V} (hcuts : key.Cuts)
    (hkey : key.Spells least) (hval : val.Spells least) : (key.entry val).Spells least := by
  intro mode depth payload e canon hmeans hcanon
  obtain ⟨keyPayload, valPayload, keyCanon, valCanon, rfl, hkeyMeans, hvalMeans, rfl⟩ :=
    hcuts.means_entry.mp hmeans
  obtain ⟨hkeyCanon, hvalCanon⟩ := Canonicity.le_update_iff.mp hcanon
  obtain ⟨keyBytes, hkeyBytes, hkeyExtends⟩ := hkey hkeyMeans hkeyCanon
  obtain ⟨valBytes, hvalBytes, hvalExtends⟩ := hval hvalMeans hvalCanon
  refine ⟨keyBytes ++ valBytes, ?_, hkeyExtends.entry hvalExtends⟩
  simp [ValueCodec.entry, hkeyBytes, hvalBytes]

section
variable {item : ValueCodec T} {coll : Collection C T} {mode : DecodingMode} {depth : Nat}
  {canon : Canonicity}

/-- The payloads extend those of the items, in the order in which the collection
goes through them. -/
theorem Spells.rounds (h : item.Spells least) (hleast : .hasExtensions ≤ least)
    (hcoll : coll.Appends) {state : C × Canonicity} {items : C} {payloads : List Bytes}
    (hrounds : Rounds (item.Takes coll .distinguished mode depth) state payloads (items, canon))
    (hcanon : least ≤ canon) :
    least ≤ state.2 ∧ ∃ values payloads', coll.iter items = coll.iter state.1 ++ values ∧
      values.map item.encodeValue = payloads'.map some ∧
      ExtendsEach least item payloads payloads' := by
  generalize hend : (items, canon) = last at hrounds
  induction hrounds with
  | nil =>
      subst hend
      exact ⟨hcanon, [], [], (List.append_nil _).symm, rfl, .nil⟩
  | cons hstep _ ih =>
      obtain ⟨hcanon, values, payloads', hiter, hvalues, hextends⟩ := ih hend
      obtain ⟨⟨value, itemCanon⟩, ⟨next, insertCanon⟩, hmeans, hinserted, rfl⟩ :=
        parses_decodeItemBy.mp hstep
      obtain ⟨hboth, hinsertCanon⟩ := Canonicity.le_update_iff.mp hcanon
      obtain ⟨hstate, hitemCanon⟩ := Canonicity.le_update_iff.mp hboth
      obtain ⟨payload', hpayload', hextended⟩ := h hmeans hitemCanon
      refine ⟨hstate, value :: values, payload' :: payloads', ?_, ?_, .cons hextended hextends⟩
      · rw [hiter, hcoll hinserted (hleast.trans hinsertCanon), List.append_assoc]
        rfl
      · rw [List.map_cons, List.map_cons, hvalues, hpayload']

/-- The payloads that an empty collection takes in extend those of all its items. -/
theorem Spells.rounds_empty (h : item.Spells least) (hleast : .hasExtensions ≤ least)
    (hcoll : coll.Appends) (hempty : coll.iter coll.empty = []) {items : C}
    {payloads : List Bytes}
    (hrounds : Rounds (item.Takes coll .distinguished mode depth) (coll.empty, .canonical) payloads
      (items, canon)) (hcanon : least ≤ canon) :
    ∃ payloads', (coll.iter items).map item.encodeValue = payloads'.map some ∧
      ExtendsEach least item payloads payloads' := by
  obtain ⟨-, values, payloads', hiter, hvalues, hextends⟩ := h.rounds hleast hcoll hrounds hcanon
  obtain rfl : coll.iter items = values := hiter.trans (congrArg (· ++ values) hempty)
  exact ⟨payloads', hvalues, hextends⟩

theorem Spells.sheds_packedItems {fixedSize : Option Nat} (h : item.Spells least)
    (hleast : .hasExtensions ≤ least) (hseparate : item.Separate) (hputs : item.Puts ordered)
    (hcoll : coll.Appends) (hempty : coll.iter coll.empty = []) :
    (packedItems fixedSize item coll).Sheds least where
  encode hparse hcanon := by
    obtain ⟨payloads, -, hbytes, -, hrounds⟩ := hseparate.parses_packedItems.mp hparse
    obtain ⟨payloads', hencodes, hextends⟩ :=
      h.rounds_empty hleast hcoll hempty hrounds hcanon
    have hall := encodeAll_of_map hencodes
    refine ⟨_, encodeDelimited_of_eq (hputs.many hall) hall, ?_⟩
    rw [hbytes, region_eq]
    exact .packedItems_of_each hextends
  ne hchecks := by cases hchecks

/-- The payloads that an empty array is filled from extend those of its items. -/
theorem Spells.fills (h : item.Spells least) {n : Nat} {payloads : List Bytes}
    {arr : List.Vector T n}
    (hfills : Fills (item.Replaces .distinguished mode depth)
      (List.Vector.replicate n item.forOverwrite) payloads (arr, canon)) (hcanon : least ≤ canon) :
    ∃ payloads', arr.toList.map item.encodeValue = payloads'.map some ∧
      ExtendsEach least item payloads payloads' := by
  induction n generalizing payloads canon with
  | zero =>
      obtain ⟨rfl, -⟩ := hfills
      rw [arr.eq_nil]
      exact ⟨[], rfl, .nil⟩
  | succ n ih =>
      cases payloads with
      | nil => exact hfills.elim
      | cons payload payloads =>
          rw [List.Vector.replicate_succ] at hfills
          obtain ⟨⟨first, firstCanon⟩, ⟨rest, restCanon⟩, hfirst, hrest, heq⟩ := hfills
          obtain ⟨rfl, rfl⟩ := Prod.ext_iff.mp heq
          obtain ⟨hfirstCanon, hrestCanon⟩ := Canonicity.le_update_iff.mp hcanon
          obtain ⟨payload', hpayload', hextended⟩ := h hfirst hfirstCanon
          obtain ⟨payloads', hencodes, hextends⟩ := ih hrest hrestCanon
          refine ⟨payload' :: payloads', ?_, .cons hextended hextends⟩
          simp only [List.Vector.toList_cons, List.map_cons, hencodes, hpayload']

theorem Spells.sheds_packedArray (h : item.Spells least) (hcuts : item.Cuts)
    (hputs : item.Puts ordered) (n : Nat) : (item.packedArray n).Sheds least where
  encode hparse hcanon := by
    obtain ⟨payloads, -, hbytes, hfills⟩ := hcuts.parses_packedArray.mp hparse
    obtain ⟨payloads', hencodes, hextends⟩ := h.fills hfills hcanon
    have hall := encodeAll_of_map hencodes
    refine ⟨_, encodeDelimited_of_eq (hputs.many hall) hall, ?_⟩
    rw [hbytes, region_eq]
    exact .packedArray_of_each hextends
  ne hchecks := by cases hchecks

end

end ValueCodec

/-- What is merged into the empty message is encoded as what the bytes that it
was merged from extend. -/
def MessageCodec.Sheds {M : Type} (least : Canonicity) (codec : MessageCodec M) : Prop :=
  ∀ ⦃mode : DecodingMode⦄ ⦃depth : Nat⦄ ⦃bytes : Bytes⦄ ⦃m : M⦄ ⦃canon : Canonicity⦄,
    (codec.mergeBy .distinguished mode depth codec.empty).Parses bytes (m, canon) [] →
      least ≤ canon →
        ∃ bytes', codec.rawEncode m = some bytes' ∧ Extends least (.message codec) bytes bytes'

namespace MessageCodec

variable {M : Type} {codec : MessageCodec M} {value : ValueCodec M} {ordered : Prop}
  {least canon : Canonicity} {mode : DecodingMode} {allowEmpty : Bool} {depth : Nat}
  {payload content : Bytes} {m : M}

/-- The bytes of a message are its length and its contents. -/
theorem Sheds.encodeDelimited (h : codec.Sheds least) (hwrites : codec.Writes ordered)
    (hvalue : codec.Embeds value)
    (hparse : (codec.mergeBy .distinguished mode depth codec.empty).Parses content (m, canon) [])
    (hcanon : least ≤ canon) :
    ∃ payload', value.encodeValue m = some payload' ∧
      Extends least (.value value) (regionBytes content) payload' := by
  obtain ⟨content', hcontent', hextends⟩ := h hparse hcanon
  refine ⟨_, (hvalue.encodeValue m).trans ?_, .embedded hvalue hextends⟩
  exact ValueCodec.encodeDelimited_of_eq (hwrites.rawEncodedLen_eq content' hcontent') hcontent'

/-- With contents that are looked at there are some, unlike in an empty value. -/
theorem Embeds.ne_region (hvalue : codec.Embeds value) (hwrites : codec.Writes ordered)
    (hempty : codec.rawEncode codec.empty = some [])
    (hshort : Way.distinguished.shortcut false content.length = false) :
    value.encodeValue codec.empty ≠ some (regionBytes content) := by
  have hencode : value.encodeValue codec.empty = some (regionBytes []) :=
    (hvalue.encodeValue _).trans
      (ValueCodec.encodeDelimited_of_eq (hwrites.rawEncodedLen_eq [] hempty) hempty)
  rw [hencode]
  intro heq
  apply ne_nil_of_region_ne _ (Option.some.inj heq)
  rintro rfl
  cases hshort

/-- What a message value was decoded from: contents that were merged a level
deeper, or none, which the distinguished decoder does not look at if it may not
be empty. -/
def DecodesContents (codec : MessageCodec M) (way : Way) (mode : DecodingMode) (allowEmpty : Bool)
    (depth : Nat) (payload : Bytes) (x : M × Canonicity) : Prop :=
  ∃ content : Bytes, content.length < 2 ^ 64 ∧ payload = regionBytes content ∧
    (way.shortcut allowEmpty content.length = true ∧ x = (codec.empty, .notCanonical) ∨
      way.shortcut allowEmpty content.length = false ∧ 0 < depth ∧
        (codec.mergeBy way mode (depth - 1) codec.empty).Parses content x [])

section
variable {way : Way} {x : M × Canonicity}

theorem eq_of_parses_refused {m : M} {bytes rest : Bytes}
    (hparse : (refused m).Parses bytes x rest) : x = (m, .notCanonical) :=
  (parses_done.mp (parses_check.mp hparse)).1.symm

theorem contents_of_nested
    (hparse : (codec.nested.decodeBy way mode allowEmpty depth codec.empty).Parses payload x []) :
    codec.DecodesContents way mode allowEmpty depth payload x := by
  have hparse := (codec.nested_decodeBy way mode allowEmpty depth _).parses.mp hparse
  obtain ⟨u, mid, hlimit, hregion⟩ := parses_bind.mp hparse
  obtain ⟨hdepth, rfl⟩ := parses_limitReached.mp hlimit
  obtain ⟨content, hlt, hpayload, hinner⟩ := parses_delimited.mp hregion
  refine ⟨content, hlt, hpayload.trans (region_eq content), ?_⟩
  cases hshort : way.shortcut allowEmpty content.length with
  | true =>
      simp only [hshort, ↓reduceIte, parses_note] at hinner
      exact .inl ⟨rfl, eq_of_parses_refused hinner⟩
  | false =>
      simp only [hshort, Bool.false_eq_true, ↓reduceIte, contentsBy, parses_note] at hinner
      exact .inr ⟨rfl, by omega, hinner⟩

theorem contents_of_tupled
    (hparse : (codec.tupled.decodeBy way mode allowEmpty depth codec.empty).Parses payload x []) :
    codec.DecodesContents way mode allowEmpty depth payload x := by
  have hparse := (codec.tupled_decodeBy way mode allowEmpty depth _).parses.mp hparse
  obtain ⟨content, hlt, hpayload, hinner⟩ := parses_delimited.mp hparse
  refine ⟨content, hlt, hpayload.trans (region_eq content), ?_⟩
  cases hshort : way.shortcut allowEmpty content.length with
  | true =>
      simp only [hshort, ↓reduceIte, parses_note] at hinner
      exact .inl ⟨rfl, eq_of_parses_refused hinner⟩
  | false =>
      simp only [hshort, Bool.false_eq_true, ↓reduceIte] at hinner
      obtain ⟨u, mid, hlimit, hcontents⟩ := parses_bind.mp hinner
      obtain ⟨hdepth, rfl⟩ := parses_limitReached.mp hlimit
      simp only [contentsBy, parses_note] at hcontents
      exact .inr ⟨rfl, by omega, hcontents⟩

theorem contents_of_inlined
    (hparse : (codec.inlined.decodeBy way mode allowEmpty depth codec.empty).Parses payload x []) :
    ∃ content : Bytes, content.length < 2 ^ 64 ∧ payload = regionBytes content ∧
      (codec.mergeBy way mode depth codec.empty).Parses content x [] := by
  have hparse := (codec.inlined_decodeBy way mode allowEmpty depth _).parses.mp hparse
  obtain ⟨content, hlt, hpayload, hinner⟩ := parses_delimited.mp hparse
  simp only [contentsBy, parses_note] at hinner
  exact ⟨content, hlt, hpayload.trans (region_eq content), hinner⟩

end

theorem Sheds.embedded (h : codec.Sheds least) (hleast : .hasExtensions ≤ least)
    (hwrites : codec.Writes ordered) (hempty : codec.rawEncode codec.empty = some [])
    (hvalue : codec.Embeds value) (hforOverwrite : value.forOverwrite = codec.empty)
    (hcontents : ∀ {mode allowEmpty depth payload x},
      (value.decodeBy .distinguished mode allowEmpty depth codec.empty).Parses payload x [] →
        codec.DecodesContents .distinguished mode allowEmpty depth payload x) :
    value.Sheds least := by
  have hne : ¬least ≤ .notCanonical := fun hle => absurd (hleast.trans hle) (by decide)
  constructor
  · intro mode allowEmpty depth payload m canon hparse hcanon
    rw [hforOverwrite] at hparse
    obtain ⟨content, -, rfl, ⟨-, heq⟩ | ⟨-, -, hmerge⟩⟩ := hcontents hparse
    · obtain rfl : canon = .notCanonical := congrArg Prod.snd heq
      exact absurd hcanon hne
    · exact h.encodeDelimited hwrites hvalue hmerge hcanon
  · intro mode depth payload m canon _ hparse hcanon
    rw [hforOverwrite] at hparse ⊢
    obtain ⟨content, -, rfl, ⟨-, heq⟩ | ⟨hshort, -, -⟩⟩ := hcontents hparse
    · obtain rfl : canon = .notCanonical := congrArg Prod.snd heq
      exact absurd hcanon hne
    · exact hvalue.ne_region hwrites hempty hshort

theorem Sheds.inlined (h : codec.Sheds least) (hwrites : codec.Writes ordered) :
    codec.inlined.Sheds least where
  encode hparse hcanon := by
    obtain ⟨content, -, rfl, hmerge⟩ := contents_of_inlined hparse
    exact h.encodeDelimited hwrites .inlined hmerge hcanon
  ne hchecks := by cases hchecks

end MessageCodec

end Bilrost
