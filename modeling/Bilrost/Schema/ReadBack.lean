import Bilrost.Schema.Forms
import Bilrost.Schema.MessageWrites

/-!
What is written is read back: the bytes that a value is encoded as are decoded to
it again. It is said of one value, one way to decode and one depth at a time, so
that what is known of the values inside of a value is enough. Numbers of bytes
are those of 64 bits, so nothing is said of longer encodings.
-/

namespace Bilrost

open Program

namespace Collection

variable {C T : Type}

/-- The items of a collection that are put into an empty one make it again. -/
def Rebuilds (coll : Collection C T) (way : Way) (items : C) : Prop :=
  coll.insertAll way (coll.empty, .canonical) ((coll.iter items).map fun item => (item, .canonical)) =
    some (items, .canonical)

/-- Collections to which items are added at the end. -/
theorem rebuilds_of_append {coll : Collection C T} {way : Way} {items : C}
    (hinjective : Function.Injective coll.iter) (hempty : coll.iter coll.empty = [])
    (hinsert : ∀ front item back, coll.iter front ++ item :: back = coll.iter items →
      ∃ next, coll.inserted way front item = .ok (next, .canonical) ∧
        coll.iter next = coll.iter front ++ [item]) : coll.Rebuilds way items := by
  have hall (front : C) (back : List T) (h : coll.iter front ++ back = coll.iter items) :
      coll.insertAll way (front, .canonical) (back.map fun item => (item, .canonical)) =
        some (items, .canonical) := by
    induction back generalizing front with
    | nil =>
        obtain rfl := hinjective ((List.append_nil _).symm.trans h)
        rfl
    | cons item back ih =>
        obtain ⟨next, hnext, hiter⟩ := hinsert front item back h
        have hrest : coll.iter next ++ back = coll.iter items := by
          rw [hiter, List.append_assoc]
          exact h
        simp only [List.map_cons, insertAll, hnext, Canonicity.update_canonical]
        exact ih next hrest
  exact hall coll.empty (coll.iter items) (by rw [hempty, List.nil_append])

theorem rebuilds_vec (way : Way) (items : List T) : (vec T).Rebuilds way items := by
  apply rebuilds_of_append
  · exact Function.injective_id
  · rfl
  · intro front item back _
    refine ⟨front ++ [item], ?_, rfl⟩
    cases way <;> rfl

theorem rebuilds_arrayVec {capacity : Nat} (way : Way)
    (items : {l : List T // l.length ≤ capacity}) : (arrayVec T capacity).Rebuilds way items := by
  apply rebuilds_of_append
  · exact Subtype.val_injective
  · rfl
  · intro front item back h
    have hroom : front.val.length < capacity := by
      have hlen : front.val.length + (back.length + 1) = items.val.length := by
        rw [← List.length_cons (a := item), ← List.length_append]
        exact congrArg List.length h
      have hle := items.property
      omega
    have hpush : arrayVec.push T capacity front item =
        .ok ⟨front.val ++ [item], by simpa using hroom⟩ := dif_pos hroom
    refine ⟨⟨front.val ++ [item], by simpa using hroom⟩, ?_, rfl⟩
    cases way with
    | relaxed => exact congrArg (Except.map fun items => (items, Canonicity.canonical)) hpush
    | distinguished => exact congrArg (Except.map fun items => (items, Canonicity.canonical)) hpush

theorem iter_btreeMap_injective {K V : Type} [LinearOrder K] :
    Function.Injective (btreeMap K V).iter := fun _ _ h => SortedMap.ext h

/-- An entry whose key is above the others is put at the end, in either way. -/
theorem inserted_btreeMap {K V : Type} [LinearOrder K] (way : Way) {map : SortedMap K V}
    (entry : K × V) (h : ∀ e ∈ map.entries, e.1 < entry.1) :
    (btreeMap K V).inserted way map entry = .ok (map.insert entry.1 entry.2, .canonical) := by
  have hlast : ∀ e ∈ map.last, e.1 < entry.1 := fun e he => h e (List.mem_of_getLast? he)
  cases way with
  | relaxed =>
      have hnew : btreeMap.insertNew K V map entry = .ok (map.insert entry.1 entry.2) := by
        simp [btreeMap.insertNew, SortedMap.contains_eq_false hlast]
      exact congrArg (Except.map fun map => (map, Canonicity.canonical)) hnew
  | distinguished =>
      simp only [inserted, btreeMap]
      cases hmap : map.last with
      | none => rfl
      | some last =>
          have hgt : compare entry.1 last.1 = .gt := compare_gt_iff_gt.mpr (hlast last hmap)
          simp only [hgt]

theorem rebuilds_btreeMap {K V : Type} [LinearOrder K] (way : Way) (map : SortedMap K V) :
    (btreeMap K V).Rebuilds way map := by
  apply rebuilds_of_append iter_btreeMap_injective
  · rfl
  · intro front entry back h
    have hsorted := map.sorted
    have hsplit : front.entries ++ entry :: back = map.entries := h
    rw [← hsplit] at hsorted
    have hlt : ∀ e ∈ front.entries, e.1 < entry.1 := fun e he =>
      (List.pairwise_append.mp hsorted).2.2 e he entry List.mem_cons_self
    refine ⟨front.insert entry.1 entry.2, inserted_btreeMap way entry hlt, ?_⟩
    exact SortedMap.upsertEntries_of_lt _ hlt

theorem rebuilds_btreeSet [LinearOrder T] (way : Way) (set : SortedMap T Unit) :
    (btreeSet T).Rebuilds way set := by
  have hitems (set : SortedMap T Unit) :
      set.entries = ((btreeSet T).iter set).map fun item => (item, ()) := by
    change set.entries = (set.entries.map Prod.fst).map fun item => (item, ())
    rw [List.map_map]
    exact (List.map_id set.entries).symm
  apply rebuilds_of_append
  · intro set set' h
    apply SortedMap.ext
    rw [hitems set, hitems set', h]
  · rfl
  · intro front item back h
    have hsorted := set.keys_pairwise
    have hsplit : front.keys ++ item :: back = set.keys := h
    rw [← hsplit] at hsorted
    have hlt : ∀ e ∈ front.entries, e.1 < item := fun e he =>
      (List.pairwise_append.mp hsorted).2.2 e.1 (List.mem_map_of_mem he) item List.mem_cons_self
    refine ⟨front.insert item (), ?_, ?_⟩
    · cases way with
      | relaxed => exact inserted_btreeMap .relaxed (item, ()) hlt
      | distinguished => exact inserted_btreeMap .distinguished (item, ()) hlt
    · have hentries : (front.insert item ()).entries = front.entries ++ [(item, ())] :=
        SortedMap.upsertEntries_of_lt _ hlt
      exact (congrArg (List.map Prod.fst) hentries).trans List.map_append

theorem Standard.rebuilds {allowed : Features} {coll : Collection C T}
    (h : coll.Standard allowed) (hordered : ¬allowed.hashed) (way : Way) (items : C) :
    coll.Rebuilds way items := by
  cases h with
  | vec => exact rebuilds_vec way items
  | arrayVec => exact rebuilds_arrayVec way items
  | btreeMap => exact rebuilds_btreeMap way items
  | btreeSet => exact rebuilds_btreeSet way items
  | hashMap K V place hhashed => exact absurd hhashed hordered
  | hashSet T place hhashed => exact absurd hhashed hordered

end Collection

/-- What is encoded of the value is decoded to it. -/
def ValueCodec.ReadsBack {T : Type} (codec : ValueCodec T) (way : Way) (mode : DecodingMode)
    (allowEmpty : Bool) (depth : Nat) (value : T) : Prop :=
  ∀ payload, codec.encodeValue value = some payload → payload.length < 2 ^ 64 →
    (codec.decodeBy way mode allowEmpty depth codec.forOverwrite).Parses payload
      (value, .canonical) []

/-- What is encoded of the message is merged into it. -/
def MessageCodec.ReadsBack {M : Type} (codec : MessageCodec M) (way : Way) (mode : DecodingMode)
    (depth : Nat) (m : M) : Prop :=
  ∀ bytes, codec.rawEncode m = some bytes → bytes.length < 2 ^ 64 →
    (codec.mergeBy way mode depth codec.empty).Parses bytes (m, .canonical) []

theorem Scalar.Standard.readsBack {T : Type} {scalar : Scalar T} (h : scalar.Standard) (way : Way)
    (mode : DecodingMode) (allowEmpty : Bool) (depth : Nat) (value : T) :
    scalar.codec.ReadsBack way mode allowEmpty depth value := by
  intro payload hencode hlt
  obtain rfl : scalar.encode value = payload := Option.some.inj hencode
  rw [Scalar.decodeBy_eq, parses_asCanonical]
  refine ⟨?_, rfl⟩
  cases h with
  | @varint _ s h =>
      have hvarint : Op.decodeVarint.parse (s.scalar.encode value) = some (s.toUint64 value, []) :=
        parses_decodeVarint.mpr ⟨h.lt value, by simp [VarintScalar.scalar, encodeVarint_eq]⟩
      exact parses_op.mpr ⟨_, _, hvarint, parses_ofResult.mpr ⟨h.from_to value, rfl⟩⟩
  | @fixed _ s h =>
      have hbytes : s.toBytes value = s.toBytes value ++ [] := (List.append_nil _).symm
      have hread : (ofResult (s.fromBytes (s.toBytes value))).Parses [] value [] :=
        parses_ofResult.mpr ⟨h.from_to value, rfl⟩
      simp only [FixedScalar.scalar]
      split_ifs
      · exact parses_op.mpr ⟨_, _, parse_bytes_iff.mpr ⟨h.length value, hbytes⟩, hread⟩
      · exact parses_op.mpr ⟨_, _, parse_bytes_iff.mpr ⟨h.length value, hbytes⟩, hread⟩
  | @delimited _ s h =>
      have hlen : (s.toBytes value).length < 2 ^ 64 := by
        simp only [DelimitedScalar.scalar, List.length_append] at hlt
        omega
      have hread : (s.reads mode).bytes.Parses (s.scalar.encode value) (s.toBytes value) [] :=
        DelimitedRead.parses_bytes.mpr
          ⟨hlen, by simp [DelimitedScalar.scalar, encodeVarint_eq]⟩
      exact parses_bind.mpr ⟨_, _, hread, parses_ofResult.mpr ⟨h.from_to value, rfl⟩⟩
  | plainArray n =>
      have hlen : value.toList.length = n := value.toList_length
      have hlt : n < 2 ^ 64 := by
        simp only [Bilrost.plainArray, List.length_append, hlen] at hlt
        omega
      have hbytes : (Bilrost.plainArray n).encode value =
          Bilrost.varint value.toList.length ++ (value.toList ++ []) := by
        rw [List.append_nil, hlen, ← constVarint_eq hlt]
        rfl
      have hread : (Op.copyBytes n).parse value.toList = some (value.toList, []) :=
        parse_bytes_iff.mpr ⟨hlen, (List.append_nil _).symm⟩
      refine parses_delimited.mpr ⟨value.toList, hlen.symm ▸ hlt, hbytes, ?_⟩
      simp only [hlen, ne_eq, not_true_eq_false, ↓reduceIte]
      refine parses_op.mpr ⟨_, _, hread, ?_⟩
      rw [dif_pos hlen]
      exact parses_done.mpr ⟨rfl, rfl⟩

/-- A region that is encoded: its length and its contents. -/
theorem encodeDelimited_eq_some {len : Option Nat} {content : Option Bytes} {payload : Bytes}
    (hlen : ∀ bytes, content = some bytes → len = some bytes.length)
    (h : encodeDelimited len content = some payload) :
    ∃ bytes, content = some bytes ∧ payload = varint bytes.length ++ bytes := by
  obtain ⟨n, hn, h⟩ := Option.bind_eq_some_iff.mp h
  obtain ⟨bytes, hbytes, h⟩ := Option.bind_eq_some_iff.mp h
  obtain rfl : n = bytes.length := Option.some.inj (hn.symm.trans (hlen bytes hbytes))
  refine ⟨bytes, hbytes, ?_⟩
  rw [← encodeVarint_eq]
  exact (Option.some.inj h).symm

namespace MessageCodec

variable {M : Type} {codec : MessageCodec M} {way : Way} {mode : DecodingMode} {allowEmpty : Bool}
  {depth : Nat} {m : M} {ordered : Prop}

theorem Writes.rawEncodedLen_eq (h : codec.Writes ordered) (bytes : Bytes)
    (hencode : codec.rawEncode m = some bytes) : codec.rawEncodedLen m = some bytes.length := by
  obtain ⟨records, hwritten⟩ := h m
  obtain rfl := Option.some.inj (hwritten.encode.symm.trans hencode)
  exact hwritten.encodedLen

section
variable {content : Bytes} {x : M × Canonicity}

/-- Contents that are looked at are merged. -/
theorem parses_nested (hlt : content.length < 2 ^ 64)
    (hshort : way.shortcut allowEmpty content.length = false)
    (hmerge : (codec.mergeBy way mode depth m).Parses content x []) :
    (codec.nested.decodeBy way mode allowEmpty (depth + 1) m).Parses
      (varint content.length ++ (content ++ [])) x [] := by
  apply (codec.nested_decodeBy way mode allowEmpty (depth + 1) m).parses.mpr
  refine parses_bind.mpr ⟨(), _, parses_limitReached.mpr ⟨by omega, rfl⟩, ?_⟩
  refine parses_delimited.mpr ⟨content, hlt, rfl, ?_⟩
  simp only [hshort, Bool.false_eq_true, ↓reduceIte, contentsBy, parses_note]
  exact hmerge

theorem parses_tupled (hlt : content.length < 2 ^ 64)
    (hshort : way.shortcut allowEmpty content.length = false)
    (hmerge : (codec.mergeBy way mode depth m).Parses content x []) :
    (codec.tupled.decodeBy way mode allowEmpty (depth + 1) m).Parses
      (varint content.length ++ (content ++ [])) x [] := by
  apply (codec.tupled_decodeBy way mode allowEmpty (depth + 1) m).parses.mpr
  refine parses_delimited.mpr ⟨content, hlt, rfl, ?_⟩
  simp only [hshort, Bool.false_eq_true, ↓reduceIte]
  refine parses_bind.mpr ⟨(), content, parses_limitReached.mpr ⟨by omega, rfl⟩, ?_⟩
  simp only [contentsBy, parses_note]
  exact hmerge

theorem parses_inlined (hlt : content.length < 2 ^ 64)
    (hmerge : (codec.mergeBy way mode depth m).Parses content x []) :
    (codec.inlined.decodeBy way mode allowEmpty depth m).Parses
      (varint content.length ++ (content ++ [])) x [] := by
  apply (codec.inlined_decodeBy way mode allowEmpty depth m).parses.mpr
  refine parses_delimited.mpr ⟨content, hlt, rfl, ?_⟩
  simp only [contentsBy, parses_note]
  exact hmerge

end

/-- The contents of a message value. Where it may not be empty the distinguished
decoder does not look at empty contents. -/
theorem ReadsBack.contents (h : codec.ReadsBack way mode depth m) (hwrites : codec.Writes ordered)
    (hempty : allowEmpty = true ∨ codec.rawEncode m ≠ some []) {payload : Bytes}
    (hencode : encodeDelimited (codec.rawEncodedLen m) (codec.rawEncode m) = some payload)
    (hlt : payload.length < 2 ^ 64) :
    ∃ content : Bytes, content.length < 2 ^ 64 ∧ payload = varint content.length ++ (content ++ []) ∧
      way.shortcut allowEmpty content.length = false ∧
      (codec.mergeBy way mode depth codec.empty).Parses content (m, .canonical) [] := by
  obtain ⟨content, hcontent, rfl⟩ := encodeDelimited_eq_some (hwrites.rawEncodedLen_eq ·) hencode
  have hlt : content.length < 2 ^ 64 := by
    rw [List.length_append] at hlt
    omega
  refine ⟨content, hlt, by rw [List.append_nil], ?_, h content hcontent hlt⟩
  rcases hempty with rfl | hne
  · simp [Way.shortcut]
  · have hlen : content.length ≠ 0 := by
      intro hzero
      rw [List.length_eq_zero_iff.mp hzero] at hcontent
      exact hne hcontent
    simp [Way.shortcut, hlen]

theorem ReadsBack.nested (h : codec.ReadsBack way mode depth m) (hwrites : codec.Writes ordered)
    (hempty : allowEmpty = true ∨ codec.rawEncode m ≠ some []) :
    codec.nested.ReadsBack way mode allowEmpty (depth + 1) m := by
  intro payload hencode hlt
  obtain ⟨content, hlen, rfl, hshort, hmerge⟩ := h.contents hwrites hempty hencode hlt
  exact parses_nested hlen hshort hmerge

theorem ReadsBack.tupled (h : codec.ReadsBack way mode depth m) (hwrites : codec.Writes ordered)
    (hempty : allowEmpty = true ∨ codec.rawEncode m ≠ some []) :
    codec.tupled.ReadsBack way mode allowEmpty (depth + 1) m := by
  intro payload hencode hlt
  obtain ⟨content, hlen, rfl, hshort, hmerge⟩ := h.contents hwrites hempty hencode hlt
  exact parses_tupled hlen hshort hmerge

theorem ReadsBack.inlined (h : codec.ReadsBack way mode depth m) (hwrites : codec.Writes ordered) :
    codec.inlined.ReadsBack way mode allowEmpty depth m := by
  intro payload hencode hlt
  obtain ⟨content, hlen, rfl, -, hmerge⟩ := h.contents hwrites (.inl rfl) hencode hlt
  exact parses_inlined hlen hmerge

end MessageCodec

namespace ValueCodec

variable {T C K V : Type} {way : Way} {mode : DecodingMode} {allowEmpty : Bool} {depth : Nat}
  {ordered : Prop}

/-- A key and its value are read back one after the other. -/
theorem ReadsBack.entry {key : ValueCodec K} {val : ValueCodec V} {e : K × V} (hcuts : key.Cuts)
    (hkey : key.ReadsBack way mode allowEmpty depth e.1)
    (hval : val.ReadsBack way mode allowEmpty depth e.2) :
    (key.entry val).ReadsBack way mode allowEmpty depth e := by
  intro payload hencode hlt
  obtain ⟨keyBytes, valBytes, hkeyBytes, hvalBytes, rfl⟩ := encodeValue_entry hencode
  rw [List.length_append] at hlt
  have hkeyParses := hkey keyBytes hkeyBytes (by omega)
  have hvalParses := hval valBytes hvalBytes (by omega)
  rw [entry_decodeBy]
  refine parses_bind.mpr ⟨(e.1, .canonical), valBytes, ?_, ?_⟩
  · exact (hcuts.isLocal way mode allowEmpty depth _).append hkeyParses valBytes
  · exact parses_bind.mpr ⟨(e.2, .canonical), [], hvalParses, parses_done.mpr ⟨rfl, rfl⟩⟩

theorem encodeAll_eq {encode : T → Option Bytes} {bytesOf : T → Bytes}
    (h : ∀ value, encode value = some (bytesOf value)) (values : List T) :
    encodeAll encode values = some (values.map bytesOf).flatten := by
  induction values with
  | nil => rfl
  | cons value values ih => exact encodeAll_cons_eq_some.mpr ⟨_, _, h value, ih, rfl⟩

section
variable {item : ValueCodec T} {coll : Collection C T} {items : C}

/-- The payloads of items that are read back make the collection again. -/
theorem rounds_of_readsBack {bytesOf : T → Bytes}
    (hencode : ∀ value, item.encodeValue value = some (bytesOf value))
    (hitems : ∀ value ∈ coll.iter items, item.ReadsBack way mode true depth value)
    (hlt : ∀ value ∈ coll.iter items, (bytesOf value).length < 2 ^ 64)
    (hrebuilds : coll.Rebuilds way items) :
    Rounds (item.Takes coll way mode depth) (coll.empty, .canonical)
      ((coll.iter items).map bytesOf) (items, .canonical) := by
  have hmeans : ∀ p ∈ (coll.iter items).map fun value => (bytesOf value, value, Canonicity.canonical),
      item.Means way mode depth p.1 p.2 := by
    intro p hp
    obtain ⟨value, hvalue, rfl⟩ := List.mem_map.mp hp
    exact hitems value hvalue _ (hencode value) (hlt value hvalue)
  have hpayloads : (coll.iter items).map bytesOf = List.map Prod.fst
      ((coll.iter items).map fun value => (bytesOf value, value, Canonicity.canonical)) := by
    rw [List.map_map]
    rfl
  have hmeanings : ((coll.iter items).map fun value => (value, Canonicity.canonical)) =
      List.map Prod.snd
        ((coll.iter items).map fun value => (bytesOf value, value, Canonicity.canonical)) := by
    rw [List.map_map]
    rfl
  rw [hpayloads, rounds_iff_insertAll hmeans, ← hmeanings]
  exact hrebuilds

theorem ReadsBack.packedItems {fixedSize : Option Nat} (hseparate : item.Separate)
    (hputs : item.Puts ordered)
    (hsize : ∀ size ∈ fixedSize, ∀ value bytes, item.encodeValue value = some bytes →
      bytes.length = size)
    (hitems : ∀ value ∈ coll.iter items, item.ReadsBack way mode true depth value)
    (hrebuilds : coll.Rebuilds way items) :
    (packedItems fixedSize item coll).ReadsBack way mode allowEmpty depth items := by
  choose bytesOf hencodes using hputs.encode
  intro payload hencode hlt
  have hall := encodeAll_eq hencodes (coll.iter items)
  obtain ⟨content, hcontent, rfl⟩ := encodeDelimited_eq_some
    (fun bytes hbytes => hputs.many hbytes) hencode
  obtain rfl := Option.some.inj (hall.symm.trans hcontent)
  have hcontentLt : ((coll.iter items).map bytesOf).flatten.length < 2 ^ 64 := by
    rw [List.length_append] at hlt
    omega
  have hlength (value : T) (hvalue : value ∈ coll.iter items) :
      (bytesOf value).length < 2 ^ 64 := by
    have hmem : bytesOf value ∈ (coll.iter items).map bytesOf := List.mem_map_of_mem hvalue
    exact (List.sublist_flatten_of_mem hmem).length_le.trans_lt hcontentLt
  refine hseparate.parses_packedItems.mpr ⟨_, hcontentLt, by rw [List.append_nil], ?_, ?_⟩
  · apply misfits_flatten
    intro size hsized payload hpayload
    obtain ⟨value, -, rfl⟩ := List.mem_map.mp hpayload
    exact hsize size hsized value _ (hencodes value)
  · exact rounds_of_readsBack hencodes hitems hlength hrebuilds

theorem ReadsBack.packed (hcuts : item.Cuts) (hwrites : item.Writes ordered)
    (hitems : ∀ value ∈ coll.iter items, item.ReadsBack way mode true depth value)
    (hrebuilds : coll.Rebuilds way items) :
    (item.packed coll).ReadsBack way mode allowEmpty depth items :=
  .packedItems hcuts.separate hwrites.toPuts (fun _ => hwrites.length) hitems hrebuilds

end

theorem ReadsBack.map {key : ValueCodec K} {val : ValueCodec V} {coll : Collection C (K × V)}
    {items : C} (hkeyCuts : key.Cuts) (hvalCuts : val.Cuts) (hkeyWrites : key.Writes ordered)
    (hvalWrites : val.Writes ordered)
    (hkeys : ∀ e ∈ coll.iter items, key.ReadsBack way mode true depth e.1)
    (hvals : ∀ e ∈ coll.iter items, val.ReadsBack way mode true depth e.2)
    (hrebuilds : coll.Rebuilds way items) :
    (key.map val coll).ReadsBack way mode allowEmpty depth items := by
  apply ReadsBack.packedItems (hkeyCuts.separate_entry hvalCuts) (hkeyWrites.puts_entry hvalWrites)
  · exact hkeyWrites.length_entry hvalWrites
  · exact fun e he => .entry hkeyCuts (hkeys e he) (hvals e he)
  · exact hrebuilds

end ValueCodec

end Bilrost
