import Bilrost.Schema.Writes

/-!
What is written of fields and messages. A field writes the records of its
values; a message writes those of its fields in the order of their tags.
-/

namespace Bilrost

namespace ValueCodec

variable {T C : Type} {ordered : Prop} {item : ValueCodec T} {tag : Nat}

theorem encodeFields_eq {values : List T} {payloads : List Bytes}
    (h : values.map item.encodeValue = payloads.map some) (tw : TagWriter) :
    item.encodeFields tag values tw =
      tw.encodeRecords (payloads.map (Record.mk tag item.wireType)) := by
  induction values generalizing payloads tw with
  | nil =>
      obtain rfl := List.map_eq_nil_iff.mp h.symm
      rfl
  | cons v vs ih =>
      cases payloads with
      | nil => cases h
      | cons payload payloads =>
          obtain ⟨hv, hvs⟩ := List.cons.inj h
          simp only [encodeFields, encodeField, List.map_cons, TagWriter.encodeRecords, hv]
          cases tw.encodeKey tag item.wireType with
          | none => rfl
          | some key =>
              simp only [Option.bind_eq_bind, Option.bind_some, ih hvs]

theorem encodeField_eq {value : T} {payload : Bytes} (h : item.encodeValue value = some payload)
    (tw : TagWriter) : item.encodeField tag value tw =
      tw.encodeRecords [⟨tag, item.wireType, payload⟩] := by
  simp only [encodeField, TagWriter.encodeRecords, h]
  cases tw.encodeKey tag item.wireType <;> simp

theorem Writes.prependField_eq (h : item.Writes ordered) (hordered : ordered) {value : T}
    {payload : Bytes} (hencode : item.encodeValue value = some payload) (buf : Bytes)
    (tw : TagRevWriter) : item.prependField tag value buf tw =
      tw.prependRecords buf [⟨tag, item.wireType, payload⟩] := by
  simp only [prependField, TagRevWriter.prependRecords]
  cases tw.beginField tag item.wireType buf with
  | none => rfl
  | some begun => simp [h.prepend hordered hencode]

theorem Writes.fieldEncodedLen_eq (h : item.Writes ordered) {value : T} {payload : Bytes}
    (hencode : item.encodeValue value = some payload) (tm : TagMeasurer) :
    item.fieldEncodedLen tag value tm = tm.recordsLen [⟨tag, item.wireType, payload⟩] := by
  simp only [fieldEncodedLen, TagMeasurer.recordsLen, h.encodedLen hencode]
  cases tm.keyLen tag <;> simp

theorem Writes.prependFields_eq (h : item.Writes ordered) (hordered : ordered) {values : List T}
    {payloads : List Bytes} (hmap : values.map item.encodeValue = payloads.map some) (buf : Bytes)
    (tw : TagRevWriter) : item.prependFields tag values buf tw =
      tw.prependRecords buf (payloads.map (Record.mk tag item.wireType)) := by
  induction values generalizing payloads buf tw with
  | nil =>
      obtain rfl := List.map_eq_nil_iff.mp hmap.symm
      rfl
  | cons v vs ih =>
      cases payloads with
      | nil => cases hmap
      | cons payload payloads =>
          obtain ⟨hv, hvs⟩ := List.cons.inj hmap
          simp only [prependFields, prependField, List.map_cons, TagRevWriter.prependRecords]
          cases tw.beginField tag item.wireType buf with
          | none => rfl
          | some begun =>
              simp only [Option.bind_eq_bind, Option.bind_some, h.prepend hordered hv, ih hvs]

/-- Fields under one tag have one key that is measured, and a byte for each of
the others. -/
theorem Writes.fieldsEncodedLen_eq (h : item.Writes ordered) {values : List T}
    (hne : values ≠ []) {payloads : List Bytes}
    (hmap : values.map item.encodeValue = payloads.map some) (tm : TagMeasurer) :
    item.fieldsEncodedLen tag values values.length tm =
      tm.recordsLen (payloads.map (Record.mk tag item.wireType)) := by
  have hlength : values.length = payloads.length := by
    simpa using congrArg List.length hmap
  cases payloads with
  | nil => exact absurd (List.map_eq_nil_iff.mp hmap) hne
  | cons payload payloads =>
      simp only [fieldsEncodedLen, h.many (h.encodeAll_eq hmap), hlength, List.map_cons,
        TagMeasurer.recordsLen]
      cases hkey : tm.keyLen tag with
      | none => rfl
      | some key =>
          simp only [Option.bind_eq_bind, Option.bind_some, recordsLen_repeated _ hkey,
            Option.some.injEq, Prod.mk.injEq, and_true, List.flatten_cons, List.length_append,
            List.length_cons]
          omega

/-- A field that is written as one value unless it is empty. -/
theorem Guards.written {codec : ValueCodec T} {field : FieldCodec T} (h : codec.Guards field)
    (hwrites : codec.Writes ordered) {value : T} {payload : Bytes}
    (hpayload : codec.encodeValue value = some payload) :
    field.Written ordered value codec.wireType
      (if field.emptyState.isEmpty value then [] else [payload]) := by
  cases hempty : field.emptyState.isEmpty value with
  | true =>
      refine ⟨?_, ?_, ?_, by simp, by simp [hempty]⟩
      · intro tag tw
        rw [h.encode, if_pos hempty]
        rfl
      · intro _ tag buf tw
        rw [h.prependEncode, if_pos hempty]
        rfl
      · intro tag tm
        rw [h.encodedLen, if_pos hempty]
        rfl
  | false =>
      have hne : ¬field.emptyState.isEmpty value = true := by simp [hempty]
      refine ⟨?_, ?_, ?_, ?_, by simp [hempty]⟩
      · intro tag tw
        rw [h.encode, if_neg hne]
        exact encodeField_eq hpayload tw
      · intro hordered tag buf tw
        rw [h.prependEncode, if_neg hne]
        exact hwrites.prependField_eq hordered hpayload buf tw
      · intro tag tm
        rw [h.encodedLen, if_neg hne]
        exact hwrites.fieldEncodedLen_eq hpayload tm
      · simp only [Bool.false_eq_true, ↓reduceIte, List.mem_singleton, forall_eq]
        exact hwrites.complete hpayload

theorem Guards.writes {codec : ValueCodec T} {field : FieldCodec T} (h : codec.Guards field)
    (hwrites : codec.Writes ordered) : field.Writes ordered := by
  intro value
  obtain ⟨payload, hpayload⟩ := hwrites.encode value
  exact ⟨_, _, h.written hwrites hpayload⟩

/-- An option that is not there writes nothing. -/
theorem written_none (codec : ValueCodec T) :
    codec.optional.Written ordered none codec.wireType [] :=
  ⟨fun _ _ => rfl, fun _ _ _ _ => rfl, fun _ _ => rfl, by simp, by simp [ValueCodec.optional]⟩

theorem Writes.written_some {codec : ValueCodec T} (h : codec.Writes ordered) {value : T}
    {payload : Bytes} (hpayload : codec.encodeValue value = some payload) :
    codec.optional.Written ordered (some value) codec.wireType [payload] where
  encode _ tw := encodeField_eq hpayload tw
  prependEncode hordered _ buf tw := h.prependField_eq hordered hpayload buf tw
  encodedLen _ tm := h.fieldEncodedLen_eq hpayload tm
  complete := by
    simp only [List.mem_singleton, forall_eq]
    exact h.complete hpayload
  isEmpty := by simp [ValueCodec.optional]

theorem Writes.optional {codec : ValueCodec T} (h : codec.Writes ordered) :
    codec.optional.Writes ordered := by
  intro value
  cases value with
  | none => exact ⟨_, _, codec.written_none⟩
  | some value =>
      obtain ⟨payload, hpayload⟩ := h.encode value
      exact ⟨_, _, h.written_some hpayload⟩

/-- Fields that write each of some items under their tag. -/
theorem Writes.written_items (h : item.Writes ordered) {C : Type} (field : FieldCodec C)
    (value : C) (items : List T)
    (hencode : ∀ tag tw, field.encode tag value tw = item.encodeFields tag items tw)
    (hprepend : ordered → ∀ tag buf tw,
      field.prependEncode tag value buf tw = item.prependFields tag items.reverse buf tw)
    (hlen : ∀ tag tm, field.encodedLen tag value tm =
      if items = [] then some (0, tm) else item.fieldsEncodedLen tag items items.length tm)
    (hempty : field.emptyState.isEmpty value = true ↔ items = []) :
    ∃ payloads, items.map item.encodeValue = payloads.map some ∧
      field.Written ordered value item.wireType payloads := by
  obtain ⟨payloads, hmap, -⟩ := h.exists_encodeAll items
  have hnil : items = [] ↔ payloads = [] := by
    rw [← List.map_eq_nil_iff (f := item.encodeValue), hmap, List.map_eq_nil_iff]
  refine ⟨payloads, hmap, ?_, ?_, ?_, ?_, hempty.trans hnil⟩
  · exact fun tag tw => (hencode tag tw).trans (encodeFields_eq hmap tw)
  · intro hordered tag buf tw
    have hreverse : items.reverse.map item.encodeValue = payloads.reverse.map some := by
      rw [List.map_reverse, hmap, List.map_reverse]
    rw [hprepend hordered, h.prependFields_eq hordered hreverse, List.map_reverse]
  · intro tag tm
    rw [hlen]
    split_ifs with hitems
    · obtain rfl := hnil.mp hitems
      rfl
    · exact h.fieldsEncodedLen_eq hitems hmap tm
  · intro payload hpayload
    have hmem : some payload ∈ items.map item.encodeValue := hmap ▸ List.mem_map_of_mem hpayload
    obtain ⟨v, -, hv⟩ := List.mem_map.mp hmem
    exact h.complete hv

theorem Writes.written_unpackedField (h : item.Writes ordered) {allowed : Features}
    {coll : Collection C T} (hcoll : coll.Standard allowed)
    (hreversed : ordered → ∀ items, coll.reversed items = (coll.iter items).reverse) (value : C) :
    ∃ payloads, (coll.iter value).map item.encodeValue = payloads.map some ∧
      (item.unpackedField coll).Written ordered value item.wireType payloads := by
  have hnil : coll.isEmpty value = true ↔ coll.iter value = [] := by
    rw [hcoll.isEmpty_iter, List.isEmpty_iff]
  have hlen (tag : Nat) (tm : TagMeasurer) : (item.unpackedField coll).encodedLen tag value tm =
      if coll.iter value = [] then some (0, tm)
      else item.fieldsEncodedLen tag (coll.iter value) (coll.iter value).length tm := by
    simp only [ValueCodec.unpackedField, hcoll.len_iter]
    by_cases hitems : coll.iter value = []
    · simp [hitems]
    · rw [if_pos (List.length_pos_iff.mpr hitems), if_neg hitems]
  have hprepend (hordered : ordered) (tag : Nat) (buf : Bytes) (tw : TagRevWriter) :
      (item.unpackedField coll).prependEncode tag value buf tw =
        item.prependFields tag (coll.iter value).reverse buf tw := by
    simp only [ValueCodec.unpackedField, hreversed hordered]
  exact h.written_items (item.unpackedField coll) value (coll.iter value) (fun _ _ => rfl)
    hprepend hlen hnil

theorem Writes.unpackedField (h : item.Writes ordered) {allowed : Features}
    {coll : Collection C T} (hcoll : coll.Standard allowed)
    (hreversed : ordered → ∀ items, coll.reversed items = (coll.iter items).reverse) :
    (item.unpackedField coll).Writes ordered := by
  intro value
  obtain ⟨payloads, -, hwritten⟩ := h.written_unpackedField hcoll hreversed value
  exact ⟨_, payloads, hwritten⟩

section
variable {state : EmptyState T} {n : Nat} {value : List.Vector T n}

/-- An array whose items are all empty writes nothing. -/
theorem written_unpackedArrayField_empty (item : ValueCodec T)
    (hempty : (state.array n).isEmpty value = true) :
    (item.unpackedArrayField state n).Written ordered value item.wireType [] where
  encode _ _ := if_pos hempty
  prependEncode _ _ _ _ := if_pos hempty
  encodedLen _ _ := if_pos hempty
  complete := by simp
  isEmpty := iff_of_true hempty rfl

theorem Writes.written_unpackedArrayField (h : item.Writes ordered)
    (hempty : (state.array n).isEmpty value = false) :
    ∃ payloads, value.toList.map item.encodeValue = payloads.map some ∧
      (item.unpackedArrayField state n).Written ordered value item.wireType payloads := by
  have hstate : (item.unpackedArrayField state n).emptyState = state.array n := rfl
  have hne : ¬(state.array n).isEmpty value = true := by simp [hempty]
  have hitems : value.toList ≠ [] := by
    intro hnil
    apply hne
    simp only [EmptyState.array, hnil, List.all_nil]
  have hlen (tag : Nat) (tm : TagMeasurer) :
      (item.unpackedArrayField state n).encodedLen tag value tm =
        if value.toList = [] then some (0, tm)
        else item.fieldsEncodedLen tag value.toList value.toList.length tm := by
    simp only [ValueCodec.unpackedArrayField, if_neg hne, List.isEmpty_iff]
  exact h.written_items (item.unpackedArrayField state n) value value.toList
    (fun tag tw => if_neg hne) (fun _ tag buf tw => if_neg hne) hlen
    (by simp [hstate, hempty, hitems])

theorem Writes.unpackedArrayField (h : item.Writes ordered) :
    (item.unpackedArrayField state n).Writes ordered := by
  intro value
  cases hempty : (state.array n).isEmpty value with
  | true => exact ⟨_, _, written_unpackedArrayField_empty item hempty⟩
  | false =>
      obtain ⟨payloads, -, hwritten⟩ := h.written_unpackedArrayField hempty
      exact ⟨_, payloads, hwritten⟩

theorem written_unpackedArrayOptionField_none (item : ValueCodec T) (n : Nat) :
    (item.unpackedArrayOptionField n).Written ordered none item.wireType [] :=
  ⟨fun _ _ => rfl, fun _ _ _ _ => rfl, fun _ _ => rfl, by simp,
    by simp [ValueCodec.unpackedArrayOptionField]⟩

theorem Writes.written_unpackedArrayOptionField (h : item.Writes ordered) (hn : 0 < n)
    (value : List.Vector T n) : ∃ payloads, value.toList.map item.encodeValue = payloads.map some ∧
      (item.unpackedArrayOptionField n).Written ordered (some value) item.wireType payloads := by
  have hitems : value.toList ≠ [] := List.ne_nil_of_length_pos (value.toList_length.symm ▸ hn)
  have hlen (tag : Nat) (tm : TagMeasurer) :
      (item.unpackedArrayOptionField n).encodedLen tag (some value) tm =
        if value.toList = [] then some (0, tm)
        else item.fieldsEncodedLen tag value.toList value.toList.length tm := by
    simp only [ValueCodec.unpackedArrayOptionField, if_neg hitems, value.toList_length]
  have hempty :
      (item.unpackedArrayOptionField n).emptyState.isEmpty (some value) = true ↔
        value.toList = [] := by
    simp [ValueCodec.unpackedArrayOptionField, hitems]
  exact h.written_items (item.unpackedArrayOptionField n) (some value) value.toList
    (fun _ _ => rfl) (fun _ _ _ _ => rfl) hlen hempty

theorem Writes.unpackedArrayOptionField (h : item.Writes ordered) (hn : 0 < n) :
    (item.unpackedArrayOptionField n).Writes ordered := by
  intro value
  cases value with
  | none => exact ⟨_, _, written_unpackedArrayOptionField_none item n⟩
  | some value =>
      obtain ⟨payloads, -, hwritten⟩ := h.written_unpackedArrayOptionField hn value
      exact ⟨_, payloads, hwritten⟩

end

end ValueCodec

theorem FieldCodec.Written.tagged {T : Type} {ordered : Prop} {codec : FieldCodec T} {value : T}
    {wireType : WireType} {payloads : List Bytes}
    (h : codec.Written ordered value wireType payloads) (tag : Nat) :
    (codec.tagged tag).Written ordered value (payloads.map (Record.mk tag wireType)) where
  encode := h.encode tag
  prependEncode hordered := h.prependEncode hordered tag
  encodedLen := h.encodedLen tag
  currentTag r hr := by
    obtain ⟨payload, hpayload, rfl⟩ := List.mem_map.mp hr
    have hne : ¬codec.emptyState.isEmpty value = true := by
      rw [h.isEmpty]
      exact List.ne_nil_of_mem hpayload
    exact if_neg hne
  complete r hr := by
    obtain ⟨payload, hpayload, rfl⟩ := List.mem_map.mp hr
    exact h.complete payload hpayload
  isEmpty := by
    rw [List.map_eq_nil_iff]
    exact h.isEmpty

theorem FieldCodec.Writes.tagged {T : Type} {ordered : Prop} {codec : FieldCodec T}
    (h : codec.Writes ordered) (tag : Nat) : (codec.tagged tag).Writes ordered where
  written value := by
    obtain ⟨wireType, payloads, hwritten⟩ := h value
    exact ⟨_, hwritten.tagged tag⟩
  valid {value tag'} hcurrent := by
    simp only [FieldCodec.tagged] at hcurrent ⊢
    split_ifs at hcurrent
    exact List.mem_singleton.mpr (Option.some.inj hcurrent).symm

section
variable {T : Type} {ordered : Prop} {oneof : Oneof T} {value : T}

theorem Oneof.written_none (hview : oneof.view value = none) :
    oneof.field.Written ordered value [] where
  encode tw := by simp [field, hview, TagWriter.encodeRecords]
  prependEncode _ buf tw := by simp [field, hview, TagRevWriter.prependRecords]
  encodedLen tm := by simp [field, hview, TagMeasurer.recordsLen]
  currentTag := by simp
  complete := by simp
  isEmpty := by simp [field, hview]

theorem Oneof.written_some (h : ∀ i, (oneof.codec i).Writes ordered)
    {v : (i : Fin oneof.count) × oneof.Ty i} (hview : oneof.view value = some v) {payload : Bytes}
    (hpayload : (oneof.codec v.1).encodeValue v.2 = some payload) : oneof.field.Written ordered value
      [⟨oneof.tag v.1, (oneof.codec v.1).wireType, payload⟩] where
  encode tw := by
    simp only [field, hview]
    exact ValueCodec.encodeField_eq hpayload tw
  prependEncode hordered buf tw := by
    simp only [field, hview]
    exact (h v.1).prependField_eq hordered hpayload buf tw
  encodedLen tm := by
    simp only [field, hview]
    exact (h v.1).fieldEncodedLen_eq hpayload tm
  currentTag := by simp [field, Oneof.currentTag, hview]
  complete := by
    simp only [List.mem_singleton, forall_eq]
    exact (h v.1).complete hpayload
  isEmpty := by simp [field, hview]

theorem Oneof.writes (h : ∀ i, (oneof.codec i).Writes ordered) : oneof.field.Writes ordered where
  written value := by
    cases hview : oneof.view value with
    | none => exact ⟨[], written_none hview⟩
    | some v =>
        obtain ⟨payload, hpayload⟩ := (h v.1).encode v.2
        exact ⟨_, written_some h hview hpayload⟩
  valid {value tag} hcurrent := by
    obtain ⟨v, -, rfl⟩ := Option.map_eq_some_iff.mp hcurrent
    exact List.mem_map.mpr ⟨v.1, List.mem_finRange _, rfl⟩

end

namespace Fields

open MessageFieldsSorted

variable {M : Type} {F : Fields M} {w : F.Writing} {ordered : Prop} {m : M}
  {emit : F.Index → List Record}

theorem encodeIn_eq (h : ∀ i, (F.field i).Written ordered (F.get m i) (emit i))
    (order : List F.Index) (tw : TagWriter) :
    F.encodeIn m order tw = tw.encodeRecords (order.flatMap emit) := by
  induction order generalizing tw with
  | nil => rfl
  | cons i order ih =>
      rw [encodeIn, List.flatMap_cons, encodeRecords_append, (h i).encode]
      cases tw.encodeRecords (emit i) with
      | none => rfl
      | some first =>
          simp only [Option.bind_eq_bind, Option.bind_some, ih]
          cases first.2.encodeRecords (order.flatMap emit) <;> rfl

theorem prependIn_eq (h : ∀ i, (F.field i).Written ordered (F.get m i) (emit i))
    (hordered : ordered) (order : List F.Index) (buf : Bytes) (tw : TagRevWriter) :
    F.prependIn m order buf tw =
      tw.prependRecords buf (order.flatMap fun i => (emit i).reverse) := by
  induction order generalizing buf tw with
  | nil => rfl
  | cons i order ih =>
      rw [prependIn, List.flatMap_cons, prependRecords_append, (h i).prependEncode hordered]
      cases tw.prependRecords buf (emit i).reverse with
      | none => rfl
      | some first => exact ih first.1 first.2

theorem encodedLenIn_eq (h : ∀ i, (F.field i).Written ordered (F.get m i) (emit i))
    (order : List F.Index) (tm : TagMeasurer) :
    F.encodedLenIn m order tm = tm.recordsLen (order.flatMap emit) := by
  induction order generalizing tm with
  | nil => rfl
  | cons i order ih =>
      rw [encodedLenIn, List.flatMap_cons, recordsLen_append, (h i).encodedLen]
      cases tm.recordsLen (emit i) with
      | none => rfl
      | some first =>
          simp only [Option.bind_eq_bind, Option.bind_some, ih]
          cases first.2.recordsLen (order.flatMap emit) <;> rfl

/-- Fields are visited in the order of the tags that they are written with, and
backwards in the opposite order. -/
theorem Writing.Standard.emits (hw : w.Standard) (h : F.Sound)
    (hvalid : ∀ i, ∀ tag ∈ F.currentTag m i, tag ∈ (F.field i).tags) :
    (w.forward m).Pairwise (EmitsBefore (F.currentTag m)) ∧
      w.backward m = (w.forward m).reverse := by
  cases hw with
  | derived =>
      obtain ⟨chunks, hnew, hok, -⟩ := new_chunksOk (fun i _ => h.tagged i) h.disjoint
      have hchunks : F.chunks = chunks := by
        rw [Fields.chunks, hnew]
        rfl
      have hv : ValidTags (F.currentTag m) (chunkFields F.chunks) := fun i _ => hvalid i
      rw [hchunks] at hv
      refine ⟨?_, ?_⟩
      · simp only [Fields.derived, hchunks]
        exact hok.emits hv
      · simp only [Fields.derived, hchunks]
        exact hok.prependOrder_eq hv
  | listed measurer ascending measures =>
      refine ⟨?_, rfl⟩
      refine ascending.imp fun hlt s hs t ht => ?_
      exact hlt s (hvalid _ s hs) t (hvalid _ t ht)

/-- Keys are measured as they are written. -/
theorem Writing.Standard.measures (hw : w.Standard) {records : List Record}
    (hasc : Ascending 0 records) (htags : ∀ r ∈ records, ∃ i, r.tag ∈ (F.field i).tags) :
    ∃ tm, w.measurer.recordsLen records = some ((wireRecords 0 records).length, tm) := by
  have hruntime : ∃ tm, TagMeasurer.recordsLen (.runtime 0) records =
      some ((wireRecords 0 records).length, tm) := ⟨_, recordsLen_of_ascending hasc⟩
  cases hw with
  | derived => exact hruntime
  | listed measurer ascending measures =>
      rcases measures with rfl | ⟨rfl, hlt⟩
      · exact hruntime
      · refine ⟨_, recordsLen_trivial hasc fun r hr => ?_⟩
        obtain ⟨i, hi⟩ := htags r hr
        exact hlt i r.tag hi

/-- A message is written as the records of its fields. -/
theorem written (h : F.Sound) (hw : w.Standard) (hfields : ∀ i, (F.field i).Writes ordered)
    (hemit : ∀ i, (F.field i).Written ordered (F.get m i) (emit i)) :
    (F.message w).Written ordered m ((w.forward m).flatMap emit) := by
  have hcurrent : ∀ i, ∀ r ∈ emit i, F.currentTag m i = some r.tag :=
    fun i r hr => (hemit i).currentTag r hr
  have hvalid : ∀ i, ∀ tag ∈ F.currentTag m i, tag ∈ (F.field i).tags :=
    fun i tag htag => (hfields i).valid htag
  obtain ⟨hemits, hbackward⟩ := hw.emits h hvalid
  have hasc := ascending_of_pairwise (fun r _ => Nat.zero_le r.tag)
    (pairwise_flatMap_records hcurrent hemits)
  have htags : ∀ r ∈ (w.forward m).flatMap emit, ∃ i, r.tag ∈ (F.field i).tags := by
    intro r hr
    obtain ⟨i, -, hi⟩ := List.mem_flatMap.mp hr
    exact ⟨i, hvalid i r.tag (hcurrent i r hi)⟩
  obtain ⟨tm, hmeasured⟩ := hw.measures hasc htags
  constructor
  · obtain ⟨⟨tw, hencode⟩, -⟩ := writers_of_emits hcurrent hemits []
    simp only [message, encodeIn_eq hemit, hencode]
    rfl
  · intro hordered buf
    obtain ⟨-, -, buf', tw, hprepend, hfinal⟩ := writers_of_emits hcurrent hemits buf
    simp only [message, hbackward, prependIn_eq hemit hordered, hprepend]
    exact congrArg some hfinal
  · simp only [message, encodedLenIn_eq hemit, hmeasured]
    rfl
  · exact hasc
  · intro r hr
    obtain ⟨i, hi⟩ := htags r hr
    exact h.lt i r.tag hi
  · intro r hr
    obtain ⟨i, -, hi⟩ := List.mem_flatMap.mp hr
    exact (hemit i).complete r hi

theorem writes (h : F.Sound) (hw : w.Standard) (hfields : ∀ i, (F.field i).Writes ordered) :
    (F.message w).Writes ordered := by
  intro m
  choose emit hemit using fun i => (hfields i).written (F.get m i)
  exact ⟨_, written h hw hfields hemit⟩

end Fields

theorem MessageCodec.writes_of_sameTo {M : Type} {ordered : Prop} {codec : MessageCodec M}
    {approx : Nat → MessageCodec M} (hsame : ∀ depth, codec.SameTo depth (approx depth))
    (hwithin : ∀ m, ∃ depth, codec.nestsWithin depth m)
    (h : ∀ depth, (approx depth).Writes ordered) : codec.Writes ordered := by
  intro m
  obtain ⟨depth, hdepth⟩ := hwithin m
  obtain ⟨records, hwritten⟩ := h depth m
  refine ⟨records, ?_, ?_, ?_, hwritten.ascending, hwritten.tag_lt, hwritten.complete⟩
  · rw [(hsame depth).rawEncode hdepth]
    exact hwritten.encode
  · intro hordered buf
    rw [(hsame depth).rawPrepend hdepth]
    exact hwritten.prepend hordered buf
  · rw [(hsame depth).rawEncodedLen hdepth]
    exact hwritten.encodedLen

theorem MessageCodec.writes_of_unrolls {M : Type} {ordered : Prop} {codec : MessageCodec M}
    {approx : Nat → MessageCodec M} {within : Nat → M → Prop}
    (hunrolls : codec.Unrolls approx within) (h : ∀ n, (approx n).Writes ordered) :
    codec.Writes ordered := by
  intro m
  obtain ⟨n, hn⟩ := hunrolls.reached m
  obtain ⟨records, hwritten⟩ := h n m
  refine ⟨records, ?_, ?_, ?_, hwritten.ascending, hwritten.tag_lt, hwritten.complete⟩
  · rw [hunrolls.rawEncode hn]
    exact hwritten.encode
  · intro hordered buf
    rw [hunrolls.rawPrepend hn]
    exact hwritten.prepend hordered buf
  · rw [hunrolls.rawEncodedLen hn]
    exact hwritten.encodedLen

/-- All collections but the hashed ones are reversed exactly. -/
theorem Collection.Standard.reversed_iter {allowed : Features} {C T : Type}
    {coll : Collection C T} (h : coll.Standard allowed) (hordered : ¬allowed.hashed) (items : C) :
    coll.reversed items = (coll.iter items).reverse := by
  cases h with
  | vec => rfl
  | arrayVec => rfl
  | btreeMap => rfl
  | btreeSet => exact List.map_reverse
  | hashMap K V place hhashed => exact absurd hhashed hordered
  | hashSet T place hhashed => exact absurd hhashed hordered

def Part.Writes (ordered : Prop) : Part → Prop
  | .value codec => codec.Writes ordered
  | .field codec => codec.Writes ordered
  | .messageField fld => fld.Writes ordered
  | .message codec => codec.Writes ordered

/-- Without arrays of length zero all encoders agree on what they write, and the
backward ones as well unless there are collections without an order. -/
theorem Built.writes {allowed : Features} (hallowed : ¬allowed.emptyArrays) {part : Part}
    (h : Built allowed part) : part.Writes (¬allowed.hashed) := by
  induction h with
  | scalar h => exact h.writes _
  | packed hcoll _ hitem => exact ValueCodec.writes_packedItems hitem.toPuts hcoll.reversed_iter
  | localProxy n empty _ _ hitem =>
      exact ValueCodec.writes_packedItems hitem.toPuts fun _ _ => rfl
  | map hcoll _ _ hkey hval =>
      exact ValueCodec.writes_packedItems (hkey.puts_entry hval) hcoll.reversed_iter
  | packedArray _ _ hitem => exact hitem.packedArray _
  | proxied _ _ _ _ _ hcodec => exact hcodec.proxied _ _ _
  | nested _ hcodec => exact ValueCodec.writes_nested hcodec
  | tupled _ hcodec => exact hcodec.tupled
  | inlined _ hcodec => exact hcodec.inlined
  | plain _ _ _ hcodec => exact (ValueCodec.guards_plain _ _).writes hcodec
  | optional _ hcodec => exact hcodec.optional
  | unpackedField hcoll _ hitem => exact hitem.unpackedField hcoll hcoll.reversed_iter
  | @packedField _ _ item coll hcoll _ hitem =>
      have hpacked : (item.packed coll).Writes (¬allowed.hashed) :=
        ValueCodec.writes_packedItems hitem.toPuts hcoll.reversed_iter
      exact (ValueCodec.guards_packedField item coll).writes hpacked
  | unpackedArrayField _ _ _ _ hitem => exact hitem.unpackedArrayField
  | packedArrayField _ _ _ _ hitem =>
      exact (ValueCodec.guards_packedArrayField _ _ _).writes (hitem.packedArray _)
  | unpackedArrayOptionField hn _ hitem =>
      exact hitem.unpackedArrayOptionField (hn.resolve_right hallowed)
  | tagged tag _ hcodec => exact hcodec.tagged tag
  | oneof _ hvariants => exact Oneof.writes hvariants
  | fields hsound hw _ _ hfields => exact Fields.writes hsound hw hfields
  | recursive approx hsame hwithin _ happrox =>
      exact MessageCodec.writes_of_sameTo hsame hwithin happrox
  | unrolled approx _ hunrolls _ happrox => exact MessageCodec.writes_of_unrolls hunrolls happrox

end Bilrost
