import Bilrost.Schema.Recursive

/-!
Encodings that do the same as others. `ReadsAs` says so of decoders at one
depth, `WritesAs` of encoders on some values. What is put together from alike
parts is alike, and a message in a value asks of its contents what they do one
level deeper.
-/

namespace Bilrost

open Program

/-- The decoders of two encodings do the same at one depth. -/
structure ValueCodec.ReadsAs {T : Type} (mode : DecodingMode) (depth : Nat)
    (codec codec' : ValueCodec T) : Prop where
  forOverwrite : codec.forOverwrite = codec'.forOverwrite
  wireType : codec.wireType = codec'.wireType
  checksEmpty : codec.checksEmpty = codec'.checksEmpty
  decodeValue : codec.decodeValue mode depth = codec'.decodeValue mode depth
  decodeValueDistinguished (allowEmpty : Bool) :
    codec.decodeValueDistinguished mode allowEmpty depth =
      codec'.decodeValueDistinguished mode allowEmpty depth

structure FieldCodec.ReadsAs {T : Type} (mode : DecodingMode) (depth : Nat)
    (codec codec' : FieldCodec T) : Prop where
  decode : codec.decode mode depth = codec'.decode mode depth
  decodeDistinguished : codec.decodeDistinguished mode depth = codec'.decodeDistinguished mode depth

structure MessageField.ReadsAs {T : Type} (mode : DecodingMode) (depth : Nat)
    (field field' : MessageField T) : Prop where
  tags : field.tags = field'.tags
  decode : field.decode mode depth = field'.decode mode depth
  decodeDistinguished :
    field.decodeDistinguished mode depth = field'.decodeDistinguished mode depth

structure MessageCodec.ReadsAs {M : Type} (mode : DecodingMode) (depth : Nat)
    (codec codec' : MessageCodec M) : Prop where
  rawDecodeField : codec.rawDecodeField mode depth = codec'.rawDecodeField mode depth
  rawDecodeFieldDistinguished :
    codec.rawDecodeFieldDistinguished mode depth = codec'.rawDecodeFieldDistinguished mode depth

section
variable {T C K V M : Type} {mode : DecodingMode} {depth : Nat}

theorem ValueCodec.ReadsAs.refl (codec : ValueCodec T) : codec.ReadsAs mode depth codec :=
  ⟨rfl, rfl, rfl, rfl, fun _ => rfl⟩

theorem MessageCodec.ReadsAs.fieldBy {codec codec' : MessageCodec M}
    (h : codec.ReadsAs mode depth codec') (way : Way) :
    codec.fieldBy way mode depth = codec'.fieldBy way mode depth := by
  funext tag wireType dup m
  simp only [MessageCodec.fieldBy, h.rawDecodeField, h.rawDecodeFieldDistinguished]

theorem MessageCodec.ReadsAs.mergeBy {codec codec' : MessageCodec M}
    (h : codec.ReadsAs mode depth codec') (way : Way) :
    codec.mergeBy way mode depth = codec'.mergeBy way mode depth := by
  have hstep : codec.stepBy way mode depth = codec'.stepBy way mode depth := by
    funext tag wireType dup state
    rw [stepBy, stepBy, h.fieldBy way]
  funext m
  rw [MessageCodec.mergeBy, MessageCodec.mergeBy, hstep]

/-- With no depth left, nothing is asked of the message that is contained. -/
theorem MessageCodec.readsAs_nested {codec codec' : MessageCodec M}
    (hempty : codec.empty = codec'.empty)
    (h : 0 < depth → codec.ReadsAs mode (depth - 1) codec') :
    codec.nested.ReadsAs mode depth codec'.nested := by
  constructor
  · exact hempty
  · rfl
  · rfl
  · rcases Nat.eq_zero_or_pos depth with rfl | hdepth
    · rfl
    · funext value
      simp only [nested, merge_eq, (h hdepth).rawDecodeField]
  · intro allowEmpty
    rcases Nat.eq_zero_or_pos depth with rfl | hdepth
    · rfl
    · funext value
      simp only [nested, mergeDistinguished_eq_mergeBy, (h hdepth).mergeBy]

theorem ValueCodec.ReadsAs.packedItems {item item' : ValueCodec T}
    (h : item.ReadsAs mode depth item') (fixedSize : Option Nat) (coll : Collection C T) :
    (packedItems fixedSize item coll).ReadsAs mode depth
      (ValueCodec.packedItems fixedSize item' coll) := by
  constructor
  · rfl
  · rfl
  · rfl
  · have hitem : item.decodeItem coll mode depth = item'.decodeItem coll mode depth := by
      funext items
      rw [decodeItem, decodeItem, h.decodeValue, h.forOverwrite]
    simp only [ValueCodec.packedItems, hitem]
  · intro allowEmpty
    have hitem : item.decodeItemDistinguished coll mode depth =
        item'.decodeItemDistinguished coll mode depth := by
      funext items
      rw [decodeItemDistinguished, decodeItemDistinguished, h.decodeValueDistinguished,
        h.forOverwrite]
    simp only [ValueCodec.packedItems, hitem]

theorem ValueCodec.ReadsAs.packed {item item' : ValueCodec T} (h : item.ReadsAs mode depth item')
    (coll : Collection C T) : (item.packed coll).ReadsAs mode depth (item'.packed coll) := by
  have hpacked := h.packedItems item.wireType.fixedSize coll
  rw [ValueCodec.packed, ValueCodec.packed, ← h.wireType]
  exact hpacked

theorem ValueCodec.ReadsAs.entry {val val' : ValueCodec V} (h : val.ReadsAs mode depth val')
    (key : ValueCodec K) : (key.entry val).ReadsAs mode depth (key.entry val') := by
  constructor
  · exact congrArg (Prod.mk key.forOverwrite) h.forOverwrite
  · rfl
  · rfl
  · simp only [ValueCodec.entry, h.decodeValue]
  · intro allowEmpty
    simp only [ValueCodec.entry, h.decodeValueDistinguished]

theorem ValueCodec.ReadsAs.map {val val' : ValueCodec V} (h : val.ReadsAs mode depth val')
    (key : ValueCodec K) (coll : Collection C (K × V)) :
    (key.map val coll).ReadsAs mode depth (key.map val' coll) := by
  have hpacked := (h.entry key).packedItems (combinedFixedSize key.wireType val.wireType) coll
  rw [ValueCodec.map, ValueCodec.map, ← h.wireType]
  exact hpacked

theorem ValueCodec.ReadsAs.decodeField {codec codec' : ValueCodec T}
    (h : codec.ReadsAs mode depth codec') :
    codec.decodeField mode depth = codec'.decodeField mode depth := by
  funext wireType value
  rw [ValueCodec.decodeField, ValueCodec.decodeField, h.wireType, h.decodeValue]

theorem ValueCodec.ReadsAs.decodeFieldDistinguished {codec codec' : ValueCodec T}
    (h : codec.ReadsAs mode depth codec') (allowEmpty : Bool) :
    codec.decodeFieldDistinguished mode allowEmpty depth =
      codec'.decodeFieldDistinguished mode allowEmpty depth := by
  funext wireType value
  rw [ValueCodec.decodeFieldDistinguished, ValueCodec.decodeFieldDistinguished, h.wireType,
    h.decodeValueDistinguished]

theorem ValueCodec.ReadsAs.plain {codec codec' : ValueCodec T} (h : codec.ReadsAs mode depth codec')
    (state : EmptyState T) : (codec.plain state).ReadsAs mode depth (codec'.plain state) := by
  constructor
  · exact h.decodeField
  · simp only [ValueCodec.plain, h.decodeFieldDistinguished, h.checksEmpty]

theorem ValueCodec.ReadsAs.packedField {item item' : ValueCodec T}
    (h : item.ReadsAs mode depth item') (coll : Collection C T) :
    (item.packedField coll).ReadsAs mode depth (item'.packedField coll) := by
  have hunpacked : item.decodeUnpacked coll mode depth = item'.decodeUnpacked coll mode depth := by
    have hrepeated : item.decodeRepeated coll mode depth = item'.decodeRepeated coll mode depth := by
      funext wireType items
      simp only [decodeRepeated, decodeItem, h.wireType, h.decodeValue, h.forOverwrite]
    funext wireType items
    rw [decodeUnpacked, decodeUnpacked, hrepeated]
  have hpacked := h.packed coll
  constructor
  · simp only [ValueCodec.packedField, hpacked.decodeValue, hunpacked]
  · simp only [ValueCodec.packedField, hpacked.decodeValueDistinguished, hpacked.checksEmpty,
      hunpacked]

theorem FieldCodec.ReadsAs.tagged {codec codec' : FieldCodec T}
    (h : codec.ReadsAs mode depth codec') (tag : Nat) :
    (codec.tagged tag).ReadsAs mode depth (codec'.tagged tag) := by
  constructor
  · rfl
  · simp only [FieldCodec.tagged, h.decode]
  · simp only [FieldCodec.tagged, h.decodeDistinguished]

/-- Oneofs that differ in how their variants are encoded. -/
theorem Oneof.readsAs {count : Nat} {Ty : Fin count → Type} {tag : Fin count → Nat}
    {codec codec' : (i : Fin count) → ValueCodec (Ty i)} {view : T ≃ Option ((i : Fin count) × Ty i)}
    (h : ∀ i, (codec i).ReadsAs mode depth (codec' i)) :
    (Oneof.mk count Ty tag codec view).field.ReadsAs mode depth
      (Oneof.mk count Ty tag codec' view).field := by
  have hcurrent (value : T) : (Oneof.mk count Ty tag codec view).currentTag value =
      (Oneof.mk count Ty tag codec' view).currentTag value := rfl
  have hvariant (n : Nat) : (Oneof.mk count Ty tag codec view).variant n =
      (Oneof.mk count Ty tag codec' view).variant n := rfl
  constructor
  · rfl
  · funext n wireType dup value
    simp only [Oneof.field, Oneof.decodeField, hcurrent, hvariant]
    cases (Oneof.mk count Ty tag codec' view).currentTag value with
    | some current => rfl
    | none =>
        cases (Oneof.mk count Ty tag codec' view).variant n with
        | none => rfl
        | some i =>
            simp only [(h i).decodeField, (h i).forOverwrite]
            rfl
  · funext n wireType dup value
    simp only [Oneof.field, Oneof.decodeFieldDistinguished, hcurrent, hvariant]
    cases (Oneof.mk count Ty tag codec' view).currentTag value with
    | some current => rfl
    | none =>
        cases (Oneof.mk count Ty tag codec' view).variant n with
        | none => rfl
        | some i =>
            simp only [(h i).decodeFieldDistinguished, (h i).forOverwrite]
            rfl

section
variable (field : MessageField T) (w : (Fields.single field).Writing) (tag : Nat)
  (wireType : WireType) (dup : Bool) (value : T)

theorem Fields.fieldOf_single :
    (Fields.single field).fieldOf tag = if tag ∈ field.tags then some (0 : Fin 1) else none := by
  change [(0 : Fin 1)].find? (fun _ => decide (tag ∈ field.tags)) = _
  split_ifs with htag
  · simp [htag]
  · simp [htag]

theorem Fields.isEmpty_single :
    ((Fields.single field).message w).isEmpty value = field.isEmpty value := Bool.and_true _

theorem Fields.clear_single : ((Fields.single field).message w).clear = field.clear := rfl

theorem Fields.same_single {value' : T} :
    ((Fields.single field).message w).same false value value' ↔ field.same false value value' :=
  ⟨fun h => h (0 : Fin 1), fun h _ => h⟩

theorem Fields.nestsWithin_single :
    ((Fields.single field).message w).nestsWithin depth value ↔ field.nestsWithin depth value :=
  ⟨fun h => h (0 : Fin 1), fun h _ => h⟩

/-- A message that is nothing but its only field decodes it or skips. -/
theorem Fields.rawDecodeField_single :
    ((Fields.single field).message w).rawDecodeField mode depth tag wireType dup value =
      if tag ∈ field.tags then field.decode mode depth tag wireType dup value
      else (skipField wireType).bind fun _ => .done value := by
  simp only [message, fieldOf_single]
  split_ifs
  · exact bind_done _
  · rfl

theorem Fields.rawDecodeFieldDistinguished_single :
    ((Fields.single field).message w).rawDecodeFieldDistinguished mode depth tag wireType dup value =
      if tag ∈ field.tags then field.decodeDistinguished mode depth tag wireType dup value
      else (checked .hasExtensions).bind fun canon =>
        (skipField wireType).bind fun _ => .done (value, canon) := by
  simp only [message, fieldOf_single]
  split_ifs
  · exact bind_done _
  · rfl

end

theorem Fields.readsAs_single {field field' : MessageField T} (h : field.ReadsAs mode depth field')
    (w : (single field).Writing) (w' : (single field').Writing) :
    ((single field).message w).ReadsAs mode depth ((single field').message w') := by
  constructor
  · funext tag wireType dup value
    simp only [rawDecodeField_single, h.tags, h.decode]
  · funext tag wireType dup value
    simp only [rawDecodeFieldDistinguished_single, h.tags, h.decodeDistinguished]

end

/-- The encoders of two encodings do the same with some values. -/
structure ValueCodec.WritesAs {T : Type} (P : T → Prop) (codec codec' : ValueCodec T) : Prop where
  wireType : codec.wireType = codec'.wireType
  encodeValue {value : T} : P value → codec.encodeValue value = codec'.encodeValue value
  prependValue {value : T} : P value → codec.prependValue value = codec'.prependValue value
  valueEncodedLen {value : T} :
    P value → codec.valueEncodedLen value = codec'.valueEncodedLen value
  manyValuesEncodedLen {values : List T} : (∀ value ∈ values, P value) →
    codec.manyValuesEncodedLen values = codec'.manyValuesEncodedLen values

structure MessageField.WritesAs {T : Type} (P : T → Prop) (field field' : MessageField T) :
    Prop where
  encode {value : T} : P value → field.encode value = field'.encode value
  prependEncode {value : T} : P value → field.prependEncode value = field'.prependEncode value
  encodedLen {value : T} : P value → field.encodedLen value = field'.encodedLen value

structure MessageCodec.WritesAs {M : Type} (P : M → Prop) (codec codec' : MessageCodec M) :
    Prop where
  rawEncode {m : M} : P m → codec.rawEncode m = codec'.rawEncode m
  rawPrepend {m : M} : P m → codec.rawPrepend m = codec'.rawPrepend m
  rawEncodedLen {m : M} : P m → codec.rawEncodedLen m = codec'.rawEncodedLen m

section
variable {T C K V M : Type}

theorem ValueCodec.WritesAs.refl (P : T → Prop) (codec : ValueCodec T) : codec.WritesAs P codec :=
  ⟨rfl, fun _ => rfl, fun _ => rfl, fun _ => rfl, fun _ => rfl⟩

theorem MessageCodec.WritesAs.imp {P Q : M → Prop} {codec codec' : MessageCodec M}
    (h : codec.WritesAs P codec') (himp : ∀ m, Q m → P m) : codec.WritesAs Q codec' :=
  ⟨fun hq => h.rawEncode (himp _ hq), fun hq => h.rawPrepend (himp _ hq),
    fun hq => h.rawEncodedLen (himp _ hq)⟩

theorem sumLens_congr {len len' : T → Option Nat} {values : List T}
    (h : ∀ value ∈ values, len value = len' value) : sumLens len values = sumLens len' values := by
  induction values with
  | nil => rfl
  | cons v vs ih =>
      rw [sumLens, sumLens, h v List.mem_cons_self, ih fun u hu => h u (List.mem_cons_of_mem v hu)]

theorem encodeAll_congr {encode encode' : T → Option Bytes} {values : List T}
    (h : ∀ value ∈ values, encode value = encode' value) :
    encodeAll encode values = encodeAll encode' values := by
  induction values with
  | nil => rfl
  | cons v vs ih =>
      rw [encodeAll, encodeAll, h v List.mem_cons_self,
        ih fun u hu => h u (List.mem_cons_of_mem v hu)]

theorem prependAll_congr {prepend prepend' : T → Bytes → Option Bytes} {values : List T}
    (h : ∀ value ∈ values, prepend value = prepend' value) :
    prependAll prepend values = prependAll prepend' values := by
  induction values with
  | nil => rfl
  | cons v vs ih =>
      funext buf
      rw [prependAll, prependAll, h v List.mem_cons_self,
        ih fun u hu => h u (List.mem_cons_of_mem v hu)]

theorem MessageCodec.WritesAs.nested {P : M → Prop} {codec codec' : MessageCodec M}
    (h : codec.WritesAs P codec') : codec.nested.WritesAs P codec'.nested := by
  constructor
  · rfl
  · intro m hm
    simp only [MessageCodec.nested, h.rawEncode hm, h.rawEncodedLen hm]
  · intro m hm
    simp only [MessageCodec.nested, h.rawPrepend hm]
  · intro m hm
    simp only [MessageCodec.nested, h.rawEncodedLen hm]
  · intro values hvalues
    apply sumLens_congr
    intro m hm
    simp only [h.rawEncodedLen (hvalues m hm)]

theorem ValueCodec.WritesAs.packedItems {P : T → Prop} {item item' : ValueCodec T}
    (h : item.WritesAs P item') (fixedSize : Option Nat) {coll : Collection C T}
    (hreversed : ∀ items, coll.reversed items = (coll.iter items).reverse) :
    (packedItems fixedSize item coll).WritesAs (fun items => ∀ v ∈ coll.iter items, P v)
      (ValueCodec.packedItems fixedSize item' coll) := by
  constructor
  · rfl
  · intro items hitems
    have hencode : encodeAll item.encodeValue (coll.iter items) =
        encodeAll item'.encodeValue (coll.iter items) :=
      encodeAll_congr fun v hv => h.encodeValue (hitems v hv)
    simp only [ValueCodec.packedItems, h.manyValuesEncodedLen hitems, hencode]
  · intro items hitems
    have hprepend : prependAll item.prependValue (coll.reversed items) =
        prependAll item'.prependValue (coll.reversed items) := by
      apply prependAll_congr
      intro v hv
      rw [hreversed, List.mem_reverse] at hv
      exact h.prependValue (hitems v hv)
    simp only [ValueCodec.packedItems, hprepend]
  · intro items hitems
    simp only [ValueCodec.packedItems, h.manyValuesEncodedLen hitems]
  · intro values hvalues
    apply sumLens_congr
    intro items hitems
    simp only [h.manyValuesEncodedLen (hvalues items hitems)]

theorem ValueCodec.WritesAs.packed {P : T → Prop} {item item' : ValueCodec T}
    (h : item.WritesAs P item') {coll : Collection C T}
    (hreversed : ∀ items, coll.reversed items = (coll.iter items).reverse) :
    (item.packed coll).WritesAs (fun items => ∀ v ∈ coll.iter items, P v) (item'.packed coll) := by
  have hpacked := h.packedItems item.wireType.fixedSize hreversed
  rw [ValueCodec.packed, ValueCodec.packed, ← h.wireType]
  exact hpacked

theorem ValueCodec.WritesAs.entry {P : V → Prop} {val val' : ValueCodec V}
    (h : val.WritesAs P val') (key : ValueCodec K) :
    (key.entry val).WritesAs (fun e => P e.2) (key.entry val') := by
  have hlen {e : K × V} (he : P e.2) : entry.len key val e = entry.len key val' e := by
    rw [entry.len, entry.len, h.valueEncodedLen he]
  constructor
  · rfl
  · intro e he
    simp only [ValueCodec.entry, h.encodeValue he]
  · intro e he
    simp only [ValueCodec.entry, h.prependValue he]
  · exact hlen
  · intro entries hentries
    have hsum : sumLens (entry.len key val) entries = sumLens (entry.len key val') entries :=
      sumLens_congr fun e he => hlen (hentries e he)
    simp only [ValueCodec.entry, h.wireType, hsum]

theorem ValueCodec.WritesAs.map {P : V → Prop} {val val' : ValueCodec V}
    (h : val.WritesAs P val') (key : ValueCodec K) (coll : Collection C (K × V))
    (hreversed : ∀ items, coll.reversed items = (coll.iter items).reverse) :
    (key.map val coll).WritesAs (fun items => ∀ e ∈ coll.iter items, P e.2)
      (key.map val' coll) := by
  have hpacked := (h.entry key).packedItems (combinedFixedSize key.wireType val.wireType) hreversed
  rw [ValueCodec.map, ValueCodec.map, ← h.wireType]
  exact hpacked

section
variable {P : T → Prop} {codec codec' : ValueCodec T} (h : codec.WritesAs P codec') {value : T}
  (hvalue : P value) (tag : Nat)
include h hvalue

theorem ValueCodec.WritesAs.encodeField :
    codec.encodeField tag value = codec'.encodeField tag value := by
  funext tw
  rw [ValueCodec.encodeField, ValueCodec.encodeField, h.wireType, h.encodeValue hvalue]

theorem ValueCodec.WritesAs.prependField :
    codec.prependField tag value = codec'.prependField tag value := by
  funext buf tw
  rw [ValueCodec.prependField, ValueCodec.prependField, h.wireType, h.prependValue hvalue]

theorem ValueCodec.WritesAs.fieldEncodedLen :
    codec.fieldEncodedLen tag value = codec'.fieldEncodedLen tag value := by
  funext tm
  rw [ValueCodec.fieldEncodedLen, ValueCodec.fieldEncodedLen, h.valueEncodedLen hvalue]

end

/-- A plain field, which is written unless it is empty. -/
theorem ValueCodec.WritesAs.plain {P : T → Prop} {codec codec' : ValueCodec T}
    (h : codec.WritesAs P codec') (state : EmptyState T) (tag : Nat) :
    ((codec.plain state).tagged tag).WritesAs P ((codec'.plain state).tagged tag) := by
  constructor
  · intro value hvalue
    simp only [FieldCodec.tagged, ValueCodec.plain, h.encodeField hvalue]
  · intro value hvalue
    simp only [FieldCodec.tagged, ValueCodec.plain, h.prependField hvalue]
  · intro value hvalue
    simp only [FieldCodec.tagged, ValueCodec.plain, h.fieldEncodedLen hvalue]

theorem ValueCodec.WritesAs.packedField {P : T → Prop} {item item' : ValueCodec T}
    (h : item.WritesAs P item') (coll : Collection C T)
    (hreversed : ∀ items, coll.reversed items = (coll.iter items).reverse) (tag : Nat) :
    ((item.packedField coll).tagged tag).WritesAs (fun items => ∀ v ∈ coll.iter items, P v)
      ((item'.packedField coll).tagged tag) := by
  have hpacked := h.packed hreversed
  constructor
  · intro items hitems
    simp only [FieldCodec.tagged, ValueCodec.packedField, hpacked.encodeField hitems]
  · intro items hitems
    simp only [FieldCodec.tagged, ValueCodec.packedField, hpacked.prependField hitems]
  · intro items hitems
    simp only [FieldCodec.tagged, ValueCodec.packedField, hpacked.fieldEncodedLen hitems]

/-- A oneof writes the variant that it is. -/
theorem Oneof.writesAs {count : Nat} {Ty : Fin count → Type} {tag : Fin count → Nat}
    {codec codec' : (i : Fin count) → ValueCodec (Ty i)} {view : T ≃ Option ((i : Fin count) × Ty i)}
    {P : (i : Fin count) → Ty i → Prop} (h : ∀ i, (codec i).WritesAs (P i) (codec' i)) :
    (Oneof.mk count Ty tag codec view).field.WritesAs (fun value => ∀ v ∈ view value, P v.1 v.2)
      (Oneof.mk count Ty tag codec' view).field := by
  constructor
  · intro value hvalue
    funext tw
    simp only [Oneof.field]
    cases hview : view value with
    | none => rfl
    | some v => exact congrFun ((h v.1).encodeField (hvalue v hview) _) tw
  · intro value hvalue
    funext buf tw
    simp only [Oneof.field]
    cases hview : view value with
    | none => rfl
    | some v => exact congrFun (congrFun ((h v.1).prependField (hvalue v hview) _) buf) tw
  · intro value hvalue
    funext tm
    simp only [Oneof.field]
    cases hview : view value with
    | none => rfl
    | some v => exact congrFun ((h v.1).fieldEncodedLen (hvalue v hview) _) tm

/-- The only field of a message is visited. -/
theorem FieldCodec.visits_derived (codec : FieldCodec T) (tag : Nat) (m : T) :
    (Fields.single (codec.tagged tag)).derived.forward m = [(0 : Fin 1)] ∧
      (Fields.single (codec.tagged tag)).derived.backward m = [(0 : Fin 1)] := ⟨rfl, rfl⟩

theorem MessageField.WritesAs.single {P : T → Prop} {field field' : MessageField T}
    (h : field.WritesAs P field') {w : (Fields.single field).Writing}
    {w' : (Fields.single field').Writing}
    (hforward : ∀ m, w.forward m = [(0 : Fin 1)] ∧ w'.forward m = [(0 : Fin 1)])
    (hbackward : ∀ m, w.backward m = [(0 : Fin 1)] ∧ w'.backward m = [(0 : Fin 1)])
    (hmeasurer : w.measurer = w'.measurer) :
    ((Fields.single field).message w).WritesAs P ((Fields.single field').message w') := by
  have hwritten {m : T} (hm : P m) := written_singleBy (hforward m) (hbackward m) hmeasurer
    (fun tw => congrFun (h.encode hm) tw)
    (fun buf tw => congrFun (congrFun (h.prependEncode hm) buf) tw)
    fun tm => congrFun (h.encodedLen hm) tm
  exact ⟨fun hm => (hwritten hm).1, fun hm => (hwritten hm).2.1, fun hm => (hwritten hm).2.2⟩

theorem MessageField.WritesAs.listed {P : T → Prop} {field field' : MessageField T}
    (h : field.WritesAs P field') (measurer : TagMeasurer) :
    ((Fields.single field).message ((Fields.single field).listed measurer)).WritesAs P
      ((Fields.single field').message ((Fields.single field').listed measurer)) :=
  h.single (fun _ => ⟨rfl, rfl⟩) (fun _ => ⟨rfl, rfl⟩) rfl

theorem FieldCodec.writesAs_derived {P : T → Prop} {codec codec' : FieldCodec T} {tag : Nat}
    (h : (codec.tagged tag).WritesAs P (codec'.tagged tag)) :
    (codec.derived tag).WritesAs P (codec'.derived tag) :=
  h.single (fun m => ⟨(codec.visits_derived tag m).1, (codec'.visits_derived tag m).1⟩)
    (fun m => ⟨(codec.visits_derived tag m).2, (codec'.visits_derived tag m).2⟩) rfl

end

end Bilrost
