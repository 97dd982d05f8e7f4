import Bilrost.Schema.ReadBack
import Bilrost.Schema.Readings
import Bilrost.Schema.Single

/-!
Fields and messages that are read back. A field is decoded from its records,
the further ones under its tag without being looked up again; the decoder of a
message starts from the empty one and comes by each field that was written.
-/

namespace Bilrost

open Program

/-- The payloads of a field are decoded to its value: the first one, and with it
those that follow under the same tag. -/
structure FieldCodec.ReadBack {T : Type} (codec : FieldCodec T) (way : Way) (mode : DecodingMode)
    (depth : Nat) (value : T) (wireType : WireType) (payloads : List Bytes) : Prop where
  empty : payloads = [] → value = codec.forOverwrite
  decode {payload : Bytes} {payloads' : List Bytes} (h : payloads = payload :: payloads')
    (hlt : ∀ p ∈ payloads, p.length < 2 ^ 64) {rest : Bytes} (hrest : NoRepeat rest) :
    (codec.decodeBy way mode depth wireType codec.forOverwrite).Parses
      (payload ++ (ValueCodec.unpackedPayloads wireType payloads' ++ rest)) (value, .canonical) rest

/-- What is written of the value as a field is decoded to it. -/
def FieldCodec.ReadsBack {T : Type} (ordered : Prop) (codec : FieldCodec T) (way : Way)
    (mode : DecodingMode) (depth : Nat) (value : T) : Prop :=
  ∃ wireType payloads, codec.Written ordered value wireType payloads ∧
    codec.ReadBack way mode depth value wireType payloads

/-- The records of a field of a message are decoded to its value. -/
structure MessageField.ReadBack {T : Type} (field : MessageField T) (way : Way)
    (mode : DecodingMode) (depth : Nat) (value : T) (records : List Record) : Prop where
  empty : records = [] → value = field.empty
  decode {r : Record} {rs : List Record} (h : records = r :: rs)
    (hlt : ∀ r ∈ records, r.payload.length < 2 ^ 64) {rest : Bytes} (hrest : NoRepeat rest) :
    (field.decodeBy way mode depth r.tag r.wireType false field.empty).Parses
      (r.payload ++ (wireRecords r.tag rs ++ rest)) (value, .canonical) rest

def MessageField.ReadsBack {T : Type} (ordered : Prop) (field : MessageField T) (way : Way)
    (mode : DecodingMode) (depth : Nat) (value : T) : Prop :=
  ∃ records, field.Written ordered value records ∧ field.ReadBack way mode depth value records

namespace ValueCodec

variable {T C : Type} {ordered : Prop} {way : Way} {mode : DecodingMode} {depth : Nat}

/-- Fields with one payload or none. -/
theorem Guards.readsBack {codec : ValueCodec T} {field : FieldCodec T} (h : codec.Guards field)
    (hwrites : codec.Writes ordered) {value : T}
    (hempty : field.emptyState.isEmpty value = true → value = field.forOverwrite)
    (hdecode : field.emptyState.isEmpty value = false → ∀ payload,
      codec.encodeValue value = some payload → payload.length < 2 ^ 64 → ∀ rest,
        (field.decodeBy way mode depth codec.wireType field.forOverwrite).Parses (payload ++ rest)
          (value, .canonical) rest) : field.ReadsBack ordered way mode depth value := by
  obtain ⟨payload, hpayload⟩ := hwrites.encode value
  refine ⟨_, _, h.written hwrites hpayload, ?_⟩
  cases hisEmpty : field.emptyState.isEmpty value with
  | true =>
      constructor
      · exact fun _ => hempty hisEmpty
      · intro p ps hcons
        cases hcons
  | false =>
      constructor
      · intro hnil
        cases hnil
      · intro p ps hcons hlt rest _
        obtain ⟨rfl, rfl⟩ := List.cons.inj hcons
        exact hdecode hisEmpty payload hpayload (hlt payload List.mem_cons_self) rest

theorem ReadsBack.plain {codec : ValueCodec T} {state : EmptyState T} {value : T}
    (hcuts : codec.Cuts) (hwrites : codec.Writes ordered)
    (hempty : state.isEmpty value = true → value = codec.forOverwrite)
    (h : state.isEmpty value = false → codec.ReadsBack way mode false depth value) :
    (codec.plain state).ReadsBack ordered way mode depth value := by
  apply (guards_plain codec state).readsBack hwrites hempty
  intro hisEmpty payload hpayload hlt rest
  have hvalue := h hisEmpty payload hpayload hlt
  have hstays : (!codec.checksEmpty && state.isEmpty value) = false := by
    rw [show state.isEmpty value = false from hisEmpty, Bool.and_false]
  rw [plain_decodeBy]
  refine parses_bind.mpr ⟨(value, .canonical), rest, ?_, ?_⟩
  · exact parses_decodeFieldBy.mpr ⟨rfl, (hcuts.isLocal way mode false depth _).append hvalue rest⟩
  · rw [hstays, Way.refuseEmpty_false]
    exact parses_done.mpr ⟨rfl, rfl⟩

theorem ReadsBack.packedField {item : ValueCodec T} {coll : Collection C T} {items : C}
    (hwrites : (item.packed coll).Writes ordered)
    (hempty : coll.isEmpty items = true → items = coll.empty)
    (h : (item.packed coll).ReadsBack way mode false depth items) :
    (item.packedField coll).ReadsBack ordered way mode depth items := by
  apply (guards_packedField item coll).readsBack hwrites hempty
  intro hisEmpty payload hpayload hlt rest
  have hlocal := (cuts_packedItems item.wireType.fixedSize item coll).isLocal way mode false depth
  have hstays : coll.isEmpty items = false := hisEmpty
  have hwire : (item.packed coll).wireType = .lengthDelimited := rfl
  rw [packedField_decodeBy, if_pos hwire]
  refine parses_bind.mpr ⟨(items, .canonical), rest, ?_, ?_⟩
  · exact (hlocal coll.empty).append (h payload hpayload hlt) rest
  · rw [hstays, Way.refuseEmpty_false]
    exact parses_done.mpr ⟨rfl, rfl⟩

end ValueCodec

/-- Records under the tag of the one before are as the decoder of a repeated
field finds them. -/
theorem wireRecords_repeated (tag : Nat) (wireType : WireType) (payloads : List Bytes) :
    wireRecords tag (payloads.map (Record.mk tag wireType)) =
      ValueCodec.unpackedPayloads wireType payloads := by
  induction payloads with
  | nil => rfl
  | cons payload payloads ih =>
      simp [wireRecords, ih, ValueCodec.unpackedPayloads]

section
variable {T : Type} {ordered : Prop} {way : Way} {mode : DecodingMode} {depth : Nat}

theorem FieldCodec.ReadsBack.tagged {codec : FieldCodec T} {value : T}
    (h : codec.ReadsBack ordered way mode depth value) (tag : Nat) :
    (codec.tagged tag).ReadsBack ordered way mode depth value := by
  obtain ⟨wireType, payloads, hwritten, hback⟩ := h
  refine ⟨_, hwritten.tagged tag, ?_, ?_⟩
  · intro hnil
    exact hback.empty (List.map_eq_nil_iff.mp hnil)
  · intro r rs hrecords hlt rest hrest
    cases payloads with
    | nil => cases hrecords
    | cons payload payloads =>
        obtain ⟨rfl, rfl⟩ := List.cons.inj hrecords
        have hlengths : ∀ p ∈ payload :: payloads, p.length < 2 ^ 64 := fun p hp =>
          hlt _ (List.mem_map_of_mem hp)
        rw [FieldCodec.tagged_decodeBy, if_neg Bool.false_ne_true, wireRecords_repeated]
        exact hback.decode rfl hlengths hrest

theorem Oneof.readsBack {oneof : Oneof T} (hnodup : oneof.tags.Nodup)
    (hcuts : ∀ i, (oneof.codec i).Cuts) (hwrites : ∀ i, (oneof.codec i).Writes ordered) {value : T}
    (h : ∀ v ∈ oneof.view value, (oneof.codec v.1).ReadsBack way mode true depth v.2) :
    oneof.field.ReadsBack ordered way mode depth value := by
  have hcurrent : oneof.currentTag (oneof.view.symm none) = none := by simp [Oneof.currentTag]
  cases hview : oneof.view value with
  | none =>
      refine ⟨[], Oneof.written_none hview, ?_, ?_⟩
      · intro _
        exact (oneof.view.symm_apply_eq.mpr hview.symm).symm
      · intro r rs hrecords
        cases hrecords
  | some v =>
      obtain ⟨payload, hpayload⟩ := (hwrites v.1).encode v.2
      refine ⟨_, Oneof.written_some hwrites hview hpayload, ?_, ?_⟩
      · intro hnil
        cases hnil
      · intro r rs hrecords hlt rest _
        obtain ⟨rfl, rfl⟩ := List.cons.inj hrecords
        have hvalue := h v hview payload hpayload (hlt _ List.mem_cons_self)
        have hlocal := (hcuts v.1).isLocal way mode true depth (oneof.codec v.1).forOverwrite
        have hconstruct : oneof.construct v.1 v.2 = value :=
          oneof.view.symm_apply_eq.mpr hview.symm
        rw [Oneof.field_decodeBy]
        have hempty : oneof.field.empty = oneof.view.symm none := rfl
        simp only [hempty, hcurrent, Oneof.variant_tag hnodup]
        refine parses_bind.mpr ⟨(v.2, .canonical), rest, ?_, ?_⟩
        · exact ValueCodec.parses_decodeFieldBy.mpr ⟨rfl, hlocal.append hvalue rest⟩
        · exact parses_done.mpr ⟨by rw [hconstruct], rfl⟩

end

/-- The key of a higher tag is not that of a repeated field. -/
theorem noRepeat_keyBytes {delta : Nat} (h : 0 < delta) (wireType : WireType) (bytes : Bytes) :
    NoRepeat (keyBytes delta wireType ++ bytes) := by
  rw [keyBytes]
  rcases Nat.lt_or_ge (4 * delta + wireType.toU64) 0x80 with hsmall | hlarge
  · rw [varint_of_lt hsmall]
    rintro key ⟨⟩
    rw [UInt8.toNat_ofNat']
    omega
  · obtain ⟨b, tail, hvarint, hb⟩ := varint_of_ge hlarge
    rw [hvarint]
    rintro key ⟨⟩
    omega

theorem noRepeat_wireRecords {last : Nat} {records : List Record}
    (h : ∀ r ∈ records, last < r.tag) : NoRepeat (wireRecords last records) := by
  cases records with
  | nil =>
      rintro key ⟨⟩
  | cons r rs =>
      have hr := h r List.mem_cons_self
      rw [wireRecords, List.append_assoc]
      exact noRepeat_keyBytes (by omega) _ _

theorem length_payload_le (last : Nat) {records : List Record} :
    ∀ r ∈ records, r.payload.length ≤ (wireRecords last records).length := by
  induction records generalizing last with
  | nil => simp
  | cons r rs ih =>
      have hrest := ih r.tag
      simp only [List.mem_cons, forall_eq_or_imp, wireRecords, List.length_append]
      constructor
      · omega
      · intro r' hr'
        have hle := hrest r' hr'
        omega

theorem lastTagOf_of_forall {tag : Nat} {records : List Record} (h : ∀ r ∈ records, r.tag = tag) :
    lastTagOf tag records = tag := by
  induction records with
  | nil => rfl
  | cons r rs ih =>
      rw [lastTagOf_cons, h r List.mem_cons_self]
      exact ih fun r' hr' => h r' (List.mem_cons_of_mem r hr')

/-- The records of a field are followed by the others. -/
theorem wireRecords_run (last : Nat) {r : Record} {rs : List Record}
    (h : ∀ r' ∈ rs, r'.tag = r.tag) (records : List Record) :
    wireRecords last ((r :: rs) ++ records) = keyBytes (r.tag - last) r.wireType ++
      ((r.payload ++ wireRecords r.tag rs) ++ wireRecords r.tag records) := by
  rw [List.cons_append, wireRecords, wireRecords_append, lastTagOf_of_forall h]
  simp only [List.append_assoc]

/-- The records of a field that was read, in front of those that follow. -/
theorem wireRecords_of_run {last tag : Nat} {wireType : WireType} {payload first rest : Bytes}
    {more records : List Record} (hbytes : payload ++ rest = first ++ (wireRecords tag more ++ rest))
    (hmore : ∀ r ∈ more, r.tag = tag) (hrest : rest = wireRecords tag records) :
    keyBytes (tag - last) wireType ++ (payload ++ rest) =
      wireRecords last (⟨tag, wireType, first⟩ :: more ++ records) := by
  rw [wireRecords_run last hmore, ← hrest, hbytes, List.append_assoc]

namespace Fields

open MessageFieldsSorted

variable {M : Type} {F : Fields M} {w : F.Writing} {ordered : Prop} {way : Way}
  {mode : DecodingMode} {depth : Nat} {m m' : M} {emit : F.Index → List Record}
  {order : List F.Index} {i : F.Index}

/-- A message on the way to another one: some fields are yet to be read, the
others are as they will be. -/
structure Awaits (F : Fields M) (m m' : M) (order : List F.Index) : Prop where
  left (i : F.Index) : i ∈ order → F.get m' i = (F.field i).empty
  read (i : F.Index) : i ∉ order → F.get m' i = F.get m i
  ignored : (F.view m').2 = (F.view m).2

theorem Awaits.eq (h : F.Awaits m m' []) : m' = m := by
  apply F.view.injective
  exact Prod.ext (funext fun i => h.read i List.not_mem_nil) h.ignored

/-- Nothing was written of a field that is empty. -/
theorem Awaits.pass (h : F.Awaits m m' (i :: order)) (hempty : F.get m i = (F.field i).empty) :
    F.Awaits m m' order where
  left j hj := h.left j (List.mem_cons_of_mem i hj)
  read j hj := by
    rcases eq_or_ne j i with rfl | hne
    · rw [h.left j List.mem_cons_self, hempty]
    · exact h.read j fun hmem => (List.mem_cons.mp hmem).elim hne hj
  ignored := h.ignored

theorem Awaits.set (h : F.Awaits m m' (i :: order)) (hi : i ∉ order) :
    F.Awaits m (F.set m' i (F.get m i)) order where
  left j hj := by
    have hne : j ≠ i := fun heq => hi (heq ▸ hj)
    rw [get_set_of_ne m' hne]
    exact h.left j (List.mem_cons_of_mem i hj)
  read j hj := by
    rcases eq_or_ne j i with rfl | hne
    · exact get_set_self m' j _
    · rw [get_set_of_ne m' hne]
      exact h.read j fun hmem => (List.mem_cons.mp hmem).elim hne hj
  ignored := by
    rw [view_set]
    exact h.ignored

/-- The decoder of a message reads the fields that were written in some order,
all of which have higher tags than those before. -/
theorem reading_of_emits (h : F.Sound)
    (hvalid : ∀ i, ∀ tag ∈ F.currentTag m i, tag ∈ (F.field i).tags)
    (hwritten : ∀ i, (F.field i).Written ordered (F.get m i) (emit i))
    (hback : ∀ i, (F.field i).ReadBack way mode depth (F.get m i) (emit i))
    (hemits : order.Pairwise (EmitsBefore (F.currentTag m))) {last : Nat} {lastTag : Option Nat}
    (hawaits : F.Awaits m m' order)
    (hlast : ∀ i ∈ order, ∀ r ∈ emit i, last ≤ r.tag ∧ lastTag ≠ some r.tag)
    (hlt : (wireRecords last (order.flatMap emit)).length < 2 ^ 64) :
    ∃ records last' lastTag', Reading ((F.message w).stepBy way mode depth)
      ⟨last, lastTag, (m', .canonical), wireRecords last (order.flatMap emit)⟩ records
      ⟨last', lastTag', (m, .canonical), []⟩ := by
  induction order generalizing last lastTag m' with
  | nil =>
      obtain rfl := hawaits.eq
      exact ⟨[], last, lastTag, .nil⟩
  | cons i order ih =>
      obtain ⟨hbefore, hrest⟩ := List.pairwise_cons.mp hemits
      rw [List.flatMap_cons] at hlt ⊢
      cases hrecords : emit i with
      | nil =>
          rw [hrecords, List.nil_append] at hlt
          have hpass := hawaits.pass ((hback i).empty hrecords)
          exact ih hrest hpass (fun j hj => hlast j (List.mem_cons_of_mem i hj)) hlt
      | cons r rs =>
          have hcurrent (j : F.Index) : ∀ r ∈ emit j, F.currentTag m j = some r.tag :=
            (hwritten j).currentTag
          have hr : r ∈ emit i := hrecords ▸ List.mem_cons_self
          have hsame : ∀ r' ∈ rs, r'.tag = r.tag := by
            intro r' hr'
            have hmem : r' ∈ emit i := hrecords ▸ List.mem_cons_of_mem r hr'
            exact Option.some.inj ((hcurrent i r' hmem).symm.trans (hcurrent i r hr))
          have hafter : ∀ j ∈ order, ∀ r' ∈ emit j, r.tag < r'.tag := fun j hj r' hr' =>
            hbefore j hj r.tag (hcurrent i r hr) r'.tag (hcurrent j r' hr')
          have hi : i ∉ order := fun hmem => lt_irrefl _ (hafter i hmem r hr)
          have htag : r.tag ∈ (F.field i).tags := hvalid i r.tag (hcurrent i r hr)
          have hbytes := wireRecords_run last hsame (order.flatMap emit)
          rw [hrecords, hbytes] at hlt
          have hstop : NoRepeat (wireRecords r.tag (order.flatMap emit)) := by
            apply noRepeat_wireRecords
            intro r' hr'
            obtain ⟨j, hj, hr'⟩ := List.mem_flatMap.mp hr'
            exact hafter j hj r' hr'
          have hlengths : ∀ r' ∈ emit i, r'.payload.length < 2 ^ 64 := by
            intro r' hr'
            have hle := length_payload_le last r' hr'
            rw [hrecords, wireRecords] at hle
            simp only [List.length_append] at hlt hle
            omega
          have hdecoded := (hback i).decode hrecords hlengths hstop
          have hempty : F.get m' i = (F.field i).empty := hawaits.left i List.mem_cons_self
          have hstep : ((F.message w).stepBy way mode depth r.tag r.wireType
              (lastTag == some r.tag) (m', .canonical)).Parses
                ((r.payload ++ wireRecords r.tag rs) ++ wireRecords r.tag (order.flatMap emit))
                (F.set m' i (F.get m i), .canonical) (wireRecords r.tag (order.flatMap emit)) := by
            have hdup : (lastTag == some r.tag) = false :=
              beq_false_of_ne (hlast i List.mem_cons_self r hr).2
            rw [hdup]
            refine MessageCodec.parses_stepBy.mpr ⟨(F.set m' i (F.get m i), .canonical), ?_, rfl⟩
            refine (parses_fieldBy (h.fieldOf_eq_some.mpr htag)).mpr
              ⟨(F.get m i, .canonical), ?_, rfl⟩
            rw [hempty, List.append_assoc]
            exact hdecoded
          have hnext : ∀ j ∈ order, ∀ r' ∈ emit j, r.tag ≤ r'.tag ∧ some r.tag ≠ some r'.tag :=
            fun j hj r' hr' => ⟨(hafter j hj r' hr').le, by
              have hne := (hafter j hj r' hr').ne
              simpa using hne⟩
          obtain ⟨records, last', lastTag', hreading⟩ := ih hrest (hawaits.set hi) hnext (by
            simp only [List.length_append] at hlt
            omega)
          rw [hbytes]
          exact ⟨_, last', lastTag', .cons (hlast i List.mem_cons_self r hr).1
            (h.lt i r.tag htag) hstep hreading⟩

/-- A message is read back if its fields are. -/
theorem readsBack (h : F.Sound) (hw : w.Standard) (hregular : (F.message w).Regular)
    (hshows : ∀ i, (F.field i).Shows) (hwrites : ∀ i, (F.field i).Writes ordered)
    (hignored : (F.view m).2 = F.ignoredDefault)
    (hback : ∀ i, (F.field i).ReadsBack ordered way mode depth (F.get m i)) :
    (F.message w).ReadsBack way mode depth m := by
  intro bytes hencode hlt
  choose emit hwritten hread using hback
  have hrecords := written h hw hwrites hwritten
  obtain rfl := Option.some.inj (hrecords.encode.symm.trans hencode)
  have hvalid : ∀ i, ∀ tag ∈ F.currentTag m i, tag ∈ (F.field i).tags :=
    fun i tag htag => (hwrites i).valid htag
  have hawaits : F.Awaits m (F.message w).empty (w.forward m) := by
    constructor
    · exact fun i _ => get_empty w i
    · intro i hi
      have hisEmpty : (F.field i).isEmpty (F.get m i) = true := by
        by_contra hne
        exact hi (hw.mem_forward h hshows (Bool.eq_false_iff.mpr hne))
      rw [get_empty, (hread i).empty ((hwritten i).isEmpty.mp hisEmpty)]
    · rw [hignored]
      simp [message]
  have hfirst : ∀ i ∈ w.forward m, ∀ r ∈ emit i, 0 ≤ r.tag ∧ none ≠ some r.tag :=
    fun _ _ r _ => ⟨Nat.zero_le _, Option.some_ne_none _ |>.symm⟩
  have hreading := reading_of_emits (w := w) h hvalid hwritten hread (hw.emits h hvalid).1 hawaits
    hfirst hlt
  exact hregular.parses_mergeBy.mpr ⟨rfl, hreading⟩

end Fields

namespace MessageCodec

variable {M : Type} {codec : MessageCodec M} {way : Way} {mode : DecodingMode} {m : M}
  {bytes : Bytes} {β : Type} [Buf β] {buf : β}

/-- Encoding to a vector, for which the length is computed beforehand, is encoding. -/
theorem Writes.encodeToVec_eq {ordered : Prop} (h : codec.Writes ordered) (m : M) :
    codec.encodeToVec m = codec.rawEncode m := by
  obtain ⟨records, hwritten⟩ := h m
  simp [encodeToVec, encodedLen, hwritten.encodedLen]

/-- What is read back is decoded from a whole buffer, however it is stored. -/
theorem ReadsBack.decodeAs (h : codec.ReadsBack way mode recursionLimit m)
    (hregular : codec.Regular) (hencode : codec.rawEncode m = some bytes)
    (hlt : bytes.length < 2 ^ 64) (hbuf : Buf.bytes buf = bytes) :
    codec.decodeAs way mode .notCanonical buf = .ok (m, .canonical) := by
  rw [hregular.decodeAs_eq_ok, hbuf]
  exact h bytes hencode hlt

theorem ReadsBack.decodeCapped (h : codec.ReadsBack .relaxed mode recursionLimit m)
    (hregular : codec.Regular) (hencode : codec.rawEncode m = some bytes)
    (hlt : bytes.length < 2 ^ 64) (hbuf : Buf.bytes buf = bytes) :
    codec.decodeCapped mode (Capped.new buf) = .ok m := by
  have hdecode := h.decodeAs hregular hencode hlt hbuf
  rw [MessageCodec.decodeAs] at hdecode
  cases hresult : codec.decodeCapped mode (Capped.new buf) with
  | error stop =>
      rw [hresult] at hdecode
      cases hdecode
  | ok value =>
      rw [hresult] at hdecode
      exact congrArg (Except.map Prod.fst) hdecode

end MessageCodec

section
variable {allowed : Features} (hallowed : ¬allowed.emptyArrays) {way : Way} {mode : DecodingMode}
  {depth : Nat}
include hallowed

theorem Built.readsBack_message {M : Type} {F : Fields M} {w : F.Writing} {m : M}
    (hsound : F.Sound) (hw : w.Standard)
    (hfields : ∀ i, Built allowed (.messageField (F.field i)))
    (hignored : (F.view m).2 = F.ignoredDefault)
    (hback : ∀ i, (F.field i).ReadsBack (¬allowed.hashed) way mode depth (F.get m i)) :
    (F.message w).ReadsBack way mode depth m := by
  apply Fields.readsBack hsound hw
  · exact Fields.regular fun i => (hfields i).regular
  · exact fun i => (hfields i).shows hallowed
  · exact fun i => (hfields i).writes hallowed
  · exact hignored
  · exact hback

/-- A message that is nothing but its only field. -/
theorem Built.readsBack_single {T : Type} {field : MessageField T}
    {w : (Fields.single field).Writing} {value : T} (hsound : (Fields.single field).Sound)
    (hw : w.Standard) (hfield : Built allowed (.messageField field))
    (hback : field.ReadsBack (¬allowed.hashed) way mode depth value) :
    ((Fields.single field).message w).ReadsBack way mode depth value :=
  Built.readsBack_message hallowed hsound hw (fun _ => hfield) rfl fun _ => hback

theorem Built.readsBack_derived {T : Type} {codec : FieldCodec T} {tag : Nat} {value : T}
    (htag : tag < 2 ^ 32) (hcodec : Built allowed (.field codec))
    (hback : codec.ReadsBack (¬allowed.hashed) way mode depth value) :
    (codec.derived tag).ReadsBack way mode depth value :=
  Built.readsBack_single hallowed (Fields.singleBy_sound htag) .derived (.tagged tag hcodec)
    (hback.tagged tag)

end

end Bilrost
