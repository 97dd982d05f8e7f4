import Bilrost.Codec.Merge
import Bilrost.Codec.Opaque
import Bilrost.Decode.Payload

/-!
Opaque messages are in bijection with the well-formed sequences of fields.
Iterating over a message lists what was inserted in ascending order of tags,
and inserting such a list builds the message again; the encoders write the
listed values as records, and the decoder inserts the records it reads.
-/

namespace Bilrost

open Program

namespace OpaqueValue

theorem encodeValue_length (value : OpaqueValue) :
    value.encodeValue.length = value.valueEncodedLen := by
  cases value with
  | varint n => simp [encodeValue, valueEncodedLen, encodeVarint_eq]
  | lengthDelimited bytes => simp [encodeValue, valueEncodedLen, encodeVarint_eq]
  | thirtyTwoBit bytes => exact bytes.toList_length
  | sixtyFourBit bytes => exact bytes.toList_length

theorem prependValue_eq (value : OpaqueValue) (buf : Bytes) :
    value.prependValue buf = value.encodeValue ++ buf := by
  cases value with
  | varint n => simp [encodeValue, prependValue, encodeVarint_eq]
  | lengthDelimited bytes => simp [encodeValue, prependValue, encodeVarint_eq]
  | thirtyTwoBit bytes => rfl
  | sixtyFourBit bytes => rfl

theorem parse_arrayOf {n : Nat} (value : List.Vector UInt8 n) (rest : Bytes) :
    (arrayOf n value.toList).parse rest = .ok ⟨value, .canonical, rest⟩ := by
  rw [arrayOf, dif_pos value.toList_length]
  rfl

theorem parse_arrayOf_eq_ok {n : Nat} {bytes rest : Bytes} {parsed : Parsed (List.Vector UInt8 n)}
    (h : (arrayOf n bytes).parse rest = .ok parsed) :
    parsed.value.toList = bytes ∧ parsed.rest = rest := by
  rw [arrayOf] at h
  split at h
  · obtain rfl := Except.ok.inj h
    exact ⟨rfl, rfl⟩
  · cases h

/-- Bytes that are taken and made an array of. -/
theorem parse_getArray {n : Nat} {α : Type} (f : List.Vector UInt8 n → α)
    (value : List.Vector UInt8 n) (rest : Bytes) :
    (Program.op (.getBytes n) fun bytes => (arrayOf n bytes).bind fun v => .done (f v)).parse
      (value.toList ++ rest) = .ok ⟨f value, .canonical, rest⟩ := by
  have hlen := value.toList_length
  rw [parse, Op.parse, if_pos (by rw [List.length_append]; omega)]
  simp only [List.take_left' hlen, List.drop_left' hlen, parse_bind, parse_arrayOf]
  rfl

theorem parse_getArray_eq_ok {n : Nat} {α : Type} {f : List.Vector UInt8 n → α} {bytes : Bytes}
    {parsed : Parsed α}
    (h : (Program.op (.getBytes n) fun bytes => (arrayOf n bytes).bind fun v => .done (f v)).parse
      bytes = .ok parsed) :
    ∃ value : List.Vector UInt8 n, parsed.value = f value ∧ bytes = value.toList ++ parsed.rest := by
  rw [parse, Op.parse] at h
  split_ifs at h with hle
  simp only [parse_bind] at h
  split at h
  · next array harray =>
    obtain ⟨hvalue, hrest⟩ := parse_arrayOf_eq_ok harray
    obtain rfl := Except.ok.inj h
    refine ⟨array.value, rfl, ?_⟩
    rw [hvalue]
    simp [hrest]
  · cases h

/-- Reading a value of its wire type returns it. -/
theorem parse_decodeValue (mode : DecodingMode) (value : OpaqueValue) (rest : Bytes) :
    (decodeValue mode value.wireType).parse (value.encodeValue ++ rest) =
      .ok ⟨value, .canonical, rest⟩ := by
  cases value with
  | varint n =>
    rw [encodeValue, encodeVarint_eq]
    simp only [decodeValue, wireType, parse, Op.parse, parseVarint_varint n.toNat_lt,
      Except.toOption, UInt64.ofNat_toNat]
  | lengthDelimited bytes =>
    rw [encodeValue, encodeVarint_eq, List.append_assoc]
    simp only [decodeValue, wireType, bind_eq, parse_bind, DelimitedRead.parse_bytes,
      parseDelimited_append bytes.property, sliceOf, dif_pos bytes.property]
    rfl
  | thirtyTwoBit bytes => exact parse_getArray _ bytes rest
  | sixtyFourBit bytes => exact parse_getArray _ bytes rest

/-- Every value that is read was written in front of what is left. -/
theorem parse_decodeValue_eq_ok {mode : DecodingMode} {wireType : WireType} {bytes : Bytes}
    {parsed : Parsed OpaqueValue} (h : (decodeValue mode wireType).parse bytes = .ok parsed) :
    parsed.value.wireType = wireType ∧ bytes = parsed.value.encodeValue ++ parsed.rest := by
  cases wireType with
  | varint =>
    simp only [decodeValue, parse, Op.parse] at h
    cases hvarint : parseVarint bytes with
    | error err => simp [hvarint, Except.toOption] at h
    | ok taken =>
      obtain ⟨n, rest⟩ := taken
      obtain ⟨hlt, rfl⟩ := parseVarint_eq_ok hvarint
      simp only [hvarint, Except.toOption] at h
      obtain rfl := Except.ok.inj h
      refine ⟨rfl, ?_⟩
      rw [encodeValue, encodeVarint_eq, UInt64.toNat_ofNat_of_lt' hlt]
  | lengthDelimited =>
    simp only [decodeValue, bind_eq, parse_bind, DelimitedRead.parse_bytes] at h
    cases hdelimited : parseDelimited bytes with
    | none => simp [hdelimited] at h
    | some taken =>
      obtain ⟨delimited, rest⟩ := taken
      obtain ⟨hlt, rfl⟩ := parseDelimited_eq_some hdelimited
      simp only [hdelimited, sliceOf, dif_pos hlt] at h
      obtain rfl := Except.ok.inj h
      exact ⟨rfl, by simp [encodeValue, encodeVarint_eq]⟩
  | thirtyTwoBit =>
    obtain ⟨value, hvalue, hbytes⟩ := parse_getArray_eq_ok h
    exact ⟨by rw [hvalue]; rfl, by rw [hvalue]; exact hbytes⟩
  | sixtyFourBit =>
    obtain ⟨value, hvalue, hbytes⟩ := parse_getArray_eq_ok h
    exact ⟨by rw [hvalue]; rfl, by rw [hvalue]; exact hbytes⟩

theorem regular_arrayOf (n : Nat) (bytes : Bytes) : Regular (arrayOf n bytes) := by
  rw [arrayOf]
  split
  · exact regular_done _
  · exact regular_error _

theorem regular_sliceOf (bytes : Bytes) : Regular (sliceOf bytes) := by
  rw [sliceOf]
  split
  · exact regular_done _
  · exact regular_error _

end OpaqueValue

theorem OpaqueValue.regular_decodeValue (mode : DecodingMode) (wireType : WireType) :
    Regular (OpaqueValue.decodeValue mode wireType) := by
  cases wireType with
  | varint => exact Regular.op _ fun _ => regular_done _
  | lengthDelimited =>
    exact (DelimitedRead.regular_bytes _).bind fun bytes =>
      (OpaqueValue.regular_sliceOf bytes).map _
  | thirtyTwoBit => exact Regular.op _ fun bytes => (OpaqueValue.regular_arrayOf 4 bytes).map _
  | sixtyFourBit => exact Regular.op _ fun bytes => (OpaqueValue.regular_arrayOf 8 bytes).map _

/-- Every complete value of a wire type is the encoding of an opaque value. -/
theorem WireType.Complete.exists_value {wireType : WireType} {payload : Bytes}
    (h : wireType.Complete payload) :
    ∃ value : OpaqueValue, value.wireType = wireType ∧ value.encodeValue = payload := by
  cases wireType with
  | varint =>
    obtain ⟨n, hn, rfl⟩ := h
    refine ⟨.varint (UInt64.ofNat n), rfl, ?_⟩
    rw [OpaqueValue.encodeValue, encodeVarint_eq, UInt64.toNat_ofNat_of_lt' hn]
  | lengthDelimited =>
    obtain ⟨content, hlt, rfl⟩ := h
    exact ⟨.lengthDelimited ⟨content, hlt⟩, rfl, by rw [OpaqueValue.encodeValue, encodeVarint_eq]⟩
  | thirtyTwoBit => exact ⟨.thirtyTwoBit ⟨payload, h⟩, rfl, rfl⟩
  | sixtyFourBit => exact ⟨.sixtyFourBit ⟨payload, h⟩, rfl, rfl⟩

theorem OpaqueValue.complete (value : OpaqueValue) : value.wireType.Complete value.encodeValue := by
  cases value with
  | varint n => exact ⟨n.toNat, n.toNat_lt, encodeVarint_eq _⟩
  | lengthDelimited bytes =>
    exact ⟨bytes.val, bytes.property, by rw [OpaqueValue.encodeValue, encodeVarint_eq]⟩
  | thirtyTwoBit bytes => exact bytes.toList_length
  | sixtyFourBit bytes => exact bytes.toList_length

namespace OpaqueMessage

/-- What a list of entries holds, value by value. -/
def listed (entries : List (Tag × List OpaqueValue)) : List (Tag × OpaqueValue) :=
  entries.flatMap fun field => field.2.map fun value => (field.1, value)

theorem iter_eq (message : OpaqueMessage) : message.iter = listed message.fields.entries := rfl

/-- Iteration is in ascending order of tags. -/
theorem iter_ascending (message : OpaqueMessage) :
    message.iter.Pairwise fun a b => a.1 ≤ b.1 := by
  rw [iter_eq, listed, List.pairwise_flatMap]
  constructor
  · intro field _
    rw [List.pairwise_map]
    exact List.pairwise_of_forall fun _ _ => le_rfl
  · refine message.fields.sorted.imp fun {a b} hlt x hx y hy => ?_
    obtain ⟨v, -, rfl⟩ := List.mem_map.mp hx
    obtain ⟨w, -, rfl⟩ := List.mem_map.mp hy
    exact hlt.le

/-- Every tag of a message is met when iterating over it. -/
theorem exists_mem_iter {message : OpaqueMessage} {field : Tag × List OpaqueValue}
    (h : field ∈ message.fields.entries) : ∃ value, (field.1, value) ∈ message.iter := by
  obtain ⟨value, hvalue⟩ := List.exists_mem_of_ne_nil _ (message.nonempty field h)
  exact ⟨value, List.mem_flatMap.mpr ⟨field, h, List.mem_map.mpr ⟨value, hvalue, rfl⟩⟩⟩

/-- Inserting above all tags, or at the last one, puts the value at the end. -/
theorem iter_insert {message : OpaqueMessage} {tag : Tag} (value : OpaqueValue)
    (h : ∀ item ∈ message.iter, item.1 ≤ tag) :
    (message.insert tag value).iter = message.iter ++ [(tag, value)] := by
  have hle : ∀ field ∈ message.fields.entries, field.1 ≤ tag := fun field hfield => by
    obtain ⟨value, hvalue⟩ := exists_mem_iter hfield
    exact h _ hvalue
  have hsorted := message.fields.sorted
  rw [iter_eq, iter_eq]
  change listed (SortedMap.upsertEntries tag (push value) message.fields.entries) = _
  rcases List.eq_nil_or_concat message.fields.entries with hnil | ⟨init, last, hlast⟩
  · simp [hnil, SortedMap.upsertEntries, listed, push]
  · rw [List.concat_eq_append] at hlast
    rw [hlast] at hle hsorted ⊢
    have hbelow : ∀ field ∈ init, field.1 < last.1 := fun field hfield =>
      (List.pairwise_append.mp hsorted).2.2 field hfield last (by simp)
    rcases (hle last (by simp)).lt_or_eq with hlt | rfl
    · rw [SortedMap.upsertEntries_of_lt]
      · simp [listed, push]
      · intro field hfield
        rcases List.mem_append.mp hfield with hfield | hfield
        · exact (hbelow field hfield).trans hlt
        · rwa [List.mem_singleton.mp hfield]
    · obtain ⟨tag, values⟩ := last
      rw [SortedMap.upsertEntries_last (push value) values hbelow]
      simp [listed, push]

/-- Inserting values one after the other. -/
def insertAll (message : OpaqueMessage) (items : List (Tag × OpaqueValue)) : OpaqueMessage :=
  items.foldl (fun message item => message.insert item.1 item.2) message

/-- Values inserted in ascending order are listed in that order. -/
theorem iter_insertAll (message : OpaqueMessage) (items : List (Tag × OpaqueValue))
    (h : (message.iter ++ items).Pairwise fun a b => a.1 ≤ b.1) :
    (message.insertAll items).iter = message.iter ++ items := by
  induction items generalizing message with
  | nil => simp [insertAll]
  | cons item items ih =>
    have hinsert : (message.insert item.1 item.2).iter = message.iter ++ [item] :=
      iter_insert item.2 fun a ha => (List.pairwise_append.mp h).2.2 a ha item (by simp)
    have hrest := ih (message.insert item.1 item.2) (by simpa [hinsert] using h)
    rw [hinsert] at hrest
    simpa [insertAll] using hrest

/-- A group of values for a tag above all others is one more entry. -/
theorem entries_insertAll_group (message : OpaqueMessage) {tag : Tag}
    (hbelow : ∀ field ∈ message.fields.entries, field.1 < tag) {values : List OpaqueValue}
    (hne : values ≠ []) :
    (message.insertAll (values.map fun value => (tag, value))).fields.entries =
      message.fields.entries ++ [(tag, values)] := by
  have more (values before : List OpaqueValue) (message' : OpaqueMessage)
      (h : message'.fields.entries = message.fields.entries ++ [(tag, before)]) :
      (message'.insertAll (values.map fun value => (tag, value))).fields.entries =
        message.fields.entries ++ [(tag, before ++ values)] := by
    induction values generalizing before message' with
    | nil => simpa [insertAll] using h
    | cons value values ih =>
      have hinsert : (message'.insert tag value).fields.entries =
          message.fields.entries ++ [(tag, before ++ [value])] := by
        change SortedMap.upsertEntries tag (push value) message'.fields.entries = _
        rw [h, SortedMap.upsertEntries_last (push value) before hbelow]
        rfl
      simpa [insertAll] using ih (before ++ [value]) (message'.insert tag value) hinsert
  obtain ⟨value, values, rfl⟩ := List.exists_cons_of_ne_nil hne
  have hinsert : (message.insert tag value).fields.entries =
      message.fields.entries ++ [(tag, [value])] :=
    SortedMap.upsertEntries_of_lt (push value) hbelow
  simpa [insertAll] using more values [value] (message.insert tag value) hinsert

theorem insertAll_append (message : OpaqueMessage) (items items' : List (Tag × OpaqueValue)) :
    message.insertAll (items ++ items') = (message.insertAll items).insertAll items' :=
  List.foldl_append ..

/-- Inserting what a message lists builds that message. -/
theorem fromIter_iter (message : OpaqueMessage) : fromIter message.iter = message := by
  have build (entries : List (Tag × List OpaqueValue))
      (hsorted : entries.Pairwise fun a b => a.1 < b.1) (hne : ∀ field ∈ entries, field.2 ≠ []) :
      (new.insertAll (listed entries)).fields.entries = entries := by
    induction entries using List.reverseRecOn with
    | nil => rfl
    | append_singleton init field ih =>
      obtain ⟨hinit, -, hbelow⟩ := List.pairwise_append.mp hsorted
      have hbuilt := ih hinit fun field hfield => hne field (List.mem_append_left _ hfield)
      have hlisted : listed (init ++ [field]) =
          listed init ++ field.2.map fun value => (field.1, value) := by
        simp [listed]
      rw [hlisted, insertAll_append, entries_insertAll_group, hbuilt]
      · rw [hbuilt]
        exact fun a ha => hbelow a ha field (by simp)
      · exact hne field (by simp)
  refine OpaqueMessage.ext (SortedMap.ext ?_)
  exact build message.fields.entries message.fields.sorted message.nonempty

theorem records_cons (tag : Tag) (value : OpaqueValue) (items : List (Tag × OpaqueValue)) :
    records ((tag, value) :: items) = value.record tag.val :: records items := rfl

theorem encodeFields_eq (items : List (Tag × OpaqueValue)) (tw : TagWriter) :
    encodeFields items tw = tw.encodeRecords (records items) := by
  induction items generalizing tw with
  | nil => rfl
  | cons item items ih =>
    obtain ⟨tag, value⟩ := item
    rw [records_cons, encodeFields, TagWriter.encodeRecords, OpaqueValue.encodeField]
    simp only [OpaqueValue.record]
    cases tw.encodeKey tag.val value.wireType with
    | none => rfl
    | some key => simp [ih]

theorem prependFields_eq (items : List (Tag × OpaqueValue)) (buf : Bytes) (tw : TagRevWriter) :
    prependFields items buf tw = tw.prependRecords buf (records items) := by
  induction items generalizing buf tw with
  | nil => rfl
  | cons item items ih =>
    obtain ⟨tag, value⟩ := item
    rw [records_cons, prependFields, TagRevWriter.prependRecords, OpaqueValue.prependField]
    simp only [OpaqueValue.record]
    cases tw.beginField tag.val value.wireType buf with
    | none => rfl
    | some begun => simp [ih, OpaqueValue.prependValue_eq]

theorem measureFields_eq (items : List (Tag × OpaqueValue)) (tm : TagMeasurer) :
    measureFields items tm = (tm.recordsLen (records items)).map Prod.fst := by
  induction items generalizing tm with
  | nil => rfl
  | cons item items ih =>
    obtain ⟨tag, value⟩ := item
    rw [records_cons, measureFields, TagMeasurer.recordsLen]
    simp only [OpaqueValue.record]
    cases tm.keyLen tag.val with
    | none => rfl
    | some key =>
      simp only [Option.bind_eq_bind, Option.bind_some, ih]
      cases TagMeasurer.recordsLen key.2 (records items) with
      | none => rfl
      | some rest => simp [OpaqueValue.encodeValue_length]

theorem records_pairwise {items : List (Tag × OpaqueValue)}
    (h : items.Pairwise fun a b => a.1 ≤ b.1) :
    (records items).Pairwise fun r r' => r.tag ≤ r'.tag := by
  rw [records, List.pairwise_map]
  exact h

theorem wellFormed_records {items : List (Tag × OpaqueValue)}
    (h : items.Pairwise fun a b => a.1 ≤ b.1) : WellFormed (records items) where
  ascending := ascending_of_pairwise (fun r _ => Nat.zero_le r.tag) (records_pairwise h)
  tag_lt r hr := by
    obtain ⟨item, -, rfl⟩ := List.mem_map.mp hr
    exact item.1.isLt
  complete r hr := by
    obtain ⟨item, -, rfl⟩ := List.mem_map.mp hr
    exact item.2.complete

/-- The three encoders of a message write its records. -/
theorem encoders_agree (message : OpaqueMessage) :
    codec.rawEncode message = some (wireRecords 0 (records message.iter)) ∧
      (∀ buf, codec.rawPrepend message buf =
        some (wireRecords 0 (records message.iter) ++ buf)) ∧
      codec.rawEncodedLen message = some (wireRecords 0 (records message.iter)).length := by
  have hwell := wellFormed_records message.iter_ascending
  refine ⟨?_, fun buf => ?_, ?_⟩
  · change (encodeFields message.iter TagWriter.new).bind _ = _
    rw [encodeFields_eq, TagWriter.new, encodeRecords_of_ascending hwell.ascending]
    rfl
  · have hempty : RevWritten [] buf buf TagRevWriter.new := ⟨rfl, rfl⟩
    obtain ⟨buf', tw, hrev, h'⟩ := hempty.prependRecords (records message.iter)
      (by simpa using records_pairwise message.iter_ascending)
    change (prependFields message.iter.reverse buf TagRevWriter.new).bind _ = _
    rw [prependFields_eq, records, List.map_reverse, ← records, hrev]
    simpa using h'.finalize
  · change measureFields message.iter (.runtime 0) = _
    rw [measureFields_eq, recordsLen_of_ascending hwell.ascending]
    rfl

theorem regular_rawDecodeField (mode : DecodingMode) (tag : Nat) (wireType : WireType)
    (message : OpaqueMessage) : Program.Regular (rawDecodeField mode tag wireType message) :=
  (OpaqueValue.regular_decodeValue mode wireType).map _

theorem regular_codec : codec.Regular where
  rawDecodeField mode _ tag wireType _ message := regular_rawDecodeField mode tag wireType message
  rawDecodeFieldDistinguished mode _ tag wireType _ message :=
    (regular_rawDecodeField mode tag wireType message).map _

theorem parse_rawDecodeField (mode : DecodingMode) (tag : Tag) (value : OpaqueValue)
    (message : OpaqueMessage) (rest : Bytes) :
    (rawDecodeField mode tag.val value.wireType message).parse (value.encodeValue ++ rest) =
      .ok ⟨message.insert tag value, .canonical, rest⟩ := by
  rw [rawDecodeField, bind_eq, parse_bind, OpaqueValue.parse_decodeValue]
  simp [parse, Except.map, Parsed.lower]

/-- Decoding fields inserts their values. -/
theorem fieldRun_records (mode : DecodingMode) (depth last : Nat) (lastTag : Option Nat)
    (message : OpaqueMessage) {items : List (Tag × OpaqueValue)}
    (h : Ascending last (records items)) :
    FieldRun (codec.rawDecodeField mode depth) last lastTag message
      (wireRecords last (records items)) .canonical (message.insertAll items) := by
  induction items generalizing last lastTag message with
  | nil => exact .nil
  | cons item items ih =>
    obtain ⟨tag, value⟩ := item
    have hrest := ih tag.val (some tag.val) (message.insert tag value) h.2
    have hfield := parse_rawDecodeField mode tag value message (wireRecords tag.val (records items))
    have hcons : FieldRun (codec.rawDecodeField mode depth) last lastTag message _ _ _ :=
      .cons h.1 tag.isLt hfield hrest
    simpa [records, wireRecords, OpaqueValue.record, insertAll] using hcons

/-- Whatever is decoded is a list of values, inserted one after the other. -/
theorem records_of_fieldRun {mode : DecodingMode} {depth last : Nat} {lastTag : Option Nat}
    {message message' : OpaqueMessage} {bytes : Bytes} {lowest : Canonicity}
    (h : FieldRun (codec.rawDecodeField mode depth) last lastTag message bytes lowest message') :
    ∃ items, Ascending last (records items) ∧ bytes = wireRecords last (records items) ∧
      message' = message.insertAll items := by
  induction h with
  | nil => exact ⟨[], trivial, rfl, rfl⟩
  | @cons last tag lastTag wireType s s' s'' rest rest' lowest lowest' hle htag hfield _ ih =>
    obtain ⟨items, hascending, rfl, rfl⟩ := ih
    change (rawDecodeField mode tag wireType s).parse rest = _ at hfield
    rw [rawDecodeField, bind_eq, parse_bind] at hfield
    cases hvalue : (OpaqueValue.decodeValue mode wireType).parse rest with
    | error fault => simp [hvalue] at hfield
    | ok parsed =>
      obtain ⟨hwire, hrest⟩ := OpaqueValue.parse_decodeValue_eq_ok hvalue
      simp only [hvalue] at hfield
      obtain ⟨rfl, -, hleft⟩ := Parsed.mk.inj (Except.ok.inj hfield)
      replace hleft : parsed.rest = _ := hleft
      refine ⟨(⟨tag, htag⟩, parsed.value) :: items, ⟨hle, hascending⟩, ?_, ?_⟩
      · rw [hrest, hleft]
        simp [records, wireRecords, OpaqueValue.record, hwire]
      · have hfin : Fin.ofNat (2 ^ 32) tag = ⟨tag, htag⟩ := Fin.ext (Nat.mod_eq_of_lt htag)
        simp only [hfin]
        rfl

section
variable {β : Type} [Buf β]

/-- Decoding a buffer is inserting the values of its fields. -/
theorem decode_eq_ok {buf : β} {message : OpaqueMessage} :
    codec.decode buf = .ok message ↔
      ∃ items, Ascending 0 (records items) ∧ Buf.bytes buf = wireRecords 0 (records items) ∧
        message = fromIter items := by
  rw [MessageCodec.decode, MessageCodec.decodeCapped_eq_ok regular_codec]
  simp only [MessageCodec.merge_eq,
    parse_fieldsFrom_iff (regular_codec.rawDecodeField .owned recursionLimit)]
  constructor
  · rintro ⟨lowest, rest, -, hrun⟩
    exact records_of_fieldRun hrun
  · rintro ⟨items, hascending, hbytes, rfl⟩
    refine ⟨.canonical, [], rfl, ?_⟩
    rw [hbytes]
    exact fieldRun_records .owned recursionLimit 0 none new hascending

/-- The fields of a message, as they are listed, decode to it. -/
theorem decode_of_iter {buf : β} {message : OpaqueMessage}
    (h : Buf.bytes buf = wireRecords 0 (records message.iter)) :
    codec.decode buf = .ok message :=
  decode_eq_ok.mpr ⟨message.iter, (wellFormed_records message.iter_ascending).ascending, h,
    (fromIter_iter message).symm⟩

theorem pairwise_of_ascending {items : List (Tag × OpaqueValue)} {last : Nat}
    (h : Ascending last (records items)) :
    (∀ item ∈ items, last ≤ item.1.val) ∧ items.Pairwise fun a b => a.1 ≤ b.1 := by
  induction items generalizing last with
  | nil => exact ⟨by simp, .nil⟩
  | cons item items ih =>
    obtain ⟨hle, hpairs⟩ := ih h.2
    have hlast : last ≤ item.1.val := h.1
    refine ⟨fun a ha => ?_, List.pairwise_cons.mpr ⟨fun a ha => hle a ha, hpairs⟩⟩
    rcases List.mem_cons.mp ha with rfl | ha
    · exact hlast
    · exact hlast.trans (hle a ha)

/-- A decoded message lists exactly the fields it was decoded from. -/
theorem bytes_of_decode {buf : β} {message : OpaqueMessage} (h : codec.decode buf = .ok message) :
    Buf.bytes buf = wireRecords 0 (records message.iter) := by
  obtain ⟨items, hascending, hbytes, rfl⟩ := decode_eq_ok.mp h
  have hiter : (fromIter items).iter = items :=
    iter_insertAll new items (pairwise_of_ascending hascending).2
  rw [hbytes, hiter]

/-- Every sequence of fields lists some message. -/
theorem exists_items {recs : List Record} (htag : ∀ r ∈ recs, r.tag < 2 ^ 32)
    (hcomplete : ∀ r ∈ recs, r.wireType.Complete r.payload) :
    ∃ items, records items = recs := by
  induction recs with
  | nil => exact ⟨[], rfl⟩
  | cons r recs ih =>
    obtain ⟨items, rfl⟩ := ih (fun a ha => htag a (List.mem_cons_of_mem _ ha))
      fun a ha => hcomplete a (List.mem_cons_of_mem _ ha)
    obtain ⟨value, hwire, hpayload⟩ := (hcomplete r (by simp)).exists_value
    refine ⟨(⟨r.tag, htag r (by simp)⟩, value) :: items, ?_⟩
    rw [records_cons, OpaqueValue.record, hwire, hpayload]

/-- Opaque messages are in bijection with the well-formed encodings. Decoding
succeeds on exactly the byte strings that are fields in order of their tags,
each with a complete value, however the bytes are stored; what was decoded
encodes to the same bytes; and every message, thus every one built by
insertions, has one encoding, which both encoders write, which is as long as
was announced, and which decodes to the message. -/
theorem opaqueMessage_bijection :
    (∀ buf : β, (∃ message, codec.decode buf = .ok message) ↔ IsFieldSequence (Buf.bytes buf)) ∧
      (∀ (buf : β) (message : OpaqueMessage), codec.decode buf = .ok message →
        codec.encodeToVec message = some (Buf.bytes buf)) ∧
      ∀ message : OpaqueMessage, ∃ bytes, codec.encodeToVec message = some bytes ∧
        (∀ buf, codec.prepend message buf = some (bytes ++ buf)) ∧
        codec.encodedLen message = some bytes.length ∧
        ∀ buf : β, Buf.bytes buf = bytes → codec.decode buf = .ok message := by
  have encodeToVec (message : OpaqueMessage) :
      codec.encodeToVec message = some (wireRecords 0 (records message.iter)) := by
    obtain ⟨hencode, -, hlen⟩ := encoders_agree message
    simp [MessageCodec.encodeToVec, MessageCodec.encodedLen, hlen, hencode]
  refine ⟨fun buf => ⟨?_, ?_⟩, fun buf message h => ?_, fun message => ?_⟩
  · rintro ⟨message, h⟩
    exact ⟨_, wellFormed_records message.iter_ascending, bytes_of_decode h⟩
  · rintro ⟨recs, hwell, hbytes⟩
    obtain ⟨items, rfl⟩ := exists_items hwell.tag_lt hwell.complete
    exact ⟨_, decode_eq_ok.mpr ⟨items, hwell.ascending, hbytes, rfl⟩⟩
  · rw [encodeToVec, bytes_of_decode h]
  · obtain ⟨-, hprepend, hlen⟩ := encoders_agree message
    exact ⟨_, encodeToVec message, hprepend, hlen, fun buf => decode_of_iter⟩

end

end OpaqueMessage

end Bilrost
