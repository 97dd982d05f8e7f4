import Bilrost.Schema.MessageReadBack
import Bilrost.Schema.Values

/-!
JSON values that are made into messages of the type `Value`, encoded, decoded
again and converted back. The conversions are inverse to each other on their
own; that the message comes back from its bytes is an induction over the value,
with the depth of recursion that is left.
-/

namespace Bilrost

namespace Types

namespace Value

/-- What the encoding of values makes use of: what is too deep is ignored by the
approximations. -/
def features : Features := ⟨False, False, False, True⟩

theorem built_codec : Built features (.message codec) := built trivial

section
variable {way : Way} {mode : DecodingMode} {depth : Nat}

/-- What the message does is what its oneof does, with the same message in it. -/
theorem readsBack_of_layer {value : Value} (h : (layer codec).ReadsBack way mode depth value) :
    codec.ReadsBack way mode depth value := by
  have hmerge := (readsAs_codec mode depth).mergeBy way
  intro bytes hencode hlt
  rw [writesAs_codec.rawEncode trivial] at hencode
  have hempty : (layer codec).empty = codec.empty := rfl
  rw [hmerge, ← hempty]
  exact h bytes hencode hlt

/-- A value in another one takes a level of recursion. -/
theorem readsBack_nested {depth : Nat} {value : Value}
    (ih : ∀ depth, value.levels ≤ depth → codec.ReadsBack way mode depth value)
    (hlevels : value.levels + 1 ≤ depth) : codec.nested.ReadsBack way mode true depth value := by
  obtain ⟨depth, rfl⟩ : ∃ d, depth = d + 1 := Nat.exists_eq_succ_of_ne_zero (by omega)
  have hwrites : codec.Writes (¬features.hashed) := built_codec.writes id
  exact (ih depth (Nat.le_of_succ_le_succ hlevels)).nested hwrites (.inl rfl)

theorem readsBack_structFields {fields : StructValue}
    (h : ∀ e ∈ fields.entries, codec.nested.ReadsBack way mode true depth e.2) :
    (structFields codec).ReadsBack (¬features.hashed) way mode depth fields := by
  have hstring : DelimitedScalar.string.scalar.Standard :=
    .delimited (DelimitedScalar.lawful_stringBy _)
  have hkey : Built features (.value DelimitedScalar.string.scalar.codec) := .scalar hstring
  have hval : Built features (.value codec.nested) := .nested built_codec
  have hmap : Built features (.value (DelimitedScalar.string.scalar.codec.map codec.nested
      (Collection.btreeMap String Value))) := .map (.btreeMap String Value) hkey hval
  apply ValueCodec.ReadsBack.plain hmap.cuts (hmap.writes id)
  · exact SortedMap.isEmpty_iff.mp
  · intro _
    apply ValueCodec.ReadsBack.map hkey.cuts hval.cuts (hkey.writes id) (hval.writes id)
    · exact fun e _ => hstring.readsBack way mode true depth e.1
    · exact h
    · exact Collection.rebuilds_btreeMap way fields

theorem readsBack_listValues {values : ListValue}
    (h : ∀ value ∈ values, codec.nested.ReadsBack way mode true depth value) :
    (listValues codec).ReadsBack (¬features.hashed) way mode depth values := by
  have hitem : Built features (.value codec.nested) := .nested built_codec
  have hpacked : Built features (.value (codec.nested.packed (Collection.vec Value))) :=
    .packed (.vec Value) hitem
  apply ValueCodec.ReadsBack.packedField (hpacked.writes id)
  · exact List.isEmpty_iff.mp
  · exact .packed hitem.cuts (hitem.writes id) h (Collection.rebuilds_vec way values)

/-- Every variant is read back, however empty it is. -/
theorem readsBack_variant {value : Value}
    (h : ∀ v ∈ view value, (variantCodec codec v.1).ReadsBack way mode true depth v.2) :
    codec.ReadsBack way mode depth value := by
  apply readsBack_of_layer
  apply Built.readsBack_single id (sound_layer codec) (standard_layer codec)
    (built_oneof built_codec)
  apply Oneof.readsBack (nodup_tags codec)
  · exact fun i => (built_variantCodec built_codec i).cuts
  · exact fun i => (built_variantCodec built_codec i).writes id
  · exact h

/-- A value is read back at every depth that it nests within. -/
theorem readsBack (value : Value) {depth : Nat} (h : value.levels ≤ depth) :
    codec.ReadsBack way mode depth value := by
  have hfloat : FixedScalar.f64.scalar.Standard := .fixed (FixedScalar.lawful_ofBits _)
  have hsigned : VarintScalar.i64.scalar.Standard := .varint (VarintScalar.lawful_signed le_rfl)
  have hunsigned : VarintScalar.u64.scalar.Standard :=
    .varint (VarintScalar.lawful_unsigned le_rfl)
  have hstring : DelimitedScalar.string.scalar.Standard :=
    .delimited (DelimitedScalar.lawful_stringBy _)
  have hbool : VarintScalar.bool.scalar.Standard := .varint VarintScalar.lawful_bool
  apply readsBack_variant
  induction value using cases_view generalizing depth with
  | null =>
      rintro v ⟨⟩
  | float value =>
      rintro v ⟨⟩
      exact hfloat.readsBack way mode true depth value
  | signed value =>
      rintro v ⟨⟩
      exact hsigned.readsBack way mode true depth value
  | unsigned value =>
      rintro v ⟨⟩
      exact hunsigned.readsBack way mode true depth value
  | string value =>
      rintro v ⟨⟩
      exact hstring.readsBack way mode true depth value
  | bool value =>
      rintro v ⟨⟩
      exact hbool.readsBack way mode true depth value
  | struct fields ih =>
      intro v hv
      obtain rfl := Option.some.inj ((toVariant_ofStruct fields).symm.trans hv)
      obtain ⟨d, rfl⟩ : ∃ d, depth = d + 1 := Nat.exists_eq_succ_of_ne_zero (by
        have hpos : 0 < (ofStruct fields).levels := Nat.succ_pos _
        omega)
      have hfields := built_structFields built_codec
      have hvalues : ∀ e ∈ fields.entries, codec.nested.ReadsBack way mode true d e.2 :=
        fun e he => readsBack_nested (fun _ hdepth => readsBack_variant (ih e he hdepth))
          (levels_ofStruct.mp h e he)
      have hback : ((structFields codec).derived 1).ReadsBack way mode d fields :=
        Built.readsBack_derived id (by decide) hfields (readsBack_structFields hvalues)
      exact hback.nested ((hfields.derived (by decide)).writes id) (.inl rfl)
  | list values ih =>
      intro v hv
      obtain rfl := Option.some.inj ((toVariant_ofList values).symm.trans hv)
      obtain ⟨d, rfl⟩ : ∃ d, depth = d + 1 := Nat.exists_eq_succ_of_ne_zero (by
        have hpos : 0 < (ofList values).levels := Nat.succ_pos _
        omega)
      have hfield := built_listValues built_codec
      have hvalues : ∀ v ∈ values, codec.nested.ReadsBack way mode true d v :=
        fun v hv => readsBack_nested (fun _ hdepth => readsBack_variant (ih v hv hdepth))
          (levels_ofList.mp h v hv)
      have hback : ((listValues codec).derived 1).ReadsBack way mode d values :=
        Built.readsBack_derived id (by decide) hfield (readsBack_listValues hvalues)
      exact hback.nested ((hfield.derived (by decide)).writes id) (.inl rfl)

end

end Value

/-- JSON values, numbers of any size and floats that are finite included, become
values that are the same when they have been encoded and decoded, as long as
they do not nest too deep, and are the same JSON values when they are converted
back. Only floats that are not finite cannot be converted back. -/
theorem json_survives {Number : Type} {numbers : JsonNumbers Number} (h : numbers.Documented) :
    (∀ json : Json Number, ∃ value, Value.fromJson numbers json = .ok value ∧
        Json.tryFrom numbers value = .ok json ∧
        (Value.codec.nestsWithin recursionLimit value →
          ∃ bytes, Value.codec.encodeToVec value = some bytes ∧
            (bytes.length < 2 ^ 64 → ∀ (β : Type) [Buf β] (buf : β), Buf.bytes buf = bytes →
              Value.codec.decode buf = .ok value))) ∧
      ∀ value, (∃ e, Json.tryFrom numbers value = .error e) ↔ value.holdsNonFinite := by
  constructor
  · intro json
    obtain ⟨value, hfrom, hback⟩ := Value.fromJson_returns h json
    have hwrites : Value.codec.Writes (¬Value.features.hashed) := Value.built_codec.writes id
    have hregular : Value.codec.Regular := Value.built_codec.regular
    obtain ⟨records, hwritten⟩ := hwrites value
    refine ⟨value, hfrom, hback, fun hnests => ⟨wireRecords 0 records, ?_, ?_⟩⟩
    · rw [hwrites.encodeToVec_eq]
      exact hwritten.encode
    · intro hlt β _ buf hbuf
      exact (Value.readsBack value hnests).decodeCapped hregular hwritten.encode hlt hbuf
  · exact Json.tryFrom_refuses h

/-- `serde_json::Number` without arbitrary precision. -/
inductive JsonNumber where
  | posInt (value : BitVec 64)
  | negInt (value : BitVec 64) (negative : value.msb = true)
  | float (value : BitVec 64) (finite : isFinite value = true)

/-- What is asked of the numbers; only floats are asked for their value as a
float. -/
def jsonNumbers : JsonNumbers JsonNumber where
  isI64
    | .posInt value => !value.msb
    | .negInt _ _ => true
    | .float _ _ => false
  asI64
    | .posInt value => if value.msb then none else some value
    | .negInt value _ => some value
    | .float _ _ => none
  isU64
    | .posInt _ => true
    | .negInt _ _ => false
    | .float _ _ => false
  asU64
    | .posInt value => some value
    | .negInt _ _ => none
    | .float _ _ => none
  asF64
    | .float value _ => some value
    | _ => none
  fromI64 value := if h : value.msb = true then .negInt value h else .posInt value
  fromU64 value := .posInt value
  fromF64 value := if h : isFinite value = true then some (.float value h) else none

theorem jsonNumbers_documented : jsonNumbers.Documented := by
  have hfloat {f : BitVec 64} {number : JsonNumber} (h : jsonNumbers.fromF64 f = some number) :
      ∃ finite, number = .float f finite := by
    simp only [jsonNumbers] at h
    split_ifs at h with hfinite
    exact ⟨hfinite, (Option.some.inj h).symm⟩
  constructor
  case one_of =>
    rintro (u | ⟨i, hi⟩ | ⟨f, hf⟩)
    · exact .inl ⟨u, rfl⟩
    · exact .inr (.inl ⟨i, hi, (dif_pos hi).symm⟩)
    · exact .inr (.inr ⟨f, dif_pos hf⟩)
  case fromI64_nonneg =>
    intro i hi
    exact dif_neg (by simp [hi])
  case isI64_fromU64 => exact fun _ => rfl
  case asI64_fromU64 =>
    intro u hu
    exact if_neg (by simp [hu])
  case isU64_fromU64 => exact fun _ => rfl
  case asU64_fromU64 => exact fun _ => rfl
  case isI64_fromI64 =>
    intro i
    simp only [jsonNumbers]
    split_ifs with hi <;> simp [hi]
  case asI64_fromI64 =>
    intro i
    simp only [jsonNumbers]
    split_ifs with hi <;> simp [hi]
  case isI64_fromF64 =>
    intro f number h
    obtain ⟨_, rfl⟩ := hfloat h
    rfl
  case isU64_fromF64 =>
    intro f number h
    obtain ⟨_, rfl⟩ := hfloat h
    rfl
  case asF64_fromF64 =>
    intro f number h
    obtain ⟨_, rfl⟩ := hfloat h
    rfl
  case fromF64_isSome =>
    intro f
    simp only [jsonNumbers]
    split_ifs with hfinite <;> simp [hfinite]

/-- An empty object and a number in a list. -/
def sampleJson : Json JsonNumber :=
  .array 2 fun i => if i.val = 0 then .object 0 Fin.elim0 (fun i => i.elim0) Fin.elim0
    else .number (.posInt 1)

def sampleValue : Value :=
  .list 2 fun i => if i.val = 0 then .struct 0 Fin.elim0 (fun i => i.elim0) Fin.elim0
    else .signed 1

theorem json_survives_sample :
    Value.fromJson jsonNumbers sampleJson = .ok sampleValue ∧
      Json.tryFrom jsonNumbers sampleValue = .ok sampleJson ∧
      Value.codec.encodeToVec sampleValue = some [29, 8, 5, 6, 2, 25, 0, 2, 8, 2] ∧
      Value.codec.decode ([29, 8, 5, 6, 2, 25, 0, 2, 8, 2] : Bytes) = .ok sampleValue := by
  have hlevels : Value.codec.nestsWithin recursionLimit sampleValue := by
    change sampleValue.levels ≤ 100
    decide +kernel
  have hencode : Value.codec.encodeToVec sampleValue = some [29, 8, 5, 6, 2, 25, 0, 2, 8, 2] := by
    decide +kernel
  have hfrom : Value.fromJson jsonNumbers sampleJson = .ok sampleValue := by
    refine Attempt.bind_eq_ok.mpr ⟨_, Family.collect_eq_ok.mpr ?_, rfl⟩
    intro i
    fin_cases i <;> rfl
  obtain ⟨value, hvalue, hback, hcodec⟩ := (json_survives jsonNumbers_documented).1 sampleJson
  obtain rfl : sampleValue = value := by
    rw [hfrom] at hvalue
    cases hvalue
    rfl
  obtain ⟨bytes, hbytes, hdecode⟩ := hcodec hlevels
  obtain rfl := Option.some.inj (hencode.symm.trans hbytes)
  exact ⟨hfrom, hback, hencode, hdecode (by decide) Bytes _ rfl⟩

end Types

end Bilrost
