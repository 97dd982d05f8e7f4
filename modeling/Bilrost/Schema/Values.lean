import Bilrost.Schema.Alike
import Bilrost.Types.JsonValue

/-!
The message type `Value`. It is a oneof that is a message of its own, and two of
its variants are messages that contain it again, in a map and in a list. What it
does is decided, to write it, by how deep the value is nested, and to read it,
by the depth that is left.
-/

namespace Bilrost

namespace Types

/-- `StructValue`: a message with a map as its only field. -/
abbrev StructValue : Type := SortedMap String Value

/-- `ListValue`: a message with a list as its only field. -/
abbrev ListValue : Type := List Value

namespace Value

/-- What the variants hold. -/
abbrev Variant : Fin 7 → Type
  | 0 => BitVec 64
  | 1 => BitVec 64
  | 2 => BitVec 64
  | 3 => String
  | 4 => Bool
  | 5 => StructValue
  | 6 => ListValue

def ofStruct (fields : StructValue) : Value :=
  .struct fields.entries.length (Family.keyOf fields) (Family.strictMono_keyOf fields)
    (Family.valueOf fields)

def ofList (values : ListValue) : Value := .list values.length values.get

/-- Null, or a variant and what it holds. -/
def toVariant : Value → Option ((i : Fin 7) × Variant i)
  | .null => none
  | .float value => some ⟨0, value⟩
  | .signed value => some ⟨1, value⟩
  | .unsigned value => some ⟨2, value⟩
  | .string value => some ⟨3, value⟩
  | .bool value => some ⟨4, value⟩
  | .struct _ key ascending value => some ⟨5, Family.toMap key ascending value⟩
  | .list _ value => some ⟨6, List.ofFn value⟩

def ofVariant : Option ((i : Fin 7) × Variant i) → Value
  | none => .null
  | some ⟨0, value⟩ => .float value
  | some ⟨1, value⟩ => .signed value
  | some ⟨2, value⟩ => .unsigned value
  | some ⟨3, value⟩ => .string value
  | some ⟨4, value⟩ => .bool value
  | some ⟨5, fields⟩ => ofStruct fields
  | some ⟨6, values⟩ => ofList values

theorem toVariant_ofStruct (fields : StructValue) :
    toVariant (ofStruct fields) = some ⟨5, fields⟩ := by
  rw [ofStruct, toVariant, Family.toMap_keyOf]

theorem toVariant_ofList (values : ListValue) :
    toVariant (ofList values) = some ⟨6, values⟩ := by
  rw [ofList, toVariant, List.ofFn_get]

theorem ofStruct_toMap {size : Nat} (key : Fin size → String) (ascending : StrictMono key)
    (value : Fin size → Value) :
    ofStruct (Family.toMap key ascending value) = .struct size key ascending value :=
  Family.of_toMap Value.struct key ascending value

theorem ofList_ofFn {length : Nat} (value : Fin length → Value) :
    ofList (List.ofFn value) = .list length value := Family.of_ofFn Value.list value

def view : Value ≃ Option ((i : Fin 7) × Variant i) where
  toFun := toVariant
  invFun := ofVariant
  left_inv value := by
    cases value with
    | struct size key ascending value => exact ofStruct_toMap key ascending value
    | list length value => exact ofList_ofFn value
    | _ => rfl
  right_inv held := by
    match held with
    | none | some ⟨0, _⟩ | some ⟨1, _⟩ | some ⟨2, _⟩ | some ⟨3, _⟩ | some ⟨4, _⟩ => rfl
    | some ⟨5, fields⟩ => exact toVariant_ofStruct fields
    | some ⟨6, values⟩ => exact toVariant_ofList values

/-- A value is none of the two that contain values, or it is one of them. -/
theorem cases_view {motive : Value → Prop} (null : motive .null)
    (float : ∀ value, motive (.float value)) (signed : ∀ value, motive (.signed value))
    (unsigned : ∀ value, motive (.unsigned value)) (string : ∀ value, motive (.string value))
    (bool : ∀ value, motive (.bool value))
    (struct : ∀ fields : StructValue, (∀ e ∈ fields.entries, motive e.2) → motive (ofStruct fields))
    (list : ∀ values : ListValue, (∀ value ∈ values, motive value) → motive (ofList values))
    (value : Value) : motive value := by
  induction value with
  | null => exact null
  | float value => exact float value
  | signed value => exact signed value
  | unsigned value => exact unsigned value
  | string value => exact string value
  | bool value => exact bool value
  | struct size key ascending value ih =>
      rw [← ofStruct_toMap]
      apply struct
      intro e he
      obtain ⟨i, rfl⟩ := Family.mem_toMap.mp he
      exact ih i
  | list length value ih =>
      rw [← ofList_ofFn]
      apply list
      intro v hv
      obtain ⟨i, rfl⟩ := List.mem_ofFn.mp hv
      exact ih i

section
variable (inner : MessageCodec Value)

/-- The field of `StructValue`, with the encoding of the values in it. -/
def structFields : FieldCodec StructValue :=
  (DelimitedScalar.string.scalar.codec.map inner.nested (Collection.btreeMap String Value)).plain
    (Collection.btreeMap String Value).emptyState

/-- The field of `ListValue`. -/
def listValues : FieldCodec ListValue := inner.nested.packedField (Collection.vec Value)

def variantCodec : (i : Fin 7) → ValueCodec (Variant i)
  | 0 => FixedScalar.f64.scalar.codec
  | 1 => VarintScalar.i64.scalar.codec
  | 2 => VarintScalar.u64.scalar.codec
  | 3 => DelimitedScalar.string.scalar.codec
  | 4 => VarintScalar.bool.scalar.codec
  | 5 => ((structFields inner).derived 1).nested
  | 6 => ((listValues inner).derived 1).nested

def oneof : Oneof Value where
  count := 7
  Ty := Variant
  tag i := i.val + 1
  codec := variantCodec inner
  view := view

/-- The oneof as a message, with the encoding of the values in its variants. -/
def layer : MessageCodec Value :=
  (Fields.single (oneof inner).field).message ((Fields.single (oneof inner).field).listed .trivial)

end

/-- The message to so many levels. -/
def approx : Nat → MessageCodec Value
  | 0 => layer (ignoring Value .null)
  | n + 1 => layer (approx n)

/-- How many messages are nested in each other in a value, apart from its own. -/
def levels : Value → Nat
  | .struct _ _ _ value => (Finset.univ.sup fun i => (value i).levels + 1) + 1
  | .list _ value => (Finset.univ.sup fun i => (value i).levels + 1) + 1
  | _ => 0

/-- The message type `Value`. -/
def codec : MessageCodec Value where
  empty := .null
  isEmpty value := (view value).isNone
  clear _ := .null
  rawEncode value := (approx value.levels).rawEncode value
  rawPrepend value := (approx value.levels).rawPrepend value
  rawEncodedLen value := (approx value.levels).rawEncodedLen value
  rawDecodeField mode depth := (approx depth).rawDecodeField mode depth
  rawDecodeFieldDistinguished mode depth := (approx depth).rawDecodeFieldDistinguished mode depth
  nestsWithin depth value := value.levels ≤ depth

theorem empty_approx (n : Nat) : (approx n).empty = .null := by
  cases n <;> rfl

theorem levels_ofStruct {fields : StructValue} {depth : Nat} :
    (ofStruct fields).levels ≤ depth + 1 ↔ ∀ e ∈ fields.entries, e.2.levels + 1 ≤ depth := by
  rw [ofStruct, levels, Nat.add_le_add_iff_right, Finset.sup_le_iff]
  constructor
  · intro h e he
    obtain ⟨i, rfl⟩ := List.mem_iff_get.mp he
    exact h i (Finset.mem_univ i)
  · intro h i _
    exact h _ (List.get_mem fields.entries i)

theorem levels_ofList {values : ListValue} {depth : Nat} :
    (ofList values).levels ≤ depth + 1 ↔ ∀ value ∈ values, value.levels + 1 ≤ depth := by
  rw [ofList, levels, Nat.add_le_add_iff_right, Finset.sup_le_iff]
  constructor
  · intro h value hvalue
    obtain ⟨i, rfl⟩ := List.mem_iff_get.mp hvalue
    exact h i (Finset.mem_univ i)
  · intro h i _
    exact h _ (List.get_mem values i)

section
variable {inner inner' : MessageCodec Value}

theorem empty_structFields (inner : MessageCodec Value) :
    ((structFields inner).derived 1).empty = SortedMap.empty := rfl

theorem empty_listValues (inner : MessageCodec Value) :
    ((listValues inner).derived 1).empty = [] := rfl

theorem readsAs_layer (hempty : inner.empty = inner'.empty) {mode : DecodingMode} {depth : Nat}
    (h : 1 < depth → inner.ReadsAs mode (depth - 1 - 1) inner') :
    (layer inner).ReadsAs mode depth (layer inner') := by
  have hvalue (hpos : 0 < depth - 1 → 1 < depth) :
      inner.nested.ReadsAs mode (depth - 1) inner'.nested :=
    MessageCodec.readsAs_nested hempty fun hdepth => h (hpos hdepth)
  have hvalue : inner.nested.ReadsAs mode (depth - 1) inner'.nested := hvalue (by omega)
  have hstruct : ((structFields inner).derived 1).ReadsAs mode (depth - 1)
      ((structFields inner').derived 1) := by
    apply Fields.readsAs_single
    apply FieldCodec.ReadsAs.tagged
    apply ValueCodec.ReadsAs.plain
    exact hvalue.map _ _
  have hlist : ((listValues inner).derived 1).ReadsAs mode (depth - 1)
      ((listValues inner').derived 1) := by
    apply Fields.readsAs_single
    apply FieldCodec.ReadsAs.tagged
    exact hvalue.packedField _
  apply Fields.readsAs_single
  apply Oneof.readsAs
  intro i
  match i with
  | 0 | 1 | 2 | 3 | 4 => exact .refl _
  | 5 =>
      have hempty := (empty_structFields inner).trans (empty_structFields inner').symm
      exact MessageCodec.readsAs_nested hempty fun _ => hstruct
  | 6 =>
      have hempty := (empty_listValues inner).trans (empty_listValues inner').symm
      exact MessageCodec.readsAs_nested hempty fun _ => hlist

/-- What is contained in a variant is a level deeper, and so are the values that
are contained in that. -/
def Contains (n : Nat) : (i : Fin 7) → Variant i → Prop
  | 5, fields => ∀ e ∈ SortedMap.entries fields, e.2.levels < n
  | 6, values => ∀ value ∈ values, value.levels < n
  | _, _ => True

theorem contains_view {n : Nat} {value : Value} (h : value.levels ≤ n) :
    ∀ v ∈ view value, Contains n v.1 v.2 := by
  have hdeeper {m : Nat} (hm : m + 1 ≤ n - 1) : m < n := by omega
  intro v hv
  induction value using cases_view with
  | null => cases hv
  | struct fields _ =>
      obtain rfl := Option.some.inj ((toVariant_ofStruct fields).symm.trans hv)
      have hfields := levels_ofStruct.mp (h.trans (by omega : n ≤ n - 1 + 1))
      exact fun e he => hdeeper (hfields e he)
  | list values _ =>
      obtain rfl := Option.some.inj ((toVariant_ofList values).symm.trans hv)
      have hvalues := levels_ofList.mp (h.trans (by omega : n ≤ n - 1 + 1))
      exact fun value hvalue => hdeeper (hvalues value hvalue)
  | _ =>
      obtain rfl := Option.some.inj hv
      trivial

theorem writesAs_layer {n : Nat} (h : inner.WritesAs (fun value => value.levels < n) inner') :
    (layer inner).WritesAs (fun value => value.levels ≤ n) (layer inner') := by
  have hstruct : ((structFields inner).derived 1).WritesAs (Contains n 5)
      ((structFields inner').derived 1) := by
    have hmap := h.nested.map DelimitedScalar.string.scalar.codec
      (Collection.btreeMap String Value) fun _ => rfl
    exact FieldCodec.writesAs_derived (hmap.plain _ 1)
  have hlist : ((listValues inner).derived 1).WritesAs (Contains n 6)
      ((listValues inner').derived 1) := by
    have hpacked := h.nested.packedField (Collection.vec Value) (fun _ => rfl) 1
    exact FieldCodec.writesAs_derived hpacked
  have hvariants (i : Fin 7) :
      (variantCodec inner i).WritesAs (Contains n i) (variantCodec inner' i) := by
    match i with
    | 0 | 1 | 2 | 3 | 4 => exact .refl _ _
    | 5 => exact hstruct.nested
    | 6 => exact hlist.nested
  have honeof : (oneof inner).field.WritesAs (fun value => ∀ v ∈ view value, Contains n v.1 v.2)
      (oneof inner').field := Oneof.writesAs hvariants
  exact (honeof.listed .trivial).imp fun value hvalue => contains_view hvalue

end

/-- Approximations read alike to the depth of the less precise one. -/
theorem readsAs_approx {m n depth : Nat} (hm : depth ≤ m) (hn : depth ≤ n) (mode : DecodingMode) :
    (approx m).ReadsAs mode depth (approx n) := by
  induction m generalizing n depth with
  | zero =>
      obtain rfl := Nat.le_zero.mp hm
      cases n with
      | zero => exact readsAs_layer rfl fun h => absurd h (by decide)
      | succ n => exact readsAs_layer (empty_approx n).symm fun h => absurd h (by decide)
  | succ m ih =>
      cases n with
      | zero =>
          obtain rfl := Nat.le_zero.mp hn
          exact readsAs_layer (empty_approx m) fun h => absurd h (by decide)
      | succ n =>
          apply readsAs_layer ((empty_approx m).trans (empty_approx n).symm)
          exact fun _ => ih (by omega) (by omega)

theorem writesAs_approx {m n : Nat} (h : m ≤ n) :
    (approx m).WritesAs (fun value => value.levels ≤ m) (approx n) := by
  have hempty {inner inner' : MessageCodec Value} :
      inner.WritesAs (fun value => value.levels < 0) inner' :=
    ⟨fun h => absurd h (Nat.not_lt_zero _), fun h => absurd h (Nat.not_lt_zero _),
      fun h => absurd h (Nat.not_lt_zero _)⟩
  induction m generalizing n with
  | zero =>
      cases n with
      | zero => exact writesAs_layer hempty
      | succ n => exact writesAs_layer hempty
  | succ m ih =>
      obtain ⟨n, rfl⟩ : ∃ n', n = n' + 1 := Nat.exists_eq_succ_of_ne_zero (by omega)
      apply writesAs_layer
      exact (ih (Nat.le_of_succ_le_succ h)).imp fun value => Nat.le_of_lt_succ

/-- The values in a value nest as deep as the levels say. -/
theorem nestsWithin_layer {inner : MessageCodec Value} {depth : Nat} (value : Value)
    (h : ∀ d, d + 1 < depth → ∀ v : Value, inner.nestsWithin d v ↔ v.levels ≤ d) :
    (layer inner).nestsWithin depth value ↔ value.levels ≤ depth := by
  have hnested {d : Nat} (hd : d < depth) (v : Value) :
      inner.nested.nestsWithin d v ↔ v.levels + 1 ≤ d := by
    constructor
    · rintro ⟨d, rfl, hv⟩
      exact Nat.succ_le_succ ((h d hd v).mp hv)
    · intro hv
      obtain ⟨d, rfl⟩ : ∃ d', d = d' + 1 := Nat.exists_eq_succ_of_ne_zero (by omega)
      exact ⟨d, rfl, (h d hd v).mpr (Nat.le_of_succ_le_succ hv)⟩
  have hlayer : (layer inner).nestsWithin depth value ↔
      ∀ v ∈ view value, (variantCodec inner v.1).nestsWithin depth v.2 :=
    Fields.nestsWithin_single _ _ _
  have hcontents {P : Nat → Prop} {contents : Value}
      (hsucc : ∀ d, contents.levels ≤ d + 1 ↔ P d) (hpos : 0 < contents.levels) :
      (∃ d, depth = d + 1 ∧ P d) ↔ contents.levels ≤ depth := by
    constructor
    · rintro ⟨d, rfl, hd⟩
      exact (hsucc d).mpr hd
    · intro hle
      obtain ⟨d, rfl⟩ : ∃ d', depth = d' + 1 := Nat.exists_eq_succ_of_ne_zero (by omega)
      exact ⟨d, rfl, (hsucc d).mp hle⟩
  rw [hlayer]
  induction value using cases_view with
  | null => exact iff_of_true (fun v hv => by cases hv) (Nat.zero_le depth)
  | struct fields _ =>
      have hview : view (ofStruct fields) = some ⟨5, fields⟩ := toVariant_ofStruct fields
      have hvariant : (variantCodec inner 5).nestsWithin depth fields ↔ ∃ d, depth = d + 1 ∧
          ∀ e ∈ fields.entries, True ∧ inner.nested.nestsWithin d e.2 :=
        exists_congr fun d => and_congr_right fun _ => Fields.nestsWithin_single _ _ _
      simp only [hview, Option.mem_some_iff, forall_eq', hvariant, true_and]
      rw [← hcontents (fun d => levels_ofStruct) (Nat.succ_pos _)]
      apply exists_congr
      intro d
      apply and_congr_right
      rintro rfl
      exact forall₂_congr fun e _ => hnested d.lt_succ_self e.2
  | list values _ =>
      have hview : view (ofList values) = some ⟨6, values⟩ := toVariant_ofList values
      have hvariant : (variantCodec inner 6).nestsWithin depth values ↔ ∃ d, depth = d + 1 ∧
          ∀ v ∈ values, inner.nested.nestsWithin d v :=
        exists_congr fun d => and_congr_right fun _ => Fields.nestsWithin_single _ _ _
      simp only [hview, Option.mem_some_iff, forall_eq', hvariant]
      rw [← hcontents (fun d => levels_ofList) (Nat.succ_pos _)]
      apply exists_congr
      intro d
      apply and_congr_right
      rintro rfl
      exact forall₂_congr fun v _ => hnested d.lt_succ_self v
  | _ => exact iff_of_true (fun v hv => by cases hv; trivial) (Nat.zero_le depth)

theorem nestsWithin_approx {n depth : Nat} (h : depth ≤ n) (value : Value) :
    (approx n).nestsWithin depth value ↔ value.levels ≤ depth := by
  induction n generalizing depth value with
  | zero => exact nestsWithin_layer value fun d hd => absurd hd (by omega)
  | succ n ih => exact nestsWithin_layer value fun d hd v => ih (by omega) v

section
variable (inner : MessageCodec Value)

theorem isEmpty_layer : (layer inner).isEmpty = fun value => (view value).isNone :=
  funext fun _ => Fields.isEmpty_single _ _ _

theorem clear_layer : (layer inner).clear = fun _ => .null := Fields.clear_single _ _

theorem same_layer : (layer inner).same = fun _ => Eq := by
  funext strict value value'
  cases strict with
  | true => rfl
  | false => exact propext (Fields.same_single _ _ _)

end

theorem sameTo (depth : Nat) : codec.SameTo depth (approx depth) where
  empty := (empty_approx depth).symm
  isEmpty := by cases depth <;> exact (isEmpty_layer _).symm
  clear := by cases depth <;> exact (clear_layer _).symm
  same := by cases depth <;> exact (same_layer _).symm
  nestsWithin := funext fun value => propext (nestsWithin_approx le_rfl value).symm
  rawEncode h := (writesAs_approx h).rawEncode le_rfl
  rawPrepend h := (writesAs_approx h).rawPrepend le_rfl
  rawEncodedLen h := (writesAs_approx h).rawEncodedLen le_rfl
  rawDecodeField mode _ h := (readsAs_approx le_rfl h mode).rawDecodeField
  rawDecodeFieldDistinguished mode _ h := (readsAs_approx le_rfl h mode).rawDecodeFieldDistinguished

section
variable (inner : MessageCodec Value)

theorem nodup_tags : (oneof inner).tags.Nodup := by
  have htags : (oneof inner).tags = [1, 2, 3, 4, 5, 6, 7] := rfl
  rw [htags]
  decide

theorem tag_lt {tag : Nat} (h : tag ∈ (oneof inner).field.tags) : tag < 32 := by
  have hmem : tag ∈ [1, 2, 3, 4, 5, 6, 7] := h
  fin_cases hmem <;> decide

theorem sound_layer : (Fields.single (oneof inner).field).Sound := by
  constructor
  · exact fun _ => List.cons_ne_nil _ _
  · exact fun _ => nodup_tags inner
  · exact List.pairwise_singleton _ _
  · exact fun _ tag htag => (tag_lt inner htag).trans (by decide)

theorem standard_layer : Fields.Writing.Standard (Fields.single (oneof inner).field)
    ((Fields.single (oneof inner).field).listed .trivial) :=
  .listed _ (List.pairwise_singleton _ _) (.inr ⟨rfl, fun _ _ htag => tag_lt inner htag⟩)

end

section
variable {allowed : Features} {inner : MessageCodec Value} (h : Built allowed (.message inner))
include h

theorem built_structFields : Built allowed (.field (structFields inner)) := by
  apply Built.plain
  · rfl
  · exact ⟨fun _ => SortedMap.isEmpty_iff, fun _ => rfl⟩
  · exact .map (.btreeMap String Value) (.scalar (.delimited (DelimitedScalar.lawful_stringBy _)))
      (.nested h)

theorem built_listValues : Built allowed (.field (listValues inner)) :=
  .packedField (.vec Value) (.nested h)

theorem built_variantCodec (i : Fin 7) : Built allowed (.value (variantCodec inner i)) := by
  match i with
  | 0 => exact .scalar (.fixed (FixedScalar.lawful_ofBits _))
  | 1 => exact .scalar (.varint (VarintScalar.lawful_signed le_rfl))
  | 2 => exact .scalar (.varint (VarintScalar.lawful_unsigned le_rfl))
  | 3 => exact .scalar (.delimited (DelimitedScalar.lawful_stringBy _))
  | 4 => exact .scalar (.varint VarintScalar.lawful_bool)
  | 5 => exact .nested ((built_structFields h).derived (by decide))
  | 6 => exact .nested ((built_listValues h).derived (by decide))

theorem built_oneof : Built allowed (.messageField (oneof inner).field) :=
  .oneof (built_variantCodec h)

theorem built_layer : Built allowed (.message (layer inner)) :=
  .fields (sound_layer inner) (standard_layer inner) (.inr (inferInstanceAs (Subsingleton Unit)))
    fun _ => built_oneof h

end

theorem built {allowed : Features} (h : allowed.ignored) : Built allowed (.message codec) := by
  have happrox (n : Nat) : Built allowed (.message (approx n)) := by
    induction n with
    | zero => exact built_layer (built_ignoring h _)
    | succ n ih => exact built_layer ih
  exact .recursive approx sameTo (fun value => ⟨value.levels, le_rfl⟩) happrox

/-- The message does with the values in it what it does itself. -/
theorem readsAs_codec (mode : DecodingMode) (depth : Nat) :
    codec.ReadsAs mode depth (layer codec) := by
  have hcodec {n d : Nat} (hd : d ≤ n) : (approx n).ReadsAs mode d codec := by
    have h := readsAs_approx hd le_rfl mode
    exact ⟨h.rawDecodeField, h.rawDecodeFieldDistinguished⟩
  have hlayer : (approx depth).ReadsAs mode depth (layer codec) := by
    cases depth with
    | zero =>
        have hempty : (ignoring Value .null).empty = codec.empty := rfl
        exact readsAs_layer hempty fun h => absurd h (Nat.not_lt_zero 1)
    | succ n =>
        apply readsAs_layer (empty_approx n)
        exact fun _ => hcodec (by omega)
  exact ⟨hlayer.rawDecodeField, hlayer.rawDecodeFieldDistinguished⟩

theorem writesAs_codec : codec.WritesAs (fun _ => True) (layer codec) := by
  have hcodec (n : Nat) : (approx n).WritesAs (fun value => value.levels < n) codec :=
    ⟨fun h => ((writesAs_approx h.le).rawEncode le_rfl).symm,
      fun h => ((writesAs_approx h.le).rawPrepend le_rfl).symm,
      fun h => ((writesAs_approx h.le).rawEncodedLen le_rfl).symm⟩
  have hlayer (value : Value) :
      (approx value.levels).WritesAs (fun v => v = value) (layer codec) := by
    have hnext : (approx value.levels).WritesAs (fun v => v.levels ≤ value.levels)
        (layer (approx value.levels)) := writesAs_approx (Nat.le_succ value.levels)
    have hinner := writesAs_layer (hcodec value.levels)
    constructor
    · rintro m rfl
      exact (hnext.rawEncode le_rfl).trans (hinner.rawEncode le_rfl)
    · rintro m rfl
      exact (hnext.rawPrepend le_rfl).trans (hinner.rawPrepend le_rfl)
    · rintro m rfl
      exact (hnext.rawEncodedLen le_rfl).trans (hinner.rawEncodedLen le_rfl)
  exact ⟨fun {value} _ => (hlayer value).rawEncode rfl,
    fun {value} _ => (hlayer value).rawPrepend rfl,
    fun {value} _ => (hlayer value).rawEncodedLen rfl⟩

end Value

end Types

end Bilrost
