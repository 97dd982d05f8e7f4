import Bilrost.Schema.Obtained
import Bilrost.Schema.WiderScalars

/-!
Changes of the type of a field that are compatible: wider numbers, options of
values, and lists of what was optional or an array. `Compatible` lists them, each
with the value of the new type that a value of the old one becomes and the value
of the old type, if any, that one of the new type is to those who know only the
old type. The old type is written as the new one is, and obtains from what the
new one writes just what is in its range.
-/

namespace Bilrost

open Program

namespace VarintScalar

variable {T T' : Type} {w w' : Nat}

/-- A field of a number, which is left out when it is zero. -/
def field [DecidableEq T] (s : VarintScalar T) : FieldCodec T :=
  s.scalar.codec.plain (EmptyState.single s.forOverwrite)

def narrowUnsigned (w : Nat) (value : BitVec w') : Option (BitVec w) :=
  if value.toNat < 2 ^ w then some (value.setWidth w) else none

def narrowSigned (w : Nat) (value : BitVec w') : Option (BitVec w) :=
  if -2 ^ (w - 1) ≤ value.toInt ∧ value.toInt < 2 ^ (w - 1) then some (value.setWidth w) else none

/-- The boolean that a number is read as, if it is the number of one. -/
def narrowBool (number : Bool → BitVec w) (value : BitVec w) : Option Bool :=
  if value = number false then some false else if value = number true then some true else none

theorem narrowUnsigned_eq_some (hle : w ≤ w') {value : BitVec w'} {narrow : BitVec w} :
    narrowUnsigned w value = some narrow ↔ narrow.setWidth w' = value := by
  rw [narrowUnsigned, Option.ite_none_right_eq_some, Option.some.injEq]
  constructor
  · rintro ⟨hlt, rfl⟩
    apply BitVec.eq_of_toNat_eq
    rw [BitVec.toNat_setWidth_of_le hle, BitVec.toNat_setWidth, Nat.mod_eq_of_lt hlt]
  · rintro rfl
    rw [BitVec.toNat_setWidth_of_le hle]
    exact ⟨narrow.isLt, by simp [hle]⟩

theorem narrowSigned_eq_some (hw : 0 < w) (hle : w ≤ w') {value : BitVec w'} {narrow : BitVec w} :
    narrowSigned w value = some narrow ↔ narrow.signExtend w' = value := by
  rw [narrowSigned, Option.ite_none_right_eq_some, Option.some.injEq,
    ← BitVec.signExtend_eq_setWidth_of_le value hle]
  have hpow : (2 : Int) ^ w = 2 * 2 ^ (w - 1) := by
    rw [← pow_succ', Nat.sub_add_cancel hw]
  constructor
  · rintro ⟨⟨hlow, hhigh⟩, rfl⟩
    apply BitVec.eq_of_toInt_eq
    rw [BitVec.toInt_signExtend_of_le hle, BitVec.toInt_signExtend_eq_toInt_bmod_of_le value hle]
    apply Int.bmod_eq_of_le_mul_two <;> push_cast <;> omega
  · rintro rfl
    rw [BitVec.toInt_signExtend_of_le hle]
    refine ⟨⟨narrow.le_toInt, narrow.toInt_lt⟩, ?_⟩
    apply BitVec.eq_of_toInt_eq
    rw [BitVec.toInt_signExtend_eq_toInt_bmod_of_le _ hle, BitVec.toInt_signExtend_of_le hle]
    have hlow := narrow.le_toInt
    have hhigh := narrow.toInt_lt
    apply Int.bmod_eq_of_le_mul_two <;> push_cast <;> omega

theorem narrowBool_eq_some {number : Bool → BitVec w} (hne : number false ≠ number true)
    {value : BitVec w} {narrow : Bool} :
    narrowBool number value = some narrow ↔ number narrow = value := by
  rw [narrowBool]
  cases narrow with
  | false => split_ifs <;> simp_all [eq_comm]
  | true => split_ifs <;> simp_all [eq_comm]

end VarintScalar

/-- One item or none. -/
def narrowOption {T : Type} : List T → Option (Option T)
  | [] => some none
  | [value] => some (some value)
  | _ => none

/-- As many items as the array has. -/
def exactly {T : Type} (n : Nat) (values : List T) : Option (List.Vector T n) :=
  if h : values.length = n then some ⟨values, h⟩ else none

/-- As many items as the array has, or none if they are all empty. -/
def narrowArray {T : Type} (n : Nat) (empty : T) : List T → Option (List.Vector T n)
  | [] => some (List.Vector.replicate n empty)
  | values => exactly n values

def narrowArrayOption {T : Type} (n : Nat) : List T → Option (Option (List.Vector T n))
  | [] => some none
  | values => (exactly n values).map some

section
variable {T : Type} {n : Nat} {values : List T} {arr : List.Vector T n}

end

/-- The compatible changes of a field. The types that a change is about are among
those given. -/
inductive FieldCodec.Compatible (Items : Part → Prop) : {T T' : Type} → FieldCodec T →
    FieldCodec T' → (T → T') → (T' → Option T) → Prop
  | unsigned {w w' : Nat} (hlt : w < w') (hle : w' ≤ 64) :
      Compatible Items (VarintScalar.unsigned w).field (VarintScalar.unsigned w').field
        (BitVec.setWidth w') (VarintScalar.narrowUnsigned w)
  | boolUnsigned {w : Nat} (hw : 0 < w) (hle : w ≤ 64) :
      Compatible Items VarintScalar.bool.field (VarintScalar.unsigned w).field
        (fun value => BitVec.ofNat w value.toNat)
        (VarintScalar.narrowBool fun value => BitVec.ofNat w value.toNat)
  | signed {w w' : Nat} (hw : 0 < w) (hlt : w < w') (hle : w' ≤ 64) :
      Compatible Items (VarintScalar.signed w).field (VarintScalar.signed w').field
        (BitVec.signExtend w') (VarintScalar.narrowSigned w)
  /-- `true` is minus one. -/
  | boolSigned {w : Nat} (hw : 0 < w) (hle : w ≤ 64) :
      Compatible Items VarintScalar.bool.field (VarintScalar.signed w).field
        (VarintScalar.ofBool w) (VarintScalar.narrowBool (VarintScalar.ofBool w))
  /-- The empty value is not there. -/
  | option {T : Type} {codec : ValueCodec T} {field : FieldCodec T} (h : codec.StandsIn field)
      (hcodec : Items (.value codec)) (hfield : Items (.field field)) :
      Compatible Items field codec.optional
        (fun value => if field.emptyState.isEmpty value then none else some value)
        fun value => some (value.getD field.forOverwrite)
  | arrayOption {T : Type} {item : ValueCodec T} {state : EmptyState T} {n : Nat} (form : Form)
      (hn : 0 < n) (hitem : Items (.value item))
      (hfield : Items (.field (form.arrayField item state n))) :
      Compatible Items (form.arrayField item state n) (form.arrayOptionField item n)
        (fun arr => if (state.array n).isEmpty arr then none else some arr)
        fun value => some (value.getD (List.Vector.replicate n item.forOverwrite))
  | optionItems {T : Type} {codec : ValueCodec T} (hcodec : Items (.value codec)) :
      Compatible Items codec.optional (codec.unpackedField (Collection.vec T)) Option.toList
        narrowOption
  /-- An array of empty items becomes a list without items. -/
  | arrayItems {T : Type} {item : ValueCodec T} {state : EmptyState T} {n : Nat} (form : Form)
      (hn : 0 < n) (hitem : Items (.value item))
      (hfield : Items (.field (form.arrayField item state n))) :
      Compatible Items (form.arrayField item state n) (form.field item (Collection.vec T))
        (fun arr => if (state.array n).isEmpty arr then [] else arr.toList)
        (narrowArray n item.forOverwrite)
  | arrayOptionItems {T : Type} {item : ValueCodec T} {n : Nat} (form : Form) (hn : 0 < n)
      (hitem : Items (.value item)) :
      Compatible Items (form.arrayOptionField item n) (form.field item (Collection.vec T))
        (fun value => value.elim [] List.Vector.toList) (narrowArrayOption n)

namespace FieldCodec

variable {T T' : Type}

/-- Two values are written as the same payloads. -/
def SharesPayloads (ordered : Prop) (codec : FieldCodec T) (value : T) (codec' : FieldCodec T')
    (value' : T') : Prop :=
  ∃ wireType payloads, codec.Written ordered value wireType payloads ∧
    codec'.Written ordered value' wireType payloads

variable {ordered : Prop} {codec : FieldCodec T} {codec' : FieldCodec T'} {value : T} {value' : T'}

/-- Fields that write the same values write the same payloads. -/
theorem WritesAll.sharesPayloads {wireType : WireType} {values : List (Option Bytes)}
    (h : codec.WritesAll ordered value wireType values)
    (h' : codec'.WritesAll ordered value' wireType values) :
    codec.SharesPayloads ordered value codec' value' := by
  obtain ⟨payloads, rfl, hwritten⟩ := h
  exact ⟨wireType, payloads, hwritten, h'.written⟩

end FieldCodec

namespace VarintScalar

variable {T T' : Type} {s : VarintScalar T} {s' : VarintScalar T'} {f : T → T'}
  {mode : DecodingMode} {depth : Nat}

theorem Lawful.reads_iff (h : s.Lawful) {n : Nat} (hn : n < 2 ^ 64) {value : T} :
    s.scalar.codec.Reads mode depth (varint n) value ↔ s.toUint64 value = n := by
  have hparse {read : Nat} {rest : Bytes} :
      Op.decodeVarint.parse (varint n) = some (read, rest) ↔ read = n ∧ rest = [] := by
    have hread : Op.decodeVarint.parse (varint n) = some (n, []) :=
      parses_decodeVarint.mpr ⟨hn, (List.append_nil _).symm⟩
    rw [hread, Option.some.injEq, Prod.mk.injEq, eq_comm, eq_comm (a := [])]
  rw [ValueCodec.Reads, ValueCodec.Means, Scalar.decodeBy_eq, parses_asCanonical,
    and_iff_left rfl]
  simp only [scalar, parses_op, hparse, parses_ofResult]
  constructor
  · rintro ⟨_, _, ⟨rfl, rfl⟩, hfrom, -⟩
    exact h.to_from hfrom
  · rintro rfl
    exact ⟨_, _, ⟨rfl, rfl⟩, h.from_to value, rfl⟩

/-- How a number is written as a field. -/
theorem Lawful.written_field [DecidableEq T] (h : s.Lawful) (ordered : Prop) (value : T) :
    s.field.Written ordered value .varint
      (if value = s.forOverwrite then [] else [varint (s.toUint64 value)]) := by
  have hwrites : s.scalar.codec.Writes ordered := Scalar.Standard.writes ordered (.varint h)
  have hpayload : s.scalar.codec.encodeValue value = some (varint (s.toUint64 value)) :=
    congrArg some (encodeVarint_eq _)
  have hwritten := (ValueCodec.guards_plain s.scalar.codec (EmptyState.single s.forOverwrite)).written
    hwrites hpayload
  have hempty : (EmptyState.single s.forOverwrite).isEmpty value = true ↔ value = s.forOverwrite :=
    decide_eq_true_iff
  simp only [ValueCodec.plain, hempty] at hwritten
  exact hwritten

/-- Numbers that stand for the same when they become wider, and are zero then only
if they are. -/
structure Covers [DecidableEq T] [DecidableEq T'] (s : VarintScalar T) (s' : VarintScalar T')
    (f : T → T') (narrow : T' → Option T) : Prop where
  lawful : s.Lawful
  lawful' : s'.Lawful
  emptyState : s.emptyState = some (EmptyState.single s.forOverwrite)
  emptyState' : s'.emptyState = some (EmptyState.single s'.forOverwrite)
  toUint64 (value : T) : s'.toUint64 (f value) = s.toUint64 value
  zero : f s.forOverwrite = s'.forOverwrite
  narrow {value' : T'} {value : T} : narrow value' = some value ↔ f value = value'

section
variable {w w' : Nat}

theorem covers_unsigned (hlt : w < w') (hle : w' ≤ 64) :
    (unsigned w).Covers (unsigned w') (BitVec.setWidth w') (narrowUnsigned w) where
  lawful := lawful_unsigned (by omega)
  lawful' := lawful_unsigned hle
  emptyState := rfl
  emptyState' := rfl
  toUint64 _ := BitVec.toNat_setWidth_of_le hlt.le
  zero := BitVec.setWidth_zero w' w
  narrow := narrowUnsigned_eq_some hlt.le

theorem covers_signed (hw : 0 < w) (hlt : w < w') (hle : w' ≤ 64) :
    (signed w).Covers (signed w') (BitVec.signExtend w') (narrowSigned w) where
  lawful := lawful_signed (by omega)
  lawful' := lawful_signed hle
  emptyState := rfl
  emptyState' := rfl
  toUint64 := toUint64_signExtend hw hlt.le
  zero := (BitVec.signExtend_eq_setWidth_of_msb_false BitVec.msb_zero).trans (BitVec.setWidth_zero w' w)
  narrow := narrowSigned_eq_some hw hlt.le

/-- A boolean is one of two numbers. -/
theorem Lawful.covers_bool {s : VarintScalar (BitVec w)} {number : Bool → BitVec w} (h : s.Lawful)
    (hstate : s.emptyState = some (EmptyState.single s.forOverwrite))
    (hto : ∀ value, s.toUint64 (number value) = bool.toUint64 value)
    (hzero : number false = s.forOverwrite) : bool.Covers s number (narrowBool number) where
  lawful := lawful_bool
  lawful' := h
  emptyState := rfl
  emptyState' := hstate
  toUint64 := hto
  zero := hzero
  narrow := narrowBool_eq_some fun heq =>
    Bool.false_ne_true (injective_of_toUint64 lawful_bool hto heq)

theorem covers_boolUnsigned (hw : 0 < w) (hle : w ≤ 64) : bool.Covers (unsigned w)
    (fun value => BitVec.ofNat w value.toNat) (narrowBool fun value => BitVec.ofNat w value.toNat) :=
  (lawful_unsigned hle).covers_bool rfl (toUint64_ofNat hw) rfl

theorem covers_boolSigned (hw : 0 < w) (hle : w ≤ 64) :
    bool.Covers (signed w) (ofBool w) (narrowBool (ofBool w)) :=
  (lawful_signed hle).covers_bool rfl (toUint64_ofBool hw) rfl

end

section
variable [DecidableEq T] [DecidableEq T'] {narrow : T' → Option T} (h : s.Covers s' f narrow)
include h

theorem Covers.injective : Function.Injective f := injective_of_toUint64 h.lawful h.toUint64

theorem Covers.sharesPayloads (ordered : Prop) (value : T) :
    s.field.SharesPayloads ordered value s'.field (f value) := by
  have hwritten := h.lawful'.written_field ordered (f value)
  simp only [h.toUint64, ← h.zero, h.injective.eq_iff] at hwritten
  exact ⟨_, _, h.lawful.written_field ordered value, hwritten⟩

theorem Covers.built {allowed : Features} :
    Built allowed (.field s.field) ∧ Built allowed (.field s'.field) :=
  ⟨.plain h.emptyState (Scalar.empties_single s.scalar) (.scalar (.varint h.lawful)),
    .plain h.emptyState' (Scalar.empties_single s'.scalar) (.scalar (.varint h.lawful'))⟩

theorem Covers.structural : Structural (.field s'.field) :=
  .plain h.emptyState' (Scalar.empties_single s'.scalar) (.scalar (.varint h.lawful'))

end

end VarintScalar

namespace ValueCodec

variable {T : Type} {codec item : ValueCodec T} {field : FieldCodec T} {state : EmptyState T}
  {ordered : Prop} {n : Nat}

/-- A value that is not empty is written like an optional one that is there. -/
theorem StandsIn.sharesPayloads (h : codec.StandsIn field) (hwrites : codec.Writes ordered)
    (value : T) : field.SharesPayloads ordered value codec.optional
      (if field.emptyState.isEmpty value then none else some value) := by
  obtain ⟨payload, hpayload⟩ := hwrites.encode value
  refine ⟨_, _, h.guards.written hwrites hpayload, ?_⟩
  split_ifs
  · exact codec.written_none
  · exact hwrites.written_some hpayload

end ValueCodec

/-- Items that are written in one form can be told apart. -/
theorem Form.fits {T : Type} {item : ValueCodec T} {ordered : Prop} (h : item.Writes ordered)
    {form : Form} {values : List T} {payloads : List Bytes}
    (hmap : values.map item.encodeValue = payloads.map some) (hne : payloads ≠ [])
    (hlt : ∀ payload ∈ form.spread payloads, payload.length < 2 ^ 64) :
    form.Fits item.wireType payloads [] := by
  have hlengths : ∀ payload ∈ payloads, payload.length < 2 ^ 64 := by
    intro payload hpayload
    cases form with
    | packed =>
        have hle := (List.sublist_flatten_of_mem hpayload).length_le
        have hregion := hlt _ List.mem_cons_self
        rw [List.length_append] at hregion
        omega
    | unpacked => exact hlt payload hpayload
  constructor
  · intro payload hpayload
    have hmem : some payload ∈ values.map item.encodeValue := hmap ▸ List.mem_map_of_mem hpayload
    obtain ⟨value, -, hvalue⟩ := List.mem_map.mp hmem
    exact h.complete hvalue fun _ => hlengths payload hpayload
  · rintro rfl
    have hregion := hlt _ List.mem_cons_self
    rw [List.length_append] at hregion
    omega
  · exact fun _ => hne
  · exact fun _ => noRepeat_nil

namespace ValueCodec

variable {T : Type} {codec item : ValueCodec T} {state : EmptyState T} {ordered : Prop} {n : Nat}

/-- A list with one item or none is written like the option of it. -/
theorem Writes.sharesPayloads_toList (h : codec.Writes ordered) (value : Option T) :
    codec.optional.SharesPayloads ordered value (codec.unpackedField (Collection.vec T))
      value.toList :=
  (h.writesAll_optional value).sharesPayloads (h.writesAll_vec value.toList)

end ValueCodec

/-- What items are written as when they are packed. -/
theorem ValueCodec.Writes.encodeDelimited_items {T : Type} {item : ValueCodec T} {ordered : Prop}
    (h : item.Writes ordered) {values : List T} {payloads : List Bytes}
    (hmap : values.map item.encodeValue = payloads.map some) :
    encodeDelimited (item.manyValuesEncodedLen values) (encodeAll item.encodeValue values) =
      some (varint payloads.flatten.length ++ payloads.flatten) := by
  have hall := h.encodeAll_eq hmap
  simp only [encodeDelimited, h.many hall, hall, encodeVarint_eq, Option.bind_eq_bind,
    Option.bind_some]

namespace Form

variable {T : Type} {item : ValueCodec T} {state : EmptyState T} {ordered : Prop} {n : Nat}

/-- How items are written in the form of a list of them. -/
theorem written_vec (h : item.Writes ordered) (form : Form) {values : List T}
    {payloads : List Bytes} (hmap : values.map item.encodeValue = payloads.map some) :
    (form.field item (Collection.vec T)).Written ordered values (form.wireType item.wireType)
      (if values.isEmpty then [] else form.spread payloads) := by
  have hvec : (Collection.vec T).Standard .structural := .vec T
  have hreversed (_ : ordered) : ∀ items : List T, (Collection.vec T).reversed items =
      ((Collection.vec T).iter items).reverse := hvec.reversed_iter not_false
  cases form with
  | packed =>
      exact (ValueCodec.guards_packedField item (Collection.vec T)).written
        (ValueCodec.writes_packedItems h.toPuts hreversed) (h.encodeDelimited_items hmap)
  | unpacked =>
      have hwritten := FieldCodec.WritesAll.written (hmap ▸ h.writesAll_vec values)
      cases values with
      | nil => exact List.map_eq_nil_iff.mp hmap.symm ▸ hwritten
      | cons => exact hwritten

theorem written_vec_nil (h : item.Writes ordered) (form : Form) :
    (form.field item (Collection.vec T)).Written ordered [] (form.wireType item.wireType) [] :=
  have hmap : ([] : List T).map item.encodeValue = ([] : List Bytes).map some := rfl
  written_vec h form hmap

/-- An array of empty items is not written. -/
theorem written_array (h : item.Writes ordered) (form : Form) {arr : List.Vector T n}
    {payloads : List Bytes} (hmap : arr.toList.map item.encodeValue = payloads.map some) :
    (form.arrayField item state n).Written ordered arr (form.wireType item.wireType)
      (if (state.array n).isEmpty arr then [] else form.spread payloads) := by
  cases form with
  | packed =>
      exact (ValueCodec.guards_packedArrayField item state n).written (h.packedArray n)
        (h.encodeDelimited_items hmap)
  | unpacked =>
      cases hempty : (state.array n).isEmpty arr with
      | true => exact ValueCodec.written_unpackedArrayField_empty item hempty
      | false =>
          exact FieldCodec.WritesAll.written (hmap ▸ h.written_unpackedArrayField hempty)

theorem written_arrayOption (h : item.Writes ordered) (form : Form) (hn : 0 < n)
    {arr : List.Vector T n} {payloads : List Bytes}
    (hmap : arr.toList.map item.encodeValue = payloads.map some) :
    (form.arrayOptionField item n).Written ordered (some arr) (form.wireType item.wireType)
      (form.spread payloads) := by
  cases form with
  | packed => exact (h.packedArray n).written_some (h.encodeDelimited_items hmap)
  | unpacked =>
      exact FieldCodec.WritesAll.written (hmap ▸ h.written_unpackedArrayOptionField hn arr)

theorem written_arrayOption_none (item : ValueCodec T) (n : Nat) (form : Form) :
    (form.arrayOptionField item n).Written ordered none (form.wireType item.wireType) [] := by
  cases form with
  | packed => exact (item.packedArray n).written_none
  | unpacked => exact ValueCodec.written_unpackedArrayOptionField_none item n

section
variable (h : item.Writes ordered) (form : Form) (hn : 0 < n)
include h hn

theorem sharesPayloads_arrayOption (arr : List.Vector T n) :
    (form.arrayField item state n).SharesPayloads ordered arr (form.arrayOptionField item n)
      (if (state.array n).isEmpty arr then none else some arr) := by
  obtain ⟨payloads, hmap, -⟩ := h.exists_encodeAll arr.toList
  refine ⟨_, _, written_array h form hmap, ?_⟩
  split_ifs
  · exact written_arrayOption_none item n form
  · exact written_arrayOption h form hn hmap

theorem sharesPayloads_arrayItems (arr : List.Vector T n) :
    (form.arrayField item state n).SharesPayloads ordered arr (form.field item (Collection.vec T))
      (if (state.array n).isEmpty arr then [] else arr.toList) := by
  obtain ⟨payloads, hmap, -⟩ := h.exists_encodeAll arr.toList
  have hitems : arr.toList ≠ [] := List.ne_nil_of_length_pos (arr.toList_length.symm ▸ hn)
  refine ⟨_, _, written_array h form hmap, ?_⟩
  split_ifs
  · exact written_vec_nil h form
  · have hwritten := written_vec h form hmap
    rwa [if_neg (by simp [hitems])] at hwritten

theorem sharesPayloads_arrayOptionItems (value : Option (List.Vector T n)) :
    (form.arrayOptionField item n).SharesPayloads ordered value (form.field item (Collection.vec T))
      (value.elim [] List.Vector.toList) := by
  cases value with
  | none => exact ⟨_, _, written_arrayOption_none item n form, written_vec_nil h form⟩
  | some arr =>
      obtain ⟨payloads, hmap, -⟩ := h.exists_encodeAll arr.toList
      have hitems : arr.toList ≠ [] := List.ne_nil_of_length_pos (arr.toList_length.symm ▸ hn)
      have hwritten := written_vec h form hmap
      rw [if_neg (by simp [hitems])] at hwritten
      exact ⟨_, _, written_arrayOption h form hn hmap, hwritten⟩

end

section
variable (h : item.Writes ordered) (hcuts : item.Cuts) (form : Form)
include h hcuts

end

end Form

section
variable {T : Type} {allowed : Features} {item : ValueCodec T} {n : Nat}

theorem Form.built_vec (h : Built allowed (.value item)) (form : Form) :
    Built allowed (.field (form.field item (Collection.vec T))) :=
  match form with
  | .packed => .packedField (.vec T) h
  | .unpacked => .unpackedField (.vec T) h

theorem Form.structural_vec (h : Structural (.value item)) (form : Form) :
    Structural (.field (form.field item (Collection.vec T))) :=
  match form with
  | .packed => .packedField (.vec T) h
  | .unpacked => .unpackedField (.vec T) h

theorem Form.built_arrayOption (h : Built allowed (.value item)) (form : Form) (hn : 0 < n) :
    Built allowed (.field (form.arrayOptionField item n)) :=
  match form with
  | .packed => .optional (.packedArray (.inl hn) h)
  | .unpacked => .unpackedArrayOptionField (.inl hn) h

theorem Form.structural_arrayOption (h : Structural (.value item)) (form : Form) (hn : 0 < n) :
    Structural (.field (form.arrayOptionField item n)) :=
  match form with
  | .packed => .optional (.packedArray hn h)
  | .unpacked => .unpackedArrayOptionField hn h

end

namespace FieldCodec.Compatible

open VarintScalar

variable {T T' : Type} {codec : FieldCodec T} {codec' : FieldCodec T'} {f : T → T'}
  {narrow : T' → Option T}

theorem structural (h : codec.Compatible Structural codec' f narrow) : Structural (.field codec') := by
  cases h with
  | unsigned hlt hle => exact (covers_unsigned hlt hle).structural
  | boolUnsigned hw hle => exact (covers_boolUnsigned hw hle).structural
  | signed hw hlt hle => exact (covers_signed hw hlt hle).structural
  | boolSigned hw hle => exact (covers_boolSigned hw hle).structural
  | option _ hcodec _ => exact .optional hcodec
  | arrayOption form hn hitem _ => exact form.structural_arrayOption hitem hn
  | optionItems hcodec => exact Form.structural_vec hcodec .unpacked
  | arrayItems form _ hitem _ => exact form.structural_vec hitem
  | arrayOptionItems form _ hitem => exact form.structural_vec hitem

variable {allowed : Features} (h : codec.Compatible (Built allowed) codec' f narrow)
include h

theorem built : Built allowed (.field codec) ∧ Built allowed (.field codec') := by
  cases h with
  | unsigned hlt hle => exact (covers_unsigned hlt hle).built
  | boolUnsigned hw hle => exact (covers_boolUnsigned hw hle).built
  | signed hw hlt hle => exact (covers_signed hw hlt hle).built
  | boolSigned hw hle => exact (covers_boolSigned hw hle).built
  | option _ hcodec hfield => exact ⟨hfield, .optional hcodec⟩
  | arrayOption form hn hitem hfield => exact ⟨hfield, form.built_arrayOption hitem hn⟩
  | optionItems hcodec => exact ⟨.optional hcodec, Form.built_vec hcodec .unpacked⟩
  | arrayItems form hn hitem hfield => exact ⟨hfield, form.built_vec hitem⟩
  | arrayOptionItems form hn hitem => exact ⟨form.built_arrayOption hitem hn, form.built_vec hitem⟩

variable (harrays : ¬allowed.emptyArrays)
include harrays

/-- A value and the one that it becomes are written as the same payloads. -/
theorem sharesPayloads (value : T) :
    codec.SharesPayloads (¬allowed.hashed) value codec' (f value) := by
  cases h with
  | unsigned hlt hle => exact (covers_unsigned hlt hle).sharesPayloads _ value
  | boolUnsigned hw hle => exact (covers_boolUnsigned hw hle).sharesPayloads _ value
  | signed hw hlt hle => exact (covers_signed hw hlt hle).sharesPayloads _ value
  | boolSigned hw hle => exact (covers_boolSigned hw hle).sharesPayloads _ value
  | option hstands hcodec _ => exact hstands.sharesPayloads (hcodec.writes harrays) value
  | arrayOption form hn hitem _ =>
      exact form.sharesPayloads_arrayOption (hitem.writes harrays) hn value
  | optionItems hcodec => exact (hcodec.writes harrays).sharesPayloads_toList value
  | arrayItems form hn hitem _ => exact form.sharesPayloads_arrayItems (hitem.writes harrays) hn value
  | arrayOptionItems form hn hitem =>
      exact form.sharesPayloads_arrayOptionItems (hitem.writes harrays) hn value

end FieldCodec.Compatible

end Bilrost
