import Bilrost.Schema.OneofSplit

/-!
Values of different types that are written alike: each of the encoders makes the
same of the one as of the other. Fields that are written alike can take each
other's place in a message, and a message with further fields is written like
the one without them as long as these are empty.
-/

namespace Bilrost

/-- Two values are encoded as the same bytes, in fields of the same wire type. -/
structure ValueCodec.WritesLike {T T' : Type} (codec : ValueCodec T) (value : T)
    (codec' : ValueCodec T') (value' : T') : Prop where
  wireType : codec'.wireType = codec.wireType
  encodeValue : codec'.encodeValue value' = codec.encodeValue value

/-- Two values are written alike as fields. -/
structure FieldCodec.WritesLike {T T' : Type} (codec : FieldCodec T) (value : T)
    (codec' : FieldCodec T') (value' : T') : Prop where
  encode (tag : Nat) (tw : TagWriter) : codec'.encode tag value' tw = codec.encode tag value tw
  prependEncode (tag : Nat) (buf : Bytes) (tw : TagRevWriter) :
    codec'.prependEncode tag value' buf tw = codec.prependEncode tag value buf tw
  encodedLen (tag : Nat) (tm : TagMeasurer) :
    codec'.encodedLen tag value' tm = codec.encodedLen tag value tm
  isEmpty : codec'.emptyState.isEmpty value' = codec.emptyState.isEmpty value

structure MessageField.WritesLike {T T' : Type} (field : MessageField T) (value : T)
    (field' : MessageField T') (value' : T') : Prop where
  encode (tw : TagWriter) : field'.encode value' tw = field.encode value tw
  prependEncode (buf : Bytes) (tw : TagRevWriter) :
    field'.prependEncode value' buf tw = field.prependEncode value buf tw
  encodedLen (tm : TagMeasurer) : field'.encodedLen value' tm = field.encodedLen value tm
  currentTag : field'.currentTag value' = field.currentTag value
  isEmpty : field'.isEmpty value' = field.isEmpty value

structure MessageCodec.WritesLike {M M' : Type} (codec : MessageCodec M) (m : M)
    (codec' : MessageCodec M') (m' : M') : Prop where
  rawEncode : codec'.rawEncode m' = codec.rawEncode m
  rawEncodedLen : codec'.rawEncodedLen m' = codec.rawEncodedLen m

section
variable {T T' T'' : Type} {ordered : Prop}

namespace ValueCodec

variable {codec item : ValueCodec T} {codec' item' : ValueCodec T'} {codec'' : ValueCodec T''}
  {value : T} {value' : T'} {value'' : T''}

theorem WritesLike.refl (codec : ValueCodec T) (value : T) :
    codec.WritesLike value codec value := ⟨rfl, rfl⟩

theorem WritesLike.trans (h : codec.WritesLike value codec' value')
    (h' : codec'.WritesLike value' codec'' value'') : codec.WritesLike value codec'' value'' :=
  ⟨h'.wireType.trans h.wireType, h'.encodeValue.trans h.encodeValue⟩

theorem writesLike_scalar {s : Scalar T} {s' : Scalar T'} (hwire : s'.wireType = s.wireType)
    (hencode : s'.encode value' = s.encode value) : s.codec.WritesLike value s'.codec value' :=
  ⟨hwire, congrArg some hencode⟩

/-- Values one after the other are encoded alike when each of them is. -/
theorem encodeAll_of_map_eq {encode : T → Option Bytes} {encode' : T' → Option Bytes}
    {values : List T} {values' : List T'} (h : values'.map encode' = values.map encode) :
    encodeAll encode' values' = encodeAll encode values := by
  induction values generalizing values' with
  | nil =>
      obtain rfl := List.map_eq_nil_iff.mp h
      rfl
  | cons value values ih =>
      obtain ⟨value', values', rfl, hvalue, hvalues⟩ := List.map_eq_cons_iff.mp h
      rw [encodeAll, encodeAll, hvalue, ih hvalues]

/-- A value is written as a region with these items. -/
structure Delimits {C : Type} (item : ValueCodec T) (values : List T) (codec : ValueCodec C)
    (items : C) : Prop where
  wireType : codec.wireType = .lengthDelimited
  encodeValue : codec.encodeValue items =
    encodeDelimited (item.manyValuesEncodedLen values) (encodeAll item.encodeValue values)

theorem delimits_packedItems {C : Type} {size : Option Nat} {coll : Collection C T} (items : C) :
    item.Delimits (coll.iter items) (packedItems size item coll) items :=
  ⟨rfl, rfl⟩

theorem delimits_packedArray {n : Nat} (arr : List.Vector T n) :
    item.Delimits arr.toList (item.packedArray n) arr :=
  ⟨rfl, rfl⟩

/-- Regions are written alike when their items are. -/
theorem Delimits.writesLike {C C' : Type} {codec : ValueCodec C} {codec' : ValueCodec C'}
    {items : C} {items' : C'} {values : List T} {values' : List T'}
    (h : item.Delimits values codec items) (h' : item'.Delimits values' codec' items')
    (hitem : item.Puts ordered) (hitem' : item'.Puts ordered)
    (hvalues : values'.map item'.encodeValue = values.map item.encodeValue) :
    codec.WritesLike items codec' items' where
  wireType := h'.wireType.trans h.wireType.symm
  encodeValue := by
    obtain ⟨payloads, -, hall⟩ := hitem.exists_encodeAll values
    have hall' := (encodeAll_of_map_eq hvalues).trans hall
    rw [h.encodeValue, h'.encodeValue, hall, hall', hitem.many hall, hitem'.many hall']

end ValueCodec

namespace MessageCodec

variable {M M' M'' : Type} {codec : MessageCodec M} {codec' : MessageCodec M'}
  {codec'' : MessageCodec M''} {m : M} {m' : M'} {m'' : M''}

theorem WritesLike.trans (h : codec.WritesLike m codec' m') (h' : codec'.WritesLike m' codec'' m'') :
    codec.WritesLike m codec'' m'' :=
  ⟨h'.rawEncode.trans h.rawEncode, h'.rawEncodedLen.trans h.rawEncodedLen⟩

theorem Writes.writesLike (h : codec.Writes ordered) (h' : codec'.Writes ordered)
    (hencode : codec'.rawEncode m' = codec.rawEncode m) : codec.WritesLike m codec' m' where
  rawEncode := hencode
  rawEncodedLen := by
    obtain ⟨records, hwritten⟩ := h m
    obtain ⟨records', hwritten'⟩ := h' m'
    have hbytes := (hwritten'.encode.symm.trans hencode).trans hwritten.encode
    rw [hwritten.encodedLen, hwritten'.encodedLen, Option.some.inj hbytes]

/-- The values that a message is written as: nested messages, tuples and message
variants. -/
inductive Embeds (codec : MessageCodec M) : ValueCodec M → Prop
  | nested : Embeds codec codec.nested
  | tupled : Embeds codec codec.tupled
  | inlined : Embeds codec codec.inlined

theorem Embeds.wireType {value : ValueCodec M} (h : codec.Embeds value) :
    value.wireType = .lengthDelimited := by
  cases h <;> rfl

theorem Embeds.encodeValue {value : ValueCodec M} (h : codec.Embeds value) (m : M) :
    value.encodeValue m = encodeDelimited (codec.rawEncodedLen m) (codec.rawEncode m) := by
  cases h <;> rfl

/-- All of them are written alike. -/
theorem WritesLike.value (h : codec.WritesLike m codec' m') {value : ValueCodec M}
    {value' : ValueCodec M'} (hvalue : codec.Embeds value) (hvalue' : codec'.Embeds value') :
    value.WritesLike m value' m' where
  wireType := hvalue'.wireType.trans hvalue.wireType.symm
  encodeValue := by
    rw [hvalue'.encodeValue, hvalue.encodeValue, h.rawEncode, h.rawEncodedLen]

end MessageCodec

namespace FieldCodec

variable {codec : FieldCodec T} {codec' : FieldCodec T'} {codec'' : FieldCodec T''}
  {value : T} {value' : T'} {value'' : T''} {wireType : WireType} {payloads : List Bytes}

theorem WritesLike.trans (h : codec.WritesLike value codec' value')
    (h' : codec'.WritesLike value' codec'' value'') : codec.WritesLike value codec'' value'' where
  encode tag tw := (h'.encode tag tw).trans (h.encode tag tw)
  prependEncode tag buf tw := (h'.prependEncode tag buf tw).trans (h.prependEncode tag buf tw)
  encodedLen tag tm := (h'.encodedLen tag tm).trans (h.encodedLen tag tm)
  isEmpty := h'.isEmpty.trans h.isEmpty

/-- Fields with the same payloads are written alike. -/
theorem Written.writesLike (hordered : ordered)
    (h : codec.Written ordered value wireType payloads)
    (h' : codec'.Written ordered value' wireType payloads) :
    codec.WritesLike value codec' value' where
  encode tag tw := (h'.encode tag tw).trans (h.encode tag tw).symm
  prependEncode tag buf tw :=
    (h'.prependEncode hordered tag buf tw).trans (h.prependEncode hordered tag buf tw).symm
  encodedLen tag tm := (h'.encodedLen tag tm).trans (h.encodedLen tag tm).symm
  isEmpty := Bool.eq_iff_iff.mpr (h'.isEmpty.trans h.isEmpty.symm)

/-- A field writes these values, each under a key of its own. -/
def WritesAll (ordered : Prop) (codec : FieldCodec T) (value : T) (wireType : WireType)
    (values : List (Option Bytes)) : Prop :=
  ∃ payloads : List Bytes, values = payloads.map some ∧
    codec.Written ordered value wireType payloads

theorem WritesAll.written {wireType : WireType} {payloads : List Bytes}
    (h : codec.WritesAll ordered value wireType (payloads.map some)) :
    codec.Written ordered value wireType payloads := by
  obtain ⟨payloads', hpayloads, hwritten⟩ := h
  obtain rfl := List.map_injective_iff.mpr (Option.some_injective _) hpayloads
  exact hwritten

/-- Fields that write the same values are written alike. -/
theorem WritesAll.writesLike (hordered : ordered) {wireType' : WireType}
    {values values' : List (Option Bytes)} (h : codec.WritesAll ordered value wireType values)
    (h' : codec'.WritesAll ordered value' wireType' values') (hwire : wireType' = wireType)
    (hvalues : values' = values) : codec.WritesLike value codec' value' := by
  subst hwire hvalues
  obtain ⟨payloads, rfl, hwritten⟩ := h
  exact hwritten.writesLike hordered h'.written

theorem WritesLike.tagged (h : codec.WritesLike value codec' value') (tag : Nat) :
    (codec.tagged tag).WritesLike value (codec'.tagged tag) value' where
  encode := h.encode tag
  prependEncode := h.prependEncode tag
  encodedLen := h.encodedLen tag
  currentTag := by
    simp only [FieldCodec.tagged, h.isEmpty]
  isEmpty := h.isEmpty

end FieldCodec

namespace ValueCodec

variable {codec item : ValueCodec T} {codec' item' : ValueCodec T'} {value : T} {value' : T'}

/-- Fields that are there when they are not empty. -/
theorem Guards.writesLike (hordered : ordered) {field : FieldCodec T} {field' : FieldCodec T'}
    (hguards : codec.Guards field) (hguards' : codec'.Guards field')
    (hwrites : codec.Writes ordered) (hwrites' : codec'.Writes ordered)
    (hempty : field'.emptyState.isEmpty value' = field.emptyState.isEmpty value)
    (hwire : codec'.wireType = codec.wireType)
    (h : field.emptyState.isEmpty value = false → codec.WritesLike value codec' value') :
    field.WritesLike value field' value' := by
  obtain ⟨payload, hpayload⟩ := hwrites.encode value
  obtain ⟨payload', hpayload'⟩ := hwrites'.encode value'
  have hwritten := hguards.written hwrites hpayload
  have hwritten' := hguards'.written hwrites' hpayload'
  rw [hempty, hwire] at hwritten'
  cases hisEmpty : field.emptyState.isEmpty value with
  | true =>
      rw [hisEmpty] at hwritten hwritten'
      exact hwritten.writesLike hordered hwritten'
  | false =>
      obtain rfl : payload' = payload := by
        have hencode := (h hisEmpty).encodeValue
        rw [hpayload, hpayload'] at hencode
        exact Option.some.inj hencode
      exact hwritten.writesLike hordered hwritten'

/-! What the fields write -/

theorem Writes.writesAll_plain (h : item.Writes ordered) (state : EmptyState T) (value : T) :
    (item.plain state).WritesAll ordered value item.wireType
      (if state.isEmpty value then [] else [item.encodeValue value]) := by
  obtain ⟨payload, hpayload⟩ := h.encode value
  refine ⟨_, ?_, (guards_plain item state).written h hpayload⟩
  rw [hpayload, apply_ite (List.map some)]
  rfl

theorem Writes.writesAll_optional (h : item.Writes ordered) (value : Option T) :
    item.optional.WritesAll ordered value item.wireType (value.toList.map item.encodeValue) := by
  cases value with
  | none => exact ⟨[], rfl, item.written_none⟩
  | some value =>
      obtain ⟨payload, hpayload⟩ := h.encode value
      exact ⟨[payload], congrArg (fun bytes => [bytes]) hpayload, h.written_some hpayload⟩

theorem Writes.writesAll_unpackedField (h : item.Writes ordered) {allowed : Features} {C : Type}
    {coll : Collection C T} (hcoll : coll.Standard allowed)
    (hreversed : ordered → ∀ items, coll.reversed items = (coll.iter items).reverse) (items : C) :
    (item.unpackedField coll).WritesAll ordered items item.wireType
      ((coll.iter items).map item.encodeValue) :=
  h.written_unpackedField hcoll hreversed items

theorem Writes.writesAll_vec (h : item.Writes ordered) (values : List T) :
    (item.unpackedField (Collection.vec T)).WritesAll ordered values item.wireType
      (values.map item.encodeValue) :=
  have hvec : (Collection.vec T).Standard .structural := .vec T
  h.writesAll_unpackedField hvec (fun _ => hvec.reversed_iter not_false) values

/-- An array of empty items is not there. -/
theorem Writes.writesAll_unpackedArrayField (h : item.Writes ordered) (state : EmptyState T)
    {n : Nat} (arr : List.Vector T n) :
    (item.unpackedArrayField state n).WritesAll ordered arr item.wireType
      ((if (state.array n).isEmpty arr then [] else arr.toList).map item.encodeValue) := by
  cases hempty : (state.array n).isEmpty arr with
  | true => exact ⟨[], rfl, written_unpackedArrayField_empty item hempty⟩
  | false => exact h.written_unpackedArrayField hempty

theorem Writes.writesAll_unpackedArrayOptionField (h : item.Writes ordered) {n : Nat} (hn : 0 < n)
    (value : Option (List.Vector T n)) :
    (item.unpackedArrayOptionField n).WritesAll ordered value item.wireType
      ((value.elim [] List.Vector.toList).map item.encodeValue) := by
  cases value with
  | none => exact ⟨[], rfl, written_unpackedArrayOptionField_none item n⟩
  | some arr => exact h.written_unpackedArrayOptionField hn arr

end ValueCodec

end

end Bilrost
