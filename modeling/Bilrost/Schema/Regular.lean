import Bilrost.Schema.ValueRegular

/-!
The decoders of fields and messages are regular, and with them those of
everything that is built.
-/

namespace Bilrost

open Program

/-- The decoders of fields. -/
def FieldCodec.Regular {T : Type} (codec : FieldCodec T) : Prop :=
  ∀ way mode depth wireType value, (codec.decodeBy way mode depth wireType value).Regular

def MessageField.Regular {T : Type} (field : MessageField T) : Prop :=
  ∀ way mode depth tag wireType duplicated value,
    (field.decodeBy way mode depth tag wireType duplicated value).Regular

namespace MessageCodec

variable {M : Type} {codec : MessageCodec M}

theorem regular_iff : codec.Regular ↔ ∀ way mode depth tag wireType duplicated m,
    (codec.fieldBy way mode depth tag wireType duplicated m).Regular := by
  constructor
  · intro h way mode depth tag wireType duplicated m
    cases way with
    | relaxed => exact (h.rawDecodeField mode depth tag wireType duplicated m).map _
    | distinguished => exact h.rawDecodeFieldDistinguished mode depth tag wireType duplicated m
  · refine fun h => ⟨fun mode depth tag wireType duplicated m => ?_,
      fun mode depth tag wireType duplicated m => ?_⟩
    · exact (h .relaxed mode depth tag wireType duplicated m).of_asCanonical
    · exact h .distinguished mode depth tag wireType duplicated m

theorem Regular.contentsBy (h : codec.Regular) (note : Note) (way : Way) (mode : DecodingMode)
    (depth : Nat) (m : M) : (codec.contentsBy note way mode depth m).Regular := by
  have hstep (tag : Nat) (wireType : WireType) (dup : Bool) (state : M × Canonicity) :
      (codec.stepBy way mode depth tag wireType dup state).Regular :=
    (regular_iff.mp h way mode depth tag wireType dup state.1).map _
  exact Regular.op _ fun _ => regular_fieldsFrom hstep 0 none _

theorem endsAtCap_contentsBy (note : Note) (way : Way) (mode : DecodingMode) (depth : Nat) (m : M) :
    EndsAtCap (codec.contentsBy note way mode depth m) :=
  EndsAtCap.of_bind (noted note) fun _ => endsAtCap_fieldsFrom _ 0 none _

theorem regular_limitReached (depth : Nat) : (limitReached depth).Regular := by
  refine Regular.op _ fun _ => ?_
  change (if depth = 0 then error .recursionLimitReached else .done ()).Regular
  split_ifs
  · exact regular_error _
  · exact regular_done _

theorem regular_refused (note : Note) (m : M) :
    (Program.op (.note note) fun _ => refused m).Regular :=
  Regular.op _ fun _ => (regular_done _).check _

/-- A region whose contents may be refused when there are none. -/
theorem regular_shortcut {note : Note} {m : M} {p : Program (M × Canonicity)} (hp : p.Regular)
    (hends : p.EndsAtCap) (way : Way) (allowEmpty : Bool) :
    (delimited fun len => if way.shortcut allowEmpty len then
      .op (.note note) fun _ => refused m else p).Regular := by
  refine Regular.delimited (fun len => ?_) fun len => ?_
  · split_ifs
    · exact regular_refused note m
    · exact hp
  · split_ifs with hshort
    · have hzero : len = 0 := by simpa using (Bool.and_eq_true_iff.mp hshort).2
      refine sealed_of_parse (regular_refused note m).seals fun bytes hbytes => ?_
      obtain rfl : bytes = [] := List.length_eq_zero_iff.mp (hbytes.trans hzero)
      exact ⟨_, _, rfl⟩
    · exact EndsAtCap.sealed hends len

theorem Regular.nested (h : codec.Regular) : codec.nested.Regular where
  regular way mode allowEmpty depth m := by
    refine (codec.nested_decodeBy way mode allowEmpty depth m).regular
      ((regular_limitReached depth).bind fun _ => ?_)
    exact regular_shortcut (h.contentsBy ..) (endsAtCap_contentsBy _ _ _ _ _) way allowEmpty
  advances way mode allowEmpty depth m :=
    (codec.nested_decodeBy way mode allowEmpty depth m).advances
      (Advances.of_bind _ fun _ => advances_region _ _)
  takes hsize := by cases hsize

theorem Regular.tupled (h : codec.Regular) : codec.tupled.Regular where
  regular way mode allowEmpty depth m :=
    (codec.tupled_decodeBy way mode allowEmpty depth m).regular
      (regular_shortcut ((regular_limitReached depth).bind fun _ => h.contentsBy ..)
        (EndsAtCap.of_bind _ fun _ => endsAtCap_contentsBy _ _ _ _ _) way allowEmpty)
  advances way mode allowEmpty depth m :=
    (codec.tupled_decodeBy way mode allowEmpty depth m).advances (advances_region _ _)
  takes hsize := by cases hsize

theorem Regular.inlined (h : codec.Regular) : codec.inlined.Regular where
  regular way mode allowEmpty depth m :=
    (codec.inlined_decodeBy way mode allowEmpty depth m).regular
      (Regular.delimited (fun _ => h.contentsBy ..)
        fun len => EndsAtCap.sealed (endsAtCap_contentsBy _ _ _ _ _) len)
  advances way mode allowEmpty depth m :=
    (codec.inlined_decodeBy way mode allowEmpty depth m).advances (advances_region _ _)
  takes hsize := by cases hsize

end MessageCodec

namespace ValueCodec

variable {C T : Type}

theorem Regular.decodeFieldBy {codec : ValueCodec T} (h : codec.Regular) (way : Way)
    (mode : DecodingMode) (allowEmpty : Bool) (depth : Nat) (wireType : WireType) (value : T) :
    (codec.decodeFieldBy way mode allowEmpty depth wireType value).Regular :=
  (regular_checkWireType _ _).bind fun _ => h.regular way mode allowEmpty depth value

theorem Regular.plain {codec : ValueCodec T} (h : codec.Regular) (state : EmptyState T) :
    (codec.plain state).Regular := by
  intro way mode depth wireType value
  rw [plain_decodeBy]
  exact (h.decodeFieldBy ..).bind fun _ => regular_refuseEmpty ..

theorem Regular.optional {codec : ValueCodec T} (h : codec.Regular) : codec.optional.Regular := by
  intro way mode depth wireType value
  rw [optional_decodeBy]
  exact (h.decodeFieldBy ..).map _

section
variable {item : ValueCodec T} (hitem : item.Regular)
include hitem

theorem Regular.decodeUnpackedBy (coll : Collection C T) (way : Way) (mode : DecodingMode)
    (depth : Nat) (wireType : WireType) (items : C) :
    (item.decodeUnpackedBy coll way mode depth wireType items).Regular := by
  have hrepeated (wireType : WireType) (state : C × Canonicity) :
      (item.decodeRepeatedBy coll way mode depth wireType state).Regular :=
    (regular_checkWireType _ _).bind fun _ => hitem.decodeItemBy coll way mode depth state
  exact (hrepeated wireType _).bind fun state => Regular.whileRepeated hrepeated state

theorem Regular.decodeUnpacked (coll : Collection C T) (mode : DecodingMode) (depth : Nat)
    (wireType : WireType) (items : C) :
    (item.decodeUnpacked coll mode depth wireType items).Regular := by
  have h := hitem.decodeUnpackedBy coll .relaxed mode depth wireType items
  rw [decodeUnpackedBy_relaxed] at h
  exact h.of_asCanonical

theorem Regular.unpackedField (coll : Collection C T) : (item.unpackedField coll).Regular := by
  intro way mode depth wireType value
  rw [unpackedField_decodeBy]
  split_ifs
  · exact regular_demote way ((hitem.packed coll).decodeValue ..)
  · exact hitem.decodeUnpackedBy ..

theorem Regular.packedField (coll : Collection C T) : (item.packedField coll).Regular := by
  intro way mode depth wireType value
  rw [packedField_decodeBy]
  split_ifs
  · exact ((hitem.packed coll).regular ..).bind fun _ => regular_refuseEmpty ..
  · exact regular_demote way (hitem.decodeUnpacked ..)

variable {n : Nat}

omit hitem in
theorem regular_nextField (item : ValueCodec T) : item.nextField.Regular := by
  refine Regular.op _ fun next => ?_
  cases next with
  | some wireType => exact regular_checkWireType _ _
  | none => exact regular_error _

omit hitem in
theorem regular_noMoreFields : noMoreFields.Regular := by
  refine Regular.op _ fun next => ?_
  split_ifs
  · exact regular_error _
  · exact regular_done _

theorem Regular.decodeArrayUnpackedOnlyBy (way : Way) (mode : DecodingMode) (depth : Nat)
    (wireType : WireType) (arr : List.Vector T n) :
    (item.decodeArrayUnpackedOnlyBy way mode depth wireType arr).Regular := by
  refine (regular_checkWireType _ _).bind fun _ => ?_
  refine Regular.bind ?_ fun _ => regular_noMoreFields.map _
  cases n with
  | zero => exact regular_done _
  | succ n =>
    refine (hitem.regular ..).bind fun _ => (regular_decodeEach (fun v => ?_) _).map _
    exact (regular_nextField item).bind fun _ => hitem.regular ..

theorem Regular.decodeArrayUnpackedOnly (mode : DecodingMode) (depth : Nat) (wireType : WireType)
    (arr : List.Vector T n) : (item.decodeArrayUnpackedOnly mode depth wireType arr).Regular := by
  have h := hitem.decodeArrayUnpackedOnlyBy .relaxed mode depth wireType arr
  rw [decodeArrayUnpackedOnlyBy_relaxed] at h
  exact h.of_asCanonical

theorem Regular.decodeArrayEitherReprBy (way : Way) (mode : DecodingMode) (depth : Nat)
    (wireType : WireType) (arr : List.Vector T n) :
    (item.decodeArrayEitherReprBy way mode depth wireType arr).Regular := by
  rw [ValueCodec.decodeArrayEitherReprBy]
  split_ifs
  · exact regular_demote way ((hitem.packedArray n).decodeValue ..)
  · exact hitem.decodeArrayUnpackedOnlyBy ..

theorem Regular.unpackedArrayField (state : EmptyState T) (n : Nat) :
    (item.unpackedArrayField state n).Regular := by
  intro way mode depth wireType value
  rw [unpackedArrayField_decodeBy]
  exact (hitem.decodeArrayEitherReprBy ..).bind fun _ => regular_refuseEmpty ..

theorem Regular.packedArrayField (state : EmptyState T) (n : Nat) :
    (item.packedArrayField state n).Regular := by
  intro way mode depth wireType value
  rw [packedArrayField_decodeBy]
  split_ifs
  · exact ((hitem.packedArray n).regular ..).bind fun _ => regular_refuseEmpty ..
  · exact regular_demote way (hitem.decodeArrayUnpackedOnly ..)

theorem Regular.unpackedArrayOptionField (n : Nat) :
    (item.unpackedArrayOptionField n).Regular := by
  intro way mode depth wireType value
  rw [unpackedArrayOptionField_decodeBy]
  exact (hitem.decodeArrayEitherReprBy ..).map _

end

end ValueCodec

theorem FieldCodec.Regular.tagged {T : Type} {codec : FieldCodec T} (h : codec.Regular)
    (tag : Nat) : (codec.tagged tag).Regular := by
  intro way mode depth tag' wireType duplicated value
  rw [tagged_decodeBy]
  split_ifs
  · exact regular_error _
  · exact h ..

theorem Oneof.regular {T : Type} {oneof : Oneof T} (h : ∀ i, (oneof.codec i).Regular) :
    oneof.field.Regular := by
  intro way mode depth tag wireType duplicated value
  rw [field_decodeBy]
  split
  · exact regular_error _
  · exact ((h _).decodeFieldBy ..).map _
  · exact regular_error _

theorem Way.regular_skipUnknown {M : Type} (way : Way) (wireType : WireType) (m : M) :
    (way.skipUnknown wireType m).Regular := by
  cases way with
  | relaxed => exact (regular_skipField wireType).map _
  | distinguished => exact ((regular_skipField wireType).map _).check _

theorem Fields.regular {M : Type} {F : Fields M} {w : F.Writing}
    (h : ∀ i, (F.field i).Regular) : (F.message w).Regular := by
  rw [MessageCodec.regular_iff]
  intro way mode depth tag wireType duplicated m
  rw [message_fieldBy]
  split
  · exact (h _ ..).map _
  · exact way.regular_skipUnknown wireType m

theorem MessageCodec.regular_of_sameTo {M : Type} {codec : MessageCodec M}
    {approx : Nat → MessageCodec M} (hsame : ∀ depth, codec.SameTo depth (approx depth))
    (h : ∀ depth, (approx depth).Regular) : codec.Regular := by
  rw [regular_iff]
  intro way mode depth tag wireType duplicated m
  rw [(hsame depth).fieldBy way mode le_rfl]
  exact regular_iff.mp (h depth) ..

theorem MessageCodec.regular_of_unrolls {M : Type} {codec : MessageCodec M}
    {approx : Nat → MessageCodec M} {within : Nat → M → Prop}
    (hunrolls : codec.Unrolls approx within) (h : ∀ n, (approx n).Regular) : codec.Regular := by
  rw [regular_iff]
  intro way mode depth tag wireType duplicated m
  rw [hunrolls.fieldBy]
  exact Program.Regular.op _ fun len => regular_iff.mp (h len) ..

def Part.Regular : Part → Prop
  | .value codec => codec.Regular
  | .field codec => codec.Regular
  | .messageField fld => fld.Regular
  | .message codec => codec.Regular

/-- All decoders are regular. -/
theorem Built.regular {allowed : Features} {part : Part} (h : Built allowed part) :
    part.Regular := by
  induction h with
  | scalar h => exact h.regular
  | packed _ _ hitem => exact hitem.packed _
  | localProxy _ _ _ _ hitem => exact hitem.packed _
  | map _ _ _ hkey hval => exact (hkey.entry hval).packedItems _ _
  | packedArray _ _ hitem => exact hitem.packedArray _
  | proxied _ _ _ _ _ hcodec => exact hcodec.proxied _ _ _
  | nested _ hcodec => exact hcodec.nested
  | tupled _ hcodec => exact hcodec.tupled
  | inlined _ hcodec => exact hcodec.inlined
  | plain _ _ _ hcodec => exact hcodec.plain _
  | optional _ hcodec => exact hcodec.optional
  | unpackedField _ _ hitem => exact hitem.unpackedField _
  | packedField _ _ hitem => exact hitem.packedField _
  | unpackedArrayField _ _ _ _ hitem => exact hitem.unpackedArrayField _ _
  | packedArrayField _ _ _ _ hitem => exact hitem.packedArrayField _ _
  | unpackedArrayOptionField _ _ hitem => exact hitem.unpackedArrayOptionField _
  | tagged tag _ hcodec => exact hcodec.tagged tag
  | oneof _ hvariants => exact Oneof.regular hvariants
  | fields _ _ _ _ hfields => exact Fields.regular hfields
  | recursive approx hsame _ _ happrox => exact MessageCodec.regular_of_sameTo hsame happrox
  | unrolled approx _ hunrolls _ happrox => exact MessageCodec.regular_of_unrolls hunrolls happrox

end Bilrost
