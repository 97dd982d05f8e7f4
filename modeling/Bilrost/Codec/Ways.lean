import Bilrost.Codec.Arrays
import Bilrost.Codec.Fields
import Bilrost.Codec.Merge
import Bilrost.Codec.Proxied
import Bilrost.Codec.Scalars
import Bilrost.Decode.Lockstep

/-!
The two ways to decode, as one. The relaxed and the distinguished decoders of
the source are written separately. Here the relaxed one is made to return a
canonicity that is always the highest, and for each encoding both are brought
into one form in which the way is a parameter. What holds of all decoders is
then proved on that form.
-/

namespace Bilrost

open Program

inductive Way where
  | relaxed
  | distinguished
  deriving DecidableEq, Repr

/-- The relaxed way of a decoder that returns a value alone. -/
def asCanonical {T : Type} (p : Program T) : Program (T × Canonicity) :=
  p.bind fun value => .done (value, .canonical)

theorem asCanonical_bind {T U : Type} (p : Program T) (f : T → Program U) :
    asCanonical (p.bind f) = p.bind fun x => asCanonical (f x) :=
  bind_assoc _ _ _

namespace Way

/-- Decoding in a form that is not canonical. -/
def demote {T : Type} (way : Way) (p : Program T) : Program (T × Canonicity) :=
  match way with
  | relaxed => asCanonical p
  | distinguished => .check .notCanonical (p.bind fun value => .done (value, .notCanonical))

/-- The distinguished way lowers the canonicity of a value that should not be
empty. -/
def refuseEmpty {T : Type} (way : Way) (isEmpty : Bool) (decoded : T × Canonicity) :
    Program (T × Canonicity) :=
  match way, isEmpty with
  | distinguished, true => .check .notCanonical (.done (decoded.1, .notCanonical))
  | _, _ => .done decoded

/-- The distinguished way stops early where a message should not be empty and
there is nothing to decode. -/
def shortcut (way : Way) (allowEmpty : Bool) (len : Nat) : Bool :=
  way = distinguished && !allowEmpty && len == 0

@[simp] theorem refuseEmpty_relaxed {T : Type} (isEmpty : Bool) (decoded : T × Canonicity) :
    relaxed.refuseEmpty isEmpty decoded = .done decoded := by
  cases isEmpty <;> rfl

@[simp] theorem refuseEmpty_false {T : Type} (way : Way) (decoded : T × Canonicity) :
    way.refuseEmpty false decoded = .done decoded := by
  cases way <;> rfl

@[simp] theorem shortcut_relaxed (allowEmpty : Bool) (len : Nat) :
    relaxed.shortcut allowEmpty len = false := rfl

end Way

/-- Inserting an item in one way or the other. -/
def Collection.insertBy {C T : Type} (coll : Collection C T) (way : Way) (items : C) (item : T) :
    Program (C × Canonicity) :=
  match way with
  | .relaxed => asCanonical (ofResult (coll.insert items item))
  | .distinguished => coll.insertChecked items item

namespace ValueCodec

variable {T C K V : Type} (codec : ValueCodec T)

def decodeBy (way : Way) (mode : DecodingMode) (allowEmpty : Bool) (depth : Nat) (value : T) :
    Program (T × Canonicity) :=
  match way with
  | .relaxed => asCanonical (codec.decodeValue mode depth value)
  | .distinguished => codec.decodeValueDistinguished mode allowEmpty depth value

/-- A field of the value, with the check of its wire type. -/
def decodeFieldBy (way : Way) (mode : DecodingMode) (allowEmpty : Bool) (depth : Nat)
    (wireType : WireType) (value : T) : Program (T × Canonicity) :=
  (checkWireType codec.wireType wireType).bind fun _ =>
    codec.decodeBy way mode allowEmpty depth value

theorem asCanonical_decodeField (mode : DecodingMode) (allowEmpty : Bool) (depth : Nat)
    (wireType : WireType) (value : T) :
    asCanonical (codec.decodeField mode depth wireType value) =
      codec.decodeFieldBy .relaxed mode allowEmpty depth wireType value :=
  asCanonical_bind _ _

theorem decodeFieldDistinguished_eq (mode : DecodingMode) (allowEmpty : Bool) (depth : Nat)
    (wireType : WireType) (value : T) :
    codec.decodeFieldDistinguished mode allowEmpty depth wireType value =
      codec.decodeFieldBy .distinguished mode allowEmpty depth wireType value := rfl

end ValueCodec

theorem Scalar.decodeBy_eq {T : Type} (scalar : Scalar T) (way : Way) (mode : DecodingMode)
    (allowEmpty : Bool) (depth : Nat) (value : T) :
    scalar.codec.decodeBy way mode allowEmpty depth value = asCanonical (scalar.decode mode) := by
  cases way <;> rfl

namespace Program

section
variable {σ τ : Type} {f : σ → τ}

/-- A loop whose state is seen as one of another type. -/
theorem whileRemaining_map {body : σ → Program σ} {body' : τ → Program τ}
    (h : ∀ s, body' (f s) = (body s).bind fun s => .done (f s)) (s : σ) :
    whileRemaining body' (f s) = (whileRemaining body s).bind fun s => .done (f s) := by
  have inRounds (rounds : Nat) (s : σ) :
      whileRemainingIn body' rounds (f s) =
        (whileRemainingIn body rounds s).bind fun s => .done (f s) := by
    induction rounds generalizing s with
    | zero => rfl
    | succ rounds ih =>
      simp only [whileRemainingIn, op_bind]
      congr 1
      funext more
      cases more with
      | true => simp only [↓reduceIte, h, bind_assoc, done_bind, ih]
      | false => rfl
  simp only [whileRemaining, op_bind, inRounds]

theorem whileRepeated_map {body : WireType → σ → Program σ} {body' : WireType → τ → Program τ}
    (h : ∀ wireType s, body' wireType (f s) = (body wireType s).bind fun s => .done (f s)) (s : σ) :
    whileRepeated body' (f s) = (whileRepeated body s).bind fun s => .done (f s) := by
  have inRounds (rounds : Nat) (s : σ) :
      whileRepeatedIn body' rounds (f s) =
        (whileRepeatedIn body rounds s).bind fun s => .done (f s) := by
    induction rounds generalizing s with
    | zero => rfl
    | succ rounds ih =>
      simp only [whileRepeatedIn, op_bind]
      congr 1
      funext next
      cases next with
      | some wireType => simp only [h, bind_assoc, done_bind, ih]
      | none => rfl
  simp only [whileRepeated, op_bind, inRounds]

end

/-- The relaxed decoder of a region, which adds the canonicity behind it. -/
theorem same_asCanonical_delimited {T : Type} (inner : Nat → Program T) :
    Same (asCanonical (delimited inner)) (delimited fun len => asCanonical (inner len)) :=
  same_region_map inner (fun value => (value, Canonicity.canonical)) .done

end Program

namespace ValueCodec

variable {T C K V : Type}

section
variable (fixedSize : Option Nat) (item : ValueCodec T) (coll : Collection C T)

def decodeItemBy (way : Way) (mode : DecodingMode) (depth : Nat) (state : C × Canonicity) :
    Program (C × Canonicity) :=
  (item.decodeBy way mode true depth item.forOverwrite).bind fun newVal =>
    (coll.insertBy way state.1 newVal.1).bind fun inserted =>
      .done (inserted.1, (state.2.update newVal.2).update inserted.2)

theorem decodeItemBy_relaxed (mode : DecodingMode) (depth : Nat) (items : C) :
    item.decodeItemBy coll .relaxed mode depth (items, .canonical) =
      asCanonical (item.decodeItem coll mode depth items) := by
  simp only [decodeItemBy, decodeBy, decodeItem, asCanonical, Collection.insertBy,
    Program.bind_eq, bind_assoc, done_bind, Canonicity.update_canonical]

theorem packedItems_decodeBy (way : Way) (mode : DecodingMode) (allowEmpty : Bool) (depth : Nat)
    (value : C) :
    Same ((packedItems fixedSize item coll).decodeBy way mode allowEmpty depth value)
      (delimited fun len =>
        if misfits fixedSize len then error .truncated
        else whileRemaining (item.decodeItemBy coll way mode depth) (value, .canonical)) := by
  cases way with
  | distinguished => exact Same.refl _
  | relaxed =>
    have hinner (len : Nat) :
        asCanonical (if misfits fixedSize len then error .truncated
          else whileRemaining (item.decodeItem coll mode depth) value) =
        if misfits fixedSize len then error .truncated
          else whileRemaining (item.decodeItemBy coll .relaxed mode depth) (value, .canonical) := by
      split_ifs
      · rfl
      · exact (whileRemaining_map (f := fun items : C => (items, Canonicity.canonical))
          (fun items => item.decodeItemBy_relaxed coll mode depth items) value).symm
    simp only [← hinner]
    exact same_asCanonical_delimited _

end

theorem entry_decodeBy (key : ValueCodec K) (val : ValueCodec V) (way : Way) (mode : DecodingMode)
    (allowEmpty : Bool) (depth : Nat) (e : K × V) :
    (key.entry val).decodeBy way mode allowEmpty depth e =
      (key.decodeBy way mode allowEmpty depth e.1).bind fun newKey =>
        (val.decodeBy way mode allowEmpty depth e.2).bind fun newVal =>
          .done ((newKey.1, newVal.1), newKey.2.update newVal.2) := by
  cases way with
  | distinguished => rfl
  | relaxed =>
    simp only [decodeBy, entry, asCanonical, Program.bind_eq, bind_assoc, done_bind,
      Canonicity.update_canonical]

theorem proxied_decodeBy {P : Type} (codec : ValueCodec P) (proxy : Proxy T P) (forOverwrite : T)
    (emptyState : Option (EmptyState T)) (way : Way) (mode : DecodingMode) (allowEmpty : Bool)
    (depth : Nat) (value : T) :
    (codec.proxied proxy forOverwrite emptyState).decodeBy way mode allowEmpty depth value =
      (codec.decodeBy way mode allowEmpty depth codec.forOverwrite).bind fun decoded =>
        match way with
        | .relaxed => asCanonical (ofResult (proxy.decodeProxy decoded.1))
        | .distinguished =>
            (ofResult (proxy.decodeProxyDistinguished decoded.1)).bind fun value =>
              .check value.2 (.done (value.1, decoded.2.update value.2)) := by
  cases way with
  | distinguished => rfl
  | relaxed => simp only [decodeBy, proxied, asCanonical, Program.bind_eq, bind_assoc, done_bind]

end ValueCodec

namespace FieldCodec

variable {T : Type} (codec : FieldCodec T)

def decodeBy (way : Way) (mode : DecodingMode) (depth : Nat) (wireType : WireType) (value : T) :
    Program (T × Canonicity) :=
  match way with
  | .relaxed => asCanonical (codec.decode mode depth wireType value)
  | .distinguished => codec.decodeDistinguished mode depth wireType value

end FieldCodec

namespace ValueCodec

variable {T C : Type}

theorem plain_decodeBy (codec : ValueCodec T) (state : EmptyState T) (way : Way)
    (mode : DecodingMode) (depth : Nat) (wireType : WireType) (value : T) :
    (codec.plain state).decodeBy way mode depth wireType value =
      (codec.decodeFieldBy way mode false depth wireType value).bind fun decoded =>
        way.refuseEmpty (!codec.checksEmpty && state.isEmpty decoded.1) decoded := by
  cases way with
  | relaxed =>
    simp only [FieldCodec.decodeBy, plain, codec.asCanonical_decodeField mode false,
      Way.refuseEmpty_relaxed, bind_done]
  | distinguished =>
    simp only [FieldCodec.decodeBy, plain, decodeFieldDistinguished_eq, Program.bind_eq]
    congr 1
    funext ⟨decoded, canon⟩
    cases !codec.checksEmpty && state.isEmpty decoded <;>
      simp [Way.refuseEmpty, checked]

theorem optional_decodeBy (codec : ValueCodec T) (way : Way) (mode : DecodingMode) (depth : Nat)
    (wireType : WireType) (value : Option T) :
    codec.optional.decodeBy way mode depth wireType value =
      (codec.decodeFieldBy way mode true depth wireType
        (value.getD codec.forOverwrite)).bind fun decoded => .done (some decoded.1, decoded.2) := by
  cases way with
  | distinguished => rfl
  | relaxed =>
    simp only [FieldCodec.decodeBy, optional, asCanonical, decodeFieldBy, decodeBy, decodeField,
      Program.bind_eq, bind_assoc, done_bind]

section
variable (item : ValueCodec T) (coll : Collection C T)

def decodeRepeatedBy (way : Way) (mode : DecodingMode) (depth : Nat) (wireType : WireType)
    (state : C × Canonicity) : Program (C × Canonicity) :=
  (checkWireType item.wireType wireType).bind fun _ => item.decodeItemBy coll way mode depth state

/-- `unpacked::decode` and `unpacked::decode_distinguished`. -/
def decodeUnpackedBy (way : Way) (mode : DecodingMode) (depth : Nat) (wireType : WireType)
    (items : C) : Program (C × Canonicity) :=
  (item.decodeRepeatedBy coll way mode depth wireType (items, .canonical)).bind fun state =>
    whileRepeated (item.decodeRepeatedBy coll way mode depth) state

theorem decodeRepeatedBy_relaxed (mode : DecodingMode) (depth : Nat) (wireType : WireType)
    (items : C) :
    item.decodeRepeatedBy coll .relaxed mode depth wireType (items, .canonical) =
      asCanonical (item.decodeRepeated coll mode depth wireType items) := by
  simp only [decodeRepeatedBy, decodeItemBy_relaxed, decodeRepeated, Program.bind_eq,
    asCanonical_bind]

theorem decodeUnpackedBy_relaxed (mode : DecodingMode) (depth : Nat) (wireType : WireType)
    (items : C) :
    item.decodeUnpackedBy coll .relaxed mode depth wireType items =
      asCanonical (item.decodeUnpacked coll mode depth wireType items) := by
  simp only [decodeUnpackedBy, decodeUnpacked, decodeRepeatedBy_relaxed, Program.bind_eq,
    asCanonical_bind]
  rw [asCanonical, bind_assoc]
  congr 1
  funext items
  exact whileRepeated_map (f := fun items : C => (items, Canonicity.canonical))
    (fun wireType items => item.decodeRepeatedBy_relaxed coll mode depth wireType items) items

theorem unpackedField_decodeBy (way : Way) (mode : DecodingMode) (depth : Nat)
    (wireType : WireType) (value : C) :
    (item.unpackedField coll).decodeBy way mode depth wireType value =
      if item.comesPacked wireType then
        way.demote ((item.packed coll).decodeValue mode depth value)
      else item.decodeUnpackedBy coll way mode depth wireType value := by
  cases way with
  | relaxed =>
    simp only [FieldCodec.decodeBy, unpackedField, decodeUnpackedBy_relaxed, Way.demote]
    split_ifs <;> rfl
  | distinguished => rfl

theorem packedField_decodeBy (way : Way) (mode : DecodingMode) (depth : Nat)
    (wireType : WireType) (value : C) :
    (item.packedField coll).decodeBy way mode depth wireType value =
      if wireType = .lengthDelimited then
        ((item.packed coll).decodeBy way mode false depth value).bind fun decoded =>
          way.refuseEmpty (coll.isEmpty decoded.1) decoded
      else way.demote (item.decodeUnpacked coll mode depth wireType value) := by
  cases way with
  | relaxed =>
    simp only [FieldCodec.decodeBy, packedField, Way.refuseEmpty_relaxed, bind_done, Way.demote,
      decodeBy]
    split_ifs <;> rfl
  | distinguished =>
    simp only [FieldCodec.decodeBy, packedField, decodeBy, Program.bind_eq]
    split_ifs
    · congr 1
      funext ⟨decoded, canon⟩
      cases coll.isEmpty decoded <;>
        simp [Way.refuseEmpty, checked, packed, packedItems]
    · rfl

end

section
variable (item : ValueCodec T) {n : Nat}

/-- Decoding into each item, in one way or the other. -/
theorem decodeEachDistinguished_asCanonical (decode : T → Program T) (arr : List.Vector T n) :
    decodeEachDistinguished (fun dest => asCanonical (decode dest)) arr =
      asCanonical (decodeEach decode arr) := by
  induction n with
  | zero => rfl
  | succ n ih =>
    simp only [decodeEachDistinguished, decodeEach, ih, Program.bind_eq]
    simp only [asCanonical, bind_assoc, done_bind, Canonicity.update_canonical]
    rfl

theorem packedArray_decodeBy (way : Way) (mode : DecodingMode) (allowEmpty : Bool) (depth : Nat)
    (value : List.Vector T n) :
    Same ((item.packedArray n).decodeBy way mode allowEmpty depth value)
      (delimited fun len =>
        if item.missizes n len then error .invalidValue
        else (decodeEachDistinguished (fun dest => item.anotherItem.bind fun _ =>
            item.decodeBy way mode true depth dest) value).bind fun decoded =>
          item.noMoreItems.bind fun _ => .done decoded) := by
  cases way with
  | distinguished => exact Same.refl _
  | relaxed =>
    have hinner (len : Nat) :
        asCanonical (if item.missizes n len then error .invalidValue
          else (decodeEach (fun dest => item.anotherItem.bind fun _ =>
              item.decodeValue mode depth dest) value).bind fun value =>
            item.noMoreItems.bind fun _ => .done value) =
        if item.missizes n len then error .invalidValue
          else (decodeEachDistinguished (fun dest => item.anotherItem.bind fun _ =>
              item.decodeBy .relaxed mode true depth dest) value).bind fun decoded =>
            item.noMoreItems.bind fun _ => .done decoded := by
      split_ifs
      · rfl
      · simp only [decodeBy, ← asCanonical_bind, decodeEachDistinguished_asCanonical]
        simp only [asCanonical, bind_assoc, done_bind]
    simp only [← hinner]
    exact same_asCanonical_delimited _

def decodeArrayFieldsBy (way : Way) (mode : DecodingMode) (depth : Nat) (arr : List.Vector T n) :
    Program (List.Vector T n × Canonicity) :=
  item.decodeArrayFieldsDistinguished (item.decodeBy way mode true depth) arr

theorem decodeArrayFieldsBy_relaxed (mode : DecodingMode) (depth : Nat) (arr : List.Vector T n) :
    item.decodeArrayFieldsBy .relaxed mode depth arr =
      asCanonical (item.decodeArrayFields (item.decodeValue mode depth) arr) := by
  cases n with
  | zero => rfl
  | succ n =>
    simp only [decodeArrayFieldsBy, decodeArrayFieldsDistinguished, decodeArrayFields, decodeBy,
      Program.bind_eq, ← asCanonical_bind, decodeEachDistinguished_asCanonical]
    simp only [asCanonical, bind_assoc, done_bind, Canonicity.update_canonical]

/-- `decode_array_unpacked_only` and its distinguished form. -/
def decodeArrayUnpackedOnlyBy (way : Way) (mode : DecodingMode) (depth : Nat)
    (wireType : WireType) (arr : List.Vector T n) : Program (List.Vector T n × Canonicity) :=
  (checkWireType item.wireType wireType).bind fun _ =>
    (item.decodeArrayFieldsBy way mode depth arr).bind fun decoded =>
      noMoreFields.bind fun _ => .done decoded

theorem decodeArrayUnpackedOnlyBy_relaxed (mode : DecodingMode) (depth : Nat)
    (wireType : WireType) (arr : List.Vector T n) :
    item.decodeArrayUnpackedOnlyBy .relaxed mode depth wireType arr =
      asCanonical (item.decodeArrayUnpackedOnly mode depth wireType arr) := by
  simp only [decodeArrayUnpackedOnlyBy, decodeArrayFieldsBy_relaxed, decodeArrayUnpackedOnly,
    asCanonical, Program.bind_eq, bind_assoc, done_bind]

/-- `decode_array_either_repr` and its distinguished form. -/
def decodeArrayEitherReprBy (way : Way) (mode : DecodingMode) (depth : Nat)
    (wireType : WireType) (arr : List.Vector T n) : Program (List.Vector T n × Canonicity) :=
  if item.comesPacked wireType then way.demote ((item.packedArray n).decodeValue mode depth arr)
  else item.decodeArrayUnpackedOnlyBy way mode depth wireType arr

theorem decodeArrayEitherReprBy_relaxed (mode : DecodingMode) (depth : Nat)
    (wireType : WireType) (arr : List.Vector T n) :
    item.decodeArrayEitherReprBy .relaxed mode depth wireType arr =
      asCanonical (item.decodeArrayEitherRepr mode depth wireType arr) := by
  simp only [decodeArrayEitherReprBy, decodeArrayEitherRepr, Way.demote,
    decodeArrayUnpackedOnlyBy_relaxed]
  split_ifs <;> rfl

theorem decodeArrayEitherReprBy_distinguished (mode : DecodingMode) (depth : Nat)
    (wireType : WireType) (arr : List.Vector T n) :
    item.decodeArrayEitherReprBy .distinguished mode depth wireType arr =
      item.decodeArrayEitherReprDistinguished mode depth wireType arr := rfl

theorem unpackedArrayField_decodeBy (state : EmptyState T) (way : Way) (mode : DecodingMode)
    (depth : Nat) (wireType : WireType) (value : List.Vector T n) :
    (item.unpackedArrayField state n).decodeBy way mode depth wireType value =
      (item.decodeArrayEitherReprBy way mode depth wireType value).bind fun decoded =>
        way.refuseEmpty ((state.array n).isEmpty decoded.1) decoded := by
  cases way with
  | relaxed =>
    simp only [FieldCodec.decodeBy, unpackedArrayField, decodeArrayEitherReprBy_relaxed,
      Way.refuseEmpty_relaxed, bind_done]
  | distinguished =>
    simp only [FieldCodec.decodeBy, unpackedArrayField, decodeArrayEitherReprBy_distinguished,
      Program.bind_eq]
    congr 1
    funext ⟨decoded, canon⟩
    cases (state.array n).isEmpty decoded <;> simp [Way.refuseEmpty, checked]

theorem packedArrayField_decodeBy (state : EmptyState T) (way : Way) (mode : DecodingMode)
    (depth : Nat) (wireType : WireType) (value : List.Vector T n) :
    (item.packedArrayField state n).decodeBy way mode depth wireType value =
      if wireType = .lengthDelimited then
        ((item.packedArray n).decodeBy way mode false depth value).bind fun decoded =>
          way.refuseEmpty ((state.array n).isEmpty decoded.1) decoded
      else way.demote (item.decodeArrayUnpackedOnly mode depth wireType value) := by
  cases way with
  | relaxed =>
    simp only [FieldCodec.decodeBy, packedArrayField, Way.refuseEmpty_relaxed, bind_done,
      Way.demote, decodeBy]
    split_ifs <;> rfl
  | distinguished =>
    simp only [FieldCodec.decodeBy, packedArrayField, decodeBy, Program.bind_eq]
    split_ifs
    · congr 1
      funext ⟨decoded, canon⟩
      cases (state.array n).isEmpty decoded <;> simp [Way.refuseEmpty, checked]
    · rfl

theorem unpackedArrayOptionField_decodeBy (way : Way) (mode : DecodingMode) (depth : Nat)
    (wireType : WireType) (value : Option (List.Vector T n)) :
    (item.unpackedArrayOptionField n).decodeBy way mode depth wireType value =
      (item.decodeArrayEitherReprBy way mode depth wireType
        (value.getD (List.Vector.replicate n item.forOverwrite))).bind fun decoded =>
          .done (some decoded.1, decoded.2) := by
  cases way with
  | relaxed =>
    simp only [FieldCodec.decodeBy, unpackedArrayOptionField, decodeArrayEitherReprBy_relaxed,
      asCanonical, Program.bind_eq, bind_assoc, done_bind]
  | distinguished => rfl

end

end ValueCodec

end Bilrost
