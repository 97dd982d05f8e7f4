import Bilrost.Schema.Basic
import Bilrost.Schema.Depth

/-!
All decoders account for the depth of recursion.
-/

namespace Bilrost

open Program

def ValueCodec.Counted {T : Type} (codec : ValueCodec T) : Prop :=
  ∀ way mode allowEmpty depth value,
    Program.Counted way depth (codec.decodeBy way mode allowEmpty depth value)

def FieldCodec.Counted {T : Type} (codec : FieldCodec T) : Prop :=
  ∀ way mode depth wireType value,
    Program.Counted way depth (codec.decodeBy way mode depth wireType value)

def MessageField.Counted {T : Type} (field : MessageField T) : Prop :=
  ∀ way mode depth tag wireType duplicated value,
    Program.Counted way depth (field.decodeBy way mode depth tag wireType duplicated value)

def MessageCodec.Counted {M : Type} (codec : MessageCodec M) : Prop :=
  ∀ way mode depth tag wireType duplicated m,
    Program.Counted way depth (codec.fieldBy way mode depth tag wireType duplicated m)

section
variable {way : Way} {depth : Nat}

theorem counted_checkWireType (expected actual : WireType) :
    Program.Counted way depth (checkWireType expected actual) := by
  rw [checkWireType]
  split_ifs
  · exact counted_error (by decide)
  · exact counted_done ()

theorem counted_skipField (wireType : WireType) :
    Program.Counted way depth (skipField wireType) := by
  have value (wireType : WireType) : Program.Counted way depth (skipValue wireType) := by
    cases wireType with
    | varint => exact Counted.op rfl rfl fun _ => Counted.op rfl rfl counted_done
    | lengthDelimited => exact Counted.op rfl rfl fun _ => Counted.op rfl rfl counted_done
    | thirtyTwoBit => exact Counted.op rfl rfl counted_done
    | sixtyFourBit => exact Counted.op rfl rfl counted_done
  exact (value wireType).bind fun _ => Counted.whileRepeated (fun wireType _ => value wireType) ()

theorem TagReader.counted_decodeKey (tr : TagReader) :
    Program.Counted way depth tr.decodeKey := by
  refine Counted.op rfl rfl fun key => counted_ofResult ?_
  simp only [readKey, Refuses]
  split_ifs <;> simp

theorem DelimitedRead.counted_bytes (reads : DelimitedRead) :
    Program.Counted way depth reads.bytes := by
  cases reads with
  | copied => exact Counted.delimited fun _ => (Counted.op rfl rfl counted_done).toTraced
  | smolStr => exact Counted.delimited fun _ => (Counted.op rfl rfl counted_done).toTraced
  | borrowed => exact Counted.op rfl rfl counted_done

theorem counted_fieldsFrom {σ : Type} {decode : Nat → WireType → Bool → σ → Program σ}
    (h : ∀ tag wireType dup s, Program.Counted way depth (decode tag wireType dup s)) (last : Nat)
    (lastTag : Option Nat) (s : σ) : Program.Counted way depth (fieldsFrom decode last lastTag s) := by
  refine (Counted.whileRemaining (fun state => ?_) _).map _
  exact (TagReader.counted_decodeKey _).bind fun _ => (h _ _ _ _).map _

end

theorem Scalar.Standard.counted {T : Type} {scalar : Scalar T} (h : scalar.Standard) :
    scalar.codec.Counted := by
  intro way mode allowEmpty depth value
  rw [Scalar.decodeBy_eq]
  refine Program.Counted.map ?_ _
  cases h with
  | varint h => exact Counted.op rfl rfl fun n => counted_ofResult (h.refuses n)
  | fixed h =>
    simp only [FixedScalar.scalar]
    split_ifs <;> exact Counted.op rfl rfl fun bytes => counted_ofResult (h.refuses bytes)
  | delimited h =>
    exact (DelimitedRead.counted_bytes _).bind fun bytes => counted_ofResult (h.refuses bytes)
  | plainArray n =>
    refine Counted.delimited fun len => ?_
    split_ifs
    · exact (counted_error (by decide)).toTraced
    · refine (Counted.op rfl rfl fun bytes => ?_).toTraced
      split_ifs
      · exact counted_done _
      · exact counted_error (by decide)

/-- Inserting an item never fails at the limit. -/
def Collection.Refuses {C T : Type} (coll : Collection C T) : Prop :=
  ∀ items item, Bilrost.Refuses (coll.insert items item) ∧
    Bilrost.Refuses (coll.insertDistinguished items item)

namespace Collection

variable {C T : Type} {coll : Collection C T}

theorem refuses_trivially {insert : C → T → Except DecodeErrorKind C}
    (h : ∀ items item, Bilrost.Refuses (insert items item)) (items : C) (item : T) :
    Bilrost.Refuses (trivially insert items item) := by
  rw [trivially, Bilrost.Refuses]
  cases hinsert : insert items item with
  | ok items => rintro ⟨⟩
  | error kind =>
    intro hmap
    exact h items item (by simpa [Except.map, hinsert] using hmap)

theorem refuses_vec (T : Type) : (vec T).Refuses :=
  fun _ _ => ⟨fun h => (by cases h), fun h => by cases h⟩

theorem refuses_arrayVec (T : Type) (capacity : Nat) : (arrayVec T capacity).Refuses := by
  have hpush (items : {l : List T // l.length ≤ capacity}) (item : T) :
      Bilrost.Refuses (arrayVec.push T capacity items item) := by
    rw [arrayVec.push, Bilrost.Refuses]
    split_ifs <;> simp
  exact fun items item => ⟨hpush items item, refuses_trivially hpush items item⟩

theorem refuses_btreeMap (K V : Type) [LinearOrder K] : (btreeMap K V).Refuses := by
  have hinsert (map : SortedMap K V) (entry : K × V) :
      Bilrost.Refuses (btreeMap.insertNew K V map entry) := by
    rw [btreeMap.insertNew, Bilrost.Refuses]
    split_ifs <;> simp
  refine fun map entry => ⟨hinsert map entry, ?_⟩
  have hagrees := hinsert map entry
  simp only [btreeMap, Bilrost.Refuses] at hagrees ⊢
  split
  · simp
  · split
    · cases hnew : btreeMap.insertNew K V map entry with
      | ok map => simp [Except.map]
      | error kind => simpa [Except.map, hnew] using hagrees
    · simp
    · simp

theorem refuses_hashMap (K V : Type) [DecidableEq K] (place : List (K × V) → Nat) :
    (hashMap K V place).Refuses := by
  have hinsert (map : {l : List (K × V) // (l.map Prod.fst).Nodup}) (entry : K × V) :
      Bilrost.Refuses (hashMap.insertNew K V place map entry) := by
    rw [hashMap.insertNew, Bilrost.Refuses]
    split_ifs <;> simp
  exact fun map entry => ⟨hinsert map entry, refuses_trivially hinsert map entry⟩

theorem Standard.refuses {allowed : Features} (h : coll.Standard allowed) : coll.Refuses := by
  cases h with
  | vec => exact refuses_vec _
  | arrayVec => exact refuses_arrayVec _ _
  | btreeMap => exact refuses_btreeMap _ _
  | btreeSet => exact fun items item => refuses_btreeMap T Unit items (item, ())
  | hashMap => exact refuses_hashMap _ _ _
  | hashSet _ place => exact fun items item => refuses_hashMap T Unit place items (item, ())

end Collection

theorem LocalProxy.refuses (T : Type) (n : Nat) (empty : T) :
    (collection T n empty).Refuses := by
  have hinsert (proxy : LocalProxy T n) (item : T) : Bilrost.Refuses (proxy.insert item) := by
    rw [LocalProxy.insert, Bilrost.Refuses]
    split_ifs <;> simp
  exact fun proxy item => ⟨hinsert proxy item, Collection.refuses_trivially hinsert proxy item⟩

namespace ValueCodec

variable {C T K V : Type}

theorem Counted.decodeValue {codec : ValueCodec T} (h : codec.Counted) (mode : DecodingMode)
    (depth : Nat) (value : T) :
    Program.Counted .relaxed depth (codec.decodeValue mode depth value) :=
  (h .relaxed mode true depth value).of_asCanonical

section
variable {item : ValueCodec T} (hitem : item.Counted) {coll : Collection C T}
  (hcoll : coll.Refuses)
include hitem hcoll

theorem Counted.decodeItemBy (way : Way) (mode : DecodingMode) (depth : Nat)
    (state : C × Canonicity) :
    Program.Counted way depth (item.decodeItemBy coll way mode depth state) := by
  refine (hitem way mode true depth _).bind fun newVal => Program.Counted.map ?_ _
  cases way with
  | relaxed => exact (counted_ofResult (hcoll _ _).1).map _
  | distinguished =>
    exact (counted_ofResult (hcoll _ _).2).bind fun _ => ((counted_done _).check).map _

theorem Counted.packedItems (fixedSize : Option Nat) :
    (packedItems fixedSize item coll).Counted := by
  intro way mode allowEmpty depth value
  refine (packedItems_decodeBy fixedSize item coll way mode allowEmpty depth value).counted
    (Program.Counted.delimited fun len => ?_)
  split_ifs
  · exact (counted_error (by decide)).toTraced
  · exact (Program.Counted.whileRemaining (hitem.decodeItemBy hcoll way mode depth) _).toTraced

theorem Counted.decodeUnpackedBy (way : Way) (mode : DecodingMode) (depth : Nat)
    (wireType : WireType) (items : C) :
    Program.Counted way depth (item.decodeUnpackedBy coll way mode depth wireType items) := by
  have hrepeated (wireType : WireType) (state : C × Canonicity) :
      Program.Counted way depth (item.decodeRepeatedBy coll way mode depth wireType state) :=
    (counted_checkWireType _ _).bind fun _ => hitem.decodeItemBy hcoll way mode depth state
  exact (hrepeated wireType _).bind fun state => Program.Counted.whileRepeated hrepeated state

theorem Counted.unpackedField : (item.unpackedField coll).Counted := by
  intro way mode depth wireType value
  rw [unpackedField_decodeBy]
  split_ifs
  · exact counted_demote way ((hitem.packedItems hcoll _).decodeValue mode depth value)
  · exact hitem.decodeUnpackedBy hcoll way mode depth wireType value

theorem Counted.packedField : (item.packedField coll).Counted := by
  intro way mode depth wireType value
  rw [packedField_decodeBy]
  split_ifs
  · exact (hitem.packedItems hcoll _ way mode false depth value).bind fun decoded =>
      counted_refuseEmpty _ decoded
  · refine counted_demote way (Program.Counted.of_asCanonical ?_)
    rw [← decodeUnpackedBy_relaxed]
    exact hitem.decodeUnpackedBy hcoll .relaxed mode depth wireType value

end

theorem Counted.entry {key : ValueCodec K} {val : ValueCodec V} (hkey : key.Counted)
    (hval : val.Counted) : (key.entry val).Counted := by
  intro way mode allowEmpty depth e
  rw [entry_decodeBy]
  exact (hkey way mode allowEmpty depth e.1).bind fun _ =>
    (hval way mode allowEmpty depth e.2).map _

section
variable {item : ValueCodec T} {n : Nat} {way : Way} {depth : Nat}

theorem counted_decodeEach {decode : T → Program (T × Canonicity)}
    (h : ∀ v, Program.Counted way depth (decode v)) (arr : List.Vector T n) :
    Program.Counted way depth (decodeEachDistinguished decode arr) := by
  induction n with
  | zero => exact counted_done _
  | succ n ih => exact (h _).bind fun _ => (ih _).map _

theorem counted_anotherItem (item : ValueCodec T) :
    Program.Counted way depth item.anotherItem := by
  rw [anotherItem]
  split_ifs
  · refine Program.Counted.op rfl rfl fun more => ?_
    cases more with
    | true => exact counted_done _
    | false => exact counted_error (by decide)
  · exact counted_done _

theorem counted_noMoreItems (item : ValueCodec T) :
    Program.Counted way depth item.noMoreItems := by
  rw [noMoreItems]
  split_ifs
  · refine Program.Counted.op rfl rfl fun more => ?_
    cases more with
    | true => exact counted_error (by decide)
    | false => exact counted_done _
  · exact counted_done _

theorem counted_nextField (item : ValueCodec T) : Program.Counted way depth item.nextField := by
  refine Program.Counted.op rfl rfl fun next => ?_
  cases next with
  | some wireType => exact counted_checkWireType _ _
  | none => exact counted_error (by decide)

theorem counted_noMoreFields : Program.Counted way depth noMoreFields := by
  refine Program.Counted.op rfl rfl fun next => ?_
  split_ifs
  · exact counted_error (by decide)
  · exact counted_done _

end

section
variable {item : ValueCodec T} {n : Nat} (hitem : item.Counted)
include hitem

theorem Counted.packedArray (n : Nat) : (item.packedArray n).Counted := by
  intro way mode allowEmpty depth value
  refine (packedArray_decodeBy item way mode allowEmpty depth value).counted
    (Program.Counted.delimited fun len => ?_)
  split_ifs
  · exact (counted_error (by decide)).toTraced
  · refine Program.Counted.toTraced ((counted_decodeEach (fun v => ?_) value).bind fun decoded =>
      (counted_noMoreItems item).map _)
    exact (counted_anotherItem item).bind fun _ => hitem way mode true depth v

theorem Counted.decodeArrayUnpackedOnlyBy (way : Way) (mode : DecodingMode) (depth : Nat)
    (wireType : WireType) (arr : List.Vector T n) :
    Program.Counted way depth (item.decodeArrayUnpackedOnlyBy way mode depth wireType arr) := by
  refine (counted_checkWireType _ _).bind fun _ => Program.Counted.bind ?_ fun decoded =>
    counted_noMoreFields.map _
  cases n with
  | zero => exact counted_done _
  | succ n =>
    refine (hitem way mode true depth _).bind fun first =>
      (counted_decodeEach (fun v => ?_) _).map _
    exact (counted_nextField item).bind fun _ => hitem way mode true depth v

theorem Counted.decodeArrayEitherReprBy (way : Way) (mode : DecodingMode) (depth : Nat)
    (wireType : WireType) (arr : List.Vector T n) :
    Program.Counted way depth (item.decodeArrayEitherReprBy way mode depth wireType arr) := by
  rw [ValueCodec.decodeArrayEitherReprBy]
  split_ifs
  · exact counted_demote way ((hitem.packedArray n).decodeValue mode depth arr)
  · exact hitem.decodeArrayUnpackedOnlyBy way mode depth wireType arr

theorem Counted.unpackedArrayField (state : EmptyState T) (n : Nat) :
    (item.unpackedArrayField state n).Counted := by
  intro way mode depth wireType value
  rw [unpackedArrayField_decodeBy]
  exact (hitem.decodeArrayEitherReprBy way mode depth wireType value).bind fun decoded =>
    counted_refuseEmpty _ decoded

theorem Counted.packedArrayField (state : EmptyState T) (n : Nat) :
    (item.packedArrayField state n).Counted := by
  intro way mode depth wireType value
  rw [packedArrayField_decodeBy]
  split_ifs
  · exact (hitem.packedArray n way mode false depth value).bind fun decoded =>
      counted_refuseEmpty _ decoded
  · refine counted_demote way (Program.Counted.of_asCanonical ?_)
    rw [← decodeArrayUnpackedOnlyBy_relaxed]
    exact hitem.decodeArrayUnpackedOnlyBy .relaxed mode depth wireType value

theorem Counted.unpackedArrayOptionField (n : Nat) :
    (item.unpackedArrayOptionField n).Counted := by
  intro way mode depth wireType value
  rw [unpackedArrayOptionField_decodeBy]
  exact (hitem.decodeArrayEitherReprBy way mode depth wireType _).map _

end

theorem Counted.proxied {P : Type} {codec : ValueCodec P} (hcodec : codec.Counted)
    {proxy : Proxy T P} (hproxy : proxy.Lawful) (forOverwrite : T)
    (emptyState : Option (EmptyState T)) :
    (codec.proxied proxy forOverwrite emptyState).Counted := by
  intro way mode allowEmpty depth value
  rw [proxied_decodeBy]
  refine (hcodec way mode allowEmpty depth _).bind fun decoded => ?_
  cases way with
  | relaxed => exact (counted_ofResult (hproxy.refuses _)).map _
  | distinguished =>
    refine (counted_ofResult fun hlimit => ?_).bind fun _ => (counted_done _).check
    refine hproxy.refuses decoded.1 ?_
    rw [← hproxy.distinguished, hlimit]
    rfl

theorem Counted.decodeFieldBy {codec : ValueCodec T} (h : codec.Counted) (way : Way)
    (mode : DecodingMode) (allowEmpty : Bool) (depth : Nat) (wireType : WireType) (value : T) :
    Program.Counted way depth
      (codec.decodeFieldBy way mode allowEmpty depth wireType value) :=
  (counted_checkWireType _ _).bind fun _ => h way mode allowEmpty depth value

theorem Counted.plain {codec : ValueCodec T} (h : codec.Counted) (state : EmptyState T) :
    (codec.plain state).Counted := by
  intro way mode depth wireType value
  rw [plain_decodeBy]
  exact (h.decodeFieldBy way mode false depth wireType value).bind fun decoded =>
    counted_refuseEmpty _ decoded

theorem Counted.optional {codec : ValueCodec T} (h : codec.Counted) : codec.optional.Counted := by
  intro way mode depth wireType value
  rw [optional_decodeBy]
  exact (h.decodeFieldBy way mode true depth wireType _).map _

end ValueCodec

namespace MessageCodec

variable {M : Type} {codec : MessageCodec M} (h : codec.Counted)
include h

theorem Counted.mergeBy (way : Way) (mode : DecodingMode) (depth : Nat) (m : M) :
    Program.Counted way depth (codec.mergeBy way mode depth m) := by
  have hstep (tag : Nat) (wireType : WireType) (dup : Bool) (state : M × Canonicity) :
      Program.Counted way depth (codec.stepBy way mode depth tag wireType dup state) :=
    (h way mode depth tag wireType dup state.1).map _
  exact counted_fieldsFrom hstep 0 none _

omit h in
theorem counted_refused {way : Way} {depth : Nat} (m : M) :
    Program.Counted way depth (refused m) :=
  (counted_done _).check

theorem Counted.nested : codec.nested.Counted := by
  intro way mode allowEmpty depth m
  refine (codec.nested_decodeBy way mode allowEmpty depth m).counted
    (Program.Counted.limitReached fun hdepth => Program.Counted.delimited fun len => ?_)
  split_ifs
  · exact (counted_refused m).enters hdepth
  · exact (h.mergeBy way mode (depth - 1) m).enters hdepth

theorem Counted.tupled : codec.tupled.Counted := by
  intro way mode allowEmpty depth m
  refine (codec.tupled_decodeBy way mode allowEmpty depth m).counted
    (Program.Counted.delimited fun len => ?_)
  split_ifs with hshort
  · have hway : way = .distinguished := by
      cases way with
      | relaxed => simp at hshort
      | distinguished => rfl
    exact ((counted_refused m).skipsEmpty hway).toTraced
  · exact Traced.limitReached fun hdepth => (h.mergeBy way mode (depth - 1) m).enters hdepth

theorem Counted.inlined : codec.inlined.Counted := by
  intro way mode allowEmpty depth m
  exact (codec.inlined_decodeBy way mode allowEmpty depth m).counted
    (Program.Counted.delimited fun _ => (h.mergeBy way mode depth m).entersVariant)

end MessageCodec

theorem FieldCodec.Counted.tagged {T : Type} {codec : FieldCodec T} (h : codec.Counted)
    (tag : Nat) : (codec.tagged tag).Counted := by
  intro way mode depth tag' wireType duplicated value
  rw [tagged_decodeBy]
  split_ifs
  · exact counted_error (by decide)
  · exact h way mode depth wireType value

theorem Oneof.counted {T : Type} {oneof : Oneof T} (h : ∀ i, (oneof.codec i).Counted) :
    oneof.field.Counted := by
  intro way mode depth tag wireType duplicated value
  rw [field_decodeBy]
  split
  · refine counted_error ?_
    split_ifs <;> decide
  · next i _ _ => exact ((h i).decodeFieldBy way mode true depth wireType _).map _
  · exact counted_error (by decide)

theorem Way.counted_skipUnknown {M : Type} {depth : Nat} (way : Way) (wireType : WireType) (m : M) :
    Program.Counted way depth (way.skipUnknown wireType m) := by
  cases way with
  | relaxed => exact (counted_skipField wireType).map _
  | distinguished => exact ((counted_skipField wireType).map _).check

theorem Fields.counted {M : Type} {F : Fields M} {w : F.Writing}
    (h : ∀ i, (F.field i).Counted) : (F.message w).Counted := by
  intro way mode depth tag wireType duplicated m
  rw [message_fieldBy]
  split
  · next i _ => exact (h i way mode depth tag wireType duplicated _).map _
  · exact way.counted_skipUnknown wireType m

theorem MessageCodec.counted_of_sameTo {M : Type} {codec : MessageCodec M}
    {approx : Nat → MessageCodec M} (hsame : ∀ depth, codec.SameTo depth (approx depth))
    (h : ∀ depth, (approx depth).Counted) : codec.Counted := by
  intro way mode depth tag wireType duplicated m
  rw [(hsame depth).fieldBy way mode le_rfl]
  exact h depth way mode depth tag wireType duplicated m

theorem MessageCodec.counted_of_unrolls {M : Type} {codec : MessageCodec M}
    {approx : Nat → MessageCodec M} {within : Nat → M → Prop}
    (hunrolls : codec.Unrolls approx within) (h : ∀ n, (approx n).Counted) : codec.Counted := by
  intro way mode depth tag wireType duplicated m
  rw [hunrolls.fieldBy]
  exact Counted.op rfl rfl fun len => h len way mode depth tag wireType duplicated m

def Part.Counted : Part → Prop
  | .value codec => codec.Counted
  | .field codec => codec.Counted
  | .messageField fld => fld.Counted
  | .message codec => codec.Counted

/-- All decoders account for the depth of recursion. -/
theorem Built.counted {allowed : Features} {part : Part} (h : Built allowed part) :
    part.Counted := by
  induction h with
  | scalar h => exact h.counted
  | packed hcoll _ hitem => exact hitem.packedItems hcoll.refuses _
  | localProxy n empty _ _ hitem => exact hitem.packedItems (LocalProxy.refuses _ n empty) _
  | map hcoll _ _ hkey hval => exact (hkey.entry hval).packedItems hcoll.refuses _
  | packedArray _ _ hitem => exact hitem.packedArray _
  | proxied _ _ _ hproxy _ hcodec => exact hcodec.proxied hproxy _ _
  | nested _ hcodec => exact hcodec.nested
  | tupled _ hcodec => exact hcodec.tupled
  | inlined _ hcodec => exact hcodec.inlined
  | plain _ _ _ hcodec => exact hcodec.plain _
  | optional _ hcodec => exact hcodec.optional
  | unpackedField hcoll _ hitem => exact hitem.unpackedField hcoll.refuses
  | packedField hcoll _ hitem => exact hitem.packedField hcoll.refuses
  | unpackedArrayField _ _ _ _ hitem => exact hitem.unpackedArrayField _ _
  | packedArrayField _ _ _ _ hitem => exact hitem.packedArrayField _ _
  | unpackedArrayOptionField _ _ hitem => exact hitem.unpackedArrayOptionField _
  | tagged tag _ hcodec => exact hcodec.tagged tag
  | oneof _ hvariants => exact Oneof.counted hvariants
  | fields _ _ _ _ hfields => exact Fields.counted hfields
  | recursive approx hsame _ _ happrox => exact MessageCodec.counted_of_sameTo hsame happrox
  | unrolled approx _ hunrolls _ happrox => exact MessageCodec.counted_of_unrolls hunrolls happrox

end Bilrost
