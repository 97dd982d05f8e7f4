import Bilrost.Schema.Regular

/-!
The canonicity that a decoder returns is the lowest one that it has checked.
The two are kept separately: the source checks every canonicity where it arises,
and adds up what is returned along the way.
-/

namespace Bilrost

namespace Program

/-- What is returned is what was known before together with the lowest that was
checked. -/
def Tallies {α : Type} (acc : Canonicity) (p : Program (α × Canonicity)) : Prop :=
  p.Yields fun lowest decoded => acc.update lowest = decoded.2

/-- No canonicity is checked that is not the highest. -/
def Silent {α : Type} (p : Program α) : Prop :=
  p.Yields fun lowest _ => lowest = .canonical

section
variable {α δ γ : Type} {acc : Canonicity}

theorem silent_done (value : α) : Silent (.done value) := Yields.done rfl

theorem silent_error (kind : DecodeErrorKind) : Silent (error kind : Program α) :=
  Yields.error _ kind

theorem silent_ofResult (result : Except DecodeErrorKind α) : Silent (ofResult result) := by
  cases result with
  | ok value => exact silent_done value
  | error kind => exact silent_error kind

theorem Silent.op {o : Op γ} {next : γ → Program α} (h : ∀ x, (next x).Silent) :
    Silent (.op o next) := Yields.op h

theorem Silent.bind {p : Program α} {f : α → Program δ} (hp : p.Silent) (hf : ∀ x, (f x).Silent) :
    (p.bind f).Silent := by
  refine Yields.bind hp fun lowest x hlowest => ?_
  subst hlowest
  exact (hf x).mono fun lowest _ hlowest => by simpa using hlowest

theorem tallies_done (value : α) : Tallies acc (.done (value, acc)) :=
  Yields.done (Canonicity.update_canonical acc)

theorem tallies_error (kind : DecodeErrorKind) :
    Tallies acc (error kind : Program (α × Canonicity)) := Yields.error _ kind

theorem Tallies.check {canon : Canonicity} {next : Program (α × Canonicity)}
    (h : Tallies (acc.update canon) next) : Tallies acc (.check canon next) :=
  Yields.check (h.mono fun lowest _ htally => by rwa [← Canonicity.update_assoc])

theorem Tallies.op {o : Op γ} {next : γ → Program (α × Canonicity)}
    (h : ∀ x, Tallies acc (next x)) : Tallies acc (.op o next) := Yields.op h

theorem Tallies.bind {p : Program (α × Canonicity)} {f : α × Canonicity → Program (δ × Canonicity)}
    (hp : Tallies .canonical p) (hf : ∀ x, Tallies (acc.update x.2) (f x)) :
    Tallies acc (p.bind f) := by
  refine Yields.bind hp fun lowest x htally => (hf x).mono fun lowest' y htally' => ?_
  rw [Canonicity.canonical_update] at htally
  rw [← htally', ← htally, Canonicity.update_assoc]

theorem Silent.tallies_bind {p : Program α} {f : α → Program (δ × Canonicity)} (hp : p.Silent)
    (hf : ∀ x, Tallies acc (f x)) : Tallies acc (p.bind f) := by
  refine Yields.bind hp fun lowest x hlowest => (hf x).mono fun lowest' y htally => ?_
  rw [hlowest, Canonicity.canonical_update, htally]

theorem Tallies.delimited {inner : Nat → Program (α × Canonicity)}
    (h : ∀ len, Tallies acc (inner len)) : Tallies acc (delimited inner) :=
  Yields.delimited h

theorem Silent.asCanonical {p : Program α} (h : p.Silent) :
    Tallies .canonical (asCanonical p) :=
  h.tallies_bind fun x => tallies_done x

theorem silent_of_asCanonical {p : Program α} (h : Tallies .canonical (asCanonical p)) :
    p.Silent := by
  intro bytes parsed hparse
  have hrun : (Bilrost.asCanonical p).parse bytes =
      .ok ⟨(parsed.value, .canonical), parsed.lowest, parsed.rest⟩ := by
    rw [Bilrost.asCanonical, parse_bind, hparse]
    simp [Program.parse, Except.map, Parsed.lower]
  simpa using h _ _ hrun

theorem tallies_demote (way : Way) {p : Program α} (h : p.Silent) :
    Tallies .canonical (way.demote p) := by
  cases way with
  | relaxed => exact h.asCanonical
  | distinguished => exact Tallies.check (h.tallies_bind fun x => tallies_done x)

theorem tallies_refuseEmpty (way : Way) (empty : Bool) (decoded : α × Canonicity) :
    Tallies (Canonicity.canonical.update decoded.2) (way.refuseEmpty empty decoded) := by
  rw [Canonicity.canonical_update]
  cases way with
  | relaxed =>
    rw [Way.refuseEmpty_relaxed]
    exact tallies_done decoded.1
  | distinguished =>
    cases empty with
    | false => exact tallies_done decoded.1
    | true =>
      refine Tallies.check ?_
      rw [Canonicity.update_notCanonical]
      exact tallies_done _

theorem Tallies.whileRemaining {body : α × Canonicity → Program (α × Canonicity)}
    (h : ∀ state, Tallies state.2 (body state)) (value : α) :
    Tallies .canonical (whileRemaining body (value, .canonical)) := by
  refine Yields.whileRemaining (fun lowest state => Canonicity.canonical.update lowest = _)
    (fun lowest state hstate => (h state).mono fun lowest' state' htally => ?_) rfl
  rw [← htally, ← hstate, Canonicity.update_assoc]

theorem Tallies.whileRepeated {body : WireType → α × Canonicity → Program (α × Canonicity)}
    (h : ∀ wireType state, Tallies state.2 (body wireType state)) (state : α × Canonicity) :
    Tallies state.2 (whileRepeated body state) := by
  refine Yields.whileRepeated (fun lowest state' => state.2.update lowest = state'.2)
    (fun wireType lowest state' hstate => (h wireType state').mono fun lowest' state'' htally => ?_)
    (Canonicity.update_canonical _)
  rw [← htally, ← hstate, Canonicity.update_assoc]

theorem Tallies.fieldsFrom {decode : Nat → WireType → Bool → α × Canonicity → Program (α × Canonicity)}
    (h : ∀ tag wireType dup state, Tallies state.2 (decode tag wireType dup state)) (last : Nat)
    (lastTag : Option Nat) (value : α) :
    Tallies .canonical (fieldsFrom decode last lastTag (value, .canonical)) := by
  have hround (state : TagReader × Option Nat × α × Canonicity) :
      (readField decode state).Yields fun lowest state' =>
        state.2.2.2.update lowest = state'.2.2.2 := by
    refine Yields.bind (Silent.op fun key => silent_ofResult _) fun lowest key hlowest => ?_
    subst hlowest
    refine Yields.bind (h _ _ _ state.2.2) fun lowest' state' htally => Yields.done ?_
    simpa using htally
  refine Yields.bind (Yields.whileRemaining
    (fun lowest state => Canonicity.canonical.update lowest = state.2.2.2)
    (fun lowest state hstate => (hround state).mono fun lowest' state' htally => ?_) rfl)
    fun lowest state htally => Yields.done (by simpa using htally)
  rw [← htally, ← hstate, Canonicity.update_assoc]

theorem Same.tallies {p q : Program (α × Canonicity)} (h : Same p q) (hq : Tallies acc q) :
    Tallies acc p := by
  intro bytes parsed hparse
  rw [h.parse] at hparse
  exact hq bytes parsed hparse

end

end Program

open Program

/-- The decoders of values tally canonicities. -/
def ValueCodec.Tallies {T : Type} (codec : ValueCodec T) : Prop :=
  ∀ way mode allowEmpty depth value,
    Program.Tallies .canonical (codec.decodeBy way mode allowEmpty depth value)

def FieldCodec.Tallies {T : Type} (codec : FieldCodec T) : Prop :=
  ∀ way mode depth wireType value,
    Program.Tallies .canonical (codec.decodeBy way mode depth wireType value)

def MessageField.Tallies {T : Type} (field : MessageField T) : Prop :=
  ∀ way mode depth tag wireType duplicated value,
    Program.Tallies .canonical (field.decodeBy way mode depth tag wireType duplicated value)

def MessageCodec.Tallies {M : Type} (codec : MessageCodec M) : Prop :=
  ∀ way mode depth tag wireType duplicated m,
    Program.Tallies .canonical (codec.fieldBy way mode depth tag wireType duplicated m)

theorem silent_checkWireType (expected actual : WireType) :
    (checkWireType expected actual).Silent := by
  rw [checkWireType]
  split_ifs
  · exact silent_error _
  · exact silent_done ()

theorem silent_limitReached (depth : Nat) : (limitReached depth).Silent := by
  refine Silent.op fun _ => ?_
  change (if depth = 0 then error .recursionLimitReached else .done ()).Silent
  split_ifs
  · exact silent_error _
  · exact silent_done ()

theorem DelimitedRead.silent_bytes (reads : DelimitedRead) : reads.bytes.Silent := by
  cases reads with
  | copied => exact Yields.delimited fun _ => Yields.op fun _ => Yields.done rfl
  | smolStr => exact Yields.delimited fun _ => Yields.op fun _ => Yields.done rfl
  | borrowed => exact Silent.op fun _ => silent_done _

theorem Scalar.Standard.tallies {T : Type} {scalar : Scalar T} (h : scalar.Standard) :
    scalar.codec.Tallies := by
  intro way mode allowEmpty depth value
  rw [Scalar.decodeBy_eq]
  refine Silent.asCanonical ?_
  cases h with
  | varint => exact Silent.op fun _ => silent_ofResult _
  | fixed =>
    simp only [FixedScalar.scalar]
    split_ifs <;> exact Silent.op fun _ => silent_ofResult _
  | delimited => exact (DelimitedRead.silent_bytes _).bind fun _ => silent_ofResult _
  | plainArray n =>
    refine Yields.delimited fun len => ?_
    split_ifs
    · exact silent_error _
    · refine Silent.op fun bytes => ?_
      split_ifs
      · exact silent_done _
      · exact silent_error _

namespace ValueCodec

variable {C T K V : Type}

theorem Tallies.silent {codec : ValueCodec T} (h : codec.Tallies) (mode : DecodingMode)
    (depth : Nat) (value : T) : (codec.decodeValue mode depth value).Silent :=
  silent_of_asCanonical (h .relaxed mode true depth value)

theorem tallies_insertBy (coll : Collection C T) (way : Way) (items : C) (item : T) :
    Program.Tallies .canonical (coll.insertBy way items item) := by
  cases way with
  | relaxed => exact (silent_ofResult _).asCanonical
  | distinguished =>
    refine (silent_ofResult _).tallies_bind fun inserted => Program.Tallies.check ?_
    rw [Canonicity.canonical_update]
    exact tallies_done _

section
variable {item : ValueCodec T} (hitem : item.Tallies) (coll : Collection C T)
include hitem

theorem Tallies.decodeItemBy (way : Way) (mode : DecodingMode) (depth : Nat)
    (state : C × Canonicity) :
    Program.Tallies state.2 (item.decodeItemBy coll way mode depth state) :=
  Program.Tallies.bind (hitem way mode true depth _) fun _ =>
    Program.Tallies.bind (tallies_insertBy coll way _ _) fun _ => tallies_done _

theorem Tallies.packedItems (fixedSize : Option Nat) :
    (packedItems fixedSize item coll).Tallies := by
  intro way mode allowEmpty depth value
  refine (packedItems_decodeBy fixedSize item coll way mode allowEmpty depth value).tallies
    (Program.Tallies.delimited fun len => ?_)
  split_ifs
  · exact tallies_error _
  · exact Program.Tallies.whileRemaining (hitem.decodeItemBy coll way mode depth) value

theorem Tallies.decodeUnpackedBy (way : Way) (mode : DecodingMode) (depth : Nat)
    (wireType : WireType) (items : C) :
    Program.Tallies .canonical (item.decodeUnpackedBy coll way mode depth wireType items) := by
  have hrepeated (wireType : WireType) (state : C × Canonicity) :
      Program.Tallies state.2 (item.decodeRepeatedBy coll way mode depth wireType state) :=
    (silent_checkWireType _ _).tallies_bind fun _ => hitem.decodeItemBy coll way mode depth state
  refine Program.Tallies.bind (hrepeated wireType (items, .canonical)) fun state => ?_
  rw [Canonicity.canonical_update]
  exact Program.Tallies.whileRepeated hrepeated state

theorem Tallies.unpackedField : (item.unpackedField coll).Tallies := by
  intro way mode depth wireType value
  rw [unpackedField_decodeBy]
  split_ifs
  · exact tallies_demote way ((hitem.packedItems coll _).silent mode depth value)
  · exact hitem.decodeUnpackedBy coll way mode depth wireType value

theorem Tallies.packedField : (item.packedField coll).Tallies := by
  intro way mode depth wireType value
  rw [packedField_decodeBy]
  split_ifs
  · exact Program.Tallies.bind (hitem.packedItems coll _ way mode false depth value) fun decoded =>
      tallies_refuseEmpty way _ decoded
  · refine tallies_demote way (silent_of_asCanonical ?_)
    rw [← decodeUnpackedBy_relaxed]
    exact hitem.decodeUnpackedBy coll .relaxed mode depth wireType value

end

theorem Tallies.entry {key : ValueCodec K} {val : ValueCodec V} (hkey : key.Tallies)
    (hval : val.Tallies) : (key.entry val).Tallies := by
  intro way mode allowEmpty depth e
  rw [entry_decodeBy]
  refine Program.Tallies.bind (hkey way mode allowEmpty depth e.1) fun newKey => ?_
  refine Program.Tallies.bind (hval way mode allowEmpty depth e.2) fun newVal => ?_
  rw [Canonicity.canonical_update]
  exact tallies_done _

section
variable {item : ValueCodec T} {n : Nat}

theorem tallies_decodeEach {decode : T → Program (T × Canonicity)}
    (h : ∀ v, Program.Tallies .canonical (decode v)) (arr : List.Vector T n) :
    Program.Tallies .canonical (decodeEachDistinguished decode arr) := by
  induction n with
  | zero => exact tallies_done _
  | succ n ih =>
    refine Program.Tallies.bind (h _) fun first => Program.Tallies.bind (ih _) fun rest => ?_
    rw [Canonicity.canonical_update]
    exact tallies_done _

theorem silent_anotherItem (item : ValueCodec T) : item.anotherItem.Silent := by
  rw [anotherItem]
  split_ifs
  · refine Silent.op fun more => ?_
    cases more with
    | true => exact silent_done _
    | false => exact silent_error _
  · exact silent_done _

theorem silent_noMoreItems (item : ValueCodec T) : item.noMoreItems.Silent := by
  rw [noMoreItems]
  split_ifs
  · refine Silent.op fun more => ?_
    cases more with
    | true => exact silent_error _
    | false => exact silent_done _
  · exact silent_done _

theorem silent_nextField (item : ValueCodec T) : item.nextField.Silent := by
  refine Silent.op fun next => ?_
  cases next with
  | some wireType => exact silent_checkWireType _ _
  | none => exact silent_error _

theorem silent_noMoreFields : noMoreFields.Silent := by
  refine Silent.op fun next => ?_
  split_ifs
  · exact silent_error _
  · exact silent_done _

theorem tallies_before {acc : Canonicity} {p : Program Unit} (hp : p.Silent)
    (decoded : List.Vector T n × Canonicity) (hacc : acc = decoded.2) :
    Program.Tallies acc (p.bind fun _ => .done decoded) := by
  subst hacc
  exact hp.tallies_bind fun _ => tallies_done decoded.1

variable (hitem : item.Tallies)
include hitem

theorem Tallies.packedArray (n : Nat) : (item.packedArray n).Tallies := by
  intro way mode allowEmpty depth value
  refine (packedArray_decodeBy item way mode allowEmpty depth value).tallies
    (Program.Tallies.delimited fun len => ?_)
  split_ifs
  · exact tallies_error _
  · refine Program.Tallies.bind (tallies_decodeEach (fun v => ?_) value) fun decoded =>
      tallies_before (silent_noMoreItems item) decoded (Canonicity.canonical_update _)
    exact (silent_anotherItem item).tallies_bind fun _ => hitem way mode true depth v

theorem Tallies.decodeArrayUnpackedOnlyBy (way : Way) (mode : DecodingMode) (depth : Nat)
    (wireType : WireType) (arr : List.Vector T n) :
    Program.Tallies .canonical (item.decodeArrayUnpackedOnlyBy way mode depth wireType arr) := by
  refine (silent_checkWireType _ _).tallies_bind fun _ => ?_
  refine Program.Tallies.bind ?_ fun decoded =>
    tallies_before silent_noMoreFields decoded (Canonicity.canonical_update _)
  cases n with
  | zero => exact tallies_done _
  | succ n =>
    refine Program.Tallies.bind (hitem way mode true depth _) fun first => ?_
    refine Program.Tallies.bind (tallies_decodeEach (fun v => ?_) _) fun rest => ?_
    · exact (silent_nextField item).tallies_bind fun _ => hitem way mode true depth v
    · rw [Canonicity.canonical_update]
      exact tallies_done _

theorem Tallies.decodeArrayEitherReprBy (way : Way) (mode : DecodingMode) (depth : Nat)
    (wireType : WireType) (arr : List.Vector T n) :
    Program.Tallies .canonical (item.decodeArrayEitherReprBy way mode depth wireType arr) := by
  rw [ValueCodec.decodeArrayEitherReprBy]
  split_ifs
  · exact tallies_demote way ((hitem.packedArray n).silent mode depth arr)
  · exact hitem.decodeArrayUnpackedOnlyBy way mode depth wireType arr

theorem Tallies.unpackedArrayField (state : EmptyState T) (n : Nat) :
    (item.unpackedArrayField state n).Tallies := by
  intro way mode depth wireType value
  rw [unpackedArrayField_decodeBy]
  exact Program.Tallies.bind (hitem.decodeArrayEitherReprBy way mode depth wireType value)
    fun decoded => tallies_refuseEmpty way _ decoded

theorem Tallies.packedArrayField (state : EmptyState T) (n : Nat) :
    (item.packedArrayField state n).Tallies := by
  intro way mode depth wireType value
  rw [packedArrayField_decodeBy]
  split_ifs
  · exact Program.Tallies.bind (hitem.packedArray n way mode false depth value)
      fun decoded => tallies_refuseEmpty way _ decoded
  · refine tallies_demote way (silent_of_asCanonical ?_)
    rw [← decodeArrayUnpackedOnlyBy_relaxed]
    exact hitem.decodeArrayUnpackedOnlyBy .relaxed mode depth wireType value

theorem Tallies.unpackedArrayOptionField (n : Nat) :
    (item.unpackedArrayOptionField n).Tallies := by
  intro way mode depth wireType value
  rw [unpackedArrayOptionField_decodeBy]
  refine Program.Tallies.bind (hitem.decodeArrayEitherReprBy way mode depth wireType _)
    fun decoded => ?_
  rw [Canonicity.canonical_update]
  exact tallies_done _

end

theorem Tallies.proxied {P : Type} {codec : ValueCodec P} (hcodec : codec.Tallies)
    (proxy : Proxy T P) (forOverwrite : T) (emptyState : Option (EmptyState T)) :
    (codec.proxied proxy forOverwrite emptyState).Tallies := by
  intro way mode allowEmpty depth value
  rw [proxied_decodeBy]
  cases way with
  | relaxed =>
    rw [decodeBy, asCanonical, Program.bind_assoc]
    exact (hcodec.silent mode depth _).tallies_bind fun _ => (silent_ofResult _).asCanonical
  | distinguished =>
    refine Program.Tallies.bind (hcodec .distinguished mode allowEmpty depth _) fun decoded => ?_
    rw [Canonicity.canonical_update]
    exact (silent_ofResult _).tallies_bind fun _ => Program.Tallies.check (tallies_done _)

theorem Tallies.decodeFieldBy {codec : ValueCodec T} (h : codec.Tallies) (way : Way)
    (mode : DecodingMode) (allowEmpty : Bool) (depth : Nat) (wireType : WireType) (value : T) :
    Program.Tallies .canonical
      (codec.decodeFieldBy way mode allowEmpty depth wireType value) :=
  (silent_checkWireType _ _).tallies_bind fun _ => h way mode allowEmpty depth value

theorem Tallies.plain {codec : ValueCodec T} (h : codec.Tallies) (state : EmptyState T) :
    (codec.plain state).Tallies := by
  intro way mode depth wireType value
  rw [plain_decodeBy]
  exact Program.Tallies.bind (h.decodeFieldBy way mode false depth wireType value)
    fun decoded => tallies_refuseEmpty way _ decoded

theorem Tallies.optional {codec : ValueCodec T} (h : codec.Tallies) : codec.optional.Tallies := by
  intro way mode depth wireType value
  rw [optional_decodeBy]
  refine Program.Tallies.bind (h.decodeFieldBy way mode true depth wireType _) fun decoded => ?_
  rw [Canonicity.canonical_update]
  exact tallies_done _

end ValueCodec

namespace MessageCodec

variable {M : Type} {codec : MessageCodec M} (h : codec.Tallies)
include h

theorem Tallies.mergeBy (way : Way) (mode : DecodingMode) (depth : Nat) (m : M) :
    Program.Tallies .canonical (codec.mergeBy way mode depth m) :=
  Program.Tallies.fieldsFrom (fun tag wireType dup state =>
    Program.Tallies.bind (h way mode depth tag wireType dup state.1) fun _ => tallies_done _) 0 none m

theorem Tallies.contentsBy (note : Note) (way : Way) (mode : DecodingMode) (depth : Nat) (m : M) :
    Program.Tallies .canonical (codec.contentsBy note way mode depth m) :=
  Program.Tallies.op fun _ => h.mergeBy way mode depth m

omit h in
theorem tallies_shortcut {note : Note} {m : M} {p : Program (M × Canonicity)}
    (hp : Program.Tallies .canonical p) (way : Way) (allowEmpty : Bool) :
    Program.Tallies .canonical (delimited fun len => if way.shortcut allowEmpty len then
      .op (.note note) fun _ => refused m else p) := by
  refine Program.Tallies.delimited fun len => ?_
  split_ifs
  · exact Program.Tallies.op fun _ => Program.Tallies.check (tallies_done _)
  · exact hp

theorem Tallies.nested : codec.nested.Tallies := by
  intro way mode allowEmpty depth m
  exact (codec.nested_decodeBy way mode allowEmpty depth m).tallies
    ((silent_limitReached depth).tallies_bind fun _ =>
      tallies_shortcut (h.contentsBy _ way mode _ m) way allowEmpty)

theorem Tallies.tupled : codec.tupled.Tallies := by
  intro way mode allowEmpty depth m
  exact (codec.tupled_decodeBy way mode allowEmpty depth m).tallies
    (tallies_shortcut ((silent_limitReached depth).tallies_bind fun _ =>
      h.contentsBy _ way mode _ m) way allowEmpty)

theorem Tallies.inlined : codec.inlined.Tallies := by
  intro way mode allowEmpty depth m
  exact (codec.inlined_decodeBy way mode allowEmpty depth m).tallies
    (Program.Tallies.delimited fun _ => h.contentsBy _ way mode depth m)

end MessageCodec

theorem FieldCodec.Tallies.tagged {T : Type} {codec : FieldCodec T} (h : codec.Tallies)
    (tag : Nat) : (codec.tagged tag).Tallies := by
  intro way mode depth tag' wireType duplicated value
  rw [tagged_decodeBy]
  split_ifs
  · exact tallies_error _
  · exact h way mode depth wireType value

theorem Oneof.tallies {T : Type} {oneof : Oneof T} (h : ∀ i, (oneof.codec i).Tallies) :
    oneof.field.Tallies := by
  intro way mode depth tag wireType duplicated value
  rw [field_decodeBy]
  split
  · exact tallies_error _
  · next i _ _ =>
    refine Program.Tallies.bind ((h i).decodeFieldBy way mode true depth wireType _)
      fun decoded => ?_
    rw [Canonicity.canonical_update]
    exact tallies_done _
  · exact tallies_error _

theorem Way.tallies_skipUnknown {M : Type} (way : Way) (wireType : WireType) (m : M) :
    Program.Tallies .canonical (way.skipUnknown wireType m) := by
  have hskip : (skipField wireType).Silent := yields_skipField wireType
  cases way with
  | relaxed => exact hskip.tallies_bind fun _ => tallies_done m
  | distinguished =>
    exact Program.Tallies.check (hskip.tallies_bind fun _ => tallies_done m)

theorem Fields.tallies {M : Type} {F : Fields M} {w : F.Writing}
    (h : ∀ i, (F.field i).Tallies) : (F.message w).Tallies := by
  intro way mode depth tag wireType duplicated m
  rw [message_fieldBy]
  split
  · next i _ =>
    refine Program.Tallies.bind (h i way mode depth tag wireType duplicated _) fun decoded => ?_
    rw [Canonicity.canonical_update]
    exact tallies_done _
  · exact way.tallies_skipUnknown wireType m

theorem MessageCodec.tallies_of_sameTo {M : Type} {codec : MessageCodec M}
    {approx : Nat → MessageCodec M} (hsame : ∀ depth, codec.SameTo depth (approx depth))
    (h : ∀ depth, (approx depth).Tallies) : codec.Tallies := by
  intro way mode depth tag wireType duplicated m
  rw [(hsame depth).fieldBy way mode le_rfl]
  exact h depth way mode depth tag wireType duplicated m

theorem MessageCodec.tallies_of_unrolls {M : Type} {codec : MessageCodec M}
    {approx : Nat → MessageCodec M} {within : Nat → M → Prop}
    (hunrolls : codec.Unrolls approx within) (h : ∀ n, (approx n).Tallies) : codec.Tallies := by
  intro way mode depth tag wireType duplicated m
  rw [hunrolls.fieldBy]
  exact Program.Tallies.op fun len => h len way mode depth tag wireType duplicated m

def Part.Tallies : Part → Prop
  | .value codec => codec.Tallies
  | .field codec => codec.Tallies
  | .messageField fld => fld.Tallies
  | .message codec => codec.Tallies

/-- All decoders tally canonicities. -/
theorem Built.tallies {allowed : Features} {part : Part} (h : Built allowed part) :
    part.Tallies := by
  induction h with
  | scalar h => exact h.tallies
  | packed _ _ hitem => exact hitem.packedItems _ _
  | localProxy _ _ _ _ hitem => exact hitem.packedItems _ _
  | map _ _ _ hkey hval => exact (hkey.entry hval).packedItems _ _
  | packedArray _ _ hitem => exact hitem.packedArray _
  | proxied _ _ _ _ _ hcodec => exact hcodec.proxied _ _ _
  | nested _ hcodec => exact hcodec.nested
  | tupled _ hcodec => exact hcodec.tupled
  | inlined _ hcodec => exact hcodec.inlined
  | plain _ _ _ hcodec => exact hcodec.plain _
  | optional _ hcodec => exact hcodec.optional
  | unpackedField _ _ hitem => exact hitem.unpackedField _
  | packedField _ _ hitem => exact hitem.packedField _
  | unpackedArrayField _ _ _ _ hitem => exact hitem.unpackedArrayField _ _
  | packedArrayField _ _ _ _ hitem => exact hitem.packedArrayField _ _
  | unpackedArrayOptionField _ _ hitem => exact hitem.unpackedArrayOptionField _
  | tagged tag _ hcodec => exact hcodec.tagged tag
  | oneof _ hvariants => exact Oneof.tallies hvariants
  | fields _ _ _ _ hfields => exact Fields.tallies hfields
  | recursive approx hsame _ _ happrox => exact MessageCodec.tallies_of_sameTo hsame happrox
  | unrolled approx _ hunrolls _ happrox => exact MessageCodec.tallies_of_unrolls hunrolls happrox

end Bilrost
