import Bilrost.Decode.Following
import Bilrost.Schema.Basic

/-!
More depth. A decoder that is given more depth of recursion does what it did
with less, the kind of each error included, unless it stopped at the limit.
-/

namespace Bilrost

open Program

/-- One program does what the other does, unless it stops at the limit. -/
abbrev WithinLimit {α : Type} (p q : Program α) : Prop := Follows limitError Eq p q

def ValueCodec.Deepens {T : Type} (codec : ValueCodec T) : Prop :=
  ∀ ⦃depth depth' : Nat⦄, depth ≤ depth' → ∀ way mode allowEmpty value,
    WithinLimit (codec.decodeBy way mode allowEmpty depth value)
      (codec.decodeBy way mode allowEmpty depth' value)

def FieldCodec.Deepens {T : Type} (codec : FieldCodec T) : Prop :=
  ∀ ⦃depth depth' : Nat⦄, depth ≤ depth' → ∀ way mode wireType value,
    WithinLimit (codec.decodeBy way mode depth wireType value)
      (codec.decodeBy way mode depth' wireType value)

def MessageField.Deepens {T : Type} (field : MessageField T) : Prop :=
  ∀ ⦃depth depth' : Nat⦄, depth ≤ depth' → ∀ way mode tag wireType dup value,
    WithinLimit (field.decodeBy way mode depth tag wireType dup value)
      (field.decodeBy way mode depth' tag wireType dup value)

def MessageCodec.Deepens {M : Type} (codec : MessageCodec M) : Prop :=
  ∀ ⦃depth depth' : Nat⦄, depth ≤ depth' → ∀ way mode tag wireType dup m,
    WithinLimit (codec.fieldBy way mode depth tag wireType dup m)
      (codec.fieldBy way mode depth' tag wireType dup m)

section
variable {α δ : Type} {p q : Program α}

theorem withinLimit_refl (p : Program α) : WithinLimit p p := follows_refl (fun _ => rfl) p

theorem WithinLimit.bind (h : WithinLimit p q) {f g : α → Program δ}
    (hfg : ∀ x, WithinLimit (f x) (g x)) : WithinLimit (p.bind f) (q.bind g) :=
  Follows.bind h fun x _ hxy => hxy ▸ hfg x

/-- The same is done afterwards. -/
theorem WithinLimit.then (h : WithinLimit p q) (f : α → Program δ) :
    WithinLimit (p.bind f) (q.bind f) :=
  WithinLimit.bind h fun x => withinLimit_refl (f x)

/-- The same is done before. -/
theorem withinLimit_after (o : Program δ) {f g : δ → Program α}
    (h : ∀ x, WithinLimit (f x) (g x)) : WithinLimit (o.bind f) (o.bind g) :=
  Follows.bind_left o h

theorem WithinLimit.demote (h : WithinLimit p q) (way : Way) :
    WithinLimit (way.demote p) (way.demote q) := by
  cases way with
  | relaxed => exact WithinLimit.then h _
  | distinguished => exact Follows.check _ (WithinLimit.then h _)

theorem WithinLimit.of_asCanonical (h : WithinLimit (asCanonical p) (asCanonical q)) :
    WithinLimit p q :=
  (Follows.of_map _ _ h).mono fun _ _ hxy => congrArg Prod.fst hxy

theorem withinLimit_fieldsFrom {decode decode' : Nat → WireType → Bool → α → Program α}
    (h : ∀ tag wireType dup x,
      WithinLimit (decode tag wireType dup x) (decode' tag wireType dup x))
    (last : Nat) (lastTag : Option Nat) (x : α) :
    WithinLimit (fieldsFrom decode last lastTag x) (fieldsFrom decode' last lastTag x) := by
  have hround (state : TagReader × Option Nat × α) :
      WithinLimit (readField decode state) (readField decode' state) :=
    withinLimit_after _ fun key => WithinLimit.then (h _ _ _ _) _
  have hloop : WithinLimit (whileRemaining (readField decode) (⟨last⟩, lastTag, x))
      (whileRemaining (readField decode') (⟨last⟩, lastTag, x)) :=
    Follows.whileRemaining (fun state _ hst => hst ▸ hround state) rfl
  exact WithinLimit.then hloop _

end

namespace MessageCodec

variable {M : Type} {codec : MessageCodec M} {depth depth' : Nat}

theorem Deepens.mergeBy (h : codec.Deepens) (hdepth : depth ≤ depth') (way : Way)
    (mode : DecodingMode) (m : M) :
    WithinLimit (codec.mergeBy way mode depth m) (codec.mergeBy way mode depth' m) := by
  apply withinLimit_fieldsFrom
  intro tag wireType dup state
  exact WithinLimit.then (h hdepth way mode tag wireType dup state.1) _

/-- The limit is not reached with more depth where it is not reached with less. -/
theorem withinLimit_limitReached {α : Type} (hdepth : depth ≤ depth') {p q : Program α}
    (h : 0 < depth → WithinLimit p q) :
    WithinLimit ((limitReached depth).bind fun _ => p) ((limitReached depth').bind fun _ => q) := by
  apply Follows.note_left
  apply Follows.note_right
  rcases Nat.eq_zero_or_pos depth with rfl | hpos
  · exact follows_of_stop _ _
  · have hpos' : depth' ≠ 0 := by omega
    simp only [if_neg hpos.ne', if_neg hpos']
    exact h hpos

theorem Deepens.contentsBy (h : codec.Deepens) (hdepth : depth ≤ depth') (note note' : Note)
    (way : Way) (mode : DecodingMode) (m : M) :
    WithinLimit (codec.contentsBy note way mode depth m)
      (codec.contentsBy note' way mode depth' m) :=
  Follows.note_left (Follows.note_right (h.mergeBy hdepth way mode m))

theorem Deepens.nested (h : codec.Deepens) : codec.nested.Deepens := by
  intro depth depth' hdepth way mode allowEmpty m
  apply Follows.of_same _ (codec.nested_decodeBy ..) (codec.nested_decodeBy ..)
  apply withinLimit_limitReached hdepth
  intro hpos
  apply Follows.delimited
  intro len
  split_ifs
  · exact Follows.note_left (Follows.note_right (withinLimit_refl _))
  · exact h.contentsBy (Nat.sub_le_sub_right hdepth 1) _ _ way mode m

theorem Deepens.tupled (h : codec.Deepens) : codec.tupled.Deepens := by
  intro depth depth' hdepth way mode allowEmpty m
  apply Follows.of_same _ (codec.tupled_decodeBy ..) (codec.tupled_decodeBy ..)
  apply Follows.delimited
  intro len
  split_ifs
  · exact Follows.note_left (Follows.note_right (withinLimit_refl _))
  · apply withinLimit_limitReached hdepth
    intro hpos
    exact h.contentsBy (Nat.sub_le_sub_right hdepth 1) _ _ way mode m

theorem Deepens.inlined (h : codec.Deepens) : codec.inlined.Deepens := by
  intro depth depth' hdepth way mode allowEmpty m
  apply Follows.of_same _ (codec.inlined_decodeBy ..) (codec.inlined_decodeBy ..)
  apply Follows.delimited
  intro len
  exact h.contentsBy hdepth _ _ way mode m

theorem deepens_of_sameTo {approx : Nat → MessageCodec M}
    (hsame : ∀ depth, codec.SameTo depth (approx depth)) (h : ∀ depth, (approx depth).Deepens) :
    codec.Deepens := by
  intro depth depth' hdepth way mode tag wireType dup m
  have hs := hsame depth'
  rw [hs.fieldBy way mode hdepth, hs.fieldBy way mode le_rfl]
  exact h depth' hdepth way mode tag wireType dup m

theorem deepens_of_unrolls {approx : Nat → MessageCodec M} {within : Nat → M → Prop}
    (hunrolls : codec.Unrolls approx within) (h : ∀ n, (approx n).Deepens) : codec.Deepens := by
  intro depth depth' hdepth way mode tag wireType dup m
  rw [hunrolls.fieldBy, hunrolls.fieldBy]
  apply Follows.op
  intro len
  exact h len hdepth way mode tag wireType dup m

end MessageCodec

namespace ValueCodec

variable {C K T V : Type} {item codec : ValueCodec T} {coll : Collection C T} {n : Nat}

theorem Deepens.decodeValue (h : codec.Deepens) {depth depth' : Nat} (hdepth : depth ≤ depth')
    (mode : DecodingMode) (value : T) :
    WithinLimit (codec.decodeValue mode depth value) (codec.decodeValue mode depth' value) :=
  WithinLimit.of_asCanonical (h hdepth .relaxed mode true value)

theorem Deepens.decodeFieldBy (h : codec.Deepens) {depth depth' : Nat} (hdepth : depth ≤ depth')
    (way : Way) (mode : DecodingMode) (allowEmpty : Bool) (wireType : WireType) (value : T) :
    WithinLimit (codec.decodeFieldBy way mode allowEmpty depth wireType value)
      (codec.decodeFieldBy way mode allowEmpty depth' wireType value) :=
  withinLimit_after _ fun _ => h hdepth way mode allowEmpty value

theorem Deepens.decodeItemBy (h : item.Deepens) {depth depth' : Nat} (hdepth : depth ≤ depth')
    (coll : Collection C T) (way : Way) (mode : DecodingMode) (state : C × Canonicity) :
    WithinLimit (item.decodeItemBy coll way mode depth state)
      (item.decodeItemBy coll way mode depth' state) :=
  WithinLimit.then (h hdepth way mode true item.forOverwrite) _

theorem Deepens.packedItems (h : item.Deepens) (fixedSize : Option Nat) (coll : Collection C T) :
    (packedItems fixedSize item coll).Deepens := by
  intro depth depth' hdepth way mode allowEmpty items
  apply Follows.of_same _ (packedItems_decodeBy ..) (packedItems_decodeBy ..)
  apply Follows.delimited
  intro len
  split_ifs
  · exact withinLimit_refl _
  · apply Follows.whileRemaining _ rfl
    intro state _ hstate
    exact hstate ▸ h.decodeItemBy hdepth coll way mode state

theorem Deepens.packed (h : item.Deepens) (coll : Collection C T) : (item.packed coll).Deepens :=
  h.packedItems _ coll

theorem Deepens.entry {key : ValueCodec K} {val : ValueCodec V} (hkey : key.Deepens)
    (hval : val.Deepens) : (key.entry val).Deepens := by
  intro depth depth' hdepth way mode allowEmpty e
  rw [entry_decodeBy, entry_decodeBy]
  apply WithinLimit.bind (hkey hdepth way mode allowEmpty e.1)
  intro newKey
  exact WithinLimit.then (hval hdepth way mode allowEmpty e.2) _

/-- Decoding into each item of an array. -/
theorem withinLimit_decodeEach {decode decode' : T → Program (T × Canonicity)}
    (h : ∀ value, WithinLimit (decode value) (decode' value)) (arr : List.Vector T n) :
    WithinLimit (decodeEachDistinguished decode arr) (decodeEachDistinguished decode' arr) := by
  induction n with
  | zero => exact withinLimit_refl _
  | succ n ih =>
      apply WithinLimit.bind (h arr.head)
      intro first
      exact WithinLimit.then (ih arr.tail) _

theorem Deepens.packedArray (h : item.Deepens) (n : Nat) : (item.packedArray n).Deepens := by
  intro depth depth' hdepth way mode allowEmpty arr
  apply Follows.of_same _ (packedArray_decodeBy ..) (packedArray_decodeBy ..)
  apply Follows.delimited
  intro len
  split_ifs
  · exact withinLimit_refl _
  · apply WithinLimit.then
    apply withinLimit_decodeEach
    intro value
    exact withinLimit_after _ fun _ => h hdepth way mode true value

theorem Deepens.proxied {P : Type} {codec : ValueCodec P} (h : codec.Deepens) (proxy : Proxy T P)
    (forOverwrite : T) (emptyState : Option (EmptyState T)) :
    (codec.proxied proxy forOverwrite emptyState).Deepens := by
  intro depth depth' hdepth way mode allowEmpty value
  rw [proxied_decodeBy, proxied_decodeBy]
  exact WithinLimit.then (h hdepth way mode allowEmpty codec.forOverwrite) _

theorem Deepens.plain (h : codec.Deepens) (state : EmptyState T) : (codec.plain state).Deepens := by
  intro depth depth' hdepth way mode wireType value
  rw [plain_decodeBy, plain_decodeBy]
  exact WithinLimit.then (h.decodeFieldBy hdepth way mode false wireType value) _

theorem Deepens.optional (h : codec.Deepens) : codec.optional.Deepens := by
  intro depth depth' hdepth way mode wireType value
  rw [optional_decodeBy, optional_decodeBy]
  exact WithinLimit.then (h.decodeFieldBy hdepth way mode true wireType _) _

theorem Deepens.decodeUnpackedBy (h : item.Deepens) {depth depth' : Nat} (hdepth : depth ≤ depth')
    (coll : Collection C T) (way : Way) (mode : DecodingMode) (wireType : WireType) (items : C) :
    WithinLimit (item.decodeUnpackedBy coll way mode depth wireType items)
      (item.decodeUnpackedBy coll way mode depth' wireType items) := by
  have hitem (wireType : WireType) (state : C × Canonicity) :
      WithinLimit (item.decodeRepeatedBy coll way mode depth wireType state)
        (item.decodeRepeatedBy coll way mode depth' wireType state) :=
    withinLimit_after _ fun _ => h.decodeItemBy hdepth coll way mode state
  apply WithinLimit.bind (hitem wireType _)
  intro state
  exact Follows.whileRepeated (fun wireType state _ hstate => hstate ▸ hitem wireType state) rfl

theorem Deepens.unpackedField (h : item.Deepens) (coll : Collection C T) :
    (item.unpackedField coll).Deepens := by
  intro depth depth' hdepth way mode wireType items
  rw [unpackedField_decodeBy, unpackedField_decodeBy]
  split_ifs
  · exact WithinLimit.demote ((h.packed coll).decodeValue hdepth mode items) way
  · exact h.decodeUnpackedBy hdepth coll way mode wireType items

theorem Deepens.packedField (h : item.Deepens) (coll : Collection C T) :
    (item.packedField coll).Deepens := by
  intro depth depth' hdepth way mode wireType items
  rw [packedField_decodeBy, packedField_decodeBy]
  split_ifs
  · exact WithinLimit.then (h.packed coll hdepth way mode false items) _
  · apply WithinLimit.demote
    apply WithinLimit.of_asCanonical
    have hunpacked := h.decodeUnpackedBy hdepth coll .relaxed mode wireType items
    simp only [decodeUnpackedBy_relaxed] at hunpacked
    exact hunpacked

theorem Deepens.decodeArrayUnpackedOnlyBy (h : item.Deepens) {depth depth' : Nat}
    (hdepth : depth ≤ depth') (way : Way) (mode : DecodingMode) (wireType : WireType)
    (arr : List.Vector T n) :
    WithinLimit (item.decodeArrayUnpackedOnlyBy way mode depth wireType arr)
      (item.decodeArrayUnpackedOnlyBy way mode depth' wireType arr) := by
  apply withinLimit_after
  intro _
  apply WithinLimit.then
  cases n with
  | zero => exact withinLimit_refl _
  | succ n =>
      apply WithinLimit.bind (h hdepth way mode true arr.head)
      intro first
      apply WithinLimit.then
      apply withinLimit_decodeEach
      intro value
      exact withinLimit_after _ fun _ => h hdepth way mode true value

theorem Deepens.decodeArrayEitherReprBy (h : item.Deepens) {depth depth' : Nat}
    (hdepth : depth ≤ depth') (way : Way) (mode : DecodingMode) (wireType : WireType)
    (arr : List.Vector T n) :
    WithinLimit (item.decodeArrayEitherReprBy way mode depth wireType arr)
      (item.decodeArrayEitherReprBy way mode depth' wireType arr) := by
  unfold ValueCodec.decodeArrayEitherReprBy
  split_ifs
  · exact WithinLimit.demote ((h.packedArray n).decodeValue hdepth mode arr) way
  · exact h.decodeArrayUnpackedOnlyBy hdepth way mode wireType arr

theorem Deepens.unpackedArrayField (h : item.Deepens) (state : EmptyState T) (n : Nat) :
    (item.unpackedArrayField state n).Deepens := by
  intro depth depth' hdepth way mode wireType arr
  rw [unpackedArrayField_decodeBy, unpackedArrayField_decodeBy]
  exact WithinLimit.then (h.decodeArrayEitherReprBy hdepth way mode wireType arr) _

theorem Deepens.packedArrayField (h : item.Deepens) (state : EmptyState T) (n : Nat) :
    (item.packedArrayField state n).Deepens := by
  intro depth depth' hdepth way mode wireType arr
  rw [packedArrayField_decodeBy, packedArrayField_decodeBy]
  split_ifs
  · exact WithinLimit.then (h.packedArray n hdepth way mode false arr) _
  · apply WithinLimit.demote
    apply WithinLimit.of_asCanonical
    have hunpacked := h.decodeArrayUnpackedOnlyBy hdepth .relaxed mode wireType arr
    simp only [decodeArrayUnpackedOnlyBy_relaxed] at hunpacked
    exact hunpacked

theorem Deepens.unpackedArrayOptionField (h : item.Deepens) (n : Nat) :
    (item.unpackedArrayOptionField n).Deepens := by
  intro depth depth' hdepth way mode wireType value
  rw [unpackedArrayOptionField_decodeBy, unpackedArrayOptionField_decodeBy]
  exact WithinLimit.then (h.decodeArrayEitherReprBy hdepth way mode wireType _) _

end ValueCodec

theorem FieldCodec.Deepens.tagged {T : Type} {codec : FieldCodec T} (h : codec.Deepens) (tag : Nat) :
    (codec.tagged tag).Deepens := by
  intro depth depth' hdepth way mode tag' wireType dup value
  rw [FieldCodec.tagged_decodeBy, FieldCodec.tagged_decodeBy]
  split_ifs
  · exact withinLimit_refl _
  · exact h hdepth way mode wireType value

theorem Oneof.deepens {T : Type} {oneof : Oneof T} (h : ∀ i, (oneof.codec i).Deepens) :
    oneof.field.Deepens := by
  intro depth depth' hdepth way mode tag wireType dup value
  rw [Oneof.field_decodeBy, Oneof.field_decodeBy]
  cases oneof.currentTag value with
  | some current => exact withinLimit_refl _
  | none =>
      cases oneof.variant tag with
      | none => exact withinLimit_refl _
      | some i => exact WithinLimit.then ((h i).decodeFieldBy hdepth way mode true wireType _) _

theorem Fields.deepens {M : Type} {F : Fields M} (h : ∀ i, (F.field i).Deepens) (w : F.Writing) :
    (F.message w).Deepens := by
  intro depth depth' hdepth way mode tag wireType dup m
  rw [Fields.message_fieldBy, Fields.message_fieldBy]
  cases F.fieldOf tag with
  | none => exact withinLimit_refl _
  | some i => exact WithinLimit.then (h i hdepth way mode tag wireType dup _) _

def Part.Deepens : Part → Prop
  | .value codec => codec.Deepens
  | .field codec => codec.Deepens
  | .messageField fld => fld.Deepens
  | .message codec => codec.Deepens

/-- Whatever is built does the same with more depth, unless it stopped at the
limit with less. -/
theorem Built.deepens {allowed : Features} {part : Part} (h : Built allowed part) :
    part.Deepens := by
  induction h with
  | scalar =>
      intro depth depth' hdepth way mode allowEmpty value
      rw [Scalar.decodeBy_eq, Scalar.decodeBy_eq]
      exact withinLimit_refl _
  | packed _ _ hitem => exact hitem.packed _
  | localProxy n empty _ _ hitem => exact hitem.packed _
  | map _ _ _ hkey hval => exact (hkey.entry hval).packedItems _ _
  | packedArray _ _ hitem => exact hitem.packedArray _
  | proxied forOverwrite emptyState _ _ _ hcodec => exact hcodec.proxied _ forOverwrite emptyState
  | nested _ hcodec => exact hcodec.nested
  | tupled _ hcodec => exact hcodec.tupled
  | inlined _ hcodec => exact hcodec.inlined
  | plain _ _ _ hcodec => exact hcodec.plain _
  | optional _ hcodec => exact hcodec.optional
  | unpackedField _ _ hitem => exact hitem.unpackedField _
  | packedField _ _ hitem => exact hitem.packedField _
  | unpackedArrayField _ _ _ _ hitem => exact hitem.unpackedArrayField _ _
  | packedArrayField _ _ _ _ hitem => exact hitem.packedArrayField _ _
  | unpackedArrayOptionField _ _ hitem => exact hitem.unpackedArrayOptionField _
  | tagged tag _ hcodec => exact hcodec.tagged tag
  | oneof _ hvariants => exact Oneof.deepens hvariants
  | fields _ _ _ _ hfields => exact Fields.deepens hfields _
  | recursive approx hsame _ _ happrox => exact MessageCodec.deepens_of_sameTo hsame happrox
  | unrolled approx _ hunrolls _ happrox => exact MessageCodec.deepens_of_unrolls hunrolls happrox

end Bilrost
