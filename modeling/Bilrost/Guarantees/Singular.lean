import Bilrost.Schema.Readings
import Bilrost.Schema.Single

/-!
Fields that are not collections or arrays, and oneofs, occur once. A plain field
is found again only under the tag of the field before, since tags never go down;
a oneof may have tags that lie apart, and it is the variant that it already has
which a second one is refused for.
-/

namespace Bilrost

open Program

/-- The fields that are neither collections nor arrays. -/
inductive MessageField.Singular (allowed : Features) : {T : Type} → MessageField T → Prop
  | plain {T : Type} {codec : ValueCodec T} (state : EmptyState T) (tag : Nat)
      (hcodec : Built allowed (.value codec)) : Singular allowed ((codec.plain state).tagged tag)
  | optional {T : Type} {codec : ValueCodec T} (tag : Nat)
      (hcodec : Built allowed (.value codec)) : Singular allowed (codec.optional.tagged tag)
  | oneof {T : Type} {oneof : Oneof T}
      (hvariants : ∀ i, Built allowed (.value (oneof.codec i))) : Singular allowed oneof.field

/-- The tags of a field of a message type that is neither a collection nor an
array: one, or those of a oneof. -/
inductive MessageCodec.SingularTags (allowed : Features) {M : Type} :
    MessageCodec M → List Nat → Prop
  | field {F : Fields M} (w : F.Writing) (hsound : F.Sound) (i : F.Index)
      (h : (F.field i).Singular allowed) : SingularTags allowed (F.message w) (F.field i).tags
  | recursive {codec : MessageCodec M} {tags : List Nat} (approx : Nat → MessageCodec M)
      (hsame : ∀ depth, codec.SameTo depth (approx depth))
      (h : ∀ depth, SingularTags allowed (approx depth) tags) : SingularTags allowed codec tags
  | unrolled {codec : MessageCodec M} {tags : List Nat} (approx : Nat → MessageCodec M)
      (within : Nat → M → Prop) (hunrolls : codec.Unrolls approx within)
      (h : ∀ n, SingularTags allowed (approx n) tags) : SingularTags allowed codec tags

/-- Once a field was read it is settled, and stays so, and is not read again. -/
structure MessageField.SettledBy {T : Type} (field : MessageField T)
    (Settled : Nat → Option Nat → T → Prop) : Prop where
  settles {way : Way} {mode : DecodingMode} {depth tag : Nat} {wireType : WireType} {dup : Bool}
    {value : T} {bytes rest : Bytes} {x : T × Canonicity} : tag ∈ field.tags →
      (field.decodeBy way mode depth tag wireType dup value).Parses bytes x rest →
        Settled tag (some tag) x.1
  keeps {last tag : Nat} {lastTag : Option Nat} {value : T} : Settled last lastTag value →
    last ≤ tag → tag ∉ field.tags → Settled tag (some tag) value
  blocks {way : Way} {mode : DecodingMode} {depth last tag : Nat} {lastTag : Option Nat}
    {wireType : WireType} {value : T} {bytes rest : Bytes} {x : T × Canonicity} :
      Settled last lastTag value → last ≤ tag → tag ∈ field.tags →
        ¬(field.decodeBy way mode depth tag wireType (lastTag == some tag) value).Parses bytes x rest
  complete {way : Way} {mode : DecodingMode} {depth tag : Nat} {wireType : WireType} {dup : Bool}
    {value : T} {payload rest : Bytes} {x : T × Canonicity} : tag ∈ field.tags →
      (field.decodeBy way mode depth tag wireType dup value).Parses (payload ++ rest) x rest →
        wireType.Complete payload

theorem ValueCodec.Cuts.complete_field {T : Type} {codec : ValueCodec T} (h : codec.Cuts)
    {way : Way} {mode : DecodingMode} {allowEmpty : Bool} {depth : Nat} {wireType : WireType}
    {value : T} {payload rest : Bytes} {x : T × Canonicity}
    (hparse : (codec.decodeFieldBy way mode allowEmpty depth wireType value).Parses
      (payload ++ rest) x rest) : wireType.Complete payload := by
  obtain ⟨rfl, hvalue⟩ := ValueCodec.parses_decodeFieldBy.mp hparse
  obtain ⟨payload', heq, hpayload⟩ := (h.isLocal way mode allowEmpty depth value).iff.mp hvalue
  obtain rfl := List.append_cancel_right heq
  exact h.complete hpayload

/-- The tags of all fields go up, and a field under the last one is a second. -/
theorem FieldCodec.settledBy_tagged {T : Type} {codec : FieldCodec T} (tag : Nat)
    (hcomplete : ∀ {way mode depth wireType value payload rest x},
      (codec.decodeBy way mode depth wireType value).Parses (payload ++ rest) x rest →
        wireType.Complete payload) :
    (codec.tagged tag).SettledBy fun last lastTag _ =>
      tag ≤ last ∧ (last = tag → lastTag = some tag) := by
  constructor
  · intro way mode depth tag' wireType dup value bytes rest x htag _
    obtain rfl := List.mem_singleton.mp htag
    exact ⟨le_rfl, fun _ => rfl⟩
  · rintro last tag' lastTag value ⟨hle, -⟩ hle' htag
    refine ⟨hle.trans hle', ?_⟩
    rintro rfl
    exact absurd (List.mem_singleton_self tag') htag
  · rintro way mode depth last tag' lastTag wireType value bytes rest x ⟨hle, hlast⟩ hle' htag
    obtain rfl := List.mem_singleton.mp htag
    rw [hlast (le_antisymm hle' hle), codec.tagged_decodeBy, if_pos (beq_self_eq_true _)]
    exact parses_error.mp
  · intro way mode depth tag' wireType dup value payload rest x _ hparse
    rw [codec.tagged_decodeBy] at hparse
    split_ifs at hparse
    · exact (parses_error.mp hparse).elim
    · exact hcomplete hparse

/-- A oneof that has a variant gets no other. -/
theorem Oneof.settledBy {T : Type} {oneof : Oneof T} (hvariants : ∀ i, (oneof.codec i).Cuts) :
    oneof.field.SettledBy fun _ _ value => oneof.currentTag value ≠ none := by
  have hread {way : Way} {mode : DecodingMode} {depth tag : Nat} {wireType : WireType} {dup : Bool}
      {value : T} {bytes rest : Bytes} {x : T × Canonicity}
      (hparse : (oneof.field.decodeBy way mode depth tag wireType dup value).Parses bytes x rest) :
      oneof.currentTag value = none ∧ ∃ i decoded,
        ((oneof.codec i).decodeFieldBy way mode true depth wireType
          (oneof.codec i).forOverwrite).Parses bytes decoded rest ∧
        x = (oneof.construct i decoded.1, decoded.2) := by
    rw [oneof.field_decodeBy] at hparse
    cases hcurrent : oneof.currentTag value with
    | some current =>
        rw [hcurrent] at hparse
        exact (parses_error.mp hparse).elim
    | none =>
        cases hvariant : oneof.variant tag with
        | none =>
            rw [hcurrent, hvariant] at hparse
            exact (parses_error.mp hparse).elim
        | some i =>
            simp only [hcurrent, hvariant, parses_bind, parses_done] at hparse
            obtain ⟨decoded, mid, hdecoded, rfl, rfl⟩ := hparse
            exact ⟨rfl, i, decoded, hdecoded, rfl⟩
  constructor
  · intro way mode depth tag wireType dup value bytes rest x _ hparse
    obtain ⟨-, i, decoded, -, rfl⟩ := hread hparse
    simp [Oneof.currentTag, Oneof.construct]
  · exact fun hsettled _ _ => hsettled
  · intro way mode depth last tag lastTag wireType value bytes rest x hsettled _ _ hparse
    exact hsettled (hread hparse).1
  · intro way mode depth tag wireType dup value payload rest x _ hparse
    obtain ⟨-, i, decoded, hdecoded, -⟩ := hread hparse
    exact (hvariants i).complete_field hdecoded

theorem MessageField.Singular.settledBy {allowed : Features} {T : Type} {field : MessageField T}
    (h : field.Singular allowed) : ∃ Settled, field.SettledBy Settled := by
  cases h with
  | @plain _ codec state tag hcodec =>
      have hcuts : codec.Cuts := hcodec.cuts
      refine ⟨_, FieldCodec.settledBy_tagged tag ?_⟩
      intro way mode depth wireType value payload rest x hparse
      simp only [codec.plain_decodeBy, parses_bind, Way.parses_refuseEmpty] at hparse
      obtain ⟨decoded, mid, hdecoded, -, rfl⟩ := hparse
      exact hcuts.complete_field hdecoded
  | @optional _ codec tag hcodec =>
      have hcuts : codec.Cuts := hcodec.cuts
      refine ⟨_, FieldCodec.settledBy_tagged tag ?_⟩
      intro way mode depth wireType value payload rest x hparse
      simp only [codec.optional_decodeBy, parses_bind, parses_done] at hparse
      obtain ⟨decoded, mid, hdecoded, -, rfl⟩ := hparse
      exact hcuts.complete_field hdecoded
  | oneof hvariants => exact ⟨_, Oneof.settledBy fun i => (hvariants i).cuts⟩

section
variable {M : Type} {way : Way} {mode : DecodingMode} {depth : Nat} {records : List Record}

/-- Whatever was read before, a field is read under the tags at most once. -/
def MessageCodec.Once (codec : MessageCodec M) (tags : List Nat) : Prop :=
  ∀ {way : Way} {mode : DecodingMode} {depth : Nat} {pos pos' : Position (M × Canonicity)}
    {records : List Record}, Reading (codec.stepBy way mode depth) pos records pos' →
      (∀ r ∈ records, r.tag ∈ tags → r.wireType.Complete r.payload) ∧
        ((∃ r ∈ records, r.tag ∈ tags) → ∀ tag ∈ tags, pos'.last ≤ tag →
          ∀ wireType bytes x rest, ¬(codec.stepBy way mode depth tag wireType
            (pos'.lastTag == some tag) pos'.state).Parses bytes x rest)

theorem Fields.once {F : Fields M} (w : F.Writing) (h : F.Sound) {i : F.Index}
    {Settled : Nat → Option Nat → F.Ty i → Prop} (hsettled : (F.field i).SettledBy Settled) :
    (F.message w).Once (F.field i).tags := by
  intro way mode depth pos pos' records hreading
  have hblocked {pos : Position (M × Canonicity)} {tag : Nat} {wireType : WireType}
      {bytes rest : Bytes} {x : M × Canonicity}
      (hpos : Settled pos.last pos.lastTag (F.get pos.state.1 i)) (htag : tag ∈ (F.field i).tags)
      (hle : pos.last ≤ tag) : ¬((F.message w).stepBy way mode depth tag wireType
        (pos.lastTag == some tag) pos.state).Parses bytes x rest := by
    intro hparse
    obtain ⟨decoded, hfield, -⟩ := MessageCodec.parses_stepBy.mp hparse
    obtain ⟨value, hvalue, -⟩ := (Fields.parses_fieldBy (h.fieldOf_eq_some.mpr htag)).mp hfield
    exact hsettled.blocks hpos hle htag hvalue
  -- from a position on, and with the field settled before it or not
  suffices hrun : (∀ r ∈ records, r.tag ∈ (F.field i).tags → r.wireType.Complete r.payload) ∧
      (Settled pos.last pos.lastTag (F.get pos.state.1 i) ∨ (∃ r ∈ records, r.tag ∈ (F.field i).tags) →
        Settled pos'.last pos'.lastTag (F.get pos'.state.1 i)) by
    refine ⟨hrun.1, fun hread tag htag hle wireType bytes x rest => ?_⟩
    exact hblocked (hrun.2 (.inr hread)) htag hle
  induction hreading with
  | nil =>
      refine ⟨by simp, ?_⟩
      rintro (hpos | ⟨r, hr, -⟩)
      · exact hpos
      · cases hr
  | @cons last tag lastTag wireType s s' payload rest records pos' hle htag hfield _ ih =>
      obtain ⟨hcomplete, hafter⟩ := ih
      obtain ⟨decoded, hdecoded, rfl⟩ := MessageCodec.parses_stepBy.mp hfield
      by_cases hmem : tag ∈ (F.field i).tags
      · obtain ⟨value, hvalue, rfl⟩ :=
          (Fields.parses_fieldBy (h.fieldOf_eq_some.mpr hmem)).mp hdecoded
        refine ⟨List.forall_mem_cons.mpr ⟨fun _ => hsettled.complete hmem hvalue, hcomplete⟩, ?_⟩
        rintro -
        apply hafter
        simp only [Fields.get_set_self]
        exact .inl (hsettled.settles hmem hvalue)
      · have hget : F.get decoded.1 i = F.get s.1 i := by
          cases hfieldOf : F.fieldOf tag with
          | none =>
              obtain ⟨-, rfl⟩ := (Fields.parses_fieldBy_unknown hfieldOf).mp hdecoded
              rfl
          | some j =>
              obtain ⟨value, -, rfl⟩ := (Fields.parses_fieldBy hfieldOf).mp hdecoded
              apply Fields.get_set_of_ne s.1
              rintro rfl
              exact hmem (h.fieldOf_eq_some.mp hfieldOf)
        refine ⟨List.forall_mem_cons.mpr ⟨fun hmem' => absurd hmem' hmem, hcomplete⟩, ?_⟩
        rintro (hpos | ⟨r, hr, hrtag⟩)
        · apply hafter
          simp only [hget]
          exact .inl (hsettled.keeps hpos hle hmem)
        · rcases List.mem_cons.mp hr with rfl | hr
          · exact absurd hrtag hmem
          · exact hafter (.inr ⟨r, hr, hrtag⟩)

theorem MessageCodec.SingularTags.once {allowed : Features} {codec : MessageCodec M}
    {tags : List Nat} (h : codec.SingularTags allowed tags) : codec.Once tags := by
  induction h with
  | field w hsound i h =>
      obtain ⟨Settled, hsettled⟩ := h.settledBy
      exact Fields.once w hsound hsettled
  | recursive approx hsame _ ih =>
      intro way mode depth pos pos' records hreading
      rw [(hsame depth).stepBy way mode le_rfl] at hreading ⊢
      exact ih depth hreading
  | unrolled approx within hunrolls _ ih =>
      intro way mode depth pos pos' records hreading
      have happrox (n : Nat) (hn : pos.rest.length ≤ n) :
          Reading ((approx n).stepBy way mode depth) pos records pos' :=
        hreading.imp (fun _ _ _ _ _ _ _ hle => (hunrolls.parses_stepBy hle).mp) hn
      refine ⟨(ih _ (happrox _ le_rfl)).1, ?_⟩
      intro hread tag htag hle wireType bytes x rest hparse
      have hlength := le_max_left pos.rest.length bytes.length
      refine (ih _ (happrox _ hlength)).2 hread tag htag hle wireType bytes x rest ?_
      exact (hunrolls.parses_stepBy (le_max_right _ _)).mp hparse

/-- So in what was read there is at most one such field. -/
theorem MessageCodec.Once.length_le {codec : MessageCodec M} {tags : List Nat}
    (h : codec.Once tags) {pos pos' : Position (M × Canonicity)}
    (hreading : Reading (codec.stepBy way mode depth) pos records pos') :
    (records.filter (·.tag ∈ tags)).length ≤ 1 := by
  induction records using List.reverseRecOn generalizing pos' with
  | nil => simp
  | append_singleton records r ih =>
      obtain ⟨mid, hfirst, hlater⟩ := hreading.split
      rw [List.filter_append, List.length_append]
      by_cases hmem : r.tag ∈ tags
      · have hnone : ∀ r' ∈ records, r'.tag ∉ tags := by
          intro r' hr' hmem'
          cases hlater with
          | cons hle _ hfield _ => exact (h hfirst).2 ⟨r', hr', hmem'⟩ _ hmem hle _ _ _ _ hfield
        have hnil : records.filter (·.tag ∈ tags) = [] := by
          simpa [List.filter_eq_nil_iff] using hnone
        simp [hnil, hmem]
      · have hle := ih hfirst
        simpa [hmem] using hle

/-- The loop of a message over its fields, as the source has it in either way. -/
def MessageCodec.merging (codec : MessageCodec M) (way : Way) (mode : DecodingMode) (depth : Nat)
    (value : M) : (T : Type) × Program T :=
  match way with
  | .relaxed => ⟨M, codec.merge mode depth value⟩
  | .distinguished => ⟨M × Canonicity, codec.mergeDistinguished mode depth value⟩

theorem MessageCodec.parses_merging (codec : MessageCodec M) {value : M} {bytes : Bytes} :
    (∃ x rest, (codec.merging way mode depth value).2.Parses bytes x rest) ↔
      ∃ x rest, (codec.mergeBy way mode depth value).Parses bytes x rest := by
  cases way with
  | relaxed =>
      simp only [← asCanonical_merge, parses_asCanonical]
      constructor
      · rintro ⟨x, rest, hparse⟩
        exact ⟨(x, .canonical), rest, hparse, rfl⟩
      · rintro ⟨x, rest, hparse, -⟩
        exact ⟨x.1, rest, hparse⟩
  | distinguished =>
      rw [← mergeDistinguished_eq_mergeBy]
      exact Iff.rfl

/-- The message of a nested value is entered behind the length of its bytes. -/
theorem MessageCodec.enters_nested (codec : MessageCodec M) {value : M} {bytes content rest : Bytes}
    (hdepth : depth ≠ 0) (hbytes : parseDelimited bytes = some (content, rest)) :
    Enters (codec.merging .relaxed mode (depth - 1) value).2 content
      (codec.nested.decodeValue mode depth value) bytes := by
  have hlimit : (limitReached depth).Parses bytes () bytes :=
    parses_limitReached.mpr ⟨hdepth, rfl⟩
  have hnote : (noted (.enters depth)).Parses content () content := parses_note.mpr (by simp)
  exact .later hlimit (.inside hbytes (.later hnote .here))

end

/-- While a buffer is decoded, in whatever way and mode, the loop of some message
type comes to be run on some bytes, those of the whole message or those of a
value nested in it. If the buffer is decoded, these are fields of which at most
one is under the tags of one field that is neither a collection nor an array,
and it has a single payload; and once there is a second, it is not decoded. -/
theorem singular_fields_occur_once {allowed : Features} {M : Type} {codec : MessageCodec M}
    (h : Built allowed (.message codec)) {N : Type} {inner : MessageCodec N} {tags : List Nat}
    (htags : inner.SingularTags allowed tags) (hinner : Built allowed (.message inner))
    {β : Type} [Buf β] (buf : β) (way innerWay : Way) (mode innerMode : DecodingMode)
    (restrictTo : Canonicity) (depth : Nat) (value : N) (content : Bytes)
    (henters : Enters (inner.merging innerWay innerMode depth value).2 content
      (codec.merging way mode recursionLimit codec.empty).2 (Buf.bytes buf)) :
    ((∃ x, codec.decodeAs way mode restrictTo buf = .ok x) →
      ∃ records last lastTag x, Reading (inner.stepBy innerWay innerMode depth)
          ⟨0, none, (value, .canonical), content⟩ records ⟨last, lastTag, x, []⟩ ∧
        content = wireRecords 0 records ∧ (records.filter (·.tag ∈ tags)).length ≤ 1 ∧
        ∀ r ∈ records, r.tag ∈ tags → r.wireType.Complete r.payload) ∧
    ∀ records pos tag wireType rest, Reading (inner.stepBy innerWay innerMode depth)
        ⟨0, none, (value, .canonical), content⟩ records pos →
      pos.rest = keyBytes (tag - pos.last) wireType ++ rest → pos.last ≤ tag → tag < 2 ^ 32 →
      (∃ r ∈ records, r.tag ∈ tags) → tag ∈ tags →
        ∃ stop, codec.decodeAs way mode restrictTo buf = .error stop := by
  have hregular : codec.Regular := h.regular
  have hinnerRegular : inner.Regular := hinner.regular
  have honce : inner.Once tags := htags.once
  have hdecoded (hok : ∃ x, codec.decodeAs way mode restrictTo buf = .ok x) :
      ∃ records last lastTag x, Reading (inner.stepBy innerWay innerMode depth)
        ⟨0, none, (value, .canonical), content⟩ records ⟨last, lastTag, x, []⟩ := by
    obtain ⟨x, hx⟩ := hok
    obtain ⟨y, rest, hparse⟩ := inner.parses_merging.mp
      (henters.parses (codec.parses_merging.mpr ⟨x, [], hregular.parses_of_decodeAs hx⟩))
    obtain ⟨-, records, last, lastTag, hreading⟩ := hinnerRegular.parses_mergeBy.mp hparse
    exact ⟨records, last, lastTag, y, hreading⟩
  constructor
  · intro hok
    obtain ⟨records, last, lastTag, x, hreading⟩ := hdecoded hok
    refine ⟨records, last, lastTag, x, hreading, ?_, honce.length_le hreading, (honce hreading).1⟩
    simpa using hreading.rest_eq
  · intro records pos tag wireType rest hreading hrest hle htag hread hmem
    cases hresult : codec.decodeAs way mode restrictTo buf with
    | error stop => exact ⟨stop, rfl⟩
    | ok x =>
        obtain ⟨records', last, lastTag, y, hwhole⟩ := hdecoded ⟨x, hresult⟩
        obtain ⟨more, -, hmore⟩ := hreading.exists_append hwhole rfl
        cases hmore with
        | nil => exact absurd (List.append_eq_nil_iff.mp hrest.symm).1 (keyBytes_ne_nil _ _)
        | cons hle' htag' hfield _ =>
            obtain ⟨rfl, rfl, -⟩ := keyBytes_append_inj hle htag hle' htag' hrest.symm
            exact absurd hfield ((honce hreading).2 hread _ hmem hle _ _ _ _)

/-- An optional message with a field of type `u32`. -/
def holderField : FieldCodec (Option (BitVec 32)) := (u32Field.derived 1).nested.optional

/-- The loop of the message in a field of another is entered. -/
theorem enters_holder :
    Enters ((u32Field.derived 1).merging .relaxed .owned 99 0).2 [4, 5]
      ((holderField.derived 1).merging .relaxed .owned recursionLimit none).2 [5, 2, 4, 5] := by
  have hlen : (read .remainingBeforeCap).Parses [5, 2, 4, 5] 4 [5, 2, 4, 5] := ⟨.canonical, rfl⟩
  have hmore : (read .hasRemaining).Parses [5, 2, 4, 5] true [5, 2, 4, 5] := ⟨.canonical, rfl⟩
  have hkey : (TagReader.new.decodeKey).Parses [5, 2, 4, 5] ((1, .lengthDelimited), ⟨1⟩)
      [2, 4, 5] := ⟨.canonical, by decide +kernel⟩
  have hwire : (checkWireType .lengthDelimited .lengthDelimited).Parses [2, 4, 5] () [2, 4, 5] :=
    parses_checkWireType.mpr ⟨rfl, rfl⟩
  have hregion : parseDelimited [2, 4, 5] = some ([4, 5], []) := by decide +kernel
  have hnested : Enters ((u32Field.derived 1).merging .relaxed .owned 99 0).2 [4, 5]
      ((u32Field.derived 1).nested.decodeValue .owned 100 0) [2, 4, 5] :=
    (u32Field.derived 1).enters_nested (by decide) hregion
  refine .first (.later hlen (.later hmore ?_))
  refine .first (.later hkey (.first (.first ?_)))
  exact .first (.later hwire hnested)

theorem singular_fields_occur_once_holder :
    ∃ records, ([4, 5] : Bytes) = wireRecords 0 records ∧
      (records.filter (·.tag ∈ [1])).length ≤ 1 := by
  have hinner : Built .all (.message (u32Field.derived 1)) :=
    .derived (by decide) (built_u32Field _)
  have hbuilt : Built .all (.message (holderField.derived 1)) :=
    .derived (by decide) (.optional (.nested hinner))
  have hsound : (Fields.single (u32Field.tagged 1)).Sound := Fields.singleBy_sound (by decide)
  have htags : (u32Field.derived 1).SingularTags .all [1] :=
    .field _ hsound (0 : Fin 1)
      (.plain _ _ (.scalar (.varint (VarintScalar.lawful_unsigned (by decide)))))
  have hdecode : (holderField.derived 1).decodeAs .relaxed .owned .notCanonical
      ([5, 2, 4, 5] : Bytes) = .ok (some 5, .canonical) := by decide +kernel
  obtain ⟨records, -, -, -, -, hbytes, honce, -⟩ :=
    (singular_fields_occur_once hbuilt htags hinner ([5, 2, 4, 5] : Bytes) .relaxed .relaxed .owned
      .owned .notCanonical 99 0 [4, 5] enters_holder).1 ⟨_, hdecode⟩
  exact ⟨records, hbytes, honce⟩

end Bilrost
