import Bilrost.Codec.Ranges
import Bilrost.Guarantees.OneofMessages

/-!
Ranges in messages. A message with a range is encoded and decoded as the one
with a tuple of its bounds. The flag of a range that is exhausted is lost, and
nothing else is.
-/

namespace Bilrost

open Program

section
variable {S P : Type} {codec : ValueCodec P} {state : EmptyState P} {takeApart : S → P}
  {compose : P → S}

theorem ValueCodec.through_decodeBy (way : Way) (mode : DecodingMode) (allowEmpty : Bool)
    (depth : Nat) (value : S) :
    (codec.through takeApart compose).decodeBy way mode allowEmpty depth value =
      (codec.decodeBy way mode allowEmpty depth (takeApart value)).bind fun decoded =>
        .done (compose decoded.1, decoded.2) := by
  cases way with
  | relaxed => simp only [decodeBy, through, asCanonical, Program.bind_eq, bind_assoc, done_bind]
  | distinguished => rfl

theorem Way.refuseEmpty_compose (way : Way) (isEmpty : Bool) (decoded : P × Canonicity) :
    way.refuseEmpty isEmpty (compose decoded.1, decoded.2) =
      (way.refuseEmpty isEmpty decoded).bind fun decoded =>
        .done (compose decoded.1, decoded.2) := by
  cases way with
  | relaxed => cases isEmpty <;> rfl
  | distinguished => cases isEmpty <;> rfl

theorem Way.skipUnknown_compose (way : Way) (wireType : WireType) (parts : P) :
    way.skipUnknown wireType (compose parts) =
      (way.skipUnknown wireType parts).bind fun decoded => .done (compose decoded.1, decoded.2) := by
  cases way with
  | relaxed => simp only [skipUnknown, bind_assoc, done_bind]
  | distinguished =>
      apply congrArg (Program.check .hasExtensions)
      simp only [Program.bind_assoc, Program.done_bind]

variable (hinverse : ∀ parts, takeApart (compose parts) = parts)
include hinverse

theorem ValueCodec.through_field_decodeBy (way : Way) (mode : DecodingMode) (depth : Nat)
    (wireType : WireType) (parts : P) :
    ((codec.through takeApart compose).plain (state.through takeApart compose)).decodeBy way mode
        depth wireType (compose parts) =
      ((codec.plain state).decodeBy way mode depth wireType parts).bind fun decoded =>
        .done (compose decoded.1, decoded.2) := by
  have hempty (decoded : P × Canonicity) :
      (state.through takeApart compose).isEmpty (compose decoded.1) = state.isEmpty decoded.1 :=
    congrArg state.isEmpty (hinverse decoded.1)
  have hchecks : (codec.through takeApart compose).checksEmpty = codec.checksEmpty := rfl
  have hwireType : (codec.through takeApart compose).wireType = codec.wireType := rfl
  rw [plain_decodeBy, plain_decodeBy, decodeFieldBy, decodeFieldBy, hwireType]
  simp only [through_decodeBy, hinverse, bind_assoc, done_bind, hempty, hchecks,
    Way.refuseEmpty_compose]

end

section
variable {T : Type} (field : MessageField T) (w : (Fields.single field).Writing)

theorem Fields.fieldBy_single (way : Way) (mode : DecodingMode) (depth tag : Nat)
    (wireType : WireType) (dup : Bool) (value : T) :
    ((Fields.single field).message w).fieldBy way mode depth tag wireType dup value =
      if tag ∈ field.tags then field.decodeBy way mode depth tag wireType dup value
      else way.skipUnknown wireType value := by
  cases way with
  | relaxed =>
      simp only [MessageCodec.fieldBy, rawDecodeField_single]
      split_ifs
      · rfl
      · simp only [Way.skipUnknown, asCanonical, bind_assoc, done_bind]
  | distinguished =>
      simp only [MessageCodec.fieldBy, rawDecodeFieldDistinguished_single]
      rfl

end

theorem Program.result_map {α δ : Type} (p : Program α) (f : α → δ) (minCanonicity : Canonicity)
    {β : Type} [Buf β] (capped : Capped β) :
    (p.bind fun x => .done (f x)).result minCanonicity capped =
      (p.result minCanonicity capped).map f := by
  rw [Program.result, Program.result, run_bind]
  cases p.run minCanonicity capped with
  | error stop => rfl
  | ok result => rfl

section
variable {S P : Type} {compose : P → S}

/-- Calls return what their loops do. -/
theorem MessageCodec.decodeAs_map {codec : MessageCodec P} {codec' : MessageCodec S} {way : Way}
    {mode : DecodingMode}
    (h : codec'.mergeBy way mode recursionLimit codec'.empty =
      (codec.mergeBy way mode recursionLimit codec.empty).bind fun decoded =>
        .done (compose decoded.1, decoded.2))
    (restrictTo : Canonicity) {β : Type} [Buf β] (buf : β) :
    codec'.decodeAs way mode restrictTo buf =
      (codec.decodeAs way mode restrictTo buf).map fun decoded =>
        (compose decoded.1, decoded.2) := by
  cases way with
  | relaxed =>
      simp only [decodeAs, decodeCapped_eq, h, Program.result_map]
      cases (codec.mergeBy .relaxed mode recursionLimit codec.empty).result .notCanonical
          (Capped.new buf) with
      | error stop => rfl
      | ok decoded => rfl
  | distinguished =>
      simp only [decodeAs, decodeRestrictedCapped_eq, h, Program.result_map]
      cases (codec.mergeBy .distinguished mode recursionLimit codec.empty).result restrictTo
          (Capped.new buf) with
      | error stop => rfl
      | ok decoded =>
          simp only [Except.map, Except.bind]
          cases check restrictTo decoded.2 with
          | error kind => rfl
          | ok canon => rfl

variable {codec : ValueCodec P} {state : EmptyState P} {takeApart : S → P}

theorem ValueCodec.through_mergeBy (hinverse : ∀ parts, takeApart (compose parts) = parts)
    (tag : Nat) (way : Way) (mode : DecodingMode) (depth : Nat) (parts : P) :
    (((codec.through takeApart compose).plain (state.through takeApart compose)).derived
        tag).mergeBy way mode depth (compose parts) =
      (((codec.plain state).derived tag).mergeBy way mode depth parts).bind fun decoded =>
        .done (compose decoded.1, decoded.2) := by
  refine fieldsFrom_map (f := fun decoded : P × Canonicity => (compose decoded.1, decoded.2)) ?_
    0 none (parts, .canonical)
  intro tag' wireType dup decoded
  simp only [MessageCodec.stepBy, FieldCodec.derived, Fields.fieldBy_single,
    FieldCodec.tagged_decodeBy, through_field_decodeBy hinverse]
  have htags : (((codec.through takeApart compose).plain (state.through takeApart compose)).tagged
      tag).tags = ((codec.plain state).tagged tag).tags := rfl
  rw [htags]
  split_ifs with hmem hdup
  · rfl
  · simp only [bind_assoc, done_bind]
  · simp only [Way.skipUnknown_compose, bind_assoc, done_bind]

/-- A message with a value that is taken apart is decoded as the message with
its parts. -/
theorem ValueCodec.through_decodeAs (hinverse : ∀ parts, takeApart (compose parts) = parts)
    (tag : Nat) (way : Way) (mode : DecodingMode) (restrictTo : Canonicity) {β : Type} [Buf β]
    (buf : β) :
    (((codec.through takeApart compose).plain (state.through takeApart compose)).derived
        tag).decodeAs way mode restrictTo buf =
      (((codec.plain state).derived tag).decodeAs way mode restrictTo buf).map fun decoded =>
        (compose decoded.1, decoded.2) :=
  MessageCodec.decodeAs_map (through_mergeBy hinverse tag way mode recursionLimit _) restrictTo buf

/-- And it is encoded as that one. -/
theorem ValueCodec.through_encodeToVec (tag : Nat) (value : S) :
    (((codec.through takeApart compose).plain (state.through takeApart compose)).derived
        tag).encodeToVec value = ((codec.plain state).derived tag).encodeToVec (takeApart value) := by
  rw [MessageCodec.encodeToVec, MessageCodec.encodeToVec, MessageCodec.encodedLen,
    MessageCodec.encodedLen, FieldCodec.derived, FieldCodec.derived, Fields.rawEncode_single,
    Fields.rawEncode_single, Fields.rawEncodedLen_single, Fields.rawEncodedLen_single]
  rfl

theorem ok_of_map {α δ : Type} {result : Except Stop α} {f : α → δ} {y : δ}
    (h : result.map f = .ok y) : ∃ x, result = .ok x ∧ f x = y := by
  cases result with
  | error stop => cases h
  | ok x => exact ⟨x, rfl, Except.ok.inj h⟩

/-- Where all calls return the same but for how it is composed, a message that
all of them return is one that all of them return. -/
theorem MessageCodec.DecodesTo.composed {codec : MessageCodec P} {codec' : MessageCodec S}
    {bytes : Bytes} {m : P} (h : codec.DecodesTo bytes m)
    (hcalls : ∀ (way : Way) (mode : DecodingMode) (restrictTo : Canonicity) {β : Type} [Buf β]
      (buf : β), codec'.decodeAs way mode restrictTo buf =
        (codec.decodeAs way mode restrictTo buf).map fun decoded =>
          (compose decoded.1, decoded.2)) : codec'.DecodesTo bytes (compose m) := by
  have hrelaxed {β : Type} [Buf β] {buf : β} {mode : DecodingMode}
      (hdecode : codec.decodeCapped mode (Capped.new buf) = .ok m) :
      codec'.decodeCapped mode (Capped.new buf) = .ok (compose m) := by
    have hmapped : (codec'.decodeCapped mode (Capped.new buf)).map
        (fun m => (m, Canonicity.canonical)) = .ok (compose m, .canonical) := by
      refine (hcalls .relaxed mode .notCanonical buf).trans ?_
      rw [decodeAs, hdecode]
      rfl
    obtain ⟨m', hm', heq⟩ := ok_of_map hmapped
    exact hm'.trans (congrArg (fun decoded => Except.ok decoded.1) heq)
  have hdistinguished {β : Type} [Buf β] {buf : β} {mode : DecodingMode}
      {restrictTo canon : Canonicity}
      (hdecode : codec.decodeRestrictedCapped mode (Capped.new buf) restrictTo = .ok (m, canon)) :
      codec'.decodeRestrictedCapped mode (Capped.new buf) restrictTo =
        .ok (compose m, canon) := by
    refine (hcalls .distinguished mode restrictTo buf).trans ?_
    rw [decodeAs, hdecode]
    rfl
  have hcanonical {β : Type} [Buf β] {buf : β} {mode : DecodingMode}
      (hdecode : (codec.decodeRestrictedCapped mode (Capped.new buf) .canonical).map Prod.fst =
        .ok m) :
      (codec'.decodeRestrictedCapped mode (Capped.new buf) .canonical).map Prod.fst =
        .ok (compose m) := by
    obtain ⟨⟨m', canon⟩, hresult, rfl⟩ := ok_of_map hdecode
    rw [hdistinguished hresult]
    rfl
  constructor
  · exact fun hbuf => hrelaxed (h.decode hbuf)
  · exact fun hbuf => hdistinguished (h.decodeDistinguished hbuf)
  · exact fun hbuf => hcanonical (h.decodeCanonical hbuf)
  · exact hrelaxed h.decodeBorrowed
  · exact hdistinguished h.decodeDistinguishedBorrowed
  · exact hcanonical h.decodeCanonicalBorrowed

end

namespace RangeInclusive

section
variable {T : Type} (start stop : FieldCodec T) (tag : Nat)

/-- A derived message with a field for a tuple of bounds. -/
def boundsMessage : MessageCodec (T × T) :=
  ((bounds start stop).tupled.plain (boundsState start stop)).derived tag

/-- A derived message with a field for a range. -/
def message : MessageCodec (RangeInclusive T) :=
  ((codec start stop).plain ((boundsState start stop).through intoInner new)).derived tag

end

section
variable {T : Type} {start stop : FieldCodec T} {tag : Nat}

theorem boundField_tags (i : Fin 2) : (boundField start stop i).tags = [i.val] := by
  fin_cases i <;> rfl

theorem sound_boundFields : (boundFields start stop).Sound :=
  Fields.sound_of_tags (F := boundFields start stop) 0 boundField_tags (by decide : 2 + 0 ≤ 2 ^ 32)

theorem built_bounds {allowed : Features} (hstart : Built allowed (.field start))
    (hstop : Built allowed (.field stop)) : Built allowed (.message (bounds start stop)) := by
  refine .fields sound_boundFields
    (.listed _ (Fields.ascending_of_tags (F := boundFields start stop) 0 boundField_tags) (.inl rfl))
    (.inr (inferInstanceAs (Subsingleton Unit))) fun i => ?_
  fin_cases i
  · exact .tagged 0 hstart
  · exact .tagged 1 hstop

theorem structural_bounds (hstart : Structural (.field start)) (hstop : Structural (.field stop)) :
    Structural (.message (bounds start stop)) := by
  have hfield (i : Fin 2) : Structural (.messageField (boundField start stop i)) := by
    fin_cases i
    · exact .tagged 0 hstart
    · exact .tagged 1 hstop
  exact .fields sound_boundFields
    (.listed _ (Fields.ascending_of_tags (F := boundFields start stop) 0 boundField_tags) (.inl rfl))
    (inferInstanceAs (Subsingleton Unit)) hfield

theorem built_boundsMessage {allowed : Features} (hstart : Built allowed (.field start))
    (hstop : Built allowed (.field stop)) (htag : tag < 2 ^ 32) :
    Built allowed (.message (boundsMessage start stop tag)) :=
  have hbounds := built_bounds hstart hstop
  .derived htag (.plain rfl ⟨hbounds.locks.isEmpty, hbounds.locks.clear⟩ (.tupled hbounds))

theorem structural_boundsMessage (hstart : Structural (.field start))
    (hstop : Structural (.field stop)) (htag : tag < 2 ^ 32) :
    Structural (.message (boundsMessage start stop tag)) := by
  have hbounds := structural_bounds hstart hstop
  have hfield : Structural (.field ((bounds start stop).tupled.plain (boundsState start stop))) :=
    .plain rfl ⟨hbounds.built.locks.isEmpty, hbounds.built.locks.clear⟩ (.tupled hbounds)
  exact .fields (Fields.singleBy_sound htag) .derived (inferInstanceAs (Subsingleton Unit))
    fun _ => .tagged tag hfield

theorem decodeAs_message (way : Way) (mode : DecodingMode) (restrictTo : Canonicity) {β : Type}
    [Buf β] (buf : β) : (message start stop tag).decodeAs way mode restrictTo buf =
      ((boundsMessage start stop tag).decodeAs way mode restrictTo buf).map fun decoded =>
        (new decoded.1, decoded.2) :=
  ValueCodec.through_decodeAs (fun _ => rfl) tag way mode restrictTo buf

theorem encodeToVec_message (range : RangeInclusive T) :
    (message start stop tag).encodeToVec range =
      (boundsMessage start stop tag).encodeToVec range.intoInner :=
  ValueCodec.through_encodeToVec tag range

theorem new_intoInner {range : RangeInclusive T} (h : range.exhausted = false) :
    new range.intoInner = range := by
  cases range with
  | mk start stop exhausted => exact congrArg (mk start stop) h.symm

end

end RangeInclusive

open RangeInclusive in
/-- Of a range in a message everything is kept but whether it is exhausted. All
calls decode what a range is encoded as to the range between its bounds, which
is the range itself if and only if that was not exhausted, and two ranges are
encoded as the same bytes if and only if their bounds are the same. -/
theorem ranges_keep_their_bounds {T : Type} {start stop : FieldCodec T} {tag : Nat}
    (hstart : Structural (.field start)) (hstop : Structural (.field stop)) (htag : tag < 2 ^ 32)
    {range : RangeInclusive T}
    (hnests : (boundsMessage start stop tag).nestsWithin recursionLimit range.intoInner) :
    ∃ bytes, (message start stop tag).encodeToVec range = some bytes ∧
      (bytes.length < 2 ^ 64 →
        (message start stop tag).DecodesTo bytes (new (range.start, range.stop)) ∧
          ((message start stop tag).DecodesTo bytes range ↔ range.exhausted = false) ∧
            ∀ range', (message start stop tag).encodeToVec range' = some bytes ↔
              range'.start = range.start ∧ range'.stop = range.stop) := by
  have hstructural := structural_boundsMessage hstart hstop htag
  obtain ⟨bytes, hencodes⟩ := hstructural.encodesAs range.intoInner
  have hencode := hencodes.encodeToVec
  refine ⟨bytes, (encodeToVec_message range).trans hencode, fun hlt => ?_⟩
  have hdecodes : (message start stop tag).DecodesTo bytes (new range.intoInner) :=
    (hstructural.decodesTo hnests hencode hlt).composed decodeAs_message
  refine ⟨hdecodes, ⟨fun hself => ?_, fun hnot => ?_⟩, fun range' => ⟨fun hencode' => ?_, ?_⟩⟩
  · have hsame := hdecodes.decodeBorrowed.symm.trans hself.decodeBorrowed
    exact (congrArg exhausted (Except.ok.inj hsame)).symm
  · rw [← new_intoInner hnot]
    exact hdecodes
  · rw [encodeToVec_message] at hencode'
    have hinner := hstructural.encodeToVec_inj hencode' hencode hlt
    exact ⟨congrArg Prod.fst hinner, congrArg Prod.snd hinner⟩
  · rintro ⟨hstart', hstop'⟩
    have hinner : range'.intoInner = range.intoInner := Prod.ext hstart' hstop'
    rw [encodeToVec_message, hinner]
    exact hencode

theorem structural_u32Field : Structural (.field u32Field) :=
  .plain rfl (Scalar.empties_single _)
    (.scalar (.varint (VarintScalar.lawful_unsigned (by decide))))

/-- A range of numbers that was iterated over comes back as it was before. -/
theorem ranges_keep_their_bounds_number :
    ∃ bytes, (RangeInclusive.message u32Field u32Field 1).encodeToVec ⟨7, 9, true⟩ = some bytes ∧
      (bytes.length < 2 ^ 64 →
        (RangeInclusive.message u32Field u32Field 1).DecodesTo bytes (.new (7, 9))) := by
  have hnests : (RangeInclusive.boundsMessage u32Field u32Field 1).nestsWithin recursionLimit
      (7, 9) := by
    intro _
    refine ⟨99, rfl, fun i => ?_⟩
    fin_cases i <;> exact trivial
  obtain ⟨bytes, hencode, hdecodes⟩ :=
    @ranges_keep_their_bounds (BitVec 32) u32Field u32Field 1 structural_u32Field
      structural_u32Field (by decide) ⟨7, 9, true⟩ hnests
  exact ⟨bytes, hencode, fun hlt => (hdecodes hlt).1⟩

end Bilrost
