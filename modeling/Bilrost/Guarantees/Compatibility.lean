import Bilrost.Guarantees.Ranges
import Bilrost.Guarantees.Recursion
import Bilrost.Schema.Compatible
import Bilrost.Schema.Pairs

/-!
Messages with a field whose type changes to a compatible one, or back. Values of
the old type and those that they become are encoded as the same bytes. From the
bytes of a value of the new type, relaxed decoding as the old one returns what is
in its range, and fails for everything else.
-/

namespace Bilrost

open Program

/-- Relaxed decoding as one type returns what is in its range of what it returns
as another type. -/
structure MessageCodec.DecodesInRange {M M' : Type} (codec : MessageCodec M)
    (codec' : MessageCodec M') (narrow : M' → Option M) (bytes : Bytes) : Prop where
  decode {β : Type} [Buf β] {buf : β} : Buf.bytes buf = bytes →
    (codec.decode buf).toOption = (codec'.decode buf).toOption.bind narrow
  decodeBorrowed :
    (codec.decodeBorrowed bytes).toOption = (codec'.decodeBorrowed bytes).toOption.bind narrow

/-- Relaxed decoding returns a value, or fails if there is none. -/
structure MessageCodec.Returns {M : Type} (codec : MessageCodec M) (bytes : Bytes)
    (value : Option M) : Prop where
  decode {β : Type} [Buf β] {buf : β} : Buf.bytes buf = bytes → (codec.decode buf).toOption = value
  decodeBorrowed : (codec.decodeBorrowed bytes).toOption = value

section
variable {M M' : Type} {codec : MessageCodec M} {codec' : MessageCodec M'}
  {narrow : M' → Option M} {bytes : Bytes} {m' : M'}

theorem MessageCodec.DecodesInRange.returns (h : codec.DecodesInRange codec' narrow bytes)
    (hdecodes : codec'.DecodesTo bytes m') : codec.Returns bytes (narrow m') where
  decode hbuf := by
    rw [h.decode hbuf, hdecodes.decode hbuf]
    rfl
  decodeBorrowed := by
    rw [h.decodeBorrowed, hdecodes.decodeBorrowed]
    rfl

end

theorem Built.encodes {allowed : Features} {M : Type} {codec : MessageCodec M}
    (h : Built allowed (.message codec)) (harrays : ¬allowed.emptyArrays) (m : M) :
    ∃ bytes, codec.encodeToVec m = some bytes := by
  have hwrites : codec.Writes (¬allowed.hashed) := h.writes harrays
  obtain ⟨records, hwritten⟩ := hwrites m
  exact ⟨_, (hwrites.encodeToVec_eq m).trans hwritten.encode⟩

section
variable {T T' : Type} {allowed : Features} (harrays : ¬allowed.emptyArrays)
  {codec : FieldCodec T} {codec' : FieldCodec T'} {f : T → T'} {narrow : T' → Option T}
  {tag : Nat}
include harrays

/-- Fields that share their payloads are the same bytes in a message. -/
theorem Built.encodeToVec_derived_eq (h : Built allowed (.field codec))
    (h' : Built allowed (.field codec')) (htag : tag < 2 ^ 32) {value : T} {value' : T'}
    (hshares : codec.SharesPayloads (¬allowed.hashed) value codec' value') :
    ∃ bytes, (codec.derived tag).encodeToVec value = some bytes ∧
      (codec'.derived tag).encodeToVec value' = some bytes := by
  obtain ⟨wireType, payloads, hwritten, hwritten'⟩ := hshares
  have hwrites : codec.Writes (¬allowed.hashed) := h.writes harrays
  have hwrites' : codec'.Writes (¬allowed.hashed) := h'.writes harrays
  have hmessage : (codec.derived tag).Writes (¬allowed.hashed) := (h.derived htag).writes harrays
  have hmessage' : (codec'.derived tag).Writes (¬allowed.hashed) := (h'.derived htag).writes harrays
  exact ⟨_, (hmessage.encodeToVec_eq value).trans (hwritten.derived htag hwrites).encode,
    (hmessage'.encodeToVec_eq value').trans (hwritten'.derived htag hwrites').encode⟩

end

section
variable {T : Type} {start stop : FieldCodec T} {tag : Nat}

/-- A derived message with a field for a tuple. -/
def tupleMessage (start stop : FieldCodec T) (tag : Nat) : MessageCodec (T × T) :=
  ((pair start stop).tupled.plain ⟨(pair start stop).isEmpty, (pair start stop).clear⟩).derived tag

/-- A derived message with a field for a range. -/
def Range.message (start stop : FieldCodec T) (tag : Nat) : MessageCodec (Range T) :=
  ((codec start stop).plain ((boundsState start stop).through toTuple ofTuple)).derived tag

theorem fieldOf_boundFields (tag : Nat) :
    (boundFields start stop).fieldOf tag = (pairFields start stop).fieldOf tag := by
  have htags (i : Fin 2) : (boundField start stop i).tags = (itemField start stop i).tags := by
    fin_cases i <;> rfl
  have hfind : (List.finRange 2).find? (fun i => decide (tag ∈ (boundField start stop i).tags)) =
      (List.finRange 2).find? (fun i => decide (tag ∈ (itemField start stop i).tags)) := by
    simp only [htags]
  exact hfind

/-- The bounds of a range are the pair of them, whose keys are measured in another
way. -/
theorem Built.bounds_eq_pair {allowed : Features} (harrays : ¬allowed.emptyArrays)
    (hstart : Built allowed (.field start)) (hstop : Built allowed (.field stop)) :
    bounds start stop = pair start stop := by
  have hencode : (bounds start stop).rawEncode = (pair start stop).rawEncode := rfl
  have hlen : (bounds start stop).rawEncodedLen = (pair start stop).rawEncodedLen := by
    have hwrites : (bounds start stop).Writes (¬allowed.hashed) :=
      (RangeInclusive.built_bounds hstart hstop).writes harrays
    have hwrites' : (pair start stop).Writes (¬allowed.hashed) :=
      (built_pair hstart hstop).writes harrays
    funext items
    obtain ⟨records, hwritten⟩ := hwrites items
    obtain ⟨records', hwritten'⟩ := hwrites' items
    have hsame : wireRecords 0 records = wireRecords 0 records' := by
      rw [← Option.some.injEq, ← hwritten.encode, ← hwritten'.encode, hencode]
    rw [hwritten.encodedLen, hwritten'.encodedLen, hsame]
  apply MessageCodec.ext
  · rfl
  · rfl
  · rfl
  · exact hencode
  · rfl
  · exact hlen
  · funext mode depth tag wireType dup items
    simp only [bounds, pair, Fields.message, fieldOf_boundFields]
    cases (pairFields start stop).fieldOf tag with
    | none => rfl
    | some i => fin_cases i <;> rfl
  · funext mode depth tag wireType dup items
    simp only [bounds, pair, Fields.message, fieldOf_boundFields]
    cases (pairFields start stop).fieldOf tag with
    | none => rfl
    | some i => fin_cases i <;> rfl
  · funext ordered items items'
    cases ordered with
    | true => rfl
    | false =>
        refine propext (forall_congr' fun i : Fin 2 => ?_)
        fin_cases i <;> exact Iff.rfl
  · funext depth items
    refine propext (forall_congr' fun i : Fin 2 => ?_)
    fin_cases i <;> exact Iff.rfl

end

/-- A message with a tuple is the one with the bounds of a range. -/
theorem Built.tupleMessage_eq {T : Type} {start stop : FieldCodec T} {allowed : Features}
    (harrays : ¬allowed.emptyArrays) (hstart : Built allowed (.field start))
    (hstop : Built allowed (.field stop)) (tag : Nat) :
    tupleMessage start stop tag = RangeInclusive.boundsMessage start stop tag := by
  rw [RangeInclusive.boundsMessage, boundsState, bounds_eq_pair harrays hstart hstop]
  rfl

/-- Messages with one field that changes compatibly. -/
inductive MessageCodec.Compatible (Items : Part → Prop) : {M M' : Type} → MessageCodec M →
    MessageCodec M' → (M → M') → (M' → Option M) → Prop
  | field {T T' : Type} {codec : FieldCodec T} {codec' : FieldCodec T'} {f : T → T'}
      {narrow : T' → Option T} {tag : Nat} (htag : tag < 2 ^ 32)
      (h : codec.Compatible Items codec' f narrow) :
      Compatible Items (codec.derived tag) (codec'.derived tag) f narrow
  | rangeTuple {T : Type} {start stop : FieldCodec T} {tag : Nat} (htag : tag < 2 ^ 32)
      (hstart : Items (.field start)) (hstop : Items (.field stop)) :
      Compatible Items (Range.message start stop tag) (tupleMessage start stop tag) Range.toTuple
        fun bounds => some (.ofTuple bounds)
  | tupleRange {T : Type} {start stop : FieldCodec T} {tag : Nat} (htag : tag < 2 ^ 32)
      (hstart : Items (.field start)) (hstop : Items (.field stop)) :
      Compatible Items (tupleMessage start stop tag) (Range.message start stop tag) Range.ofTuple
        fun range => some range.toTuple
  | rangeInclusiveTuple {T : Type} {start stop : FieldCodec T} {tag : Nat} (htag : tag < 2 ^ 32)
      (hstart : Items (.field start)) (hstop : Items (.field stop)) :
      Compatible Items (RangeInclusive.message start stop tag) (tupleMessage start stop tag)
        RangeInclusive.intoInner fun bounds => some (.new bounds)
  | tupleRangeInclusive {T : Type} {start stop : FieldCodec T} {tag : Nat} (htag : tag < 2 ^ 32)
      (hstart : Items (.field start)) (hstop : Items (.field stop)) :
      Compatible Items (tupleMessage start stop tag) (RangeInclusive.message start stop tag)
        RangeInclusive.new fun range => some range.intoInner

section
variable {S P : Type} {codec : MessageCodec P} {codec' : MessageCodec S} {takeApart : S → P}
  {compose : P → S} {bytes : Bytes}
  (hcalls : ∀ (way : Way) (mode : DecodingMode) (restrictTo : Canonicity) {β : Type} [Buf β]
    (buf : β), codec'.decodeAs way mode restrictTo buf =
      (codec.decodeAs way mode restrictTo buf).map fun decoded => (compose decoded.1, decoded.2))
include hcalls

end

namespace MessageCodec.Compatible

variable {T M M' : Type} {start stop : FieldCodec T} {tag : Nat} {codec : MessageCodec M}
  {codec' : MessageCodec M'} {f : M → M'} {narrow : M' → Option M} {bytes : Bytes}

theorem decodeAs_range (way : Way) (mode : DecodingMode) (restrictTo : Canonicity) {β : Type}
    [Buf β] (buf : β) : (Range.message start stop tag).decodeAs way mode restrictTo buf =
      ((RangeInclusive.boundsMessage start stop tag).decodeAs way mode restrictTo buf).map
        fun decoded => (Range.ofTuple decoded.1, decoded.2) :=
  ValueCodec.through_decodeAs (fun _ => rfl) tag way mode restrictTo buf

theorem encodeToVec_range (range : Range T) : (Range.message start stop tag).encodeToVec range =
    (RangeInclusive.boundsMessage start stop tag).encodeToVec range.toTuple :=
  ValueCodec.through_encodeToVec tag range

theorem decodesTo_range (htag : tag < 2 ^ 32) (hstart : Structural (.field start))
    (hstop : Structural (.field stop)) {range : Range T}
    (hnests : (Range.message start stop tag).nestsWithin recursionLimit range)
    (hencode : (Range.message start stop tag).encodeToVec range = some bytes)
    (hlt : bytes.length < 2 ^ 64) : (Range.message start stop tag).DecodesTo bytes range := by
  have hstructural := RangeInclusive.structural_boundsMessage hstart hstop htag
  have hbounds : (RangeInclusive.boundsMessage start stop tag).nestsWithin recursionLimit
      range.toTuple := hnests
  rw [encodeToVec_range] at hencode
  exact (hstructural.decodesTo hbounds hencode hlt).composed decodeAs_range

/-- What the encoding of a value of the new type is decoded to: the value, or the
range with its bounds. -/
theorem decodesTo (h : codec.Compatible Structural codec' f narrow) {m' : M'}
    (hnests : codec'.nestsWithin recursionLimit m') (hencode : codec'.encodeToVec m' = some bytes)
    (hlt : bytes.length < 2 ^ 64) :
    ∃ x, codec'.DecodesTo bytes x ∧ narrow x = narrow m' ∧ ∀ m, f m = m' → x = m' := by
  cases h with
  | field htag h =>
      have hstructural := Structural.derived htag h.structural
      exact ⟨m', hstructural.decodesTo hnests hencode hlt, rfl, fun _ _ => rfl⟩
  | @rangeTuple _ start stop tag htag hstart hstop =>
      have hstructural := RangeInclusive.structural_boundsMessage hstart hstop htag
      rw [Built.tupleMessage_eq not_false hstart.built hstop.built] at hnests hencode ⊢
      exact ⟨m', hstructural.decodesTo hnests hencode hlt, rfl, fun _ _ => rfl⟩
  | @rangeInclusiveTuple _ start stop tag htag hstart hstop =>
      have hstructural := RangeInclusive.structural_boundsMessage hstart hstop htag
      rw [Built.tupleMessage_eq not_false hstart.built hstop.built] at hnests hencode ⊢
      exact ⟨m', hstructural.decodesTo hnests hencode hlt, rfl, fun _ _ => rfl⟩
  | tupleRange htag hstart hstop =>
      exact ⟨m', decodesTo_range htag hstart hstop hnests hencode hlt, rfl, fun _ _ => rfl⟩
  | @tupleRangeInclusive _ start stop tag htag hstart hstop =>
      have hstructural := RangeInclusive.structural_boundsMessage hstart hstop htag
      have hbounds : (RangeInclusive.boundsMessage start stop tag).nestsWithin recursionLimit
          m'.intoInner := hnests
      rw [RangeInclusive.encodeToVec_message] at hencode
      refine ⟨_, (hstructural.decodesTo hbounds hencode hlt).composed
        RangeInclusive.decodeAs_message, rfl, ?_⟩
      rintro m rfl
      rfl

section
variable {allowed : Features} (harrays : ¬allowed.emptyArrays)
  (h : codec.Compatible (Built allowed) codec' f narrow)
include harrays h

/-- A value and what it becomes are the same bytes. -/
theorem encodeToVec_eq (m : M) : codec'.encodeToVec (f m) = codec.encodeToVec m := by
  cases h with
  | field htag h =>
      obtain ⟨bytes, hencode, hencode'⟩ := h.built.1.encodeToVec_derived_eq harrays h.built.2 htag
        (h.sharesPayloads harrays m)
      exact hencode'.trans hencode.symm
  | rangeTuple _ hstart hstop =>
      rw [hstart.tupleMessage_eq harrays hstop, encodeToVec_range]
  | tupleRange _ hstart hstop =>
      rw [hstart.tupleMessage_eq harrays hstop, encodeToVec_range]
      rfl
  | rangeInclusiveTuple _ hstart hstop =>
      rw [hstart.tupleMessage_eq harrays hstop, RangeInclusive.encodeToVec_message]
  | tupleRangeInclusive _ hstart hstop =>
      rw [hstart.tupleMessage_eq harrays hstop, RangeInclusive.encodeToVec_message]
      rfl

theorem encodes (m' : M') : ∃ bytes, codec'.encodeToVec m' = some bytes := by
  cases h with
  | field htag h => exact (h.built.2.derived htag).encodes harrays m'
  | rangeTuple htag hstart hstop =>
      rw [hstart.tupleMessage_eq harrays hstop]
      exact (RangeInclusive.built_boundsMessage hstart hstop htag).encodes harrays m'
  | tupleRange htag hstart hstop =>
      rw [encodeToVec_range]
      exact (RangeInclusive.built_boundsMessage hstart hstop htag).encodes harrays m'.toTuple
  | rangeInclusiveTuple htag hstart hstop =>
      rw [hstart.tupleMessage_eq harrays hstop]
      exact (RangeInclusive.built_boundsMessage hstart hstop htag).encodes harrays m'
  | tupleRangeInclusive htag hstart hstop =>
      rw [RangeInclusive.encodeToVec_message]
      exact (RangeInclusive.built_boundsMessage hstart hstop htag).encodes harrays m'.intoInner

end

end MessageCodec.Compatible

end Bilrost
