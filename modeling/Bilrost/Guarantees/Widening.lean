import Bilrost.Guarantees.TimeSpans
import Bilrost.Guarantees.UnknownFields
import Bilrost.Schema.WiderScalars

/-!
Messages that change. When types are replaced by wider ones and fields are added,
data that was written before the change is read as the corresponding values and
written again as it was, and data that is written afterwards is read by those
who know only the earlier version.
-/

namespace Bilrost

section
variable {M M' : Type} {codec : MessageCodec M} {codec' : MessageCodec M'} {f : M → M'}

theorem Widens.encodeToVec_eq (h : Widens (.message codec) (.message codec') f) (m : M) :
    codec'.encodeToVec (f m) = codec.encodeToVec m := by
  have hlike : codec.WritesLike m codec' (f m) := h.writesLike m
  rw [h.structural.1.encodeToVec_eq, h.structural.2.encodeToVec_eq, hlike.rawEncode]

/-- Old data is decoded to the values that correspond, by all of the calls, and
these are encoded as the old data was. -/
theorem old_data_decodes (h : Widens (.message codec) (.message codec') f) {m : M}
    (hnests : codec'.nestsWithin recursionLimit (f m)) :
    ∃ bytes, codec.encodeToVec m = some bytes ∧ codec'.encodeToVec (f m) = some bytes ∧
      (bytes.length < 2 ^ 64 → codec'.DecodesTo bytes (f m)) := by
  have hwrites : codec'.Writes _ := h.writes.2
  obtain ⟨records, hwritten⟩ := hwrites (f m)
  have hencode := (h.structural.2.encodeToVec_eq (f m)).trans hwritten.encode
  exact ⟨_, (h.encodeToVec_eq m).symm.trans hencode, hencode, h.structural.2.decodesTo hnests hencode⟩

/-- New data is canonical for the old version only if it corresponds to an old
value, and then it is decoded to this value. -/
theorem new_data_canonical_iff (h : Widens (.message codec) (.message codec') f) {m : M} {m' : M'}
    (hnests : codec.nestsWithin recursionLimit m) {β : Type} [Buf β] {buf : β}
    (hdecode : codec'.decodeDistinguished buf = .ok (m', .canonical))
    (hlt : (Buf.bytes buf).length < 2 ^ 64) :
    codec.decodeDistinguished buf = .ok (m, .canonical) ↔ m' = f m := by
  have hencode' := h.structural.2.encodeToVec_of_canonical hdecode
  constructor
  · intro hold
    have hencode := h.structural.1.encodeToVec_of_canonical hold
    rw [← h.encodeToVec_eq] at hencode
    exact h.structural.2.encodeToVec_inj hencode' hencode hlt
  · rintro rfl
    rw [h.encodeToVec_eq] at hencode'
    exact (h.structural.1.decodesTo hnests hencode' hlt).decodeDistinguished rfl

end

/-- A message whose only field changes. -/
theorem Widens.derived {T T' : Type} {codec : FieldCodec T} {codec' : FieldCodec T'} {f : T → T'}
    {tag : Nat} (htag : tag < 2 ^ 32) (h : Widens (.field codec) (.field codec') f) :
    Widens (.message (codec.derived tag)) (.message (codec'.derived tag)) f := by
  let F := Fields.single (codec.tagged tag)
  let F' := Fields.single (codec'.tagged tag)
  have hsound : F.Sound := Fields.singleBy_sound htag
  have hsound' : F'.Sound := Fields.singleBy_sound htag
  have hsame : F.Grows F' id := ⟨Function.injective_id, fun _ => List.Subset.refl _⟩
  have hempty (m : T) : @Fields.addsNothing T T' F F' id (f m) = true :=
    Fields.addsNothing_iff.mpr fun j hj => absurd rfl (hj j)
  exact .fields (g := fun _ => f) hsound hsound' .derived .derived
    (inferInstanceAs (Subsingleton Unit)) (inferInstanceAs (Subsingleton Unit)) hsame
    (fun _ _ => rfl) hempty (fun _ => .tagged tag h.structural.2) (fun _ => .tagged tag h)

/-- A message with a flag. -/
def flagMessage : MessageCodec Bool :=
  (VarintScalar.bool.scalar.codec.plain (EmptyState.single false)).derived 1

/-- What may become of it: a message with a list of numbers. -/
def flagsMessage : MessageCodec (List (BitVec 8)) :=
  (VarintScalar.i8.scalar.codec.unpackedField (Collection.vec (BitVec 8))).derived 1

/-- The flag becomes optional, then a number, and then one of a list of them. -/
theorem widens_flag : Widens (.message flagMessage) (.message flagsMessage)
    ((Option.toList ∘ Option.map (VarintScalar.ofBool 8)) ∘
      fun value : Bool => if decide (value = false) then none else some value) := by
  apply Widens.derived (by decide)
  have hbool : Widens (.value VarintScalar.bool.scalar.codec) (.value VarintScalar.i8.scalar.codec)
      (VarintScalar.ofBool 8) := VarintScalar.widens_bool_signed (by decide) (by decide)
  have hoption := Widens.option rfl (Scalar.empties_single VarintScalar.bool.scalar) hbool.structural.1
  exact hoption.trans (hbool.optional.trans (.optionItems hbool.structural.2))

theorem old_data_decodes_flag :
    flagsMessage.nestsWithin recursionLimit [255#8] ∧ ∃ bytes,
      flagMessage.encodeToVec true = some bytes ∧ flagsMessage.encodeToVec [255#8] = some bytes ∧
        (bytes.length < 2 ^ 64 → flagsMessage.DecodesTo bytes [255#8]) := by
  have hnests : flagsMessage.nestsWithin recursionLimit [255#8] := fun _ _ _ => trivial
  exact ⟨hnests, old_data_decodes widens_flag (m := true) hnests⟩

theorem new_data_canonical_iff_flag :
    flagsMessage.decodeDistinguished ([4, 1] : Bytes) = .ok ([255#8], .canonical) ∧
      (flagMessage.decodeDistinguished ([4, 1] : Bytes) = .ok (true, .canonical) ↔
        [255#8] = [255#8]) := by
  have hnests : flagMessage.nestsWithin recursionLimit true := fun _ => trivial
  have hdecode : flagsMessage.decodeDistinguished ([4, 1] : Bytes) = .ok ([255#8], .canonical) := by
    rfl
  exact ⟨hdecode, new_data_canonical_iff widens_flag hnests hdecode (by decide)⟩

section
variable {M M' : Type} {F : Fields M} {F' : Fields M'} {w : F.Writing} {w' : F'.Writing}
  {e : F.Index → F'.Index} {m : M} {m' : M'} {β : Type} [Buf β] {buf : β}

/-- A later version of a message has other fields besides those of the earlier
one, which may have become wider. What is encoded of it is decoded by the earlier
version to the fields that it knows, and distinguished decoding notices if there
was anything else. -/
theorem grown_message_decodes {g : ∀ i, F.Ty i → F'.Ty (e i)} (hsound : F.Sound)
    (hsound' : F'.Sound) (hw : w.Standard) (hw' : w'.Standard) (hignored : Subsingleton F.Ignored)
    (hgrows : F.Grows F' e)
    (hold : ∀ i, Widens (.messageField (F.field i)) (.messageField (F'.field (e i))) (g i))
    (hnew : ∀ j, Structural (.messageField (F'.field j)))
    (hget : ∀ i, F'.get m' (e i) = g i (F.get m i))
    (hnests : (F.message w).nestsWithin recursionLimit m)
    (hencode : (F'.message w').encodeToVec m' = some (Buf.bytes buf))
    (hlt : (Buf.bytes buf).length < 2 ^ 64) :
    (F.message w).decode buf = .ok m ∧ (F.message w).decodeDistinguished buf = .ok (m,
      if Fields.addsNothing e m' then .canonical else .hasExtensions) := by
  have hstructural : Structural (.message (F.message w)) :=
    .fields hsound hw hignored fun i => (hold i).structural.1
  have hlike (i : F.Index) :
      (F.field i).WritesLike (F.get m i) (F'.field (e i)) (F'.get m' (e i)) := by
    rw [hget]
    exact (hold i).writesLike (F.get m i)
  have hwrites : (F'.message w').Writes _ :=
    Fields.writes hsound' hw' fun j => (hnew j).built.writes not_false
  obtain ⟨records, hwritten', hwritten, hkept⟩ := hgrows.exists_records hsound hsound' hw hw'
    (fun i => (hold i).writes.1) (fun j => (hnew j).built.writes not_false)
    (fun i => (hold i).structural.1.built.shows not_false)
    (fun j => (hnew j).built.shows not_false) hlike
  have hbytes : Buf.bytes buf = wireRecords 0 records := by
    rw [hwrites.encodeToVec_eq, hwritten'.encode] at hencode
    exact (Option.some.inj hencode).symm
  have hfields : WellFormed records := by
    refine ⟨hwritten'.ascending, hwritten'.tag_lt, fun r hr => hwritten'.complete r hr fun _ => ?_⟩
    exact (length_payload_le 0 r hr).trans_lt (hbytes ▸ hlt)
  have hinserts : Inserts (F.message w).Ignores (kept F.knows records) records := by
    refine inserts_kept (fun tag htag => Fields.ignores ?_) records
    exact Option.not_isSome_iff_eq_none.mp (by simpa [Fields.knows] using htag)
  have hshort : (wireRecords 0 (kept F.knows records)).length < 2 ^ 64 :=
    (wireRecords_length_le kept_sublist hwritten'.ascending).trans_lt (hbytes ▸ hlt)
  have hknown := hstructural.decodesTo hnests
    ((hstructural.encodeToVec_eq m).trans hwritten.encode) hshort
  have hslice := Buf.bytes_slice (wireRecords 0 (kept F.knows records))
  have hinserted := hstructural.built.decodeAs_inserts
    (fun r _ => hstructural.built.not_emptyArrayAt not_false r.tag r.wireType) hinserts hfields
    hslice hbytes
  constructor
  · have hdecode := MessageCodec.decode_eq_ok_iff.mp (hknown.decode hslice)
    rw [MessageCodec.decode_eq_ok_iff, hinserted]
    exact ⟨_, hdecode, by simp [Way.extension]⟩
  · have hdecode := hknown.decodeDistinguished hslice
    refine (hinserted .distinguished .owned m _).mpr ⟨_, hdecode, ?_⟩
    cases hempty : Fields.addsNothing e m' with
    | true =>
        rw [if_pos (hkept.mpr hempty).symm]
        rfl
    | false =>
        have hne : records ≠ kept F.knows records := by
          intro heq
          rw [hkept.mp heq.symm] at hempty
          cases hempty
        rw [if_neg hne]
        rfl

end

/-- The seconds of a duration, of 32 bits as they may once have been. -/
def secondsField : FieldCodec (BitVec 32) :=
  VarintScalar.i32.scalar.codec.plain (EmptyState.single VarintScalar.i32.forOverwrite)

def secondsFields : Fields (BitVec 32) := Fields.single (secondsField.tagged 1)

theorem widens_seconds : Widens (.field secondsField)
    (.field (VarintScalar.i64.scalar.codec.plain (EmptyState.single (0 : BitVec 64))))
    (BitVec.signExtend 64) := by
  apply Widens.plainVarint (VarintScalar.lawful_signed (by decide))
    (VarintScalar.lawful_signed (by decide)) rfl rfl rfl
  exact VarintScalar.toUint64_signExtend (by decide) (by decide)

theorem SecondsAndNanos.structural_field (i : Fin 2) :
    Structural (.messageField (SecondsAndNanos.field i)) := by
  have hsecs : Structural (.field (VarintScalar.i64.scalar.codec.plain
      (EmptyState.single (0 : BitVec 64)))) :=
    .plain rfl (Scalar.empties_single _)
      (.scalar (.varint (VarintScalar.lawful_signed (by decide))))
  have hnanos : Structural (.field (FixedScalar.i32.scalar.codec.plain
      (EmptyState.single (0 : BitVec 32)))) :=
    .plain rfl (Scalar.empties_single _) (.scalar (.fixed (FixedScalar.lawful_ofBits .four)))
  fin_cases i
  · exact .tagged 1 hsecs
  · exact .tagged 2 hnanos

/-- Five seconds and seven nanoseconds. -/
def fiveSeconds : Types.Duration := ⟨⟨5, by decide, by decide⟩, ⟨7, by decide, by decide⟩⟩

theorem grown_message_decodes_seconds :
    Types.Duration.message.encodeToVec fiveSeconds = some [4, 10, 6, 7, 0, 0, 0] ∧
      (secondsFields.message secondsFields.derived).decode ([4, 10, 6, 7, 0, 0, 0] : Bytes) =
        .ok 5 := by
  let first : Types.Duration.fields.Index := ⟨0, by decide⟩
  let g (i : secondsFields.Index) : secondsFields.Ty i → Types.Duration.fields.Ty first :=
    BitVec.signExtend 64
  have hsound : secondsFields.Sound := Fields.singleBy_sound (by decide)
  have hsound' : Types.Duration.fields.Sound := SecondsAndNanos.sound _
  have hgrows : secondsFields.Grows Types.Duration.fields fun _ => first :=
    ⟨fun i j _ => Subsingleton.elim (α := Fin 1) i j, fun _ => List.Subset.refl _⟩
  have hold (i : secondsFields.Index) : Widens (.messageField (secondsFields.field i))
      (.messageField (Types.Duration.fields.field first)) (g i) := .tagged 1 widens_seconds
  have hget (i : secondsFields.Index) :
      Types.Duration.fields.get fiveSeconds first = g i (secondsFields.get 5 i) := rfl
  have hnests : (secondsFields.message secondsFields.derived).nestsWithin recursionLimit 5 :=
    fun _ => trivial
  have hencode : Types.Duration.message.encodeToVec fiveSeconds =
      some (Buf.bytes ([4, 10, 6, 7, 0, 0, 0] : Bytes)) := by
    decide
  exact ⟨hencode, (grown_message_decodes hsound hsound' .derived .derived
    (inferInstanceAs (Subsingleton Unit)) hgrows hold SecondsAndNanos.structural_field hget hnests
    hencode (by decide)).1⟩

end Bilrost
