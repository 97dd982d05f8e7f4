import Bilrost.Guarantees.Bijection
import Bilrost.Schema.Unknown
import Bilrost.Codec.OpaqueBijection

/-!
Fields that a message does not know leave no trace but the canonicity of the
message, wherever they are. So a message can be read by programs that know fewer
of its fields, and passed on by programs that know none of them.
-/

namespace Bilrost

open Program

section
variable {M : Type} {codec : MessageCodec M} {allowed : Features} {β γ : Type} [Buf β] [Buf γ]
  {buf : β} {buf' : γ} {records records' : List Record}

theorem MessageCodec.Regular.decodeAs_eq_ok_iff_walks (h : codec.Regular) {way : Way}
    {mode : DecodingMode} (hbuf : Buf.bytes buf = wireRecords 0 records) {m : M}
    {canon : Canonicity} : codec.decodeAs way mode .notCanonical buf = .ok (m, canon) ↔
      codec.Walks way mode recursionLimit 0 none codec.empty records m canon := by
  rw [h.decodeAs_eq_ok, hbuf]
  exact Iff.rfl

theorem Built.decodeAs_inserts (h : Built allowed (.message codec))
    (harrays : ∀ r ∈ records, ¬(Part.message codec).EmptyArrayAt r.tag r.wireType)
    (hinserts : Inserts codec.Ignores records records')
    (hfields : WellFormed records') (hbuf : Buf.bytes buf = wireRecords 0 records)
    (hbuf' : Buf.bytes buf' = wireRecords 0 records') (way : Way) (mode : DecodingMode) (m : M)
    (canon' : Canonicity) : codec.decodeAs way mode .notCanonical buf' = .ok (m, canon') ↔
      ∃ canon, codec.decodeAs way mode .notCanonical buf = .ok (m, canon) ∧
        canon' = if records' = records then canon else canon.update way.extension := by
  have hregular := h.regular
  have hreaches : ∀ r ∈ records, codec.ReachesAt r.tag r.wireType :=
    fun r hr => h.reachesAt_iff.mpr (harrays r hr)
  have hreaches' : ∀ r ∈ records', codec.ReachesAt r.tag r.wireType := fun r hr =>
    (hinserts.mem hr).elim (hreaches r) fun hignores => hignores.reachesAt r.wireType
  obtain ⟨known, hknown⟩ : ∃ known : Nat → Bool, ∀ tag, known tag = false ↔ codec.Ignores tag := by
    classical
    exact ⟨fun tag => decide ¬codec.Ignores tag, fun tag => by simp⟩
  have hignores : ∀ tag, known tag = false → codec.Ignores tag := fun tag => (hknown tag).mp
  replace hinserts : Inserts (fun tag => known tag = false) records records' := by
    simpa only [hknown] using hinserts
  have hfits' : Fits 0 records' := wellFormed_iff_fits.mp hfields
  have hfits : Fits 0 records := hfits'.sublist hinserts.sublist
  -- both are read as what the message knows of them
  have hkept {records : List Record} (hreaches : ∀ r ∈ records, codec.ReachesAt r.tag r.wireType)
      (hfits : Fits 0 records) {canon : Canonicity} :
      codec.Walks way mode recursionLimit 0 none codec.empty records m canon ↔
        ∃ own, codec.Walks way mode recursionLimit 0 none codec.empty (kept known records) m own ∧
          canon = own.update (way.extensions known records) := by
    constructor
    · exact hregular.walks_known hreaches hignores hfits .start
    · rintro ⟨own, hown, rfl⟩
      exact hregular.walks_of_known hreaches hignores hfits .start hown
  rw [hregular.decodeAs_eq_ok_iff_walks hbuf', hkept hreaches' hfits']
  simp only [hregular.decodeAs_eq_ok_iff_walks hbuf, hkept hreaches hfits, hinserts.kept_eq]
  have hcanon (own : Canonicity) : own.update (way.extensions known records') =
      if records' = records then own.update (way.extensions known records)
      else (own.update (way.extensions known records)).update way.extension := by
    split_ifs with heq
    · rw [heq]
    · rw [hinserts.extensions_eq heq way, ← Way.extension_update_extensions way records own]
      exact min_comm _ _
  constructor
  · rintro ⟨own, hown, rfl⟩
    exact ⟨_, ⟨own, hown, rfl⟩, hcanon own⟩
  · rintro ⟨canon, ⟨own, hown, rfl⟩, rfl⟩
    exact ⟨own, hown, (hcanon own).symm⟩

theorem MessageCodec.decode_eq_ok_iff {m : M} : codec.decode buf = .ok m ↔
    codec.decodeAs .relaxed .owned .notCanonical buf = .ok (m, .canonical) := by
  unfold MessageCodec.decode MessageCodec.decodeAs
  cases codec.decodeCapped .owned (Capped.new buf) <;> simp [Except.map]

/-- Fields that a message does not know may stand anywhere among its fields, as
long as the tags do not go down. Without them the bytes are decoded to the same
message, or are as little decoded as with them; and distinguished decoding
knows that there were some. -/
theorem decode_inserts (h : Built allowed (.message codec)) (hallowed : ¬allowed.emptyArrays)
    (hinserts : Inserts codec.Ignores records records') (hfields : WellFormed records')
    (hbuf : Buf.bytes buf = wireRecords 0 records)
    (hbuf' : Buf.bytes buf' = wireRecords 0 records') (m : M) :
    (codec.decode buf' = .ok m ↔ codec.decode buf = .ok m) ∧
      ∀ canon', codec.decodeDistinguished buf' = .ok (m, canon') ↔
        ∃ canon, codec.decodeDistinguished buf = .ok (m, canon) ∧
          canon' = if records' = records then canon else canon.update .hasExtensions := by
  have harrays : ∀ r ∈ records, ¬(Part.message codec).EmptyArrayAt r.tag r.wireType :=
    fun r _ => h.not_emptyArrayAt hallowed r.tag r.wireType
  constructor
  · rw [codec.decode_eq_ok_iff, codec.decode_eq_ok_iff,
      h.decodeAs_inserts harrays hinserts hfields hbuf hbuf']
    simp [Way.extension]
  · intro canon'
    exact h.decodeAs_inserts harrays hinserts hfields hbuf hbuf' .distinguished .owned m canon'

theorem decode_inserts_u32Field :
    let records : List Record := [⟨1, .varint, [5]⟩]
    let records' : List Record := [⟨1, .varint, [5]⟩, ⟨9, .lengthDelimited, [2, 0, 0]⟩]
    Inserts (u32Field.derived 1).Ignores records records' ∧ WellFormed records' ∧
      ((u32Field.derived 1).decode (wireRecords 0 records') = .ok 5 ↔
        (u32Field.derived 1).decode (wireRecords 0 records) = .ok 5) := by
  intro records records'
  have hbuilt : Built .structural (.message (u32Field.derived 1)) :=
    .derived (by decide) (built_u32Field _)
  have hignores : (u32Field.derived 1).Ignores 9 := Fields.ignores rfl
  have hinserts : Inserts (u32Field.derived 1).Ignores records records' :=
    .keep _ (.insert _ hignores .nil)
  have hfields : WellFormed records' := by
    constructor
    · exact ⟨by decide, by decide, trivial⟩
    · decide
    · simp only [records', List.forall_mem_cons]
      refine ⟨⟨5, by decide, rfl⟩, ⟨[0, 0], by decide, rfl⟩, by simp⟩
  refine ⟨hinserts, hfields, ?_⟩
  exact (decode_inserts hbuilt not_false hinserts hfields (Buf.bytes_slice _).symm
    (Buf.bytes_slice _).symm 5).1

/-- Unknown fields among the others are transparent unless one of these is an
array of length zero. What follows the key of such an array is taken for the
next field, and all that comes later is read from another place. -/
theorem unknown_fields_transparent (h : Built allowed (.message codec))
    (hinserts : Inserts codec.Ignores records records') (hfields : WellFormed records')
    (hbuf : Buf.bytes buf = wireRecords 0 records)
    (hbuf' : Buf.bytes buf' = wireRecords 0 records')
    (harrays : ∀ r ∈ records, ¬(Part.message codec).EmptyArrayAt r.tag r.wireType) :
    (∀ m, codec.decode buf = .ok m → codec.decode buf' = .ok m) ∧
      ∀ m canon, codec.decodeDistinguished buf = .ok (m, canon) →
        codec.decodeDistinguished buf' =
          .ok (m, if records' = records then canon else canon.update .hasExtensions) := by
  have hdecode := h.decodeAs_inserts harrays hinserts hfields hbuf hbuf'
  constructor
  · intro m hm
    rw [codec.decode_eq_ok_iff] at hm ⊢
    exact (hdecode .relaxed .owned m .canonical).mpr ⟨.canonical, hm, by simp [Way.extension]⟩
  · intro m canon hm
    exact (hdecode .distinguished .owned m _).mpr ⟨canon, hm, rfl⟩

/-- `Option<[bool; 0]>`, not packed. -/
abbrev noFlags : MessageCodec (Option (List.Vector Bool 0)) :=
  (VarintScalar.bool.scalar.codec.unpackedArrayOptionField 0).derived 1

theorem built_noFlags : Built .all (.message noFlags) := by
  have hbool : Built .all (.value VarintScalar.bool.scalar.codec) :=
    .scalar (.varint VarintScalar.lawful_bool)
  exact .derived (by decide) (.unpackedArrayOptionField (.inr trivial) hbool)

/-- A message may have such an array where the data have none. -/
theorem unknown_fields_transparent_noFlags :
    let records : List Record := [⟨2, .varint, [5]⟩]
    let records' : List Record := [⟨2, .varint, [5]⟩, ⟨9, .lengthDelimited, [2, 0, 0]⟩]
    Inserts noFlags.Ignores records records' ∧ WellFormed records' ∧
      noFlags.decode (wireRecords 0 records') = .ok none ∧
      noFlags.decodeDistinguished (wireRecords 0 records') = .ok (none, .hasExtensions) := by
  intro records records'
  have hinserts : Inserts noFlags.Ignores records records' :=
    .keep _ (.insert _ (Fields.ignores rfl) .nil)
  have hfields : WellFormed records' := by
    constructor
    · exact ⟨by decide, by decide, trivial⟩
    · decide
    · simp only [records', List.forall_mem_cons]
      exact ⟨⟨5, by decide, rfl⟩, ⟨[0, 0], by decide, rfl⟩, by simp⟩
  have harrays : ∀ r ∈ records, ¬(Part.message noFlags).EmptyArrayAt r.tag r.wireType := by
    intro r hr
    obtain rfl := List.mem_singleton.mp hr
    have hignores : noFlags.Ignores 2 := Fields.ignores rfl
    exact built_noFlags.reachesAt_iff.mp (hignores.reachesAt .varint)
  have htransparent := unknown_fields_transparent built_noFlags hinserts hfields
    (Buf.bytes_slice (wireRecords 0 records)) (Buf.bytes_slice (wireRecords 0 records'))
    harrays
  have hbytes : wireRecords 0 records = [8, 5] := rfl
  rw [hbytes] at htransparent
  exact ⟨hinserts, hfields, htransparent.1 none rfl, htransparent.2 none .hasExtensions rfl⟩

/-- The value 5 of the first field is read as a key, and what was a key tells how
long the field is that it begins. -/
theorem unknown_fields_not_transparent :
    let records : List Record := [⟨1, .varint, [5]⟩, ⟨2, .lengthDelimited, [4, 0, 0, 0, 0]⟩]
    let records' : List Record :=
      [⟨1, .varint, [5]⟩, ⟨2, .varint, [0]⟩, ⟨2, .lengthDelimited, [4, 0, 0, 0, 0]⟩]
    Inserts noFlags.Ignores records records' ∧ WellFormed records' ∧
      wireRecords 0 records = [4, 5, 5, 4, 0, 0, 0, 0] ∧
      wireRecords 0 records' = [4, 5, 4, 0, 1, 4, 0, 0, 0, 0] ∧
      noFlags.decode (wireRecords 0 records) = .ok (some List.Vector.nil) ∧
      noFlags.decode (wireRecords 0 records') = .error (.error .truncated) ∧
      noFlags.decodeDistinguished (wireRecords 0 records) =
        .ok (some List.Vector.nil, .hasExtensions) ∧
      noFlags.decodeDistinguished (wireRecords 0 records') = .error (.error .truncated) := by
  intro records records'
  have hbytes : wireRecords 0 records = [4, 5, 5, 4, 0, 0, 0, 0] := rfl
  have hbytes' : wireRecords 0 records' = [4, 5, 4, 0, 1, 4, 0, 0, 0, 0] := rfl
  rw [hbytes, hbytes']
  refine ⟨?_, ?_, rfl, rfl, rfl, rfl, rfl, rfl⟩
  · exact .keep _ (.insert _ (Fields.ignores rfl) (.keep _ .nil))
  · constructor
    · exact ⟨by decide, by decide, by decide, trivial⟩
    · decide
    · simp only [records', List.forall_mem_cons]
      exact ⟨⟨5, by decide, rfl⟩, ⟨0, by decide, rfl⟩, ⟨[0, 0, 0, 0], by decide, rfl⟩, by simp⟩

/-- Whatever a message is decoded from, it is a sequence of fields with a
complete value each. So it can be decoded without knowing the message, and be
written again as it was. -/
theorem decodes_opaquely (h : Built allowed (.message codec)) (hallowed : ¬allowed.emptyArrays)
    {way : Way} {mode : DecodingMode} {restrictTo : Canonicity} {decoded : M × Canonicity}
    (hdecode : codec.decodeAs way mode restrictTo buf = .ok decoded) :
    IsFieldSequence (Buf.bytes buf) ∧ ∃ message, OpaqueMessage.codec.decode buf = .ok message ∧
      OpaqueMessage.codec.encodeToVec message = some (Buf.bytes buf) := by
  have hregular := h.regular
  have hmerge := hregular.parses_of_decodeAs hdecode
  obtain ⟨-, taken, last, lastTag, hreading⟩ := hregular.parses_mergeBy.mp hmerge
  have hreaches : codec.Reaches := h.reaches hallowed
  obtain ⟨records, hfits, hbytes⟩ := hreaches.exists_fits hreading rfl
  refine ⟨⟨records, wellFormed_iff_fits.mpr hfits, hbytes⟩, ?_⟩
  obtain ⟨items, rfl⟩ := OpaqueMessage.exists_items hfits.tag_lt hfits.complete
  have hopaque := OpaqueMessage.decode_eq_ok.mpr ⟨items, hfits.ascending, hbytes, rfl⟩
  obtain ⟨hencode, -, hlen⟩ := OpaqueMessage.encoders_agree (OpaqueMessage.fromIter items)
  refine ⟨_, hopaque, ?_⟩
  rw [OpaqueMessage.bytes_of_decode hopaque]
  simp [MessageCodec.encodeToVec, MessageCodec.encodedLen, hlen, hencode]

theorem decodes_opaquely_u32Field :
    (u32Field.derived 1).decodeAs .relaxed .owned .notCanonical ([4, 5] : Bytes) =
        .ok (5, .canonical) ∧
      IsFieldSequence [4, 5] := by
  have hbuilt : Built .structural (.message (u32Field.derived 1)) :=
    .derived (by decide) (built_u32Field _)
  have hdecode : (u32Field.derived 1).decodeAs .relaxed .owned .notCanonical ([4, 5] : Bytes) =
      .ok (5, .canonical) := by
    rfl
  exact ⟨hdecode, (decodes_opaquely hbuilt not_false hdecode).1⟩

end

end Bilrost
