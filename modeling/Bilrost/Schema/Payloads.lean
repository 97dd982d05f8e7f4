import Bilrost.Decode.Parses
import Bilrost.Schema.ValueRegular

/-!
What values are decoded from. Whatever the encoding, the decoder of a value
takes one complete payload of its wire type and makes of it what it would make
of it alone.
-/

namespace Bilrost

open Program

namespace Program

variable {α : Type} {bytes rest : Bytes}

@[simp] theorem parses_asCanonical {p : Program α} {x : α × Canonicity} :
    (asCanonical p).Parses bytes x rest ↔ p.Parses bytes x.1 rest ∧ x.2 = .canonical := by
  simp only [asCanonical, parses_bind, parses_done]
  constructor
  · rintro ⟨value, mid, hparse, rfl, rfl⟩
    exact ⟨hparse, rfl⟩
  · rintro ⟨hparse, hcanon⟩
    exact ⟨x.1, rest, hparse, Prod.ext rfl hcanon.symm, rfl⟩

theorem Same.isLocal {p q : Program α} (h : Same p q) (hq : q.Local) : p.Local := by
  constructor
  intro bytes rest x
  simp only [h.parses]
  exact hq.iff

theorem Local.asCanonical {p : Program α} (h : p.Local) : (asCanonical p).Local :=
  Local.bind h fun value => local_done (value, Canonicity.canonical)

@[simp] theorem parses_checkWireType {expected actual : WireType} {x : Unit} :
    (checkWireType expected actual).Parses bytes x rest ↔ expected = actual ∧ bytes = rest := by
  rw [checkWireType]
  split_ifs with hne <;> simp_all

end Program

theorem ValueCodec.parses_decodeFieldBy {T : Type} {codec : ValueCodec T} {way : Way}
    {mode : DecodingMode} {allowEmpty : Bool} {depth : Nat} {wireType : WireType} {value : T}
    {bytes rest : Bytes} {x : T × Canonicity} :
    (codec.decodeFieldBy way mode allowEmpty depth wireType value).Parses bytes x rest ↔
      codec.wireType = wireType ∧
        (codec.decodeBy way mode allowEmpty depth value).Parses bytes x rest := by
  simp only [decodeFieldBy, parses_bind, parses_checkWireType]
  constructor
  · rintro ⟨u, mid, ⟨hwire, rfl⟩, hparse⟩
    exact ⟨hwire, hparse⟩
  · rintro ⟨hwire, hparse⟩
    exact ⟨(), bytes, ⟨hwire, rfl⟩, hparse⟩

theorem DelimitedRead.parses_bytes {reads : DelimitedRead} {bytes rest x : Bytes} :
    reads.bytes.Parses bytes x rest ↔ x.length < 2 ^ 64 ∧ bytes = varint x.length ++ (x ++ rest) := by
  unfold Parses
  rw [reads.parse_bytes, ← parseDelimited_eq_some_iff]
  cases parseDelimited bytes with
  | none => simp
  | some taken => simp [Prod.ext_iff]

theorem DelimitedRead.local_bytes (reads : DelimitedRead) : reads.bytes.Local := by
  constructor
  intro bytes rest x
  simp only [parses_bytes]
  constructor
  · rintro ⟨hlt, rfl⟩
    exact ⟨varint x.length ++ x, by simp, hlt, by simp⟩
  · rintro ⟨payload, rfl, hlt, rfl⟩
    exact ⟨hlt, by simp⟩

/-- The decoders of values take one complete payload. -/
structure ValueCodec.Cuts {T : Type} (codec : ValueCodec T) : Prop where
  isLocal (way : Way) (mode : DecodingMode) (allowEmpty : Bool) (depth : Nat) (value : T) :
    (codec.decodeBy way mode allowEmpty depth value).Local
  complete {way : Way} {mode : DecodingMode} {allowEmpty : Bool} {depth : Nat} {value : T}
    {payload : Bytes} {x : T × Canonicity} :
    (codec.decodeBy way mode allowEmpty depth value).Parses payload x [] →
      codec.wireType.Complete payload

theorem WireType.Complete.ne_nil {wireType : WireType} {payload : Bytes}
    (h : wireType.Complete payload) : payload ≠ [] := by
  rintro rfl
  cases wireType with
  | varint =>
      obtain ⟨n, -, hnil⟩ := h
      exact varint_ne_nil n hnil.symm
  | lengthDelimited =>
      obtain ⟨content, -, hnil⟩ := h
      exact varint_ne_nil _ (List.append_eq_nil_iff.mp hnil.symm).1
  | thirtyTwoBit => cases h
  | sixtyFourBit => cases h

/-- A payload of fixed size. -/
theorem WireType.Complete.length {wireType : WireType} {payload : Bytes}
    (h : wireType.Complete payload) {size : Nat} (hsize : wireType.fixedSize = some size) :
    payload.length = size := by
  cases wireType with
  | varint => cases hsize
  | lengthDelimited => cases hsize
  | thirtyTwoBit =>
      obtain rfl : 4 = size := Option.some.inj hsize
      exact h
  | sixtyFourBit =>
      obtain rfl : 8 = size := Option.some.inj hsize
      exact h

theorem Scalar.Standard.cuts {T : Type} {scalar : Scalar T} (h : scalar.Standard) :
    scalar.codec.Cuts := by
  have hcodec (hlocal : ∀ mode, (scalar.decode mode).Local)
      (hcomplete : ∀ {mode payload x}, (scalar.decode mode).Parses payload x [] →
        scalar.wireType.Complete payload) : scalar.codec.Cuts := by
    constructor
    · intro way mode allowEmpty depth value
      rw [Scalar.decodeBy_eq]
      exact (hlocal mode).asCanonical
    · intro way mode allowEmpty depth value payload x hparse
      rw [Scalar.decodeBy_eq, parses_asCanonical] at hparse
      exact hcomplete hparse.1
  cases h with
  | varint h =>
      apply hcodec
      · exact fun mode => local_decodeVarint _
      · intro mode payload x hparse
        obtain ⟨n, mid, hvarint, hnext⟩ := parses_op.mp hparse
        obtain ⟨hlt, rfl⟩ := parses_decodeVarint.mp hvarint
        obtain ⟨-, rfl⟩ := parses_ofResult.mp hnext
        exact ⟨n, hlt, List.append_nil _⟩
  | @fixed _ s h =>
      apply hcodec
      · intro mode
        simp only [FixedScalar.scalar]
        split_ifs
        · exact local_fixed (.inl rfl) _
        · exact local_fixed (.inr rfl) _
      · intro mode payload x hparse
        have hlen : payload.length = s.width.size := by
          simp only [FixedScalar.scalar] at hparse
          split_ifs at hparse
          · obtain ⟨bytes, mid, hread, hnext⟩ := parses_op.mp hparse
            obtain ⟨hlen, rfl⟩ := parse_bytes_iff.mp hread
            obtain ⟨-, rfl⟩ := parses_ofResult.mp hnext
            simpa using hlen
          · obtain ⟨bytes, mid, hread, hnext⟩ := parses_op.mp hparse
            obtain ⟨hlen, rfl⟩ := parse_bytes_iff.mp hread
            obtain ⟨-, rfl⟩ := parses_ofResult.mp hnext
            simpa using hlen
        cases hwidth : s.width with
        | four => simpa [FixedScalar.scalar, hwidth, FixedWidth.wireType, FixedWidth.size,
            WireType.Complete] using hlen
        | eight => simpa [FixedScalar.scalar, hwidth, FixedWidth.wireType, FixedWidth.size,
            WireType.Complete] using hlen
  | @delimited _ s h =>
      apply hcodec
      · exact fun mode => (s.reads mode).local_bytes.bind fun _ => local_ofResult _
      · intro mode payload x hparse
        obtain ⟨content, mid, hread, hnext⟩ := parses_bind.mp hparse
        obtain ⟨hlt, rfl⟩ := DelimitedRead.parses_bytes.mp hread
        obtain ⟨-, rfl⟩ := parses_ofResult.mp hnext
        exact ⟨content, hlt, by simp⟩
  | plainArray n =>
      apply hcodec
      · exact fun mode => local_delimited _
      · intro mode payload x hparse
        obtain ⟨content, hlt, rfl, -⟩ := parses_delimited.mp hparse
        exact ⟨content, hlt, by simp⟩

namespace ValueCodec

variable {T C K V : Type} {item : ValueCodec T}

/-- Values whose decoders take a delimited region. -/
theorem cuts_of_delimited {codec : ValueCodec T} (hwire : codec.wireType = .lengthDelimited)
    (h : ∀ way mode allowEmpty depth value, ∃ inner,
      Same (codec.decodeBy way mode allowEmpty depth value) (delimited inner)) : codec.Cuts := by
  constructor
  · intro way mode allowEmpty depth value
    obtain ⟨inner, hsame⟩ := h way mode allowEmpty depth value
    exact hsame.isLocal (local_delimited inner)
  · intro way mode allowEmpty depth value payload x hparse
    obtain ⟨inner, hsame⟩ := h way mode allowEmpty depth value
    obtain ⟨content, hlt, rfl, -⟩ := parses_delimited.mp (hsame.parses.mp hparse)
    rw [hwire]
    exact ⟨content, hlt, by simp⟩

theorem cuts_packedItems (fixedSize : Option Nat) (item : ValueCodec T) (coll : Collection C T) :
    (packedItems fixedSize item coll).Cuts :=
  cuts_of_delimited rfl fun way mode allowEmpty depth value =>
    ⟨_, packedItems_decodeBy fixedSize item coll way mode allowEmpty depth value⟩

theorem cuts_packedArray (item : ValueCodec T) (n : Nat) : (item.packedArray n).Cuts :=
  cuts_of_delimited rfl fun way mode allowEmpty depth value =>
    ⟨_, packedArray_decodeBy item way mode allowEmpty depth value⟩

theorem Cuts.proxied {P : Type} {codec : ValueCodec P} (h : codec.Cuts) (proxy : Proxy T P)
    (forOverwrite : T) (emptyState : Option (EmptyState T)) :
    (codec.proxied proxy forOverwrite emptyState).Cuts := by
  constructor
  · intro way mode allowEmpty depth value
    rw [proxied_decodeBy]
    apply (h.isLocal way mode allowEmpty depth _).bind
    intro decoded
    cases way with
    | relaxed => exact (local_ofResult _).asCanonical
    | distinguished => exact (local_ofResult _).bind fun x => (local_done _).check x.2
  · intro way mode allowEmpty depth value payload x hparse
    rw [proxied_decodeBy] at hparse
    obtain ⟨decoded, mid, hdecoded, hnext⟩ := parses_bind.mp hparse
    obtain rfl : mid = [] := by
      cases way with
      | relaxed => exact (parses_ofResult.mp (parses_asCanonical.mp hnext).1).2
      | distinguished =>
          obtain ⟨y, left, hresult, hdone⟩ := parses_bind.mp hnext
          obtain ⟨-, rfl⟩ := parses_ofResult.mp hresult
          exact (parses_done.mp (parses_check.mp hdone)).2
    exact h.complete hdecoded

/-- A key and its value: two payloads. -/
theorem Cuts.local_entry {key : ValueCodec K} {val : ValueCodec V} (hkey : key.Cuts)
    (hval : val.Cuts) (way : Way) (mode : DecodingMode) (allowEmpty : Bool) (depth : Nat)
    (e : K × V) : ((key.entry val).decodeBy way mode allowEmpty depth e).Local := by
  rw [entry_decodeBy]
  apply (hkey.isLocal way mode allowEmpty depth e.1).bind
  intro newKey
  exact (hval.isLocal way mode allowEmpty depth e.2).bind fun newVal => local_done _

end ValueCodec

theorem local_limitReached (depth : Nat) : (limitReached depth).Local := by
  apply Local.note
  change (if depth = 0 then error .recursionLimitReached else .done ()).Local
  split_ifs
  · exact local_error _
  · exact local_done _

theorem parses_limitReached {depth : Nat} {bytes rest : Bytes} {x : Unit} :
    (limitReached depth).Parses bytes x rest ↔ depth ≠ 0 ∧ bytes = rest := by
  rw [limitReached, bind_eq, noted, op_bind, parses_note, done_bind]
  split_ifs with hdepth <;> simp [hdepth]

namespace MessageCodec

variable {M : Type} (codec : MessageCodec M)

theorem cuts_nested : codec.nested.Cuts := by
  constructor
  · intro way mode allowEmpty depth value
    apply (codec.nested_decodeBy way mode allowEmpty depth value).isLocal
    exact (local_limitReached depth).bind fun _ => local_delimited _
  · intro way mode allowEmpty depth value payload x hparse
    rw [(codec.nested_decodeBy way mode allowEmpty depth value).parses] at hparse
    obtain ⟨u, mid, hlimit, hregion⟩ := parses_bind.mp hparse
    obtain ⟨-, rfl⟩ := parses_limitReached.mp hlimit
    obtain ⟨content, hlt, rfl, -⟩ := parses_delimited.mp hregion
    exact ⟨content, hlt, by simp⟩

theorem cuts_tupled : codec.tupled.Cuts :=
  ValueCodec.cuts_of_delimited rfl fun way mode allowEmpty depth value =>
    ⟨_, codec.tupled_decodeBy way mode allowEmpty depth value⟩

theorem cuts_inlined : codec.inlined.Cuts :=
  ValueCodec.cuts_of_delimited rfl fun way mode allowEmpty depth value =>
    ⟨_, codec.inlined_decodeBy way mode allowEmpty depth value⟩

end MessageCodec

def Part.Cuts : Part → Prop
  | .value codec => codec.Cuts
  | _ => True

/-- All values are decoded from one complete payload. -/
theorem Built.cuts {allowed : Features} {part : Part} (h : Built allowed part) : part.Cuts := by
  induction h with
  | scalar h => exact h.cuts
  | packed _ _ _ => exact ValueCodec.cuts_packedItems _ _ _
  | localProxy _ _ _ _ _ => exact ValueCodec.cuts_packedItems _ _ _
  | map _ _ _ _ _ => exact ValueCodec.cuts_packedItems _ _ _
  | packedArray _ _ _ => exact ValueCodec.cuts_packedArray _ _
  | proxied _ _ _ _ _ hcodec => exact hcodec.proxied _ _ _
  | @nested _ codec _ _ => exact codec.cuts_nested
  | @tupled _ codec _ _ => exact codec.cuts_tupled
  | @inlined _ codec _ _ => exact codec.cuts_inlined
  | _ => trivial

end Bilrost
