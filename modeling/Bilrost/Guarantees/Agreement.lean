import Bilrost.Codec.Entry
import Bilrost.Schema.Counted
import Bilrost.Schema.MessageTypes
import Bilrost.Schema.Single

/-!
What the decoders of a message have to do with each other: the relaxed and the
distinguished ones, and those that own and those that borrow what they decode.
-/

namespace Bilrost

open Program

/-- Both ways of decoding, at the same depth. -/
def Sides.ways_of (mode mode' : DecodingMode) (depth : Nat) : Sides where
  way := .relaxed
  way' := .distinguished
  mode := mode
  mode' := mode'
  depth := depth
  depth' := depth
  ways := .inl rfl
  depths := le_rfl

/-- One way of decoding, in both modes. -/
def Sides.modes_of (way : Way) (mode mode' : DecodingMode) (depth : Nat) : Sides where
  way := way
  way' := way
  mode := mode
  mode' := mode'
  depth := depth
  depth' := depth
  ways := .inr rfl
  depths := le_rfl

namespace MessageCodec

variable {M : Type} {codec : MessageCodec M}

/-- Relaxed and distinguished merges into the same message. -/
theorem Locks.lock_ways (h : codec.Locks) (mode mode' : DecodingMode) (depth : Nat) (m : M) :
    Lock False (fun x y => x.1 = y.1) (codec.mergeBy .relaxed mode depth m)
      (codec.mergeBy .distinguished mode' depth m) := by
  have hlock : Lock (depth < depth) _ _ _ :=
    h.mergeBy (.ways_of mode mode' depth) true (h.same.refl true m)
  rw [eq_false (lt_irrefl depth)] at hlock
  exact hlock.mono fun x y hxy => (h.same.eq _ _).mp hxy.1

/-- Owned and borrowed merges into the same message. -/
theorem Locks.lock_modes (h : codec.Locks) (way : Way) (mode mode' : DecodingMode) (depth : Nat)
    (m : M) :
    Lock False Eq (codec.mergeBy way mode depth m) (codec.mergeBy way mode' depth m) := by
  have hlock : Lock (depth < depth) _ _ _ :=
    h.mergeBy (.modes_of way mode mode' depth) true (h.same.refl true m)
  rw [eq_false (lt_irrefl depth)] at hlock
  exact hlock.mono fun x y hxy => Prod.ext ((h.same.eq _ _).mp hxy.1) (hxy.2 rfl)

/-- The relaxed merge never refuses an empty value before the limit. -/
theorem Counted.not_passes_skipsEmpty (h : codec.Counted) {β : Type} [Buf β] (mode : DecodingMode)
    (depth : Nat) (m : M) (d : Nat) (capped : Capped β) :
    ¬ (codec.mergeBy .relaxed mode depth m).Passes (.skipsEmpty d) capped := by
  rintro ⟨level, hmem⟩
  exact (h.mergeBy .relaxed mode depth m).skips .notCanonical 0 capped rfl _ hmem d rfl

end MessageCodec

section
variable {allowed : Features} {M : Type} {codec : MessageCodec M}

/-- Relaxed decoding accepts what distinguished decoding does, and decodes the
same message, unless it stops at the recursion limit. -/
theorem decodeDistinguished_agrees (h : codec.Implemented allowed) {β : Type} [Buf β]
    (buf : β) (hlimit : codec.decode buf ≠ .error limitError) (value : M) :
    (∃ canon, codec.decodeDistinguished buf = .ok (value, canon)) ↔
      codec.decode buf = .ok value := by
  have hrelaxed := codec.faulted_decodeCapped_slice .owned (Capped.new buf)
  have hdistinguished :=
    codec.faulted_decodeRestrictedCapped_slice .owned (Capped.new buf) .notCanonical
  have hlock := h.locks.lock_ways .owned .owned recursionLimit codec.empty (Capped.new buf).slice
  have hlimit : (codec.mergeBy .relaxed .owned recursionLimit codec.empty).result .notCanonical
      (Capped.new buf).slice ≠ .error limitError := by
    intro hresult
    rw [MessageCodec.decodeCapped_eq, hresult] at hrelaxed
    exact hlimit (faulted_eq_limit.mp hrelaxed.symm)
  have hresult := hlock.result hlimit
  rw [MessageCodec.decodeDistinguished, MessageCodec.decodeRestricted, MessageCodec.decode]
  simp only [← faulted_eq_ok, ← hrelaxed, ← hdistinguished]
  simp only [faulted_eq_ok, MessageCodec.decodeCapped_eq,
    MessageCodec.decodeRestrictedCapped_notCanonical]
  revert hresult
  cases (codec.mergeBy .relaxed .owned recursionLimit codec.empty).result .notCanonical
      (Capped.new buf).slice with
  | ok x =>
    cases (codec.mergeBy .distinguished .owned recursionLimit codec.empty).result .notCanonical
        (Capped.new buf).slice with
    | ok y =>
      intro hxy
      obtain hxy : x.1 = y.1 := hxy
      simp only [Except.map, Except.ok.injEq, hxy]
      constructor
      · rintro ⟨canon, rfl⟩
        rfl
      · rintro rfl
        exact ⟨y.2, rfl⟩
    | error stop => exact False.elim
  | error stop =>
    cases (codec.mergeBy .distinguished .owned recursionLimit codec.empty).result .notCanonical
        (Capped.new buf).slice with
    | ok y => exact False.elim
    | error stop' => simp [Except.map]

/-- Both decoders find the field in its default value. -/
theorem decodeDistinguished_agrees_default :
    (∃ canon, (u32Field.derived 1).decodeDistinguished ([4, 0] : Bytes) = .ok (0, canon)) ↔
      (u32Field.derived 1).decode ([4, 0] : Bytes) = .ok 0 :=
  have hbuilt : Built .distinguished (.message (u32Field.derived 1)) :=
    .derived (by decide) (built_u32Field _)
  decodeDistinguished_agrees (.schema hbuilt) _ (by decide +kernel) 0

/-- Owned and borrowed merges of the same bytes return the same. Where only one
of them were allowed to stop at the limit, the other is compared with it. -/
theorem MessageCodec.Locks.faulted_modes (h : codec.Locks) (way : Way) (mode mode' : DecodingMode)
    (slice : Capped Bytes) :
    faulted ((codec.mergeBy way mode recursionLimit codec.empty).result .notCanonical slice) =
      faulted ((codec.mergeBy way mode' recursionLimit codec.empty).result .notCanonical slice) := by
  have hlock := h.lock_modes way mode mode' recursionLimit codec.empty slice
  have hlock' := h.lock_modes way mode' mode recursionLimit codec.empty slice
  rcases hlock with ⟨hlimit, -⟩ | ⟨hsame, -⟩
  · rcases hlock' with ⟨hlimit', -⟩ | ⟨hsame', -⟩
    · rw [Program.result, hlimit, Program.result, hlimit']
    · exact hsame'.faulted_eq.symm
  · exact hsame.faulted_eq

/-- Decoding depends on the bytes alone: not on the segments that they are held
in, and not on whether the message owns or borrows them. -/
theorem decoding_ignores_storage (h : codec.Implemented allowed) :
    (∀ buf : Segments,
      faulted (codec.decode buf) = faulted (codec.decode (Buf.bytes buf)) ∧
        faulted (codec.decodeDistinguished buf) =
          faulted (codec.decodeDistinguished (Buf.bytes buf))) ∧
      ∀ bytes : Bytes,
        faulted (codec.decodeBorrowed bytes) = faulted (codec.decode bytes) ∧
          faulted (codec.decodeDistinguishedBorrowed bytes) =
            faulted (codec.decodeDistinguished bytes) := by
  constructor
  · intro buf
    exact ⟨(codec.faulted_decodeCapped_slice .owned (Capped.new buf)).symm,
      (codec.faulted_decodeRestrictedCapped_slice .owned (Capped.new buf) .notCanonical).symm⟩
  · intro bytes
    have hmodes (way : Way) :=
      h.locks.faulted_modes way .borrowed .owned (Capped.new bytes)
    constructor
    · rw [MessageCodec.decodeBorrowed, MessageCodec.decode, MessageCodec.decodeCapped_eq,
        MessageCodec.decodeCapped_eq, faulted_map, faulted_map, hmodes]
    · have hdistinguished (mode : DecodingMode) :=
        codec.decodeRestrictedCapped_notCanonical mode (Capped.new bytes)
      rw [MessageCodec.decodeDistinguishedBorrowed, MessageCodec.decodeRestrictedBorrowed,
        MessageCodec.decodeDistinguished, MessageCodec.decodeRestricted, hdistinguished,
        hdistinguished, hmodes]

theorem decoding_ignores_storage_u32 :
    (∀ buf : Segments,
      faulted ((u32Field.derived 1).decode buf) =
          faulted ((u32Field.derived 1).decode (Buf.bytes buf)) ∧
        faulted ((u32Field.derived 1).decodeDistinguished buf) =
          faulted ((u32Field.derived 1).decodeDistinguished (Buf.bytes buf))) ∧
      ∀ bytes : Bytes,
        faulted ((u32Field.derived 1).decodeBorrowed bytes) =
            faulted ((u32Field.derived 1).decode bytes) ∧
          faulted ((u32Field.derived 1).decodeDistinguishedBorrowed bytes) =
            faulted ((u32Field.derived 1).decodeDistinguished bytes) :=
  have hbuilt : Built .all (.message (u32Field.derived 1)) :=
    .derived (by decide) (built_u32Field _)
  decoding_ignores_storage (.schema hbuilt)

end

end Bilrost
