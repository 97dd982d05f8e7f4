import Bilrost.Codec.Merge
import Bilrost.Schema.MessageTypes
import Bilrost.Schema.Single

/-!
Soft caps behave as real slices. `Capped` limits a region by remembering how
much of the buffer lies behind it, and reads may run past that. Every decoder
of a region notices: it does in place what it does with the bytes of the region
alone.
-/

namespace Bilrost

namespace Program

/-- The decoders that a program runs on delimited regions of `len` bytes, those
inside of other regions as well. -/
inductive DecodesRegion (len : Nat) {γ : Type} (q : Program γ) : {α : Type} → Program α → Prop
  | here {α : Type} {inner : Nat → Program γ} {next : γ → Program α} (h : inner len = q) :
      DecodesRegion len q (.region inner next)
  | inside {α δ : Type} {inner : Nat → Program δ} {next : δ → Program α} (outer : Nat)
      (h : DecodesRegion len q (inner outer)) : DecodesRegion len q (.region inner next)
  | behind {α δ : Type} {inner : Nat → Program δ} {next : δ → Program α} (x : δ)
      (h : DecodesRegion len q (next x)) : DecodesRegion len q (.region inner next)
  | check {α : Type} {canon : Canonicity} {next : Program α} (h : DecodesRegion len q next) :
      DecodesRegion len q (.check canon next)
  | op {α δ : Type} {o : Op δ} {next : δ → Program α} (x : δ) (h : DecodesRegion len q (next x)) :
      DecodesRegion len q (.op o next)

theorem DecodesRegion.seals {len : Nat} {γ α : Type} {q : Program γ} {p : Program α}
    (h : DecodesRegion len q p) (hp : p.SealsRegions) : q.SealsRegions ∧ Sealed len q := by
  induction h with
  | here h =>
    subst h
    exact hp.1 len
  | inside outer _ ih => exact ih (hp.1 outer).1
  | behind x _ ih => exact ih (hp.2 x)
  | check _ ih => exact ih hp
  | op x _ ih => exact ih (hp x)

section
variable {β γ : Type} [Buf β] {q : Program γ} {minCanonicity : Canonicity} {capped : Capped β}
  {region after : Bytes}

/-- A decoder of a region that succeeds leaves exactly what is behind it. -/
theorem Sealed.holds_after (hseals : q.SealsRegions) (hsealed : Sealed region.length q)
    (h : capped.Holds region after) {x : γ} {capped' : Capped β}
    (hrun : q.run minCanonicity capped = .ok (x, capped')) :
    capped'.Holds [] after ∧ ∃ lowest,
      q.parse region = .ok ⟨x, lowest, []⟩ ∧ minCanonicity ≤ lowest := by
  have hend := hsealed capped h.not_over h.remainingBeforeCap minCanonicity x capped' hrun
  have hrefines := run_refines minCanonicity q hseals h
  cases hparse : q.parse region with
  | error fault =>
    rw [hparse] at hrefines
    have hover := hrefines.1 x capped' hrun
    rw [Capped.Over, hend] at hover
    exact absurd hover (lt_irrefl _)
  | ok parsed =>
    obtain ⟨y, lowest, rest⟩ := parsed
    rw [hparse] at hrefines
    rcases le_or_gt minCanonicity lowest with hle | hlt
    · obtain ⟨left, hrun', hholds⟩ := hrefines.1 hle
      obtain ⟨rfl, rfl⟩ : y = x ∧ left = capped' := by simpa [hrun'] using hrun
      rw [hholds.remaining, hholds.extra] at hend
      obtain rfl : rest = [] := List.length_eq_zero_iff.mp (by simpa using hend)
      exact ⟨hholds, lowest, rfl, hle⟩
    · obtain ⟨stop, hstop⟩ := hrefines.2 hlt
      rw [hrun] at hstop
      cases hstop

/-- Decoding a region in place is parsing its bytes. -/
theorem Sealed.run_iff (hseals : q.SealsRegions) (hsealed : Sealed region.length q)
    (h : capped.Holds region after) {x : γ} :
    (∃ capped', q.run minCanonicity capped = .ok (x, capped')) ↔
      ∃ lowest, q.parse region = .ok ⟨x, lowest, []⟩ ∧ minCanonicity ≤ lowest := by
  constructor
  · rintro ⟨capped', hrun⟩
    exact (holds_after hseals hsealed h hrun).2
  · rintro ⟨lowest, hparse, hle⟩
    have hrefines := run_refines minCanonicity q hseals h
    rw [hparse] at hrefines
    obtain ⟨capped', hrun, -⟩ := hrefines.1 hle
    exact ⟨capped', hrun⟩

end

end Program

open Program

/-- The decoders of regions of `len` bytes that decoding a message runs: of the
message itself, and of what is delimited in it. -/
inductive MessageCodec.DecodesRegion {M : Type} (codec : MessageCodec M) (len : Nat) :
    {γ : Type} → Program γ → Prop
  | merge (mode : DecodingMode) (depth : Nat) (m : M) :
      DecodesRegion codec len (codec.merge mode depth m)
  | mergeDistinguished (mode : DecodingMode) (depth : Nat) (m : M) :
      DecodesRegion codec len (codec.mergeDistinguished mode depth m)
  | inMerge {γ : Type} {q : Program γ} (mode : DecodingMode) (depth : Nat) (m : M)
      (h : Program.DecodesRegion len q (codec.merge mode depth m)) : DecodesRegion codec len q
  | inMergeDistinguished {γ : Type} {q : Program γ} (mode : DecodingMode) (depth : Nat) (m : M)
      (h : Program.DecodesRegion len q (codec.mergeDistinguished mode depth m)) :
      DecodesRegion codec len q

theorem MessageCodec.DecodesRegion.seals {M γ : Type} {codec : MessageCodec M} {len : Nat}
    {q : Program γ} (h : codec.DecodesRegion len q) (hregular : codec.Regular) :
    q.SealsRegions ∧ Sealed len q := by
  cases h with
  | merge mode depth m =>
    exact ⟨(hregular.merge mode depth m).seals,
      EndsAtCap.sealed (codec.endsAtCap_merge mode depth m) len⟩
  | mergeDistinguished mode depth m =>
    exact ⟨(hregular.mergeDistinguished mode depth m).seals,
      EndsAtCap.sealed (codec.endsAtCap_mergeDistinguished mode depth m) len⟩
  | inMerge mode depth m h => exact h.seals (hregular.merge mode depth m).seals
  | inMergeDistinguished mode depth m h =>
    exact h.seals (hregular.mergeDistinguished mode depth m).seals

/-- Any region in a longer buffer is decoded in place exactly when its bytes are
decoded as a buffer of their own, to the same, and what is left of the longer
buffer is what is behind the region. -/
theorem decoding_in_place {allowed : Features} {M γ : Type} {codec : MessageCodec M}
    (h : codec.Implemented allowed) {len : Nat} {q : Program γ}
    (hq : codec.DecodesRegion len q) {β : Type} [Buf β] {capped : Capped β}
    {region after : Bytes} (hholds : capped.Holds region after) (hlen : region.length = len)
    (minCanonicity : Canonicity) (x : γ) :
    ((∃ capped', q.run minCanonicity capped = .ok (x, capped')) ↔
        ∃ isolated', q.run minCanonicity (Capped.new region) = .ok (x, isolated')) ∧
      ∀ capped', q.run minCanonicity capped = .ok (x, capped') →
        Buf.bytes capped'.buf = after ∧ capped'.extraBytesRemaining = after.length := by
  subst hlen
  obtain ⟨hseals, hsealed⟩ := hq.seals h.regular
  refine ⟨?_, fun capped' hrun => ?_⟩
  · rw [Sealed.run_iff hseals hsealed hholds, Sealed.run_iff hseals hsealed (holds_new region)]
  · have hafter := (Sealed.holds_after hseals hsealed hholds hrun).1
    exact ⟨hafter.bytes, hafter.extra⟩

/-- The contents of a message in front of another byte. -/
theorem decoding_in_place_u32 :
    ((∃ capped', ((u32Field.derived 1).merge .owned recursionLimit 0).run .notCanonical
          (⟨[4, 7, 4], 1⟩ : Capped Bytes) = .ok (7, capped')) ↔
        ∃ isolated', ((u32Field.derived 1).merge .owned recursionLimit 0).run .notCanonical
          (Capped.new ([4, 7] : Bytes)) = .ok (7, isolated')) ∧
      ∀ capped', ((u32Field.derived 1).merge .owned recursionLimit 0).run .notCanonical
          (⟨[4, 7, 4], 1⟩ : Capped Bytes) = .ok (7, capped') →
        Buf.bytes capped'.buf = [4] ∧ capped'.extraBytesRemaining = [4].length :=
  have hholds : (⟨[4, 7, 4], 1⟩ : Capped Bytes).Holds [4, 7] [4] := ⟨rfl, rfl⟩
  have hbuilt : Built .all (.message (u32Field.derived 1)) :=
    .derived (by decide) (built_u32Field _)
  decoding_in_place (.schema hbuilt)
    (.merge .owned recursionLimit 0) hholds rfl .notCanonical 7

end Bilrost
