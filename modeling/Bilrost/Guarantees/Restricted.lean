import Bilrost.Codec.Entry
import Bilrost.Guarantees.SoftCaps

/-!
Restricted decoding is distinguished decoding with a threshold. Canonicities are
checked against the threshold one by one where they arise, while the canonicity
that is returned is added up on the way, and the two amount to the same.
-/

namespace Bilrost

open Program

section
variable {allowed : Features} {M : Type} {codec : MessageCodec M}

/-- What a merge of a region returns is the lowest canonicity that it checked. -/
theorem run_mergeDistinguished_iff (h : codec.Implemented allowed) {β : Type} [Buf β]
    {capped : Capped β} {region after : Bytes} (hholds : capped.Holds region after)
    (mode : DecodingMode) (depth : Nat) (m : M) (minCanonicity : Canonicity) (value : M)
    (canon : Canonicity) :
    (∃ capped', (codec.mergeDistinguished mode depth m).run minCanonicity capped =
        .ok ((value, canon), capped')) ↔
      (codec.mergeDistinguished mode depth m).parse region = .ok ⟨(value, canon), canon, []⟩ ∧
        minCanonicity ≤ canon := by
  have hseals := (h.regular.mergeDistinguished mode depth m).seals
  have hsealed : Sealed region.length (codec.mergeDistinguished mode depth m) :=
    EndsAtCap.sealed (codec.endsAtCap_mergeDistinguished mode depth m) region.length
  rw [Sealed.run_iff hseals hsealed hholds]
  constructor
  · rintro ⟨lowest, hparse, hle⟩
    have htally := h.tallies.mergeBy .distinguished mode depth m
    rw [← codec.mergeDistinguished_eq_mergeBy] at htally
    obtain rfl : lowest = canon := by simpa using htally _ _ hparse
    exact ⟨hparse, hle⟩
  · rintro ⟨hparse, hle⟩
    exact ⟨canon, hparse, hle⟩

/-- A demand for canonicity changes nothing of a run but that the run may stop
where the demand is not met. -/
theorem Program.run_restricts {β : Type} [Buf β] (minCanonicity : Canonicity) {α : Type}
    (p : Program α) (capped : Capped β) :
    p.run minCanonicity capped = p.run .notCanonical capped ∨
      ∃ canon kind, Bilrost.check minCanonicity canon = .error kind ∧
        p.run minCanonicity capped = .error (.error kind) := by
  induction p generalizing capped with
  | done value => exact .inl rfl
  | fail stop => exact .inl rfl
  | check canon next ih =>
      have hpasses : Bilrost.check .notCanonical canon = .ok canon :=
        check_of_le (Canonicity.notCanonical_le canon)
      simp only [run, hpasses]
      cases hcheck : Bilrost.check minCanonicity canon with
      | ok _ => exact ih capped
      | error kind => exact .inr ⟨canon, kind, hcheck, rfl⟩
  | op o next ih =>
      simp only [run]
      cases o.run capped with
      | ok x => exact ih x.1 x.2
      | error kind => exact .inl rfl
  | region inner next ihinner ih =>
      simp only [run]
      cases capped.takeLengthDelimited with
      | error kind => exact .inl rfl
      | ok delimited =>
          rcases ihinner delimited.remainingBeforeCap delimited with hsame | ⟨canon, kind, hcheck, hstops⟩
          · simp only [hsame]
            cases (inner delimited.remainingBeforeCap).run .notCanonical delimited with
            | ok x => exact ih x.1 _
            | error stop => exact .inl rfl
          · simp only [hstops]
            exact .inr ⟨canon, kind, hcheck, rfl⟩

/-- What is not good enough is refused with the kind of error of a check. -/
theorem decodeRestrictedCapped_of_lt {β : Type} [Buf β] {mode : DecodingMode} {capped : Capped β}
    {m : M} {canon restrictTo : Canonicity}
    (hdecode : codec.decodeRestrictedCapped mode capped .notCanonical = .ok (m, canon))
    (hlt : canon < restrictTo) :
    ∃ canon' kind, Bilrost.check restrictTo canon' = .error kind ∧
      codec.decodeRestrictedCapped mode capped restrictTo = .error (.error kind) := by
  unfold MessageCodec.decodeRestrictedCapped at hdecode ⊢
  rcases run_restricts restrictTo (codec.mergeDistinguished mode recursionLimit codec.empty)
    capped with hsame | ⟨canon', kind, hcheck, hstops⟩
  · rw [hsame]
    cases hrun : (codec.mergeDistinguished mode recursionLimit codec.empty).run .notCanonical
        capped with
    | error stop =>
        rw [hrun] at hdecode
        cases hdecode
    | ok result =>
        obtain ⟨⟨value, canon'⟩, capped'⟩ := result
        rw [hrun] at hdecode
        have hpasses : Bilrost.check .notCanonical canon' = .ok canon' :=
          check_of_le (Canonicity.notCanonical_le canon')
        simp only [Bind.bind, Except.bind, hpasses, Except.mapError, Except.ok.injEq,
          Prod.mk.injEq] at hdecode
        obtain ⟨-, rfl⟩ := hdecode
        obtain ⟨kind, hkind⟩ := check_of_lt hlt
        refine ⟨canon', kind, hkind, ?_⟩
        simp [Bind.bind, Except.bind, hkind, Except.mapError]
  · refine ⟨canon', kind, hcheck, ?_⟩
    rw [hstops]
    rfl

/-- Restricted decoding returns what distinguished decoding does when that is
good enough, and fails otherwise. No merge that succeeds, of the message or of
any other in it, has a canonicity left to check. -/
theorem decodeRestricted_iff (h : codec.Implemented allowed) {β : Type} [Buf β]
    (restrictTo : Canonicity) :
    (∀ (buf : β) (value : M) (canon : Canonicity),
      codec.decodeRestricted buf restrictTo = .ok (value, canon) ↔
        codec.decodeDistinguished buf = .ok (value, canon) ∧ restrictTo ≤ canon) ∧
      ∀ (mode : DecodingMode) (depth : Nat) (m : M) (capped : Capped β), ¬ capped.Over →
        ∀ value canon capped', (codec.mergeDistinguished mode depth m).run restrictTo capped =
          .ok ((value, canon), capped') → check restrictTo canon = .ok canon := by
  constructor
  · intro buf value canon
    rw [MessageCodec.decodeRestricted, MessageCodec.decodeDistinguished,
      MessageCodec.decodeRestricted, MessageCodec.decodeRestrictedCapped_eq_ok h.regular,
      MessageCodec.decodeRestrictedCapped_eq_ok h.regular]
    have htally := h.tallies.mergeBy .distinguished .owned recursionLimit codec.empty
    rw [← codec.mergeDistinguished_eq_mergeBy] at htally
    constructor
    · rintro ⟨lowest, rest, hparse, -, hle⟩
      exact ⟨⟨lowest, rest, hparse, Canonicity.notCanonical_le _, Canonicity.notCanonical_le _⟩, hle⟩
    · rintro ⟨⟨lowest, rest, hparse, -, -⟩, hle⟩
      obtain rfl : lowest = canon := by simpa using htally _ _ hparse
      exact ⟨lowest, rest, hparse, hle, hle⟩
  · intro mode depth m capped hover value canon capped' hrun
    obtain ⟨region, after, hholds⟩ := Capped.exists_holds hover
    have hle := ((run_mergeDistinguished_iff h hholds mode depth m restrictTo value canon).mp
      ⟨capped', hrun⟩).2
    exact check_of_le hle

theorem decodeRestricted_iff_u32 :
    (∀ (buf : Bytes) (value : BitVec 32) (canon : Canonicity),
      (u32Field.derived 1).decodeRestricted buf .hasExtensions = .ok (value, canon) ↔
        (u32Field.derived 1).decodeDistinguished buf = .ok (value, canon) ∧
          .hasExtensions ≤ canon) ∧
      ∀ (mode : DecodingMode) (depth : Nat) (m : BitVec 32) (capped : Capped Bytes),
        ¬ capped.Over → ∀ value canon capped',
          ((u32Field.derived 1).mergeDistinguished mode depth m).run .hasExtensions capped =
            .ok ((value, canon), capped') → check .hasExtensions canon = .ok canon :=
  have hbuilt : Built .distinguished (.message (u32Field.derived 1)) :=
    .derived (by decide) (built_u32Field _)
  decodeRestricted_iff (.schema hbuilt) .hasExtensions

end

end Bilrost
