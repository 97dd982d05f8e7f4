import Bilrost.Codec.Ways

/-!
Accounting for the depth of recursion. A decoder that has some depth left, in a
run that has entered some number of messages before, keeps the sum of the two:
each test of the limit finds it, and no message is entered when no depth is
left. Reaching the limit is the same as testing it with no depth left.

A decoder is `Traced` when its run does this, and `Counted` when in addition it
is back at the level where it began.
-/

namespace Bilrost

/-- A note at a level, when the level and the depth have a sum. The contents of
a variant are entered without a test. -/
def Note.Fits (total level : Nat) : Note → Prop
  | meets depth => level + depth = total
  | enters depth => level + depth = total ∧ 0 < depth
  | entersVariant => True
  | skipsEmpty depth => level + depth = total

namespace Program

/-- What the trace of a run of a decoder that has `depth` left is like. -/
structure Traced {α : Type} (way : Way) (depth : Nat) (p : Program α) : Prop where
  limit {β : Type} [Buf β] (minCanonicity : Canonicity) (level : Nat) (capped : Capped β) :
    p.run minCanonicity capped = .error limitError ↔
      ∃ at', (at', .meets 0) ∈ p.trace minCanonicity level capped
  fits {β : Type} [Buf β] (minCanonicity : Canonicity) (level : Nat) (capped : Capped β) :
    (∀ e ∈ p.trace minCanonicity level capped, e.2 ≠ .entersVariant) →
      ∀ e ∈ p.trace minCanonicity level capped, e.2.Fits (level + depth) e.1
  skips {β : Type} [Buf β] (minCanonicity : Canonicity) (level : Nat) (capped : Capped β) :
    way = .relaxed → ∀ e ∈ p.trace minCanonicity level capped, ∀ d, e.2 ≠ .skipsEmpty d

/-- A decoder that is traced and leaves what it enters. -/
structure Counted {α : Type} (way : Way) (depth : Nat) (p : Program α) : Prop
    extends Traced way depth p where
  level {β : Type} [Buf β] (minCanonicity : Canonicity) (level : Nat) (capped : Capped β) :
    p.levelAfter minCanonicity level capped = level

section
variable {α δ γ σ : Type} {way : Way} {depth : Nat} {p : Program α}

/-- A run that passes nothing and does not fail at the limit. -/
theorem counted_of_silence
    (hrun : ∀ {β : Type} [Buf β] (minCanonicity : Canonicity) (capped : Capped β),
      p.run minCanonicity capped ≠ .error limitError)
    (htrace : ∀ {β : Type} [Buf β] (minCanonicity : Canonicity) (level : Nat) (capped : Capped β),
      p.trace minCanonicity level capped = [])
    (hlevel : ∀ {β : Type} [Buf β] (minCanonicity : Canonicity) (level : Nat) (capped : Capped β),
      p.levelAfter minCanonicity level capped = level) : Counted way depth p where
  limit minCanonicity level capped := by
    simp [hrun minCanonicity capped, htrace minCanonicity level capped]
  fits minCanonicity level capped := by simp [htrace minCanonicity level capped]
  skips minCanonicity level capped := by simp [htrace minCanonicity level capped]
  level := hlevel

theorem counted_done (value : α) : Counted way depth (.done value) :=
  counted_of_silence (fun _ _ h => by cases h) (fun _ _ _ => rfl) fun _ _ _ => rfl

theorem counted_error {kind : DecodeErrorKind} (h : kind ≠ .recursionLimitReached) :
    Counted way depth (error kind : Program α) :=
  counted_of_silence (fun _ _ hrun => h (by simpa [error, run] using hrun)) (fun _ _ _ => rfl)
    fun _ _ _ => rfl

theorem counted_outOfRounds : Counted way depth (.fail .outOfRounds : Program α) :=
  counted_of_silence (fun _ _ h => by cases h) (fun _ _ _ => rfl) fun _ _ _ => rfl

theorem counted_ofResult {result : Except DecodeErrorKind α} (h : Refuses result) :
    Counted way depth (ofResult result) := by
  cases result with
  | ok value => exact counted_done value
  | error kind => exact counted_error fun hkind => h (congrArg Except.error hkind)

theorem check_ne_limit {minCanonicity canon : Canonicity} {kind : DecodeErrorKind}
    (h : Bilrost.check minCanonicity canon = .error kind) : kind ≠ .recursionLimitReached := by
  rintro rfl
  revert h
  cases minCanonicity <;> cases canon <;> decide

/-- Of what comes last it is not asked that it leaves what it enters. -/
theorem Counted.bind_traced {f : α → Program δ} (hp : Counted way depth p)
    (hf : ∀ x, Traced way depth (f x)) : Traced way depth (p.bind f) where
  limit minCanonicity level capped := by
    rw [run_bind, trace_bind]
    have hlimit := hp.limit minCanonicity level capped
    cases hrun : p.run minCanonicity capped with
    | error stop =>
      rw [hrun] at hlimit
      simpa using hlimit
    | ok result =>
      obtain ⟨x, capped'⟩ := result
      rw [hrun] at hlimit
      simp only [reduceCtorEq, false_iff, not_exists] at hlimit
      rw [hp.level]
      simp only [List.mem_append, hlimit, false_or]
      exact (hf x).limit minCanonicity level capped'
  fits minCanonicity level capped := by
    rw [trace_bind]
    intro hvariant e he
    rcases List.mem_append.mp he with he | he
    · exact hp.fits minCanonicity level capped
        (fun e he => hvariant e (List.mem_append_left _ he)) e he
    · cases hrun : p.run minCanonicity capped with
      | error stop => simp [hrun] at he
      | ok result =>
        simp only [hrun, hp.level] at he hvariant
        exact (hf result.1).fits minCanonicity level result.2
          (fun e he => hvariant e (List.mem_append_right _ he)) e he
  skips minCanonicity level capped hway := by
    rw [trace_bind]
    intro e he
    rcases List.mem_append.mp he with he | he
    · exact hp.skips minCanonicity level capped hway e he
    · cases hrun : p.run minCanonicity capped with
      | error stop => simp [hrun] at he
      | ok result =>
        simp only [hrun, hp.level] at he
        exact (hf result.1).skips minCanonicity level result.2 hway e he

theorem Counted.bind {f : α → Program δ} (hp : Counted way depth p)
    (hf : ∀ x, Counted way depth (f x)) : Counted way depth (p.bind f) where
  toTraced := hp.bind_traced fun x => (hf x).toTraced
  level minCanonicity level capped := by
    rw [levelAfter_bind, hp.level]
    cases p.run minCanonicity capped with
    | error stop => rfl
    | ok result => exact (hf result.1).level minCanonicity level result.2

theorem Counted.check {canon : Canonicity} (h : Counted way depth p) :
    Counted way depth (.check canon p) := by
  refine Counted.bind (p := .check canon (.done ())) (f := fun _ => p)
    (counted_of_silence (fun minCanonicity capped hrun => ?_) (fun minCanonicity level capped => ?_)
      fun minCanonicity level capped => ?_) fun _ => h
  · rw [run] at hrun
    split at hrun
    · cases hrun
    · next kind hcheck =>
      exact check_ne_limit hcheck (by simpa using hrun)
  · rw [trace]
    split <;> rfl
  · rw [levelAfter]
    split <;> rfl

/-- Reads other than notes. -/
theorem Counted.op {o : Op γ} (hnotes : o.notes = []) (hraises : o.raises = 0)
    {next : γ → Program α} (h : ∀ x, Counted way depth (next x)) :
    Counted way depth (.op o next) := by
  refine Counted.bind (p := .op o .done) (f := next)
    (counted_of_silence (fun minCanonicity capped hrun => ?_) (fun minCanonicity level capped => ?_)
      fun minCanonicity level capped => ?_) h
  · have hread := o.run_slice capped
    rw [run] at hrun
    cases hresult : o.run capped with
    | ok result => simp [hresult, run] at hrun
    | error kind =>
      rw [hresult] at hread hrun
      cases hslice : o.run capped.slice with
      | ok result =>
        rw [hslice] at hread
        exact hread.elim
      | error kind' =>
        rw [hslice] at hread
        exact hread.1 (by simpa using hrun)
  · rw [trace, hnotes]
    cases o.run capped <;> rfl
  · rw [levelAfter, hraises]
    cases o.run capped <;> rfl

/-- A region passes what its decoder passes. -/
theorem trace_delimited {β : Type} [Buf β] (minCanonicity : Canonicity) (inner : Nat → Program γ)
    (level : Nat) (capped : Capped β) :
    (Program.delimited inner).trace minCanonicity level capped =
      match capped.takeLengthDelimited with
      | .ok delimited =>
          (inner delimited.remainingBeforeCap).trace minCanonicity level delimited
      | .error _ => [] := by
  rw [Program.delimited, trace]
  cases capped.takeLengthDelimited with
  | error kind => rfl
  | ok delimited =>
    dsimp only
    cases (inner delimited.remainingBeforeCap).run minCanonicity delimited <;>
      exact List.append_nil _

theorem Counted.delimited {inner : Nat → Program γ} (h : ∀ len, Traced way depth (inner len)) :
    Counted way depth (Program.delimited inner) where
  limit minCanonicity level capped := by
    rw [trace_delimited, Program.delimited, run]
    have hslice := Capped.slice_takeLengthDelimited capped
    cases hdelimited : capped.takeLengthDelimited with
    | error kind =>
      rw [hdelimited] at hslice
      simpa using hslice.1
    | ok delimited =>
      have hlimit := (h delimited.remainingBeforeCap).limit minCanonicity level delimited
      dsimp only
      rw [← hlimit]
      cases (inner delimited.remainingBeforeCap).run minCanonicity delimited <;> simp [run]
  fits minCanonicity level capped := by
    rw [trace_delimited]
    cases capped.takeLengthDelimited with
    | error kind => simp
    | ok delimited => exact (h delimited.remainingBeforeCap).fits minCanonicity level delimited
  skips minCanonicity level capped := by
    rw [trace_delimited]
    cases capped.takeLengthDelimited with
    | error kind => simp
    | ok delimited => exact (h delimited.remainingBeforeCap).skips minCanonicity level delimited
  level minCanonicity level capped := by
    rw [Program.delimited, levelAfter]
    cases capped.takeLengthDelimited with
    | error kind => rfl
    | ok delimited =>
      dsimp only
      cases (inner delimited.remainingBeforeCap).run minCanonicity delimited <;> rfl

theorem Counted.whileRemaining {body : σ → Program σ} (h : ∀ s, Counted way depth (body s))
    (s : σ) : Counted way depth (whileRemaining body s) := by
  have inRounds (rounds : Nat) (s : σ) :
      Counted way depth (whileRemainingIn body rounds s) := by
    induction rounds generalizing s with
    | zero => exact counted_outOfRounds
    | succ rounds ih =>
      refine Counted.op rfl rfl fun more => ?_
      cases more with
      | true => exact (h s).bind ih
      | false => exact counted_done s
  exact Counted.op rfl rfl fun len => inRounds _ s

theorem Counted.whileRepeated {body : WireType → σ → Program σ}
    (h : ∀ wireType s, Counted way depth (body wireType s)) (s : σ) :
    Counted way depth (whileRepeated body s) := by
  have inRounds (rounds : Nat) (s : σ) :
      Counted way depth (whileRepeatedIn body rounds s) := by
    induction rounds generalizing s with
    | zero => exact counted_outOfRounds
    | succ rounds ih =>
      refine Counted.op rfl rfl fun next => ?_
      cases next with
      | some wireType => exact (h wireType s).bind ih
      | none => exact counted_done s
  exact Counted.op rfl rfl fun len => inRounds _ s

/-- A test of the limit that passes. -/
theorem counted_meets (hdepth : 0 < depth) :
    Counted way depth (Program.noted (.meets depth)) := by
  refine ⟨⟨fun minCanonicity level capped => ?_, fun minCanonicity level capped => ?_,
    fun minCanonicity level capped => ?_⟩, fun minCanonicity level capped => rfl⟩
  · simp [noted, run, Op.run, trace, Op.notes, hdepth.ne]
  · intro _ e he
    obtain rfl : e = (level, .meets depth) := by
      simpa [noted, trace, Op.notes, Op.run] using he
    rfl
  · intro _ e he d
    obtain rfl : e = (level, .meets depth) := by
      simpa [noted, trace, Op.notes, Op.run] using he
    rintro ⟨⟩

/-- The limit is tested before anything else is done. -/
theorem Traced.limitReached {f : Unit → Program α} (h : 0 < depth → Traced way depth (f ())) :
    Traced way depth ((limitReached depth).bind f) := by
  rcases Nat.eq_zero_or_pos depth with rfl | hdepth
  · refine ⟨fun minCanonicity level capped => ?_, fun minCanonicity level capped => ?_,
      fun minCanonicity level capped => ?_⟩
    · exact ⟨fun _ => ⟨level, List.mem_cons_self⟩, fun _ => rfl⟩
    · intro _ e he
      have he : e ∈ [(level, Note.meets 0)] := he
      obtain rfl := List.mem_singleton.mp he
      rfl
    · intro _ e he d
      have he : e ∈ [(level, Note.meets 0)] := he
      obtain rfl := List.mem_singleton.mp he
      rintro ⟨⟩
  · rw [Bilrost.limitReached, if_neg hdepth.ne']
    exact (counted_meets hdepth).bind_traced fun _ => h hdepth

theorem Counted.limitReached {f : Unit → Program α} (h : 0 < depth → Counted way depth (f ())) :
    Counted way depth ((limitReached depth).bind f) where
  toTraced := Traced.limitReached fun hdepth => (h hdepth).toTraced
  level minCanonicity level capped := by
    rcases Nat.eq_zero_or_pos depth with rfl | hdepth
    · rfl
    · rw [Bilrost.limitReached, if_neg hdepth.ne']
      have hbind := (counted_meets hdepth).bind fun _ => h hdepth
      exact hbind.level minCanonicity level capped

/-- The contents of a message that is entered with some depth left. -/
theorem Counted.enters (h : Counted way (depth - 1) p) (hdepth : 0 < depth) :
    Traced way depth (.op (.note (.enters depth)) fun _ => p) where
  limit minCanonicity level capped := by
    have hlimit := h.limit minCanonicity (level + 1) capped
    simpa [run, Op.run, trace, Op.notes, Op.raises, Note.raises] using hlimit
  fits minCanonicity level capped := by
    have hfits := h.fits minCanonicity (level + 1) capped
    have htotal : level + 1 + (depth - 1) = level + depth := by omega
    rw [htotal] at hfits
    intro hvariant e he
    rcases List.mem_cons.mp he with rfl | he
    · exact ⟨rfl, hdepth⟩
    · exact hfits (fun e he => hvariant e (List.mem_cons_of_mem _ he)) e he
  skips minCanonicity level capped hway := by
    intro e he d
    rcases List.mem_cons.mp he with rfl | he
    · rintro ⟨⟩
    · exact h.skips minCanonicity (level + 1) capped hway e he d

/-- The contents of a variant, of which nothing is said. -/
theorem Counted.entersVariant (h : Counted way depth p) :
    Traced way depth (.op (.note .entersVariant) fun _ => p) where
  limit minCanonicity level capped := by
    have hlimit := h.limit minCanonicity (level + 1) capped
    simpa [run, Op.run, trace, Op.notes, Op.raises, Note.raises] using hlimit
  fits minCanonicity level capped hvariant :=
    absurd rfl (hvariant (level, .entersVariant) List.mem_cons_self)
  skips minCanonicity level capped hway := by
    intro e he d
    rcases List.mem_cons.mp he with rfl | he
    · rintro ⟨⟩
    · exact h.skips minCanonicity (level + 1) capped hway e he d

/-- The distinguished way refuses a message without contents. -/
theorem Counted.skipsEmpty (h : Counted way depth p) (hway : way = .distinguished) :
    Counted way depth (.op (.note (.skipsEmpty depth)) fun _ => p) := by
  refine Counted.bind (p := noted (.skipsEmpty depth)) ⟨⟨fun minCanonicity level capped => ?_,
    fun minCanonicity level capped => ?_, fun minCanonicity level capped => ?_⟩,
    fun minCanonicity level capped => rfl⟩ fun _ => h
  · simp [noted, run, Op.run, trace, Op.notes]
  · intro _ e he
    obtain rfl : e = (level, .skipsEmpty depth) := by
      simpa [noted, trace, Op.notes, Op.run] using he
    rfl
  · rw [hway]
    rintro ⟨⟩

theorem Same.counted {q : Program α} (h : Same p q) (hq : Counted way depth q) :
    Counted way depth p where
  limit minCanonicity level capped := by
    rw [h.run, h.trace]
    exact hq.limit minCanonicity level capped
  fits minCanonicity level capped := by
    rw [h.trace]
    exact hq.fits minCanonicity level capped
  skips minCanonicity level capped := by
    rw [h.trace]
    exact hq.skips minCanonicity level capped
  level minCanonicity level capped := by
    rw [h.level]
    exact hq.level minCanonicity level capped

theorem Counted.map (h : Counted way depth p) (f : α → δ) :
    Counted way depth (p.bind fun x => .done (f x)) :=
  h.bind fun x => counted_done (f x)

theorem Counted.of_asCanonical (h : Counted way depth (asCanonical p)) : Counted way depth p where
  limit minCanonicity level capped := by
    have hlimit := h.limit minCanonicity level capped
    rw [asCanonical, trace_bind_done, run_bind] at hlimit
    rw [← hlimit]
    cases p.run minCanonicity capped <;> simp [run]
  fits minCanonicity level capped := by
    have hfits := h.fits minCanonicity level capped
    rwa [asCanonical, trace_bind_done] at hfits
  skips minCanonicity level capped := by
    have hskips := h.skips minCanonicity level capped
    rwa [asCanonical, trace_bind_done] at hskips
  level minCanonicity level capped := by
    have hlevel := h.level minCanonicity level capped
    rw [asCanonical, levelAfter_bind] at hlevel
    cases hrun : p.run minCanonicity capped <;> rw [hrun] at hlevel <;> exact hlevel

/-- What holds of the relaxed way is more than what is asked of the other. -/
theorem Counted.of_relaxed (h : Counted .relaxed depth p) (way : Way) : Counted way depth p :=
  ⟨⟨h.limit, h.fits, fun minCanonicity level capped _ => h.skips minCanonicity level capped rfl⟩,
    h.level⟩

theorem counted_demote (way : Way) (h : Counted .relaxed depth p) :
    Counted way depth (way.demote p) := by
  cases way with
  | relaxed => exact h.map _
  | distinguished => exact ((h.of_relaxed .distinguished).map _).check

theorem counted_refuseEmpty (empty : Bool) (decoded : α × Canonicity) :
    Counted way depth (way.refuseEmpty empty decoded) := by
  cases way with
  | relaxed =>
    rw [Way.refuseEmpty_relaxed]
    exact counted_done decoded
  | distinguished =>
    cases empty with
    | false => exact counted_done decoded
    | true => exact (counted_done _).check

end

end Program

end Bilrost
