import Bilrost.Decode.Trace

/-!
Programs in lockstep. Two decoders of the same thing are compared on every
slice, beyond the cap as well: they return related values and leave the same
bytes, or fail with the same kind of fault. Two deviations are allowed for. The
first decoder may reach the recursion limit where it has less depth left, and
where the second refuses a value without contents before it looks at the limit,
with no depth left.

There is one rule for each way to build a program. What the rules are used for
is comparing relaxed with distinguished decoding, owned with borrowed, and the
depths of recursion.
-/

namespace Bilrost

namespace Program

/-- The error at the recursion limit. -/
abbrev limitError : Stop := .error .recursionLimitReached

/-- Two outcomes on one slice: related values with the same bytes left, or the
same kind of fault. -/
def SameOutcome {α δ : Type} (R : α → δ → Prop) :
    Except Stop (α × Capped Bytes) → Except Stop (δ × Capped Bytes) → Prop
  | .ok (x, slice), .ok (y, slice') => R x y ∧ slice' = slice
  | .error stop, .error stop' => stop'.fault = stop.fault
  | _, _ => False

/-- Two programs in lockstep on one slice. -/
def LockAt {α δ : Type} (lenient : Prop) (R : α → δ → Prop) (slice : Capped Bytes)
    (p : Program α) (q : Program δ) : Prop :=
  (p.run .notCanonical slice = .error limitError ∧
      (lenient ∨ q.Passes (.skipsEmpty 0) slice)) ∨
    (SameOutcome R (p.run .notCanonical slice) (q.run .notCanonical slice) ∧
      (q.Passes (.skipsEmpty 0) slice → p.Passes (.skipsEmpty 0) slice))

/-- Two programs in lockstep. -/
def Lock {α δ : Type} (lenient : Prop) (R : α → δ → Prop) (p : Program α) (q : Program δ) :
    Prop :=
  ∀ slice, LockAt lenient R slice p q

/-- Two programs in lockstep on regions of `len` bytes. -/
def LockIn {α δ : Type} (lenient : Prop) (R : α → δ → Prop) (len : Nat) (p : Program α)
    (q : Program δ) : Prop :=
  ∀ slice : Capped Bytes, ¬ slice.Over → slice.remainingBeforeCap = len →
    LockAt lenient R slice p q

section
variable {lenient : Prop} {α δ α' δ' γ γ' σ τ : Type} {R : α → δ → Prop} {p : Program α}
  {q : Program δ} {slice : Capped Bytes}

theorem Lock.region_of (h : Lock lenient R p q) (len : Nat) : LockIn lenient R len p q :=
  fun slice _ _ => h slice

theorem LockAt.mono {R' : α → δ → Prop} (h : LockAt lenient R slice p q)
    (hR : ∀ x y, R x y → R' x y) : LockAt lenient R' slice p q := by
  rcases h with hlimit | ⟨hsame, hpasses⟩
  · exact .inl hlimit
  · refine .inr ⟨?_, hpasses⟩
    revert hsame
    cases p.run .notCanonical slice with
    | error stop => cases q.run .notCanonical slice <;> exact id
    | ok a =>
      cases q.run .notCanonical slice with
      | error stop => exact id
      | ok b => exact fun ⟨hvalue, hslice⟩ => ⟨hR _ _ hvalue, hslice⟩

theorem Lock.mono {R' : α → δ → Prop} (h : Lock lenient R p q) (hR : ∀ x y, R x y → R' x y) :
    Lock lenient R' p q :=
  fun slice => (h slice).mono hR

/-- Programs may be replaced by others that cannot be told apart from them. -/
theorem Lock.of_same {p' : Program α} {q' : Program δ} (h : Lock lenient R p' q')
    (hp : Same p p') (hq : Same q q') : Lock lenient R p q := by
  intro slice
  have h := h slice
  simp only [LockAt, Passes, ← hp.run, ← hq.run, ← hp.trace, ← hq.trace] at h
  exact h

theorem lock_done {x : α} {y : δ} (h : R x y) : Lock lenient R (.done x) (.done y) :=
  fun _ => .inr ⟨⟨h, rfl⟩, fun h => absurd h (not_passes_done _ _)⟩

theorem lock_error (R : α → δ → Prop) (kind : DecodeErrorKind) :
    Lock lenient R (error kind) (error kind) :=
  fun _ => .inr ⟨rfl, fun h => absurd h (not_passes_fail _ _)⟩

/-- Where the first program reaches the limit, a lenient comparison says
nothing. -/
theorem lock_of_limit (hlenient : lenient) (R : α → δ → Prop) (q : Program δ) :
    Lock lenient R (error .recursionLimitReached) q :=
  fun _ => .inl ⟨rfl, .inl hlenient⟩

theorem lock_refl {R : α → α → Prop} (hR : ∀ x, R x x) (p : Program α) : Lock lenient R p p := by
  intro slice
  refine .inr ⟨?_, id⟩
  cases p.run .notCanonical slice with
  | ok a => exact ⟨hR _, rfl⟩
  | error stop => exact rfl

theorem Lock.check_right (canon : Canonicity) (h : Lock lenient R p q) :
    Lock lenient R p (.check canon q) := by
  intro slice
  have hcheck := check_of_le (Canonicity.notCanonical_le canon)
  have h := h slice
  simp only [LockAt, passes_check, run, hcheck] at h ⊢
  exact h

theorem Lock.check (canon canon' : Canonicity) (h : Lock lenient R p q) :
    Lock lenient R (.check canon p) (.check canon' q) := by
  intro slice
  have hcheck (canon : Canonicity) := check_of_le (Canonicity.notCanonical_le canon)
  have h := h slice
  simp only [LockAt, passes_check, run, hcheck] at h ⊢
  exact h

theorem Lock.op (o : Op γ) {next : γ → Program α} {next' : γ → Program δ}
    (h : ∀ x, Lock lenient R (next x) (next' x)) :
    Lock lenient R (.op o next) (.op o next') := by
  intro slice
  simp only [LockAt, run, passes_op]
  cases hread : o.run slice with
  | error kind => exact .inr ⟨rfl, fun hpasses => by simpa using hpasses⟩
  | ok result =>
    simp only [Except.ok.injEq, Prod.ext_iff]
    rcases h result.1 result.2 with ⟨hlimit, hlenient⟩ | ⟨hsame, hpasses⟩
    · refine .inl ⟨hlimit, hlenient.imp_right fun hskip => .inr ?_⟩
      exact ⟨result.1, result.2, ⟨rfl, rfl⟩, hskip⟩
    · refine .inr ⟨hsame, Or.imp_right ?_⟩
      rintro ⟨x, capped', ⟨rfl, rfl⟩, hskip⟩
      exact ⟨_, _, ⟨rfl, rfl⟩, hpasses hskip⟩

/-- Notes may differ, but not in what is allowed for. -/
theorem Lock.note {note note' : Note} (hnote : note' = .skipsEmpty 0 → note = .skipsEmpty 0)
    {next : Unit → Program α} {next' : Unit → Program δ}
    (h : Lock lenient R (next ()) (next' ())) :
    Lock lenient R (.op (.note note) next) (.op (.note note') next') := by
  intro slice
  simp only [LockAt, run, Op.run, passes_note]
  rcases h slice with ⟨hlimit, hlenient⟩ | ⟨hsame, hpasses⟩
  · exact .inl ⟨hlimit, hlenient.imp_right .inr⟩
  · exact .inr ⟨hsame, Or.imp (fun h => (hnote h.symm).symm) hpasses⟩

theorem Lock.note_right {note : Note} (hnote : note ≠ .skipsEmpty 0) {next : Unit → Program δ}
    (h : Lock lenient R p (next ())) : Lock lenient R p (.op (.note note) next) := by
  intro slice
  simp only [LockAt, run, Op.run, passes_note, hnote.symm, false_or]
  exact h slice

theorem LockAt.bind {S : α' → δ' → Prop} {f : α → Program α'} {g : δ → Program δ'}
    (h : LockAt lenient R slice p q) (hfg : ∀ x y, R x y → Lock lenient S (f x) (g y)) :
    LockAt lenient S slice (p.bind f) (q.bind g) := by
  rw [LockAt, run_bind, run_bind, passes_bind, passes_bind]
  rcases h with ⟨hlimit, hlenient⟩ | ⟨hsame, hpasses⟩
  · rw [hlimit]
    exact .inl ⟨rfl, hlenient.imp_right .inl⟩
  · cases hp : p.run .notCanonical slice with
    | error stop =>
      cases hq : q.run .notCanonical slice with
      | error stop' =>
        rw [hp, hq] at hsame
        exact .inr ⟨hsame, fun h => by simpa using hpasses (by simpa using h)⟩
      | ok b =>
        rw [hp, hq] at hsame
        exact hsame.elim
    | ok a =>
      cases hq : q.run .notCanonical slice with
      | error stop' =>
        rw [hp, hq] at hsame
        exact hsame.elim
      | ok b =>
        rw [hp, hq] at hsame
        obtain ⟨x, capped⟩ := a
        obtain ⟨y, capped'⟩ := b
        obtain ⟨hvalue, rfl⟩ := hsame
        simp only [Except.ok.injEq, Prod.mk.injEq]
        rcases hfg x y hvalue capped' with ⟨hlimit, hlenient⟩ | ⟨hsame', hpasses'⟩
        · refine .inl ⟨hlimit, hlenient.imp_right fun hskip => .inr ?_⟩
          exact ⟨y, capped', ⟨rfl, rfl⟩, hskip⟩
        · refine .inr ⟨hsame', Or.imp hpasses ?_⟩
          rintro ⟨_, _, ⟨rfl, rfl⟩, hskip⟩
          exact ⟨x, capped', ⟨rfl, rfl⟩, hpasses' hskip⟩

theorem Lock.bind {S : α' → δ' → Prop} {f : α → Program α'} {g : δ → Program δ'}
    (h : Lock lenient R p q) (hfg : ∀ x y, R x y → Lock lenient S (f x) (g y)) :
    Lock lenient S (p.bind f) (q.bind g) :=
  fun slice => (h slice).bind hfg

/-- What holds after functions are applied to the values holds before. -/
theorem Lock.of_map {S : α' → δ' → Prop} (f : α → α') (g : δ → δ')
    (h : Lock lenient S (p.bind fun x => .done (f x)) (q.bind fun y => .done (g y))) :
    Lock lenient (fun x y => S (f x) (g y)) p q := by
  intro slice
  have hpasses {α α' : Type} (p : Program α) (f : α → α') :
      (p.bind fun x => .done (f x)).Passes (.skipsEmpty 0) slice ↔
        p.Passes (.skipsEmpty 0) slice := by
    rw [Passes, Passes, trace_bind_done]
  have h := h slice
  rw [LockAt, hpasses, hpasses, run_bind, run_bind] at h
  rw [LockAt]
  cases hp : p.run .notCanonical slice with
  | error stop =>
    rw [hp] at h
    cases hq : q.run .notCanonical slice with
    | error stop' =>
      rw [hq] at h
      exact h.imp (fun h => ⟨by simpa using h.1, h.2⟩) id
    | ok b =>
      rw [hq] at h
      exact h.imp (fun h => ⟨by simpa using h.1, h.2⟩) fun h => h.1.elim
  | ok a =>
    rw [hp] at h
    cases hq : q.run .notCanonical slice with
    | error stop' =>
      rw [hq] at h
      exact h.imp (fun h => by cases h.1) fun h => h.1.elim
    | ok b =>
      rw [hq] at h
      exact h.imp (fun h => by cases h.1) id

/-- Regions are compared by their decoders, which know their size. -/
theorem Lock.region {Q : γ → γ' → Prop} {inner : Nat → Program γ} {inner' : Nat → Program γ'}
    {next : γ → Program α} {next' : γ' → Program δ}
    (hinner : ∀ len, LockIn lenient Q len (inner len) (inner' len))
    (hnext : ∀ x y, Q x y → Lock lenient R (next x) (next' y)) :
    Lock lenient R (.region inner next) (.region inner' next') := by
  intro slice
  cases htake : slice.takeLengthDelimited with
  | error kind =>
    refine .inr ⟨?_, fun h => absurd h (not_passes_region htake)⟩
    simp only [run, htake]
    rfl
  | ok delimited =>
    have hover := (Capped.takeLengthDelimited_remaining htake).2.2
    simp only [LockAt, run, htake, passes_region htake]
    rcases hinner delimited.remainingBeforeCap delimited hover rfl with
      ⟨hlimit, hlenient⟩ | ⟨hsame, hpasses⟩
    · rw [hlimit]
      exact .inl ⟨rfl, hlenient.imp_right .inl⟩
    · cases hp : (inner delimited.remainingBeforeCap).run .notCanonical delimited with
      | error stop =>
        cases hq : (inner' delimited.remainingBeforeCap).run .notCanonical delimited with
        | error stop' =>
          rw [hp, hq] at hsame
          exact .inr ⟨hsame, fun h => by simpa using hpasses (by simpa using h)⟩
        | ok b =>
          rw [hp, hq] at hsame
          exact hsame.elim
      | ok a =>
        cases hq : (inner' delimited.remainingBeforeCap).run .notCanonical delimited with
        | error stop' =>
          rw [hp, hq] at hsame
          exact hsame.elim
        | ok b =>
          rw [hp, hq] at hsame
          obtain ⟨x, capped⟩ := a
          obtain ⟨y, capped'⟩ := b
          obtain ⟨hvalue, rfl⟩ := hsame
          simp only [Except.ok.injEq, Prod.mk.injEq]
          rcases hnext x y hvalue ⟨capped'.buf, slice.extraBytesRemaining⟩ with
            ⟨hlimit, hlenient⟩ | ⟨hsame', hpasses'⟩
          · refine .inl ⟨hlimit, hlenient.imp_right fun hskip => .inr ?_⟩
            exact ⟨y, capped', ⟨rfl, rfl⟩, hskip⟩
          · refine .inr ⟨hsame', Or.imp hpasses ?_⟩
            rintro ⟨_, _, ⟨rfl, rfl⟩, hskip⟩
            exact ⟨x, capped', ⟨rfl, rfl⟩, hpasses' hskip⟩

theorem Lock.delimited {inner : Nat → Program α} {inner' : Nat → Program δ}
    (h : ∀ len, LockIn lenient R len (inner len) (inner' len)) :
    Lock lenient R (Program.delimited inner) (Program.delimited inner') :=
  Lock.region h fun _ _ hvalue => lock_done hvalue

/-- Two loops are compared by one round of each. -/
theorem Lock.whileRemaining {Q : σ → τ → Prop} {body : σ → Program σ} {body' : τ → Program τ}
    (hbody : ∀ s t, Q s t → Lock lenient Q (body s) (body' t)) {s : σ} {t : τ} (hs : Q s t) :
    Lock lenient Q (whileRemaining body s) (whileRemaining body' t) := by
  have inRounds (rounds : Nat) (s : σ) (t : τ) (hs : Q s t) :
      Lock lenient Q (whileRemainingIn body rounds s) (whileRemainingIn body' rounds t) := by
    induction rounds generalizing s t with
    | zero => exact fun _ => .inr ⟨rfl, fun h => absurd h (not_passes_fail _ _)⟩
    | succ rounds ih =>
      refine Lock.op _ fun more => ?_
      cases more with
      | true => exact (hbody s t hs).bind ih
      | false => exact lock_done hs
  exact Lock.op _ fun len => inRounds _ s t hs

theorem Lock.whileRepeated {Q : σ → τ → Prop} {body : WireType → σ → Program σ}
    {body' : WireType → τ → Program τ}
    (hbody : ∀ wireType s t, Q s t → Lock lenient Q (body wireType s) (body' wireType t))
    {s : σ} {t : τ} (hs : Q s t) :
    Lock lenient Q (whileRepeated body s) (whileRepeated body' t) := by
  have inRounds (rounds : Nat) (s : σ) (t : τ) (hs : Q s t) :
      Lock lenient Q (whileRepeatedIn body rounds s) (whileRepeatedIn body' rounds t) := by
    induction rounds generalizing s t with
    | zero => exact fun _ => .inr ⟨rfl, fun h => absurd h (not_passes_fail _ _)⟩
    | succ rounds ih =>
      refine Lock.op _ fun next => ?_
      cases next with
      | some wireType => exact (hbody wireType s t hs).bind ih
      | none => exact lock_done hs
  exact Lock.op _ fun len => inRounds _ s t hs

end

end Program

end Bilrost
