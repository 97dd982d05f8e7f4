import Bilrost.Decode.Trace

/-!
A program that follows another. Both are run on the same bytes with the same
demand for canonicity, and what the one returns the other returns as well, the
kind of an error included, and it leaves the same. There is one exception: the
follower may stop early with an error that is known beforehand.
-/

namespace Bilrost

namespace Program

/-- Two outcomes that are the same but for their values, which are related. -/
def SameResult {α δ β : Type} (R : α → δ → Prop) :
    Except Stop (α × Capped β) → Except Stop (δ × Capped β) → Prop
  | .ok (x, capped), .ok (y, capped') => R x y ∧ capped' = capped
  | .error stop, .error stop' => stop' = stop
  | _, _ => False

/-- The same of what calls return. -/
inductive SameUpTo {α δ : Type} (R : α → δ → Prop) : Except Stop α → Except Stop δ → Prop where
  | ok {x : α} {y : δ} (h : R x y) : SameUpTo R (.ok x) (.ok y)
  | error (stop : Stop) : SameUpTo R (.error stop) (.error stop)

/-- Wherever `p` does not stop with `stop`, it does what `q` does. -/
structure Follows {α δ : Type} (stop : Stop) (R : α → δ → Prop) (p : Program α) (q : Program δ) :
    Prop where
  run {β : Type} [Buf β] (minCanonicity : Canonicity) (capped : Capped β) :
    p.run minCanonicity capped = .error stop ∨
      SameResult R (p.run minCanonicity capped) (q.run minCanonicity capped)

section
variable {α δ ε α' δ' γ γ' σ τ : Type} {stop : Stop} {R : α → δ → Prop} {p : Program α}
  {q : Program δ}

theorem SameUpTo.bind {S : α' → δ' → Prop} {result : Except Stop α} {result' : Except Stop δ}
    {f : α → Except Stop α'} {g : δ → Except Stop δ'} (h : SameUpTo R result result')
    (hfg : ∀ x y, R x y → SameUpTo S (f x) (g y)) : SameUpTo S (result.bind f) (result'.bind g) := by
  cases h with
  | ok h => exact hfg _ _ h
  | error stop => exact .error stop

theorem SameUpTo.map {S : α' → δ' → Prop} {result : Except Stop α} {result' : Except Stop δ}
    {f : α → α'} {g : δ → δ'} (h : SameUpTo R result result')
    (hfg : ∀ x y, R x y → S (f x) (g y)) : SameUpTo S (result.map f) (result'.map g) := by
  cases h with
  | ok h => exact .ok (hfg _ _ h)
  | error stop => exact .error stop

theorem SameUpTo.of_map {S : α' → δ' → Prop} {result : Except Stop α} {result' : Except Stop δ}
    {f : α → α'} {g : δ → δ'} (h : SameUpTo S (result.map f) (result'.map g)) :
    SameUpTo (fun x y => S (f x) (g y)) result result' := by
  cases result with
  | error stop =>
      cases result' with
      | error stop' =>
          cases h
          exact .error _
      | ok y => cases h
  | ok x =>
      cases result' with
      | error stop' => cases h
      | ok y =>
          cases h with
          | ok h => exact .ok h

theorem SameUpTo.mono {R' : α → δ → Prop} {result : Except Stop α} {result' : Except Stop δ}
    (h : SameUpTo R result result') (hR : ∀ x y, R x y → R' x y) : SameUpTo R' result result' := by
  cases h with
  | ok h => exact .ok (hR _ _ h)
  | error stop => exact .error stop

theorem SameUpTo.eq {result result' : Except Stop α} (h : SameUpTo Eq result result') :
    result' = result := by
  cases h with
  | ok h => rw [h]
  | error stop => rfl

theorem SameResult.values {β : Type} {result : Except Stop (α × Capped β)}
    {result' : Except Stop (δ × Capped β)} (h : SameResult R result result') :
    SameUpTo R (result.map Prod.fst) (result'.map Prod.fst) := by
  cases result with
  | error stop =>
      cases result' with
      | error stop' =>
          obtain rfl : stop' = stop := h
          exact .error _
      | ok b => exact h.elim
  | ok a =>
      cases result' with
      | error stop' => exact h.elim
      | ok b => exact .ok h.1

theorem Follows.mono {R' : α → δ → Prop} (h : Follows stop R p q) (hR : ∀ x y, R x y → R' x y) :
    Follows stop R' p q := by
  refine ⟨fun minCanonicity capped => ?_⟩
  apply (h.run minCanonicity capped).imp_right
  cases p.run minCanonicity capped with
  | error stop' => cases q.run minCanonicity capped <;> exact id
  | ok a =>
      cases q.run minCanonicity capped with
      | error stop' => exact id
      | ok b => exact And.imp_left (hR _ _)

theorem Follows.of_same {p' : Program α} {q' : Program δ} (h : Follows stop R p' q')
    (hp : Same p p') (hq : Same q q') : Follows stop R p q := by
  refine ⟨fun minCanonicity capped => ?_⟩
  rw [hp.run, hq.run]
  exact h.run minCanonicity capped

theorem follows_done {x : α} {y : δ} (h : R x y) : Follows stop R (.done x) (.done y) :=
  ⟨fun _ _ => .inr ⟨h, rfl⟩⟩

theorem follows_fail (R : α → δ → Prop) (stop' : Stop) :
    Follows stop R (.fail stop') (.fail stop') :=
  ⟨fun _ _ => .inr rfl⟩

theorem follows_error (R : α → δ → Prop) (kind : DecodeErrorKind) :
    Follows stop R (error kind) (error kind) :=
  follows_fail R _

/-- The follower gives up. -/
theorem follows_of_stop (R : α → δ → Prop) (q : Program δ) : Follows stop R (.fail stop) q :=
  ⟨fun _ _ => .inl rfl⟩

theorem follows_refl {R : α → α → Prop} (hR : ∀ x, R x x) (p : Program α) :
    Follows stop R p p := by
  refine ⟨fun minCanonicity capped => ?_⟩
  apply Or.inr
  cases p.run minCanonicity capped with
  | error stop' => exact rfl
  | ok a => exact ⟨hR a.1, rfl⟩

theorem Follows.check (canon : Canonicity) (h : Follows stop R p q) :
    Follows stop R (.check canon p) (.check canon q) := by
  refine ⟨fun minCanonicity capped => ?_⟩
  simp only [Program.run]
  cases Bilrost.check minCanonicity canon with
  | ok _ => exact h.run minCanonicity capped
  | error kind => exact .inr rfl

theorem Follows.op (o : Op γ) {next : γ → Program α} {next' : γ → Program δ}
    (h : ∀ x, Follows stop R (next x) (next' x)) :
    Follows stop R (.op o next) (.op o next') := by
  refine ⟨fun minCanonicity capped => ?_⟩
  simp only [Program.run]
  cases o.run capped with
  | error kind => exact .inr rfl
  | ok result => exact (h result.1).run minCanonicity result.2

/-- Notes do not matter. -/
theorem Follows.note_left {note : Note} {next : Unit → Program α} (h : Follows stop R (next ()) q) :
    Follows stop R (.op (.note note) next) q :=
  ⟨fun minCanonicity capped => h.run minCanonicity capped⟩

theorem Follows.note_right {note : Note} {next : Unit → Program δ}
    (h : Follows stop R p (next ())) : Follows stop R p (.op (.note note) next) :=
  ⟨fun minCanonicity capped => h.run minCanonicity capped⟩

theorem Follows.bind {S : α' → δ' → Prop} {f : α → Program α'} {g : δ → Program δ'}
    (h : Follows stop R p q) (hfg : ∀ x y, R x y → Follows stop S (f x) (g y)) :
    Follows stop S (p.bind f) (q.bind g) := by
  refine ⟨fun minCanonicity capped => ?_⟩
  rw [run_bind, run_bind]
  have hpq := h.run minCanonicity capped
  cases hp : p.run minCanonicity capped with
  | error stop' =>
      rw [hp] at hpq
      cases hq : q.run minCanonicity capped with
      | error stop'' =>
          rw [hq] at hpq
          exact hpq.imp (fun h => congrArg Except.error (Except.error.inj h)) id
      | ok b =>
          rw [hq] at hpq
          exact .inl (congrArg Except.error (Except.error.inj (hpq.resolve_right id)))
  | ok a =>
      rw [hp] at hpq
      cases hq : q.run minCanonicity capped with
      | error stop' =>
          rw [hq] at hpq
          exact (hpq.resolve_left (fun h => by cases h)).elim
      | ok b =>
          rw [hq] at hpq
          obtain ⟨hvalue, hcapped⟩ := hpq.resolve_left (fun h => by cases h)
          obtain ⟨x, rest⟩ := a
          obtain ⟨y, rest'⟩ := b
          obtain rfl : rest' = rest := hcapped
          exact (hfg x y hvalue).run minCanonicity rest'

/-- What both do first is the same. -/
theorem Follows.bind_left {f : ε → Program α} {g : ε → Program δ} (o : Program ε)
    (h : ∀ x, Follows stop R (f x) (g x)) : Follows stop R (o.bind f) (o.bind g) :=
  (follows_refl (R := Eq) (fun _ => rfl) o).bind fun x _ hxy => hxy ▸ h x

/-- What holds after functions are applied to the values holds before. -/
theorem Follows.of_map {S : α' → δ' → Prop} (f : α → α') (g : δ → δ')
    (h : Follows stop S (p.bind fun x => .done (f x)) (q.bind fun y => .done (g y))) :
    Follows stop (fun x y => S (f x) (g y)) p q := by
  refine ⟨fun minCanonicity capped => ?_⟩
  have hpq := h.run minCanonicity capped
  rw [run_bind, run_bind] at hpq
  cases hp : p.run minCanonicity capped with
  | error stop' =>
      rw [hp] at hpq
      cases hq : q.run minCanonicity capped with
      | error stop'' =>
          rw [hq] at hpq
          exact hpq.imp (fun h => congrArg Except.error (Except.error.inj h)) id
      | ok b =>
          rw [hq] at hpq
          exact hpq.imp (fun h => congrArg Except.error (Except.error.inj h)) id
  | ok a =>
      rw [hp] at hpq
      cases hq : q.run minCanonicity capped with
      | error stop' =>
          rw [hq] at hpq
          exact .inr (hpq.resolve_left (fun h => by cases h))
      | ok b =>
          rw [hq] at hpq
          exact .inr (hpq.resolve_left (fun h => by cases h))

theorem Follows.region {Q : γ → γ' → Prop} {inner : Nat → Program γ} {inner' : Nat → Program γ'}
    {next : γ → Program α} {next' : γ' → Program δ}
    (hinner : ∀ len, Follows stop Q (inner len) (inner' len))
    (hnext : ∀ x y, Q x y → Follows stop R (next x) (next' y)) :
    Follows stop R (.region inner next) (.region inner' next') := by
  refine ⟨fun minCanonicity capped => ?_⟩
  simp only [Program.run]
  cases capped.takeLengthDelimited with
  | error kind => exact .inr rfl
  | ok delimited =>
      have hregion := (hinner delimited.remainingBeforeCap).run minCanonicity delimited
      cases hp : (inner delimited.remainingBeforeCap).run minCanonicity delimited with
      | error stop' =>
          rw [hp] at hregion
          cases hq : (inner' delimited.remainingBeforeCap).run minCanonicity delimited with
          | error stop'' =>
              rw [hq] at hregion
              simp only [hp, hq]
              exact hregion.imp (fun h => congrArg Except.error (Except.error.inj h)) id
          | ok b =>
              rw [hq] at hregion
              simp only [hp, hq]
              exact .inl (congrArg Except.error (Except.error.inj (hregion.resolve_right id)))
      | ok a =>
          rw [hp] at hregion
          cases hq : (inner' delimited.remainingBeforeCap).run minCanonicity delimited with
          | error stop' =>
              rw [hq] at hregion
              exact (hregion.resolve_left (fun h => by cases h)).elim
          | ok b =>
              rw [hq] at hregion
              obtain ⟨hvalue, hcapped⟩ := hregion.resolve_left (fun h => by cases h)
              obtain ⟨x, rest⟩ := a
              obtain ⟨y, rest'⟩ := b
              obtain rfl : rest' = rest := hcapped
              simp only [hp, hq]
              exact (hnext x y hvalue).run minCanonicity _

theorem Follows.delimited {inner : Nat → Program α} {inner' : Nat → Program δ}
    (h : ∀ len, Follows stop R (inner len) (inner' len)) :
    Follows stop R (Program.delimited inner) (Program.delimited inner') :=
  Follows.region h fun _ _ hvalue => follows_done hvalue

/-- Two loops are compared by one round of each. -/
theorem Follows.whileRemaining {Q : σ → τ → Prop} {body : σ → Program σ} {body' : τ → Program τ}
    (hbody : ∀ s t, Q s t → Follows stop Q (body s) (body' t)) {s : σ} {t : τ} (hs : Q s t) :
    Follows stop Q (whileRemaining body s) (whileRemaining body' t) := by
  have inRounds (rounds : Nat) (s : σ) (t : τ) (hs : Q s t) :
      Follows stop Q (whileRemainingIn body rounds s) (whileRemainingIn body' rounds t) := by
    induction rounds generalizing s t with
    | zero => exact follows_fail Q _
    | succ rounds ih =>
        apply Follows.op
        intro more
        cases more with
        | true => exact (hbody s t hs).bind ih
        | false => exact follows_done hs
  exact Follows.op _ fun len => inRounds _ s t hs

theorem Follows.whileRepeated {Q : σ → τ → Prop} {body : WireType → σ → Program σ}
    {body' : WireType → τ → Program τ}
    (hbody : ∀ wireType s t, Q s t → Follows stop Q (body wireType s) (body' wireType t))
    {s : σ} {t : τ} (hs : Q s t) :
    Follows stop Q (whileRepeated body s) (whileRepeated body' t) := by
  have inRounds (rounds : Nat) (s : σ) (t : τ) (hs : Q s t) :
      Follows stop Q (whileRepeatedIn body rounds s) (whileRepeatedIn body' rounds t) := by
    induction rounds generalizing s t with
    | zero => exact follows_fail Q _
    | succ rounds ih =>
        apply Follows.op
        intro next
        cases next with
        | some wireType => exact (hbody wireType s t hs).bind ih
        | none => exact follows_done hs
  exact Follows.op _ fun len => inRounds _ s t hs

end

end Program

end Bilrost
