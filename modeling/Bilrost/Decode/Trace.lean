import Bilrost.Decode.Slices

/-!
What a run passes. The trace of a run lists the notes it comes by, each with
the number of values that are encoded like messages and contain it: entering
one raises the level to the end of its region.
-/

namespace Bilrost

def Note.raises : Note → Nat
  | enters _ | entersVariant => 1
  | meets _ | skipsEmpty _ => 0

def Op.notes {γ : Type} : Op γ → List Note
  | note n => [n]
  | _ => []

def Op.raises {γ : Type} : Op γ → Nat
  | note n => n.raises
  | _ => 0

namespace Program

section
variable {β : Type} [Buf β] (minCanonicity : Canonicity)

/-- The notes of a run that starts at a level. -/
def trace {α : Type} : Program α → Nat → Capped β → List (Nat × Note)
  | done _, _, _ => []
  | fail _, _, _ => []
  | check canon next, level, capped =>
      match Bilrost.check minCanonicity canon with
      | .ok _ => next.trace level capped
      | .error _ => []
  | op o next, level, capped =>
      o.notes.map (level, ·) ++
        match o.run capped with
        | .ok (x, capped) => (next x).trace (level + o.raises) capped
        | .error _ => []
  | region inner next, level, capped =>
      match capped.takeLengthDelimited with
      | .ok delimited =>
          (inner delimited.remainingBeforeCap).trace level delimited ++
            match (inner delimited.remainingBeforeCap).run minCanonicity delimited with
            | .ok (x, delimited) =>
                (next x).trace level ⟨delimited.buf, capped.extraBytesRemaining⟩
            | .error _ => []
      | .error _ => []

/-- The level after a program that does not fail. -/
def levelAfter {α : Type} : Program α → Nat → Capped β → Nat
  | done _, level, _ => level
  | fail _, level, _ => level
  | check canon next, level, capped =>
      match Bilrost.check minCanonicity canon with
      | .ok _ => next.levelAfter level capped
      | .error _ => level
  | op o next, level, capped =>
      match o.run capped with
      | .ok (x, capped) => (next x).levelAfter (level + o.raises) capped
      | .error _ => level
  | region inner next, level, capped =>
      match capped.takeLengthDelimited with
      | .ok delimited =>
          match (inner delimited.remainingBeforeCap).run minCanonicity delimited with
          | .ok (x, delimited) =>
              (next x).levelAfter level ⟨delimited.buf, capped.extraBytesRemaining⟩
          | .error _ => level
      | .error _ => level

variable {minCanonicity}

theorem trace_bind {α δ : Type} (p : Program α) (f : α → Program δ) (level : Nat)
    (capped : Capped β) :
    (p.bind f).trace minCanonicity level capped =
      p.trace minCanonicity level capped ++
        match p.run minCanonicity capped with
        | .ok (x, capped') =>
            (f x).trace minCanonicity (p.levelAfter minCanonicity level capped) capped'
        | .error _ => [] := by
  induction p generalizing level capped with
  | done value => rfl
  | fail stop => rfl
  | check canon next ih =>
    cases hcheck : Bilrost.check minCanonicity canon with
    | ok _ =>
      simp only [check_bind, trace, run, levelAfter, hcheck]
      exact ih f level capped
    | error e => simp [check_bind, trace, run, hcheck]
  | op o next ih =>
    cases hread : o.run capped with
    | ok result =>
      simp only [op_bind, trace, run, levelAfter, hread]
      rw [ih, List.append_assoc]
    | error e => simp [op_bind, trace, run, hread]
  | region inner next _ ih =>
    cases htake : capped.takeLengthDelimited with
    | ok delimited =>
      cases hinner : (inner delimited.remainingBeforeCap).run minCanonicity delimited with
      | ok result =>
        simp only [region_bind, trace, run, levelAfter, htake, hinner]
        rw [ih, List.append_assoc]
      | error stop => simp [region_bind, trace, run, htake, hinner]
    | error e => simp [region_bind, trace, run, htake]

theorem levelAfter_bind {α δ : Type} (p : Program α) (f : α → Program δ) (level : Nat)
    (capped : Capped β) :
    (p.bind f).levelAfter minCanonicity level capped =
      match p.run minCanonicity capped with
      | .ok (x, capped') =>
          (f x).levelAfter minCanonicity (p.levelAfter minCanonicity level capped) capped'
      | .error _ => p.levelAfter minCanonicity level capped := by
  induction p generalizing level capped with
  | done value => rfl
  | fail stop => rfl
  | check canon next ih =>
    cases hcheck : Bilrost.check minCanonicity canon with
    | ok _ =>
      simp only [check_bind, run, levelAfter, hcheck]
      exact ih f level capped
    | error e => simp [check_bind, run, levelAfter, hcheck]
  | op o next ih =>
    cases hread : o.run capped with
    | ok result =>
      simp only [op_bind, run, levelAfter, hread]
      exact ih _ f _ _
    | error e => simp [op_bind, run, levelAfter, hread]
  | region inner next _ ih =>
    cases htake : capped.takeLengthDelimited with
    | ok delimited =>
      cases hinner : (inner delimited.remainingBeforeCap).run minCanonicity delimited with
      | ok result =>
        simp only [region_bind, run, levelAfter, htake, hinner]
        exact ih _ f _ _
      | error stop => simp [region_bind, run, levelAfter, htake, hinner]
    | error e => simp [region_bind, run, levelAfter, htake]

/-- Starting higher up, a run passes the same notes higher up. -/
theorem trace_level_add {α : Type} (p : Program α) (level more : Nat) (capped : Capped β) :
    p.trace minCanonicity (level + more) capped =
      (p.trace minCanonicity level capped).map fun e => (e.1 + more, e.2) := by
  induction p generalizing level capped with
  | done value => rfl
  | fail stop => rfl
  | check canon next ih =>
    simp only [trace]
    split
    · exact ih level capped
    · rfl
  | op o next ih =>
    simp only [trace, List.map_append, List.map_map, Function.comp_def]
    congr 1
    split
    · rw [Nat.add_right_comm, ih]
    · rfl
  | region inner next ihInner ihNext =>
    simp only [trace]
    split
    · rw [ihInner, List.map_append]
      congr 1
      split
      · exact ihNext _ level _
      · rfl
    · rfl

/-- A trace depends on the bytes alone. -/
theorem trace_slice {α : Type} (p : Program α) (level : Nat) (capped : Capped β) :
    p.trace minCanonicity level capped.slice = p.trace minCanonicity level capped := by
  induction p generalizing level capped with
  | done value => rfl
  | fail stop => rfl
  | check canon next ih =>
    simp only [trace]
    split
    · exact ih level capped
    · rfl
  | op o next ih =>
    have hread := o.run_slice capped
    simp only [trace]
    congr 1
    cases hrun : o.run capped with
    | ok result =>
      cases hrun' : o.run capped.slice with
      | ok result' =>
        rw [hrun, hrun'] at hread
        obtain ⟨hvalue, hslice⟩ := hread
        obtain ⟨y, slice⟩ := result'
        obtain rfl : y = result.1 := hvalue
        obtain rfl : slice = result.2.slice := hslice
        exact ih _ _ result.2
      | error e' =>
        rw [hrun, hrun'] at hread
        exact hread.elim
    | error e =>
      cases hrun' : o.run capped.slice with
      | ok result' =>
        rw [hrun, hrun'] at hread
        exact hread.elim
      | error e' => rfl
  | region inner next ihInner ihNext =>
    have hdelimited := Capped.slice_takeLengthDelimited capped
    simp only [trace]
    cases hrun : capped.takeLengthDelimited with
    | ok delimited =>
      simp only [hrun] at hdelimited
      simp only [hdelimited, Capped.slice_remainingBeforeCap, ihInner]
      congr 1
      have hinner := run_slice minCanonicity (inner delimited.remainingBeforeCap) delimited
      cases hi : (inner delimited.remainingBeforeCap).run minCanonicity delimited with
      | ok result =>
        cases hi' : (inner delimited.remainingBeforeCap).run minCanonicity delimited.slice with
        | ok result' =>
          rw [hi, hi'] at hinner
          obtain ⟨hvalue, hslice⟩ := hinner
          obtain ⟨y, slice⟩ := result'
          obtain rfl : y = result.1 := hvalue
          obtain rfl : slice = result.2.slice := hslice
          exact ihNext _ level ⟨result.2.buf, capped.extraBytesRemaining⟩
        | error stop' =>
          rw [hi, hi'] at hinner
          exact hinner.elim
      | error stop =>
        cases hi' : (inner delimited.remainingBeforeCap).run minCanonicity delimited.slice with
        | ok result' =>
          rw [hi, hi'] at hinner
          exact hinner.elim
        | error stop' => rfl
    | error e =>
      simp only [hrun] at hdelimited
      obtain ⟨-, e', hrun', -⟩ := hdelimited
      simp only [hrun']

/-- The run comes by a note, at whatever level. -/
def Passes {α : Type} (note : Note) (p : Program α) (capped : Capped β) : Prop :=
  ∃ level, (level, note) ∈ p.trace .notCanonical 0 capped

variable {note : Note}

theorem passes_at {α : Type} {p : Program α} {level : Nat} {capped : Capped β} :
    (∃ at', (at', note) ∈ p.trace .notCanonical level capped) ↔ p.Passes note capped := by
  have hlevel : p.trace .notCanonical (0 + level) capped = _ := trace_level_add p 0 level capped
  rw [Nat.zero_add] at hlevel
  rw [Passes, hlevel]
  simp

theorem passes_bind {α δ : Type} {p : Program α} {f : α → Program δ} {capped : Capped β} :
    (p.bind f).Passes note capped ↔ p.Passes note capped ∨
      ∃ x capped', p.run .notCanonical capped = .ok (x, capped') ∧ (f x).Passes note capped' := by
  rw [Passes, trace_bind]
  simp only [List.mem_append, exists_or]
  refine or_congr Iff.rfl ?_
  cases hrun : p.run .notCanonical capped with
  | ok result =>
    simp only [passes_at, Except.ok.injEq, Prod.ext_iff]
    constructor
    · intro h
      exact ⟨result.1, result.2, ⟨rfl, rfl⟩, h⟩
    · rintro ⟨x, capped', ⟨rfl, rfl⟩, h⟩
      exact h
  | error stop => simp

@[simp] theorem not_passes_done {α : Type} (value : α) (capped : Capped β) :
    ¬ (done value).Passes note capped := by
  simp [Passes, trace]

@[simp] theorem not_passes_fail {α : Type} (stop : Stop) (capped : Capped β) :
    ¬ (fail stop : Program α).Passes note capped := by
  simp [Passes, trace]

theorem passes_check {α : Type} {canon : Canonicity} {next : Program α} {capped : Capped β} :
    (check canon next).Passes note capped ↔ next.Passes note capped := by
  simp [Passes, trace, check_of_le (Canonicity.notCanonical_le canon)]

theorem passes_op {α γ : Type} {o : Op γ} {next : γ → Program α} {capped : Capped β} :
    (op o next).Passes note capped ↔ note ∈ o.notes ∨
      ∃ x capped', o.run capped = .ok (x, capped') ∧ (next x).Passes note capped' := by
  simp only [Passes, trace, List.mem_append, exists_or]
  refine or_congr (by simp) ?_
  cases hrun : o.run capped with
  | ok result =>
    constructor
    · intro h
      exact ⟨result.1, result.2, rfl, passes_at.mp h⟩
    · rintro ⟨x, capped', h, hpasses⟩
      obtain rfl := Except.ok.inj h
      exact passes_at.mpr hpasses
  | error e => simp

theorem passes_note {α : Type} {other : Note} {next : Unit → Program α} {capped : Capped β} :
    (op (.note other) next).Passes note capped ↔ note = other ∨ (next ()).Passes note capped := by
  rw [passes_op]
  refine or_congr (by simp [Op.notes]) ⟨?_, fun h => ⟨(), capped, rfl, h⟩⟩
  rintro ⟨_, _, h, hpasses⟩
  cases h
  exact hpasses

theorem passes_region {α γ : Type} {inner : Nat → Program γ} {next : γ → Program α}
    {capped delimited : Capped β} (h : capped.takeLengthDelimited = .ok delimited) :
    (region inner next).Passes note capped ↔
      (inner delimited.remainingBeforeCap).Passes note delimited ∨
        ∃ x delimited', (inner delimited.remainingBeforeCap).run .notCanonical delimited =
            .ok (x, delimited') ∧
          (next x).Passes note ⟨delimited'.buf, capped.extraBytesRemaining⟩ := by
  simp only [Passes, trace, h, List.mem_append, exists_or]
  refine or_congr Iff.rfl ?_
  cases hrun : (inner delimited.remainingBeforeCap).run .notCanonical delimited with
  | ok result =>
    constructor
    · intro h
      exact ⟨result.1, result.2, rfl, h⟩
    · rintro ⟨x, delimited', h, hpasses⟩
      obtain rfl := Except.ok.inj h
      exact hpasses
  | error stop => simp

theorem not_passes_region {α γ : Type} {inner : Nat → Program γ} {next : γ → Program α}
    {capped : Capped β} {e : DecodeErrorKind} (h : capped.takeLengthDelimited = .error e) :
    ¬ (region inner next).Passes note capped := by
  simp [Passes, trace, h]

end

/-- Two programs that cannot be told apart. What is proved of the second one
holds of the first. -/
structure Same {α : Type} (p q : Program α) : Prop where
  seals : q.SealsRegions → p.SealsRegions
  run {β : Type} [Buf β] (minCanonicity : Canonicity) (capped : Capped β) :
    p.run minCanonicity capped = q.run minCanonicity capped
  trace {β : Type} [Buf β] (minCanonicity : Canonicity) (level : Nat) (capped : Capped β) :
    p.trace minCanonicity level capped = q.trace minCanonicity level capped
  level {β : Type} [Buf β] (minCanonicity : Canonicity) (level : Nat) (capped : Capped β) :
    p.levelAfter minCanonicity level capped = q.levelAfter minCanonicity level capped
  parse (bytes : Bytes) : p.parse bytes = q.parse bytes

theorem Same.refl {α : Type} (p : Program α) : Same p p :=
  ⟨id, fun _ _ => rfl, fun _ _ _ => rfl, fun _ _ _ => rfl, fun _ => rfl⟩

theorem Same.regular {α : Type} {p q : Program α} (h : Same p q) (hq : q.Regular) : p.Regular :=
  ⟨h.seals hq.seals, fun minCanonicity capped => by
    rw [h.run]
    exact hq.inRounds minCanonicity capped⟩

theorem Same.advances {α : Type} {p q : Program α} (h : Same p q) (hq : q.Advances) :
    p.Advances := by
  intro β _ minCanonicity capped capped' x hrun
  rw [h.run] at hrun
  exact hq minCanonicity capped capped' x hrun

/-- Seals carry over from one continuation to another. -/
theorem sealsRegions_bind_of {α δ ε : Type} (p : Program α) {f : α → Program δ}
    {g : α → Program ε}
    (h : ∀ x, (g x).SealsRegions → (f x).SealsRegions) (hg : (p.bind g).SealsRegions) :
    (p.bind f).SealsRegions := by
  induction p with
  | done value => exact h value hg
  | fail stop => trivial
  | check canon next ih => exact ih h hg
  | op o next ih => exact fun x => ih x h (hg x)
  | region inner next _ ih => exact ⟨hg.1, fun x => ih x h (hg.2 x)⟩

theorem trace_bind_done {β α δ : Type} [Buf β] (minCanonicity : Canonicity) (p : Program α)
    (f : α → δ) (level : Nat) (capped : Capped β) :
    (p.bind fun x => .done (f x)).trace minCanonicity level capped =
      p.trace minCanonicity level capped := by
  rw [trace_bind]
  cases p.run minCanonicity capped <;> simp [Program.trace]

theorem Same.bind_right {α δ : Type} (p : Program α) {f g : α → Program δ}
    (h : ∀ x, Same (f x) (g x)) : Same (p.bind f) (p.bind g) where
  seals := sealsRegions_bind_of p fun x => (h x).seals
  run minCanonicity capped := by
    rw [run_bind, run_bind]
    cases p.run minCanonicity capped with
    | ok result => exact (h _).run _ _
    | error stop => rfl
  trace minCanonicity level capped := by
    rw [trace_bind, trace_bind]
    cases p.run minCanonicity capped with
    | ok result => simp only [(h _).trace]
    | error stop => rfl
  level minCanonicity level capped := by
    rw [levelAfter_bind, levelAfter_bind]
    cases p.run minCanonicity capped with
    | ok result => exact (h _).level _ _ _
    | error stop => rfl
  parse bytes := by
    rw [parse_bind, parse_bind]
    cases p.parse bytes with
    | ok parsed => simp only [(h _).parse]
    | error fault => rfl

/-- A function on what a region holds can be applied inside of it or outside. -/
theorem same_region_map {γ δ α : Type} (inner : Nat → Program γ) (f : γ → δ)
    (next : δ → Program α) :
    Same (.region inner fun x => next (f x))
      (.region (fun len => (inner len).bind fun x => .done (f x)) next) where
  seals h := by
    refine ⟨fun len => ⟨?_, ?_⟩, fun x => h.2 (f x)⟩
    · have hinner := sealsRegions_bind_of (inner len) (f := .done) (g := fun x => .done (f x))
        (fun _ _ => trivial) (h.1 len).1
      rwa [bind_done] at hinner
    · intro β _ capped hover hlen minCanonicity x capped' hrun
      refine (h.1 len).2 capped hover hlen minCanonicity (f x) capped' ?_
      rw [run_bind, hrun]
      rfl
  run minCanonicity capped := by
    simp only [Program.run, run_bind]
    cases capped.takeLengthDelimited with
    | error e => rfl
    | ok delimited =>
      simp only
      cases (inner delimited.remainingBeforeCap).run minCanonicity delimited <;> rfl
  trace minCanonicity level capped := by
    simp only [Program.trace, trace_bind_done, run_bind]
    cases capped.takeLengthDelimited with
    | error e => rfl
    | ok delimited =>
      simp only
      cases (inner delimited.remainingBeforeCap).run minCanonicity delimited <;> rfl
  level minCanonicity level capped := by
    simp only [Program.levelAfter, run_bind]
    cases capped.takeLengthDelimited with
    | error e => rfl
    | ok delimited =>
      simp only
      cases (inner delimited.remainingBeforeCap).run minCanonicity delimited <;> rfl
  parse bytes := by
    simp only [Program.parse, parse_bind]
    cases parseDelimited bytes with
    | none => rfl
    | some taken =>
      simp only
      cases (inner taken.1.length).parse taken.1 with
      | error fault => rfl
      | ok parsed =>
        obtain ⟨x, lowest, rest⟩ := parsed
        cases rest <;> simp [Except.map, Parsed.lower]

end Program

end Bilrost
