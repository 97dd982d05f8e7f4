import Bilrost.Decode.Refinement

/-!
The loops of the decoders and what is true of every decoder that is built from
reads and these loops: its regions are sealed, and it ends. A loop is given one
round more than there are bytes before the cap. Every round of a loop of the
source takes at least one byte, so none ever uses up its rounds.
-/

namespace Bilrost

namespace Program

/-- `while buf.has_remaining()? { … }`, for a number of rounds at most. -/
def whileRemainingIn {σ : Type} (body : σ → Program σ) : Nat → σ → Program σ
  | 0, _ => .fail .outOfRounds
  | rounds + 1, s => .op .hasRemaining fun more =>
      if more then (body s).bind (whileRemainingIn body rounds) else .done s

/-- `while buf.has_remaining()? { … }`. -/
def whileRemaining {σ : Type} (body : σ → Program σ) (s : σ) : Program σ :=
  .op .remainingBeforeCap fun len => whileRemainingIn body (len + 1) s

/-- `while let Some(wire_type) = peek_repeated_field(buf) { … }`, for a number
of rounds at most. -/
def whileRepeatedIn {σ : Type} (body : WireType → σ → Program σ) : Nat → σ → Program σ
  | 0, _ => .fail .outOfRounds
  | rounds + 1, s => .op .peekRepeatedField fun next =>
      match next with
      | some wireType => (body wireType s).bind (whileRepeatedIn body rounds)
      | none => .done s

/-- `while let Some(wire_type) = peek_repeated_field(buf) { … }`. -/
def whileRepeated {σ : Type} (body : WireType → σ → Program σ) (s : σ) : Program σ :=
  .op .remainingBeforeCap fun len => whileRepeatedIn body (len + 1) s

/-- No run uses up the rounds of a loop. -/
def InRounds {α : Type} (p : Program α) : Prop :=
  ∀ {β : Type} [Buf β] (minCanonicity : Canonicity) (capped : Capped β),
    p.run minCanonicity capped ≠ .error .outOfRounds

/-- What is true of every decoder: its regions are sealed and it ends. -/
structure Regular {α : Type} (p : Program α) : Prop where
  seals : p.SealsRegions
  inRounds : p.InRounds

/-- A run that succeeds has taken at least one byte. -/
def Advances {α : Type} (p : Program α) : Prop :=
  ∀ {β : Type} [Buf β] (minCanonicity : Canonicity) (capped capped' : Capped β) (x : α),
    p.run minCanonicity capped = .ok (x, capped') → capped'.remaining < capped.remaining

/-- A run that succeeds has stopped exactly at the cap. -/
def EndsAtCap {α : Type} (p : Program α) : Prop :=
  ∀ {β : Type} [Buf β] (minCanonicity : Canonicity) (capped capped' : Capped β) (x : α),
    p.run minCanonicity capped = .ok (x, capped') →
      capped'.remaining = capped'.extraBytesRemaining

theorem EndsAtCap.sealed {α : Type} {p : Program α} (h : p.EndsAtCap) (len : Nat) : Sealed len p :=
  fun capped _ _ minCanonicity x capped' hrun => h minCanonicity capped capped' x hrun

/-- A decoder that takes all of a region of `len` bytes, whatever they are. -/
theorem sealed_of_parse {α : Type} {p : Program α} (hseals : p.SealsRegions) {len : Nat}
    (h : ∀ bytes : Bytes, bytes.length = len →
      ∃ x lowest, p.parse bytes = .ok ⟨x, lowest, []⟩) : Sealed len p := by
  intro β _ capped hover hlen minCanonicity x capped' hrun
  obtain ⟨region, after, hholds⟩ := Capped.exists_holds hover
  obtain ⟨y, lowest, hparse⟩ := h region (by rw [← hholds.remainingBeforeCap, hlen])
  have hrefines := run_refines minCanonicity p hseals hholds
  rw [hparse] at hrefines
  rcases le_or_gt minCanonicity lowest with hle | hlt
  · obtain ⟨left, hrun', hleft⟩ := hrefines.1 hle
    obtain ⟨-, rfl⟩ : y = x ∧ left = capped' := by simpa [hrun'] using hrun
    rw [hleft.remaining, hleft.extra]
    simp
  · obtain ⟨stop, hstop⟩ := hrefines.2 hlt
    rw [hrun] at hstop
    cases hstop

section
variable {α δ γ : Type}

theorem regular_done (value : α) : Regular (.done value) :=
  ⟨trivial, fun _ _ h => by cases h⟩

theorem regular_error (kind : DecodeErrorKind) : Regular (error kind : Program α) :=
  ⟨trivial, fun _ _ h => by cases h⟩

theorem regular_ofResult (result : Except DecodeErrorKind α) : Regular (ofResult result) := by
  cases result with
  | ok value => exact regular_done value
  | error kind => exact regular_error kind

theorem Regular.check {next : Program α} (canon : Canonicity) (h : next.Regular) :
    Regular (.check canon next) := by
  refine ⟨h.seals, fun minCanonicity capped hrun => ?_⟩
  rw [run] at hrun
  split at hrun
  · exact h.inRounds minCanonicity capped hrun
  · cases hrun

theorem regular_checked (canon : Canonicity) : Regular (checked canon) :=
  (regular_done canon).check canon

theorem Regular.op {next : γ → Program α} (o : Op γ) (h : ∀ x, (next x).Regular) :
    Regular (.op o next) := by
  refine ⟨fun x => (h x).seals, fun minCanonicity capped hrun => ?_⟩
  rw [run] at hrun
  split at hrun
  · exact (h _).inRounds minCanonicity _ hrun
  · cases hrun

theorem regular_read (o : Op γ) : Regular (read o) := Regular.op o regular_done

theorem Regular.region {inner : Nat → Program γ} {next : γ → Program α}
    (hinner : ∀ len, (inner len).Regular) (hsealed : ∀ len, Sealed len (inner len))
    (hnext : ∀ x, (next x).Regular) : Regular (.region inner next) := by
  refine ⟨⟨fun len => ⟨(hinner len).seals, hsealed len⟩, fun x => (hnext x).seals⟩,
    fun minCanonicity capped hrun => ?_⟩
  rw [run] at hrun
  split at hrun
  · split at hrun
    · exact (hnext _).inRounds minCanonicity _ hrun
    · next stop hstop =>
      obtain rfl : stop = .outOfRounds := by simpa using hrun
      exact (hinner _).inRounds minCanonicity _ hstop
  · cases hrun

theorem Regular.delimited {inner : Nat → Program γ} (hinner : ∀ len, (inner len).Regular)
    (hsealed : ∀ len, Sealed len (inner len)) : Regular (delimited inner) :=
  Regular.region hinner hsealed regular_done

theorem sealsRegions_bind {p : Program α} {f : α → Program δ} (hp : p.SealsRegions)
    (hf : ∀ x, (f x).SealsRegions) : (p.bind f).SealsRegions := by
  induction p with
  | done value => exact hf value
  | fail stop => trivial
  | check canon next ih => exact ih hp hf
  | op o next ih => exact fun x => ih x (hp x) hf
  | region inner next _ ih => exact ⟨hp.1, fun x => ih x (hp.2 x) hf⟩

theorem Regular.bind {p : Program α} {f : α → Program δ} (hp : p.Regular)
    (hf : ∀ x, (f x).Regular) : (p.bind f).Regular := by
  refine ⟨sealsRegions_bind hp.seals fun x => (hf x).seals, fun minCanonicity capped hrun => ?_⟩
  rw [run_bind] at hrun
  split at hrun
  · exact (hf _).inRounds minCanonicity _ hrun
  · next stop hstop =>
    obtain rfl : stop = .outOfRounds := by simpa using hrun
    exact hp.inRounds minCanonicity capped hstop

theorem Regular.map {p : Program α} (hp : p.Regular) (f : α → δ) :
    (p.bind fun x => .done (f x)).Regular :=
  hp.bind fun x => regular_done (f x)

theorem Advances.bind {p : Program α} (hp : p.Advances) (f : α → Program δ) :
    (p.bind f).Advances := by
  intro β _ minCanonicity capped capped' x hrun
  rw [run_bind] at hrun
  split at hrun
  · next y mid hmid =>
    exact (run_shrinks _ hrun).remaining.trans_lt (hp minCanonicity capped mid y hmid)
  · cases hrun

/-- What comes after a program that may take nothing. -/
theorem Advances.of_bind (p : Program α) {f : α → Program δ} (hf : ∀ x, (f x).Advances) :
    (p.bind f).Advances := by
  intro β _ minCanonicity capped capped' x hrun
  rw [run_bind] at hrun
  split at hrun
  · next y mid hmid =>
    exact (hf y minCanonicity mid capped' x hrun).trans_le (run_shrinks _ hmid).remaining
  · cases hrun

theorem advances_decodeVarint (next : Nat → Program α) : Advances (.op .decodeVarint next) := by
  intro β _ minCanonicity capped capped' x hrun
  rw [run] at hrun
  split at hrun
  · next value mid hmid =>
    exact (run_shrinks _ hrun).remaining.trans_lt (Capped.decodeVarint_remaining hmid).2
  · cases hrun

theorem advances_region (inner : Nat → Program γ) (next : γ → Program α) :
    Advances (.region inner next) := by
  intro β _ minCanonicity capped capped' x hrun
  rw [run] at hrun
  split at hrun
  · next delimited hdelimited =>
    obtain ⟨hlt, -, -⟩ := Capped.takeLengthDelimited_remaining hdelimited
    split at hrun
    · next y left hinner =>
      have hleft := (run_shrinks _ hinner).remaining
      have hnext := (run_shrinks _ hrun).remaining
      exact hnext.trans_lt (hleft.trans_lt hlt)
    · cases hrun
  · cases hrun

theorem EndsAtCap.of_bind (p : Program α) {f : α → Program δ} (hf : ∀ x, (f x).EndsAtCap) :
    (p.bind f).EndsAtCap := by
  intro β _ minCanonicity capped capped' x hrun
  rw [run_bind] at hrun
  split at hrun
  · next y mid hmid => exact hf y minCanonicity mid capped' x hrun
  · cases hrun

theorem endsAtCap_error (kind : DecodeErrorKind) : EndsAtCap (error kind : Program α) :=
  fun _ _ _ _ hrun => by cases hrun

end

section
variable {σ : Type} {body : σ → Program σ}

theorem endsAtCap_whileRemaining (body : σ → Program σ) (s : σ) :
    EndsAtCap (whileRemaining body s) := by
  have inRounds (rounds : Nat) (s : σ) : EndsAtCap (whileRemainingIn body rounds s) := by
    induction rounds generalizing s with
    | zero => exact fun _ _ _ _ hrun => by cases hrun
    | succ rounds ih =>
      intro β _ minCanonicity capped capped' x hrun
      rw [whileRemainingIn, run] at hrun
      split at hrun
      · next more mid hmore =>
        cases more with
        | true => exact EndsAtCap.of_bind _ ih minCanonicity mid capped' x hrun
        | false =>
          rw [Op.run] at hmore
          cases hcap : capped.hasRemaining with
          | error err => simp [hcap, Except.map] at hmore
          | ok answer =>
            obtain ⟨rfl, rfl⟩ : answer = false ∧ capped = mid := by
              simpa [hcap, Except.map] using hmore
            obtain ⟨-, rfl⟩ : s = x ∧ capped = capped' := by simpa [run] using hrun
            exact Capped.hasRemaining_eq_false hcap
      · cases hrun
  intro β _ minCanonicity capped capped' x hrun
  exact inRounds _ s minCanonicity capped capped' x hrun

theorem seals_whileRemainingIn (h : ∀ s, (body s).SealsRegions) (rounds : Nat) (s : σ) :
    (whileRemainingIn body rounds s).SealsRegions := by
  induction rounds generalizing s with
  | zero => trivial
  | succ rounds ih =>
    intro more
    cases more with
    | true => exact sealsRegions_bind (h s) ih
    | false => trivial

/-- One round more than there are bytes before the cap is enough when every
round takes a byte. -/
theorem inRounds_whileRemainingIn {β : Type} [Buf β] (minCanonicity : Canonicity)
    (hrounds : ∀ s, (body s).InRounds) (hadvances : ∀ s, (body s).Advances) (rounds : Nat) (s : σ)
    (capped : Capped β) (h : capped.remainingBeforeCap < rounds) :
    (whileRemainingIn body rounds s).run minCanonicity capped ≠ .error .outOfRounds := by
  induction rounds generalizing s capped with
  | zero => exact absurd h (Nat.not_lt_zero _)
  | succ rounds ih =>
    rw [whileRemainingIn, run, Op.run]
    cases hmore : capped.hasRemaining with
    | error err => simp [Except.map]
    | ok more =>
      cases more with
      | false => simp [Except.map, run]
      | true =>
        have hgt := Capped.hasRemaining_eq_true hmore
        simp only [Except.map, ↓reduceIte, run_bind]
        split
        · next s' mid hbody =>
          have hlt := hadvances s minCanonicity capped mid s' hbody
          have hextra := (run_shrinks _ hbody).extra
          apply ih
          rw [Capped.remainingBeforeCap] at h ⊢
          omega
        · next stop hstop =>
          intro heq
          obtain rfl : stop = .outOfRounds := by simpa using heq
          exact hrounds s minCanonicity capped hstop

theorem Regular.whileRemaining (h : ∀ s, (body s).Regular) (hadvances : ∀ s, (body s).Advances)
    (s : σ) : Regular (whileRemaining body s) := by
  refine ⟨fun len => seals_whileRemainingIn (fun s => (h s).seals) _ s, ?_⟩
  intro β _ minCanonicity capped
  exact inRounds_whileRemainingIn minCanonicity (fun s => (h s).inRounds) hadvances _ s capped
    (Nat.lt_succ_self _)

end

section
variable {σ : Type} {body : WireType → σ → Program σ}

theorem seals_whileRepeatedIn (h : ∀ wireType s, (body wireType s).SealsRegions) (rounds : Nat)
    (s : σ) : (whileRepeatedIn body rounds s).SealsRegions := by
  induction rounds generalizing s with
  | zero => trivial
  | succ rounds ih =>
    intro next
    cases next with
    | some wireType => exact sealsRegions_bind (h wireType s) ih
    | none => trivial

/-- Peeking takes the byte that the next round needs. -/
theorem inRounds_whileRepeatedIn {β : Type} [Buf β] (minCanonicity : Canonicity)
    (hrounds : ∀ wireType s, (body wireType s).InRounds) (rounds : Nat) (s : σ)
    (capped : Capped β) (h : capped.remainingBeforeCap < rounds) :
    (whileRepeatedIn body rounds s).run minCanonicity capped ≠ .error .outOfRounds := by
  induction rounds generalizing s capped with
  | zero => exact absurd h (Nat.not_lt_zero _)
  | succ rounds ih =>
    rw [whileRepeatedIn, run, Op.run, Capped.peekRepeatedField]
    by_cases hzero : capped.remainingBeforeCap = 0
    · simp [hzero, run]
    · by_cases hkey : 4 ≤ ((Buf.chunk capped.buf).headD 0).toNat
      · simp only [hzero, ↓reduceIte, hkey, run]
        rintro ⟨⟩
      · simp only [hzero, ↓reduceIte, hkey, run_bind]
        have hbefore : capped.remainingBeforeCap =
            capped.remaining - capped.extraBytesRemaining := rfl
        have hadvance := capped.remaining_advance (n := 1) (by omega)
        split
        · next s' mid hbody =>
          have hshrinks := run_shrinks _ hbody
          have hle := hshrinks.remaining
          have hextra : mid.extraBytesRemaining = capped.extraBytesRemaining := hshrinks.extra
          apply ih
          rw [Capped.remainingBeforeCap]
          omega
        · next stop hstop =>
          intro heq
          obtain rfl : stop = .outOfRounds := by simpa using heq
          exact hrounds _ s minCanonicity _ hstop

theorem Regular.whileRepeated (h : ∀ wireType s, (body wireType s).Regular) (s : σ) :
    Regular (whileRepeated body s) := by
  refine ⟨fun len => seals_whileRepeatedIn (fun wireType s => (h wireType s).seals) _ s, ?_⟩
  intro β _ minCanonicity capped
  exact inRounds_whileRepeatedIn minCanonicity (fun wireType s => (h wireType s).inRounds) _ s
    capped (Nat.lt_succ_self _)

end

end Program

end Bilrost
