import Bilrost.Decode.Loops

/-!
Reasoning about what programs parse. `Yields` states a property of every value
parsed together with the lowest canonicity checked on the way, and `Related`
compares two programs on the same bytes. Both have one rule for each way to
build a program, so that a fact about a decoder is put together from facts
about its parts without unfolding `parse`.

`run_new` turns what is known about parsing into facts about runs on a whole
buffer.
-/

namespace Bilrost

namespace Program

/-- Every value that is parsed, with the lowest canonicity checked. -/
def Yields {α : Type} (Q : Canonicity → α → Prop) (p : Program α) : Prop :=
  ∀ bytes parsed, p.parse bytes = .ok parsed → Q parsed.lowest parsed.value

section
variable {α δ γ σ : Type}

theorem Yields.mono {Q Q' : Canonicity → α → Prop} {p : Program α} (h : p.Yields Q)
    (hQ : ∀ lowest x, Q lowest x → Q' lowest x) : p.Yields Q' :=
  fun bytes parsed hparse => hQ _ _ (h bytes parsed hparse)

theorem Yields.done {Q : Canonicity → α → Prop} {value : α} (h : Q .canonical value) :
    Yields Q (.done value) := by
  intro bytes parsed hparse
  obtain rfl := Except.ok.inj hparse
  exact h

theorem Yields.error (Q : Canonicity → α → Prop) (kind : DecodeErrorKind) :
    Yields Q (Program.error kind) :=
  fun _ _ hparse => by cases hparse

/-- What is left of a property after a canonicity was checked. -/
theorem Yields.lower {Q : Canonicity → α → Prop} {canon : Canonicity}
    {outcome : Except Fault (Parsed α)} {parsed : Parsed α}
    (hparse : outcome.map (Parsed.lower canon) = .ok parsed)
    (h : ∀ parsed', outcome = .ok parsed' → Q (canon.update parsed'.lowest) parsed'.value) :
    Q parsed.lowest parsed.value := by
  cases outcome with
  | error fault => cases hparse
  | ok parsed' =>
    obtain rfl := Except.ok.inj hparse
    exact h parsed' rfl

theorem Yields.check {Q : Canonicity → α → Prop} {canon : Canonicity} {next : Program α}
    (h : next.Yields fun lowest x => Q (canon.update lowest) x) : Yields Q (.check canon next) :=
  fun bytes _ hparse => Yields.lower hparse fun parsed' hnext => h bytes parsed' hnext

theorem Yields.op {Q : Canonicity → α → Prop} {o : Op γ} {next : γ → Program α}
    (h : ∀ x, (next x).Yields Q) : Yields Q (.op o next) := by
  intro bytes parsed hparse
  rw [parse] at hparse
  split at hparse
  · exact h _ _ _ hparse
  · cases hparse

theorem Yields.bind {Q : Canonicity → δ → Prop} {Q' : Canonicity → α → Prop} {p : Program α}
    {f : α → Program δ} (hp : p.Yields Q')
    (hf : ∀ lowest x, Q' lowest x → (f x).Yields fun lowest' y => Q (lowest.update lowest') y) :
    (p.bind f).Yields Q := by
  intro bytes parsed hparse
  rw [parse_bind] at hparse
  split at hparse
  · next mid hmid =>
    exact Yields.lower hparse fun parsed' hnext => hf _ _ (hp _ _ hmid) _ parsed' hnext
  · cases hparse

theorem Yields.region {Q : Canonicity → α → Prop} {Q' : Canonicity → γ → Prop}
    {inner : Nat → Program γ} {next : γ → Program α} (hinner : ∀ len, (inner len).Yields Q')
    (hnext : ∀ lowest x, Q' lowest x →
      (next x).Yields fun lowest' y => Q (lowest.update lowest') y) :
    Yields Q (.region inner next) := by
  intro bytes parsed hparse
  rw [parse] at hparse
  split at hparse
  · split at hparse
    · next hx =>
      exact Yields.lower hparse fun parsed' hrest =>
        hnext _ _ (hinner _ _ _ hx) _ parsed' hrest
    · cases hparse
    · cases hparse
  · cases hparse

theorem Yields.delimited {Q : Canonicity → γ → Prop} {inner : Nat → Program γ}
    (h : ∀ len, (inner len).Yields Q) : (delimited inner).Yields Q :=
  Yields.region h fun lowest x hx => Yields.done (by simpa using hx)

/-- An invariant of a loop, on its state and the lowest canonicity so far. -/
theorem Yields.whileRemaining (Inv : Canonicity → σ → Prop) {body : σ → Program σ}
    (hbody : ∀ lowest s, Inv lowest s →
      (body s).Yields fun lowest' s' => Inv (lowest.update lowest') s')
    {s : σ} (hs : Inv .canonical s) : (whileRemaining body s).Yields Inv := by
  have inRounds (rounds : Nat) (lowest : Canonicity) (s : σ) (hs : Inv lowest s) :
      (whileRemainingIn body rounds s).Yields fun lowest' s' => Inv (lowest.update lowest') s' := by
    induction rounds generalizing lowest s with
    | zero => exact fun _ _ hparse => by cases hparse
    | succ rounds ih =>
      refine Yields.op fun more => ?_
      cases more with
      | false => exact Yields.done (by simpa using hs)
      | true =>
        refine Yields.bind (hbody lowest s hs) fun lowest' s' hs' => ?_
        exact (ih _ s' hs').mono fun lowest'' s'' h => by rwa [← Canonicity.update_assoc]
  refine Yields.op fun len => ?_
  exact (inRounds _ .canonical s hs).mono fun lowest' s' h => by simpa using h

theorem Yields.whileRepeated (Inv : Canonicity → σ → Prop) {body : WireType → σ → Program σ}
    (hbody : ∀ wireType lowest s, Inv lowest s →
      (body wireType s).Yields fun lowest' s' => Inv (lowest.update lowest') s')
    {s : σ} (hs : Inv .canonical s) : (whileRepeated body s).Yields Inv := by
  have inRounds (rounds : Nat) (lowest : Canonicity) (s : σ) (hs : Inv lowest s) :
      (whileRepeatedIn body rounds s).Yields fun lowest' s' => Inv (lowest.update lowest') s' := by
    induction rounds generalizing lowest s with
    | zero => exact fun _ _ hparse => by cases hparse
    | succ rounds ih =>
      refine Yields.op fun next => ?_
      cases next with
      | none => exact Yields.done (by simpa using hs)
      | some wireType =>
        refine Yields.bind (hbody wireType lowest s hs) fun lowest' s' hs' => ?_
        exact (ih _ s' hs').mono fun lowest'' s'' h => by rwa [← Canonicity.update_assoc]
  refine Yields.op fun len => ?_
  exact (inRounds _ .canonical s hs).mono fun lowest' s' h => by simpa using h

end

/-- Two outcomes are the same up to a relation between the values: both are
successes that leave the same bytes, or both are failures. -/
def Agree {α δ : Type} (R : α → δ → Prop) :
    Except Fault (Parsed α) → Except Fault (Parsed δ) → Prop
  | .ok a, .ok b => R a.value b.value ∧ a.rest = b.rest
  | .error _, .error _ => True
  | _, _ => False

/-- Two programs do the same with some bytes. When the comparison is lenient
they need not if the first one reaches the recursion limit. -/
def RelatedAt {α δ : Type} (lenient : Prop) (R : α → δ → Prop) (bytes : Bytes) (p : Program α)
    (q : Program δ) : Prop :=
  (lenient ∧ p.parse bytes = .error .limit) ∨ Agree R (p.parse bytes) (q.parse bytes)

/-- Two programs do the same with any bytes. -/
def Related {α δ : Type} (lenient : Prop) (R : α → δ → Prop) (p : Program α) (q : Program δ) :
    Prop :=
  ∀ bytes, RelatedAt lenient R bytes p q

theorem Agree.lower {α δ : Type} {R : α → δ → Prop} {a : Except Fault (Parsed α)}
    {b : Except Fault (Parsed δ)} (h : Agree R a b) (canon canon' : Canonicity) :
    Agree R (a.map (Parsed.lower canon)) (b.map (Parsed.lower canon')) := by
  cases a <;> cases b <;> exact h

section
variable {lenient : Prop} {α δ α' δ' γ γ' σ τ : Type}

theorem Related.mono {R R' : α → δ → Prop} {p : Program α} {q : Program δ}
    (h : Related lenient R p q) (hR : ∀ x y, R x y → R' x y) : Related lenient R' p q := by
  intro bytes
  rcases h bytes with hlimit | hagree
  · exact .inl hlimit
  · right
    revert hagree
    cases p.parse bytes <;> cases q.parse bytes <;> simp only [Agree, imp_self]
    exact fun ⟨hvalue, hrest⟩ => ⟨hR _ _ hvalue, hrest⟩

theorem related_done {R : α → δ → Prop} {x : α} {y : δ} (h : R x y) :
    Related lenient R (.done x) (.done y) :=
  fun _ => .inr ⟨h, rfl⟩

theorem RelatedAt.check_right {R : α → δ → Prop} {bytes : Bytes} {p : Program α} {q : Program δ}
    (canon : Canonicity) (h : RelatedAt lenient R bytes p q) :
    RelatedAt lenient R bytes p (.check canon q) := by
  rcases h with hlimit | hagree
  · exact .inl hlimit
  · right
    rw [← map_lower_canonical (p.parse bytes)]
    exact hagree.lower _ _

theorem Related.check_right {R : α → δ → Prop} {p : Program α} {q : Program δ}
    (canon : Canonicity) (h : Related lenient R p q) : Related lenient R p (.check canon q) :=
  fun bytes => (h bytes).check_right canon

theorem Related.check {R : α → δ → Prop} {p : Program α} {q : Program δ} (canon : Canonicity)
    (h : Related lenient R p q) : Related lenient R (.check canon p) (.check canon q) := by
  intro bytes
  rcases h bytes with ⟨hlenient, hlimit⟩ | hagree
  · left
    rw [parse, hlimit]
    exact ⟨hlenient, rfl⟩
  · exact .inr (hagree.lower _ _)

theorem Related.op {R : α → δ → Prop} (o : Op γ) {next : γ → Program α} {next' : γ → Program δ}
    (h : ∀ x, Related lenient R (next x) (next' x)) :
    Related lenient R (.op o next) (.op o next') := by
  intro bytes
  rw [RelatedAt, parse, parse]
  split
  · exact h _ _
  · exact .inr trivial

theorem RelatedAt.bind {R : α → α' → Prop} {S : δ → δ' → Prop} {bytes : Bytes} {p : Program α}
    {q : Program α'} {f : α → Program δ} {g : α' → Program δ'}
    (h : RelatedAt lenient R bytes p q)
    (hfg : ∀ x y, R x y → Related lenient S (f x) (g y)) :
    RelatedAt lenient S bytes (p.bind f) (q.bind g) := by
  rw [RelatedAt, parse_bind, parse_bind]
  rcases h with ⟨hlenient, hlimit⟩ | hagree
  · left
    rw [hlimit]
    exact ⟨hlenient, rfl⟩
  · cases hp : p.parse bytes with
    | error fault =>
      cases hq : q.parse bytes with
      | error fault' => exact .inr trivial
      | ok b =>
        rw [hp, hq] at hagree
        exact hagree.elim
    | ok a =>
      cases hq : q.parse bytes with
      | error fault' =>
        rw [hp, hq] at hagree
        exact hagree.elim
      | ok b =>
        rw [hp, hq] at hagree
        obtain ⟨hvalue, hrest⟩ := hagree
        simp only [hrest]
        rcases hfg _ _ hvalue b.rest with ⟨hlenient, hlimit⟩ | hagree
        · left
          rw [hlimit]
          exact ⟨hlenient, rfl⟩
        · exact .inr (hagree.lower _ _)

theorem Related.bind {R : α → α' → Prop} {S : δ → δ' → Prop} {p : Program α} {q : Program α'}
    {f : α → Program δ} {g : α' → Program δ'} (h : Related lenient R p q)
    (hfg : ∀ x y, R x y → Related lenient S (f x) (g y)) :
    Related lenient S (p.bind f) (q.bind g) :=
  fun bytes => (h bytes).bind hfg

/-- Regions are compared by their decoders on the bytes of the region, which
the decoders know the number of. -/
theorem Related.region {R : γ → γ' → Prop} {S : δ → δ' → Prop} {inner : Nat → Program γ}
    {inner' : Nat → Program γ'} {next : γ → Program δ} {next' : γ' → Program δ'}
    (hinner : ∀ bytes : Bytes, RelatedAt lenient R bytes (inner bytes.length) (inner' bytes.length))
    (hnext : ∀ x y, R x y → Related lenient S (next x) (next' y)) :
    Related lenient S (.region inner next) (.region inner' next') := by
  intro bytes
  rw [RelatedAt, parse, parse]
  cases hdelimited : parseDelimited bytes with
  | none => exact .inr trivial
  | some taken =>
    obtain ⟨region, rest⟩ := taken
    simp only
    rcases hinner region with ⟨hlenient, hlimit⟩ | hagree
    · left
      rw [hlimit]
      exact ⟨hlenient, rfl⟩
    · revert hagree
      cases (inner region.length).parse region with
      | error fault =>
        cases (inner' region.length).parse region with
        | error fault' => exact fun _ => .inr trivial
        | ok b => exact fun hagree => hagree.elim
      | ok a =>
        cases (inner' region.length).parse region with
        | error fault' => exact fun hagree => hagree.elim
        | ok b =>
          obtain ⟨x, lowest, left⟩ := a
          obtain ⟨y, lowest', left'⟩ := b
          rintro ⟨hvalue, hleft⟩
          obtain rfl : left = left' := hleft
          cases left with
          | cons b left => exact .inr trivial
          | nil =>
            rcases hnext x y hvalue rest with ⟨hlenient, hlimit⟩ | hagree
            · left
              simp only [hlimit]
              exact ⟨hlenient, rfl⟩
            · exact .inr (hagree.lower _ _)

theorem Related.delimited {R : γ → γ' → Prop} {inner : Nat → Program γ}
    {inner' : Nat → Program γ'}
    (h : ∀ bytes : Bytes, RelatedAt lenient R bytes (inner bytes.length) (inner' bytes.length)) :
    Related lenient R (Program.delimited inner) (Program.delimited inner') :=
  Related.region h fun _ _ hvalue => related_done hvalue

/-- Two loops are compared by one round of each. -/
theorem Related.whileRemaining {R : σ → τ → Prop} {body : σ → Program σ} {body' : τ → Program τ}
    (hbody : ∀ s t, R s t → Related lenient R (body s) (body' t)) {s : σ} {t : τ} (hs : R s t) :
    Related lenient R (whileRemaining body s) (whileRemaining body' t) := by
  have inRounds (rounds : Nat) (s : σ) (t : τ) (hs : R s t) :
      Related lenient R (whileRemainingIn body rounds s) (whileRemainingIn body' rounds t) := by
    induction rounds generalizing s t with
    | zero => exact fun _ => .inr trivial
    | succ rounds ih =>
      refine Related.op _ fun more => ?_
      cases more with
      | true => exact (hbody s t hs).bind ih
      | false => exact related_done hs
  exact Related.op _ fun len => inRounds _ s t hs

theorem Related.whileRepeated {R : σ → τ → Prop} {body : WireType → σ → Program σ}
    {body' : WireType → τ → Program τ}
    (hbody : ∀ wireType s t, R s t → Related lenient R (body wireType s) (body' wireType t))
    {s : σ} {t : τ} (hs : R s t) :
    Related lenient R (whileRepeated body s) (whileRepeated body' t) := by
  have inRounds (rounds : Nat) (s : σ) (t : τ) (hs : R s t) :
      Related lenient R (whileRepeatedIn body rounds s) (whileRepeatedIn body' rounds t) := by
    induction rounds generalizing s t with
    | zero => exact fun _ => .inr trivial
    | succ rounds ih =>
      refine Related.op _ fun next => ?_
      cases next with
      | some wireType => exact (hbody wireType s t hs).bind ih
      | none => exact related_done hs
  exact Related.op _ fun len => inRounds _ s t hs

end

/-- What a program makes of a whole buffer when its context demands a minimum
of canonicity. -/
def outcome {α : Type} (p : Program α) (minCanonicity : Canonicity) (bytes : Bytes) : Option α :=
  match p.parse bytes with
  | .ok parsed => if minCanonicity ≤ parsed.lowest then some parsed.value else none
  | .error _ => none

theorem holds_new {β : Type} [Buf β] (buf : β) : (Capped.new buf).Holds (Buf.bytes buf) [] :=
  ⟨(List.append_nil _).symm, rfl⟩

/-- Running a decoder on a whole buffer, however it is stored, is parsing its
bytes. -/
theorem run_new {β α : Type} [Buf β] {p : Program α} (h : p.Regular)
    (minCanonicity : Canonicity) (buf : β) :
    (p.run minCanonicity (Capped.new buf)).toOption.map Prod.fst =
      p.outcome minCanonicity (Buf.bytes buf) := by
  have hrefines := run_refines minCanonicity p h.seals (holds_new buf)
  rw [outcome]
  cases hparse : p.parse (Buf.bytes buf) with
  | ok parsed =>
    rw [hparse] at hrefines
    by_cases hle : minCanonicity ≤ parsed.lowest
    · obtain ⟨capped', hrun, -⟩ := hrefines.1 hle
      simp [hrun, hle, Except.toOption]
    · obtain ⟨stop, hrun⟩ := hrefines.2 (not_le.mp hle)
      simp [hrun, hle, Except.toOption]
  | error fault =>
    rw [hparse] at hrefines
    cases hrun : p.run minCanonicity (Capped.new buf) with
    | error stop => rfl
    | ok result =>
      obtain ⟨x, capped'⟩ := result
      -- nothing is behind the end of the buffer
      have hover := hrefines.1 x capped' hrun
      have hextra := (run_shrinks _ hrun).extra
      rw [Capped.Over, hextra, Capped.new] at hover
      exact absurd hover (Nat.not_lt_zero _)

/-- Parsing takes what a run takes. -/
theorem Advances.parse {α : Type} {p : Program α} (h : p.Advances) (hsealed : p.SealsRegions)
    {bytes : Bytes} {parsed : Parsed α} (hparse : p.parse bytes = .ok parsed) :
    parsed.rest.length < bytes.length := by
  have hrefines := run_refines .notCanonical p hsealed (holds_new bytes)
  rw [Buf.bytes_slice, hparse] at hrefines
  obtain ⟨capped', hrun, hholds⟩ := hrefines.1 (Canonicity.notCanonical_le _)
  have hlt := h _ _ _ _ hrun
  rw [hholds.remaining, (holds_new bytes).remaining, Buf.bytes_slice] at hlt
  simpa using hlt

section
variable {σ : Type} {body : σ → Program σ}

/-- Enough rounds are as good as any other number that is enough. -/
theorem parse_whileRemainingIn
    (hlt : ∀ s bytes parsed, (body s).parse bytes = .ok parsed → parsed.rest.length < bytes.length)
    (rounds rounds' : Nat) (s : σ) (bytes : Bytes) (h : bytes.length < rounds)
    (h' : bytes.length < rounds') :
    (whileRemainingIn body rounds s).parse bytes =
      (whileRemainingIn body rounds' s).parse bytes := by
  induction rounds generalizing rounds' s bytes with
  | zero => exact absurd h (Nat.not_lt_zero _)
  | succ rounds ih =>
    obtain ⟨rounds', rfl⟩ : ∃ r, rounds' = r + 1 := ⟨rounds' - 1, by omega⟩
    simp only [whileRemainingIn, parse, Op.parse]
    cases bytes with
    | nil => rfl
    | cons b bytes =>
      simp only [ne_eq, reduceCtorEq, not_false_eq_true, decide_true, ↓reduceIte, parse_bind]
      cases hparse : (body s).parse (b :: bytes) with
      | ok parsed =>
        have hrest := hlt s (b :: bytes) parsed hparse
        simp only
        rw [ih rounds' parsed.value parsed.rest (by omega) (by omega)]
      | error fault => rfl

/-- A loop at the end of its region. -/
@[simp] theorem parse_whileRemaining_nil (body : σ → Program σ) (s : σ) :
    (whileRemaining body s).parse [] = .ok ⟨s, .canonical, []⟩ := rfl

/-- A loop with bytes to go does one round and goes on with what is left. -/
theorem parse_whileRemaining
    (hlt : ∀ s bytes parsed, (body s).parse bytes = .ok parsed → parsed.rest.length < bytes.length)
    (s : σ) {bytes : Bytes} (hne : bytes ≠ []) :
    (whileRemaining body s).parse bytes =
      match (body s).parse bytes with
      | .ok parsed =>
          ((whileRemaining body parsed.value).parse parsed.rest).map (Parsed.lower parsed.lowest)
      | .error fault => .error fault := by
  simp only [whileRemaining, parse, Op.parse]
  rw [whileRemainingIn]
  simp only [parse, Op.parse, hne, ne_eq, not_false_eq_true, decide_true, ↓reduceIte, parse_bind]
  cases hparse : (body s).parse bytes with
  | ok parsed =>
    have hrest := hlt s bytes parsed hparse
    simp only
    rw [parse_whileRemainingIn hlt _ (parsed.rest.length + 1) _ _ (by omega) (by omega)]
  | error fault => rfl

end

section
variable {σ : Type} {body : WireType → σ → Program σ}

theorem parse_whileRepeatedIn
    (hle : ∀ wireType s bytes parsed, (body wireType s).parse bytes = .ok parsed →
      parsed.rest.length ≤ bytes.length)
    (rounds rounds' : Nat) (s : σ) (bytes : Bytes) (h : bytes.length < rounds)
    (h' : bytes.length < rounds') :
    (whileRepeatedIn body rounds s).parse bytes =
      (whileRepeatedIn body rounds' s).parse bytes := by
  induction rounds generalizing rounds' s bytes with
  | zero => exact absurd h (Nat.not_lt_zero _)
  | succ rounds ih =>
    obtain ⟨rounds', rfl⟩ : ∃ r, rounds' = r + 1 := ⟨rounds' - 1, by omega⟩
    simp only [whileRepeatedIn, parse]
    cases bytes with
    | nil => rfl
    | cons key bytes =>
      rw [List.length_cons] at h h'
      simp only [Op.parse]
      split_ifs with hkey
      · rfl
      · simp only [parse_bind]
        split
        · next parsed hparse =>
          have hrest := hle _ s bytes parsed hparse
          rw [ih rounds' parsed.value parsed.rest (by omega) (by omega)]
        · rfl

/-- Bytes that do not begin with the key of a repeated field. -/
def NoRepeat (bytes : Bytes) : Prop := ∀ key ∈ bytes.head?, 4 ≤ key.toNat

theorem parse_whileRepeated_stop (body : WireType → σ → Program σ) (s : σ) {bytes : Bytes}
    (h : NoRepeat bytes) : (whileRepeated body s).parse bytes = .ok ⟨s, .canonical, bytes⟩ := by
  simp only [whileRepeated, parse, Op.parse]
  rw [whileRepeatedIn]
  cases bytes with
  | nil => rfl
  | cons key bytes =>
    have hkey : 4 ≤ key.toNat := h key rfl
    simp only [parse, Op.parse, if_pos hkey]

theorem parse_whileRepeated_cons
    (hle : ∀ wireType s bytes parsed, (body wireType s).parse bytes = .ok parsed →
      parsed.rest.length ≤ bytes.length)
    (s : σ) {key : UInt8} {bytes : Bytes} (hkey : key.toNat < 4) :
    (whileRepeated body s).parse (key :: bytes) =
      match (body (WireType.fromU8 key.toNat) s).parse bytes with
      | .ok parsed =>
          ((whileRepeated body parsed.value).parse parsed.rest).map (Parsed.lower parsed.lowest)
      | .error fault => .error fault := by
  simp only [whileRepeated, parse, Op.parse]
  rw [whileRepeatedIn]
  simp only [parse, Op.parse, if_neg (Nat.not_le.mpr hkey), parse_bind]
  cases hparse : (body (WireType.fromU8 key.toNat) s).parse bytes with
  | ok parsed =>
    have hrest := hle _ s bytes parsed hparse
    simp only
    rw [parse_whileRepeatedIn hle _ (parsed.rest.length + 1) _ _
      (by rw [List.length_cons]; omega) (by omega)]
  | error fault => rfl

end

/-- Parsing leaves no more bytes than there were. -/
theorem parse_length_le {α : Type} {p : Program α} (hsealed : p.SealsRegions) {bytes : Bytes}
    {parsed : Parsed α} (hparse : p.parse bytes = .ok parsed) :
    parsed.rest.length ≤ bytes.length := by
  have hrefines := run_refines .notCanonical p hsealed (holds_new bytes)
  rw [Buf.bytes_slice, hparse] at hrefines
  obtain ⟨capped', hrun, hholds⟩ := hrefines.1 (Canonicity.notCanonical_le _)
  have hle := (run_shrinks _ hrun).remaining
  rw [hholds.remaining, (holds_new bytes).remaining, Buf.bytes_slice] at hle
  simpa using hle

end Program

end Bilrost
