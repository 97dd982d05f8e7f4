import Bilrost.Guarantees.Agreement
import Bilrost.Schema.Recursive

/-!
The recursion limit: what it promises of a run, and that both ways of decoding
meet it alike. Message variants of oneofs are entered without a test of the
limit, and the distinguished decoders of tuples, ranges and other types with
handwritten fields refuse an empty value before they test it.
-/

namespace Bilrost

open Program

/-- What the limit promises of a run that starts outside of all values: no more
values than the limit contain one another, a run fails for that reason exactly
when one more would be entered, and the depth that is left is never lessened
below zero. -/
structure Program.KeepsLimit {α β : Type} [Buf β] (limit : Nat) (minCanonicity : Canonicity)
    (p : Program α) (capped : Capped β) : Prop where
  entered {level : Nat} {note : Note} : (level, note) ∈ p.trace minCanonicity 0 capped →
    0 < note.raises → level < limit
  refused : p.run minCanonicity capped = .error limitError ↔
    ∃ depth, (limit, .meets depth) ∈ p.trace minCanonicity 0 capped
  lessened {level depth : Nat} : (level, .enters depth) ∈ p.trace minCanonicity 0 capped →
    0 < depth

/-- The run enters no message variant of a oneof. -/
def Program.EntersNoVariant {α β : Type} [Buf β] (minCanonicity : Canonicity) (p : Program α)
    (capped : Capped β) : Prop :=
  ∀ e ∈ p.trace minCanonicity 0 capped, e.2 ≠ .entersVariant

instance {α β : Type} [Buf β] (minCanonicity : Canonicity) (p : Program α) (capped : Capped β) :
    Decidable (p.EntersNoVariant minCanonicity capped) :=
  inferInstanceAs (Decidable (∀ e ∈ p.trace minCanonicity 0 capped, e.2 ≠ .entersVariant))

theorem Program.Traced.keepsLimit {α β : Type} [Buf β] {way : Way} {limit : Nat} {p : Program α}
    (h : Traced way limit p) {minCanonicity : Canonicity} {capped : Capped β}
    (hvariant : p.EntersNoVariant minCanonicity capped) :
    p.KeepsLimit limit minCanonicity capped := by
  have hfits := h.fits minCanonicity 0 capped hvariant
  rw [Nat.zero_add] at hfits
  refine ⟨fun {level note} hmem hraises => ?_, ?_, fun {level depth} hmem => (hfits _ hmem).2⟩
  · cases note with
    | meets depth => exact absurd hraises (lt_irrefl 0)
    | enters depth =>
      obtain ⟨hsum, hdepth⟩ := hfits _ hmem
      have hsum : level + depth = limit := hsum
      omega
    | entersVariant => exact absurd rfl (hvariant _ hmem)
    | skipsEmpty depth => exact absurd hraises (lt_irrefl 0)
  · rw [h.limit minCanonicity 0 capped]
    constructor
    · rintro ⟨level, hmem⟩
      have hsum : level + 0 = limit := hfits _ hmem
      rw [Nat.add_zero] at hsum
      exact ⟨0, hsum ▸ hmem⟩
    · rintro ⟨depth, hmem⟩
      have hsum : limit + depth = limit := hfits _ hmem
      obtain rfl : depth = 0 := by omega
      exact ⟨limit, hmem⟩

/-- Length-delimited fields with the tag one, in one another. -/
def nestedBytes : Nat → Bytes
  | 0 => []
  | n + 1 => 5 :: (encodeVarint (nestedBytes n).length ++ nestedBytes n)

section
variable {allowed : Features} {M : Type} {codec : MessageCodec M}

/-- Both ways of decoding keep the limit, in every run that enters no message
variant of a oneof. -/
theorem merge_keepsLimit (h : Built allowed (.message codec)) {β : Type} [Buf β]
    (mode : DecodingMode) (minCanonicity : Canonicity) (m : M) (capped : Capped β) :
    ((codec.merge mode recursionLimit m).EntersNoVariant minCanonicity capped →
        (codec.merge mode recursionLimit m).KeepsLimit recursionLimit minCanonicity capped) ∧
      ((codec.mergeDistinguished mode recursionLimit m).EntersNoVariant minCanonicity capped →
        (codec.mergeDistinguished mode recursionLimit m).KeepsLimit recursionLimit minCanonicity
          capped) := by
  have hcounted (way : Way) := h.counted.mergeBy way mode recursionLimit m
  constructor
  · have hrelaxed := hcounted .relaxed
    rw [← codec.asCanonical_merge] at hrelaxed
    exact hrelaxed.of_asCanonical.toTraced.keepsLimit
  · have hdistinguished := hcounted .distinguished
    rw [← codec.mergeDistinguished_eq_mergeBy] at hdistinguished
    exact hdistinguished.toTraced.keepsLimit

/-- In a chain that is one too long, the limit is kept. -/
theorem merge_keepsLimit_chain :
    (Chain.codec.merge .owned recursionLimit (0 : Nat)).KeepsLimit recursionLimit .notCanonical
        (Capped.new (nestedBytes 101)) ∧
      (Chain.codec.mergeDistinguished .owned recursionLimit (0 : Nat)).KeepsLimit recursionLimit
        .notCanonical (Capped.new (nestedBytes 101)) :=
  have hbuilt : Built .all (.message Chain.codec) := Chain.built trivial
  have hkeeps := merge_keepsLimit hbuilt .owned .notCanonical (0 : Nat)
    (Capped.new (nestedBytes 101))
  ⟨hkeeps.1 (by decide +kernel), hkeeps.2 (by decide +kernel)⟩

/-- A number in so many layers, each of which may be left out. -/
def Wrapped : Nat → Type
  | 0 => BitVec 32
  | n + 1 => Option (Wrapped n)

instance decEqWrapped : (n : Nat) → DecidableEq (Wrapped n)
  | 0 => inferInstanceAs (DecidableEq (BitVec 32))
  | n + 1 =>
      have := decEqWrapped n
      inferInstanceAs (DecidableEq (Option (Wrapped n)))

/-- A oneof with one message variant, which has the fields of this message. -/
def variantOf {M : Type} (inner : MessageCodec M) : Oneof (Option M) where
  count := 1
  Ty _ := M
  tag _ := 1
  codec _ := inner.inlined
  view :=
    { toFun := Option.map fun m => ⟨⟨0, Nat.one_pos⟩, m⟩
      invFun := Option.map Sigma.snd
      left_inv := fun
        | none => rfl
        | some _ => rfl
      right_inv := fun
        | none => rfl
        | some ⟨0, _⟩ => rfl }

/-- So many enums, the contents of whose only message variant are the enum
before. The first has a number in its place. -/
def layered : (n : Nat) → MessageCodec (Wrapped n)
  | 0 => u32Field.derived 1
  | n + 1 =>
      (Fields.single (variantOf (layered n)).field).message
        (Fields.single (variantOf (layered n)).field).derived

theorem built_layered (allowed : Features) (n : Nat) : Built allowed (.message (layered n)) := by
  induction n with
  | zero => exact Built.derived (by decide) (built_u32Field allowed)
  | succ n ih =>
      refine .fields ⟨fun _ => List.cons_ne_nil _ _, fun _ => List.nodup_singleton 1,
        List.pairwise_singleton _ _, fun _ _ hmem => ?_⟩ .derived
        (.inr (inferInstanceAs (Subsingleton Unit))) fun _ => .oneof fun _ => .inlined ih
      rw [List.mem_singleton.mp hmem]
      exact (by decide : 1 < 2 ^ 32)

/-- A number that is empty, with all of its layers. -/
def innermost : (n : Nat) → Wrapped n
  | 0 => (0 : BitVec 32)
  | n + 1 => some (innermost n)

/-- Message variants in one another are decoded beyond the limit. A oneof cannot
contain itself in a variant of its own, because the bounds of the derived
decoders would not end, but enums may go on for longer than the limit. -/
theorem variants_pass_limit :
    Built .distinguished (.message (layered 101)) ∧
      (layered 101).decode (nestedBytes 101) = .ok (innermost 101) ∧
      ¬ ((layered 101).merge .owned recursionLimit (layered 101).empty).KeepsLimit recursionLimit
        .notCanonical (Capped.new (nestedBytes 101)) := by
  refine ⟨built_layered _ 101, by decide +kernel, fun hkeeps => ?_⟩
  have hmem : (100, Note.entersVariant) ∈
      ((layered 101).merge .owned recursionLimit (layered 101).empty).trace .notCanonical 0
        (Capped.new (nestedBytes 101)) := by decide +kernel
  exact absurd (hkeeps.entered hmem Nat.one_pos) (lt_irrefl 100)

/-- What distinguished decoding of a buffer comes by. -/
def MessageCodec.PassesDistinguished {β : Type} [Buf β] (codec : MessageCodec M) (note : Note)
    (buf : β) : Prop :=
  (codec.mergeDistinguished .owned recursionLimit codec.empty).Passes note (Capped.new buf)

theorem passesDistinguished_iff {β : Type} [Buf β] {note : Note} {buf : β} :
    codec.PassesDistinguished note buf ↔
      (codec.mergeBy .distinguished .owned recursionLimit codec.empty).Passes note
        (Capped.new buf).slice := by
  rw [MessageCodec.PassesDistinguished, codec.mergeDistinguished_eq_mergeBy, Passes, Passes,
    trace_slice]

theorem decode_eq_limit {β : Type} [Buf β] (buf : β) :
    codec.decode buf = .error limitError ↔
      (codec.mergeBy .relaxed .owned recursionLimit codec.empty).run .notCanonical
        (Capped.new buf).slice = .error limitError := by
  rw [MessageCodec.decode, ← faulted_eq_limit, ← MessageCodec.faulted_decodeCapped_slice,
    faulted_eq_limit, MessageCodec.decodeCapped_eq, Program.result]
  cases (codec.mergeBy .relaxed .owned recursionLimit codec.empty).run .notCanonical
    (Capped.new buf).slice <;> simp [Except.map]

theorem decodeDistinguished_eq_limit {β : Type} [Buf β] (buf : β) :
    codec.decodeDistinguished buf = .error limitError ↔
      (codec.mergeBy .distinguished .owned recursionLimit codec.empty).run .notCanonical
        (Capped.new buf).slice = .error limitError := by
  rw [MessageCodec.decodeDistinguished, MessageCodec.decodeRestricted, ← faulted_eq_limit,
    ← MessageCodec.faulted_decodeRestrictedCapped_slice, faulted_eq_limit,
    MessageCodec.decodeRestrictedCapped_notCanonical, Program.result]
  cases (codec.mergeBy .distinguished .owned recursionLimit codec.empty).run .notCanonical
    (Capped.new buf).slice <;> simp [Except.map]

/-- Outcomes that are the same are alike at the limit. -/
theorem Program.SameOutcome.limit_iff {α δ : Type} {R : α → δ → Prop}
    {result : Except Stop (α × Capped Bytes)} {result' : Except Stop (δ × Capped Bytes)}
    (h : SameOutcome R result result') :
    result = .error limitError ↔ result' = .error limitError := by
  cases result with
  | ok a =>
      cases result' with
      | ok b => simp
      | error stop => exact h.elim
  | error stop =>
      cases result' with
      | ok b => exact h.elim
      | error stop' =>
          have hfault : stop'.fault = stop.fault := h
          simp only [Except.error.injEq, ← fault_eq_limit, hfault]

/-- Relaxed and distinguished decoding fail alike at the recursion limit, unless
the distinguished one refuses an empty value with no depth left, before it
tests the limit. There the relaxed one always fails. -/
theorem limit_agrees (h : Built allowed (.message codec)) {β : Type} [Buf β] (buf : β) :
    (¬codec.PassesDistinguished (.skipsEmpty 0) buf →
        (codec.decode buf = .error limitError ↔
          codec.decodeDistinguished buf = .error limitError)) ∧
      (codec.PassesDistinguished (.skipsEmpty 0) buf → codec.decode buf = .error limitError) := by
  have hskips := h.counted.not_passes_skipsEmpty .owned recursionLimit codec.empty 0
    (Capped.new buf).slice
  rw [decode_eq_limit, decodeDistinguished_eq_limit, passesDistinguished_iff]
  rcases h.locks.lock_ways .owned .owned recursionLimit codec.empty (Capped.new buf).slice with
    ⟨hlimit, hlenient | hskip⟩ | ⟨hsame, hpasses⟩
  · exact hlenient.elim
  · exact ⟨fun hnot => absurd hskip hnot, fun _ => hlimit⟩
  · exact ⟨fun _ => hsame.limit_iff, fun hskip => absurd (hpasses hskip) hskips⟩

end

/-- A tuple that holds one number. -/
def pairField : FieldCodec (BitVec 32) :=
  u32Field.asTuple.tupled.plain
    { isEmpty := u32Field.asTuple.isEmpty, clear := u32Field.asTuple.clear }

/-- A message with a tuple in it, in so many messages. -/
def wrapped : (n : Nat) → MessageCodec (Wrapped n)
  | 0 => pairField.derived 1
  | n + 1 => (wrapped n).nested.optional.derived 1

theorem built_pairField (allowed : Features) : Built allowed (.field pairField) :=
  have htuple : Built allowed (.message u32Field.asTuple) := Built.asTuple (built_u32Field _)
  .plain rfl ⟨htuple.locks.isEmpty, htuple.locks.clear⟩ (.tupled htuple)

theorem built_wrapped (allowed : Features) (n : Nat) : Built allowed (.message (wrapped n)) := by
  induction n with
  | zero => exact Built.derived (by decide) (built_pairField allowed)
  | succ n ih => exact Built.derived (by decide) (.optional (.nested ih))

/-- Two messages deep, nothing is refused at the limit. -/
theorem limit_agrees_wrapped :
    ¬(wrapped 2).PassesDistinguished (.skipsEmpty 0) (nestedBytes 3) ∧
      ((wrapped 2).decode (nestedBytes 3) = .error limitError ↔
        (wrapped 2).decodeDistinguished (nestedBytes 3) = .error limitError) := by
  have hskips : ¬(wrapped 2).PassesDistinguished (.skipsEmpty 0) (nestedBytes 3) := by
    have htrace : ∀ e ∈ ((wrapped 2).mergeDistinguished .owned recursionLimit
        (wrapped 2).empty).trace .notCanonical 0 (Capped.new (nestedBytes 3)),
          e.2 ≠ .skipsEmpty 0 := by decide +kernel
    exact fun ⟨level, hmem⟩ => htrace _ hmem rfl
  exact ⟨hskips, (limit_agrees (built_wrapped .all 2) _).1 hskips⟩

/-- An empty tuple exactly at the limit is an error to relaxed decoding alone. -/
theorem empty_tuple_at_limit :
    Built .distinguished (.message (wrapped 100)) ∧
      (wrapped 100).decode (nestedBytes 101) = .error limitError ∧
      (wrapped 100).decodeDistinguished (nestedBytes 101) ≠ .error limitError :=
  ⟨built_wrapped _ 100, by decide +kernel, by decide +kernel⟩

end Bilrost
