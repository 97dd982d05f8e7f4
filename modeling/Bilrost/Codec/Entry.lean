import Bilrost.Codec.MessageWays
import Bilrost.Decode.Lockstep

/-!
The calls that decode whole buffers, as runs of the loop over fields. What they
return is decided by the bytes that the buffer holds.
-/

namespace Bilrost

open Program

/-- What a call returns, where errors matter as far as they are about the depth
of recursion or not. -/
def faulted {α : Type} (result : Except Stop α) : Except Fault α := result.mapError Stop.fault

@[simp] theorem faulted_ok {α : Type} (value : α) : faulted (.ok value) = .ok value := rfl

@[simp] theorem faulted_error {α : Type} (stop : Stop) :
    faulted (.error stop : Except Stop α) = .error stop.fault := rfl

theorem faulted_bind {α δ : Type} (result : Except Stop α) (f : α → Except Stop δ) :
    faulted (result.bind f) = (faulted result).bind fun value => faulted (f value) := by
  cases result <;> rfl

theorem faulted_map {α δ : Type} (result : Except Stop α) (f : α → δ) :
    faulted (result.map f) = (faulted result).map f := by
  cases result <;> rfl

theorem faulted_eq_ok {α : Type} {result : Except Stop α} {value : α} :
    faulted result = .ok value ↔ result = .ok value := by
  cases result <;> simp

theorem fault_eq_limit {stop : Stop} : stop.fault = .limit ↔ stop = limitError := by
  cases stop with
  | error kind => cases kind <;> simp [Stop.fault, limitError]
  | outOfRounds => simp [Stop.fault, limitError]

theorem faulted_eq_limit {α : Type} {result : Except Stop α} :
    faulted result = .error .limit ↔ result = .error limitError := by
  cases result <;> simp [fault_eq_limit]

section
variable {β : Type} [Buf β]

/-- The value that a run on a capped buffer returns. -/
def Program.result {α : Type} (minCanonicity : Canonicity) (p : Program α) (capped : Capped β) :
    Except Stop α :=
  (p.run minCanonicity capped).map Prod.fst

/-- The result of a run depends on the bytes alone. -/
theorem faulted_result_slice {α : Type} (minCanonicity : Canonicity) (p : Program α)
    (capped : Capped β) :
    faulted (p.result minCanonicity capped.slice) = faulted (p.result minCanonicity capped) := by
  have hslice := run_slice minCanonicity p capped
  simp only [Program.result]
  cases hrun : p.run minCanonicity capped with
  | ok result =>
    cases hrun' : p.run minCanonicity capped.slice with
    | ok result' =>
      rw [hrun, hrun'] at hslice
      simp [Except.map, hslice.1]
    | error stop' =>
      rw [hrun, hrun'] at hslice
      exact hslice.elim
  | error stop =>
    cases hrun' : p.run minCanonicity capped.slice with
    | ok result' =>
      rw [hrun, hrun'] at hslice
      exact hslice.elim
    | error stop' =>
      rw [hrun, hrun'] at hslice
      simp only [Except.map, faulted_error, Except.error.injEq]
      exact hslice.symm

theorem Program.SameOutcome.faulted_eq {α : Type} {minCanonicity : Canonicity}
    {slice : Capped Bytes} {p q : Program α}
    (h : SameOutcome Eq (p.run minCanonicity slice) (q.run minCanonicity slice)) :
    faulted (p.result minCanonicity slice) = faulted (q.result minCanonicity slice) := by
  simp only [Program.result]
  revert h
  cases p.run minCanonicity slice with
  | error stop =>
    cases q.run minCanonicity slice with
    | error stop' => exact fun h => congrArg Except.error (Eq.symm h)
    | ok b => exact False.elim
  | ok a =>
    cases q.run minCanonicity slice with
    | error stop => exact False.elim
    | ok b => exact fun h => congrArg Except.ok h.1

/-- Two programs in lockstep return the same, unless the first one stops at the
limit and the second does not. -/
theorem Program.LockAt.result {α δ : Type} {lenient : Prop} {R : α → δ → Prop}
    {slice : Capped Bytes} {p : Program α} {q : Program δ} (h : LockAt lenient R slice p q)
    (hlimit : p.result .notCanonical slice ≠ .error limitError) :
    match p.result .notCanonical slice, q.result .notCanonical slice with
    | .ok x, .ok y => R x y
    | .error stop, .error stop' => stop'.fault = stop.fault
    | _, _ => False := by
  rcases h with ⟨hlimit', -⟩ | ⟨hsame, -⟩
  · rw [Program.result, hlimit'] at hlimit
    exact absurd rfl hlimit
  · simp only [Program.result]
    revert hsame
    cases p.run .notCanonical slice with
    | error stop => cases q.run .notCanonical slice <;> exact id
    | ok a =>
      cases q.run .notCanonical slice with
      | error stop => exact id
      | ok b => exact And.left

namespace MessageCodec

variable {M : Type} (codec : MessageCodec M)

theorem decodeCapped_eq (mode : DecodingMode) (capped : Capped β) :
    codec.decodeCapped mode capped =
      ((codec.mergeBy .relaxed mode recursionLimit codec.empty).result .notCanonical capped).map
        Prod.fst := by
  rw [decodeCapped, ← asCanonical_merge, Program.result, asCanonical, run_bind]
  cases (codec.merge mode recursionLimit codec.empty).run .notCanonical capped <;> rfl

theorem decodeRestrictedCapped_eq (mode : DecodingMode) (capped : Capped β)
    (restrictTo : Canonicity) :
    codec.decodeRestrictedCapped mode capped restrictTo =
      ((codec.mergeBy .distinguished mode recursionLimit codec.empty).result restrictTo
        capped).bind fun decoded => ((check restrictTo decoded.2).mapError Stop.error).map
          fun canon => (decoded.1, canon) := by
  rw [decodeRestrictedCapped, ← mergeDistinguished_eq_mergeBy, Program.result]
  cases (codec.mergeDistinguished mode recursionLimit codec.empty).run restrictTo capped with
  | error stop => rfl
  | ok result =>
    simp only [Bind.bind, Except.bind, Except.map]

/-- Without a restriction, what the loop returns is returned. -/
theorem decodeRestrictedCapped_notCanonical (mode : DecodingMode) (capped : Capped β) :
    codec.decodeRestrictedCapped mode capped .notCanonical =
      (codec.mergeBy .distinguished mode recursionLimit codec.empty).result .notCanonical
        capped := by
  rw [decodeRestrictedCapped_eq]
  cases (codec.mergeBy .distinguished mode recursionLimit codec.empty).result .notCanonical
      capped with
  | error stop => rfl
  | ok decoded => simp [Except.bind, check_of_le (Canonicity.notCanonical_le decoded.2),
      Except.mapError, Except.map]

/-- Decoding a whole buffer in one way or the other. The relaxed way does not
look at canonicities. -/
def decodeAs (way : Way) (mode : DecodingMode) (restrictTo : Canonicity) (buf : β) :
    Except Stop (M × Canonicity) :=
  match way with
  | .relaxed => (codec.decodeCapped mode (Capped.new buf)).map fun m => (m, .canonical)
  | .distinguished => codec.decodeRestrictedCapped mode (Capped.new buf) restrictTo

theorem faulted_decodeCapped_slice (mode : DecodingMode) (capped : Capped β) :
    faulted (codec.decodeCapped mode capped.slice) = faulted (codec.decodeCapped mode capped) := by
  have hresult := faulted_result_slice .notCanonical
    (codec.mergeBy .relaxed mode recursionLimit codec.empty) capped
  rw [decodeCapped_eq, decodeCapped_eq, faulted_map, faulted_map, hresult]

theorem faulted_decodeRestrictedCapped_slice (mode : DecodingMode) (capped : Capped β)
    (restrictTo : Canonicity) :
    faulted (codec.decodeRestrictedCapped mode capped.slice restrictTo) =
      faulted (codec.decodeRestrictedCapped mode capped restrictTo) := by
  have hresult := faulted_result_slice restrictTo
    (codec.mergeBy .distinguished mode recursionLimit codec.empty) capped
  rw [decodeRestrictedCapped_eq, decodeRestrictedCapped_eq, faulted_bind, faulted_bind, hresult]

end MessageCodec

end

end Bilrost
