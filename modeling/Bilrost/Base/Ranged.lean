import Mathlib.Tactic

/-!
Integers of a fixed range, and functions that may return nothing or panic. An
operation on such integers is given by its exact result, which either fits or
does not: an operator then panics, a checked operation returns nothing, and a
cast wraps around.
-/

namespace Bilrost

/-- Why a function has no value to return: it returns nothing, or it panics. -/
inductive Halt where
  | nothing
  | panic
  deriving DecidableEq, Repr

/-- A call of a function that may return nothing or panic. -/
abbrev Attempt (α : Type) := Except Halt α

namespace Attempt

variable {α δ : Type}

/-- The question mark behind an option. -/
def ofOption : Option α → Attempt α
  | some x => .ok x
  | none => .error .nothing

/-- `unwrap` -/
def unwrap : Option α → Attempt α
  | some x => .ok x
  | none => .error .panic

/-- An assertion, which panics. -/
def assert (cond : Bool) : Attempt Unit := if cond then .ok () else .error .panic

/-- A condition without which nothing is returned. -/
def ensure (cond : Bool) : Attempt Unit := if cond then .ok () else .error .nothing

/-- It returns, with something or nothing. -/
def Safe (x : Attempt α) : Prop := x ≠ .error .panic

@[simp] theorem bind_eq_ok {x : Attempt α} {f : α → Attempt δ} {y : δ} :
    x >>= f = .ok y ↔ ∃ a, x = .ok a ∧ f a = .ok y := by
  cases x with
  | error halt => simp [Bind.bind, Except.bind]
  | ok a => simp [Bind.bind, Except.bind]

theorem ok_bind (a : α) (f : α → Attempt δ) : (.ok a : Attempt α) >>= f = f a := rfl

@[simp] theorem ofOption_eq_ok {x : Option α} {a : α} : ofOption x = .ok a ↔ x = some a := by
  cases x <;> simp [ofOption]

@[simp] theorem unwrap_eq_ok {x : Option α} {a : α} : unwrap x = .ok a ↔ x = some a := by
  cases x <;> simp [unwrap]

@[simp] theorem assert_eq_ok {cond : Bool} {u : Unit} : assert cond = .ok u ↔ cond = true := by
  cases cond <;> simp [assert]

@[simp] theorem ensure_eq_ok {cond : Bool} {u : Unit} : ensure cond = .ok u ↔ cond = true := by
  cases cond <;> simp [ensure]

theorem safe_ok (a : α) : Safe (.ok a) := by
  rintro ⟨⟩

theorem safe_ofOption (x : Option α) : Safe (ofOption x) := by
  cases x <;> simp [ofOption, Safe]

theorem safe_ensure (cond : Bool) : Safe (ensure cond) := by
  cases cond <;> simp [ensure, Safe]

theorem safe_of_eq_ok {x : Attempt α} {a : α} (h : x = .ok a) : Safe x := h ▸ safe_ok a

/-- It returns a value of which something is known. -/
def Returns (x : Attempt α) (P : α → Prop) : Prop := ∃ a, x = .ok a ∧ P a

theorem Returns.ok {a : α} {P : α → Prop} (h : P a) : Returns (.ok a) P := ⟨a, rfl, h⟩

theorem Returns.bind {x : Attempt α} {f : α → Attempt δ} {Q : α → Prop} {P : δ → Prop}
    (hx : Returns x Q) (hf : ∀ a, Q a → Returns (f a) P) : Returns (x >>= f) P := by
  obtain ⟨a, rfl, ha⟩ := hx
  exact hf a ha

theorem Returns.imp {x : Attempt α} {P Q : α → Prop} (h : Returns x P) (himp : ∀ a, P a → Q a) :
    Returns x Q := by
  obtain ⟨a, ha, hP⟩ := h
  exact ⟨a, ha, himp a hP⟩

theorem Safe.bind {x : Attempt α} {f : α → Attempt δ} (hx : Safe x)
    (hf : ∀ a, x = .ok a → Safe (f a)) : Safe (x >>= f) := by
  cases x with
  | error halt => simpa [Safe, Bind.bind, Except.bind] using hx
  | ok a => exact hf a rfl

end Attempt

/-- The integers from `lo` to `hi`. -/
@[ext] structure Ranged (lo hi : Int) where
  val : Int
  le_val : lo ≤ val
  val_le : val ≤ hi
  deriving DecidableEq, Repr

/-- A range that holds zero, which the range of every machine integer does. -/
class HoldsZero (lo hi : Int) : Prop where
  le_zero : lo ≤ 0
  zero_le : 0 ≤ hi

abbrev I8 := Ranged (-128) 127
abbrev I32 := Ranged (-2147483648) 2147483647
abbrev I64 := Ranged (-9223372036854775808) 9223372036854775807
abbrev I128 := Ranged (-170141183460469231731687303715884105728)
  170141183460469231731687303715884105727
abbrev U8 := Ranged 0 255
abbrev U16 := Ranged 0 65535
abbrev U32 := Ranged 0 4294967295
abbrev U64 := Ranged 0 18446744073709551615

instance holdsZeroI8 : HoldsZero (-128) 127 := ⟨by decide, by decide⟩
instance holdsZeroI32 : HoldsZero (-2147483648) 2147483647 := ⟨by decide, by decide⟩
instance holdsZeroI64 : HoldsZero (-9223372036854775808) 9223372036854775807 :=
  ⟨by decide, by decide⟩
instance holdsZeroI128 : HoldsZero (-170141183460469231731687303715884105728)
    170141183460469231731687303715884105727 := ⟨by decide, by decide⟩
instance holdsZeroU8 : HoldsZero 0 255 := ⟨by decide, by decide⟩
instance holdsZeroU16 : HoldsZero 0 65535 := ⟨by decide, by decide⟩
instance holdsZeroU32 : HoldsZero 0 4294967295 := ⟨by decide, by decide⟩
instance holdsZeroU64 : HoldsZero 0 18446744073709551615 := ⟨by decide, by decide⟩

namespace Ranged

variable {lo hi : Int}

/-- The result of a checked operation that is exactly `n`, or of a conversion. -/
def fit? (n : Int) : Option (Ranged lo hi) :=
  if h : lo ≤ n ∧ n ≤ hi then some ⟨n, h.1, h.2⟩ else none

/-- The result of an operator that is exactly `n`. -/
def fit (n : Int) : Attempt (Ranged lo hi) :=
  if h : lo ≤ n ∧ n ≤ hi then .ok ⟨n, h.1, h.2⟩ else .error .panic

instance [HoldsZero lo hi] : Zero (Ranged lo hi) :=
  ⟨⟨0, HoldsZero.le_zero hi, HoldsZero.zero_le lo⟩⟩

@[simp] theorem val_zero [HoldsZero lo hi] : (0 : Ranged lo hi).val = 0 := rfl

theorem emod_bounds (lo hi : Int) [HoldsZero lo hi] (n : Int) :
    0 ≤ n % (hi - lo + 1) ∧ n % (hi - lo + 1) < hi - lo + 1 := by
  have hle : lo ≤ 0 := HoldsZero.le_zero hi
  have hge : 0 ≤ hi := HoldsZero.zero_le lo
  constructor
  · exact Int.emod_nonneg n (by omega)
  · exact Int.emod_lt_of_pos n (by omega)

/-- A cast of `n`. -/
def wrap [HoldsZero lo hi] (n : Int) : Ranged lo hi where
  val := lo + (n - lo) % (hi - lo + 1)
  le_val := by
    have hmod := emod_bounds lo hi (n - lo)
    omega
  val_le := by
    have hmod := emod_bounds lo hi (n - lo)
    omega

/-- A number that is in the range as it stands. -/
def lit (n : Int) (h : lo ≤ n ∧ n ≤ hi := by decide) : Ranged lo hi := ⟨n, h.1, h.2⟩

@[simp] theorem val_lit (n : Int) (h : lo ≤ n ∧ n ≤ hi) : (lit n h).val = n := rfl

@[simp] theorem fit?_eq_some {n : Int} {x : Ranged lo hi} : fit? n = some x ↔ x.val = n := by
  have hle := x.le_val
  have hge := x.val_le
  unfold fit?
  split_ifs with h
  · rw [Option.some.injEq, Ranged.ext_iff, eq_comm]
  · simp only [false_iff]
    rintro rfl
    exact h ⟨hle, hge⟩

theorem fit?_eq_none {n : Int} : (fit? n : Option (Ranged lo hi)) = none ↔ ¬(lo ≤ n ∧ n ≤ hi) := by
  unfold fit?
  split_ifs with h <;> simp [h]

@[simp] theorem fit_eq_ok {n : Int} {x : Ranged lo hi} : fit n = .ok x ↔ x.val = n := by
  have hle := x.le_val
  have hge := x.val_le
  unfold fit
  split_ifs with h
  · rw [Except.ok.injEq, Ranged.ext_iff, eq_comm]
  · simp only [false_iff]
    rintro rfl
    exact h ⟨hle, hge⟩

theorem fit_of_mem {n : Int} (hle : lo ≤ n) (hge : n ≤ hi) :
    (fit n : Attempt (Ranged lo hi)) = .ok ⟨n, hle, hge⟩ := dif_pos ⟨hle, hge⟩

theorem fit_of_not_mem {n : Int} (h : ¬(lo ≤ n ∧ n ≤ hi)) :
    (fit n : Attempt (Ranged lo hi)) = .error .panic := dif_neg h

/-- An operator whose exact result fits. -/
theorem fit_bind {δ : Type} {n : Int} {f : Ranged lo hi → Attempt δ} {P : δ → Prop} (hle : lo ≤ n)
    (hge : n ≤ hi) (hf : ∀ x, x.val = n → (f x).Returns P) : (fit n >>= f).Returns P := by
  rw [fit_of_mem hle hge]
  exact hf _ rfl

theorem fit_returns {n : Int} {P : Ranged lo hi → Prop} (hle : lo ≤ n) (hge : n ≤ hi)
    (h : ∀ x, x.val = n → P x) : (fit n).Returns P := by
  rw [fit_of_mem hle hge]
  exact .ok (h _ rfl)

@[simp] theorem unwrap_fit? (n : Int) :
    Attempt.unwrap (fit? n : Option (Ranged lo hi)) = fit n := by
  unfold fit? fit
  split_ifs <;> rfl

@[simp] theorem fit_val (x : Ranged lo hi) : fit x.val = .ok x := fit_of_mem x.le_val x.val_le

/-- A cast of a number in the range leaves it as it is. -/
theorem val_wrap [HoldsZero lo hi] {n : Int} (hle : lo ≤ n) (hge : n ≤ hi) :
    (wrap n : Ranged lo hi).val = n := by
  have hmod : (n - lo) % (hi - lo + 1) = n - lo := Int.emod_eq_of_lt (by omega) (by omega)
  calc (wrap n : Ranged lo hi).val = lo + (n - lo) % (hi - lo + 1) := rfl
    _ = n := by omega

end Ranged

/-- What division toward zero is: the remainder has the sign of the number that
is divided. -/
theorem tdiv_tmod_spec (n : Int) {g : Int} (hg : 0 < g) : g * n.tdiv g + n.tmod g = n ∧
    (0 ≤ n → 0 ≤ n.tmod g ∧ n.tmod g < g) ∧ (n ≤ 0 → -g < n.tmod g ∧ n.tmod g ≤ 0) := by
  refine ⟨Int.mul_tdiv_add_tmod n g, fun hn => ?_, fun hn => ?_⟩
  · exact ⟨Int.tmod_nonneg g hn, Int.tmod_lt_of_pos n hg⟩
  · have hneg := Int.tmod_nonneg g (Int.neg_nonneg_of_nonpos hn)
    rw [Int.neg_tmod] at hneg
    exact ⟨Int.lt_tmod_of_pos n hg, Int.neg_nonneg.mp hneg⟩

end Bilrost
