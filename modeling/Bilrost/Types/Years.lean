import Bilrost.Types.DateTime

/-!
The start of a year. The years that count from 1900 are split into cycles of 400
years, centuries and groups of four, each with its leap years; for the years
around the present there is a shorter way, which comes to the same.
-/

namespace Bilrost.Types

open Gregorian Attempt

theorem two_le_trailingZeros (n : Int) : 2 ≤ trailingZeros 64 n ↔ n % 4 = 0 := by
  have hunfold (bits : Nat) : 2 ≤ trailingZeros (bits + 2) n ↔ n % 4 = 0 := by
    simp only [trailingZeros]
    split_ifs with h h' <;> omega
  exact hunfold 62

/-- What is returned of a year: where it starts and whether it is a leap year. -/
def StartsYear (year : Int) (start : I128 × Bool) : Prop :=
  start.1.val = 86400 * daysBeforeYear year ∧ (start.2 = true ↔ IsLeap year)

theorem fastYearToSeconds_returns {year : I64} (hle : 1 ≤ year.val) (hge : year.val ≤ 138) :
    (fastYearToSeconds year).Returns (StartsYear (year.val + 1900)) := by
  unfold fastYearToSeconds
  apply Ranged.fit_bind (by omega) (by omega)
  intro since hsince
  have hleap : decide (2 ≤ trailingZeros 64 since.val) = true ↔ IsLeap (year.val + 1900) := by
    rw [decide_eq_true_iff, two_le_trailingZeros, hsince]
    unfold IsLeap
    omega
  dsimp only
  apply Returns.bind (Q := fun leaps : I64 =>
    leaps.val = leapsTo (year.val + 1899) - leapsTo 1969)
  · unfold IsLeap at hleap
    unfold leapsTo
    split_ifs with h
    · rw [hleap] at h
      apply Ranged.fit_returns (by omega) (by omega)
      intro leaps hleaps
      omega
    · rw [hleap] at h
      apply Returns.ok
      dsimp only
      omega
  · intro leaps hleaps
    have hbounds : -1000 ≤ leaps.val ∧ leaps.val ≤ 1000 := by
      unfold leapsTo at hleaps
      omega
    apply Ranged.fit_bind (by omega) (by omega)
    intro years hyears
    apply Ranged.fit_bind (by omega) (by omega)
    intro yearSeconds hyearSeconds
    apply Ranged.fit_bind (by omega) (by omega)
    intro leapSeconds hleapSeconds
    apply Ranged.fit_bind (by omega) (by omega)
    intro seconds hseconds
    apply Ranged.fit_bind (by omega) (by omega)
    intro wide hwide
    apply Returns.ok
    refine ⟨?_, hleap⟩
    have hyear : year.val + 1900 - 1 = year.val + 1899 := by omega
    rw [daysBeforeYear, hyear]
    dsimp only
    omega

theorem splitYears_returns (years : I64) : (splitYears years).Returns fun split =>
    years.val = 400 * split.1.val + split.2.val ∧ 0 ≤ split.2.val ∧ split.2.val < 400 := by
  have := years.le_val
  have := years.val_le
  obtain ⟨hdiv, hpos, hneg⟩ := tdiv_tmod_spec years.val (by decide : (0 : Int) < 400)
  unfold splitYears
  apply Ranged.fit_bind (by omega) (by omega)
  intro cycles hcycles
  apply Ranged.fit_bind (by omega) (by omega)
  intro rem hrem
  split_ifs with hlt
  · apply Ranged.fit_bind (by omega) (by omega)
    intro cycles' hcycles'
    apply Ranged.fit_bind (by omega) (by omega)
    intro rem' hrem'
    apply Returns.ok
    dsimp only
    omega
  · apply Returns.ok
    dsimp only
    omega

theorem splitCenturies_returns {rem : I64} (hle : 0 ≤ rem.val) (hlt : rem.val < 400) :
    (splitCenturies rem).Returns fun split => rem.val = 100 * split.1.val + split.2.val ∧
      (0 ≤ split.1.val ∧ split.1.val < 4) ∧ 0 ≤ split.2.val ∧ split.2.val < 100 := by
  have hcentury (century : I64) (h : 100 * century.val ≤ rem.val)
      (hnext : rem.val < 100 * century.val + 100) :
      (do let rem ← Ranged.fit (rem.val - 100 * century.val); .ok (century, rem)).Returns
        fun split : I64 × I64 => rem.val = 100 * split.1.val + split.2.val ∧
          (0 ≤ split.1.val ∧ split.1.val < 4) ∧ 0 ≤ split.2.val ∧ split.2.val < 100 := by
    apply Ranged.fit_bind (by omega) (by omega)
    intro rem' hrem'
    apply Returns.ok
    dsimp only
    omega
  unfold splitCenturies
  split_ifs with h200 h300 h100
  · exact hcentury (.lit 3) (by simp only [Ranged.val_lit]; omega) (by simp only [Ranged.val_lit]; omega)
  · exact hcentury (.lit 2) (by simp only [Ranged.val_lit]; omega) (by simp only [Ranged.val_lit]; omega)
  · exact hcentury (.lit 1) (by simp only [Ranged.val_lit]; omega) (by simp only [Ranged.val_lit]; omega)
  · apply Returns.ok
    simp only [Ranged.val_zero]
    omega

/-- The leap years of a cycle up to a year, without the year itself. -/
theorem splitCycle_returns {rem : I64} (hle : 0 ≤ rem.val) (hlt : rem.val < 400) :
    (splitCycle rem).Returns fun split => (split.1 = true ↔ IsLeap rem.val) ∧
      (0 ≤ split.2.1.val ∧ split.2.1.val < 4) ∧ (0 ≤ split.2.2.val ∧ split.2.2.val < 25) ∧
      split.2.2.val + 24 * split.2.1.val - split.1.toNat = leapsTo (rem.val - 1) := by
  unfold splitCycle
  split_ifs with hzero
  · apply Returns.ok
    rw [hzero]
    decide
  · apply (splitCenturies_returns hle hlt).bind
    rintro ⟨centuries, years⟩ ⟨hsplit, hcenturies, hyears⟩
    dsimp only at hsplit hcenturies hyears ⊢
    split_ifs with hnone
    · apply Returns.ok
      unfold IsLeap leapsTo
      simp only [Bool.false_eq_true, false_iff, Ranged.val_zero, Bool.toNat_false]
      omega
    · obtain ⟨hdiv, hpos, -⟩ := tdiv_tmod_spec years.val (by decide : (0 : Int) < 4)
      apply Ranged.fit_bind (by omega) (by omega)
      intro leaps hleaps
      apply Ranged.fit_bind (by omega) (by omega)
      intro rest hrest
      apply Returns.ok
      unfold IsLeap leapsTo
      by_cases hleap : rest.val = 0
      · simp only [hleap, decide_true, Bool.toNat_true, true_iff]
        omega
      · simp only [hleap, decide_false, Bool.toNat_false, Bool.false_eq_true, false_iff]
        omega

theorem slowYearToSeconds_returns {year : I64} (hle : -292277024557 ≤ year.val)
    (hge : year.val ≤ 292277024696) :
    (slowYearToSeconds year).Returns (StartsYear (year.val + 1900)) := by
  unfold slowYearToSeconds
  apply Ranged.fit_bind (by omega) (by omega)
  intro years hyears
  apply (splitYears_returns years).bind
  rintro ⟨cycles, rem⟩ ⟨hsplit, hrem, hlt⟩
  dsimp only at hsplit hrem hlt ⊢
  apply (splitCycle_returns hrem hlt).bind
  rintro ⟨isLeap, centuries, leaps⟩ ⟨hleap, hcenturies, hleaps, hcycle⟩
  dsimp only at hleap hcenturies hleaps hcycle ⊢
  have hbool : 0 ≤ (isLeap.toNat : Int) ∧ (isLeap.toNat : Int) ≤ 1 := by
    cases isLeap <;> decide
  apply Ranged.fit_bind (by omega) (by omega)
  intro cycleLeaps hcycleLeaps
  apply Ranged.fit_bind (by omega) (by omega)
  intro centuryLeaps hcenturyLeaps
  apply Ranged.fit_bind (by omega) (by omega)
  intro added hadded
  apply Ranged.fit_bind (by omega) (by omega)
  intro added' hadded'
  apply Ranged.fit_bind (by omega) (by omega)
  intro leaps' hleaps'
  apply Ranged.fit_bind (by omega) (by omega)
  intro yearSeconds hyearSeconds
  apply Ranged.fit_bind (by omega) (by omega)
  intro leapSeconds hleapSeconds
  apply Ranged.fit_bind (by omega) (by omega)
  intro leapSeconds' hleapSeconds'
  apply Ranged.fit_bind (by omega) (by omega)
  intro leapSeconds'' hleapSeconds''
  apply Ranged.fit_bind (by omega) (by omega)
  intro seconds hseconds
  apply Returns.ok
  have hshift : leapsTo (year.val + 1900 - 1) = 97 * cycles.val + leapsTo (rem.val - 1) + 485 := by
    unfold leapsTo
    omega
  have hbase : leapsTo 1969 = 477 := by decide
  constructor
  · rw [daysBeforeYear, hshift, hbase]
    dsimp only
    omega
  · rw [hleap]
    unfold IsLeap
    omega

/-- The start of a year, for all years that may be asked about. -/
theorem yearToSeconds_returns {year : I64} (hle : -292277022657 ≤ year.val)
    (hge : year.val ≤ 292277026596) : (yearToSeconds year).Returns (StartsYear year.val) := by
  unfold yearToSeconds
  apply Ranged.fit_bind (by omega) (by omega)
  intro since hsince
  have hyear : year.val = since.val + 1900 := by omega
  rw [hyear]
  split_ifs with hfast
  · exact fastYearToSeconds_returns hfast.1 hfast.2
  · exact slowYearToSeconds_returns (by omega) (by omega)

/-- Where both ways apply, they return the same. -/
theorem fastYearToSeconds_eq_slowYearToSeconds {year : I64} (hle : 1 ≤ year.val)
    (hge : year.val ≤ 138) : fastYearToSeconds year = slowYearToSeconds year := by
  obtain ⟨fast, hfast, hstart, hleap⟩ := fastYearToSeconds_returns hle hge
  have hslow : (slowYearToSeconds year).Returns (StartsYear (year.val + 1900)) :=
    slowYearToSeconds_returns (by omega) (by omega)
  obtain ⟨slow, hslow, hstart', hleap'⟩ := hslow
  have hsame : fast = slow := by
    apply Prod.ext
    · exact Ranged.ext (hstart.trans hstart'.symm)
    · exact Bool.eq_iff_iff.mpr (hleap.trans hleap'.symm)
  rw [hfast, hslow, hsame]

/-- Every year of a date-time starts where the calendar has it. No operation on
the way there overflows, and it does not matter which way is taken. -/
theorem year_to_seconds_starts_year {year : I64} (hle : DateTime.minValue.year.val ≤ year.val)
    (hge : year.val ≤ DateTime.maxValue.year.val) :
    (yearToSeconds year).Returns (StartsYear year.val) ∧
      ∀ since : I64, since.val = year.val - 1900 → 1 ≤ since.val → since.val ≤ 138 →
        fastYearToSeconds since = slowYearToSeconds since := by
  constructor
  · exact yearToSeconds_returns hle hge
  · intro since _ hfrom hto
    exact fastYearToSeconds_eq_slowYearToSeconds hfrom hto

theorem year_to_seconds_starts_year_2000 :
    (yearToSeconds (.lit 2000)).Returns (StartsYear 2000) ∧
      ∀ since : I64, since.val = 2000 - 1900 → 1 ≤ since.val → since.val ≤ 138 →
        fastYearToSeconds since = slowYearToSeconds since :=
  @year_to_seconds_starts_year (.lit 2000) (by decide) (by decide)

end Bilrost.Types
