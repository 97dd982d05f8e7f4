import Bilrost.Base.Ranged

/-!
Durations and timestamps: a number of seconds and a number of nanoseconds, which
together are an exact number of nanoseconds. Each such number has at most one
canonical pair, and normalization finds the one that is nearest.
-/

namespace Bilrost.Types

def nanosPerSecond : Int := 1000000000

def nanosMax : Int := nanosPerSecond - 1

@[ext] structure Duration where
  seconds : I64
  nanos : I32
  deriving DecidableEq, Repr

@[ext] structure Timestamp where
  seconds : I64
  nanos : I32
  deriving DecidableEq, Repr

namespace Duration

def isCanonical (d : Duration) : Bool :=
  decide (-nanosMax ≤ d.nanos.val ∧ d.nanos.val ≤ nanosMax) &&
    match d.seconds.val.sign with
    | -1 => decide (d.nanos.val ≤ 0)
    | 1 => decide (0 ≤ d.nanos.val)
    | _ => true

/-- The first part of `normalize`: nanoseconds that make whole seconds. -/
def carryNanos (d : Duration) : Attempt Duration :=
  if d.nanos.val ≤ -nanosPerSecond ∨ nanosPerSecond ≤ d.nanos.val then
    match Ranged.fit? (d.seconds.val + d.nanos.val.tdiv nanosPerSecond) with
    | some seconds => do
        let nanos ← Ranged.fit (d.nanos.val.tmod nanosPerSecond)
        .ok ⟨seconds, nanos⟩
    | none =>
        if d.nanos.val < 0 then .ok ⟨.lit (-9223372036854775808), .lit (-999999999)⟩
        else .ok ⟨.lit 9223372036854775807, .lit 999999999⟩
  else .ok d

/-- The second part: the nanoseconds get the sign of the seconds. -/
def alignSigns (d : Duration) : Attempt Duration :=
  if d.seconds.val < 0 ∧ 0 < d.nanos.val then
    match Ranged.fit? (d.seconds.val + 1) with
    | some seconds => do
        let nanos ← Ranged.fit (d.nanos.val - nanosPerSecond)
        .ok ⟨seconds, nanos⟩
    | none => do
        Attempt.assert (d.seconds.val = 9223372036854775807)
        .ok ⟨d.seconds, .lit 999999999⟩
  else if 0 < d.seconds.val ∧ d.nanos.val < 0 then
    match Ranged.fit? (d.seconds.val - 1) with
    | some seconds => do
        let nanos ← Ranged.fit (d.nanos.val + nanosPerSecond)
        .ok ⟨seconds, nanos⟩
    | none => do
        Attempt.assert (d.seconds.val = -9223372036854775808)
        .ok ⟨d.seconds, .lit (-999999999)⟩
  else .ok d

def normalize (d : Duration) : Attempt Duration := do
  let d ← d.carryNanos
  d.alignSigns

end Duration

namespace Timestamp

def isCanonical (t : Timestamp) : Bool :=
  decide (0 ≤ t.nanos.val ∧ t.nanos.val < nanosPerSecond)

/-- The first part of `normalize`: nanoseconds that make whole seconds. -/
def carryNanos (t : Timestamp) : Attempt Timestamp :=
  if t.nanos.val ≤ -nanosPerSecond ∨ nanosPerSecond ≤ t.nanos.val then
    match Ranged.fit? (t.seconds.val + t.nanos.val.tdiv nanosPerSecond) with
    | some seconds => do
        let nanos ← Ranged.fit (t.nanos.val.tmod nanosPerSecond)
        .ok ⟨seconds, nanos⟩
    | none =>
        if t.nanos.val < 0 then .ok ⟨.lit (-9223372036854775808), 0⟩
        else .ok ⟨.lit 9223372036854775807, .lit 999999999⟩
  else .ok t

/-- The second part: a second is borrowed for negative nanoseconds. -/
def borrowSecond (t : Timestamp) : Attempt Timestamp :=
  if t.nanos.val < 0 then
    match Ranged.fit? (t.seconds.val - 1) with
    | some seconds => do
        let nanos ← Ranged.fit (t.nanos.val + nanosPerSecond)
        .ok ⟨seconds, nanos⟩
    | none => do
        Attempt.assert (t.seconds.val = -9223372036854775808)
        .ok ⟨t.seconds, 0⟩
  else .ok t

def normalize (t : Timestamp) : Attempt Timestamp := do
  let t ← t.carryNanos
  t.borrowSecond

/-- `try_normalize`, which returns a timestamp either way. -/
def tryNormalize (t : Timestamp) : Attempt (Except Timestamp Timestamp) := do
  let after ← t.normalize
  if (after.seconds.val = 9223372036854775807 ∨ after.seconds.val = -9223372036854775808) ∧
      after.seconds ≠ t.seconds then .ok (.error t)
  else .ok (.ok after)

end Timestamp

section
variable {α : Type} (total : α → Int) (IsCanonical : α → Prop)

/-- What normalization is to do, with the exact value that a pair stands for: it
returns the canonical pair of that value or of the nearest one that has any, and
leaves canonical pairs as they are. -/
structure Normalizes (normalize : α → Attempt α) (a : α) : Prop where
  returns : ∃ b, normalize a = .ok b
  canonical {b : α} : normalize a = .ok b → IsCanonical b
  exact {b c : α} : normalize a = .ok b → IsCanonical c → total c = total a → total b = total a
  nearest {b c : α} : normalize a = .ok b → IsCanonical c →
    |total b - total a| ≤ |total c - total a|
  idempotent {b : α} : normalize a = .ok b → normalize b = .ok b
  unchanged : normalize a = .ok a ↔ IsCanonical a

/-- The canonical pairs are those of the values from `least` to `greatest`. -/
structure Covers (least greatest : Int) : Prop where
  mem {a : α} : IsCanonical a → least ≤ total a ∧ total a ≤ greatest
  inj {a b : α} : IsCanonical a → IsCanonical b → total a = total b → a = b

variable {total IsCanonical} {least greatest : Int} {normalize : α → Attempt α}

/-- A function that clamps the exact value normalizes. -/
theorem Covers.normalizes (h : Covers total IsCanonical least greatest)
    (hclamps : ∀ a, ∃ b, normalize a = .ok b ∧ IsCanonical b ∧
      total b = max least (min (total a) greatest)) (a : α) :
    Normalizes total IsCanonical normalize a := by
  have hunchanged {a : α} (hcanon : IsCanonical a) : normalize a = .ok a := by
    obtain ⟨b, hb, hcanonb, htotal⟩ := hclamps a
    obtain ⟨hle, hge⟩ := h.mem hcanon
    rw [min_eq_left hge, max_eq_right hle] at htotal
    rw [hb, h.inj hcanonb hcanon htotal]
  obtain ⟨b, hb, hcanon, htotal⟩ := hclamps a
  have heq {b' : α} (hb' : normalize a = .ok b') : b = b' := Except.ok.inj (hb.symm.trans hb')
  constructor
  · exact ⟨b, hb⟩
  · intro b' hb'
    rw [← heq hb']
    exact hcanon
  · intro b' c hb' hc hsame
    obtain ⟨hle, hge⟩ := h.mem hc
    rw [← heq hb', htotal]
    omega
  · intro b' c hb' hc
    obtain ⟨hle, hge⟩ := h.mem hc
    obtain ⟨hle', hge'⟩ := h.mem hcanon
    rw [← heq hb', htotal, abs_le]
    rcases abs_cases (total c - total a) with habs | habs <;> omega
  · intro b' hb'
    rw [← heq hb']
    exact hunchanged hcanon
  · constructor
    · intro ha
      rw [← heq ha]
      exact hcanon
    · exact hunchanged

end

namespace Duration

/-- The exact number of nanoseconds. -/
def total (d : Duration) : Int := d.seconds.val * nanosPerSecond + d.nanos.val

/-- Less than a second of nanoseconds, with the sign of the seconds. -/
def Canonical (d : Duration) : Prop :=
  (-nanosMax ≤ d.nanos.val ∧ d.nanos.val ≤ nanosMax) ∧
    (d.seconds.val < 0 → d.nanos.val ≤ 0) ∧ (0 < d.seconds.val → 0 ≤ d.nanos.val)

theorem isCanonical_iff {d : Duration} : d.isCanonical = true ↔ d.Canonical := by
  unfold isCanonical Canonical
  rcases lt_trichotomy d.seconds.val 0 with h | h | h
  · rw [Int.sign_eq_neg_one_of_neg h]
    simp [h, h.le.not_gt]
  · simp [h]
  · rw [Int.sign_eq_one_of_pos h]
    simp [h, h.le.not_gt]

def leastTotal : Int := -9223372036854775808999999999

def greatestTotal : Int := 9223372036854775807999999999

theorem covers : Covers total Canonical leastTotal greatestTotal where
  mem {d} h := by
    have := d.seconds.le_val
    have := d.seconds.val_le
    unfold Canonical at h
    unfold total leastTotal greatestTotal
    unfold nanosMax at h
    unfold nanosPerSecond at *
    omega
  inj {d d'} h h' htotal := by
    unfold Canonical at h h'
    unfold total nanosPerSecond at htotal
    unfold nanosMax nanosPerSecond at h h'
    have hseconds : d.seconds.val = d'.seconds.val := by omega
    have hnanos : d.nanos.val = d'.nanos.val := by omega
    exact Duration.ext (Ranged.ext hseconds) (Ranged.ext hnanos)

/-- After the first part the nanoseconds are less than a second. The exact value
stays, unless it is out of range. -/
theorem carryNanos_spec (d : Duration) : ∃ d', d.carryNanos = .ok d' ∧
    (-nanosMax ≤ d'.nanos.val ∧ d'.nanos.val ≤ nanosMax) ∧
      d'.total = max leastTotal (min d.total greatestTotal) := by
  have := d.seconds.le_val
  have := d.seconds.val_le
  obtain ⟨hdiv, hpos, hneg⟩ := tdiv_tmod_spec d.nanos.val (by decide : 0 < nanosPerSecond)
  unfold carryNanos total nanosMax leastTotal greatestTotal
  unfold nanosPerSecond at *
  by_cases hcarry : d.nanos.val ≤ -1000000000 ∨ 1000000000 ≤ d.nanos.val
  · rw [if_pos hcarry]
    cases hfit : (Ranged.fit? (d.seconds.val + d.nanos.val.tdiv 1000000000) : Option I64) with
    | some seconds =>
        have hseconds := Ranged.fit?_eq_some.mp hfit
        have hrange := seconds.le_val
        have hrange' := seconds.val_le
        refine ⟨⟨seconds, ⟨d.nanos.val.tmod 1000000000, by omega, by omega⟩⟩, ?_, ?_, ?_⟩
        · simp
        · dsimp only
          omega
        · dsimp only
          omega
    | none =>
        have hout := Ranged.fit?_eq_none.mp hfit
        dsimp only
        split_ifs with hlt
        · refine ⟨_, rfl, ?_, ?_⟩
          · simp
          · simp only [Ranged.val_lit]
            omega
        · refine ⟨_, rfl, ?_, ?_⟩
          · simp
          · simp only [Ranged.val_lit]
            omega
  · rw [if_neg hcarry]
    refine ⟨d, rfl, ?_, ?_⟩ <;> omega

/-- The second part finds the canonical duration of the same value. -/
theorem alignSigns_spec {d : Duration} (hle : -nanosMax ≤ d.nanos.val)
    (hge : d.nanos.val ≤ nanosMax) :
    ∃ d', d.alignSigns = .ok d' ∧ d'.Canonical ∧ d'.total = d.total := by
  have := d.seconds.le_val
  have := d.seconds.val_le
  unfold nanosMax nanosPerSecond at hle hge
  unfold alignSigns Canonical total nanosMax nanosPerSecond
  split_ifs with hneg hpos
  · have hfit : (Ranged.fit? (d.seconds.val + 1) : Option I64) =
        some ⟨d.seconds.val + 1, by omega, by omega⟩ := Ranged.fit?_eq_some.mpr rfl
    refine ⟨⟨⟨d.seconds.val + 1, by omega, by omega⟩,
      ⟨d.nanos.val - 1000000000, by omega, by omega⟩⟩, ?_, ?_, ?_⟩
    · simp [hfit]
    · dsimp only
      omega
    · dsimp only
      omega
  · have hfit : (Ranged.fit? (d.seconds.val - 1) : Option I64) =
        some ⟨d.seconds.val - 1, by omega, by omega⟩ := Ranged.fit?_eq_some.mpr rfl
    refine ⟨⟨⟨d.seconds.val - 1, by omega, by omega⟩,
      ⟨d.nanos.val + 1000000000, by omega, by omega⟩⟩, ?_, ?_, ?_⟩
    · simp [hfit]
    · dsimp only
      omega
    · dsimp only
      omega
  · refine ⟨d, rfl, ?_, rfl⟩
    omega

theorem normalize_spec (d : Duration) : ∃ d', d.normalize = .ok d' ∧ d'.Canonical ∧
    d'.total = max leastTotal (min d.total greatestTotal) := by
  obtain ⟨carried, hcarried, ⟨hle, hge⟩, htotal⟩ := d.carryNanos_spec
  obtain ⟨d', hd', hcanon, htotal'⟩ := alignSigns_spec hle hge
  refine ⟨d', ?_, hcanon, htotal'.trans htotal⟩
  rw [normalize, hcarried]
  exact hd'

theorem normalizes (d : Duration) :
    Normalizes total Canonical normalize d :=
  covers.normalizes normalize_spec d

end Duration

namespace Timestamp

/-- The exact number of nanoseconds since the epoch. -/
def total (t : Timestamp) : Int := t.seconds.val * nanosPerSecond + t.nanos.val

/-- Less than a second of nanoseconds, which count forward in time. -/
def Canonical (t : Timestamp) : Prop := 0 ≤ t.nanos.val ∧ t.nanos.val < nanosPerSecond

theorem isCanonical_iff {t : Timestamp} : t.isCanonical = true ↔ t.Canonical := decide_eq_true_iff

def leastTotal : Int := -9223372036854775808000000000

def greatestTotal : Int := 9223372036854775807999999999

theorem covers : Covers total Canonical leastTotal greatestTotal where
  mem {t} h := by
    have := t.seconds.le_val
    have := t.seconds.val_le
    unfold Canonical at h
    unfold total leastTotal greatestTotal
    unfold nanosPerSecond at *
    omega
  inj {t t'} h h' htotal := by
    unfold Canonical at h h'
    unfold total at htotal
    unfold nanosPerSecond at *
    have hseconds : t.seconds.val = t'.seconds.val := by omega
    have hnanos : t.nanos.val = t'.nanos.val := by omega
    exact Timestamp.ext (Ranged.ext hseconds) (Ranged.ext hnanos)

/-- After the first part the nanoseconds are less than a second. The exact value
stays, unless it is out of range even so. -/
theorem carryNanos_spec (t : Timestamp) : ∃ t', t.carryNanos = .ok t' ∧
    (-nanosPerSecond < t'.nanos.val ∧ t'.nanos.val < nanosPerSecond) ∧
      max leastTotal (min t'.total greatestTotal) = max leastTotal (min t.total greatestTotal) := by
  have := t.seconds.le_val
  have := t.seconds.val_le
  obtain ⟨hdiv, hpos, hneg⟩ := tdiv_tmod_spec t.nanos.val (by decide : 0 < nanosPerSecond)
  unfold carryNanos total leastTotal greatestTotal
  unfold nanosPerSecond at *
  by_cases hcarry : t.nanos.val ≤ -1000000000 ∨ 1000000000 ≤ t.nanos.val
  · rw [if_pos hcarry]
    cases hfit : (Ranged.fit? (t.seconds.val + t.nanos.val.tdiv 1000000000) : Option I64) with
    | some seconds =>
        have hseconds := Ranged.fit?_eq_some.mp hfit
        refine ⟨⟨seconds, ⟨t.nanos.val.tmod 1000000000, by omega, by omega⟩⟩, ?_, ?_, ?_⟩
        · simp
        · dsimp only
          omega
        · dsimp only
          omega
    | none =>
        have hout := Ranged.fit?_eq_none.mp hfit
        dsimp only
        split_ifs with hlt
        · refine ⟨_, rfl, ?_, ?_⟩
          · simp
          · simp only [Ranged.val_lit, Ranged.val_zero]
            omega
        · refine ⟨_, rfl, ?_, ?_⟩
          · simp
          · simp only [Ranged.val_lit]
            omega
  · rw [if_neg hcarry]
    exact ⟨t, rfl, by omega, rfl⟩

/-- The second part finds the canonical timestamp of the same instant, or the
earliest one. -/
theorem borrowSecond_spec {t : Timestamp} (hgt : -nanosPerSecond < t.nanos.val)
    (hlt : t.nanos.val < nanosPerSecond) : ∃ t', t.borrowSecond = .ok t' ∧
      t'.Canonical ∧ t'.total = max leastTotal (min t.total greatestTotal) := by
  have := t.seconds.le_val
  have := t.seconds.val_le
  unfold borrowSecond Canonical total leastTotal greatestTotal
  unfold nanosPerSecond at *
  split_ifs with hneg
  · cases hfit : (Ranged.fit? (t.seconds.val - 1) : Option I64) with
    | some seconds =>
        have hseconds := Ranged.fit?_eq_some.mp hfit
        have := seconds.le_val
        refine ⟨⟨seconds, ⟨t.nanos.val + 1000000000, by omega, by omega⟩⟩, ?_, ?_, ?_⟩
        · simp
        · dsimp only
          omega
        · dsimp only
          omega
    | none =>
        have hout := Ranged.fit?_eq_none.mp hfit
        have hleast : t.seconds.val = -9223372036854775808 := by omega
        refine ⟨⟨t.seconds, 0⟩, ?_, ?_, ?_⟩
        · simp [hleast]
        · simp
        · simp only [Ranged.val_zero]
          omega
  · refine ⟨t, rfl, ?_, ?_⟩ <;> omega

theorem normalize_spec (t : Timestamp) : ∃ t', t.normalize = .ok t' ∧ t'.Canonical ∧
    t'.total = max leastTotal (min t.total greatestTotal) := by
  obtain ⟨carried, hcarried, ⟨hgt, hlt⟩, htotal⟩ := t.carryNanos_spec
  obtain ⟨t', ht', hcanon, htotal'⟩ := borrowSecond_spec hgt hlt
  refine ⟨t', ?_, hcanon, htotal'.trans htotal⟩
  rw [normalize, hcarried]
  exact ht'

theorem normalizes (t : Timestamp) :
    Normalizes total Canonical normalize t :=
  covers.normalizes normalize_spec t

/-- An instant has a canonical timestamp if it is between the bounds. -/
theorem representable_iff {t : Timestamp} : (∃ c : Timestamp, c.Canonical ∧ c.total = t.total) ↔
    leastTotal ≤ t.total ∧ t.total ≤ greatestTotal := by
  constructor
  · rintro ⟨c, hc, htotal⟩
    rw [← htotal]
    exact covers.mem hc
  · rintro ⟨hle, hge⟩
    obtain ⟨c, -, hc, htotal⟩ := t.normalize_spec
    rw [min_eq_left hge, max_eq_right hle] at htotal
    exact ⟨c, hc, htotal⟩

end Timestamp

/-- Normalization never panics. It returns the canonical value that is exact, or
nearest where none is, and changes nothing that `is_canonical` accepts. -/
theorem normalize_is_exact :
    (∀ d : Duration, Normalizes Duration.total Duration.Canonical Duration.normalize d ∧
      (d.normalize = .ok d ↔ d.isCanonical = true)) ∧
    ∀ t : Timestamp, Normalizes Timestamp.total Timestamp.Canonical Timestamp.normalize t ∧
      (t.normalize = .ok t ↔ t.isCanonical = true) := by
  constructor
  · intro d
    exact ⟨d.normalizes, d.normalizes.unchanged.trans Duration.isCanonical_iff.symm⟩
  · intro t
    exact ⟨t.normalizes, t.normalizes.unchanged.trans Timestamp.isCanonical_iff.symm⟩

namespace Timestamp

/-- What `try_normalize` is to return: the canonical timestamp of the same
instant if there is one, and else the timestamp that it was given. -/
def TriesExactly (t : Timestamp) : Prop :=
  (∃ c : Timestamp, c.Canonical ∧ c.total = t.total ∧ t.tryNormalize = .ok (.ok c)) ∨
    (¬∃ c : Timestamp, c.Canonical ∧ c.total = t.total) ∧ t.tryNormalize = .ok (.error t)

/-- Whole seconds in the nanoseconds. -/
def carry (t : Timestamp) : Int := t.nanos.val / nanosPerSecond

/-- What `try_normalize` takes for an overflow. -/
def Saturated (t after : Timestamp) : Prop :=
  (after.seconds.val = 9223372036854775807 ∨ after.seconds.val = -9223372036854775808) ∧
    after.seconds ≠ t.seconds

theorem tryNormalize_of_saturated {t after : Timestamp} (h : t.normalize = .ok after)
    (hsaturated : t.Saturated after) : t.tryNormalize = .ok (.error t) := by
  rw [tryNormalize, h]
  exact if_pos hsaturated

theorem tryNormalize_of_not_saturated {t after : Timestamp} (h : t.normalize = .ok after)
    (hsaturated : ¬t.Saturated after) : t.tryNormalize = .ok (.ok after) := by
  rw [tryNormalize, h]
  exact if_neg hsaturated

/-- `try_normalize` is right if it finds an overflow exactly where there is one. -/
theorem triesExactly_iff {t after : Timestamp} (h : t.normalize = .ok after) : t.TriesExactly ↔
    ((leastTotal ≤ t.total ∧ t.total ≤ greatestTotal) ↔ ¬t.Saturated after) := by
  obtain ⟨c, hc, hcanon, htotal⟩ := t.normalize_spec
  obtain rfl : after = c := Except.ok.inj (h.symm.trans hc)
  rw [← representable_iff]
  by_cases hsaturated : t.Saturated after
  · have hresult := tryNormalize_of_saturated h hsaturated
    simp only [TriesExactly, hresult, hsaturated, Except.ok.injEq, reduceCtorEq, and_false,
      exists_false, false_or, and_true, not_true_eq_false, iff_false]
  · have hresult := tryNormalize_of_not_saturated h hsaturated
    simp only [TriesExactly, hresult, hsaturated, Except.ok.injEq, reduceCtorEq, and_false,
      or_false, not_false_eq_true, iff_true]
    constructor
    · rintro ⟨c, hc, hsame, -⟩
      exact ⟨c, hc, hsame⟩
    · rintro ⟨c, hc, hsame⟩
      exact ⟨after, hcanon, t.normalizes.exact h hc hsame, rfl⟩

/-- `try_normalize` takes an extreme number of seconds for an overflow if it was
not there before, and for none if it was. -/
theorem try_normalize_exact_iff (t : Timestamp) : t.TriesExactly ↔
    t.carry = 0 ∨
      (t.seconds.val + t.carry ≠ -9223372036854775808 ∧
        t.seconds.val + t.carry ≠ 9223372036854775807) ∧
      ¬(t.seconds.val = -9223372036854775808 ∧ t.carry < 0) ∧
      ¬(t.seconds.val = 9223372036854775807 ∧ 0 < t.carry) := by
  obtain ⟨c, hnormalize, ⟨hnonneg, hlt⟩, htotal⟩ := t.normalize_spec
  have := t.seconds.le_val
  have := t.seconds.val_le
  have := c.seconds.le_val
  have := c.seconds.val_le
  rw [triesExactly_iff hnormalize, Saturated, ne_eq, Ranged.ext_iff]
  unfold total leastTotal greatestTotal at *
  unfold carry
  unfold nanosPerSecond at *
  omega

/-- The earliest timestamp, with a second too many and a second's nanoseconds
too few, is not found. -/
theorem try_normalize_refuses_earliest :
    ¬∀ t : Timestamp, t.TriesExactly := by
  intro hall
  let earliest : Timestamp := ⟨.lit (-9223372036854775808), 0⟩
  let t : Timestamp := ⟨.lit (-9223372036854775807), .lit (-1000000000)⟩
  have hcanon : earliest.Canonical := ⟨by decide, by decide⟩
  have hsame : earliest.total = t.total := by decide
  have hrefused : t.tryNormalize = .ok (.error t) := by decide
  rcases hall t with ⟨c, -, -, hfound⟩ | ⟨hnone, -⟩
  · rw [hrefused] at hfound
    cases hfound
  · exact hnone ⟨earliest, hcanon, hsame⟩

end Timestamp

end Bilrost.Types
