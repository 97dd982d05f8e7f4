import Bilrost.Types.Normalize

/-!
Conversions from and to the types of the standard library: its durations, which
have no sign, and its system times, which are taken to be pairs of seconds and
nanoseconds like timestamps.
-/

namespace Bilrost.Types

/-- A number of nanoseconds that is less than a second. -/
abbrev SubsecNanos := Ranged 0 999999999

instance holdsZeroSubsecNanos : HoldsZero 0 999999999 := ⟨by decide, by decide⟩

/-- `core::time::Duration` -/
@[ext] structure CoreDuration where
  secs : U64
  nanos : SubsecNanos
  deriving DecidableEq, Repr

namespace CoreDuration

def total (d : CoreDuration) : Int := d.secs.val * nanosPerSecond + d.nanos.val

/-- `new`, which carries whole seconds. -/
def new (secs : U64) (nanos : U32) : Attempt CoreDuration := do
  let secs ← Ranged.fit (secs.val + nanos.val / nanosPerSecond)
  let nanos ← Ranged.fit (nanos.val % nanosPerSecond)
  .ok ⟨secs, nanos⟩

def fromSecs (secs : U64) : CoreDuration := ⟨secs, 0⟩

def fromNanos (nanos : U64) : CoreDuration where
  secs := ⟨nanos.val / nanosPerSecond, by
    have := nanos.le_val
    have := nanos.val_le
    unfold nanosPerSecond
    omega, by
    have := nanos.le_val
    have := nanos.val_le
    unfold nanosPerSecond
    omega⟩
  nanos := ⟨nanos.val % nanosPerSecond, by unfold nanosPerSecond; omega, by
    unfold nanosPerSecond; omega⟩

end CoreDuration

/-- A platform's `SystemTime`, as the time since its epoch. -/
@[ext] structure SystemTime where
  secs : I64
  nanos : SubsecNanos
  deriving DecidableEq, Repr

namespace SystemTime

/-- The exact number of nanoseconds since the epoch. -/
def total (st : SystemTime) : Int := st.secs.val * nanosPerSecond + st.nanos.val

def unixEpoch : SystemTime := ⟨0, 0⟩

/-- The time of an exact number of nanoseconds, if there is one. -/
def ofTotal? (total : Int) : Option SystemTime := do
  let secs ← Ranged.fit? (total / nanosPerSecond)
  let nanos ← Ranged.fit? (total % nanosPerSecond)
  some ⟨secs, nanos⟩

def checkedAdd (st : SystemTime) (d : CoreDuration) : Option SystemTime := ofTotal? (st.total + d.total)

def checkedSub (st : SystemTime) (d : CoreDuration) : Option SystemTime := ofTotal? (st.total - d.total)

/-- How much later than `earlier` the time is. -/
def elapsed (st earlier : SystemTime) (h : earlier.total ≤ st.total) : CoreDuration :=
  have hbounds : 0 ≤ st.total - earlier.total ∧
      st.total - earlier.total ≤ 18446744073709551615999999999 := by
    have := st.secs.val_le
    have := st.nanos.val_le
    have := earlier.secs.le_val
    have := earlier.nanos.le_val
    unfold total nanosPerSecond at *
    omega
  { secs := ⟨(st.total - earlier.total) / nanosPerSecond, by unfold nanosPerSecond; omega, by
      unfold nanosPerSecond; omega⟩
    nanos := ⟨(st.total - earlier.total) % nanosPerSecond, by unfold nanosPerSecond; omega, by
      unfold nanosPerSecond; omega⟩ }

/-- `duration_since`, whose error is how much earlier the time is. -/
def durationSince (st earlier : SystemTime) : Except CoreDuration CoreDuration :=
  if h : earlier.total ≤ st.total then .ok (st.elapsed earlier h)
  else .error (earlier.elapsed st (le_of_not_ge h))

end SystemTime

inductive DurationError where
  | parseFailure
  | negativeDuration (magnitude : CoreDuration)
  | outOfRange
  deriving DecidableEq, Repr

inductive TimestampError where
  | outOfSystemRange (timestamp : Timestamp)
  | parseFailure
  | invalidDateTime
  deriving DecidableEq, Repr

/-- `Neg for Duration` -/
def Duration.neg (d : Duration) : Attempt Duration := do
  let seconds ← Ranged.fit (-d.seconds.val)
  let nanos ← Ranged.fit (-d.nanos.val)
  .ok ⟨seconds, nanos⟩

/-- `TryFrom<time::Duration> for Duration` -/
def Duration.tryFrom (duration : CoreDuration) : Attempt (Except DurationError Duration) :=
  match Ranged.fit? duration.secs.val with
  | some seconds => do
      let d : Duration := ⟨seconds, .wrap duration.nanos.val⟩
      let d ← d.normalize
      .ok (.ok d)
  | none => .ok (.error .outOfRange)

/-- `TryFrom<Duration> for time::Duration` -/
def CoreDuration.tryFrom (duration : Duration) : Attempt (Except DurationError CoreDuration) := do
  let duration ← duration.normalize
  if 0 ≤ duration.seconds.val ∧ 0 ≤ duration.nanos.val then do
    let d ← CoreDuration.new (.wrap duration.seconds.val) (.wrap duration.nanos.val)
    .ok (.ok d)
  else do
    let seconds : I64 ← Ranged.fit (-duration.seconds.val)
    let nanos : I32 ← Ranged.fit (-duration.nanos.val)
    let d ← CoreDuration.new (.wrap seconds.val) (.wrap nanos.val)
    .ok (.error (.negativeDuration d))

/-- `From<SystemTime> for Timestamp`, so much after the epoch. -/
def Timestamp.afterEpoch (duration : CoreDuration) : Attempt Timestamp := do
  let seconds ← Attempt.unwrap (Ranged.fit? duration.secs.val)
  .ok ⟨seconds, .wrap duration.nanos.val⟩

/-- `From<SystemTime> for Timestamp`, so much before the epoch. -/
def Timestamp.beforeEpoch (duration : CoreDuration) : Attempt Timestamp := do
  let seconds : I64 ← Attempt.unwrap (Ranged.fit? duration.secs.val)
  let nanos : I32 := .wrap duration.nanos.val
  let negated : I64 ← Ranged.fit (-seconds.val)
  if nanos.val = 0 then .ok ⟨negated, 0⟩
  else do
    let seconds ← Ranged.fit (negated.val - 1)
    let nanos ← Ranged.fit (1000000000 - nanos.val)
    .ok ⟨seconds, nanos⟩

/-- `From<SystemTime> for Timestamp` -/
def Timestamp.fromSystemTime (systemTime : SystemTime) : Attempt Timestamp :=
  match systemTime.durationSince SystemTime.unixEpoch with
  | .ok duration => afterEpoch duration
  | .error duration => beforeEpoch duration

/-- `TryFrom<Timestamp> for SystemTime`, behind the whole seconds. -/
def SystemTime.addNanos (origTimestamp timestamp : Timestamp) (systemTime : Option SystemTime) :
    Except TimestampError SystemTime :=
  match systemTime.bind fun systemTime =>
      systemTime.checkedAdd (.fromNanos (.wrap timestamp.nanos.val)) with
  | some systemTime => .ok systemTime
  | none => .error (.outOfSystemRange origTimestamp)

/-- `TryFrom<Timestamp> for SystemTime` -/
def SystemTime.tryFrom (origTimestamp : Timestamp) : Attempt (Except TimestampError SystemTime) := do
  let timestamp ← origTimestamp.normalize
  if 0 ≤ timestamp.seconds.val then
    .ok (addNanos origTimestamp timestamp
      (unixEpoch.checkedAdd (.fromSecs (.wrap timestamp.seconds.val))))
  else
    match (Ranged.fit? (-timestamp.seconds.val) : Option I64) with
    | some seconds =>
        .ok (addNanos origTimestamp timestamp
          (unixEpoch.checkedSub (.fromSecs (.wrap seconds.val))))
    | none => .ok (.error (.outOfSystemRange timestamp))

/-- A core duration is made of the exact number of nanoseconds. -/
theorem CoreDuration.new_eq_ok {secs : U64} {nanos : U32} {d : CoreDuration} :
    new secs nanos = .ok d ↔ d.total = secs.val * nanosPerSecond + nanos.val := by
  have := d.nanos.le_val
  have := d.nanos.val_le
  simp only [new, Attempt.bind_eq_ok, Ranged.fit_eq_ok, Except.ok.injEq]
  unfold total
  unfold nanosPerSecond
  constructor
  · rintro ⟨secs', hsecs, nanos', hnanos, rfl⟩
    dsimp only
    omega
  · intro htotal
    exact ⟨d.secs, by omega, d.nanos, by omega, rfl⟩

namespace Duration

/-- Negation overflows at the two numbers that have no opposite. -/
theorem neg_eq_ok_iff (d : Duration) : (∃ d', d.neg = .ok d' ∧ d'.total = -d.total) ↔
    d.seconds.val ≠ -9223372036854775808 ∧ d.nanos.val ≠ -2147483648 := by
  have := d.seconds.le_val
  have := d.seconds.val_le
  have := d.nanos.le_val
  have := d.nanos.val_le
  simp only [neg, Attempt.bind_eq_ok, Ranged.fit_eq_ok, Except.ok.injEq]
  constructor
  · rintro ⟨d', ⟨seconds, hseconds, nanos, hnanos, rfl⟩, -⟩
    have := seconds.val_le
    have := nanos.val_le
    omega
  · rintro ⟨hseconds, hnanos⟩
    refine ⟨⟨⟨-d.seconds.val, by omega, by omega⟩, ⟨-d.nanos.val, by omega, by omega⟩⟩,
      ⟨_, rfl, _, rfl, rfl⟩, ?_⟩
    unfold total nanosPerSecond
    dsimp only
    omega

/-- Canonical parts have the sign of the whole. -/
theorem Canonical.nonneg_iff {d : Duration} (h : d.Canonical) :
    0 ≤ d.seconds.val ∧ 0 ≤ d.nanos.val ↔ 0 ≤ d.total := by
  unfold Canonical nanosMax at h
  unfold total
  unfold nanosPerSecond at *
  omega

end Duration

namespace CoreDuration

variable {d n : Duration}

theorem tryFrom_of_nonneg (h : d.normalize = .ok n) (hcanon : n.Canonical) (hnonneg : 0 ≤ n.total) :
    ∃ c, tryFrom d = .ok (.ok c) ∧ c.total = n.total := by
  obtain ⟨hseconds, hnanos⟩ := hcanon.nonneg_iff.mpr hnonneg
  have hseconds' := n.seconds.val_le
  have hnanos' := hcanon.1.2
  unfold nanosMax nanosPerSecond at hnanos'
  have hwrap : (Ranged.wrap n.seconds.val : U64).val = n.seconds.val :=
    Ranged.val_wrap hseconds (by omega)
  have hwrap' : (Ranged.wrap n.nanos.val : U32).val = n.nanos.val :=
    Ranged.val_wrap hnanos (by omega)
  let c : CoreDuration := ⟨⟨n.seconds.val, hseconds, by omega⟩, ⟨n.nanos.val, hnanos, by omega⟩⟩
  refine ⟨c, ?_, rfl⟩
  have hnew : new (.wrap n.seconds.val) (.wrap n.nanos.val) = .ok c := by
    rw [new_eq_ok, hwrap, hwrap']
    rfl
  simp only [tryFrom, h, Attempt.ok_bind, hseconds, hnanos, and_self, if_true, hnew]

/-- Of a negative duration the magnitude is found, unless its seconds have no
opposite. -/
theorem tryFrom_of_neg (h : d.normalize = .ok n) (hcanon : n.Canonical) (hneg : n.total < 0) :
    (∃ c, tryFrom d = .ok (.error (.negativeDuration c)) ∧ c.total = -n.total) ↔
      n.seconds.val ≠ -9223372036854775808 := by
  have hsign : ¬(0 ≤ n.seconds.val ∧ 0 ≤ n.nanos.val) := by
    rw [hcanon.nonneg_iff]
    omega
  have := n.seconds.le_val
  have hrange := hcanon
  unfold Duration.Canonical nanosMax nanosPerSecond at hrange
  simp only [tryFrom, h, Attempt.ok_bind, if_neg hsign, Attempt.bind_eq_ok, Ranged.fit_eq_ok,
    Except.ok.injEq, Except.error.injEq, DurationError.negativeDuration.injEq]
  constructor
  · rintro ⟨c, ⟨seconds, hseconds, -⟩, -⟩
    have := seconds.val_le
    omega
  · intro hne
    let seconds : I64 := ⟨-n.seconds.val, by omega, by omega⟩
    let nanos : I32 := ⟨-n.nanos.val, by omega, by omega⟩
    have hseconds : seconds.val = -n.seconds.val := rfl
    have hnanos : nanos.val = -n.nanos.val := rfl
    have hwrap : (Ranged.wrap seconds.val : U64).val = -n.seconds.val :=
      Ranged.val_wrap (by omega) (by omega)
    have hwrap' : (Ranged.wrap nanos.val : U32).val = -n.nanos.val :=
      Ranged.val_wrap (by omega) (by omega)
    let c : CoreDuration :=
      ⟨⟨-n.seconds.val, by omega, by omega⟩, ⟨-n.nanos.val, by omega, by omega⟩⟩
    have hnew : new (.wrap seconds.val) (.wrap nanos.val) = .ok c := by
      rw [new_eq_ok, hwrap, hwrap']
      rfl
    refine ⟨c, ⟨seconds, rfl, nanos, rfl, c, hnew, rfl⟩, ?_⟩
    show -n.seconds.val * nanosPerSecond + -n.nanos.val = _
    unfold Duration.total nanosPerSecond
    omega

end CoreDuration

/-- What is expected of a duration: that it can be negated, and that it converts
to what it is when normalized, or to its magnitude if that is negative. -/
structure Duration.ConvertsExactly (d : Duration) : Prop where
  neg : ∃ d', d.neg = .ok d' ∧ d'.total = -d.total
  convert {n : Duration} : d.normalize = .ok n →
    (0 ≤ n.total → ∃ c, CoreDuration.tryFrom d = .ok (.ok c) ∧ c.total = n.total) ∧
    (n.total < 0 →
      ∃ c, CoreDuration.tryFrom d = .ok (.error (.negativeDuration c)) ∧ c.total = -n.total)

/-- Durations convert to core durations and back exactly, but for those whose
seconds or nanoseconds have no opposite. -/
theorem duration_converts_exactly (d : Duration) (c : CoreDuration) :
    (d.ConvertsExactly ↔ d.seconds.val ≠ -9223372036854775808 ∧
      d.nanos.val ≠ -2147483648 ∧ -9223372036854775808 * nanosPerSecond < d.total) ∧
    ((∃ d', Duration.tryFrom c = .ok (.ok d') ∧ d'.total = c.total ∧
      CoreDuration.tryFrom d' = .ok (.ok c)) ↔ c.secs.val ≤ 9223372036854775807) := by
  constructor
  · obtain ⟨n, hn, hcanon, htotal⟩ := d.normalize_spec
    have hextreme : n.seconds.val ≠ -9223372036854775808 ↔
        -9223372036854775808 * nanosPerSecond < d.total := by
      unfold Duration.Canonical nanosMax at hcanon
      unfold Duration.total Duration.leastTotal Duration.greatestTotal at *
      unfold nanosPerSecond at *
      have := n.seconds.le_val
      omega
    rw [← hextreme]
    constructor
    · intro h
      obtain ⟨hseconds, hnanos⟩ := d.neg_eq_ok_iff.mp h.neg
      refine ⟨hseconds, hnanos, ?_⟩
      rcases lt_or_ge n.total 0 with hneg | hnonneg
      · exact (CoreDuration.tryFrom_of_neg hn hcanon hneg).mp ((h.convert hn).2 hneg)
      · have := (hcanon.nonneg_iff.mpr hnonneg).1
        omega
    · rintro ⟨hseconds, hnanos, hne⟩
      refine ⟨d.neg_eq_ok_iff.mpr ⟨hseconds, hnanos⟩, fun {n'} hn' => ?_⟩
      obtain rfl : n = n' := Except.ok.inj (hn.symm.trans hn')
      exact ⟨CoreDuration.tryFrom_of_nonneg hn hcanon,
        fun hneg => (CoreDuration.tryFrom_of_neg hn hcanon hneg).mpr hne⟩
  · constructor
    · rintro ⟨d', hfrom, -, -⟩
      cases hfit : (Ranged.fit? c.secs.val : Option I64) with
      | some seconds =>
          have hval := Ranged.fit?_eq_some.mp hfit
          have := seconds.val_le
          omega
      | none =>
          rw [Duration.tryFrom, hfit] at hfrom
          cases hfrom
    · intro hle
      have := c.secs.le_val
      have := c.nanos.le_val
      have := c.nanos.val_le
      have hwrap : (Ranged.wrap c.nanos.val : I32).val = c.nanos.val :=
        Ranged.val_wrap (by omega) (by omega)
      let d : Duration := ⟨⟨c.secs.val, by omega, hle⟩, .wrap c.nanos.val⟩
      have hcanon : d.Canonical := by
        unfold Duration.Canonical nanosMax nanosPerSecond
        rw [hwrap]
        dsimp only [d]
        omega
      have hnormalize : d.normalize = .ok d := d.normalizes.unchanged.mpr hcanon
      have htotal : d.total = c.total := by
        unfold Duration.total CoreDuration.total
        rw [hwrap]
      have hfit : (Ranged.fit? c.secs.val : Option I64) = some d.seconds := Ranged.fit?_eq_some.mpr rfl
      obtain ⟨c', hc', hsame⟩ := CoreDuration.tryFrom_of_nonneg hnormalize hcanon (by
        rw [htotal]
        unfold CoreDuration.total nanosPerSecond
        omega)
      refine ⟨d, ?_, htotal, ?_⟩
      · simp only [Duration.tryFrom, hfit]
        rw [hnormalize]
        rfl
      · rw [hc']
        have hc : c' = c := by
          rw [htotal] at hsame
          have := c'.nanos.le_val
          have := c'.nanos.val_le
          unfold CoreDuration.total nanosPerSecond at hsame
          exact CoreDuration.ext (Ranged.ext (by omega)) (Ranged.ext (by omega))
        rw [hc]

/-- The least number of seconds has no opposite. -/
theorem not_all_durations_convert : ¬∀ d : Duration, d.ConvertsExactly := by
  intro hall
  obtain ⟨d', hneg, -⟩ := (hall ⟨.lit (-9223372036854775808), 0⟩).neg
  have hpanic : Duration.neg ⟨.lit (-9223372036854775808), 0⟩ = .error .panic := by decide
  rw [hpanic] at hneg
  cases hneg

namespace SystemTime

theorem total_injective {st st' : SystemTime} (h : st.total = st'.total) : st = st' := by
  have := st.nanos.le_val
  have := st.nanos.val_le
  have := st'.nanos.le_val
  have := st'.nanos.val_le
  unfold total nanosPerSecond at h
  exact SystemTime.ext (Ranged.ext (by omega)) (Ranged.ext (by omega))

theorem ofTotal?_eq_some {total : Int} {st : SystemTime} :
    ofTotal? total = some st ↔ st.total = total := by
  have := st.nanos.le_val
  have := st.nanos.val_le
  simp only [ofTotal?, Option.bind_eq_bind, Option.bind_eq_some_iff, Ranged.fit?_eq_some,
    Option.some.injEq]
  unfold SystemTime.total nanosPerSecond
  constructor
  · rintro ⟨secs, hsecs, nanos, hnanos, rfl⟩
    dsimp only
    omega
  · intro htotal
    exact ⟨st.secs, by omega, st.nanos, by omega, rfl⟩

/-- `duration_since` is exact. -/
theorem durationSince_spec (st earlier : SystemTime) :
    match st.durationSince earlier with
    | .ok d => d.total = st.total - earlier.total
    | .error d => st.total < earlier.total ∧ d.total = earlier.total - st.total := by
  unfold durationSince
  by_cases h : earlier.total ≤ st.total
  · rw [dif_pos h]
    dsimp only [elapsed, CoreDuration.total]
    unfold nanosPerSecond
    omega
  · rw [dif_neg h]
    refine ⟨lt_of_not_ge h, ?_⟩
    dsimp only [elapsed, CoreDuration.total]
    unfold nanosPerSecond
    omega

/-- The seconds and nanoseconds of a timestamp, added to the epoch. -/
theorem addNanos_eq {orig timestamp : Timestamp} {st : SystemTime} {whole : Option SystemTime}
    (hcanon : timestamp.Canonical) (hst : st.total = timestamp.total)
    (hwhole : ∀ st', whole = some st' ↔ st'.total = timestamp.seconds.val * nanosPerSecond) :
    addNanos orig timestamp whole = .ok st := by
  unfold Timestamp.Canonical at hcanon
  unfold Timestamp.total at hst
  unfold nanosPerSecond at *
  have hwrap : (Ranged.wrap timestamp.nanos.val : U64).val = timestamp.nanos.val :=
    Ranged.val_wrap hcanon.1 (by omega)
  have hnanos : (CoreDuration.fromNanos (.wrap timestamp.nanos.val)).total = timestamp.nanos.val := by
    unfold CoreDuration.total CoreDuration.fromNanos nanosPerSecond
    dsimp only
    omega
  have hsome : whole = some ⟨timestamp.seconds, 0⟩ := by
    rw [hwhole]
    exact add_zero _
  have hadd : SystemTime.checkedAdd ⟨timestamp.seconds, 0⟩
      (.fromNanos (.wrap timestamp.nanos.val)) = some st := by
    rw [checkedAdd, ofTotal?_eq_some, hnanos, hst]
    unfold SystemTime.total nanosPerSecond
    simp
  simp only [addNanos, hsome, Option.bind_some, hadd]

/-- A canonical timestamp has a system time, and it is found unless the seconds
have no opposite. -/
theorem tryFrom_eq {orig timestamp : Timestamp} (h : orig.normalize = .ok timestamp)
    (hcanon : timestamp.Canonical) {st : SystemTime} (hst : st.total = timestamp.total) :
    tryFrom orig = if timestamp.seconds.val = -9223372036854775808
      then .ok (.error (.outOfSystemRange timestamp)) else .ok (.ok st) := by
  have hle := timestamp.seconds.le_val
  have hge := timestamp.seconds.val_le
  have hsecs (secs : U64) : (CoreDuration.fromSecs secs).total = secs.val * nanosPerSecond :=
    add_zero _
  have hepoch : unixEpoch.total = 0 := by decide
  rw [tryFrom, h, Attempt.ok_bind]
  by_cases hnonneg : 0 ≤ timestamp.seconds.val
  · have hwrap : (Ranged.wrap timestamp.seconds.val : U64).val = timestamp.seconds.val :=
      Ranged.val_wrap hnonneg (by omega)
    rw [if_pos hnonneg, if_neg (by omega), addNanos_eq hcanon hst]
    intro st'
    rw [checkedAdd, ofTotal?_eq_some, hsecs, hwrap, hepoch, zero_add]
  · rw [if_neg hnonneg]
    by_cases hleast : timestamp.seconds.val = -9223372036854775808
    · have hfit : (Ranged.fit? (-timestamp.seconds.val) : Option I64) = none := by
        rw [Ranged.fit?_eq_none]
        omega
      simp only [hfit, if_pos hleast]
    · let seconds : I64 := ⟨-timestamp.seconds.val, by omega, by omega⟩
      have hfit : (Ranged.fit? (-timestamp.seconds.val) : Option I64) = some seconds :=
        Ranged.fit?_eq_some.mpr rfl
      have hwrap : (Ranged.wrap seconds.val : U64).val = -timestamp.seconds.val :=
        Ranged.val_wrap (by show 0 ≤ -timestamp.seconds.val; omega)
          (by show -timestamp.seconds.val ≤ _; omega)
      simp only [hfit, if_neg hleast]
      rw [addNanos_eq hcanon hst]
      intro st'
      rw [checkedSub, ofTotal?_eq_some, hsecs, hwrap, hepoch, zero_sub, neg_mul, neg_neg]

end SystemTime

/-- The timestamp with the parts of a system time. -/
def SystemTime.asTimestamp (st : SystemTime) : Timestamp where
  seconds := st.secs
  nanos := ⟨st.nanos.val, by have := st.nanos.le_val; omega, by have := st.nanos.val_le; omega⟩

theorem SystemTime.canonical_asTimestamp (st : SystemTime) : st.asTimestamp.Canonical := by
  have := st.nanos.le_val
  have := st.nanos.val_le
  unfold Timestamp.Canonical nanosPerSecond asTimestamp
  dsimp only
  omega

/-- The system time with the parts of a canonical timestamp. -/
def Timestamp.Canonical.asSystemTime {t : Timestamp} (h : t.Canonical) : SystemTime where
  secs := t.seconds
  nanos := ⟨t.nanos.val, h.1, Int.le_sub_one_of_lt h.2⟩

theorem Timestamp.Canonical.total_asSystemTime {t : Timestamp} (h : t.Canonical) :
    h.asSystemTime.total = t.total := rfl

/-- A system time becomes the timestamp of the same instant, and panics if its
distance from the epoch is not a number of seconds. -/
theorem Timestamp.fromSystemTime_eq (st : SystemTime) : fromSystemTime st =
    if st.total = -9223372036854775808 * nanosPerSecond then .error .panic
    else .ok st.asTimestamp := by
  have := st.secs.le_val
  have := st.secs.val_le
  have := st.nanos.le_val
  have := st.nanos.val_le
  have hepoch : SystemTime.unixEpoch.total = 0 := by decide
  have hspec := st.durationSince_spec .unixEpoch
  rw [hepoch] at hspec
  unfold fromSystemTime
  cases hsince : st.durationSince .unixEpoch with
  | ok d =>
      simp only [hsince, sub_zero] at hspec
      have := d.secs.le_val
      have := d.nanos.le_val
      have := d.nanos.val_le
      unfold CoreDuration.total SystemTime.total nanosPerSecond at hspec
      unfold SystemTime.total nanosPerSecond
      have hsecs : d.secs.val = st.secs.val := by omega
      have hnanos : d.nanos.val = st.nanos.val := by omega
      have hwrap : (Ranged.wrap d.nanos.val : I32) = st.asTimestamp.nanos :=
        Ranged.ext ((Ranged.val_wrap (by omega) (by omega)).trans hnanos)
      rw [if_neg (by omega)]
      simp only [afterEpoch, hsecs, Ranged.unwrap_fit?, Ranged.fit_val, Attempt.ok_bind, hwrap]
      rfl
  | error d =>
      simp only [hsince, zero_sub] at hspec
      have := d.secs.le_val
      have := d.nanos.le_val
      have := d.nanos.val_le
      unfold CoreDuration.total SystemTime.total nanosPerSecond at hspec
      unfold SystemTime.total nanosPerSecond
      have hwrap : (Ranged.wrap d.nanos.val : I32).val = d.nanos.val :=
        Ranged.val_wrap (by omega) (by omega)
      dsimp only [beforeEpoch]
      by_cases hleast : st.secs.val * 1000000000 + st.nanos.val = -9223372036854775808 * 1000000000
      · rw [if_pos hleast, Ranged.unwrap_fit?, Ranged.fit_of_not_mem (by omega)]
        rfl
      · rw [if_neg hleast, Ranged.unwrap_fit?, Ranged.fit_of_mem (by omega) (by omega),
          Attempt.ok_bind, Ranged.fit_of_mem (by dsimp only; omega) (by dsimp only; omega),
          Attempt.ok_bind, hwrap]
        by_cases hzero : d.nanos.val = 0
        · rw [if_pos hzero]
          refine congrArg Except.ok (Timestamp.ext (Ranged.ext ?_) (Ranged.ext ?_))
          · show -d.secs.val = st.secs.val
            omega
          · show 0 = st.nanos.val
            omega
        · rw [if_neg hzero, Ranged.fit_of_mem (by dsimp only; omega) (by dsimp only; omega),
            Attempt.ok_bind, Ranged.fit_of_mem (by omega) (by omega), Attempt.ok_bind]
          refine congrArg Except.ok (Timestamp.ext (Ranged.ext ?_) (Ranged.ext ?_))
          · show -d.secs.val - 1 = st.secs.val
            omega
          · show 1000000000 - d.nanos.val = st.nanos.val
            omega

/-- A system time goes to the canonical timestamp of its instant and back. -/
structure SystemTime.RoundTrips (st : SystemTime) (t : Timestamp) : Prop where
  from_eq : Timestamp.fromSystemTime st = .ok t
  canonical : t.Canonical
  total : t.total = st.total
  back : SystemTime.tryFrom t = .ok (.ok st)

/-- A timestamp has the system time of its instant if there is one, and an error
holds the timestamp itself. -/
structure Timestamp.ConvertsExactly (t : Timestamp) : Prop where
  returns : ∃ result, SystemTime.tryFrom t = .ok result
  exact {st : SystemTime} : st.total = t.total → SystemTime.tryFrom t = .ok (.ok st)
  error {e : TimestampError} : SystemTime.tryFrom t = .ok (.error e) → e = .outOfSystemRange t

/-- System times and timestamps convert into each other exactly, but for the
earliest second there is. -/
theorem system_time_converts_exactly (st : SystemTime) (t : Timestamp) :
    ((∃ t', st.RoundTrips t') ↔ st.secs.val ≠ -9223372036854775808) ∧
    (t.ConvertsExactly ↔
      -9223372036854775808 < t.seconds.val + t.nanos.val / nanosPerSecond) := by
  constructor
  · have hcanon := st.canonical_asTimestamp
    have hnormalize := st.asTimestamp.normalizes.unchanged.mpr hcanon
    have hsame : st.total = st.asTimestamp.total := rfl
    have htry := SystemTime.tryFrom_eq hnormalize hcanon hsame
    have hsecs : st.asTimestamp.seconds = st.secs := rfl
    rw [hsecs] at htry
    constructor
    · rintro ⟨t, h⟩ hleast
      have hfrom := h.from_eq
      rw [Timestamp.fromSystemTime_eq] at hfrom
      split_ifs at hfrom
      obtain rfl := Except.ok.inj hfrom
      rw [if_pos hleast] at htry
      cases h.back.symm.trans htry
    · intro hne
      have := st.secs.le_val
      have := st.nanos.le_val
      refine ⟨st.asTimestamp, ?_, hcanon, rfl, htry.trans (if_neg hne)⟩
      rw [Timestamp.fromSystemTime_eq, if_neg]
      unfold SystemTime.total nanosPerSecond
      omega
  · obtain ⟨c, hc, hcanon, htotal⟩ := t.normalize_spec
    have hleast : c.seconds.val ≠ -9223372036854775808 ↔
        -9223372036854775808 < t.seconds.val + t.nanos.val / nanosPerSecond := by
      have := c.seconds.le_val
      unfold Timestamp.Canonical at hcanon
      unfold Timestamp.total Timestamp.leastTotal Timestamp.greatestTotal at htotal
      unfold nanosPerSecond at *
      omega
    have htry {st : SystemTime} (hst : st.total = c.total) := SystemTime.tryFrom_eq hc hcanon hst
    have hst := hcanon.total_asSystemTime
    rw [← hleast]
    constructor
    · intro h heq
      have htry := htry hst
      rw [if_pos heq] at htry
      obtain rfl := TimestampError.outOfSystemRange.inj (h.error htry)
      cases (h.exact hst).symm.trans htry
    · intro hne
      refine ⟨⟨_, (htry hst).trans (if_neg hne)⟩, fun {st} hsame => ?_, fun {e} he => ?_⟩
      · rw [htry, if_neg hne]
        have hrange := t.normalizes.exact hc st.canonical_asTimestamp hsame
        exact hsame.trans hrange.symm
      · rw [htry hst, if_neg hne] at he
        cases he

/-- The earliest system time cannot be converted. -/
theorem not_all_system_times_convert :
    ¬((∀ st : SystemTime, ∃ t, st.RoundTrips t) ∧ ∀ t : Timestamp, t.ConvertsExactly) := by
  rintro ⟨hall, -⟩
  obtain ⟨t, h⟩ := hall ⟨.lit (-9223372036854775808), 0⟩
  have hpanic : Timestamp.fromSystemTime ⟨.lit (-9223372036854775808), 0⟩ =
      .error .panic := by decide
  cases h.from_eq.symm.trans hpanic

end Bilrost.Types
