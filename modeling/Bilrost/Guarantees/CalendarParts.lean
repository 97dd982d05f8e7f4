import Bilrost.Guarantees.PartsSupport

/-!
Dates, times of day and durations come back from their parts. A date is read as
the midnight that begins it, and the two crates write the same bytes.
-/

namespace Bilrost

open Program Bilrost.Types

section
variable {T : Type}

/-- Arrays are the same if their parts are. -/
theorem eq_iff_get {n : Nat} {parts arr : List.Vector T n} :
    parts = arr ↔ ∀ i, parts.get i = arr.get i :=
  ⟨fun h i => congrArg (·.get i) h, List.Vector.ext⟩

theorem eq_vector_two {a b : T} {arr : List.Vector T 2} :
    ((a ::ᵥ b ::ᵥ .nil) : List.Vector T 2) = arr ↔ a = firstPart arr ∧ b = secondPart arr := by
  simp only [eq_iff_get, Fin.forall_fin_succ, IsEmpty.forall_iff, and_true]
  rfl

theorem eq_vector_four {a b c d : T} {arr : List.Vector T 4} :
    ((a ::ᵥ b ::ᵥ c ::ᵥ d ::ᵥ .nil) : List.Vector T 4) = arr ↔
      a = arr.get 0 ∧ b = arr.get 1 ∧ c = arr.get 2 ∧ d = arr.get 3 := by
  simp only [eq_iff_get, Fin.forall_fin_succ, IsEmpty.forall_iff, and_true]
  rfl

theorem eq_vector_six {a b c d e f : T} {arr : List.Vector T 6} :
    ((a ::ᵥ b ::ᵥ c ::ᵥ d ::ᵥ e ::ᵥ f ::ᵥ .nil) : List.Vector T 6) = arr ↔
      (a = arr.get 0 ∧ b = arr.get 1) ∧ c = arr.get 2 ∧ d = arr.get 3 ∧ e = arr.get 4 ∧
        f = arr.get 5 := by
  simp only [eq_iff_get, Fin.forall_fin_succ, IsEmpty.forall_iff, and_true, and_assoc]
  rfl

/-- A cast of a number in the range is a number exactly if it is the same one. -/
theorem Ranged.wrap_eq_iff {lo hi : Int} [HoldsZero lo hi] {n : Int} {x : Ranged lo hi}
    (hle : lo ≤ n) (hge : n ≤ hi) : wrap n = x ↔ n = x.val := by
  rw [Ranged.ext_iff, val_wrap hle hge]

/-- A cast to a larger range. -/
theorem Ranged.widen_eq_iff {lo hi lo' hi' : Int} [HoldsZero lo' hi'] (hlo : lo' ≤ lo)
    (hhi : hi ≤ hi') {x : Ranged lo hi} {y : Ranged lo' hi'} : wrap x.val = y ↔ x.val = y.val :=
  wrap_eq_iff (hlo.trans x.le_val) (x.val_le.trans hhi)

theorem VarintScalar.lawful_rangedI32 : rangedI32.Lawful :=
  (lawful_signed (by decide)).valuedAs I32.bits

theorem VarintScalar.lawful_rangedU32 : rangedU32.Lawful :=
  (lawful_unsigned (by decide)).valuedAs U32.bits

theorem VarintScalar.lawful_rangedU64 : rangedU64.Lawful :=
  (lawful_unsigned (by decide)).valuedAs U64.bits

theorem except_bind_eq_ok {α δ : Type} {x : Except DecodeErrorKind α}
    {f : α → Except DecodeErrorKind δ} {y : δ} :
    x >>= f = .ok y ↔ ∃ a, x = .ok a ∧ f a = .ok y := by
  cases x with
  | error kind => simp [Bind.bind, Except.bind]
  | ok a => simp [Bind.bind, Except.bind]

end

namespace ChronoCalendar

variable {NaiveDate NaiveTime NaiveDateTime : Type}
  {chrono : ChronoCalendar NaiveDate NaiveTime NaiveDateTime}

/-- The constructor accepts the parts of a date. -/
def DateAccepted (chrono : ChronoCalendar NaiveDate NaiveTime NaiveDateTime) (date : NaiveDate) :
    Prop :=
  ∃ ordinal : U32, ordinal.val = (chrono.ordinal0 date).val + 1 ∧
    (chrono.fromYoOpt (chrono.year date) ordinal).isSome

/-- The constructor accepts the parts of a time. -/
def TimeAccepted (chrono : ChronoCalendar NaiveDate NaiveTime NaiveDateTime) (time : NaiveTime) :
    Prop :=
  (chrono.fromHmsNanoOpt (chrono.hour time) (chrono.minute time) (chrono.second time)
    (chrono.nanosecond time)).isSome

def DateTimeAccepted (chrono : ChronoCalendar NaiveDate NaiveTime NaiveDateTime)
    (dt : NaiveDateTime) : Prop :=
  chrono.DateAccepted (chrono.date dt) ∧ chrono.TimeAccepted (chrono.time dt)

namespace Documented

variable (h : chrono.Documented)
include h

theorem partsToNaiveDate_eq_some {year ordinal0 : I32} {date : NaiveDate} :
    chrono.partsToNaiveDate year ordinal0 = some date ↔ chrono.DateAccepted date ∧
      chrono.year date = year ∧ (chrono.ordinal0 date).val = ordinal0.val := by
  simp only [partsToNaiveDate, Option.bind_eq_bind, Option.bind_eq_some_iff, Ranged.fit?_eq_some]
  constructor
  · rintro ⟨ordinal0', hordinal0, ordinal, hordinal, hdate⟩
    obtain ⟨rfl, hsucc⟩ := h.fromYoOpt hdate
    exact ⟨⟨ordinal, hsucc.symm, hdate ▸ rfl⟩, rfl, by omega⟩
  · rintro ⟨⟨ordinal, hordinal, hsome⟩, rfl, hordinal0⟩
    obtain ⟨date', hdate'⟩ := Option.isSome_iff_exists.mp hsome
    obtain ⟨hyear, hsucc⟩ := h.fromYoOpt hdate'
    obtain rfl : date' = date := h.date_ext hyear (Ranged.ext (by omega))
    exact ⟨chrono.ordinal0 date', hordinal0, ordinal, hordinal, hdate'⟩

theorem fromHmsNanoOpt_eq_some {hour min sec nano : U32} {time : NaiveTime} :
    chrono.fromHmsNanoOpt hour min sec nano = some time ↔ chrono.TimeAccepted time ∧
      chrono.hour time = hour ∧ chrono.minute time = min ∧ chrono.second time = sec ∧
        chrono.nanosecond time = nano := by
  constructor
  · intro htime
    obtain ⟨rfl, rfl, rfl, rfl⟩ := h.fromHmsNanoOpt htime
    exact ⟨Option.isSome_iff_exists.mpr ⟨time, htime⟩, rfl, rfl, rfl, rfl⟩
  · rintro ⟨hsome, rfl, rfl, rfl, rfl⟩
    obtain ⟨time', htime'⟩ := Option.isSome_iff_exists.mp hsome
    obtain ⟨hhour, hmin, hsec, hnano⟩ := h.fromHmsNanoOpt htime'
    obtain rfl : time' = time := h.time_ext hhour hmin hsec hnano
    exact htime'

theorem partsToNaiveTime_eq_some {hour min sec nano : I32} {time : NaiveTime} :
    chrono.partsToNaiveTime hour min sec nano = some time ↔ chrono.TimeAccepted time ∧
      (chrono.hour time).val = hour.val ∧ (chrono.minute time).val = min.val ∧
        (chrono.second time).val = sec.val ∧ (chrono.nanosecond time).val = nano.val := by
  simp only [partsToNaiveTime, Option.bind_eq_bind, Option.bind_eq_some_iff, Ranged.fit?_eq_some,
    h.fromHmsNanoOpt_eq_some]
  constructor
  · rintro ⟨_, hhour, _, hmin, _, hsec, _, hnano, htime, rfl, rfl, rfl, rfl⟩
    exact ⟨htime, hhour, hmin, hsec, hnano⟩
  · rintro ⟨htime, hhour, hmin, hsec, hnano⟩
    exact ⟨_, hhour, _, hmin, _, hsec, _, hnano, htime, rfl, rfl, rfl, rfl⟩

/-- The casts to signed numbers leave everything as it is. -/
theorem wrap_ordinal0 {date : NaiveDate} {x : I32} :
    .wrap (chrono.ordinal0 date).val = x ↔ (chrono.ordinal0 date).val = x.val := by
  have hle := (chrono.ordinal0 date).le_val
  have hge := h.ordinal0_le date
  exact Ranged.wrap_eq_iff (by omega) (by omega)

theorem wrap_time (time : NaiveTime) :
    (∀ x : I32, .wrap (chrono.hour time).val = x ↔ (chrono.hour time).val = x.val) ∧
    (∀ x : I32, .wrap (chrono.minute time).val = x ↔ (chrono.minute time).val = x.val) ∧
    (∀ x : I32, .wrap (chrono.second time).val = x ↔ (chrono.second time).val = x.val) ∧
    (∀ x : I32, .wrap (chrono.nanosecond time).val = x ↔
      (chrono.nanosecond time).val = x.val) := by
  have hwrap {n : U32} (hlt : n.val < 2000000000) (x : I32) : .wrap n.val = x ↔ n.val = x.val := by
    have hle := n.le_val
    exact Ranged.wrap_eq_iff (by omega) (by omega)
  have hhour := h.hour_lt time
  have hminute := h.minute_lt time
  have hsecond := h.second_lt time
  exact ⟨hwrap (by omega), hwrap (by omega), hwrap (by omega), hwrap (h.nanosecond_lt time)⟩

theorem numSecondsFromMidnight_eq_zero {time : NaiveTime} :
    chrono.numSecondsFromMidnight time = 0 ↔ (chrono.hour time).val = 0 ∧
      (chrono.minute time).val = 0 ∧ (chrono.second time).val = 0 := by
  have hsum := h.numSecondsFromMidnight time
  have := (chrono.hour time).le_val
  have := (chrono.minute time).le_val
  have := (chrono.second time).le_val
  rw [Ranged.ext_iff, Ranged.val_zero]
  omega

theorem inverse_naiveDate : chrono.naiveDate.Inverse chrono.DateAccepted where
  parts_returns date := ⟨_, rfl⟩
  returns arr := ⟨_, rfl⟩
  iff {arr date} := by
    simp only [naiveDate, Except.ok.injEq, okOr_eq_ok, h.partsToNaiveDate_eq_some, eq_vector_two,
      h.wrap_ordinal0]
  isEmpty {date arr} hparts := by
    obtain rfl := Except.ok.inj hparts
    simp only [naiveDate, eq_vector_two, h.wrap_ordinal0, beq_iff_eq, Prod.mk.injEq,
      firstPart, secondPart, List.Vector.get_replicate, Ranged.ext_iff]
    exact Iff.rfl

theorem inverse_naiveTime : chrono.naiveTime.Inverse chrono.TimeAccepted where
  parts_returns time := ⟨_, rfl⟩
  returns arr := ⟨_, rfl⟩
  iff {arr time} := by
    simp only [naiveTime, Except.ok.injEq, okOr_eq_ok, h.fromHmsNanoOpt_eq_some, eq_vector_four]
  isEmpty {time arr} hparts := by
    obtain rfl := Except.ok.inj hparts
    simp only [naiveTime, eq_vector_four, beq_iff_eq, Prod.mk.injEq,
      h.numSecondsFromMidnight_eq_zero, List.Vector.get_replicate, Ranged.ext_iff, and_assoc]
    exact Iff.rfl

theorem new_eq_iff {date : NaiveDate} {time : NaiveTime} {dt : NaiveDateTime} :
    chrono.new date time = dt ↔ date = chrono.date dt ∧ time = chrono.time dt := by
  constructor
  · rintro rfl
    exact ⟨(h.date_new date time).symm, (h.time_new date time).symm⟩
  · rintro ⟨rfl, rfl⟩
    exact h.new_date_time dt

theorem inverse_naiveDateTime : chrono.naiveDateTime.Inverse chrono.DateTimeAccepted where
  parts_returns dt := ⟨_, rfl⟩
  returns arr := ⟨_, rfl⟩
  iff {arr dt} := by
    have hofParts : chrono.naiveDateTime.ofParts arr = .ok (.ok dt) ↔
        chrono.partsToNaiveDate (arr.get 0) (arr.get 1) = some (chrono.date dt) ∧
          chrono.partsToNaiveTime (arr.get 2) (arr.get 3) (arr.get 4) (arr.get 5) =
            some (chrono.time dt) := by
      simp only [naiveDateTime, Except.ok.injEq, except_bind_eq_ok, okOr_eq_ok, h.new_eq_iff]
      constructor
      · rintro ⟨date, hdate, time, htime, rfl, rfl⟩
        exact ⟨hdate, htime⟩
      · rintro ⟨hdate, htime⟩
        exact ⟨_, hdate, _, htime, rfl, rfl⟩
    obtain ⟨hhour, hminute, hsecond, hnano⟩ := h.wrap_time (chrono.time dt)
    rw [hofParts, h.partsToNaiveDate_eq_some, h.partsToNaiveTime_eq_some]
    simp only [naiveDateTime, Except.ok.injEq, eq_vector_six, h.wrap_ordinal0, hhour, hminute,
      hsecond, hnano]
    exact and_and_and_comm
  isEmpty {dt arr} hparts := by
    obtain ⟨hhour, hminute, hsecond, hnano⟩ := h.wrap_time (chrono.time dt)
    obtain rfl := Except.ok.inj hparts
    simp only [naiveDateTime, eq_vector_six, h.wrap_ordinal0, hhour, hminute, hsecond, hnano,
      beq_iff_eq, Prod.mk.injEq, h.numSecondsFromMidnight_eq_zero, List.Vector.get_replicate,
      Ranged.ext_iff, and_assoc]
    exact Iff.rfl

end Documented

end ChronoCalendar

namespace TimeCalendar

variable {Date Time PrimitiveDateTime : Type} {time : TimeCalendar Date Time PrimitiveDateTime}

/-- The constructor accepts the parts of a date. -/
def DateAccepted (time : TimeCalendar Date Time PrimitiveDateTime) (date : Date) : Prop :=
  (time.fromOrdinalDate (time.year date) (time.ordinal date)).isSome

/-- The constructor accepts the parts of a time. -/
def TimeAccepted (time : TimeCalendar Date Time PrimitiveDateTime) (t : Time) : Prop :=
  (time.fromHmsNano (time.hour t) (time.minute t) (time.second t) (time.nanosecond t)).isSome

def DateTimeAccepted (time : TimeCalendar Date Time PrimitiveDateTime) (dt : PrimitiveDateTime) :
    Prop :=
  time.DateAccepted (time.date dt) ∧ time.TimeAccepted (time.time dt)

namespace Documented

variable (h : time.Documented)
include h

theorem partsToDate_eq_some {year ordinal0 : I32} {date : Date} :
    time.partsToDate year ordinal0 = some date ↔ time.DateAccepted date ∧
      time.year date = year ∧ (time.ordinal date).val - 1 = ordinal0.val := by
  simp only [partsToDate, Option.bind_eq_bind, Option.bind_eq_some_iff, Ranged.fit?_eq_some]
  constructor
  · rintro ⟨ordinal0', hordinal0, ordinal, hordinal, hdate⟩
    obtain ⟨rfl, rfl⟩ := h.fromOrdinalDate hdate
    exact ⟨Option.isSome_iff_exists.mpr ⟨date, hdate⟩, rfl, by omega⟩
  · rintro ⟨hsome, rfl, hordinal0⟩
    obtain ⟨date', hdate'⟩ := Option.isSome_iff_exists.mp hsome
    obtain ⟨hyear, hordinal⟩ := h.fromOrdinalDate hdate'
    obtain rfl : date' = date := h.date_ext hyear hordinal
    have hone := h.one_le_ordinal date'
    have hle := (time.ordinal date').val_le
    exact ⟨⟨ordinal0.val, by omega, by omega⟩, rfl, time.ordinal date', by dsimp only; omega, hdate'⟩

theorem fromHmsNano_eq_some {hour min sec : U8} {nano : U32} {t : Time} :
    time.fromHmsNano hour min sec nano = some t ↔ time.TimeAccepted t ∧
      time.hour t = hour ∧ time.minute t = min ∧ time.second t = sec ∧
        time.nanosecond t = nano := by
  constructor
  · intro ht
    obtain ⟨rfl, rfl, rfl, rfl⟩ := h.fromHmsNano ht
    exact ⟨Option.isSome_iff_exists.mpr ⟨t, ht⟩, rfl, rfl, rfl, rfl⟩
  · rintro ⟨hsome, rfl, rfl, rfl, rfl⟩
    obtain ⟨t', ht'⟩ := Option.isSome_iff_exists.mp hsome
    obtain ⟨hhour, hmin, hsec, hnano⟩ := h.fromHmsNano ht'
    obtain rfl : t' = t := h.time_ext hhour hmin hsec hnano
    exact ht'

theorem partsToTime_eq_some {lo hi : Int} {hour min sec nano : Ranged lo hi} {t : Time} :
    time.partsToTime hour min sec nano = some t ↔ time.TimeAccepted t ∧
      (time.hour t).val = hour.val ∧ (time.minute t).val = min.val ∧
        (time.second t).val = sec.val ∧ (time.nanosecond t).val = nano.val := by
  simp only [partsToTime, Option.bind_eq_bind, Option.bind_eq_some_iff, Ranged.fit?_eq_some,
    h.fromHmsNano_eq_some]
  constructor
  · rintro ⟨_, hhour, _, hmin, _, hsec, _, hnano, htime, rfl, rfl, rfl, rfl⟩
    exact ⟨htime, hhour, hmin, hsec, hnano⟩
  · rintro ⟨htime, hhour, hmin, hsec, hnano⟩
    exact ⟨_, hhour, _, hmin, _, hsec, _, hnano, htime, rfl, rfl, rfl, rfl⟩

theorem fit_ordinal0 (date : Date) : ∃ ordinal0 : U16,
    Ranged.fit ((time.ordinal date).val - 1) = .ok ordinal0 ∧
      ordinal0.val = (time.ordinal date).val - 1 ∧
        ∀ x : I32, .wrap ordinal0.val = x ↔ (time.ordinal date).val - 1 = x.val := by
  have hone := h.one_le_ordinal date
  have hle := h.ordinal_le date
  refine ⟨⟨(time.ordinal date).val - 1, by omega, by omega⟩, ?_, rfl, fun x => ?_⟩
  · exact Ranged.fit_of_mem _ _
  · exact Ranged.wrap_eq_iff (by dsimp only; omega) (by dsimp only; omega)

theorem emptyDate_iff {date : Date} : date = time.emptyDate ↔
    (time.year date).val = 0 ∧ (time.ordinal date).val - 1 = 0 := by
  obtain ⟨hyear, hordinal⟩ := h.fromOrdinalDate h.emptyDate
  constructor
  · rintro rfl
    rw [hyear, hordinal]
    exact ⟨rfl, rfl⟩
  · rintro ⟨hyear', hordinal'⟩
    apply h.date_ext
    · rw [hyear]
      exact Ranged.ext hyear'
    · rw [hordinal]
      apply Ranged.ext
      show (time.ordinal date).val = 1
      omega

theorem midnight_iff {t : Time} : t = time.midnight ↔ (time.hour t).val = 0 ∧
    (time.minute t).val = 0 ∧ (time.second t).val = 0 ∧ (time.nanosecond t).val = 0 := by
  obtain ⟨hhour, hminute, hsecond, hnano⟩ := h.fromHmsNano h.midnight
  constructor
  · rintro rfl
    rw [hhour, hminute, hsecond, hnano]
    exact ⟨rfl, rfl, rfl, rfl⟩
  · rintro ⟨hhour', hminute', hsecond', hnano'⟩
    apply h.time_ext
    · exact hhour.symm ▸ Ranged.ext hhour'
    · exact hminute.symm ▸ Ranged.ext hminute'
    · exact hsecond.symm ▸ Ranged.ext hsecond'
    · exact hnano.symm ▸ Ranged.ext hnano'

theorem wrap_nanosecond (t : Time) (x : I32) :
    .wrap (time.nanosecond t).val = x ↔ (time.nanosecond t).val = x.val := by
  have hle := (time.nanosecond t).le_val
  have hlt := h.nanosecond_lt t
  exact Ranged.wrap_eq_iff (by omega) (by omega)

theorem inverse_dateParts [DecidableEq Date] : time.dateParts.Inverse time.DateAccepted where
  parts_returns date := by
    obtain ⟨ordinal0, hfit, -⟩ := h.fit_ordinal0 date
    simp only [dateParts, hfit, Attempt.ok_bind]
    exact ⟨_, rfl⟩
  returns arr := ⟨_, rfl⟩
  iff {arr date} := by
    obtain ⟨ordinal0, hfit, -, hwrap⟩ := h.fit_ordinal0 date
    simp only [dateParts, hfit, Attempt.ok_bind, Except.ok.injEq, okOr_eq_ok,
      h.partsToDate_eq_some, eq_vector_two, hwrap]
  isEmpty {date arr} hparts := by
    obtain ⟨ordinal0, hfit, -, hwrap⟩ := h.fit_ordinal0 date
    simp only [dateParts, hfit, Attempt.ok_bind, Except.ok.injEq] at hparts
    obtain rfl := hparts
    simp only [dateParts, eq_vector_two, hwrap, beq_iff_eq, h.emptyDate_iff, Ranged.ext_iff]
    exact Iff.rfl

theorem inverse_timeParts [DecidableEq Time] : time.timeParts.Inverse time.TimeAccepted where
  parts_returns t := ⟨_, rfl⟩
  returns arr := ⟨_, rfl⟩
  iff {arr t} := by
    simp only [timeParts, Except.ok.injEq, okOr_eq_ok, h.partsToTime_eq_some, eq_vector_four,
      Ranged.widen_eq_iff (by decide : (0 : Int) ≤ 0) (by decide : (255 : Int) ≤ 4294967295),
      Ranged.ext_iff (x := time.nanosecond t)]
  isEmpty {t arr} hparts := by
    obtain rfl := Except.ok.inj hparts
    simp only [timeParts, eq_vector_four, beq_iff_eq, h.midnight_iff,
      Ranged.widen_eq_iff (by decide : (0 : Int) ≤ 0) (by decide : (255 : Int) ≤ 4294967295),
      Ranged.ext_iff (x := time.nanosecond t), List.Vector.get_replicate]
    exact Iff.rfl

theorem new_eq_iff {date : Date} {t : Time} {dt : PrimitiveDateTime} :
    time.new date t = dt ↔ date = time.date dt ∧ t = time.time dt := by
  constructor
  · rintro rfl
    exact ⟨(h.date_new date t).symm, (h.time_new date t).symm⟩
  · rintro ⟨rfl, rfl⟩
    exact h.new_date_time dt

theorem inverse_primitiveDateTime [DecidableEq Date] [DecidableEq Time] :
    time.primitiveDateTime.Inverse time.DateTimeAccepted where
  parts_returns dt := by
    obtain ⟨ordinal0, hfit, -⟩ := h.fit_ordinal0 (time.date dt)
    simp only [primitiveDateTime, hfit, Attempt.ok_bind]
    exact ⟨_, rfl⟩
  returns arr := ⟨_, rfl⟩
  iff {arr dt} := by
    have hofParts : time.primitiveDateTime.ofParts arr = .ok (.ok dt) ↔
        time.partsToDate (arr.get 0) (arr.get 1) = some (time.date dt) ∧
          time.partsToTime (arr.get 2) (arr.get 3) (arr.get 4) (arr.get 5) =
            some (time.time dt) := by
      simp only [primitiveDateTime, Except.ok.injEq, except_bind_eq_ok, okOr_eq_ok, h.new_eq_iff]
      constructor
      · rintro ⟨date, hdate, t, ht, rfl, rfl⟩
        exact ⟨hdate, ht⟩
      · rintro ⟨hdate, ht⟩
        exact ⟨_, hdate, _, ht, rfl, rfl⟩
    obtain ⟨ordinal0, hfit, -, hwrap⟩ := h.fit_ordinal0 (time.date dt)
    rw [hofParts, h.partsToDate_eq_some, h.partsToTime_eq_some]
    simp only [primitiveDateTime, hfit, Attempt.ok_bind, Except.ok.injEq, eq_vector_six, hwrap,
      Ranged.widen_eq_iff (by decide : (-2147483648 : Int) ≤ 0)
        (by decide : (255 : Int) ≤ 2147483647), h.wrap_nanosecond]
    exact and_and_and_comm
  isEmpty {dt arr} hparts := by
    obtain ⟨ordinal0, hfit, -, hwrap⟩ := h.fit_ordinal0 (time.date dt)
    simp only [primitiveDateTime, hfit, Attempt.ok_bind, Except.ok.injEq] at hparts
    obtain rfl := hparts
    simp only [primitiveDateTime, eq_vector_six, hwrap, h.wrap_nanosecond, Bool.and_eq_true,
      Ranged.widen_eq_iff (by decide : (-2147483648 : Int) ≤ 0)
        (by decide : (255 : Int) ≤ 2147483647), beq_iff_eq, h.emptyDate_iff, h.midnight_iff,
      List.Vector.get_replicate, Ranged.ext_iff]
    exact Iff.rfl

end Documented

end TimeCalendar

namespace Types

theorem CoreDuration.new_subsec {secs : U64} {nanos : U64} (hnanos : nanos.val ≤ 999999999) :
    CoreDuration.new secs (.wrap nanos.val) = .ok ⟨secs, ⟨nanos.val, nanos.le_val, hnanos⟩⟩ := by
  have hle := nanos.le_val
  rw [new_eq_ok, Ranged.val_wrap hle (by omega)]
  rfl

theorem CoreDuration.inverse_parts : CoreDuration.parts.Inverse fun _ => True where
  parts_returns d := ⟨_, rfl⟩
  returns arr := by
    simp only [CoreDuration.parts]
    split_ifs with hnanos
    · rw [new_subsec hnanos]
      exact ⟨_, rfl⟩
    · exact ⟨_, rfl⟩
  iff {arr d} := by
    simp only [CoreDuration.parts, Except.ok.injEq, eq_vector_two, true_and,
      Ranged.widen_eq_iff (by decide : (0 : Int) ≤ 0)
        (by decide : (999999999 : Int) ≤ 18446744073709551615)]
    split_ifs with hnanos
    · rw [new_subsec hnanos]
      simp only [Attempt.ok_bind, Except.ok.injEq, CoreDuration.ext_iff, Ranged.ext_iff, eq_comm]
    · simp only [Except.ok.injEq, reduceCtorEq, false_iff]
      rintro ⟨-, hsame⟩
      exact hnanos (hsame ▸ d.nanos.val_le)
  isEmpty {d arr} hparts := by
    obtain rfl := Except.ok.inj hparts
    simp only [CoreDuration.parts, eq_vector_two, beq_iff_eq, CoreDuration.ext_iff,
      Ranged.widen_eq_iff (by decide : (0 : Int) ≤ 0)
        (by decide : (999999999 : Int) ≤ 18446744073709551615),
      firstPart, secondPart, List.Vector.get_replicate, Ranged.ext_iff]
    exact Iff.rfl

namespace SystemTime

theorem total_unixEpoch : unixEpoch.total = 0 := by decide

/-- The proxy of a time that is not the epoch. -/
theorem withSymbol_eq (symbol : U64) {small big : SystemTime} (hle : small.total ≤ big.total) :
    ∃ d : CoreDuration, d.total = big.total - small.total ∧ withSymbol symbol small big =
      .ok (.newWithoutEmptySuffix (EmptyState.single 0)
        (symbol ::ᵥ d.secs ::ᵥ .wrap d.nanos.val ::ᵥ .nil)) := by
  have hspec := durationSince_spec big small
  unfold withSymbol magnitude
  cases hsince : big.durationSince small with
  | error d =>
      rw [hsince] at hspec
      exact absurd hspec.1 (not_lt_of_ge hle)
  | ok d =>
      rw [hsince] at hspec
      exact ⟨d, hspec, rfl⟩

/-- What is decoded from a symbol and a duration. -/
theorem decodeProxy_symbol (proxy : LocalProxy U64 3)
    (hsymbol : proxy.intoInner.get 0 = plus ∨ proxy.intoInner.get 0 = minus)
    (hnanos : (proxy.intoInner.get 2).val ≤ 999999999) {d : CoreDuration}
    (hsecs : d.secs = proxy.intoInner.get 1) (hsubsec : d.nanos.val = (proxy.intoInner.get 2).val) :
    decodeProxy proxy = .ok (okOr .outOfDomainValue
      (if proxy.intoInner.get 0 = plus then unixEpoch.checkedAdd d
        else unixEpoch.checkedSub d)) := by
  have hzero : ¬(proxy.intoInner.get 0 = 0 ∧ proxy.intoInner.get 1 = 0 ∧
      proxy.intoInner.get 2 = 0) := by
    rintro ⟨hzero, -, -⟩
    rw [hzero] at hsymbol
    exact absurd hsymbol (by decide)
  have hnew : CoreDuration.new (proxy.intoInner.get 1) (.wrap (proxy.intoInner.get 2).val) =
      .ok d := by
    rw [CoreDuration.new_subsec hnanos]
    exact congrArg _ (CoreDuration.ext hsecs.symm (Ranged.ext hsubsec.symm))
  rw [decodeProxy, if_neg hzero, if_pos ⟨hsymbol, hnanos⟩, hnew, Attempt.ok_bind]

theorem decodeProxy_returns (proxy : LocalProxy U64 3) :
    ∃ decoded, decodeProxy proxy = .ok decoded := by
  by_cases hsymbol : (proxy.intoInner.get 0 = plus ∨ proxy.intoInner.get 0 = minus) ∧
      (proxy.intoInner.get 2).val ≤ 999999999
  · exact ⟨_, decodeProxy_symbol proxy hsymbol.1 hsymbol.2
      (d := ⟨_, ⟨_, (proxy.intoInner.get 2).le_val, hsymbol.2⟩⟩) rfl rfl⟩
  · rw [decodeProxy, if_neg hsymbol]
    split_ifs
    · exact ⟨_, rfl⟩
    · exact ⟨_, rfl⟩

/-- A time comes back from its proxy, whose list is empty at the epoch only. -/
theorem encodeProxy_spec (st : SystemTime) : ∃ items h,
    encodeProxy st = .ok (.ofItems 0 items h) ∧ (st = unixEpoch ↔ items = []) ∧
      decodeProxy (.ofItems 0 items h) = .ok (.ok st) := by
  have hsymbol {symbol : U64} (hsymbol : symbol = plus ∨ symbol = minus) {small big : SystemTime}
      (hle : small.total ≤ big.total) (hencode : encodeProxy st = withSymbol symbol small big)
      (hne : st ≠ unixEpoch) (hback : ∀ d : CoreDuration, d.total = big.total - small.total →
        (if symbol = plus then unixEpoch.checkedAdd d else unixEpoch.checkedSub d) = some st) :
      ∃ items h, encodeProxy st = .ok (.ofItems 0 items h) ∧ (st = unixEpoch ↔ items = []) ∧
        decodeProxy (.ofItems 0 items h) = .ok (.ok st) := by
    obtain ⟨d, htotal, hwith⟩ := withSymbol_eq symbol hle
    have hlawful : (EmptyState.single (0 : U64)).Lawful 0 := EmptyState.lawful_single 0
    obtain ⟨hlength, hitems⟩ := LocalProxy.newWithoutEmptySuffix_eq hlawful
      (symbol ::ᵥ d.secs ::ᵥ .wrap d.nanos.val ::ᵥ .nil)
    have hpadded := LocalProxy.padded_trimmed hlawful
      (symbol ::ᵥ d.secs ::ᵥ .wrap d.nanos.val ::ᵥ .nil).toList_length
    refine ⟨_, hlength, hencode.trans (hwith.trans (congrArg _ hitems)), ?_, ?_⟩
    · apply iff_of_false hne
      intro hnil
      rw [hnil] at hpadded
      have hzero : (0 : U64) = symbol := congrArg (fun l => l.headD 0) hpadded
      rcases hsymbol with rfl | rfl
      · exact absurd hzero (by decide)
      · exact absurd hzero (by decide)
    · have hnanos : (.wrap d.nanos.val : U64).val = d.nanos.val :=
        Ranged.val_wrap d.nanos.le_val (by have := d.nanos.val_le; omega)
      have hdecode := decodeProxy_symbol (.newWithoutEmptySuffix (EmptyState.single 0)
        (symbol ::ᵥ d.secs ::ᵥ .wrap d.nanos.val ::ᵥ .nil)) hsymbol
        (hnanos.trans_le d.nanos.val_le) (Eq.refl d.secs) hnanos.symm
      rw [← hitems, hdecode]
      exact congrArg (fun x => Except.ok (okOr .outOfDomainValue x)) (hback d htotal)
  have hepoch := total_unixEpoch
  rcases lt_trichotomy st.total unixEpoch.total with hlt | heq | hgt
  · apply hsymbol (.inr rfl) hlt.le
    · unfold encodeProxy
      rw [compare_lt_iff_lt.mpr hlt]
    · rintro rfl
      exact hlt.false
    · intro d hd
      rw [if_neg (by decide), checkedSub, ofTotal?_eq_some]
      omega
  · obtain rfl := total_injective heq
    exact ⟨[], Nat.zero_le 3, rfl, iff_of_true rfl rfl, rfl⟩
  · apply hsymbol (.inl rfl) hgt.le
    · unfold encodeProxy
      rw [compare_gt_iff_gt.mpr hgt]
    · rintro rfl
      exact hgt.false
    · intro d hd
      rw [if_pos rfl, checkedAdd, ofTotal?_eq_some]
      omega

theorem roundTrips_parts : parts.RoundTrips .rangedU64 fun _ => True where
  encodes st := by
    obtain ⟨items, h, hencode, hempty, -⟩ := encodeProxy_spec st
    refine ⟨items, h, hencode, PartsSupport.gives_of_encodeProxy VarintScalar.lawful_rangedU64
      hencode, ?_⟩
    rw [← hempty]
    exact beq_iff_eq
  returns items h := decodeProxy_returns _
  back {st proxy} _ hencode := by
    obtain ⟨items, h, hencode', -, hdecode⟩ := encodeProxy_spec st
    obtain rfl := Except.ok.inj (hencode'.symm.trans hencode)
    exact hdecode
  acceptable _ := trivial
  decodes mode depth value := PartsSupport.leaves_decodeValue VarintScalar.lawful_rangedU64
    (by decide) (fun _ _ => decodeProxy_returns _) mode depth value

end SystemTime

end Types

end Bilrost
