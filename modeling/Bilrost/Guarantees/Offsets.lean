import Bilrost.Guarantees.Zones

/-!
What the two crates have for dates, times of day and offsets gives date-times that
come back from what they are encoded as, and from nothing else.
-/

namespace Bilrost

open Program Bilrost.Types

/-- There are parts below zero, and parts above it. -/
theorem mixedSigns_eq_true {hours mins secs : I8} : mixedSigns (hours, mins, secs) = true ↔
    (hours.val < 0 ∨ mins.val < 0 ∨ secs.val < 0) ∧ (0 < hours.val ∨ 0 < mins.val ∨ 0 < secs.val) := by
  have hsign (n : Int) : n < 0 ∧ n.sign = -1 ∨ n = 0 ∧ n.sign = 0 ∨ 0 < n ∧ n.sign = 1 := by
    rcases lt_trichotomy n 0 with hn | rfl | hn
    · exact .inl ⟨hn, Int.sign_eq_neg_one_of_neg hn⟩
    · exact .inr (.inl ⟨rfl, rfl⟩)
    · exact .inr (.inr ⟨hn, Int.sign_eq_one_of_pos hn⟩)
  obtain ⟨hh, hh'⟩ | ⟨hh, hh'⟩ | ⟨hh, hh'⟩ := hsign hours.val <;>
  obtain ⟨hm, hm'⟩ | ⟨hm, hm'⟩ | ⟨hm, hm'⟩ := hsign mins.val <;>
  obtain ⟨hs, hs'⟩ | ⟨hs, hs'⟩ | ⟨hs, hs'⟩ := hsign secs.val <;>
  simp [mixedSigns, signums, hh', hm', hs'] <;> omega

/-- Parts of one sign are not mixed. -/
theorem TimeZones.SameSigns.not_mixed {parts : OffsetParts} (h : SameSigns parts) :
    mixedSigns parts = false := by
  obtain ⟨hours, mins, secs⟩ := parts
  rw [Bool.eq_false_iff]
  intro hmixed
  obtain ⟨hneg, hpos⟩ := mixedSigns_eq_true.mp hmixed
  unfold SameSigns at h
  simp only at h
  omega

theorem refuses_okOr {α : Type} (x : Option α) : Refuses (okOr .outOfDomainValue x) := by
  cases x <;> rintro ⟨⟩

theorem Refuses.bind {α δ : Type} {x : Except DecodeErrorKind α}
    {f : α → Except DecodeErrorKind δ} (h : Refuses x) (hf : ∀ a, Refuses (f a)) :
    Refuses (x >>= f) := by
  cases x with
  | error kind => exact fun heq => h (congrArg Except.error (Except.error.inj heq))
  | ok a => exact hf a

theorem refuses_ok {α : Type} (a : α) : Refuses (.ok a) := by
  rintro ⟨⟩

namespace ChronoCalendar.Documented

variable {NaiveDate NaiveTime NaiveDateTime : Type}
  {chrono : ChronoCalendar NaiveDate NaiveTime NaiveDateTime} (h : chrono.Documented)
include h

/-- The parts of a date-time, as numbers. -/
theorem parts_naiveDateTime {dt : NaiveDateTime} {arr : List.Vector I32 6} :
    chrono.naiveDateTime.parts dt = .ok arr ↔
      ((chrono.year (chrono.date dt)).val = (arr.get 0).val ∧
        (chrono.ordinal0 (chrono.date dt)).val = (arr.get 1).val) ∧
      (chrono.hour (chrono.time dt)).val = (arr.get 2).val ∧
      (chrono.minute (chrono.time dt)).val = (arr.get 3).val ∧
      (chrono.second (chrono.time dt)).val = (arr.get 4).val ∧
      (chrono.nanosecond (chrono.time dt)).val = (arr.get 5).val := by
  obtain ⟨hhour, hminute, hsecond, hnano⟩ := h.wrap_time (chrono.time dt)
  simp only [naiveDateTime, Except.ok.injEq, eq_vector_six, h.wrap_ordinal0, hhour, hminute,
    hsecond, hnano, Ranged.ext_iff]

theorem dateTime_ext {dt dt' : NaiveDateTime} {arr : List.Vector I32 6}
    (hparts : chrono.naiveDateTime.parts dt = .ok arr)
    (hparts' : chrono.naiveDateTime.parts dt' = .ok arr) : dt = dt' := by
  obtain ⟨⟨hyear, hordinal⟩, hhour, hminute, hsecond, hnano⟩ := h.parts_naiveDateTime.mp hparts
  obtain ⟨⟨hyear', hordinal'⟩, hhour', hminute', hsecond', hnano'⟩ :=
    h.parts_naiveDateTime.mp hparts'
  rw [← h.new_date_time dt, ← h.new_date_time dt']
  congr 1
  · exact h.date_ext (Ranged.ext (hyear.trans hyear'.symm)) (Ranged.ext (hordinal.trans hordinal'.symm))
  · exact h.time_ext (Ranged.ext (hhour.trans hhour'.symm)) (Ranged.ext (hminute.trans hminute'.symm))
      (Ranged.ext (hsecond.trans hsecond'.symm)) (Ranged.ext (hnano.trans hnano'.symm))

theorem determines_naiveDateTime : chrono.naiveDateTime.Determines where
  injective := h.dateTime_ext
  refuses {arr decoded} hdecode := by
    obtain rfl := Except.ok.inj hdecode
    exact (refuses_okOr _).bind fun date => (refuses_okOr _).bind fun time => refuses_ok _
  forOverwrite := by
    obtain ⟨hyear, hordinal⟩ := h.fromYoOpt h.emptyDate
    obtain ⟨hsecs, hnano⟩ := h.fromNumSecondsFromMidnightOpt h.emptyTime
    obtain ⟨hhour, hminute, hsecond⟩ := h.numSecondsFromMidnight_eq_zero.mp hsecs
    apply h.parts_naiveDateTime.mpr
    have hone : (firstOrdinal : U32).val = 1 := rfl
    simp only [naiveDateTime, h.date_new, h.time_new, hyear, hhour, hminute, hsecond, hnano,
      List.Vector.get_replicate, Ranged.val_zero, true_and, and_true]
    omega

end ChronoCalendar.Documented

namespace TimeCalendar.Documented

variable {Date Time PrimitiveDateTime : Type} {time : TimeCalendar Date Time PrimitiveDateTime}
  [DecidableEq Date] [DecidableEq Time] (h : time.Documented)
include h

/-- The parts of a date-time, as numbers. -/
theorem parts_primitiveDateTime {dt : PrimitiveDateTime} {arr : List.Vector I32 6} :
    time.primitiveDateTime.parts dt = .ok arr ↔
      ((time.year (time.date dt)).val = (arr.get 0).val ∧
        (time.ordinal (time.date dt)).val - 1 = (arr.get 1).val) ∧
      (time.hour (time.time dt)).val = (arr.get 2).val ∧
      (time.minute (time.time dt)).val = (arr.get 3).val ∧
      (time.second (time.time dt)).val = (arr.get 4).val ∧
      (time.nanosecond (time.time dt)).val = (arr.get 5).val := by
  obtain ⟨ordinal0, hfit, -, hwrap⟩ := h.fit_ordinal0 (time.date dt)
  have hu8 {n : U8} {x : I32} : .wrap n.val = x ↔ n.val = x.val :=
    Ranged.widen_eq_iff (by decide) (by decide)
  simp only [primitiveDateTime, hfit, Attempt.ok_bind, Except.ok.injEq, eq_vector_six, hwrap, hu8,
    h.wrap_nanosecond, Ranged.ext_iff]

theorem dateTime_ext {dt dt' : PrimitiveDateTime} {arr : List.Vector I32 6}
    (hparts : time.primitiveDateTime.parts dt = .ok arr)
    (hparts' : time.primitiveDateTime.parts dt' = .ok arr) : dt = dt' := by
  obtain ⟨⟨hyear, hordinal⟩, hhour, hminute, hsecond, hnano⟩ := h.parts_primitiveDateTime.mp hparts
  obtain ⟨⟨hyear', hordinal'⟩, hhour', hminute', hsecond', hnano'⟩ :=
    h.parts_primitiveDateTime.mp hparts'
  rw [← h.new_date_time dt, ← h.new_date_time dt']
  congr 1
  · exact h.date_ext (Ranged.ext (hyear.trans hyear'.symm)) (Ranged.ext (by omega))
  · exact h.time_ext (Ranged.ext (hhour.trans hhour'.symm)) (Ranged.ext (hminute.trans hminute'.symm))
      (Ranged.ext (hsecond.trans hsecond'.symm)) (Ranged.ext (hnano.trans hnano'.symm))

theorem determines_primitiveDateTime : time.primitiveDateTime.Determines where
  injective := h.dateTime_ext
  refuses {arr decoded} hdecode := by
    obtain rfl := Except.ok.inj hdecode
    exact (refuses_okOr _).bind fun date => (refuses_okOr _).bind fun t => refuses_ok _
  forOverwrite := by
    obtain ⟨hyear, hordinal⟩ := h.emptyDate_iff.mp rfl
    obtain ⟨hhour, hminute, hsecond, hnano⟩ := h.midnight_iff.mp rfl
    apply h.parts_primitiveDateTime.mpr
    simp only [primitiveDateTime, h.date_new, h.time_new, hyear, hordinal, hhour, hminute, hsecond,
      hnano, List.Vector.get_replicate]
    exact ⟨⟨rfl, rfl⟩, rfl, rfl, rfl, rfl⟩

end TimeCalendar.Documented

namespace ChronoZones.Documented

variable {NaiveDateTime FixedOffset DateTime : Type}
  {zones : ChronoZones NaiveDateTime FixedOffset DateTime} (h : zones.Documented)
include h

/-- The parts of an offset, as numbers: it is divided toward zero. -/
theorem val_encodeProxy_fixedOffset (offset : FixedOffset) :
    (zones.fixedOffset.encodeProxy offset).1.val =
        ((zones.localMinusUtc offset).val.tdiv 60).tdiv 60 ∧
      (zones.fixedOffset.encodeProxy offset).2.1.val =
        ((zones.localMinusUtc offset).val.tdiv 60).tmod 60 ∧
      (zones.fixedOffset.encodeProxy offset).2.2.val = (zones.localMinusUtc offset).val.tmod 60 := by
  obtain ⟨hgt, hlt⟩ := h.lt_day offset
  obtain ⟨hmins, hpos, hneg⟩ := tdiv_tmod_spec (zones.localMinusUtc offset).val
    (by decide : (0 : Int) < 60)
  obtain ⟨hhours, hpos', hneg'⟩ := tdiv_tmod_spec ((zones.localMinusUtc offset).val.tdiv 60)
    (by decide : (0 : Int) < 60)
  refine ⟨Ranged.val_wrap ?_ ?_, Ranged.val_wrap ?_ ?_, Ranged.val_wrap ?_ ?_⟩ <;> omega

/-- The parts of an offset add up to it, and have one sign. -/
theorem encodeProxy_fixedOffset {offset : FixedOffset} {hours mins secs : I8}
    (hparts : zones.fixedOffset.encodeProxy offset = (hours, mins, secs)) :
    hours.val * 60 * 60 + mins.val * 60 + secs.val = (zones.localMinusUtc offset).val ∧
      TimeZones.SameSigns (hours, mins, secs) ∧ (-23 ≤ hours.val ∧ hours.val ≤ 23) ∧
      (-59 ≤ mins.val ∧ mins.val ≤ 59) ∧ -59 ≤ secs.val ∧ secs.val ≤ 59 := by
  obtain ⟨hgt, hlt⟩ := h.lt_day offset
  obtain ⟨hh, hm, hs⟩ := h.val_encodeProxy_fixedOffset offset
  rw [hparts] at hh hm hs
  obtain ⟨hmins, hpos, hneg⟩ := tdiv_tmod_spec (zones.localMinusUtc offset).val
    (by decide : (0 : Int) < 60)
  obtain ⟨hhours, hpos', hneg'⟩ := tdiv_tmod_spec ((zones.localMinusUtc offset).val.tdiv 60)
    (by decide : (0 : Int) < 60)
  simp only at hh hm hs
  unfold TimeZones.SameSigns
  refine ⟨by omega, ?_, by omega, by omega, by omega⟩
  simp only
  omega

/-- Parts in their ranges and of one sign are those of an offset. -/
theorem decodeProxy_fixedOffset {hours mins secs : I8} (hhours : -23 ≤ hours.val ∧ hours.val ≤ 23)
    (hmins : -59 ≤ mins.val ∧ mins.val ≤ 59) (hsecs : -59 ≤ secs.val ∧ secs.val ≤ 59)
    (hmixed : mixedSigns (hours, mins, secs) = false) :
    ∃ offset, zones.fixedOffset.decodeProxy (hours, mins, secs) = .ok (.ok offset) ∧
      (zones.localMinusUtc offset).val = hours.val * 60 * 60 + mins.val * 60 + secs.val := by
  have hsigns : mixedSigns (hours, mins, secs) ≠ true := by simp [hmixed]
  rw [ne_eq, mixedSigns_eq_true] at hsigns
  let total : I32 := ⟨hours.val * 60 * 60 + mins.val * 60 + secs.val, by omega, by omega⟩
  have htotal : total.val = hours.val * 60 * 60 + mins.val * 60 + secs.val := rfl
  obtain ⟨offset, hoffset⟩ :=
    Option.isSome_iff_exists.mp (@h.eastOpt_isSome total (by omega) (by omega))
  refine ⟨offset, ?_, congrArg Ranged.val (h.eastOpt hoffset)⟩
  unfold fixedOffset
  simp only
  rw [if_pos ⟨hhours, hmins, hsecs⟩, Ranged.fit_of_mem (by omega) (by omega), Attempt.ok_bind,
    hmixed, if_neg Bool.false_ne_true, hoffset]
  rfl

theorem lossless_fixedOffset : zones.fixedOffset.Lossless where
  returns parts := by
    obtain ⟨hours, mins, secs⟩ := parts
    by_cases hrange : (-23 ≤ hours.val ∧ hours.val ≤ 23) ∧ (-59 ≤ mins.val ∧ mins.val ≤ 59) ∧
        -59 ≤ secs.val ∧ secs.val ≤ 59
    · cases hmixed : mixedSigns (hours, mins, secs) with
      | false =>
          obtain ⟨offset, hdecode, -⟩ :=
            h.decodeProxy_fixedOffset hrange.1 hrange.2.1 hrange.2.2 hmixed
          exact ⟨_, hdecode, refuses_ok offset⟩
      | true =>
          refine ⟨.error .invalidValue, ?_, by rintro ⟨⟩⟩
          unfold fixedOffset
          simp only
          rw [if_pos hrange, Ranged.fit_of_mem (by omega) (by omega), Attempt.ok_bind, hmixed,
            if_pos rfl]
    · refine ⟨.error .outOfDomainValue, ?_, by rintro ⟨⟩⟩
      unfold fixedOffset
      simp only
      rw [if_neg hrange]
  back offset := by
    rcases hparts : zones.fixedOffset.encodeProxy offset with ⟨hours, mins, secs⟩
    obtain ⟨hsum, hsigns, hhours, hmins, hsecs⟩ := h.encodeProxy_fixedOffset hparts
    obtain ⟨offset', hdecode, hval⟩ :=
      h.decodeProxy_fixedOffset hhours hmins hsecs hsigns.not_mixed
    obtain rfl : offset' = offset := h.offset_ext (Ranged.ext (hval.trans hsum))
    exact hdecode
  isEmpty offset := by
    rcases hparts : zones.fixedOffset.encodeProxy offset with ⟨hours, mins, secs⟩
    obtain ⟨hsum, hsigns, -, -, -⟩ := h.encodeProxy_fixedOffset hparts
    unfold TimeZones.SameSigns at hsigns
    simp only [fixedOffset, beq_iff_eq, Prod.mk.injEq, Ranged.ext_iff, Ranged.val_zero] at hsigns ⊢
    omega
  forOverwrite := by
    rcases hparts : zones.fixedOffset.encodeProxy zones.emptyOffset with ⟨hours, mins, secs⟩
    obtain ⟨hsum, hsigns, -, -, -⟩ := h.encodeProxy_fixedOffset hparts
    have hzero := congrArg Ranged.val (h.eastOpt h.emptyOffset)
    rw [Ranged.val_zero] at hzero
    unfold TimeZones.SameSigns at hsigns
    show zones.fixedOffset.encodeProxy zones.emptyOffset = _
    rw [hparts]
    simp only [Prod.mk.injEq, Ranged.ext_iff, Ranged.val_zero] at hsigns ⊢
    omega

section
variable {NaiveDate NaiveTime : Type} {chrono : ChronoCalendar NaiveDate NaiveTime NaiveDateTime}

theorem lossless_dateTime :
    (zones.dateTime chrono).Lossless chrono.naiveDateTime zones.fixedOffset where
  back dt := h.fromNaiveUtcAndOffset dt
  isEmpty _ := rfl
  forOverwrite := Prod.ext (h.naiveUtc _ _) (h.offset _ _)

end

end ChronoZones.Documented

namespace TimeZones.Documented

variable {Date Time PrimitiveDateTime UtcOffset OffsetDateTime : Type} [DecidableEq UtcOffset]
  {zones : TimeZones Date Time PrimitiveDateTime UtcOffset OffsetDateTime}
  {time : TimeCalendar Date Time PrimitiveDateTime} (h : zones.Documented time)
include h

theorem lossless_utcOffset : zones.utcOffset.Lossless where
  returns parts := by
    cases hmixed : mixedSigns parts with
    | true =>
        refine ⟨.error .invalidValue, ?_, by rintro ⟨⟩⟩
        simp only [utcOffset, hmixed, if_true]
    | false =>
        refine ⟨_, ?_, refuses_okOr (zones.fromHms parts.1 parts.2.1 parts.2.2)⟩
        simp only [utcOffset, hmixed, Bool.false_eq_true, if_false]
  back offset := by
    obtain ⟨offset', hoffset⟩ := Option.isSome_iff_exists.mp (h.fromHms_isSome offset)
    obtain rfl : offset' = offset := h.offset_ext (h.fromHms (h.sameSigns offset) hoffset)
    simp only [utcOffset, (h.sameSigns offset').not_mixed, Bool.false_eq_true, if_false, hoffset,
      okOr]
  isEmpty offset := by
    rw [← h.utc]
    exact beq_iff_eq.trans ⟨congrArg _, h.offset_ext⟩
  forOverwrite := h.utc

variable [DecidableEq Date] [DecidableEq Time]

theorem lossless_offsetDateTime (htime : time.Documented) :
    (zones.offsetDateTime time).Lossless time.primitiveDateTime zones.utcOffset where
  back odt := by
    apply h.dateTime_ext
    · exact (h.date_replaceDateTime _ _).trans (htime.date_new _ _)
    · exact (h.time_replaceDateTime _ _).trans (htime.time_new _ _)
    · exact (h.offset_replaceDateTime _ _).trans (h.offset_replaceOffset _ _)
  isEmpty odt := by
    simp only [offsetDateTime, odtDecompose, TimeCalendar.primitiveDateTime,
      TimeCalendar.dateParts, TimeCalendar.timeParts, htime.date_new, htime.time_new]
  forOverwrite := by
    apply Prod.ext
    · show time.new _ _ = _
      rw [show (zones.offsetDateTime time).forOverwrite =
        zones.odtCompose time.primitiveDateTime.forOverwrite zones.utc from rfl, odtCompose,
        h.date_replaceDateTime, h.time_replaceDateTime, htime.new_date_time]
    · exact (h.offset_replaceDateTime _ _).trans (h.offset_replaceOffset _ _)

end TimeZones.Documented

end Bilrost
