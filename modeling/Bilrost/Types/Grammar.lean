import Bilrost.Types.Calendar
import Bilrost.Types.Text

/-!
The grammar of dates, times and offsets, and that it is what the parsers read.
-/

namespace Bilrost.Types

open Decimal Attempt

def TwoDigits (text : Str) (n : U8) : Prop := text.length = 2 ∧ Digits text ∧ n.val = value text

instance (text : Str) (n : U8) : Decidable (TwoDigits text n) :=
  inferInstanceAs (Decidable (_ ∧ _ ∧ _))

inductive YearText : Str → I64 → Prop where
  | plain {ds : Str} {year : I64} : ds.length = 4 → Digits ds → year.val = value ds →
      YearText ds year
  | plus {ds : Str} {year : I64} : 5 ≤ ds.length → Digits ds → year.val = value ds →
      YearText (ascii '+' :: ds) year
  | minus {ds : Str} {year : I64} : 4 ≤ ds.length → Digits ds → year.val = -value ds →
      YearText (ascii '-' :: ds) year

def DateText (text : Str) (date : I64 × U8 × U8) : Prop :=
  ∃ year month day, text = year ++ ascii '-' :: (month ++ ascii '-' :: day) ∧
    YearText year date.1 ∧ TwoDigits month date.2.1 ∧ TwoDigits day date.2.2

/-- A point and digits, of which those after the ninth are dropped. -/
inductive FractionText : Str → U32 → Prop where
  | none {nanos : U32} : nanos.val = 0 → FractionText [] nanos
  | some {ds : Str} {nanos : U32} : ds ≠ [] → Digits ds →
      nanos.val = (value ds * 10 ^ 9 / 10 ^ ds.length : Nat) → FractionText (ascii '.' :: ds) nanos

def TimeText (text : Str) (time : U8 × U8 × U8 × U32) : Prop :=
  ∃ hour minute second fraction,
    text = hour ++ ascii ':' :: (minute ++ ascii ':' :: (second ++ fraction)) ∧
      TwoDigits hour time.1 ∧ TwoDigits minute time.2.1 ∧ TwoDigits second time.2.2.1 ∧
      FractionText fraction time.2.2.2

/-- The minutes of an offset, with or without a colon in front. -/
inductive MinuteText : Str → U8 → Prop where
  | none {minute : U8} : minute.val = 0 → MinuteText [] minute
  | digits {ds : Str} {minute : U8} : TwoDigits ds minute → MinuteText ds minute
  | colon {ds : Str} {minute : U8} : TwoDigits ds minute → MinuteText (ascii ':' :: ds) minute

/-- A letter, or hours and minutes with a sign in front, that both have it. The
minutes are written as in `M`. -/
inductive ZoneText (M : Str → U8 → Prop) : Str → I8 × I8 → Prop where
  | zulu {z : UInt8} {offset : I8 × I8} : z = ascii 'Z' ∨ z = ascii 'z' → offset.1.val = 0 →
      offset.2.val = 0 → ZoneText M [z] offset
  | plus {ds minutes : Str} {hour minute : U8} {offset : I8 × I8} : TwoDigits ds hour →
      M minutes minute → hour.val < 24 → minute.val < 60 → offset.1.val = hour.val →
      offset.2.val = minute.val → ZoneText M (ascii '+' :: (ds ++ minutes)) offset
  | minus {ds minutes : Str} {hour minute : U8} {offset : I8 × I8} : TwoDigits ds hour →
      M minutes minute → hour.val < 24 → minute.val < 60 → offset.1.val = -hour.val →
      offset.2.val = -minute.val → ZoneText M (ascii '-' :: (ds ++ minutes)) offset

/-- An offset, which is none if it is left out. -/
inductive OffsetText (M : Str → U8 → Prop) : Str → I8 × I8 → Prop where
  | none {offset : I8 × I8} : offset.1.val = 0 → offset.2.val = 0 → OffsetText M [] offset
  | zone {zone : Str} {offset : I8 × I8} : ZoneText M zone offset → OffsetText M zone offset
  | spaceZone {zone : Str} {offset : I8 × I8} : ZoneText M zone offset →
      OffsetText M (ascii ' ' :: zone) offset

/-- The texts of timestamps, each with the local date-time and the offset that it
denotes. The second after 59 is read as 59. -/
inductive TimestampText (M : Str → U8 → Prop) : Str → DateTime → I8 × I8 → Prop where
  | date {text : Str} {year : I64} {month day : U8} : DateText text (year, month, day) →
      TimestampText M text ⟨year, month, day, 0, 0, 0, 0⟩ (0, 0)
  | time {date time offset : Str} {delimiter : UInt8} {year : I64}
      {month day hour minute second : U8} {nanos : U32} {o : I8 × I8} :
      DateText date (year, month, day) →
      delimiter = ascii 'T' ∨ delimiter = ascii 't' ∨ delimiter = ascii ' ' →
      TimeText time (hour, minute, second, nanos) → OffsetText M offset o →
      TimestampText M (date ++ delimiter :: (time ++ offset))
        ⟨year, month, day, hour, minute, rollBack second, nanos⟩ o

/-- A date, with the rest of the string. -/
abbrev dateThen (date : I64 × U8 × U8) (s : Str) : I64 × U8 × U8 × Str :=
  (date.1, date.2.1, date.2.2, s)

/-- A time of the day, with the rest of the string. -/
abbrev timeThen (time : U8 × U8 × U8 × U32) (s : Str) : U8 × U8 × U8 × U32 × Str :=
  (time.1, time.2.1, time.2.2.1, time.2.2.2, s)

/-- An offset, with the rest of the string. -/
abbrev offsetThen (offset : I8 × I8) (s : Str) : I8 × I8 × Str := (offset.1, offset.2, s)

def noOffset : I8 × I8 := (0, 0)

theorem parseChar_eq_ok {s : Str} {c : UInt8} {rest : Str} (h : parseChar s c = .ok rest) :
    s = c :: rest := by
  simp only [parseChar, bind_eq_ok, assert_eq_ok, ofOption_eq_ok, ensure_eq_ok, beq_iff_eq] at h
  obtain ⟨-, -, first, hfirst, -, rfl, hrest⟩ := h
  obtain ⟨tail, rfl⟩ := List.head?_eq_some_iff.mp hfirst
  rw [sliceFrom_eq_ok hrest]
  rfl

/-- Any text but one that begins with the character. -/
theorem parseChar_ne_ok {s : Str} {c : UInt8} (h : s.head? ≠ some c) (rest : Str) :
    parseChar s c ≠ .ok rest := by
  intro hok
  apply h
  rw [parseChar_eq_ok hok]
  rfl

theorem parseChar_reads (c : UInt8) : Reads (fun s => parseChar s c) (fun _ : UInt8 => id)
    (fun text b => text = [b] ∧ b = c) fun _ => True := by
  apply (Reads.first fun b => b == c).congr
  simp

theorem parseCharIgnoreCase_reads (c : UInt8) : Reads (fun s => parseCharIgnoreCase s c)
    (fun _ : UInt8 => id)
    (fun text b => text = [b] ∧ toAsciiLowercase b = toAsciiLowercase c) fun _ => True := by
  apply (Reads.first fun b => toAsciiLowercase b == toAsciiLowercase c).congr
  simp

/-- It does not begin with a digit. -/
def NoDigit (rest : Str) : Prop := ∀ b, rest.head? = some b → ¬IsDigit b

theorem parseDigits_reads : Reads parseDigits (fun ds s => (ds, s))
    (fun text ds => text = ds ∧ Digits ds) NoDigit := by
  unfold parseDigits
  apply Reads.assert
  have hsplit {s : Str} (hs : isAscii s = true) :
      splitAt s (s.findIdx fun c => !decide (IsDigit c)) =
        .ok (s.takeWhile fun c => decide (IsDigit c), s.dropWhile fun c => decide (IsDigit c)) := by
    rw [splitAt_of_isAscii hs List.findIdx_le_length, List.takeWhile_eq_take_findIdx_not,
      List.dropWhile_eq_drop_findIdx_not]
  constructor
  · intro s hs
    rw [hsplit hs]
    exact safe_ok _
  · intro s r hr
    rw [splitAt_eq_ok hr, ← List.takeWhile_eq_take_findIdx_not,
      ← List.dropWhile_eq_drop_findIdx_not]
    refine ⟨_, _, _, rfl, List.takeWhile_append_dropWhile.symm, rfl, ?_⟩
    intro d hd
    exact of_decide_eq_true (List.all_eq_true.mp List.all_takeWhile d hd)
  · rintro text rest _ hs ⟨rfl, hds⟩ hrest
    have hstop : rest.takeWhile (fun c => decide (IsDigit c)) = [] ∧
        rest.dropWhile (fun c => decide (IsDigit c)) = rest := by
      cases rest with
      | nil => exact ⟨rfl, rfl⟩
      | cons b rest =>
          have hb : ¬IsDigit b := hrest b rfl
          simp [hb]
    have hall : ∀ d ∈ text, decide (IsDigit d) = true := fun d hd => decide_eq_true (hds d hd)
    rw [hsplit hs, List.takeWhile_append_of_pos hall, List.dropWhile_append_of_pos hall, hstop.1,
      hstop.2, List.append_nil]

theorem parseTwoDigitNumeric_reads : Reads parseTwoDigitNumeric (fun n s => (n, s)) TwoDigits
    fun _ => True := by
  unfold parseTwoDigitNumeric
  apply Reads.assert
  constructor
  · intro s hs
    apply Safe.bind (safe_ensure _)
    intro _ hlength
    apply Safe.bind (safe_ensure _)
    intro _ _
    have hlength := of_decide_eq_true (ensure_eq_ok.mp hlength)
    rw [splitAt_of_isAscii hs hlength, ok_bind]
    apply Safe.bind (safe_ofOption _)
    intro n _
    exact safe_ok _
  · intro s r hr
    simp only [bind_eq_ok, ensure_eq_ok, decide_eq_true_eq, bne_iff_ne, ofOption_eq_ok] at hr
    obtain ⟨-, hlength, -, hplus, split, hsplit, hr⟩ := hr
    obtain rfl := splitAt_eq_ok hsplit
    obtain ⟨n, hn, hr⟩ := hr
    have hhead : (s.take 2).head? ≠ some (ascii '+') := by
      rwa [List.head?_take, if_neg (by decide)]
    have hdigits := digits_of_parseInt hhead hn
    refine ⟨s.take 2, n, s.drop 2, (Except.ok.inj hr).symm, (List.take_append_drop 2 s).symm, ?_,
      hdigits, ((parseInt_of_digits hdigits).mp hn).2⟩
    rw [List.length_take]
    omega
  · rintro text rest n hs ⟨hlength, hdigits, hn⟩ -
    have hne : text ≠ [] := List.ne_nil_of_length_pos (by omega)
    have hhead : (text ++ rest).head? ≠ some (ascii '+') := by
      rw [List.head?_append_of_ne_nil _ hne]
      intro hplus
      exact absurd (hdigits _ (List.mem_of_mem_head? hplus)) (by decide)
    have hlong : 2 ≤ (text ++ rest).length := by
      rw [List.length_append]
      omega
    have hparse : parseInt text = some n := (parseInt_of_digits hdigits).mpr ⟨hne, hn⟩
    have hensure : ensure true = .ok () := rfl
    rw [decide_eq_true hlong, bne_iff_ne.mpr hhead, splitAt_of_isAscii hs hlong, hensure, ok_bind,
      ok_bind, ok_bind, List.take_left' hlength, List.drop_left' hlength]
    dsimp only
    rw [hparse]
    rfl

theorem exists_twoDigits (text : Str) (hlength : text.length = 2) (h : Digits text) :
    ∃ n, TwoDigits text n := by
  have hlt := value_lt h
  rw [hlength] at hlt
  exact ⟨⟨value text, by omega, by omega⟩, hlength, h, rfl⟩

theorem parsePlusYear_reads : Reads parsePlusYear (fun date s => (date, s))
    (fun ds date => 5 ≤ ds.length ∧ Digits ds ∧ date.val = value ds) NoDigit := by
  refine Reads.congr (parseDigits_reads.bind (fun _ ds _ => Reads.guard (safe_ensure _) fun _ _ =>
    Reads.guard (safe_ofOption _) fun date _ => Reads.ok date fun _ => rfl) ?_) ?_
  · rintro _ _ _ rest ⟨_, _, _, _, rfl, _⟩ hrest
    exact hrest
  · intro text date
    constructor
    · rintro ⟨ds, _, _, rfl, ⟨rfl, hds⟩, _, hlength, _, hparse, rfl, rfl⟩
      rw [List.append_nil]
      exact ⟨of_decide_eq_true (ensure_eq_ok.mp hlength), hds,
        ((parseInt_of_digits hds).mp (ofOption_eq_ok.mp hparse)).2⟩
    · rintro ⟨hlength, hds, hdate⟩
      have hne : text ≠ [] := List.ne_nil_of_length_pos (by omega)
      exact ⟨text, [], text, (List.append_nil _).symm, ⟨rfl, hds⟩, (),
        ensure_eq_ok.mpr (decide_eq_true hlength), date,
        ofOption_eq_ok.mpr ((parseInt_of_digits hds).mpr ⟨hne, hdate⟩), rfl, rfl⟩

theorem parseMinusYear_reads : Reads parseMinusYear (fun date s => (date, s))
    (fun ds date => 4 ≤ ds.length ∧ Digits ds ∧ date.val = -value ds ∧
      -9223372036854775808 < date.val) NoDigit := by
  have hparse {ds : Str} {date : I64} (hds : Digits ds) (hdate : ofOption (parseInt ds) = .ok date) :
      date.val = value ds := ((parseInt_of_digits hds).mp (ofOption_eq_ok.mp hdate)).2
  have hsafe {ds : Str} {date : I64} (hds : Digits ds)
      (hdate : ofOption (parseInt ds) = .ok date) : Safe (Ranged.fit (-date.val) : Attempt I64) := by
    have hval := hparse hds hdate
    have hle := date.val_le
    rw [Ranged.fit_of_mem (by omega) (by omega)]
    exact safe_ok _
  refine Reads.congr (parseDigits_reads.bind (fun _ ds h => Reads.guard (safe_ensure _) fun _ _ =>
    Reads.guard (safe_ofOption _) fun date hdate => Reads.guard (hsafe h.2 hdate) fun date _ =>
    Reads.ok date fun _ => rfl) ?_) ?_
  · rintro _ _ _ rest ⟨_, _, _, _, _, _, rfl, _⟩ hrest
    exact hrest
  · intro text date
    constructor
    · rintro ⟨ds, _, _, rfl, ⟨rfl, hds⟩, _, hlength, positive, hdate, _, hneg, rfl, rfl⟩
      have hval := hparse hds hdate
      have hle := positive.val_le
      rw [List.append_nil, Ranged.fit_eq_ok.mp hneg, hval]
      exact ⟨of_decide_eq_true (ensure_eq_ok.mp hlength), hds, rfl, by omega⟩
    · rintro ⟨hlength, hds, hdate, hleast⟩
      have hne : text ≠ [] := List.ne_nil_of_length_pos (by omega)
      obtain ⟨positive, hpositive⟩ : ∃ y : I64, y.val = value text :=
        ⟨⟨value text, by omega, by omega⟩, rfl⟩
      refine ⟨text, [], text, (List.append_nil _).symm, ⟨rfl, hds⟩, (),
        ensure_eq_ok.mpr (decide_eq_true hlength), positive,
        ofOption_eq_ok.mpr ((parseInt_of_digits hds).mpr ⟨hne, hpositive⟩), date,
        Ranged.fit_eq_ok.mpr ?_, rfl, rfl⟩
      rw [hdate, hpositive]

theorem parsePlainYear_reads : Reads parsePlainYear (fun date s => (date, s))
    (fun ds date => ds.length = 4 ∧ Digits ds ∧ date.val = value ds) fun _ => True := by
  have hsafe (n : U8) : Safe (Ranged.fit (n.val * 100) : Attempt I64) := by
    have hle := n.le_val
    have hge := n.val_le
    rw [Ranged.fit_of_mem (by omega) (by omega)]
    exact safe_ok _
  have hsafe' {n₁ n₂ : U8} {hundreds : I64}
      (hhundreds : (Ranged.fit (n₁.val * 100) : Attempt I64) = .ok hundreds) :
      Safe (Ranged.fit (hundreds.val + n₂.val) : Attempt I64) := by
    have hval := Ranged.fit_eq_ok.mp hhundreds
    have hle := n₁.le_val
    have hge := n₁.val_le
    have hle' := n₂.le_val
    have hge' := n₂.val_le
    rw [Ranged.fit_of_mem (by omega) (by omega)]
    exact safe_ok _
  refine Reads.congr (parseTwoDigitNumeric_reads.seq fun _ n₁ _ =>
    parseTwoDigitNumeric_reads.seq fun _ n₂ _ => Reads.guard (hsafe n₁) fun hundreds hhundreds =>
    Reads.guard (hsafe' hhundreds) fun date _ => Reads.ok date fun _ => rfl) ?_
  intro text date
  constructor
  · rintro ⟨t₁, _, n₁, rfl, ⟨hlength₁, hds₁, hn₁⟩, t₂, _, n₂, rfl, ⟨hlength₂, hds₂, hn₂⟩, hundreds,
      hhundreds, _, hdate, rfl, rfl⟩
    rw [List.append_nil]
    refine ⟨?_, ?_, ?_⟩
    · rw [List.length_append, hlength₁, hlength₂]
    · intro d hd
      exact (List.mem_append.mp hd).elim (hds₁ d) (hds₂ d)
    · rw [Ranged.fit_eq_ok.mp hdate, Ranged.fit_eq_ok.mp hhundreds, hn₁, hn₂, value_append,
        hlength₂]
      push_cast
      rfl
  · rintro ⟨hlength, hds, hdate⟩
    obtain ⟨n₁, h₁⟩ := exists_twoDigits (text.take 2) (by simp [hlength])
      fun d hd => hds d (List.mem_of_mem_take hd)
    obtain ⟨n₂, h₂⟩ := exists_twoDigits (text.drop 2) (by simp [hlength])
      fun d hd => hds d (List.mem_of_mem_drop hd)
    have hle := n₁.le_val
    have hge := n₁.val_le
    obtain ⟨hundreds, hhundreds⟩ : ∃ n : I64, n.val = n₁.val * 100 :=
      ⟨⟨n₁.val * 100, by omega, by omega⟩, rfl⟩
    refine ⟨text.take 2, _, n₁, (List.take_append_drop 2 text).symm, h₁, text.drop 2, [], n₂,
      (List.append_nil _).symm, h₂, hundreds, Ranged.fit_eq_ok.mpr hhundreds, date,
      Ranged.fit_eq_ok.mpr ?_, rfl, rfl⟩
    have hsplit := value_append (text.take 2) (text.drop 2)
    rw [List.take_append_drop, h₂.1] at hsplit
    rw [hdate, hsplit, hhundreds, h₁.2.2, h₂.2.2]
    push_cast
    rfl

/-- The least number of the type is not the negation of one. -/
theorem parseYear_reads : Reads (fun s => do
    ensure (!s.isEmpty)
    parseYear s) (fun year s => (year, s))
    (fun text year => YearText text year ∧ -9223372036854775808 < year.val) NoDigit where
  safe := by
    intro s hs
    apply Safe.bind (safe_ensure _)
    intro _ hne
    cases s with
    | nil => cases hne
    | cons b rest =>
        have hrest := (isAscii_cons.mp hs).2
        have hslice := sliceFrom_of_isAscii hs (i := 1) (by simp)
        rw [parseYear, hslice]
        apply Safe.bind (safe_ok b)
        intro first _
        split_ifs
        · exact parsePlusYear_reads.safe hrest
        · exact parseMinusYear_reads.safe hrest
        · exact parsePlainYear_reads.safe hs
  sound := by
    intro s r hr
    obtain ⟨_, -, hyear⟩ := bind_eq_ok.mp hr
    obtain ⟨first, hfirst, hyear⟩ := bind_eq_ok.mp hyear
    cases s with
    | nil => cases hfirst
    | cons b s =>
        obtain rfl : b = first := Except.ok.inj hfirst
        split_ifs at hyear with hplus hminus
        · obtain ⟨s', hs, hread⟩ := bind_eq_ok.mp hyear
          obtain ⟨ds, year, rest, hmk, hrest, hlength, hds, hval⟩ := parsePlusYear_reads.sound hread
          have hs' : s = ds ++ rest := (sliceFrom_eq_ok hs).symm.trans hrest
          rw [hs', hplus]
          exact ⟨ascii '+' :: ds, year, rest, hmk, rfl, .plus hlength hds hval, by omega⟩
        · obtain ⟨s', hs, hread⟩ := bind_eq_ok.mp hyear
          obtain ⟨ds, year, rest, hmk, hrest, hlength, hds, hval, hleast⟩ :=
            parseMinusYear_reads.sound hread
          have hs' : s = ds ++ rest := (sliceFrom_eq_ok hs).symm.trans hrest
          rw [hs', hminus]
          exact ⟨ascii '-' :: ds, year, rest, hmk, rfl, .minus hlength hds hval, hleast⟩
        · obtain ⟨ds, year, rest, hmk, hrest, hlength, hds, hval⟩ :=
            parsePlainYear_reads.sound hyear
          exact ⟨ds, year, rest, hmk, hrest, .plain hlength hds hval, by omega⟩
  complete := by
    rintro text rest year hs ⟨hyear, hleast⟩ hrest
    cases hyear with
    | plain hlength hds hyear =>
        have hread := parsePlainYear_reads.complete _ _ hs ⟨hlength, hds, hyear⟩ trivial
        cases text with
        | nil => cases hlength
        | cons b text =>
            have hb := hds b List.mem_cons_self
            have hplus : b ≠ ascii '+' := by
              rintro rfl
              exact absurd hb (by decide)
            have hminus : b ≠ ascii '-' := by
              rintro rfl
              exact absurd hb (by decide)
            have hfirst : index (b :: text ++ rest) 0 = .ok b := rfl
            have hensure : ensure (!(b :: text ++ rest).isEmpty) = .ok () := rfl
            rw [hensure, ok_bind, parseYear, hfirst, ok_bind, if_neg hplus, if_neg hminus]
            exact hread
    | @plus ds _ hlength hds hyear =>
        have hread := parsePlusYear_reads.complete _ _ (isAscii_cons.mp hs).2 ⟨hlength, hds, hyear⟩ hrest
        have hslice := sliceFrom_of_isAscii hs (i := 1) (by simp)
        have hfirst : index (ascii '+' :: ds ++ rest) 0 = .ok (ascii '+') := rfl
        have hensure : ensure (!(ascii '+' :: ds ++ rest).isEmpty) = .ok () := rfl
        rw [hensure, ok_bind, parseYear, hfirst, ok_bind, if_pos rfl, hslice, ok_bind]
        exact hread
    | @minus ds _ hlength hds hyear =>
        have hread := parseMinusYear_reads.complete _ _ (isAscii_cons.mp hs).2
          ⟨hlength, hds, hyear, hleast⟩ hrest
        have hslice := sliceFrom_of_isAscii hs (i := 1) (by simp)
        have hfirst : index (ascii '-' :: ds ++ rest) 0 = .ok (ascii '-') := rfl
        have hensure : ensure (!(ascii '-' :: ds ++ rest).isEmpty) = .ok () := rfl
        rw [hensure, ok_bind, parseYear, hfirst, ok_bind, if_neg (by decide), if_pos rfl, hslice,
          ok_bind]
        exact hread

theorem YearText.length_le {text : Str} {year : I64} (h : YearText text year) : 4 ≤ text.length := by
  cases h with
  | plain hlength => exact hlength.ge
  | plus hlength => exact (by decide : 4 ≤ 5).trans (hlength.trans (Nat.le_succ _))
  | minus hlength => exact hlength.trans (Nat.le_succ _)

theorem parseMonthDay_reads (year : I64) : Reads (parseMonthDay year)
    dateThen
    (fun text date => date.1 = year ∧ ∃ month day, text = ascii '-' :: (month ++ ascii '-' :: day) ∧
      TwoDigits month date.2.1 ∧ TwoDigits day date.2.2) fun _ => True := by
  refine Reads.congr ((parseChar_reads _).seq fun _ _ _ => parseTwoDigitNumeric_reads.seq
    fun _ month _ => (parseChar_reads _).seq fun _ _ _ => parseTwoDigitNumeric_reads.seq
    fun _ day _ => Reads.ok (year, month, day) fun _ => rfl) ?_
  rintro text ⟨year', month, day⟩
  constructor
  · rintro ⟨_, _, _, rfl, ⟨rfl, rfl⟩, t₁, _, _, rfl, h₁, _, _, _, rfl, ⟨rfl, rfl⟩, t₂, _, _, rfl, h₂,
      rfl, heq⟩
    cases heq
    refine ⟨rfl, t₁, t₂, ?_, h₁, h₂⟩
    simp
  · rintro ⟨rfl, t₁, t₂, rfl, h₁, h₂⟩
    refine ⟨[_], _, _, rfl, ⟨rfl, rfl⟩, t₁, _, _, rfl, h₁, [_], _, _, rfl, ⟨rfl, rfl⟩, t₂, [], _, ?_,
      h₂, rfl, rfl⟩
    exact (List.append_nil _).symm

theorem parseDate_reads : Reads parseDate dateThen
    (fun text date => DateText text date ∧ -9223372036854775808 < date.1.val) fun _ => True := by
  have hdate : Reads (fun s => (do
      ensure (!s.isEmpty)
      parseYear s) >>= fun year => parseMonthDay year.1 year.2) dateThen
      (fun text date => DateText text date ∧ -9223372036854775808 < date.1.val) fun _ => True := by
    refine Reads.congr (parseYear_reads.bind (fun _ year _ => parseMonthDay_reads year) ?_) ?_
    · rintro _ _ _ rest ⟨-, _, _, rfl, _⟩ - b hb
      cases hb
      decide
    · rintro text ⟨year, month, day⟩
      constructor
      · rintro ⟨t₁, _, _, rfl, ⟨h₁, hleast⟩, rfl, t₂, t₃, rfl, h₂, h₃⟩
        exact ⟨⟨t₁, t₂, t₃, rfl, h₁, h₂, h₃⟩, hleast⟩
      · rintro ⟨⟨t₁, t₂, t₃, rfl, h₁, h₂, h₃⟩, hleast⟩
        exact ⟨t₁, _, _, rfl, ⟨h₁, hleast⟩, rfl, t₂, t₃, rfl, h₂, h₃⟩
  unfold parseDate
  apply Reads.assert
  apply hdate.ensure
  · intro s hs
    have hlength := of_decide_eq_true hs
    have hensure : ensure (!s.isEmpty) = .ok () := by
      cases s with
      | nil => cases hlength
      | cons b s => rfl
    rw [hensure, ok_bind]
  · rintro text ⟨year, month, day⟩ rest ⟨⟨t₁, t₂, t₃, rfl, h₁, h₂, h₃⟩, -⟩
    have hyear := h₁.length_le
    have hmonth := h₂.1
    have hday := h₃.1
    apply decide_eq_true
    simp only [List.length_append, List.length_cons]
    omega

/-- The first nine digits, scaled up, are the whole fraction rounded down. -/
theorem value_take_nine {ds : Str} (h : Digits ds) :
    10 ^ (9 - min 9 ds.length) * value (ds.take 9) = value ds * 10 ^ 9 / 10 ^ ds.length := by
  rw [value_take h]
  rcases le_total ds.length 9 with hle | hge
  · have hpow : 10 ^ 9 = 10 ^ (9 - ds.length) * 10 ^ ds.length := by
      rw [← pow_add, Nat.sub_add_cancel hle]
    rw [min_eq_right hle, Nat.sub_eq_zero_of_le hle, pow_zero, Nat.div_one, hpow, ← mul_assoc,
      Nat.mul_div_cancel _ (Nat.pow_pos (by decide)), mul_comm]
  · have hpow : 10 ^ ds.length = 10 ^ (ds.length - 9) * 10 ^ 9 := by
      rw [← pow_add, Nat.sub_add_cancel hge]
    rw [min_eq_left hge, Nat.sub_self, pow_zero, one_mul, hpow,
      Nat.mul_div_mul_right _ _ (by decide : 0 < 10 ^ 9)]

theorem nanoDigits_eq {ds : Str} (h : Digits ds) : nanoDigits ds = .ok (ds.take 9) := by
  unfold nanoDigits
  split_ifs with hmore
  · rw [splitAt_of_isAscii (isAscii_of_digits h) hmore.le, ok_bind]
  · rw [List.take_of_length_le (not_lt.mp hmore)]

theorem nanosOfDigits_nil {casts : Casts} : nanosOfDigits casts [] = .error .nothing := by
  cases casts <;> decide

/-- The nanoseconds of some digits, of which those after the ninth are dropped. -/
theorem nanosOfDigits_returns (casts : Casts) {ds : Str} (h : Digits ds) (hne : ds ≠ []) :
    (nanosOfDigits casts ds).Returns fun nanos =>
      nanos.val = (value ds * 10 ^ 9 / 10 ^ ds.length : Nat) := by
  have hdigits : Digits (ds.take 9) := fun d hd => h d (List.mem_of_mem_take hd)
  have hlength : (ds.take 9).length = min 9 ds.length := List.length_take
  have hpos : 0 < ds.length := List.length_pos_iff.mpr hne
  have hlt := value_lt hdigits
  rw [nanosOfDigits, nanoDigits_eq h, ok_bind]
  apply Casts.cast_bind (by omega) (by omega)
  intro length hval
  apply Ranged.fit_bind (by omega) (by omega)
  intro exponent hexponent
  have hexp : exponent.val.toNat = 9 - min 9 ds.length := by omega
  have hscale : (10 : Int) ^ (9 - min 9 ds.length) = (10 ^ (9 - min 9 ds.length) : Nat) :=
    (Nat.cast_pow 10 _).symm
  have hscale_le : 10 ^ (9 - min 9 ds.length) ≤ 10 ^ 9 :=
    Nat.pow_le_pow_right (by decide) (Nat.sub_le _ _)
  have hfraction_lt : value (ds.take 9) < 10 ^ 9 :=
    lt_of_lt_of_le hlt (Nat.pow_le_pow_right (by decide) (by omega))
  have hproduct : 10 ^ (9 - min 9 ds.length) * value (ds.take 9) < 10 ^ 9 := by
    have hlt' := Nat.mul_lt_mul_of_pos_left hlt (Nat.pow_pos (n := 9 - min 9 ds.length)
      (by decide : 0 < 10))
    rwa [hlength, ← pow_add, Nat.sub_add_cancel (min_le_left _ _)] at hlt'
  rw [hexp, hscale, ← value_take_nine h]
  generalize 10 ^ (9 - min 9 ds.length) = scale at *
  apply Ranged.fit_bind (by omega) (by omega)
  intro scale' hscale'
  have hparse : (parseInt (ds.take 9) : Option U32) =
      some ⟨value (ds.take 9), by omega, by omega⟩ := by
    rw [parseInt_of_digits hdigits]
    exact ⟨List.ne_nil_of_length_pos (by omega), rfl⟩
  have hexact : scale'.val * (value (ds.take 9) : Int) = (scale * value (ds.take 9) : Nat) := by
    rw [hscale', Nat.cast_mul]
  rw [hparse, ofOption, ok_bind, hexact]
  apply Ranged.fit_returns (by omega) (by omega)
  exact fun nanos hnanos => hnanos

theorem safe_nanosOfDigits {casts : Casts} {ds : Str} (h : Digits ds) :
    Safe (nanosOfDigits casts ds) := by
  by_cases hne : ds = []
  · rw [hne, nanosOfDigits_nil]
    simp [Safe]
  · obtain ⟨nanos, hnanos, -⟩ := nanosOfDigits_returns casts h hne
    exact safe_of_eq_ok hnanos

/-- What ends a fraction, or stands in the place of one. -/
def NoFraction (rest : Str) : Prop := NoDigit rest ∧ rest.head? ≠ some (ascii '.')

theorem parseFraction_reads (casts : Casts) : Reads (parseFraction casts)
    (fun nanos s => (nanos, s)) (fun ds nanos => ds ≠ [] ∧ Digits ds ∧
      nanos.val = (value ds * 10 ^ 9 / 10 ^ ds.length : Nat)) NoDigit := by
  refine Reads.congr (parseDigits_reads.bind (fun _ ds h => Reads.guard
    (safe_nanosOfDigits h.2) fun nanos _ => Reads.ok nanos fun _ => rfl) ?_) ?_
  · rintro _ _ _ rest ⟨_, _, rfl, _⟩ hrest
    exact hrest
  · intro text nanos
    constructor
    · rintro ⟨ds, _, _, rfl, ⟨rfl, hdigits⟩, _, hnanos, rfl, rfl⟩
      rw [List.append_nil]
      by_cases hne : ds = []
      · rw [hne, nanosOfDigits_nil] at hnanos
        cases hnanos
      · obtain ⟨_, hret, hval⟩ := nanosOfDigits_returns casts hdigits hne
        obtain rfl := Except.ok.inj (hnanos.symm.trans hret)
        exact ⟨hne, hdigits, hval⟩
    · rintro ⟨hne, hdigits, hval⟩
      obtain ⟨nanos', hret, hval'⟩ := nanosOfDigits_returns casts hdigits hne
      obtain rfl : nanos = nanos' := Ranged.ext (hval.trans hval'.symm)
      exact ⟨text, [], text, (List.append_nil _).symm, ⟨rfl, hdigits⟩, nanos, hret, rfl, rfl⟩

theorem parseNanos_reads (casts : Casts) : Reads (parseNanos casts) (fun nanos s => (nanos, s))
    FractionText NoFraction := by
  unfold parseNanos
  apply Reads.assert
  refine Reads.congr (Reads.orElse (parseChar_reads _)
    (fun _ _ _ _ => (parseFraction_reads casts).mono fun _ h => h.1)
    (Reads.ok 0 fun _ => rfl) (fun _ _ => trivial) ?_) ?_
  · rintro _ _ rest ⟨rfl, rfl⟩ hrest
    exact parseChar_ne_ok hrest.2
  · intro text nanos
    constructor
    · rintro (⟨_, ds, _, rfl, ⟨rfl, rfl⟩, hne, hdigits, hval⟩ | ⟨rfl, rfl⟩)
      · exact .some hne hdigits hval
      · exact .none rfl
    · rintro (hzero | ⟨hne, hdigits, hval⟩)
      · exact .inr ⟨rfl, Ranged.ext hzero⟩
      · exact .inl ⟨_, _, _, rfl, ⟨rfl, rfl⟩, hne, hdigits, hval⟩

theorem parseTime_reads (casts : Casts) : Reads (parseTime casts)
    timeThen TimeText NoFraction := by
  unfold parseTime
  apply Reads.assert
  refine Reads.congr (parseTwoDigitNumeric_reads.seq fun _ hour _ =>
    (parseChar_reads _).seq fun _ _ _ => parseTwoDigitNumeric_reads.seq fun _ minute _ =>
    (parseChar_reads _).seq fun _ _ _ => parseTwoDigitNumeric_reads.seq fun _ second _ =>
    (parseNanos_reads casts).bind (fun _ nanos _ => Reads.ok (hour, minute, second, nanos)
      fun _ => rfl) ?_) ?_
  · rintro _ _ _ rest ⟨rfl, _⟩ hrest
    exact hrest
  · rintro text ⟨hour, minute, second, nanos⟩
    constructor
    · rintro ⟨t₁, _, _, rfl, h₁, _, _, _, rfl, ⟨rfl, rfl⟩, t₂, _, _, rfl, h₂, _, _, _, rfl,
        ⟨rfl, rfl⟩, t₃, _, _, rfl, h₃, t₄, _, _, rfl, h₄, rfl, heq⟩
      cases heq
      refine ⟨t₁, t₂, t₃, t₄, ?_, h₁, h₂, h₃, h₄⟩
      simp
    · rintro ⟨t₁, t₂, t₃, t₄, rfl, h₁, h₂, h₃, h₄⟩
      refine ⟨t₁, _, _, rfl, h₁, [_], _, _, rfl, ⟨rfl, rfl⟩, t₂, _, _, rfl, h₂, [_], _, _, rfl,
        ⟨rfl, rfl⟩, t₃, _, _, rfl, h₃, t₄, [], _, ?_, h₄, rfl, rfl⟩
      exact (List.append_nil _).symm

theorem TwoDigits.ne_nil {text : Str} {n : U8} (h : TwoDigits text n) : text ≠ [] := by
  rintro rfl
  cases h.1

theorem TwoDigits.head?_ne {text rest : Str} {n : U8} (h : TwoDigits text n) {c : UInt8}
    (hc : ¬IsDigit c) : (text ++ rest).head? ≠ some c := by
  rw [List.head?_append_of_ne_nil _ h.ne_nil]
  intro hhead
  exact hc (h.2.1 c (List.mem_of_mem_head? hhead))

theorem parseSign_reads : Reads parseSign (fun positive s => (positive, s))
    (fun text positive => text = [ascii '+'] ∧ positive = true ∨
      text = [ascii '-'] ∧ positive = false) fun _ => True := by
  unfold parseSign
  refine Reads.congr (Reads.orElse (parseChar_reads _) (fun _ _ _ _ => Reads.ok true fun _ => rfl)
    ((parseChar_reads _).seq fun _ _ _ => Reads.ok false fun _ => rfl) (fun _ _ => trivial) ?_) ?_
  · rintro _ _ rest ⟨_, _, _, rfl, ⟨rfl, rfl⟩, rfl, _⟩ -
    exact parseChar_ne_ok (by simp; decide)
  · intro text positive
    constructor
    · rintro (⟨_, _, _, rfl, ⟨rfl, rfl⟩, rfl, rfl⟩ | ⟨_, _, _, rfl, ⟨rfl, rfl⟩, rfl, rfl⟩)
      · exact .inl ⟨rfl, rfl⟩
      · exact .inr ⟨rfl, rfl⟩
    · rintro (⟨rfl, rfl⟩ | ⟨rfl, rfl⟩)
      · exact .inl ⟨_, _, _, rfl, ⟨rfl, rfl⟩, rfl, rfl⟩
      · exact .inr ⟨_, _, _, rfl, ⟨rfl, rfl⟩, rfl, rfl⟩

theorem parseColonMinute_reads : Reads parseColonMinute (fun minute s => (minute, s))
    (fun text minute => (∃ ds, text = ascii ':' :: ds ∧ TwoDigits ds minute) ∨
      TwoDigits text minute) fun _ => True := by
  refine Reads.congr (Reads.orElse (parseChar_reads _) (fun _ _ _ _ => parseTwoDigitNumeric_reads)
    parseTwoDigitNumeric_reads (fun _ _ => trivial) ?_) ?_
  · intro text minute rest h _
    exact parseChar_ne_ok (h.head?_ne (by decide))
  · intro text minute
    constructor
    · rintro (⟨_, ds, _, rfl, ⟨rfl, rfl⟩, h⟩ | h)
      · exact .inl ⟨ds, rfl, h⟩
      · exact .inr h
    · rintro (⟨ds, rfl, h⟩ | h)
      · exact .inl ⟨[_], ds, _, rfl, ⟨rfl, rfl⟩, h⟩
      · exact .inr h

theorem parseOffsetMinute_reads : Reads parseOffsetMinute (fun minute s => (minute, s)) MinuteText
    fun rest => rest = [] := by
  unfold parseOffsetMinute
  refine Reads.congr ((Reads.ifEmpty 0 parseColonMinute_reads ?_).mono
    fun _ h => ⟨h, trivial⟩) ?_
  · rintro text minute (⟨ds, rfl, -⟩ | h)
    · exact List.cons_ne_nil _ _
    · exact h.ne_nil
  · intro text minute
    constructor
    · rintro (⟨rfl, rfl⟩ | ⟨ds, rfl, h⟩ | h)
      · exact .none rfl
      · exact .colon h
      · exact .digits h
    · rintro (hzero | h | h)
      · exact .inl ⟨rfl, Ranged.ext hzero⟩
      · exact .inr (.inr h)
      · exact .inr (.inl ⟨_, rfl, h⟩)

theorem toAsciiLowercase_eq_iff {b c : UInt8} (hle : 65 ≤ c) (hge : c ≤ 90) :
    toAsciiLowercase b = toAsciiLowercase c ↔ b = c ∨ b = c + 32 := by
  have hc : toAsciiLowercase c = c + 32 := if_pos ⟨hle, hge⟩
  rw [hc]
  unfold toAsciiLowercase
  simp only [UInt8.le_iff_toNat_le, ← UInt8.toNat_inj, UInt8.toNat_add, UInt8.reduceToNat] at *
  have := b.toNat_lt
  split_ifs with hupper
  · rw [UInt8.toNat_add]
    simp only [UInt8.reduceToNat]
    omega
  · omega

theorem parseDelimiter_reads : Reads parseDelimiter (fun _ : UInt8 => id) (fun text b => text = [b] ∧
    (b = ascii 'T' ∨ b = ascii 't' ∨ b = ascii ' ')) fun _ => True := by
  have hcase {b : UInt8} := toAsciiLowercase_eq_iff (b := b) (c := ascii 'T') (by decide) (by decide)
  have hlower : ascii 'T' + 32 = ascii 't' := rfl
  unfold parseDelimiter
  refine Reads.congr (Reads.orElse (parseCharIgnoreCase_reads _)
    (fun _ b _ _ => Reads.ok b fun _ => rfl) (parseChar_reads _) (fun _ _ => trivial) ?_) ?_
  · rintro _ _ rest ⟨rfl, rfl⟩ - r hr
    obtain ⟨_, b, _, -, heq, rfl, hb⟩ := (parseCharIgnoreCase_reads _).sound hr
    cases heq
    exact absurd hb (by decide)
  · intro text b
    constructor
    · rintro (⟨_, _, _, rfl, ⟨rfl, hb⟩, rfl, rfl⟩ | ⟨rfl, rfl⟩)
      · rw [hcase, hlower] at hb
        exact ⟨rfl, hb.elim .inl fun h => .inr (.inl h)⟩
      · exact ⟨rfl, .inr (.inr rfl)⟩
    · rintro ⟨rfl, rfl | rfl | rfl⟩
      · exact .inl ⟨_, _, _, rfl, ⟨rfl, hcase.mpr (.inl rfl)⟩, rfl, rfl⟩
      · exact .inl ⟨_, _, _, rfl, ⟨rfl, hcase.mpr (.inr rfl)⟩, rfl, rfl⟩
      · exact .inr ⟨rfl, rfl⟩

/-- The sign is given to both numbers. -/
theorem applySign_reads {F : Str → Prop} (casts : Casts) (isPositive : Bool) {hour minute : U8}
    (hhour : hour.val < 24) (hminute : minute.val < 60) : Reads (fun s => do
      let hour : I8 ← casts.cast hour.val
      let minute : I8 ← casts.cast minute.val
      if isPositive then .ok (hour, minute, s)
      else do
        let hour ← Ranged.fit (-hour.val)
        let minute ← Ranged.fit (-minute.val)
        .ok (hour, minute, s)) offsetThen (fun text offset => text = [] ∧
      offset.1.val = (if isPositive then hour.val else -hour.val) ∧
      offset.2.val = if isPositive then minute.val else -minute.val) F := by
  have hhour_le := hour.le_val
  have hminute_le := minute.le_val
  obtain ⟨hour', hcast, hval⟩ : (casts.cast hour.val : Attempt I8).Returns fun n =>
      n.val = hour.val := Casts.cast_returns (by omega) (by omega) fun _ h => h
  obtain ⟨minute', hcast', hval'⟩ : (casts.cast minute.val : Attempt I8).Returns fun n =>
      n.val = minute.val := Casts.cast_returns (by omega) (by omega) fun _ h => h
  rw [hcast, hcast']
  cases isPositive with
  | true =>
      refine Reads.congr (Reads.ok (hour', minute') fun s => rfl) ?_
      rintro text ⟨h, m⟩
      simp only [Prod.mk.injEq, Ranged.ext_iff, hval, hval', if_true]
  | false =>
      have hneg : (Ranged.fit (-hour'.val) : Attempt I8) = .ok ⟨-hour.val, by omega, by omega⟩ := by
        rw [Ranged.fit_eq_ok, hval]
      have hneg' : (Ranged.fit (-minute'.val) : Attempt I8) =
          .ok ⟨-minute.val, by omega, by omega⟩ := by
        rw [Ranged.fit_eq_ok, hval']
      apply (Reads.ok (⟨-hour.val, by omega, by omega⟩, ⟨-minute.val, by omega, by omega⟩)
        fun s => ?_).congr
      · rintro text ⟨h, m⟩
        simp only [Prod.mk.injEq, Ranged.ext_iff, if_neg Bool.false_ne_true]
      · rw [ok_bind, ok_bind, if_neg Bool.false_ne_true, hneg, hneg']
        rfl

/-- Hours and minutes behind a sign. -/
theorem parseSigned_reads (casts : Casts) (isPositive : Bool) : Reads (parseSigned casts isPositive)
    offsetThen (fun text offset => ∃ ds minutes, ∃ hour minute : U8, text = ds ++ minutes ∧
      TwoDigits ds hour ∧ MinuteText minutes minute ∧ hour.val < 24 ∧ minute.val < 60 ∧
      offset.1.val = (if isPositive then hour.val else -hour.val) ∧
      offset.2.val = if isPositive then minute.val else -minute.val) fun rest => rest = [] := by
  have hbounds {hour minute : U8} : ensure (hour.val < 24 && minute.val < 60) = .ok () ↔
      hour.val < 24 ∧ minute.val < 60 := by
    rw [ensure_eq_ok, Bool.and_eq_true, decide_eq_true_iff, decide_eq_true_iff]
  refine Reads.congr (parseTwoDigitNumeric_reads.seq fun _ hour _ => parseOffsetMinute_reads.bind
    (fun _ minute _ => Reads.guard (safe_ensure _) fun _ h =>
      applySign_reads casts isPositive (hbounds.mp h).1 (hbounds.mp h).2) ?_) ?_
  · rintro _ _ _ rest ⟨_, _, rfl, _⟩ hrest
    exact hrest
  · rintro text offset
    constructor
    · rintro ⟨ds, _, hour, rfl, hds, minutes, _, minute, rfl, hminutes, _, h, rfl, hoffset⟩
      rw [List.append_nil]
      exact ⟨ds, minutes, hour, minute, rfl, hds, hminutes, (hbounds.mp h).1, (hbounds.mp h).2,
        hoffset⟩
    · rintro ⟨ds, minutes, hour, minute, rfl, hds, hminutes, hh, hm, hoffset⟩
      exact ⟨ds, minutes, hour, rfl, hds, minutes, [], minute, (List.append_nil _).symm, hminutes, (),
        hbounds.mpr ⟨hh, hm⟩, rfl, hoffset⟩

theorem ZoneText.head? {M : Str → U8 → Prop} {text : Str} {offset : I8 × I8}
    (h : ZoneText M text offset) (rest : Str) : (text ++ rest).head? ≠ some (ascii ' ') := by
  cases h with
  | zulu hz =>
      intro hspace
      obtain rfl : _ = ascii ' ' := Option.some.inj hspace
      exact absurd hz (by decide)
  | plus => exact fun hspace => absurd (Option.some.inj hspace) (by decide)
  | minus => exact fun hspace => absurd (Option.some.inj hspace) (by decide)

theorem parseZone_reads (casts : Casts) : Reads (parseZone casts) offsetThen (ZoneText MinuteText)
    fun rest => rest = [] := by
  have hcase {b : UInt8} := toAsciiLowercase_eq_iff (b := b) (c := ascii 'Z') (by decide) (by decide)
  have hlower : ascii 'Z' + 32 = ascii 'z' := rfl
  refine Reads.congr (Reads.orElse (parseCharIgnoreCase_reads _)
    (fun _ b _ _ => Reads.ok noOffset fun _ => rfl)
    (parseSign_reads.seq fun _ isPositive _ => parseSigned_reads casts isPositive)
    (fun _ _ => trivial) ?_) ?_
  · rintro _ _ rest ⟨_, _, _, rfl, hsign, _⟩ - r hr
    obtain ⟨_, b, _, -, heq, rfl, hb⟩ := (parseCharIgnoreCase_reads _).sound hr
    rcases hsign with ⟨rfl, -⟩ | ⟨rfl, -⟩
    · cases heq
      exact absurd hb (by decide)
    · cases heq
      exact absurd hb (by decide)
  · intro text offset
    constructor
    · rintro (⟨_, _, _, rfl, ⟨rfl, hb⟩, rfl, rfl⟩ | ⟨_, _, _, rfl, hsign, ds, minutes, hour, minute, rfl,
        hds, hminutes, hh, hm, ho, ho'⟩)
      · rw [hcase, hlower] at hb
        exact .zulu hb rfl rfl
      · rcases hsign with ⟨rfl, rfl⟩ | ⟨rfl, rfl⟩
        · have hplus : ZoneText MinuteText (ascii '+' :: (ds ++ minutes)) offset :=
            .plus hds hminutes hh hm ho ho'
          exact hplus
        · have hminus : ZoneText MinuteText (ascii '-' :: (ds ++ minutes)) offset :=
            .minus hds hminutes hh hm ho ho'
          exact hminus
    · intro h
      cases h with
      | @zulu z _ hz ho ho' =>
          exact .inl ⟨[z], [], z, rfl, ⟨rfl, hcase.mpr hz⟩, rfl,
            Prod.ext (Ranged.ext ho) (Ranged.ext ho')⟩
      | plus hds hminutes hh hm ho ho' =>
          exact .inr ⟨[_], _, true, rfl, .inl ⟨rfl, rfl⟩, _, _, _, _, rfl, hds, hminutes, hh, hm, ho,
            ho'⟩
      | minus hds hminutes hh hm ho ho' =>
          exact .inr ⟨[_], _, false, rfl, .inr ⟨rfl, rfl⟩, _, _, _, _, rfl, hds, hminutes, hh, hm, ho,
            ho'⟩

theorem parseSpaceZone_reads (casts : Casts) : Reads (parseSpaceZone casts) offsetThen
    (fun text offset => (∃ zone, text = ascii ' ' :: zone ∧ ZoneText MinuteText zone offset) ∨
      ZoneText MinuteText text offset) fun rest => rest = [] := by
  refine Reads.congr (Reads.orElse (parseChar_reads _) (fun _ _ _ _ => parseZone_reads casts)
    (parseZone_reads casts) (fun _ _ => trivial) ?_) ?_
  · intro text offset rest h _
    exact parseChar_ne_ok (h.head? rest)
  · intro text offset
    constructor
    · rintro (⟨_, zone, _, rfl, ⟨rfl, rfl⟩, h⟩ | h)
      · exact .inl ⟨zone, rfl, h⟩
      · exact .inr h
    · rintro (⟨zone, rfl, h⟩ | h)
      · exact .inl ⟨[_], zone, _, rfl, ⟨rfl, rfl⟩, h⟩
      · exact .inr h

theorem parseOffset_reads (casts : Casts) : Reads (parseOffset casts) offsetThen
    (OffsetText MinuteText) fun rest => rest = [] := by
  unfold parseOffset
  apply Reads.assert
  refine Reads.congr ((Reads.ifEmpty noOffset (parseSpaceZone_reads casts) ?_).mono
    fun _ h => ⟨h, h⟩) ?_
  · rintro text offset (⟨zone, rfl, -⟩ | h) hnil
    · cases hnil
    · cases h <;> cases hnil
  · intro text offset
    constructor
    · rintro (⟨rfl, rfl⟩ | ⟨zone, rfl, h⟩ | h)
      · exact .none rfl rfl
      · exact .spaceZone h
      · exact .zone h
    · rintro (⟨ho, ho'⟩ | h | h)
      · exact .inl ⟨rfl, Prod.ext (Ranged.ext ho) (Ranged.ext ho')⟩
      · exact .inr (.inr h)
      · exact .inr (.inl ⟨_, rfl, h⟩)

end Bilrost.Types
