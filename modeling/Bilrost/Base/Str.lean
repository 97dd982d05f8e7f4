import Bilrost.Base.Decimal
import Bilrost.Base.Ranged

/-!
Strings and handwritten parsers. A string is its bytes; a slice of it that does
not begin between two characters panics. A parser returns what it has read along
with the rest of the string, and `Reads` says which texts it reads: the rules
below go from its steps to its grammar. What is checked in debug builds only, that
all of the string is ASCII, is asserted.
-/

namespace Bilrost

open Decimal

/-- The bytes of a string. -/
abbrev Str := List UInt8

/-- The byte of an ASCII character. -/
def ascii (c : Char) : UInt8 := c.toUInt8

/-- `is_ascii` -/
def isAscii (s : Str) : Bool := s.all fun b => b < 128

/-- `is_char_boundary`, which is not in front of a byte that continues a character. -/
def isCharBoundary (s : Str) (i : Nat) : Bool :=
  if i = 0 then true
  else match s[i]? with
    | some b => !(128 ≤ b && b < 192)
    | none => i == s.length

/-- `split_at` -/
def splitAt (s : Str) (i : Nat) : Attempt (Str × Str) := do
  Attempt.assert (isCharBoundary s i)
  .ok (s.take i, s.drop i)

/-- `&s[i..]` -/
def sliceFrom (s : Str) (i : Nat) : Attempt Str := do
  Attempt.assert (isCharBoundary s i)
  .ok (s.drop i)

/-- `to_ascii_lowercase` of a byte. -/
def toAsciiLowercase (b : UInt8) : UInt8 := if 65 ≤ b ∧ b ≤ 90 then b + 32 else b

/-- The number of some digits. -/
def parseUnsigned (s : Str) : Option Nat :=
  if s ≠ [] ∧ Digits s then some (value s) else none

/-- `str::parse` for integers, with a sign in front of the digits, which is a minus
only for the types with negative numbers. -/
def parseInt {lo hi : Int} (s : Str) : Option (Ranged lo hi) :=
  if s.head? = some (ascii '+') then (parseUnsigned s.tail).bind fun n => Ranged.fit? n
  else if s.head? = some (ascii '-') ∧ lo < 0 then
    (parseUnsigned s.tail).bind fun n => Ranged.fit? (-n)
  else (parseUnsigned s).bind fun n => Ranged.fit? n

/-- An integer with zeros in front up to a width. -/
def formatInt (width : Nat) (n : Int) : Str :=
  if n < 0 then ascii '-' :: padded (width - 1) n.natAbs else padded width n.natAbs

/-- Something or nothing, as an option. -/
def Attempt.orNone {α : Type} : Attempt α → Attempt (Option α)
  | .ok a => .ok (some a)
  | .error .nothing => .ok none
  | .error .panic => .error .panic

open Attempt

theorem isAscii_iff {s : Str} : isAscii s = true ↔ ∀ b ∈ s, b < 128 := by
  simp [isAscii]

@[simp] theorem isAscii_nil : isAscii [] = true := rfl

@[simp] theorem isAscii_append {s t : Str} :
    isAscii (s ++ t) = true ↔ isAscii s = true ∧ isAscii t = true := by
  simp [isAscii, List.all_append]

@[simp] theorem isAscii_cons {b : UInt8} {s : Str} :
    isAscii (b :: s) = true ↔ b < 128 ∧ isAscii s = true := by
  simp [isAscii]

theorem isAscii_of_digits {ds : Str} (h : Digits ds) : isAscii ds = true := by
  rw [isAscii_iff]
  intro d hd
  exact UInt8.lt_of_le_of_lt (h d hd).2 (by decide)

/-- There is a boundary anywhere between ASCII characters. -/
theorem isCharBoundary_of_isAscii {s : Str} (h : isAscii s = true) {i : Nat} (hi : i ≤ s.length) :
    isCharBoundary s i = true := by
  unfold isCharBoundary
  split_ifs
  · rfl
  · cases hget : s[i]? with
    | some b =>
        have hb := isAscii_iff.mp h b (List.mem_of_getElem? hget)
        have hlt : ¬128 ≤ b := UInt8.not_le.mpr hb
        simp [hlt]
    | none =>
        have hlength := List.getElem?_eq_none_iff.mp hget
        simpa using le_antisymm hi hlength

theorem assert_true : Attempt.assert true = .ok () := rfl

theorem splitAt_of_isAscii {s : Str} (h : isAscii s = true) {i : Nat} (hi : i ≤ s.length) :
    splitAt s i = .ok (s.take i, s.drop i) := by
  rw [splitAt, isCharBoundary_of_isAscii h hi, assert_true, ok_bind]

theorem sliceFrom_of_isAscii {s : Str} (h : isAscii s = true) {i : Nat} (hi : i ≤ s.length) :
    sliceFrom s i = .ok (s.drop i) := by
  rw [sliceFrom, isCharBoundary_of_isAscii h hi, assert_true, ok_bind]

theorem splitAt_eq_ok {s : Str} {i : Nat} {r : Str × Str} (h : splitAt s i = .ok r) :
    r = (s.take i, s.drop i) := by
  obtain ⟨_, -, hr⟩ := bind_eq_ok.mp h
  exact (Except.ok.inj hr).symm

theorem sliceFrom_eq_ok {s rest : Str} {i : Nat} (h : sliceFrom s i = .ok rest) :
    rest = s.drop i := by
  obtain ⟨_, -, hr⟩ := bind_eq_ok.mp h
  exact (Except.ok.inj hr).symm

/-- Digits alone are a number without a sign. -/
theorem parseInt_of_digits {lo hi : Int} {ds : Str} (h : Digits ds) {n : Ranged lo hi} :
    parseInt ds = some n ↔ ds ≠ [] ∧ n.val = value ds := by
  have hhead {c : UInt8} (hc : ¬IsDigit c) : ds.head? ≠ some c := by
    intro hhead
    exact hc (h c (List.mem_of_mem_head? hhead))
  rw [parseInt, if_neg (hhead (by decide)), if_neg fun hminus => hhead (by decide) hminus.1,
    parseUnsigned]
  by_cases hds : ds = []
  · simp [hds]
  · rw [if_pos ⟨hds, h⟩]
    simp [hds]

/-- Without a plus in front, what is parsed as unsigned is digits. -/
theorem digits_of_parseInt {hi : Int} {s : Str} (hplus : s.head? ≠ some (ascii '+'))
    {n : Ranged 0 hi} (h : parseInt s = some n) : Digits s := by
  rw [parseInt, if_neg hplus, if_neg fun hminus => lt_irrefl _ hminus.2, parseUnsigned] at h
  split_ifs at h with hdigits
  · exact hdigits.2
  · cases h

namespace Attempt

@[simp] theorem orNone_eq_ok_some {α : Type} {x : Attempt α} {a : α} :
    orNone x = .ok (some a) ↔ x = .ok a := by
  rcases x with (- | -) | b <;> simp [orNone]

@[simp] theorem orNone_eq_ok_none {α : Type} {x : Attempt α} :
    orNone x = .ok none ↔ Safe x ∧ ∀ a, x ≠ .ok a := by
  rcases x with (- | -) | b <;> simp [orNone, Safe]

theorem safe_orNone {α : Type} {x : Attempt α} (h : Safe x) : Safe (orNone x) := by
  rcases x with (- | -) | b
  · exact safe_ok none
  · exact absurd rfl h
  · exact safe_ok (some b)

end Attempt

section
variable {α β γ ρ σ : Type} {p : Str → Attempt ρ} {mk : α → Str → ρ} {mk' : β → Str → σ}
  {T : Str → α → Prop} {V : Str → β → Prop} {U : α → Str → β → Prop} {F G : Str → Prop}

/-- `p` reads the texts of `T`, each with what it denotes, off the front of a
string. It reads all of a text if what follows it cannot be taken for a part of it. -/
structure Reads (p : Str → Attempt ρ) (mk : α → Str → ρ) (T : Str → α → Prop)
    (F : Str → Prop) : Prop where
  safe {s : Str} : isAscii s = true → Safe (p s)
  sound {s : Str} {r : ρ} : p s = .ok r → ∃ text a rest, r = mk a rest ∧ s = text ++ rest ∧ T text a
  complete (text rest : Str) {a : α} : isAscii (text ++ rest) = true → T text a → F rest →
    p (text ++ rest) = .ok (mk a rest)

namespace Reads

theorem congr {T' : Str → α → Prop} (h : Reads p mk T F) (hT : ∀ text a, T text a ↔ T' text a) :
    Reads p mk T' F where
  safe := h.safe
  sound hr := by
    obtain ⟨text, a, rest, hmk, hs, ht⟩ := h.sound hr
    exact ⟨text, a, rest, hmk, hs, (hT text a).mp ht⟩
  complete _ _ _ hs ht hrest := h.complete _ _ hs ((hT _ _).mpr ht) hrest

/-- In front of less. -/
theorem mono {F' : Str → Prop} (h : Reads p mk T F) (hF : ∀ rest, F' rest → F rest) :
    Reads p mk T F' where
  safe := h.safe
  sound := h.sound
  complete _ _ _ hs ht hrest := h.complete _ _ hs ht (hF _ hrest)

/-- Nothing is left to read. -/
theorem ok (a : α) (h : ∀ s, p s = .ok (mk a s)) :
    Reads p mk (fun text b => text = [] ∧ b = a) F where
  safe _ := safe_of_eq_ok (h _)
  sound := by
    intro s r hr
    exact ⟨[], a, s, Except.ok.inj (hr.symm.trans (h s)), rfl, rfl, rfl⟩
  complete := by
    rintro _ rest _ - ⟨rfl, rfl⟩ -
    exact h rest

/-- One text behind the other. -/
theorem bind {k : ρ → Attempt σ} (hp : Reads p mk T F)
    (hk : ∀ t a, T t a → Reads (fun s => k (mk a s)) mk' (U a) G)
    (hfollow : ∀ {a text b rest}, U a text b → G rest → F (text ++ rest)) :
    Reads (fun s => p s >>= k) mk'
      (fun text b => ∃ t₁ t₂ a, text = t₁ ++ t₂ ∧ T t₁ a ∧ U a t₂ b) G where
  safe hs := by
    apply Safe.bind (hp.safe hs)
    intro r hr
    obtain ⟨text, a, rest, rfl, rfl, ht⟩ := hp.sound hr
    exact (hk text a ht).safe (isAscii_append.mp hs).2
  sound hr := by
    obtain ⟨r₁, hr₁, hr₂⟩ := bind_eq_ok.mp hr
    obtain ⟨t₁, a, s₂, rfl, rfl, ht₁⟩ := hp.sound hr₁
    obtain ⟨t₂, b, rest, rfl, rfl, ht₂⟩ := (hk t₁ a ht₁).sound hr₂
    exact ⟨t₁ ++ t₂, b, rest, rfl, (List.append_assoc ..).symm, t₁, t₂, a, rfl, ht₁, ht₂⟩
  complete := by
    rintro _ rest b hs ⟨t₁, t₂, a, rfl, ht₁, ht₂⟩ hrest
    rw [List.append_assoc] at hs ⊢
    rw [hp.complete _ _ hs ht₁ (hfollow ht₂ hrest), ok_bind]
    exact (hk t₁ a ht₁).complete _ _ (isAscii_append.mp hs).2 ht₂ hrest

/-- One text behind the other, whatever that begins with. -/
theorem seq {k : ρ → Attempt σ} (hp : Reads p mk T fun _ => True)
    (hk : ∀ t a, T t a → Reads (fun s => k (mk a s)) mk' (U a) G) :
    Reads (fun s => p s >>= k) mk'
      (fun text b => ∃ t₁ t₂ a, text = t₁ ++ t₂ ∧ T t₁ a ∧ U a t₂ b) G :=
  hp.bind hk fun _ _ => trivial

/-- A step that reads nothing. -/
theorem guard {x : Attempt γ} {k : γ → Str → Attempt σ} {U : γ → Str → β → Prop} (hx : Safe x)
    (hk : ∀ c, x = .ok c → Reads (k c) mk' (U c) G) :
    Reads (fun s => x >>= fun c => k c s) mk' (fun text b => ∃ c, x = .ok c ∧ U c text b) G where
  safe hs := hx.bind fun c hc => (hk c hc).safe hs
  sound hr := by
    obtain ⟨c, hc, hr⟩ := bind_eq_ok.mp hr
    obtain ⟨text, b, rest, hmk, hs, ht⟩ := (hk c hc).sound hr
    exact ⟨text, b, rest, hmk, hs, c, hc, ht⟩
  complete := by
    rintro text rest b hs ⟨c, hc, ht⟩ hrest
    rw [hc, ok_bind]
    exact (hk c hc).complete _ _ hs ht hrest

theorem assert (h : Reads p mk T F) :
    Reads (fun s => Attempt.assert (isAscii s) >>= fun _ => p s) mk T F where
  safe hs := by
    rw [hs, assert_true, ok_bind]
    exact h.safe hs
  sound hr := by
    obtain ⟨_, -, hr⟩ := bind_eq_ok.mp hr
    exact h.sound hr
  complete _ _ _ hs ht hrest := by
    rw [hs, assert_true, ok_bind]
    exact h.complete _ _ hs ht hrest

/-- A condition on the string that is met in front of every text. -/
theorem ensure {cond : Str → Bool} {q : Str → Attempt ρ} (h : Reads p mk T F)
    (hsame : ∀ {s}, cond s = true → q s = p s)
    (hcond : ∀ {text a} rest, T text a → cond (text ++ rest) = true) :
    Reads (fun s => Attempt.ensure (cond s) >>= fun _ => q s) mk T F where
  safe hs := by
    apply Safe.bind (safe_ensure _)
    intro _ hc
    rw [hsame (ensure_eq_ok.mp hc)]
    exact h.safe hs
  sound hr := by
    obtain ⟨_, hc, hr⟩ := bind_eq_ok.mp hr
    rw [hsame (ensure_eq_ok.mp hc)] at hr
    exact h.sound hr
  complete := by
    intro text rest a hs ht hrest
    have hc := hcond rest ht
    have hensure : Attempt.ensure (cond (text ++ rest)) = .ok () := ensure_eq_ok.mpr hc
    rw [hensure, ok_bind, hsame hc]
    exact h.complete _ _ hs ht hrest

/-- A text of one kind, or else one of another that cannot be taken for it. -/
theorem orElse {k : Option ρ → Str → Attempt σ} (hp : Reads p mk T F)
    (hsome : ∀ t a s', T t a → Reads (fun s => k (some (mk a s)) s') mk' (U a) G)
    (hnone : Reads (fun s => k none s) mk' V G)
    (hfollow : ∀ {a text b rest}, U a text b → G rest → F (text ++ rest))
    (hother : ∀ {text b rest}, V text b → G rest → ∀ r, p (text ++ rest) ≠ .ok r) :
    Reads (fun s => orNone (p s) >>= fun o => k o s) mk'
      (fun text b => (∃ t₁ t₂ a, text = t₁ ++ t₂ ∧ T t₁ a ∧ U a t₂ b) ∨ V text b) G where
  safe hs := by
    apply Safe.bind (safe_orNone (hp.safe hs))
    intro o ho
    cases o with
    | none => exact hnone.safe hs
    | some r =>
        obtain ⟨text, a, rest, rfl, rfl, ht⟩ := hp.sound (orNone_eq_ok_some.mp ho)
        exact (hsome text a _ ht).safe (isAscii_append.mp hs).2
  sound hr := by
    obtain ⟨o, ho, hr⟩ := bind_eq_ok.mp hr
    cases o with
    | none =>
        obtain ⟨text, b, rest, hmk, hs, ht⟩ := hnone.sound hr
        exact ⟨text, b, rest, hmk, hs, .inr ht⟩
    | some r =>
        obtain ⟨t₁, a, s₂, rfl, rfl, ht₁⟩ := hp.sound (orNone_eq_ok_some.mp ho)
        obtain ⟨t₂, b, rest, hmk, rfl, ht₂⟩ := (hsome t₁ a _ ht₁).sound hr
        exact ⟨t₁ ++ t₂, b, rest, hmk, (List.append_assoc ..).symm,
          .inl ⟨t₁, t₂, a, rfl, ht₁, ht₂⟩⟩
  complete := by
    rintro text rest b hs (⟨t₁, t₂, a, rfl, ht₁, ht₂⟩ | ht) hrest
    · rw [List.append_assoc] at hs ⊢
      rw [orNone_eq_ok_some.mpr (hp.complete _ _ hs ht₁ (hfollow ht₂ hrest)), ok_bind]
      exact (hsome t₁ a _ ht₁).complete _ _ (isAscii_append.mp hs).2 ht₂ hrest
    · rw [orNone_eq_ok_none.mpr ⟨hp.safe hs, hother ht hrest⟩, ok_bind]
      exact hnone.complete _ _ hs ht hrest

/-- One character that passes a test. -/
theorem first (test : UInt8 → Bool) :
    Reads (fun s => do
      Attempt.assert (isAscii s)
      let b ← Attempt.ofOption s.head?
      Attempt.ensure (test b)
      sliceFrom s 1) (fun _ : UInt8 => id) (fun text b => text = [b] ∧ test b = true) F where
  safe := by
    intro s hs
    rw [hs, assert_true, ok_bind]
    apply Safe.bind (safe_ofOption _)
    intro b hb
    apply Safe.bind (safe_ensure _)
    intro _ _
    have hpos := List.length_pos_of_mem (List.mem_of_mem_head? (ofOption_eq_ok.mp hb))
    rw [sliceFrom_of_isAscii hs hpos]
    exact safe_ok _
  sound := by
    intro s r h
    simp only [bind_eq_ok, assert_eq_ok, ofOption_eq_ok, ensure_eq_ok] at h
    obtain ⟨-, -, b, hb, -, htest, hrest⟩ := h
    obtain ⟨tail, rfl⟩ := List.head?_eq_some_iff.mp hb
    rw [sliceFrom_eq_ok hrest]
    exact ⟨[b], b, tail, rfl, rfl, rfl, htest⟩
  complete := by
    rintro _ rest b hs ⟨rfl, htest⟩ -
    have hslice := sliceFrom_of_isAscii hs (i := 1) (by simp)
    have hensure : Attempt.ensure (test b) = .ok () := ensure_eq_ok.mpr htest
    rw [hs, assert_true, ok_bind, List.singleton_append, List.head?_cons, ofOption, ok_bind,
      hensure, ok_bind]
    exact hslice

/-- The end of the string, or else a text. -/
theorem ifEmpty {q : Str → Attempt ρ} (a : α) (h : Reads q mk T F)
    (hne : ∀ {text b}, T text b → text ≠ []) :
    Reads (fun s => if s.isEmpty then .ok (mk a s) else q s) mk
      (fun text b => text = [] ∧ b = a ∨ T text b) (fun rest => rest = [] ∧ F rest) where
  safe := by
    intro s hs
    split_ifs
    · exact safe_ok _
    · exact h.safe hs
  sound := by
    intro s r hr
    split_ifs at hr
    · exact ⟨[], a, s, (Except.ok.inj hr).symm, rfl, .inl ⟨rfl, rfl⟩⟩
    · obtain ⟨text, b, rest, hmk, hs, ht⟩ := h.sound hr
      exact ⟨text, b, rest, hmk, hs, .inr ht⟩
  complete := by
    rintro text rest b hs (⟨rfl, rfl⟩ | ht) ⟨rfl, hrest⟩
    · rfl
    · have hnot : ¬(text ++ []).isEmpty = true := by
        rw [List.append_nil, List.isEmpty_iff]
        exact hne ht
      rw [if_neg hnot]
      exact h.complete _ _ hs ht hrest

end Reads

end

end Bilrost
