import Mathlib.Tactic
import Mathlib.Data.Nat.Digits.Lemmas

/-!
Numbers in decimal, as texts of ASCII digits with the first digit first. A number
is written with zeros in front up to a width, and read back as it was.
-/

namespace Bilrost.Decimal

def IsDigit (b : UInt8) : Prop := 48 ≤ b ∧ b ≤ 57

instance (b : UInt8) : Decidable (IsDigit b) := inferInstanceAs (Decidable (_ ∧ _))

/-- Digits, and nothing else. -/
def Digits (ds : List UInt8) : Prop := ∀ d ∈ ds, IsDigit d

instance (ds : List UInt8) : Decidable (Digits ds) := List.decidableBAll IsDigit ds

def digit (n : Nat) : UInt8 := .ofNat (48 + n)

def digitValue (b : UInt8) : Nat := b.toNat - 48

/-- The number that a text of digits denotes. -/
def value (ds : List UInt8) : Nat := Nat.ofDigits 10 (ds.reverse.map digitValue)

/-- A number with at least `width` digits, and at least one. -/
def padded (width n : Nat) : List UInt8 :=
  (Nat.digitsAppend 10 (max width 1) n).reverse.map digit

theorem toNat_digit {n : Nat} (h : n < 10) : (digit n).toNat = 48 + n := by
  rw [digit, UInt8.toNat_ofNat']
  omega

theorem isDigit_iff {b : UInt8} : IsDigit b ↔ 48 ≤ b.toNat ∧ b.toNat ≤ 57 := Iff.rfl

theorem isDigit_digit {n : Nat} (h : n < 10) : IsDigit (digit n) := by
  rw [isDigit_iff, toNat_digit h]
  omega

theorem digitValue_digit {n : Nat} (h : n < 10) : digitValue (digit n) = n := by
  rw [digitValue, toNat_digit h]
  omega

theorem digitValue_lt {b : UInt8} (h : IsDigit b) : digitValue b < 10 := by
  rw [isDigit_iff] at h
  unfold digitValue
  omega

@[simp] theorem value_nil : value [] = 0 := rfl

theorem value_append (ds es : List UInt8) :
    value (ds ++ es) = value ds * 10 ^ es.length + value es := by
  unfold value
  rw [List.reverse_append, List.map_append, Nat.ofDigits_append, List.length_map,
    List.length_reverse]
  ring

theorem value_lt {ds : List UInt8} (h : Digits ds) : value ds < 10 ^ ds.length := by
  have hlt := Nat.ofDigits_lt_base_pow_length (l := ds.reverse.map digitValue) (b := 10)
    (by decide) ?_
  · rwa [List.length_map, List.length_reverse] at hlt
  · intro n hn
    obtain ⟨d, hd, rfl⟩ := List.mem_map.mp hn
    exact digitValue_lt (h d (List.mem_reverse.mp hd))

theorem digits_padded (width n : Nat) : Digits (padded width n) := by
  intro d h
  obtain ⟨k, hk, rfl⟩ := List.mem_map.mp h
  exact isDigit_digit (Nat.lt_of_mem_digitsAppend (by decide) _ _ (List.mem_reverse.mp hk))

/-- What is written is read back. -/
@[simp] theorem value_padded (width n : Nat) : value (padded width n) = n := by
  have hback (ns : List Nat) (hns : ∀ k ∈ ns, k < 10) :
      (ns.map digit).map digitValue = ns := by
    rw [List.map_map]
    apply (List.map_congr_left fun k hk => ?_).trans (List.map_id ns)
    exact digitValue_digit (hns k hk)
  unfold value padded
  rw [← List.map_reverse, List.reverse_reverse, hback]
  · rw [Nat.digitsAppend, Nat.ofDigits_append_replicate_zero, Nat.ofDigits_digits]
  · exact fun k hk => Nat.lt_of_mem_digitsAppend (by decide) _ k hk

theorem length_padded_of_lt {width n : Nat} (hwidth : 1 ≤ width) (h : n < 10 ^ width) :
    (padded width n).length = width := by
  unfold padded
  rw [max_eq_left hwidth, List.length_map, List.length_reverse,
    Nat.length_digitsAppend (by decide) width h]

theorem length_padded (width n : Nat) :
    (padded width n).length = max (max width 1) (Nat.digits 10 n).length := by
  unfold padded Nat.digitsAppend
  rw [List.length_map, List.length_reverse, List.length_append, List.length_replicate]
  omega

theorem le_length_padded (width n : Nat) : width ≤ (padded width n).length := by
  rw [length_padded]
  omega

theorem padded_ne_nil (width n : Nat) : padded width n ≠ [] := by
  have hlength := length_padded width n
  intro hnil
  rw [hnil, List.length_nil] at hlength
  omega

/-- A number with more digits is longer. -/
theorem lt_length_padded {width n k : Nat} (h : 10 ^ k ≤ n) : k < (padded width n).length := by
  have hlength := (Nat.lt_digits_length_iff (by decide) n).mpr h
  rw [length_padded]
  omega

/-- The first digits are the value without the last ones. -/
theorem value_take {ds : List UInt8} (h : Digits ds) (k : Nat) :
    value (ds.take k) = value ds / 10 ^ (ds.length - k) := by
  have hsplit := value_append (ds.take k) (ds.drop k)
  have hlt : value (ds.drop k) < 10 ^ (ds.drop k).length :=
    value_lt fun d hd => h d (List.mem_of_mem_drop hd)
  rw [List.take_append_drop] at hsplit
  rw [List.length_drop] at hsplit hlt
  rw [hsplit, Nat.add_comm, Nat.add_mul_div_right _ _ (Nat.pow_pos (by decide)),
    Nat.div_eq_of_lt hlt, Nat.zero_add]

example : padded 3 7 = [48, 48, 55] := by decide

end Bilrost.Decimal
