import Mathlib.Data.List.Sort
import Mathlib.Tactic

/-!
Sorting values by a numeric key. When the keys are distinct there is only one
sorted order, so a stable and an unstable sort agree, and sorting by descending
key is sorting by ascending key read backwards.
-/

namespace KeyedSort

variable {α γ : Type*}

/-- Sorts by ascending key. -/
def ascending (l : List (Nat × α)) : List (Nat × α) :=
  l.insertionSort fun a b => a.1 ≤ b.1

/-- Sorts by descending key. -/
def descending (l : List (Nat × α)) : List (Nat × α) :=
  l.insertionSort fun a b => b.1 ≤ a.1

theorem ascending_perm (l : List (Nat × α)) : (ascending l).Perm l :=
  List.perm_insertionSort _ l

theorem descending_perm (l : List (Nat × α)) : (descending l).Perm l :=
  List.perm_insertionSort _ l

theorem ascending_pairwise_le (l : List (Nat × α)) :
    (ascending l).Pairwise fun a b => a.1 ≤ b.1 := by
  have : Std.Total fun a b : Nat × α => a.1 ≤ b.1 := ⟨fun a b => Nat.le_total a.1 b.1⟩
  have : IsTrans (Nat × α) fun a b => a.1 ≤ b.1 := ⟨fun _ _ _ => Nat.le_trans⟩
  exact List.pairwise_insertionSort _ l

theorem descending_pairwise_ge (l : List (Nat × α)) :
    (descending l).Pairwise fun a b => b.1 ≤ a.1 := by
  have : Std.Total fun a b : Nat × α => b.1 ≤ a.1 := ⟨fun a b => Nat.le_total b.1 a.1⟩
  have : IsTrans (Nat × α) fun a b => b.1 ≤ a.1 := ⟨fun _ _ _ h₁ h₂ => Nat.le_trans h₂ h₁⟩
  exact List.pairwise_insertionSort _ l

/-- With distinct keys the sorted order is strict. -/
theorem ascending_pairwise_lt {l : List (Nat × α)} (h : (l.map Prod.fst).Nodup) :
    (ascending l).Pairwise fun a b => a.1 < b.1 := by
  have hnodup : ((ascending l).map Prod.fst).Nodup :=
    ((ascending_perm l).map Prod.fst).nodup_iff.mpr h
  have hne : (ascending l).Pairwise fun a b => a.1 ≠ b.1 := List.pairwise_map.mp hnodup
  exact (ascending_pairwise_le l).imp₂ (fun _ _ hle hne => Nat.lt_of_le_of_ne hle hne) hne

theorem eq_of_key_eq {l : List (Nat × α)} (h : (l.map Prod.fst).Nodup) {a b : Nat × α}
    (ha : a ∈ l) (hb : b ∈ l) (hkey : a.1 = b.1) : a = b :=
  List.inj_on_of_nodup_map h ha hb hkey

/-- Sorting downwards is sorting upwards read backwards, however the lists were
arranged before. -/
theorem descending_eq_reverse {l₁ l₂ : List (Nat × α)} (hperm : l₁.Perm l₂)
    (h : (l₂.map Prod.fst).Nodup) : descending l₁ = (ascending l₂).reverse := by
  refine List.Perm.eq_of_pairwise ?_ (descending_pairwise_ge l₁)
    (List.pairwise_reverse.mpr (ascending_pairwise_le l₂)) ?_
  · intro a b ha hb hba hab
    have ha' : a ∈ l₂ := hperm.subset ((descending_perm l₁).subset ha)
    have hb' : b ∈ l₂ := (ascending_perm l₂).subset (List.mem_reverse.mp hb)
    exact eq_of_key_eq h ha' hb' (Nat.le_antisymm hab hba)
  · exact ((descending_perm l₁).trans hperm).trans
      ((ascending_perm l₂).symm.trans (List.reverse_perm _).symm)

theorem ascending_map (f : α → γ) (l : List (Nat × α)) :
    ascending (l.map (Prod.map id f)) = (ascending l).map (Prod.map id f) :=
  (List.map_insertionSort _ _ (Prod.map id f) l fun _ _ _ _ => Iff.rfl).symm

end KeyedSort
