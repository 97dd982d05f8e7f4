import Mathlib.Order.Defs.LinearOrder
import Mathlib.Tactic

/-!
Maps as lists of entries in ascending order of their keys. The order is a field
of the structure, so every map has exactly one list of entries, and what an
operation does is said by the entries it leaves. A set is a map to `Unit`.
-/

/-- A map with its entries in ascending order. -/
@[ext] structure SortedMap (K V : Type) [LinearOrder K] where
  entries : List (K × V)
  sorted : entries.Pairwise fun a b => a.1 < b.1

namespace SortedMap

variable {K V : Type} [LinearOrder K]

def empty : SortedMap K V := ⟨[], .nil⟩

def isEmpty (map : SortedMap K V) : Bool := map.entries.isEmpty

theorem isEmpty_iff {map : SortedMap K V} : map.isEmpty ↔ map = empty := by
  rw [isEmpty, List.isEmpty_iff, SortedMap.ext_iff]
  rfl

/-- The entry with the greatest key. -/
def last (map : SortedMap K V) : Option (K × V) := map.entries.getLast?

def contains (map : SortedMap K V) (key : K) : Bool := map.entries.any fun entry => entry.1 = key

/-- Makes an entry for a key, from what its entry was before. -/
def upsertEntries (key : K) (f : Option V → V) : List (K × V) → List (K × V)
  | [] => [(key, f none)]
  | (k, v) :: rest =>
      if key < k then (key, f none) :: (k, v) :: rest
      else if k < key then (k, v) :: upsertEntries key f rest
      else (key, f (some v)) :: rest

theorem mem_upsertEntries {key : K} {f : Option V → V} {l : List (K × V)} {e : K × V}
    (h : e ∈ upsertEntries key f l) :
    e ∈ l ∨ e = (key, f none) ∨ ∃ v, e = (key, f (some v)) := by
  induction l with
  | nil => exact .inr (.inl (by simpa [upsertEntries] using h))
  | cons kv rest ih =>
    obtain ⟨k, v⟩ := kv
    rw [upsertEntries] at h
    split_ifs at h
    · rcases List.mem_cons.mp h with rfl | h
      · exact .inr (.inl rfl)
      · exact .inl h
    · rcases List.mem_cons.mp h with rfl | h
      · exact .inl (by simp)
      · exact (ih h).imp_left (List.mem_cons_of_mem _)
    · rcases List.mem_cons.mp h with rfl | h
      · exact .inr (.inr ⟨v, rfl⟩)
      · exact .inl (List.mem_cons_of_mem _ h)

theorem pairwise_upsertEntries (key : K) (f : Option V → V) {l : List (K × V)}
    (h : l.Pairwise fun a b => a.1 < b.1) :
    (upsertEntries key f l).Pairwise fun a b => a.1 < b.1 := by
  induction l with
  | nil => exact List.pairwise_singleton _ _
  | cons kv rest ih =>
    obtain ⟨k, v⟩ := kv
    obtain ⟨hhead, hrest⟩ := List.pairwise_cons.mp h
    rw [upsertEntries]
    split_ifs with hlt hgt
    · refine List.pairwise_cons.mpr ⟨fun e he => ?_, h⟩
      rcases List.mem_cons.mp he with rfl | he
      · exact hlt
      · exact hlt.trans (hhead e he)
    · refine List.pairwise_cons.mpr ⟨fun e he => ?_, ih hrest⟩
      rcases mem_upsertEntries he with he | rfl | ⟨v, rfl⟩
      · exact hhead e he
      · exact hgt
      · exact hgt
    · obtain rfl : key = k := le_antisymm (not_lt.mp hgt) (not_lt.mp hlt)
      exact List.pairwise_cons.mpr ⟨hhead, hrest⟩

def upsert (map : SortedMap K V) (key : K) (f : Option V → V) : SortedMap K V :=
  ⟨upsertEntries key f map.entries, pairwise_upsertEntries key f map.sorted⟩

/-- Puts a value under a key, in place of the one that may be there. -/
def insert (map : SortedMap K V) (key : K) (value : V) : SortedMap K V :=
  map.upsert key fun _ => value

/-- A key above all others gets its entry at the end. -/
theorem upsertEntries_of_lt {key : K} (f : Option V → V) {l : List (K × V)}
    (h : ∀ e ∈ l, e.1 < key) : upsertEntries key f l = l ++ [(key, f none)] := by
  induction l with
  | nil => rfl
  | cons kv rest ih =>
    obtain ⟨k, v⟩ := kv
    have hlt : k < key := h (k, v) (by simp)
    rw [upsertEntries, if_neg hlt.not_gt, if_pos hlt,
      ih fun e he => h e (List.mem_cons_of_mem _ he), List.cons_append]

/-- The entry at the end is changed in place. -/
theorem upsertEntries_last {key : K} (f : Option V → V) {l : List (K × V)} (v : V)
    (h : ∀ e ∈ l, e.1 < key) :
    upsertEntries key f (l ++ [(key, v)]) = l ++ [(key, f (some v))] := by
  induction l with
  | nil => simp [upsertEntries]
  | cons kv rest ih =>
    obtain ⟨k, w⟩ := kv
    have hlt : k < key := h (k, w) (by simp)
    rw [List.cons_append, upsertEntries, if_neg hlt.not_gt, if_pos hlt,
      ih fun e he => h e (List.mem_cons_of_mem _ he), List.cons_append]

/-- No key is above the last one. -/
theorem lt_of_last_lt {map : SortedMap K V} {key : K}
    (h : ∀ e ∈ map.last, e.1 < key) : ∀ e ∈ map.entries, e.1 < key := by
  intro e he
  obtain ⟨init, last, hlast⟩ : ∃ init last, map.entries = init ++ [last] :=
    ⟨_, _, (List.dropLast_append_getLast (List.ne_nil_of_mem he)).symm⟩
  have hkey : last.1 < key := h last (by simp [SortedMap.last, hlast])
  have hsorted := map.sorted
  rw [hlast] at hsorted he
  rcases List.mem_append.mp he with he | he
  · exact ((List.pairwise_append.mp hsorted).2.2 e he last (by simp)).trans hkey
  · rw [List.mem_singleton.mp he]
    exact hkey

theorem contains_eq_false {map : SortedMap K V} {key : K}
    (h : ∀ e ∈ map.last, e.1 < key) : map.contains key = false := by
  rw [contains, List.any_eq_false]
  intro e he
  simpa using (lt_of_last_lt h e he).ne

theorem contains_last {map : SortedMap K V} {e : K × V} (h : map.last = some e) :
    map.contains e.1 = true := by
  rw [contains, List.any_eq_true]
  exact ⟨e, List.mem_of_getLast? h, by simp⟩

theorem entries_insert_of_lt {map : SortedMap K V} {key : K} (value : V)
    (h : ∀ e ∈ map.last, e.1 < key) : (map.insert key value).entries = map.entries ++ [(key, value)] :=
  upsertEntries_of_lt _ (lt_of_last_lt h)

def keys (map : SortedMap K V) : List K := map.entries.map Prod.fst

theorem mem_map_fst_upsertEntries {key k : K} {f : Option V → V} {l : List (K × V)} :
    k ∈ (upsertEntries key f l).map Prod.fst ↔ k = key ∨ k ∈ l.map Prod.fst := by
  induction l with
  | nil => simp [upsertEntries]
  | cons kv rest ih =>
    obtain ⟨k', v⟩ := kv
    rw [upsertEntries]
    split_ifs with hlt hgt
    · simp
    · rw [List.map_cons, List.mem_cons, ih, List.map_cons, List.mem_cons]
      exact or_left_comm
    · obtain rfl : key = k' := le_antisymm (not_lt.mp hgt) (not_lt.mp hlt)
      simp

theorem mem_keys_insert {map : SortedMap K V} {key k : K} {value : V} :
    k ∈ (map.insert key value).keys ↔ k = key ∨ k ∈ map.keys := mem_map_fst_upsertEntries

theorem contains_iff {map : SortedMap K V} {key : K} :
    map.contains key = true ↔ key ∈ map.keys := by
  simp [contains, keys, List.any_eq_true]

theorem nodup_keys (map : SortedMap K V) : map.keys.Nodup :=
  List.pairwise_map.mpr (map.sorted.imp fun h => h.ne)

/-- A new key is one more entry. -/
theorem upsertEntries_perm {key : K} (f : Option V → V) {l : List (K × V)}
    (h : key ∉ l.map Prod.fst) : (upsertEntries key f l).Perm ((key, f none) :: l) := by
  induction l with
  | nil => exact List.Perm.refl _
  | cons kv rest ih =>
    obtain ⟨k, v⟩ := kv
    obtain ⟨hne, hrest⟩ := not_or.mp (List.mem_cons.not.mp h)
    rw [upsertEntries]
    split_ifs with hlt hgt
    · exact List.Perm.refl _
    · exact ((ih hrest).cons (k, v)).trans (List.Perm.swap ..)
    · exact absurd (le_antisymm (not_lt.mp hgt) (not_lt.mp hlt)) hne

theorem entries_insert_perm {map : SortedMap K V} {key : K} (value : V)
    (h : map.contains key = false) :
    (map.insert key value).entries.Perm ((key, value) :: map.entries) := by
  apply upsertEntries_perm
  intro hmem
  rw [contains_iff.mpr hmem] at h
  cases h

/-- There is a map with some entries if their keys are distinct. -/
theorem exists_perm {l : List (K × V)} (h : (l.map Prod.fst).Nodup) :
    ∃ map : SortedMap K V, map.entries.Perm l := by
  induction l with
  | nil => exact ⟨empty, List.Perm.refl _⟩
  | cons entry l ih =>
    obtain ⟨hnew, hrest⟩ := List.nodup_cons.mp h
    obtain ⟨map, hperm⟩ := ih hrest
    have hfree : map.contains entry.1 = false := by
      rw [Bool.eq_false_iff, ne_eq, contains_iff]
      intro hmem
      exact hnew ((hperm.map Prod.fst).subset hmem)
    exact ⟨map.insert entry.1 entry.2, (entries_insert_perm entry.2 hfree).trans (hperm.cons entry)⟩

/-- There is one map with some entries. -/
theorem eq_of_perm {map map' : SortedMap K V} (h : map.entries.Perm map'.entries) : map = map' := by
  ext1
  exact h.eq_of_pairwise (fun a b _ _ hab hba => absurd (hab.trans hba) (lt_irrefl _))
    map.sorted map'.sorted

theorem keys_pairwise (map : SortedMap K V) : map.keys.Pairwise (· < ·) :=
  List.pairwise_map.mpr map.sorted

/-- A key above the last one is above all. -/
theorem last_lt_iff {map : SortedMap K V} {key : K} :
    (∀ e ∈ map.last, e.1 < key) ↔ (map.keys ++ [key]).Pairwise (· < ·) := by
  rw [List.pairwise_append]
  constructor
  · intro h
    refine ⟨map.keys_pairwise, List.pairwise_singleton _ _, ?_⟩
    intro k hk k' hk'
    obtain ⟨e, he, rfl⟩ := List.mem_map.mp hk
    rw [List.mem_singleton.mp hk']
    exact lt_of_last_lt h e he
  · rintro ⟨-, -, h⟩ e he
    exact h e.1 (List.mem_map.mpr ⟨e, List.mem_of_getLast? he, rfl⟩) key (List.mem_singleton.mpr rfl)

end SortedMap
