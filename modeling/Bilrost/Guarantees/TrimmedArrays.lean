import Bilrost.Codec.Collections
import Mathlib.Data.List.DropRight

/-!
Arrays that are encoded without the empty items at their end. A `LocalProxy`
stands for a list of items, and its array is that list filled up with empty
ones, unless it was cleared: then the array keeps the items that were there.
-/

namespace Bilrost

/-- The contract of the empty state of the items. -/
def EmptyState.Lawful {T : Type} (state : EmptyState T) (empty : T) : Prop :=
  ∀ item, state.isEmpty item = true ↔ item = empty

/-- A list filled up with empty items. -/
def padded {T : Type} (n : Nat) (empty : T) (items : List T) : List T :=
  items ++ List.replicate (n - items.length) empty

namespace LocalProxy

variable {T : Type} {n : Nat} {state : EmptyState T} {empty : T}

/-- What a proxy is when it stands for a list of items. -/
structure Restores (state : EmptyState T) (empty : T) (proxy : LocalProxy T n)
    (items : List T) : Prop where
  items_eq : proxy.items = items
  length_le : items.length ≤ n
  intoInner : proxy.intoInner.toList = padded n empty items
  same_inner : (proxy.intoInnerDistinguished state).1 = proxy.intoInner
  canonical_iff :
    (proxy.intoInnerDistinguished state).2 = .canonical ↔ items.getLast? ≠ some empty
  insert_full : items.length = n → ∀ item, proxy.insert item = .error .invalidValue

theorem length_items (proxy : LocalProxy T n) : proxy.items.length = proxy.size := by
  have hle := proxy.size_le
  rw [items, List.length_take, proxy.arr.toList_length]
  exact Nat.min_eq_left hle

theorem intoInnerDistinguished_fst (proxy : LocalProxy T n) :
    (proxy.intoInnerDistinguished state).1 = proxy.intoInner := by
  rw [LocalProxy.intoInnerDistinguished]
  cases proxy.items.reverse.head? <;> rfl

/-- The canonicity is about the last item. -/
theorem intoInnerDistinguished_snd (hlawful : state.Lawful empty) (proxy : LocalProxy T n) :
    (proxy.intoInnerDistinguished state).2 = .canonical ↔ proxy.items.getLast? ≠ some empty := by
  rw [LocalProxy.intoInnerDistinguished, List.head?_reverse]
  cases proxy.items.getLast? with
  | none => simp
  | some lastItem =>
      have hempty := hlawful lastItem
      cases hitem : state.isEmpty lastItem <;> simp_all

theorem restores_of_padded (hlawful : state.Lawful empty) {proxy : LocalProxy T n}
    (harr : proxy.arr.toList = padded n empty proxy.items) :
    Restores state empty proxy proxy.items where
  items_eq := rfl
  length_le := by
    rw [length_items]
    exact proxy.size_le
  intoInner := harr
  same_inner := proxy.intoInnerDistinguished_fst
  canonical_iff := proxy.intoInnerDistinguished_snd hlawful
  insert_full hlength item := by
    rw [length_items] at hlength
    rw [LocalProxy.insert, dif_neg (by omega)]

/-- The list without its empty end. -/
def trimmed (state : EmptyState T) (items : List T) : List T := items.rdropWhile state.isEmpty

theorem padded_trimmed (hlawful : state.Lawful empty) {items : List T} (h : items.length = n) :
    padded n empty (trimmed state items) = items := by
  have hsplit : items.rdropWhile state.isEmpty ++ items.rtakeWhile state.isEmpty = items :=
    List.rdropWhile_append_rtakeWhile
  have hlength := congrArg List.length hsplit
  rw [List.length_append] at hlength
  have hend : items.rtakeWhile state.isEmpty =
      List.replicate (n - (trimmed state items).length) empty := by
    apply List.eq_replicate_iff.mpr
    constructor
    · rw [trimmed]
      omega
    · intro item hmem
      exact (hlawful item).mp (List.mem_rtakeWhile_imp hmem)
  rw [padded, ← hend]
  exact hsplit

/-- No shorter prefix expands to the same list. -/
theorem trimmed_length_le (hlawful : state.Lawful empty) {items start : List T}
    (h : padded n empty start = items) : (trimmed state items).length ≤ start.length := by
  have hempty : ∀ item ∈ List.replicate (n - start.length) empty, state.isEmpty item = true := by
    intro item hmem
    exact (hlawful item).mpr (List.eq_of_mem_replicate hmem)
  rw [← h, trimmed, padded, List.rdropWhile, List.reverse_append,
    List.dropWhile_append_of_pos (by simpa using hempty), List.length_reverse]
  exact (List.dropWhile_sublist _).length_le.trans_eq List.length_reverse

theorem items_newWithoutEmptySuffix (arr : List.Vector T n) :
    (newWithoutEmptySuffix state arr).items = trimmed state arr.toList := by
  have hprefix : trimmed state arr.toList <+: arr.toList := List.rdropWhile_prefix _ _
  have hlength : (trimmed state arr.toList).length =
      n - (arr.toList.reverse.takeWhile state.isEmpty).length := by
    have hsplit : (arr.toList.rdropWhile state.isEmpty ++
        arr.toList.rtakeWhile state.isEmpty).length = n := by
      rw [List.rdropWhile_append_rtakeWhile, arr.toList_length]
    rw [List.length_append, List.rtakeWhile, List.length_reverse] at hsplit
    rw [trimmed]
    omega
  calc (newWithoutEmptySuffix state arr).items
      = arr.toList.take (trimmed state arr.toList).length := by rw [hlength]; rfl
    _ = trimmed state arr.toList := (List.prefix_iff_eq_take.mp hprefix).symm

theorem items_new : (LocalProxy.new empty : LocalProxy T n).items = [] := List.take_zero

theorem items_insert {proxy proxy' : LocalProxy T n} {item : T} (h : proxy.insert item = .ok proxy') :
    proxy'.items = proxy.items ++ [item] ∧
      proxy'.arr.toList = proxy.items ++ item :: proxy.arr.toList.drop (proxy.size + 1) := by
  rw [LocalProxy.insert] at h
  split_ifs at h with hlt
  obtain rfl := Except.ok.inj h
  have hlength : proxy.size < proxy.arr.toList.length := by rwa [proxy.arr.toList_length]
  have harr : (proxy.arr.set ⟨proxy.size, hlt⟩ item).toList =
      proxy.items ++ item :: proxy.arr.toList.drop (proxy.size + 1) := by
    rw [List.Vector.toList_set, List.set_eq_take_append_cons_drop, if_pos hlength]
    rfl
  refine ⟨?_, harr⟩
  have hsize : proxy.size = proxy.items.length := proxy.length_items.symm
  show (proxy.arr.set ⟨proxy.size, hlt⟩ item).toList.take (proxy.size + 1) = _
  rw [harr, hsize, List.take_length_add_append]
  rfl

/-- What can be done with a proxy. -/
inductive Step (T : Type) (n : Nat) where
  | newWithoutEmptySuffix (arr : List.Vector T n)
  | forOverwrite
  | insert (item : T)
  | clear

/-- The proxy after a step. It is not changed where inserting fails. -/
def step (state : EmptyState T) (empty : T) (proxy : LocalProxy T n) : Step T n → LocalProxy T n
  | .newWithoutEmptySuffix arr => .newWithoutEmptySuffix state arr
  | .forOverwrite => .new empty
  | .insert item =>
      match proxy.insert item with
      | .ok proxy => proxy
      | .error _ => proxy
  | .clear => (collection T n empty).clear proxy

/-- The list that a proxy should stand for after a step. -/
def stepList (state : EmptyState T) (items : List T) : Step T n → List T
  | .newWithoutEmptySuffix arr => trimmed state arr.toList
  | .forOverwrite => []
  | .insert item => if items.length < n then items ++ [item] else items
  | .clear => []

def run (state : EmptyState T) (empty : T) (steps : List (Step T n)) : LocalProxy T n :=
  steps.foldl (step state empty) (.new empty)

def runList (state : EmptyState T) (steps : List (Step T n)) : List T :=
  steps.foldl (stepList state) []

/-- Nothing but empty items is ever cleared. -/
def ClearsEmpty (state : EmptyState T) (empty : T) (steps : List (Step T n)) : Prop :=
  ∀ before after, steps = before ++ .clear :: after →
    ∀ item ∈ runList state before, item = empty

section
variable (hlawful : state.Lawful empty)
include hlawful

theorem restores_newWithoutEmptySuffix (arr : List.Vector T n) :
    (newWithoutEmptySuffix state arr).Restores state empty (trimmed state arr.toList) := by
  rw [← items_newWithoutEmptySuffix]
  apply restores_of_padded hlawful
  rw [items_newWithoutEmptySuffix, padded_trimmed hlawful arr.toList_length]
  rfl

theorem restores_new : (LocalProxy.new empty : LocalProxy T n).Restores state empty [] := by
  have hitems : (LocalProxy.new empty : LocalProxy T n).items = [] := items_new
  rw [← hitems]
  apply restores_of_padded hlawful
  rw [hitems]
  rfl

theorem Restores.insert {proxy : LocalProxy T n} {items : List T}
    (h : proxy.Restores state empty items) (item : T) :
    (proxy.step state empty (.insert item)).Restores state empty
      (stepList (n := n) state items (.insert item)) := by
  have hlength : items.length = proxy.size := by rw [← h.items_eq, length_items]
  rw [stepList, LocalProxy.step]
  split_ifs with hlt
  · have hinsert : ∃ proxy', proxy.insert item = .ok proxy' := by
      rw [LocalProxy.insert, dif_pos (by omega)]
      exact ⟨_, rfl⟩
    obtain ⟨proxy', hproxy'⟩ := hinsert
    obtain ⟨hitems, harr⟩ := items_insert hproxy'
    rw [hproxy']
    dsimp only
    rw [← h.items_eq, ← hitems]
    apply restores_of_padded hlawful
    have hrest : proxy.arr.toList.drop (proxy.size + 1) =
        List.replicate (n - (items.length + 1)) empty := by
      have harr' : proxy.arr.toList = padded n empty items := h.intoInner
      rw [harr', ← hlength, padded, List.drop_length_add_append, List.drop_replicate, Nat.sub_sub]
    rw [harr, hitems, hrest, padded, h.items_eq, List.length_append, List.length_singleton,
      List.append_assoc, List.singleton_append]
  · have hfull : items.length = n := by
      have := h.length_le
      omega
    rw [h.insert_full hfull item]
    exact h

/-- After clearing the array is what it was before. -/
theorem Restores.clear_iff {proxy : LocalProxy T n} {items : List T}
    (h : proxy.Restores state empty items) :
    (proxy.step state empty .clear).Restores state empty [] ↔ ∀ item ∈ items, item = empty := by
  have harr : proxy.arr.toList = padded n empty items := h.intoInner
  have hlength := h.length_le
  constructor
  · intro hclear item hmem
    have hall : proxy.arr.toList = padded n empty [] := hclear.intoInner
    rw [harr, padded, padded, List.nil_append] at hall
    exact List.eq_of_mem_replicate (hall ▸ List.mem_append_left _ hmem)
  · intro hempty
    have hitems : items = List.replicate items.length empty :=
      List.eq_replicate_iff.mpr ⟨rfl, hempty⟩
    have hcleared : (proxy.step state empty .clear).items = [] := List.take_zero
    rw [← hcleared]
    apply restores_of_padded hlawful
    rw [hcleared]
    show proxy.arr.toList = padded n empty []
    rw [harr, hitems, padded, padded, List.replicate_append_replicate, List.nil_append,
      List.length_replicate, List.length_nil]
    congr 1
    omega

/-- One step: only clearing items that are not empty leaves something behind. -/
theorem Restores.step_iff {proxy : LocalProxy T n} {items : List T}
    (h : proxy.Restores state empty items) (action : Step T n) :
    (proxy.step state empty action).Restores state empty (stepList state items action) ↔
      (action = .clear → ∀ item ∈ items, item = empty) := by
  cases action with
  | newWithoutEmptySuffix arr =>
      exact iff_of_true (restores_newWithoutEmptySuffix hlawful arr) (by rintro ⟨⟩)
  | forOverwrite => exact iff_of_true (restores_new hlawful) (by rintro ⟨⟩)
  | insert item => exact iff_of_true (h.insert hlawful item) (by rintro ⟨⟩)
  | clear =>
      rw [stepList, h.clear_iff hlawful]
      exact ⟨fun hempty _ => hempty, fun hempty => hempty rfl⟩

/-- A proxy stands for its list throughout a run exactly if nothing but empty
items is ever cleared. -/
theorem restores_run_iff (steps : List (Step T n)) :
    (∀ before, before <+: steps →
      (run state empty before).Restores state empty (runList state before)) ↔
      ClearsEmpty state empty steps := by
  have hrun (before : List (Step T n)) (action : Step T n) :
      run state empty (before ++ [action]) = (run state empty before).step state empty action :=
    List.foldl_concat ..
  have hlist (before : List (Step T n)) (action : Step T n) :
      runList state (before ++ [action]) = stepList state (runList state before) action :=
    List.foldl_concat ..
  constructor
  · rintro hall before after rfl
    have hbefore := hall before (List.prefix_append _ _)
    have hafter := hall (before ++ [.clear]) ⟨after, by simp⟩
    rw [hrun, hlist, hbefore.step_iff hlawful] at hafter
    exact hafter rfl
  · intro hclears before hprefix
    induction before using List.reverseRecOn with
    | nil => exact restores_new hlawful
    | append_singleton before action ih =>
        obtain ⟨after, rfl⟩ := hprefix
        rw [hrun, hlist, (ih ⟨action :: after, by simp⟩).step_iff hlawful]
        rintro rfl
        exact hclears before after (by simp)

/-- An array is stored as its shortest prefix that expands to it, and a proxy
stands for its list throughout a run exactly if nothing but empty items is ever
cleared. -/
theorem trimmed_arrays_restore (steps : List (Step T n)) :
    (∀ arr : List.Vector T n, (newWithoutEmptySuffix state arr).items <+: arr.toList ∧
      padded n empty (newWithoutEmptySuffix state arr).items = arr.toList ∧
      ∀ start, padded n empty start = arr.toList →
        (newWithoutEmptySuffix state arr).items.length ≤ start.length) ∧
    ((∀ before, before <+: steps →
      (run state empty before).Restores state empty (runList state before)) ↔
        ClearsEmpty state empty steps) := by
  constructor
  · intro arr
    rw [items_newWithoutEmptySuffix]
    exact ⟨List.rdropWhile_prefix _ _, padded_trimmed hlawful arr.toList_length,
      fun start h => trimmed_length_le hlawful h⟩
  · exact restores_run_iff hlawful steps

end

/-- Integers are empty when they are zero. -/
def zeroState : EmptyState Int where
  isEmpty item := item == 0
  clear _ := 0

theorem zeroState_lawful : zeroState.Lawful 0 := fun item => by simp [zeroState]

theorem trimmed_arrays_restore_two :
    (∀ arr : List.Vector Int 2, (newWithoutEmptySuffix zeroState arr).items <+: arr.toList ∧
      padded 2 0 (newWithoutEmptySuffix zeroState arr).items = arr.toList ∧
      ∀ start, padded 2 0 start = arr.toList →
        (newWithoutEmptySuffix zeroState arr).items.length ≤ start.length) ∧
    ((∀ before, before <+: ([.insert 5, .insert 0] : List (Step Int 2)) →
      (run zeroState 0 before).Restores zeroState 0 (runList zeroState before)) ↔
        ClearsEmpty zeroState 0 ([.insert 5, .insert 0] : List (Step Int 2))) :=
  trimmed_arrays_restore zeroState_lawful [.insert 5, .insert 0]

/-- An item that was cleared is still in the array. -/
theorem cleared_item_stays : ¬∀ steps : List (Step Int 2), ∀ before, before <+: steps →
    (run zeroState 0 before).Restores zeroState 0 (runList zeroState before) := by
  intro hall
  have h := (hall [.insert 1, .clear] [.insert 1, .clear] (List.prefix_refl _)).intoInner
  revert h
  decide

end LocalProxy

end Bilrost
