import Bilrost.Base.SortedMap
import Mathlib.Data.List.OfFn
import Mathlib.Order.Fin.Basic

/-!
Finite families. A type that contains lists or maps of itself is given by them:
a list is its items by their number, and a map its keys in ascending order with
a value for each. Both are the same as the lists and maps that they stand for,
and what may fail for each member is collected up to the first that does.
-/

namespace Family

variable {ε α δ K V : Type} {n : Nat}

/-- The values of some results, or the first error. -/
def collect {ε α : Type} : {n : Nat} → (Fin n → Except ε α) → Except ε (Fin n → α)
  | 0, _ => .ok Fin.elim0
  | _ + 1, results => do
      let first ← results 0
      let rest ← collect fun i => results i.succ
      .ok (Fin.cons first rest)

theorem collect_eq_ok {results : Fin n → Except ε α} {values : Fin n → α} :
    collect results = .ok values ↔ ∀ i, results i = .ok (values i) := by
  induction n with
  | zero => exact iff_of_true (congrArg Except.ok (Subsingleton.elim _ _)) fun i => i.elim0
  | succ n ih =>
      rw [Fin.forall_fin_succ, ← ih, collect]
      cases hfirst : results 0 with
      | error e => exact iff_of_false (fun h => by cases h) fun h => by cases h.1
      | ok first =>
          cases hrest : collect fun i => results i.succ with
          | error e => exact iff_of_false (fun h => by cases h) fun h => by cases h.2
          | ok rest =>
              simp only [bind, Except.bind, Except.ok.injEq]
              constructor
              · rintro rfl
                exact ⟨rfl, rfl⟩
              · rintro ⟨rfl, rfl⟩
                exact Fin.cons_self_tail values

theorem collect_isError {results : Fin n → Except ε α} :
    (∃ e, collect results = .error e) ↔ ∃ i e, results i = .error e := by
  induction n with
  | zero => exact iff_of_false (by rintro ⟨e, ⟨⟩⟩) fun ⟨i, _⟩ => i.elim0
  | succ n ih =>
      rw [Fin.exists_fin_succ, ← ih, collect]
      cases hfirst : results 0 with
      | error e => exact iff_of_true ⟨e, rfl⟩ (.inl ⟨e, rfl⟩)
      | ok first =>
          cases hrest : collect fun i => results i.succ with
          | error e => exact iff_of_true ⟨e, rfl⟩ (.inr ⟨e, rfl⟩)
          | ok rest => exact iff_of_false (by rintro ⟨e, ⟨⟩⟩) (by rintro (⟨e, ⟨⟩⟩ | ⟨e, ⟨⟩⟩))

section
variable [LinearOrder K]

/-- The map with some keys in ascending order. -/
def toMap (key : Fin n → K) (ascending : StrictMono key) (value : Fin n → V) : SortedMap K V :=
  ⟨List.ofFn fun i => (key i, value i), List.pairwise_ofFn.mpr fun _ _ hlt => ascending hlt⟩

/-- The key with a number. -/
def keyOf (map : SortedMap K V) (i : Fin map.entries.length) : K := (map.entries.get i).1

def valueOf (map : SortedMap K V) (i : Fin map.entries.length) : V := (map.entries.get i).2

theorem strictMono_keyOf (map : SortedMap K V) : StrictMono (keyOf map) :=
  fun i j hlt => List.pairwise_iff_get.mp map.sorted i j hlt

theorem toMap_keyOf (map : SortedMap K V) :
    toMap (keyOf map) (strictMono_keyOf map) (valueOf map) = map := by
  ext1
  exact List.ofFn_get map.entries

theorem mem_toMap {key : Fin n → K} {ascending : StrictMono key} {value : Fin n → V} {e : K × V} :
    e ∈ (toMap key ascending value).entries ↔ ∃ i, (key i, value i) = e := List.mem_ofFn

/-- What is made of a map by its members is made of any family for it. -/
theorem of_toMap
    (make : (size : Nat) → (key : Fin size → K) → StrictMono key → (Fin size → V) → δ)
    (key : Fin n → K) (ascending : StrictMono key) (value : Fin n → V) :
    let map := toMap key ascending value
    make map.entries.length (keyOf map) (strictMono_keyOf map) (valueOf map) =
      make n key ascending value := by
  have hfamily {p q : Σ size, Fin size → K × V} (hpq : p = q)
      (hp : StrictMono fun i => (p.2 i).1) (hq : StrictMono fun i => (q.2 i).1) :
      make p.1 (fun i => (p.2 i).1) hp (fun i => (p.2 i).2) =
        make q.1 (fun i => (q.2 i).1) hq fun i => (q.2 i).2 := by
    subst hpq
    rfl
  have hsame : (⟨_, (toMap key ascending value).entries.get⟩ : Σ size, Fin size → K × V) =
      ⟨n, fun i => (key i, value i)⟩ :=
    List.equivSigmaTuple.apply_symm_apply ⟨n, fun i => (key i, value i)⟩
  exact hfamily hsame (strictMono_keyOf _) ascending

end

/-- What is made of a list by its items is made of any family for it. -/
theorem of_ofFn (make : (length : Nat) → (Fin length → V) → δ) (value : Fin n → V) :
    make (List.ofFn value).length (List.ofFn value).get = make n value := by
  have hfamily {p q : Σ length, Fin length → V} (hpq : p = q) : make p.1 p.2 = make q.1 q.2 := by
    subst hpq
    rfl
  exact hfamily (List.equivSigmaTuple.apply_symm_apply ⟨n, value⟩)

end Family
