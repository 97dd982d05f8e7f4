import Mathlib.Tactic

/-!
Bijective base-128 numeration over bytes. A number is written least
significant digit first; every byte but the last has its high bit set, and the
value of a byte is the byte itself, high bit included. That is what makes the
representation unique: `b + 128 * v` already accounts for the high bit, so no
number has a padded second spelling.

At most `k` bytes are used, and the last of the `k` is a whole byte whose high
bit no longer means "more follows". Nothing here depends on what the numbers
are used for.
-/

namespace BijectiveDigits

/-- The digits of `v` in at most `k` bytes. -/
def put : Nat → Nat → List UInt8
  | 0, _ => []
  | 1, v => [UInt8.ofNat v]
  | k + 2, v =>
      if v < 128 then [UInt8.ofNat v]
      else UInt8.ofNat (v % 128 + 128) :: put (k + 1) (v / 128 - 1)

/-- Reads one number of at most `k` bytes from the front of a byte list and
returns it with the bytes left over. `none` means that the list ended first. -/
def take : Nat → List UInt8 → Option (Nat × List UInt8)
  | 0, _ => none
  | _ + 1, [] => none
  | 1, b :: rest => some (b.toNat, rest)
  | k + 2, b :: rest =>
      if b.toNat < 128 then some (b.toNat, rest)
      else (take (k + 1) rest).map fun (v, left) => (b.toNat + 128 * v, left)

/-- The smallest number that needs more than `k` bytes when enough of them are
allowed: `limit k = 128 + 128² + … + 128ᵏ`. -/
def limit : Nat → Nat
  | 0 => 0
  | k + 1 => 128 * (limit k + 1)

/-- What `k` bytes can hold when the last one is a whole byte. -/
def capacity : Nat → Nat
  | 0 => 0
  | 1 => 256
  | k + 2 => 128 * (capacity (k + 1) + 1)

theorem put_ne_nil (k v : Nat) : put (k + 1) v ≠ [] := by
  cases k with
  | zero => simp [put]
  | succ k => rw [put]; split <;> simp

theorem put_length_le (k v : Nat) : (put k v).length ≤ k := by
  induction k, v using put.induct with
  | case1 => simp [put]
  | case2 => simp [put]
  | case3 k v h => simp [put, h]
  | case4 k v h ih => simpa [put, h] using ih

theorem put_length_pos (k v : Nat) : 0 < (put (k + 1) v).length :=
  List.length_pos_iff.mpr (put_ne_nil k v)

private theorem toNat_ofNat_of_lt {v : Nat} (h : v < 256) : (UInt8.ofNat v).toNat = v := by
  rw [UInt8.toNat_ofNat']
  exact Nat.mod_eq_of_lt h

/-- Reading what was written returns the number and the untouched rest. -/
theorem take_put (k v : Nat) (rest : List UInt8) (hv : v < capacity k) :
    take k (put k v ++ rest) = some (v, rest) := by
  induction k, v using put.induct with
  | case1 => simp [capacity] at hv
  | case2 v =>
    have hv : v < 256 := by simpa [capacity] using hv
    simp [put, take, toNat_ofNat_of_lt hv]
  | case3 k v h =>
    have hb : (UInt8.ofNat v).toNat = v := toNat_ofNat_of_lt (by omega)
    rw [put, if_pos h, List.singleton_append, take, hb, if_pos h]
  | case4 k v h ih =>
    have hb : (UInt8.ofNat (v % 128 + 128)).toNat = v % 128 + 128 :=
      toNat_ofNat_of_lt (by omega)
    have hcap : v / 128 - 1 < capacity (k + 1) := by
      rw [capacity] at hv
      omega
    rw [put, if_neg h, List.cons_append, take, hb, if_neg (by omega), ih hcap]
    simp only [Option.map_some, Option.some.injEq, Prod.mk.injEq, and_true]
    omega

/-- Every number that is read was written in its only spelling. -/
theorem eq_put_of_take {k : Nat} {bytes rest : List UInt8} {v : Nat}
    (h : take k bytes = some (v, rest)) : bytes = put k v ++ rest := by
  induction k, bytes using take.induct generalizing v rest with
  | case1 => simp [take] at h
  | case2 => simp [take] at h
  | case3 b tail =>
    simp only [take, Option.some.injEq, Prod.mk.injEq] at h
    obtain ⟨rfl, rfl⟩ := h
    simp [put]
  | case4 k b tail hb =>
    simp only [take, hb, ↓reduceIte, Option.some.injEq, Prod.mk.injEq] at h
    obtain ⟨rfl, rfl⟩ := h
    simp [put, hb]
  | case5 k b tail hb ih =>
    simp only [take, hb, ↓reduceIte, Option.map_eq_some_iff, Prod.mk.injEq] at h
    obtain ⟨⟨w, left⟩, hw, rfl, rfl⟩ := h
    have hlt := b.toNat_lt
    have hmod : (b.toNat + 128 * w) % 128 + 128 = b.toNat := by omega
    have hdiv : (b.toNat + 128 * w) / 128 - 1 = w := by omega
    rw [put, if_neg (by omega), hmod, hdiv, UInt8.ofNat_toNat, List.cons_append, ih hw]

theorem lt_capacity_of_take {k : Nat} {bytes rest : List UInt8} {v : Nat}
    (h : take k bytes = some (v, rest)) : v < capacity k := by
  induction k, bytes using take.induct generalizing v rest with
  | case1 => simp [take] at h
  | case2 => simp [take] at h
  | case3 b tail =>
    simp only [take, Option.some.injEq, Prod.mk.injEq] at h
    obtain ⟨rfl, rfl⟩ := h
    exact b.toNat_lt
  | case4 k b tail hb =>
    simp only [take, hb, ↓reduceIte, Option.some.injEq, Prod.mk.injEq] at h
    obtain ⟨rfl, rfl⟩ := h
    rw [capacity]
    omega
  | case5 k b tail hb ih =>
    simp only [take, hb, ↓reduceIte, Option.map_eq_some_iff, Prod.mk.injEq] at h
    obtain ⟨⟨w, left⟩, hw, rfl, rfl⟩ := h
    have hlt := b.toNat_lt
    have := ih hw
    rw [capacity]
    omega

/-- Bytes after a number do not change how it is read. -/
theorem take_append {k : Nat} {bytes rest : List UInt8} {v : Nat}
    (h : take k bytes = some (v, rest)) (more : List UInt8) :
    take k (bytes ++ more) = some (v, rest ++ more) := by
  have hv := lt_capacity_of_take h
  rw [eq_put_of_take h, List.append_assoc, take_put k v _ hv]

/-- The length of a representation, by comparison with the limits. -/
theorem put_length_succ (k v : Nat) :
    (put (k + 2) v).length = if v < 128 then 1 else (put (k + 1) (v / 128 - 1)).length + 1 := by
  rw [put]
  split <;> simp

/-- A number below `limit n` fits in `n` bytes, one at or above it does not. -/
theorem put_length_le_iff (k n v : Nat) (hn : n < k) :
    (put k v).length ≤ n ↔ v < limit n := by
  induction n generalizing k v with
  | zero =>
    obtain ⟨k, rfl⟩ : ∃ j, k = j + 1 := ⟨k - 1, by omega⟩
    have := put_length_pos k v
    simp only [limit]
    omega
  | succ n ih =>
    obtain ⟨k, rfl⟩ : ∃ j, k = j + 2 := ⟨k - 2, by omega⟩
    rw [put_length_succ, limit]
    by_cases hv : v < 128
    · simp only [hv, ↓reduceIte]
      omega
    · simp only [hv, ↓reduceIte, Nat.add_le_add_iff_right]
      rw [ih (k + 1) (v / 128 - 1) (by omega)]
      omega

/-- What a list of digits denotes: `b₀ + 128 * b₁ + 128² * b₂ + …`. -/
def denote : List UInt8 → Nat
  | [] => 0
  | b :: rest => b.toNat + 128 * denote rest

/-- A number of at most `k` bytes ends at its first byte without the high bit,
or at its `k`th byte. -/
structure IsDigits (k : Nat) (l : List UInt8) : Prop where
  ne_nil : l ≠ []
  length_le : l.length ≤ k
  high : ∀ b ∈ l.dropLast, 128 ≤ b.toNat
  last : l.length = k ∨ ∀ b ∈ l.getLast?, b.toNat < 128

theorem isDigits_singleton (k : Nat) {b : UInt8} (h : b.toNat < 128 ∨ k = 0) :
    IsDigits (k + 1) [b] where
  ne_nil := by simp
  length_le := by simp
  high := by simp
  last := by
    rcases h with h | rfl
    · exact .inr (by simpa using h)
    · exact .inl rfl

theorem IsDigits.cons {k : Nat} {l : List UInt8} (h : IsDigits k l) {b : UInt8}
    (hb : 128 ≤ b.toNat) : IsDigits (k + 1) (b :: l) where
  ne_nil := by simp
  length_le := by simpa using h.length_le
  high := by
    rw [List.dropLast_cons_of_ne_nil h.ne_nil]
    intro c hc
    rcases List.mem_cons.mp hc with rfl | hc
    · exact hb
    · exact h.high c hc
  last := by
    refine h.last.imp (by simp) fun hlast c hc => hlast c ?_
    obtain ⟨a, l, rfl⟩ := List.exists_cons_of_ne_nil h.ne_nil
    simpa using hc

theorem IsDigits.tail {k : Nat} {b c : UInt8} {l : List UInt8}
    (h : IsDigits (k + 1) (b :: c :: l)) : 128 ≤ b.toNat ∧ IsDigits k (c :: l) := by
  refine ⟨h.high b (by simp), by simp, by simpa using h.length_le, fun d hd => ?_, ?_⟩
  · exact h.high d (by simp only [List.dropLast_cons_cons, List.mem_cons]; exact .inr hd)
  · exact h.last.imp (by simp) fun hlast d hd => hlast d (by simpa using hd)

/-- Reading digits returns what they denote. -/
theorem take_of_isDigits {k : Nat} {l : List UInt8} (h : IsDigits k l) (rest : List UInt8) :
    take k (l ++ rest) = some (denote l, rest) := by
  induction l generalizing k with
  | nil => exact absurd rfl h.ne_nil
  | cons b l ih =>
    obtain ⟨k, rfl⟩ : ∃ j, k = j + 1 := ⟨k - 1, by have := h.length_le; simp at this; omega⟩
    cases l with
    | nil =>
      cases k with
      | zero => simp [take, denote]
      | succ k =>
        have hb : b.toNat < 128 := by simpa using h.last
        simp [take, denote, hb]
    | cons c l =>
      obtain ⟨hb, htail⟩ := h.tail
      obtain ⟨k, rfl⟩ : ∃ j, k = j + 1 := ⟨k - 1, by have := htail.length_le; simp at this; omega⟩
      rw [List.cons_append, take, if_neg (by omega), ih htail]
      rfl

theorem isDigits_put {k v : Nat} (hk : k ≠ 0) (hv : v < capacity k) :
    IsDigits k (put k v) ∧ denote (put k v) = v := by
  induction k, v using put.induct with
  | case1 => exact absurd rfl hk
  | case2 v =>
    have hv : v < 256 := by simpa [capacity] using hv
    exact ⟨isDigits_singleton 0 (.inr rfl), by simp [put, denote, toNat_ofNat_of_lt hv]⟩
  | case3 k v h =>
    have hb : (UInt8.ofNat v).toNat = v := toNat_ofNat_of_lt (by omega)
    rw [put, if_pos h]
    exact ⟨isDigits_singleton _ (.inl (by omega)), by simp [denote, hb]⟩
  | case4 k v h ih =>
    have hb : (UInt8.ofNat (v % 128 + 128)).toNat = v % 128 + 128 :=
      toNat_ofNat_of_lt (by omega)
    rw [capacity] at hv
    obtain ⟨hdigits, hdenote⟩ := ih (by omega) (by omega)
    rw [put, if_neg h]
    refine ⟨hdigits.cons (by omega), ?_⟩
    rw [denote, hb, hdenote]
    omega

/-- There is only one way to write a number. -/
theorem IsDigits.eq_put {k : Nat} {l : List UInt8} (h : IsDigits k l) : l = put k (denote l) := by
  have htake := take_of_isDigits h []
  rw [List.append_nil] at htake
  simpa using eq_put_of_take htake

/-- A number is missing when the list ends and all of its bytes say that more
follow. -/
theorem take_eq_none {k : Nat} {bytes : List UInt8} :
    take (k + 1) bytes = none ↔ bytes.length < k + 1 ∧ ∀ b ∈ bytes, 128 ≤ b.toNat := by
  induction k generalizing bytes with
  | zero => cases bytes <;> simp [take]
  | succ k ih =>
    cases bytes with
    | nil => simp [take]
    | cons b bytes =>
      rw [take]
      split_ifs with hb
      · refine iff_of_false (by simp) fun h => ?_
        have := h.2 b (by simp)
        omega
      · have hge : 128 ≤ b.toNat := by omega
        simp only [Option.map_eq_none_iff, ih, List.length_cons, Nat.add_lt_add_iff_right,
          List.mem_cons, forall_eq_or_imp, hge, true_and]

end BijectiveDigits
