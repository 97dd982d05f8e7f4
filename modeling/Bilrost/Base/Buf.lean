import Mathlib.Tactic

/-!
A readable sequence of bytes that is stored in pieces. Only the number of bytes
left and the first contiguous piece can be observed, and bytes are dropped from
the front. `Buf.bytes` is what such a buffer holds as one list; the laws say
that everything observable is a view of that list, so that a reader which is
written against `chunk` and `advance` can be understood on `bytes` alone.
-/

/-- The reading half of a byte buffer. `advance` is only meaningful for at most
`remaining` bytes. -/
class Buf (β : Type) where
  remaining : β → Nat
  chunk : β → List UInt8
  advance : β → Nat → β
  bytes : β → List UInt8
  remaining_eq : ∀ buf, remaining buf = (bytes buf).length
  chunk_isPrefix : ∀ buf, chunk buf <+: bytes buf
  chunk_ne_nil : ∀ buf, bytes buf ≠ [] → chunk buf ≠ []
  bytes_advance : ∀ buf n, n ≤ (bytes buf).length → bytes (advance buf n) = (bytes buf).drop n

namespace Buf

variable {β : Type} [Buf β]

/-- The first byte and the buffer after it. -/
def getU8 (buf : β) : UInt8 × β := ((chunk buf).headD 0, advance buf 1)

/-- Copies `n` bytes out, piece by piece. Every round takes at least one byte,
so `n` rounds are enough. -/
def copyOut (n : Nat) (buf : β) : List UInt8 × β := go n n buf
where
  go : Nat → Nat → β → List UInt8 × β
    | 0, _, buf => ([], buf)
    | rounds + 1, n, buf =>
        if n = 0 then ([], buf)
        else
          let cnt := min (chunk buf).length n
          let (rest, left) := go rounds (n - cnt) (advance buf cnt)
          ((chunk buf).take cnt ++ rest, left)

theorem chunk_length_le (buf : β) : (chunk buf).length ≤ (bytes buf).length :=
  (chunk_isPrefix buf).length_le

theorem chunk_length_pos {buf : β} (h : bytes buf ≠ []) : 0 < (chunk buf).length :=
  List.length_pos_iff.mpr (chunk_ne_nil buf h)

/-- The bytes of a non-empty chunk are the first bytes of the buffer. -/
theorem chunk_eq_cons {buf : β} {b : UInt8} {rest : List UInt8} (h : bytes buf = b :: rest) :
    ∃ tail, chunk buf = b :: tail ∧ tail <+: rest := by
  have hne : chunk buf ≠ [] := chunk_ne_nil buf (by simp [h])
  obtain ⟨c, tail, hc⟩ := List.exists_cons_of_ne_nil hne
  have hpre := chunk_isPrefix buf
  rw [hc, h, List.cons_prefix_cons] at hpre
  exact ⟨tail, by rw [hc, hpre.1], hpre.2⟩

theorem chunk_eq_nil {buf : β} (h : bytes buf = []) : chunk buf = [] := by
  have hpre := chunk_isPrefix buf
  rw [h] at hpre
  exact List.prefix_nil.mp hpre

theorem getU8_of_cons {buf : β} {b : UInt8} {rest : List UInt8} (h : bytes buf = b :: rest) :
    (getU8 buf).1 = b ∧ bytes (getU8 buf).2 = rest := by
  obtain ⟨tail, hc, -⟩ := chunk_eq_cons h
  refine ⟨by simp [getU8, hc], ?_⟩
  rw [getU8, bytes_advance buf 1 (by simp [h]), h]
  rfl

theorem take_chunk {buf : β} {n : Nat} (h : n ≤ (chunk buf).length) :
    (chunk buf).take n = (bytes buf).take n := by
  obtain ⟨rest, hrest⟩ := chunk_isPrefix buf
  rw [← hrest, List.take_append_of_le_length h]

private theorem copyOut_go (rounds n : Nat) (buf : β) (hr : n ≤ rounds)
    (hn : n ≤ (bytes buf).length) :
    (copyOut.go rounds n buf).1 = (bytes buf).take n ∧
      bytes (copyOut.go rounds n buf).2 = (bytes buf).drop n := by
  induction rounds generalizing n buf with
  | zero =>
    obtain rfl : n = 0 := by omega
    simp [copyOut.go]
  | succ rounds ih =>
    rw [copyOut.go]
    by_cases h0 : n = 0
    · simp [h0]
    · have hne : bytes buf ≠ [] := by
        intro hnil
        rw [hnil, List.length_nil] at hn
        omega
      have hpos := chunk_length_pos hne
      have hle := chunk_length_le buf
      have htake : (chunk buf).take (min (chunk buf).length n) =
          (bytes buf).take (min (chunk buf).length n) := take_chunk (by omega)
      simp only [h0, ↓reduceIte, htake]
      generalize hc : min (chunk buf).length n = cnt
      have hadv := bytes_advance buf cnt (by omega)
      have hrec := ih (n - cnt) (advance buf cnt) (by omega)
        (by rw [hadv, List.length_drop]; omega)
      rw [hadv] at hrec
      have hsum : cnt + (n - cnt) = n := by omega
      refine ⟨?_, ?_⟩
      · rw [hrec.1, ← List.take_add, hsum]
      · rw [hrec.2, List.drop_drop, hsum]

/-- Copying out takes exactly the first `n` bytes, however they are stored. -/
theorem copyOut_spec {n : Nat} (buf : β) (hn : n ≤ (bytes buf).length) :
    (copyOut n buf).1 = (bytes buf).take n ∧ bytes (copyOut n buf).2 = (bytes buf).drop n :=
  copyOut_go n n buf le_rfl hn

end Buf

/-- A contiguous slice is a buffer in one piece. -/
instance : Buf (List UInt8) where
  remaining := List.length
  chunk := id
  advance buf n := buf.drop n
  bytes := id
  remaining_eq _ := rfl
  chunk_isPrefix _ := List.prefix_rfl
  chunk_ne_nil _ h := h
  bytes_advance _ _ _ := rfl

@[simp] theorem Buf.bytes_slice (buf : List UInt8) : Buf.bytes buf = buf := rfl

/-- Bytes held in non-empty segments, read from the first to the last. -/
structure Segments where
  parts : List (List UInt8)
  nonempty : ∀ part ∈ parts, part ≠ []

namespace Segments

/-- Drops `n` bytes from the front, removing the segments that are used up. -/
def dropFront : List (List UInt8) → Nat → List (List UInt8)
  | [], _ => []
  | part :: parts, n =>
      if n < part.length then part.drop n :: parts
      else dropFront parts (n - part.length)

theorem dropFront_nonempty (parts : List (List UInt8)) (n : Nat)
    (h : ∀ part ∈ parts, part ≠ []) : ∀ part ∈ dropFront parts n, part ≠ [] := by
  induction parts generalizing n with
  | nil => simp [dropFront]
  | cons part parts ih =>
    rw [dropFront]
    split
    · next hlt =>
      intro p hp
      rcases List.mem_cons.mp hp with rfl | hp
      · simpa using hlt
      · exact h p (List.mem_cons_of_mem _ hp)
    · exact ih _ fun p hp => h p (List.mem_cons_of_mem _ hp)

theorem flatten_dropFront (parts : List (List UInt8)) (n : Nat) :
    (dropFront parts n).flatten = parts.flatten.drop n := by
  induction parts generalizing n with
  | nil => simp [dropFront]
  | cons part parts ih =>
    rw [dropFront]
    split
    · next hlt =>
      rw [List.flatten_cons, List.flatten_cons, List.drop_append_of_le_length hlt.le]
    · next hge =>
      rw [ih, List.flatten_cons, List.drop_append,
        List.drop_eq_nil_of_le (Nat.le_of_not_lt hge), List.nil_append]

end Segments

instance : Buf Segments where
  remaining buf := (buf.parts.map List.length).sum
  chunk buf := buf.parts.headD []
  advance buf n :=
    ⟨Segments.dropFront buf.parts n, Segments.dropFront_nonempty buf.parts n buf.nonempty⟩
  bytes buf := buf.parts.flatten
  remaining_eq buf := by rw [List.length_flatten]
  chunk_isPrefix buf := by
    cases h : buf.parts with
    | nil => simp
    | cons part parts => simp
  chunk_ne_nil buf h := by
    cases hp : buf.parts with
    | nil => simp [hp] at h
    | cons part parts => simpa [hp] using buf.nonempty part (by simp [hp])
  bytes_advance buf n _ := Segments.flatten_dropFront buf.parts n
