import Bilrost.Decode.Program

/-!
What a decoder means. `Program.parse` reads a program as a parser of the bytes
before the cap: nothing behind them can be seen, and a delimited region is a
byte string of its own. Canonicities are not compared with anything; the lowest
one that was checked is returned.

`SealsRegions` is the condition under which execution refines this reading:
a decoder of a region that does not fail has stopped exactly at the cap.
-/

namespace Bilrost

/-- Why parsing fails, as far as it matters: the recursion limit or the input. -/
inductive Fault where
  | limit
  | other
  deriving DecidableEq, Repr

def Stop.fault : Stop → Fault
  | .error .recursionLimitReached => .limit
  | _ => .other

/-- What a parser returns: a value, the lowest canonicity checked on the way
and the bytes left. -/
structure Parsed (α : Type) where
  value : α
  lowest : Canonicity
  rest : Bytes
  deriving DecidableEq

/-- The same outcome after a canonicity was checked. -/
def Parsed.lower {α : Type} (canon : Canonicity) (parsed : Parsed α) : Parsed α :=
  { parsed with lowest := canon.update parsed.lowest }

@[simp] theorem Parsed.lower_value {α : Type} (canon : Canonicity) (parsed : Parsed α) :
    (parsed.lower canon).value = parsed.value := rfl

@[simp] theorem Parsed.lower_rest {α : Type} (canon : Canonicity) (parsed : Parsed α) :
    (parsed.lower canon).rest = parsed.rest := rfl

@[simp] theorem Parsed.lower_lowest {α : Type} (canon : Canonicity) (parsed : Parsed α) :
    (parsed.lower canon).lowest = canon.update parsed.lowest := rfl

@[simp] theorem Parsed.lower_canonical {α : Type} (parsed : Parsed α) :
    parsed.lower .canonical = parsed := by
  simp [Parsed.lower]

theorem Parsed.lower_lower {α : Type} (a b : Canonicity) (parsed : Parsed α) :
    (parsed.lower b).lower a = parsed.lower (a.update b) := by
  simp [Parsed.lower, Canonicity.update_assoc]

/-- A byte string behind its length. -/
def parseDelimited (bytes : Bytes) : Option (Bytes × Bytes) :=
  match parseVarint bytes with
  | .ok (len, rest) => if len ≤ rest.length then some (rest.take len, rest.drop len) else none
  | .error _ => none

theorem parseDelimited_append {delimited : Bytes} (h : delimited.length < 2 ^ 64) (rest : Bytes) :
    parseDelimited (varint delimited.length ++ (delimited ++ rest)) = some (delimited, rest) := by
  rw [parseDelimited, parseVarint_varint h]
  simp

theorem parseDelimited_eq_some {bytes delimited rest : Bytes}
    (h : parseDelimited bytes = some (delimited, rest)) :
    delimited.length < 2 ^ 64 ∧ bytes = varint delimited.length ++ (delimited ++ rest) := by
  rw [parseDelimited] at h
  split at h
  · next len left hvarint =>
    split_ifs at h with hle
    obtain ⟨rfl, rfl⟩ : left.take len = delimited ∧ left.drop len = rest := by simpa using h
    obtain ⟨hlt, rfl⟩ := parseVarint_eq_ok hvarint
    rw [List.length_take, min_eq_left hle, List.take_append_drop]
    exact ⟨hlt, rfl⟩
  · cases h

/-- What a read does with the bytes before the cap. -/
def Op.parse {γ : Type} : Op γ → Bytes → Option (γ × Bytes)
  | decodeVarint, bytes => (parseVarint bytes).toOption
  | remainingBeforeCap, bytes => some (bytes.length, bytes)
  | hasRemaining, bytes => some (decide (bytes ≠ []), bytes)
  | peekRepeatedField, [] => some (none, [])
  | peekRepeatedField, b :: rest =>
      if 4 ≤ b.toNat then some (none, b :: rest) else some (some (WireType.fromU8 b.toNat), rest)
  | getBytes n, bytes => if n ≤ bytes.length then some (bytes.take n, bytes.drop n) else none
  | copyBytes n, bytes => if n ≤ bytes.length then some (bytes.take n, bytes.drop n) else none
  | skipBytes n, bytes => if n ≤ bytes.length then some ((), bytes.drop n) else none
  | takeAll, bytes => some (bytes, [])
  | takeSmolStr, bytes => some (bytes, [])
  | takeBorrowed, bytes => parseDelimited bytes
  | note _, bytes => some ((), bytes)

namespace Program

/-- What a program does with the bytes before the cap. -/
def parse {α : Type} : Program α → Bytes → Except Fault (Parsed α)
  | done value, bytes => .ok ⟨value, .canonical, bytes⟩
  | fail stop, _ => .error stop.fault
  | check canon next, bytes => (next.parse bytes).map (Parsed.lower canon)
  | op o next, bytes =>
      match o.parse bytes with
      | some (x, rest) => (next x).parse rest
      | none => .error .other
  | region inner next, bytes =>
      match parseDelimited bytes with
      | some (delimited, rest) =>
          match (inner delimited.length).parse delimited with
          | .ok ⟨x, lowest, []⟩ => ((next x).parse rest).map (Parsed.lower lowest)
          | .ok ⟨_, _, _ :: _⟩ => .error .other
          | .error fault => .error fault
      | none => .error .other

/-- A decoder of a region of `len` bytes that stops exactly at the cap, unless
it fails. -/
def Sealed {γ : Type} (len : Nat) (inner : Program γ) : Prop :=
  ∀ {β : Type} [Buf β] (capped : Capped β), ¬ capped.Over → capped.remainingBeforeCap = len →
    ∀ minCanonicity x capped', inner.run minCanonicity capped = .ok (x, capped') →
      capped'.remaining = capped'.extraBytesRemaining

/-- Every region that the program decodes is sealed. -/
def SealsRegions {α : Type} : Program α → Prop
  | done _ => True
  | fail _ => True
  | check _ next => next.SealsRegions
  | op _ next => ∀ x, (next x).SealsRegions
  | region inner next =>
      (∀ len, (inner len).SealsRegions ∧ Sealed len (inner len)) ∧ ∀ x, (next x).SealsRegions

theorem map_lower_lower {α : Type} (canon lowest : Canonicity) (outcome : Except Fault (Parsed α)) :
    (outcome.map (Parsed.lower lowest)).map (Parsed.lower canon) =
      outcome.map (Parsed.lower (canon.update lowest)) := by
  cases outcome <;> simp [Except.map, Parsed.lower_lower]

theorem map_lower_canonical {α : Type} (outcome : Except Fault (Parsed α)) :
    outcome.map (Parsed.lower .canonical) = outcome := by
  cases outcome <;> simp [Except.map]

theorem parse_bind {α δ : Type} (p : Program α) (f : α → Program δ) (bytes : Bytes) :
    (p.bind f).parse bytes =
      match p.parse bytes with
      | .ok parsed => ((f parsed.value).parse parsed.rest).map (Parsed.lower parsed.lowest)
      | .error fault => .error fault := by
  induction p generalizing bytes with
  | done value => exact (map_lower_canonical _).symm
  | fail stop => rfl
  | check canon next ih =>
    simp only [check_bind, parse, ih]
    cases next.parse bytes with
    | ok parsed => exact map_lower_lower _ _ _
    | error fault => rfl
  | op o next ih =>
    simp only [op_bind, parse]
    split
    · exact ih _ f _
    · rfl
  | region inner next _ ih =>
    simp only [region_bind, parse]
    split
    · split
      · rw [ih]
        cases (next _).parse _ with
        | ok parsed => exact map_lower_lower _ _ _
        | error fault => rfl
      · rfl
      · rfl
    · rfl

end Program

end Bilrost
