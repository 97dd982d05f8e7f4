import Mathlib.Order.Defs.LinearOrder
import Mathlib.Order.Lattice
import Mathlib.Tactic

/-!
The vocabulary shared by every encoder and decoder: byte strings, the four wire
types, decode errors and canonicity.
-/

namespace Bilrost

abbrev Bytes := List UInt8

/-- How many values that are encoded like a message may be nested. -/
def recursionLimit : Nat := 100

inductive DecodeErrorKind where
  | truncated
  | invalidVarint
  | tagOverflowed
  | wrongWireType
  | outOfDomainValue
  | invalidValue
  | conflictingFields
  | unexpectedlyRepeated
  | notCanonical
  | unknownField
  | recursionLimitReached
  | oversize
  | other
  deriving DecidableEq, Repr

inductive WireType where
  | varint
  | lengthDelimited
  | thirtyTwoBit
  | sixtyFourBit
  deriving DecidableEq, Repr

namespace WireType

def toU64 : WireType → Nat
  | varint => 0
  | lengthDelimited => 1
  | thirtyTwoBit => 2
  | sixtyFourBit => 3

/-- The wire type in the two low bits of a key. -/
def fromU8 (value : Nat) : WireType :=
  match value % 4 with
  | 0 => varint
  | 1 => lengthDelimited
  | 2 => thirtyTwoBit
  | _ => sixtyFourBit

def fixedSize : WireType → Option Nat
  | sixtyFourBit => some 8
  | thirtyTwoBit => some 4
  | varint | lengthDelimited => none

theorem toU64_lt (wireType : WireType) : wireType.toU64 < 4 := by
  cases wireType <;> decide

@[simp] theorem fromU8_key (wireType : WireType) (n : Nat) :
    fromU8 (4 * n + wireType.toU64) = wireType := by
  have hmod : (4 * n + wireType.toU64) % 4 = wireType.toU64 := by
    have := wireType.toU64_lt
    omega
  rw [fromU8, hmod]
  cases wireType <;> rfl

@[simp] theorem fromU8_toU64 (wireType : WireType) : fromU8 wireType.toU64 = wireType := by
  cases wireType <;> rfl

theorem toU64_fromU8 (n : Nat) : (fromU8 n).toU64 = n % 4 := by
  have hlt : n % 4 < 4 := Nat.mod_lt _ (by decide)
  rw [fromU8]
  split <;> simp_all [toU64]
  omega

end WireType

/-- How close decoded data is to the one canonical encoding of its value, from
the least to the most canonical. -/
inductive Canonicity where
  | notCanonical
  | hasExtensions
  | canonical
  deriving DecidableEq, Repr

namespace Canonicity

def rank : Canonicity → Nat
  | notCanonical => 0
  | hasExtensions => 1
  | canonical => 2

theorem rank_injective : Function.Injective rank := by
  intro a b h
  cases a <;> cases b <;> first | rfl | cases h

instance : LinearOrder Canonicity := LinearOrder.lift' rank rank_injective

theorem le_canonical (c : Canonicity) : c ≤ canonical := by
  cases c <;> decide

theorem notCanonical_le (c : Canonicity) : notCanonical ≤ c := by
  cases c <;> decide

/-- `Canonicity::update`: the lower of the two. -/
def update (self other : Canonicity) : Canonicity := min self other

@[simp] theorem update_canonical (c : Canonicity) : c.update canonical = c :=
  min_eq_left (le_canonical c)

@[simp] theorem canonical_update (c : Canonicity) : canonical.update c = c :=
  min_eq_right (le_canonical c)

@[simp] theorem update_notCanonical (c : Canonicity) : c.update notCanonical = notCanonical :=
  min_eq_right (notCanonical_le c)

@[simp] theorem notCanonical_update (c : Canonicity) : notCanonical.update c = notCanonical :=
  min_eq_left (notCanonical_le c)

theorem update_assoc (a b c : Canonicity) : (a.update b).update c = a.update (b.update c) :=
  min_assoc a b c

theorem le_update_iff {r a b : Canonicity} : r ≤ a.update b ↔ r ≤ a ∧ r ≤ b :=
  le_min_iff

end Canonicity

/-- `RestrictedDecodeContext::check`: canonicity below the required minimum is
an error, anything else is passed through. -/
def check (minCanonicity canon : Canonicity) : Except DecodeErrorKind Canonicity :=
  match decide (canon < minCanonicity), canon with
  | true, .notCanonical => .error .notCanonical
  | true, .hasExtensions => .error .unknownField
  | _, _ => .ok canon

theorem check_of_le {minCanonicity canon : Canonicity} (h : minCanonicity ≤ canon) :
    check minCanonicity canon = .ok canon := by
  cases minCanonicity <;> cases canon <;> first | rfl | exact absurd h (by decide)

theorem check_of_lt {minCanonicity canon : Canonicity} (h : canon < minCanonicity) :
    ∃ err, check minCanonicity canon = .error err := by
  cases minCanonicity <;> cases canon <;> first
    | exact absurd h (by decide)
    | exact ⟨_, rfl⟩

end Bilrost
