import Bilrost.Base.Families
import Bilrost.Base.Ranged
import Mathlib.Data.String.Basic

/-!
JSON values and the `Value` that holds one, with the conversions between the
two. Numbers are those of `serde_json`, of which it is a parameter what is used
of them; integers and floats are the bits that they are made of. Strings are
compared as their characters are, which is how their bytes compare.
-/

namespace Bilrost

namespace Types

/-- `Value`: null, a number of one of three kinds, a string, a truth value, a
map or a list. -/
inductive Value where
  | null
  | float (value : BitVec 64)
  | signed (value : BitVec 64)
  | unsigned (value : BitVec 64)
  | string (value : String)
  | bool (value : Bool)
  | struct (size : Nat) (key : Fin size → String) (ascending : StrictMono key)
      (value : Fin size → Value)
  | list (length : Nat) (value : Fin length → Value)

/-- `serde_json::Value` -/
inductive Json (Number : Type) where
  | null
  | bool (value : Bool)
  | number (value : Number)
  | string (value : String)
  | array (length : Nat) (value : Fin length → Json Number)
  | object (size : Nat) (key : Fin size → String) (ascending : StrictMono key)
      (value : Fin size → Json Number)

/-- What is used of `serde_json::Number`. -/
structure JsonNumbers (Number : Type) where
  isI64 : Number → Bool
  asI64 : Number → Option (BitVec 64)
  isU64 : Number → Bool
  asU64 : Number → Option (BitVec 64)
  asF64 : Number → Option (BitVec 64)
  fromI64 : BitVec 64 → Number
  fromU64 : BitVec 64 → Number
  fromF64 : BitVec 64 → Option Number

/-- `f64::is_finite`: not all bits of the exponent are set. -/
def isFinite (value : BitVec 64) : Bool := value.extractLsb' 52 11 != BitVec.allOnes 11

/-- What is documented of the numbers. -/
structure JsonNumbers.Documented {Number : Type} (numbers : JsonNumbers Number) : Prop where
  /-- A number is an unsigned integer, a negative one or a float. -/
  one_of (number : Number) : (∃ u, number = numbers.fromU64 u) ∨
    (∃ i, i.msb = true ∧ number = numbers.fromI64 i) ∨ ∃ f, numbers.fromF64 f = some number
  fromI64_nonneg {i : BitVec 64} : i.msb = false → numbers.fromI64 i = numbers.fromU64 i
  isI64_fromU64 (u : BitVec 64) : numbers.isI64 (numbers.fromU64 u) = !u.msb
  asI64_fromU64 {u : BitVec 64} : u.msb = false → numbers.asI64 (numbers.fromU64 u) = some u
  isU64_fromU64 (u : BitVec 64) : numbers.isU64 (numbers.fromU64 u) = true
  asU64_fromU64 (u : BitVec 64) : numbers.asU64 (numbers.fromU64 u) = some u
  isI64_fromI64 (i : BitVec 64) : numbers.isI64 (numbers.fromI64 i) = true
  asI64_fromI64 (i : BitVec 64) : numbers.asI64 (numbers.fromI64 i) = some i
  isI64_fromF64 {f : BitVec 64} {number : Number} :
    numbers.fromF64 f = some number → numbers.isI64 number = false
  isU64_fromF64 {f : BitVec 64} {number : Number} :
    numbers.fromF64 f = some number → numbers.isU64 number = false
  asF64_fromF64 {f : BitVec 64} {number : Number} :
    numbers.fromF64 f = some number → numbers.asF64 number = some f
  /-- Infinities and what is not a number are no JSON numbers. -/
  fromF64_isSome (f : BitVec 64) : (numbers.fromF64 f).isSome = isFinite f

section
variable {Number : Type} (numbers : JsonNumbers Number)

/-- `From<serde_json::Value> for Value` -/
def Value.fromJson : Json Number → Attempt Value
  | .null => .ok .null
  | .bool value => .ok (.bool value)
  | .number number =>
      if numbers.isI64 number then do
        let value ← Attempt.unwrap (numbers.asI64 number)
        .ok (.signed value)
      else if numbers.isU64 number then do
        let value ← Attempt.unwrap (numbers.asU64 number)
        .ok (.unsigned value)
      else do
        let value ← Attempt.unwrap (numbers.asF64 number)
        .ok (.float value)
  | .string value => .ok (.string value)
  | .array length value => do
      let values ← Family.collect fun i => fromJson (value i)
      .ok (.list length values)
  | .object size key ascending value => do
      let fields ← Family.collect fun i => fromJson (value i)
      .ok (.struct size key ascending fields)

/-- `TryFrom<Value> for serde_json::Value` -/
def Json.tryFrom : Value → Except Unit (Json Number)
  | .null => .ok .null
  | .float value =>
      match numbers.fromF64 value with
      | some n => .ok (.number n)
      | none => .error ()
  | .signed value => .ok (.number (numbers.fromI64 value))
  | .unsigned value => .ok (.number (numbers.fromU64 value))
  | .string value => .ok (.string value)
  | .bool value => .ok (.bool value)
  | .struct size key ascending value => do
      let fields ← Family.collect fun i => tryFrom (value i)
      .ok (.object size key ascending fields)
  | .list length value => do
      let values ← Family.collect fun i => tryFrom (value i)
      .ok (.array length values)

end

/-- A float that is not finite, at any depth. -/
def Value.holdsNonFinite : Value → Prop
  | .float value => isFinite value = false
  | .struct _ _ _ value => ∃ i, (value i).holdsNonFinite
  | .list _ value => ∃ i, (value i).holdsNonFinite
  | _ => False

section
variable {Number : Type} {numbers : JsonNumbers Number} (h : numbers.Documented)
include h

/-- Converting back is refused for floats that are not finite, and for nothing
else. -/
theorem Json.tryFrom_refuses (value : Value) :
    (∃ e, Json.tryFrom numbers value = .error e) ↔ value.holdsNonFinite := by
  induction value with
  | float f =>
      have hsome := h.fromF64_isSome f
      simp only [tryFrom, Value.holdsNonFinite, ← hsome]
      cases numbers.fromF64 f with
      | none => exact iff_of_true ⟨(), rfl⟩ rfl
      | some number => exact iff_of_false (by rintro ⟨e, ⟨⟩⟩) (by rintro ⟨⟩)
  | struct size key ascending fields ih =>
      simp only [Value.holdsNonFinite, ← ih, ← Family.collect_isError, tryFrom]
      cases Family.collect fun i => tryFrom numbers (fields i) with
      | error e => exact iff_of_true ⟨e, rfl⟩ ⟨e, rfl⟩
      | ok value => exact iff_of_false (by rintro ⟨e, ⟨⟩⟩) (by rintro ⟨e, ⟨⟩⟩)
  | list length values ih =>
      simp only [Value.holdsNonFinite, ← ih, ← Family.collect_isError, tryFrom]
      cases Family.collect fun i => tryFrom numbers (values i) with
      | error e => exact iff_of_true ⟨e, rfl⟩ ⟨e, rfl⟩
      | ok value => exact iff_of_false (by rintro ⟨e, ⟨⟩⟩) (by rintro ⟨e, ⟨⟩⟩)
  | _ => exact iff_of_false (by rintro ⟨e, ⟨⟩⟩) id

/-- A number goes to the first of three kinds that it fits, and comes back. -/
theorem Value.fromJson_number (number : Number) :
    ∃ value, Value.fromJson numbers (.number number) = .ok value ∧
      Json.tryFrom numbers value = .ok (.number number) := by
  have hreturn (value : Value) (hfrom : Value.fromJson numbers (.number number) = .ok value)
      (hback : Json.tryFrom numbers value = .ok (.number number)) :
      ∃ value, Value.fromJson numbers (.number number) = .ok value ∧
        Json.tryFrom numbers value = .ok (.number number) := ⟨value, hfrom, hback⟩
  obtain ⟨u, rfl⟩ | ⟨i, -, rfl⟩ | ⟨f, hf⟩ := h.one_of number
  · cases hmsb : u.msb with
    | false =>
        apply hreturn (.signed u)
        · simp only [fromJson, h.isI64_fromU64, hmsb, Bool.not_false, if_true, h.asI64_fromU64 hmsb]
          rfl
        · rw [Json.tryFrom, h.fromI64_nonneg hmsb]
    | true =>
        apply hreturn (.unsigned u)
        · simp only [fromJson, h.isI64_fromU64, hmsb, Bool.not_true, Bool.false_eq_true, if_false,
            h.isU64_fromU64, if_true, h.asU64_fromU64]
          rfl
        · rfl
  · apply hreturn (.signed i)
    · simp only [fromJson, h.isI64_fromI64, if_true, h.asI64_fromI64]
      rfl
    · rfl
  · apply hreturn (.float f)
    · simp only [fromJson, h.isI64_fromF64 hf, Bool.false_eq_true, if_false, h.isU64_fromF64 hf,
        h.asF64_fromF64 hf]
      rfl
    · simp only [Json.tryFrom, hf]

omit h in
/-- The members of an array or an object are converted one by one. -/
theorem Value.fromJson_members {n : Nat} {members : Fin n → Json Number}
    (hmembers : ∀ i, ∃ value, Value.fromJson numbers (members i) = .ok value ∧
      Json.tryFrom numbers value = .ok (members i)) :
    ∃ values, (Family.collect fun i => Value.fromJson numbers (members i)) = .ok values ∧
      (Family.collect fun i => Json.tryFrom numbers (values i)) = .ok members := by
  choose values hfrom hback using hmembers
  exact ⟨values, Family.collect_eq_ok.mpr hfrom, Family.collect_eq_ok.mpr hback⟩

/-- Every JSON value is held by a `Value` and comes back from it. -/
theorem Value.fromJson_returns (json : Json Number) :
    ∃ value, Value.fromJson numbers json = .ok value ∧ Json.tryFrom numbers value = .ok json := by
  induction json with
  | null => exact ⟨.null, rfl, rfl⟩
  | bool b => exact ⟨.bool b, rfl, rfl⟩
  | number number => exact fromJson_number h number
  | string s => exact ⟨.string s, rfl, rfl⟩
  | array length members ih =>
      obtain ⟨values, hfrom, hback⟩ := fromJson_members ih
      refine ⟨.list length values, ?_, ?_⟩
      · rw [fromJson, hfrom]
        rfl
      · rw [Json.tryFrom, hback]
        rfl
  | object size key ascending members ih =>
      obtain ⟨values, hfrom, hback⟩ := fromJson_members ih
      refine ⟨.struct size key ascending values, ?_, ?_⟩
      · rw [fromJson, hfrom]
        rfl
      · rw [Json.tryFrom, hback]
        rfl

end

end Types

end Bilrost
