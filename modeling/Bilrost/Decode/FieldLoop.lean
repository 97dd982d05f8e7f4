import Bilrost.Decode.Fields

/-!
The loop that every message decoder is: read a key, hand the field to the
message, go on to the end of the region. It is written here once, for any way
to decode a field into a state, and `FieldRun` is what it does: the fields that
it finds one after the other, with the state before and after each.
-/

namespace Bilrost

open Program

section
variable {σ : Type}

/-- One round of the loop. `decode` is told the tag, the wire type and whether
the field before had the same tag. -/
def readField (decode : Nat → WireType → Bool → σ → Program σ) :
    TagReader × Option Nat × σ → Program (TagReader × Option Nat × σ)
  | (tr, lastTag, s) => do
      let ((tag, wireType), tr) ← tr.decodeKey
      let s ← decode tag wireType (lastTag == some tag) s
      .done (tr, some tag, s)

/-- The fields to the end of the region, when the key before them was that of
the tag `last`. -/
def fieldsFrom (decode : Nat → WireType → Bool → σ → Program σ) (last : Nat)
    (lastTag : Option Nat) (s : σ) : Program σ :=
  (whileRemaining (readField decode) (⟨last⟩, lastTag, s)).bind fun state => .done state.2.2

/-- A sequence of fields that is decoded to its end, with the lowest canonicity
that was checked on the way. -/
inductive FieldRun (decode : Nat → WireType → Bool → σ → Program σ) :
    Nat → Option Nat → σ → Bytes → Canonicity → σ → Prop where
  | nil {last : Nat} {lastTag : Option Nat} {s : σ} :
      FieldRun decode last lastTag s [] .canonical s
  | cons {last tag : Nat} {lastTag : Option Nat} {wireType : WireType} {s s' s'' : σ}
      {rest rest' : Bytes} {lowest lowest' : Canonicity} (hle : last ≤ tag) (htag : tag < 2 ^ 32)
      (hfield : (decode tag wireType (lastTag == some tag) s).parse rest = .ok ⟨s', lowest, rest'⟩)
      (hrun : FieldRun decode tag (some tag) s' rest' lowest' s'') :
      FieldRun decode last lastTag s (keyBytes (tag - last) wireType ++ rest)
        (lowest.update lowest') s''

variable {decode : Nat → WireType → Bool → σ → Program σ}

theorem regular_readField (h : ∀ tag wireType dup s, (decode tag wireType dup s).Regular)
    (state : TagReader × Option Nat × σ) : Regular (readField decode state) :=
  (TagReader.regular_decodeKey _).bind fun _ => (h _ _ _ _).bind fun _ => regular_done _

theorem advances_readField (decode : Nat → WireType → Bool → σ → Program σ)
    (state : TagReader × Option Nat × σ) : Advances (readField decode state) :=
  Advances.bind (TagReader.advances_decodeKey _) _

theorem regular_fieldsFrom (h : ∀ tag wireType dup s, (decode tag wireType dup s).Regular)
    (last : Nat) (lastTag : Option Nat) (s : σ) : Regular (fieldsFrom decode last lastTag s) :=
  (Regular.whileRemaining (regular_readField h) (advances_readField decode) _).map _

/-- Decoding fields ends at the cap or not at all. -/
theorem endsAtCap_fieldsFrom (decode : Nat → WireType → Bool → σ → Program σ) (last : Nat)
    (lastTag : Option Nat) (s : σ) : EndsAtCap (fieldsFrom decode last lastTag s) := by
  intro β _ minCanonicity capped capped' x hrun
  rw [fieldsFrom, run_bind] at hrun
  split at hrun
  · next state mid hloop =>
    obtain ⟨-, rfl⟩ : state.2.2 = x ∧ mid = capped' := by simpa [run] using hrun
    exact endsAtCap_whileRemaining _ _ minCanonicity capped mid state hloop
  · cases hrun

theorem parse_readField {last tag : Nat} (hle : last ≤ tag) (htag : tag < 2 ^ 32)
    (lastTag : Option Nat) (s : σ) (wireType : WireType) (rest : Bytes) :
    (readField decode (⟨last⟩, lastTag, s)).parse (keyBytes (tag - last) wireType ++ rest) =
      ((decode tag wireType (lastTag == some tag) s).parse rest).map fun parsed =>
        ⟨(⟨tag⟩, some tag, parsed.value), parsed.lowest, parsed.rest⟩ := by
  rw [readField, bind_eq, parse_bind, TagReader.parse_decodeKey hle htag]
  simp only [bind_eq, map_lower_canonical]
  rw [parse_bind]
  cases (decode tag wireType (lastTag == some tag) s).parse rest with
  | ok parsed => simp [parse, Except.map, Parsed.lower]
  | error fault => rfl

theorem parse_readField_eq_ok {last : Nat} {lastTag : Option Nat} {s : σ} {bytes : Bytes}
    {parsed : Parsed (TagReader × Option Nat × σ)}
    (h : (readField decode (⟨last⟩, lastTag, s)).parse bytes = .ok parsed) :
    ∃ tag wireType rest, last ≤ tag ∧ tag < 2 ^ 32 ∧
      bytes = keyBytes (tag - last) wireType ++ rest := by
  rw [readField, bind_eq, parse_bind] at h
  split at h
  · next key hkey =>
    obtain ⟨⟨⟨tag, wireType⟩, tr⟩, lowest, rest⟩ := key
    obtain ⟨-, -, hle, htag, hbytes⟩ := TagReader.parse_decodeKey_eq_ok hkey
    exact ⟨tag, wireType, rest, hle, htag, hbytes⟩
  · cases h

theorem readField_length_lt (h : ∀ tag wireType dup s, (decode tag wireType dup s).Regular)
    (state : TagReader × Option Nat × σ) (bytes : Bytes)
    (parsed : Parsed (TagReader × Option Nat × σ))
    (hparse : (readField decode state).parse bytes = .ok parsed) :
    parsed.rest.length < bytes.length :=
  Advances.parse (advances_readField decode state) (regular_readField h state).seals hparse

@[simp] theorem parse_fieldsFrom_nil (last : Nat) (lastTag : Option Nat) (s : σ) :
    (fieldsFrom decode last lastTag s).parse [] = .ok ⟨s, .canonical, []⟩ := by
  rw [fieldsFrom, parse_bind, parse_whileRemaining_nil]
  rfl

theorem keyBytes_ne_nil (tagDelta : Nat) (wireType : WireType) : keyBytes tagDelta wireType ≠ [] :=
  varint_ne_nil _

/-- The first field is decoded and then the others. -/
theorem parse_fieldsFrom_cons (h : ∀ tag wireType dup s, (decode tag wireType dup s).Regular)
    {last tag : Nat} (hle : last ≤ tag) (htag : tag < 2 ^ 32) (lastTag : Option Nat) (s : σ)
    (wireType : WireType) (rest : Bytes) :
    (fieldsFrom decode last lastTag s).parse (keyBytes (tag - last) wireType ++ rest) =
      match (decode tag wireType (lastTag == some tag) s).parse rest with
      | .ok parsed =>
          ((fieldsFrom decode tag (some tag) parsed.value).parse parsed.rest).map
            (Parsed.lower parsed.lowest)
      | .error fault => .error fault := by
  rw [fieldsFrom, parse_bind, parse_whileRemaining (readField_length_lt h) _
    (by simp [keyBytes_ne_nil]), parse_readField hle htag]
  cases (decode tag wireType (lastTag == some tag) s).parse rest with
  | error fault => rfl
  | ok parsed =>
    simp only [Except.map, fieldsFrom, parse_bind]
    cases (whileRemaining (readField decode) (⟨tag⟩, some tag, parsed.value)).parse parsed.rest with
    | error fault => rfl
    | ok state => simp [parse, Parsed.lower]

/-- What the loop does is a run of fields to the end. -/
theorem parse_fieldsFrom_iff (h : ∀ tag wireType dup s, (decode tag wireType dup s).Regular)
    {last : Nat} {lastTag : Option Nat} {s s' : σ} {bytes rest : Bytes} {lowest : Canonicity} :
    (fieldsFrom decode last lastTag s).parse bytes = .ok ⟨s', lowest, rest⟩ ↔
      rest = [] ∧ FieldRun decode last lastTag s bytes lowest s' := by
  constructor
  · intro hparse
    induction hn : bytes.length using Nat.strongRecOn generalizing last lastTag s bytes lowest with
    | ind n ih =>
      by_cases hnil : bytes = []
      · subst hnil
        rw [parse_fieldsFrom_nil] at hparse
        obtain ⟨rfl, rfl, rfl⟩ : s = s' ∧ .canonical = lowest ∧ [] = rest := by simpa using hparse
        exact ⟨rfl, .nil⟩
      · have hfirst := hparse
        rw [fieldsFrom, parse_bind, parse_whileRemaining (readField_length_lt h) _ hnil] at hfirst
        cases hread : (readField decode (⟨last⟩, lastTag, s)).parse bytes with
        | error fault => simp [hread] at hfirst
        | ok parsed =>
          obtain ⟨tag, wireType, left, hle, htag, rfl⟩ := parse_readField_eq_ok hread
          rw [parse_fieldsFrom_cons h hle htag] at hparse
          have hkey := List.length_pos_iff.mpr (keyBytes_ne_nil (tag - last) wireType)
          cases hfield : (decode tag wireType (lastTag == some tag) s).parse left with
          | error fault => simp [hfield] at hparse
          | ok field =>
            simp only [hfield] at hparse
            cases hmore : (fieldsFrom decode tag (some tag) field.value).parse field.rest with
            | error fault => simp [hmore, Except.map] at hparse
            | ok more =>
              obtain ⟨s'', lowest', rest'⟩ := more
              have hlength := parse_length_le (h tag wireType _ s).seals hfield
              rw [hmore] at hparse
              obtain ⟨rfl, rfl, rfl⟩ :
                  s'' = s' ∧ field.lowest.update lowest' = lowest ∧ rest' = rest := by
                simpa [Except.map, Parsed.lower] using hparse
              have hrun := ih field.rest.length
                (by rw [← hn, List.length_append]; omega) hmore rfl
              exact ⟨hrun.1, .cons hle htag hfield hrun.2⟩
  · rintro ⟨rfl, hrun⟩
    induction hrun with
    | nil => exact parse_fieldsFrom_nil _ _ _
    | cons hle htag hfield _ ih =>
      rw [parse_fieldsFrom_cons h hle htag, hfield]
      simp only [ih]
      rfl

end

end Bilrost
