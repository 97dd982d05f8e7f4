import Bilrost.Decode.Parses

/-!
What is read on the way. `Reading` is the loop over fields stopped anywhere: the
fields it has read, with the bytes that each of them took, and where it is then.
`Enters` says that one program comes to be run in the course of another, on
which bytes: the contents of a nested message, for one.
-/

namespace Bilrost

open Program

namespace Program

/-- What is left of some bytes is their end. -/
theorem Op.parse_suffix {γ : Type} {o : Op γ} {bytes rest : Bytes} {x : γ}
    (h : o.parse bytes = some (x, rest)) : ∃ taken, bytes = taken ++ rest := by
  have hbytes {n : Nat} {x : Bytes}
      (h : (if n ≤ bytes.length then some (bytes.take n, bytes.drop n) else none) =
        some (x, rest)) : ∃ taken, bytes = taken ++ rest :=
    ⟨x, (parse_bytes_iff.mp h).2⟩
  cases o with
  | decodeVarint => exact ⟨_, (parses_decodeVarint.mp h).2⟩
  | remainingBeforeCap =>
      obtain ⟨-, rfl⟩ : bytes.length = x ∧ bytes = rest := by simpa [Op.parse] using h
      exact ⟨[], rfl⟩
  | hasRemaining =>
      obtain ⟨-, rfl⟩ : decide (bytes ≠ []) = x ∧ bytes = rest := by
        rw [Op.parse, Option.some.injEq, Prod.mk.injEq] at h
        exact h
      exact ⟨[], rfl⟩
  | peekRepeatedField =>
      cases bytes with
      | nil =>
          obtain ⟨-, rfl⟩ : none = x ∧ [] = rest := by simpa [Op.parse] using h
          exact ⟨[], rfl⟩
      | cons key bytes =>
          rw [Op.parse] at h
          split_ifs at h
          · obtain ⟨-, rfl⟩ : none = x ∧ key :: bytes = rest := by simpa using h
            exact ⟨[], rfl⟩
          · obtain ⟨-, rfl⟩ : some (WireType.fromU8 key.toNat) = x ∧ bytes = rest := by
              simpa using h
            exact ⟨[key], rfl⟩
  | getBytes n => exact hbytes h
  | copyBytes n => exact hbytes h
  | skipBytes n =>
      rw [Op.parse] at h
      split_ifs at h
      obtain rfl : bytes.drop n = rest := by simpa using h
      exact ⟨bytes.take n, (List.take_append_drop n bytes).symm⟩
  | takeAll =>
      obtain ⟨-, rfl⟩ : bytes = x ∧ [] = rest := by simpa [Op.parse] using h
      exact ⟨bytes, (List.append_nil bytes).symm⟩
  | takeSmolStr =>
      obtain ⟨-, rfl⟩ : bytes = x ∧ [] = rest := by simpa [Op.parse] using h
      exact ⟨bytes, (List.append_nil bytes).symm⟩
  | takeBorrowed =>
      obtain ⟨-, rfl⟩ := parseDelimited_eq_some h
      exact ⟨varint x.length ++ x, (List.append_assoc ..).symm⟩
  | note =>
      obtain ⟨-, rfl⟩ : () = x ∧ bytes = rest := by simpa [Op.parse] using h
      exact ⟨[], rfl⟩

theorem Parses.suffix {α : Type} {p : Program α} {bytes rest : Bytes} {x : α}
    (h : p.Parses bytes x rest) : ∃ taken, bytes = taken ++ rest := by
  induction p generalizing bytes with
  | done value =>
      obtain ⟨-, rfl⟩ := parses_done.mp h
      exact ⟨[], rfl⟩
  | fail stop => exact (parses_fail.mp h).elim
  | check canon next ih => exact ih (parses_check.mp h)
  | op o next ih =>
      obtain ⟨y, mid, hread, hnext⟩ := parses_op.mp h
      obtain ⟨first, rfl⟩ := Op.parse_suffix hread
      obtain ⟨second, rfl⟩ := ih y hnext
      exact ⟨first ++ second, (List.append_assoc ..).symm⟩
  | region inner next _ ih =>
      obtain ⟨content, left, y, hregion, -, hnext⟩ := parses_region.mp h
      obtain ⟨-, rfl⟩ := parseDelimited_eq_some hregion
      obtain ⟨second, rfl⟩ := ih y hnext
      exact ⟨varint content.length ++ (content ++ second), by simp⟩

/-- While a program parses some bytes, `q` comes to be run on `content`: at once,
in the first of two programs that follow each other, in the later one, or inside
a delimited region. -/
inductive Enters {γ : Type} (q : Program γ) (content : Bytes) :
    {α : Type} → Program α → Bytes → Prop
  | here : Enters q content q content
  | first {α δ : Type} {p : Program α} {f : α → Program δ} {bytes : Bytes}
      (h : Enters q content p bytes) : Enters q content (p.bind f) bytes
  | later {α δ : Type} {p : Program α} {f : α → Program δ} {bytes mid : Bytes} {x : α}
      (hfirst : p.Parses bytes x mid) (h : Enters q content (f x) mid) :
      Enters q content (p.bind f) bytes
  | inside {α : Type} {inner : Nat → Program α} {bytes region rest : Bytes}
      (hregion : parseDelimited bytes = some (region, rest))
      (h : Enters q content (inner region.length) region) :
      Enters q content (delimited inner) bytes

/-- What is entered by a program that does not fail does not fail. -/
theorem Enters.parses {α γ : Type} {q : Program γ} {content : Bytes} {p : Program α} {bytes : Bytes}
    (h : Enters q content p bytes) (hparse : ∃ x rest, p.Parses bytes x rest) :
    ∃ x rest, q.Parses content x rest := by
  induction h with
  | here => exact hparse
  | first _ ih =>
      obtain ⟨x, rest, hparse⟩ := hparse
      obtain ⟨y, mid, hfirst, -⟩ := parses_bind.mp hparse
      exact ih ⟨y, mid, hfirst⟩
  | later hfirst _ ih =>
      obtain ⟨x, rest, hparse⟩ := hparse
      obtain ⟨y, mid, hfirst', hlater⟩ := parses_bind.mp hparse
      obtain ⟨rfl, rfl⟩ := hfirst.unique hfirst'
      exact ih ⟨x, rest, hlater⟩
  | inside hregion _ ih =>
      obtain ⟨x, rest, hparse⟩ := hparse
      obtain ⟨content, left, y, hregion', hinner, -⟩ := parses_region.mp hparse
      obtain ⟨rfl, -⟩ : _ = content ∧ _ = left := by simpa [hregion] using hregion'
      exact ih ⟨y, [], hinner⟩

end Program

/-- Where the loop over fields is: the tag and the state before the next field,
and the bytes that are left. -/
structure Position (σ : Type) where
  last : Nat
  lastTag : Option Nat
  state : σ
  rest : Bytes

/-- The loop reads some fields. -/
inductive Reading {σ : Type} (decode : Nat → WireType → Bool → σ → Program σ) :
    Position σ → List Record → Position σ → Prop
  | nil {pos : Position σ} : Reading decode pos [] pos
  | cons {last tag : Nat} {lastTag : Option Nat} {wireType : WireType} {s s' : σ}
      {payload rest : Bytes} {records : List Record} {pos : Position σ} (hle : last ≤ tag)
      (htag : tag < 2 ^ 32)
      (hfield : (decode tag wireType (lastTag == some tag) s).Parses (payload ++ rest) s' rest)
      (hmore : Reading decode ⟨tag, some tag, s', rest⟩ records pos) :
      Reading decode ⟨last, lastTag, s, keyBytes (tag - last) wireType ++ (payload ++ rest)⟩
        (⟨tag, wireType, payload⟩ :: records) pos

section
variable {σ : Type} {decode : Nat → WireType → Bool → σ → Program σ} {pos pos' : Position σ}
  {records : List Record}

theorem Reading.rest_eq (h : Reading decode pos records pos') :
    pos.rest = wireRecords pos.last records ++ pos'.rest := by
  induction h with
  | nil => rfl
  | @cons last tag _ wireType _ _ payload rest records pos _ _ _ _ ih =>
      have hrest : rest = wireRecords tag records ++ pos.rest := ih
      simp [wireRecords, ← hrest]

theorem Reading.ascending (h : Reading decode pos records pos') : Ascending pos.last records := by
  induction h with
  | nil => trivial
  | cons hle _ _ _ ih => exact ⟨hle, ih⟩

theorem Reading.trans {records' : List Record} {pos'' : Position σ}
    (h : Reading decode pos records pos') (h' : Reading decode pos' records' pos'') :
    Reading decode pos (records ++ records') pos'' := by
  induction h with
  | nil => exact h'
  | cons hle htag hfield _ ih => exact .cons hle htag hfield (ih h')

/-- Fields are decoded alike from no more bytes than there are. -/
theorem Reading.imp {decode' : Nat → WireType → Bool → σ → Program σ} {n : Nat}
    (hdecode : ∀ tag wireType dup s bytes x rest, bytes.length ≤ n →
      (decode tag wireType dup s).Parses bytes x rest →
        (decode' tag wireType dup s).Parses bytes x rest)
    (h : Reading decode pos records pos') (hn : pos.rest.length ≤ n) :
    Reading decode' pos records pos' := by
  induction h with
  | nil => exact .nil
  | cons hle htag hfield _ ih =>
      simp only [List.length_append] at hn ih
      refine .cons hle htag (hdecode _ _ _ _ _ _ _ ?_ hfield) (ih (by omega))
      rw [List.length_append]
      omega

/-- Some of the fields, and then the others. -/
theorem Reading.split {records' : List Record}
    (h : Reading decode pos (records ++ records') pos') :
    ∃ mid, Reading decode pos records mid ∧ Reading decode mid records' pos' := by
  induction records generalizing pos with
  | nil => exact ⟨pos, .nil, h⟩
  | cons r records ih =>
      cases h with
      | cons hle htag hfield hmore =>
          obtain ⟨mid, hfirst, hlater⟩ := ih hmore
          exact ⟨mid, .cons hle htag hfield hfirst, hlater⟩

/-- A key is read in one way only. -/
theorem keyBytes_append_inj {last tag tag' : Nat} {wireType wireType' : WireType}
    {rest rest' : Bytes} (hle : last ≤ tag) (htag : tag < 2 ^ 32) (hle' : last ≤ tag')
    (htag' : tag' < 2 ^ 32)
    (heq : keyBytes (tag - last) wireType ++ rest = keyBytes (tag' - last) wireType' ++ rest') :
    tag = tag' ∧ wireType = wireType' ∧ rest = rest' := by
  have hparse := TagReader.parse_decodeKey hle htag wireType rest
  rw [heq, TagReader.parse_decodeKey hle' htag' wireType' rest'] at hparse
  simp only [Except.ok.injEq, Parsed.mk.injEq, Prod.mk.injEq] at hparse
  exact ⟨hparse.1.1.1.symm, hparse.1.1.2.symm, hparse.2.2.symm⟩

/-- What is read to the end goes through all that is read of it. -/
theorem Reading.exists_append {records' : List Record} {last : Position σ}
    (h : Reading decode pos records pos') (h' : Reading decode pos records' last)
    (hend : last.rest = []) :
    ∃ more, records' = records ++ more ∧ Reading decode pos' more last := by
  induction h generalizing records' with
  | nil => exact ⟨records', rfl, h'⟩
  | @cons first tag lastTag wireType s s' payload rest records pos hle htag hfield _ ih =>
      generalize hpos : (⟨first, lastTag, s, keyBytes (tag - first) wireType ++ (payload ++ rest)⟩ :
        Position σ) = start at h'
      cases h' with
      | nil =>
          subst hpos
          exact absurd (List.append_eq_nil_iff.mp hend).1 (keyBytes_ne_nil _ _)
      | cons hle' htag' hfield' hmore' =>
          simp only [Position.mk.injEq] at hpos
          obtain ⟨rfl, rfl, rfl, hbytes⟩ := hpos
          obtain ⟨rfl, rfl, hpayload⟩ := keyBytes_append_inj hle htag hle' htag' hbytes
          rw [← hpayload] at hfield'
          obtain ⟨rfl, rfl⟩ := hfield.unique hfield'
          obtain rfl := List.append_cancel_right hpayload
          obtain ⟨more, rfl, hmore⟩ := ih hmore'
          exact ⟨more, rfl, hmore⟩

/-- The loop returns what it has at the end of the bytes. -/
theorem parses_fieldsFrom_iff (h : ∀ tag wireType dup s, (decode tag wireType dup s).Regular)
    {last : Nat} {lastTag : Option Nat} {s s' : σ} {bytes rest : Bytes} :
    (fieldsFrom decode last lastTag s).Parses bytes s' rest ↔ rest = [] ∧
      ∃ records last' lastTag',
        Reading decode ⟨last, lastTag, s, bytes⟩ records ⟨last', lastTag', s', []⟩ := by
  constructor
  · rintro ⟨lowest, hparse⟩
    obtain ⟨rfl, hrun⟩ := (parse_fieldsFrom_iff h).mp hparse
    refine ⟨rfl, ?_⟩
    clear hparse
    induction hrun with
    | nil => exact ⟨[], _, _, .nil⟩
    | cons hle htag hfield _ ih =>
        obtain ⟨records, last', lastTag', hreading⟩ := ih
        have hparses : (decode _ _ _ _).Parses _ _ _ := ⟨_, hfield⟩
        obtain ⟨payload, rfl⟩ := hparses.suffix
        exact ⟨_, last', lastTag', .cons hle htag hparses hreading⟩
  · rintro ⟨rfl, records, last', lastTag', hreading⟩
    generalize hpos : (⟨last, lastTag, s, bytes⟩ : Position σ) = pos at hreading
    generalize hend : (⟨last', lastTag', s', []⟩ : Position σ) = pos' at hreading
    induction hreading generalizing last lastTag s bytes with
    | nil =>
        subst hend
        obtain ⟨rfl, rfl, rfl, rfl⟩ : last = last' ∧ lastTag = lastTag' ∧ s = s' ∧ bytes = [] := by
          simpa using hpos
        exact ⟨_, parse_fieldsFrom_nil _ _ _⟩
    | cons hle htag hfield _ ih =>
        simp only [Position.mk.injEq] at hpos
        obtain ⟨rfl, rfl, rfl, rfl⟩ := hpos
        obtain ⟨lowest', hmore⟩ := ih rfl hend
        obtain ⟨lowest, hfield⟩ := hfield
        refine ⟨lowest.update lowest', ?_⟩
        rw [parse_fieldsFrom_cons h hle htag, hfield]
        simp only [hmore]
        rfl

end

end Bilrost
