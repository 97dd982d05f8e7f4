import Bilrost.Wire.Varint

/-!
Field keys. A key is a varint holding the distance of a tag from the previous
one and, in the two low bits, the wire type. The forward writer remembers the
last tag, the backward writer the key it still owes to the field it prepended
last, and the measurers count the bytes of keys without writing them. All three
panic when tags come in the wrong order; a panic is `none` here.

`wireRecords` is what they are all meant to agree on: the encoding of a list of
tagged values.
-/

namespace Bilrost

/-- The number a key is written as. -/
def keyValue (tagDelta : Nat) (wireType : WireType) : Nat := (tagDelta <<< 2) ||| wireType.toU64

theorem keyValue_eq (tagDelta : Nat) (wireType : WireType) :
    keyValue tagDelta wireType = 4 * tagDelta + wireType.toU64 := by
  rw [keyValue, Nat.shiftLeft_eq, Nat.mul_comm]
  exact (Nat.two_pow_add_eq_or_of_lt (i := 2) wireType.toU64_lt tagDelta).symm

/-- `TagWriter`. -/
structure TagWriter where
  lastTag : Nat
  deriving DecidableEq

namespace TagWriter

def new : TagWriter := ⟨0⟩

/-- `encode_key`: the bytes of the key and the writer after it. -/
def encodeKey (tw : TagWriter) (tag : Nat) (wireType : WireType) : Option (Bytes × TagWriter) :=
  if tag < tw.lastTag then none
  else some (encodeVarint (keyValue (tag - tw.lastTag) wireType), ⟨tag⟩)

end TagWriter

/-- `TagRevWriter`. -/
structure TagRevWriter where
  currentKey : Option (Nat × WireType)
  deriving DecidableEq

namespace TagRevWriter

def new : TagRevWriter := ⟨none⟩

/-- `begin_field`: writes the key of the field prepended before, now that the
tag below it is known. -/
def beginField (tw : TagRevWriter) (tag : Nat) (wireType : WireType) (buf : Bytes) :
    Option (Bytes × TagRevWriter) :=
  match tw.currentKey with
  | some (currentTag, currentWireType) =>
      if currentTag < tag then none
      else
        some (prependVarint (keyValue (currentTag - tag) currentWireType) buf,
          ⟨some (tag, wireType)⟩)
  | none => some (buf, ⟨some (tag, wireType)⟩)

/-- `finalize`: writes the key of the first field of the message. -/
def finalize (tw : TagRevWriter) (buf : Bytes) : Bytes :=
  match tw.currentKey with
  | none => buf
  | some (tagDelta, wireType) => prependVarint (keyValue tagDelta wireType) buf

end TagRevWriter

/-- The two implementations of `TagMeasurer`, with the state of the first. -/
inductive TagMeasurer where
  | runtime (lastTag : Nat)
  | trivial
  deriving DecidableEq

namespace TagMeasurer

/-- `key_len`. The checks of the trivial measurer are debug assertions. -/
def keyLen : TagMeasurer → Nat → Option (Nat × TagMeasurer)
  | runtime lastTag, tag =>
      if tag < lastTag then none
      else some (encodedLenVarint ((tag - lastTag) <<< 2), runtime tag)
  | trivial, _ => some (1, trivial)

end TagMeasurer

/-- A value on the wire with its tag. -/
structure Record where
  tag : Nat
  wireType : WireType
  payload : Bytes
  deriving DecidableEq

/-- The bytes of a key that is `tagDelta` after the previous one. -/
def keyBytes (tagDelta : Nat) (wireType : WireType) : Bytes :=
  varint (4 * tagDelta + wireType.toU64)

/-- The encoding of a list of records that follows a field tagged `last`. -/
def wireRecords (last : Nat) : List Record → Bytes
  | [] => []
  | r :: rs => keyBytes (r.tag - last) r.wireType ++ r.payload ++ wireRecords r.tag rs

/-- The tag that a writer remembers after some records. -/
def lastTagOf (last : Nat) (records : List Record) : Nat :=
  (records.getLast?.map Record.tag).getD last

@[simp] theorem lastTagOf_nil (last : Nat) : lastTagOf last [] = last := rfl

theorem lastTagOf_cons (last : Nat) (r : Record) (rs : List Record) :
    lastTagOf last (r :: rs) = lastTagOf r.tag rs := by
  cases rs with
  | nil => rfl
  | cons r' rs =>
    rw [lastTagOf, lastTagOf, List.getLast?_cons_cons, List.getLast?_eq_some_getLast (by simp)]
    rfl

theorem wireRecords_append (last : Nat) (rs₁ rs₂ : List Record) :
    wireRecords last (rs₁ ++ rs₂) =
      wireRecords last rs₁ ++ wireRecords (lastTagOf last rs₁) rs₂ := by
  induction rs₁ generalizing last with
  | nil => rfl
  | cons r rs ih =>
    rw [List.cons_append, wireRecords, wireRecords, ih, lastTagOf_cons]
    simp only [List.append_assoc]

/-- The tags of records never go down, starting from `last`. -/
def Ascending (last : Nat) : List Record → Prop
  | [] => True
  | r :: rs => last ≤ r.tag ∧ Ascending r.tag rs

theorem Ascending.append {last : Nat} {rs₁ rs₂ : List Record} (h₁ : Ascending last rs₁)
    (h₂ : Ascending (lastTagOf last rs₁) rs₂) : Ascending last (rs₁ ++ rs₂) := by
  induction rs₁ generalizing last with
  | nil => exact h₂
  | cons r rs ih =>
    rw [lastTagOf_cons] at h₂
    exact ⟨h₁.1, ih h₁.2 h₂⟩

@[simp] theorem encodeKey_of_le {last tag : Nat} (h : last ≤ tag) (wireType : WireType) :
    TagWriter.encodeKey ⟨last⟩ tag wireType =
      some (keyBytes (tag - last) wireType, ⟨tag⟩) := by
  rw [TagWriter.encodeKey, if_neg (Nat.not_lt.mpr h), encodeVarint_eq, keyValue_eq, keyBytes]

theorem four_dvd_varintLimit {n : Nat} (h : n ≤ 8) : 4 ∣ varintLimit n := by
  interval_cases n <;> decide

/-- The bytes of a key without its wire type are as many as with it, because
every limit of the varint format is a multiple of four. -/
theorem keyBytes_length (tagDelta : Nat) (wireType : WireType) :
    (keyBytes tagDelta wireType).length = (varint (4 * tagDelta)).length := by
  have same (n : Nat) (h : n ≤ 8) : (keyBytes tagDelta wireType).length ≤ n ↔
      (varint (4 * tagDelta)).length ≤ n := by
    have hlt := wireType.toU64_lt
    obtain ⟨m, hm⟩ := four_dvd_varintLimit h
    rw [keyBytes, varint_length_le_iff _ h, varint_length_le_iff _ h, hm]
    omega
  have h₁ := varint_length_le (4 * tagDelta + wireType.toU64)
  have h₂ := varint_length_le (4 * tagDelta)
  by_contra hne
  rcases Nat.lt_or_gt_of_ne hne with hlt | hgt
  · have := (same (keyBytes tagDelta wireType).length (by omega)).mp le_rfl
    omega
  · have := (same (varint (4 * tagDelta)).length (by rw [keyBytes] at hgt; omega)).mpr le_rfl
    omega

theorem keyLen_runtime_of_le {last tag : Nat} (h : last ≤ tag) (wireType : WireType) :
    TagMeasurer.keyLen (.runtime last) tag =
      some ((keyBytes (tag - last) wireType).length, .runtime tag) := by
  rw [TagMeasurer.keyLen, if_neg (Nat.not_lt.mpr h), encodedLenVarint_eq, keyBytes_length,
    Nat.shiftLeft_eq, Nat.mul_comm]

/-- A repeated field costs one byte of key. -/
theorem keyBytes_zero (wireType : WireType) :
    keyBytes 0 wireType = [UInt8.ofNat wireType.toU64] := by
  have := wireType.toU64_lt
  rw [keyBytes, Nat.mul_zero, Nat.zero_add, varint_of_lt (by omega)]

theorem keyBytes_length_of_lt {tagDelta : Nat} (h : tagDelta < 32) (wireType : WireType) :
    (keyBytes tagDelta wireType).length = 1 := by
  have := wireType.toU64_lt
  rw [keyBytes, varint_of_lt (by omega), List.length_singleton]

/-- What a backward writer has produced: the payload of the first record and
everything after it, with the key of the first record still to come. -/
def RevWritten (records : List Record) (base buf : Bytes) (tw : TagRevWriter) : Prop :=
  match records with
  | [] => buf = base ∧ tw.currentKey = none
  | r :: rs => buf = r.payload ++ wireRecords r.tag rs ++ base ∧
      tw.currentKey = some (r.tag, r.wireType)

/-- One more record in front, when its tag is not above the first one's. -/
theorem RevWritten.beginField {records : List Record} {base buf : Bytes} {tw : TagRevWriter}
    (h : RevWritten records base buf tw) {tag : Nat} (wireType : WireType)
    (hle : ∀ r ∈ records.head?, tag ≤ r.tag) (payload : Bytes) :
    ∃ buf' tw', tw.beginField tag wireType buf = some (buf', tw') ∧
      RevWritten (⟨tag, wireType, payload⟩ :: records) base (payload ++ buf') tw' := by
  cases records with
  | nil =>
    obtain ⟨rfl, hkey⟩ := h
    refine ⟨buf, ⟨some (tag, wireType)⟩, by rw [TagRevWriter.beginField, hkey], ?_⟩
    simp [RevWritten, wireRecords]
  | cons r rs =>
    obtain ⟨rfl, hkey⟩ := h
    have hle : tag ≤ r.tag := hle r rfl
    refine ⟨_, ⟨some (tag, wireType)⟩, by
      rw [TagRevWriter.beginField, hkey]
      exact if_neg (Nat.not_lt.mpr hle), ?_⟩
    simp [RevWritten, wireRecords, keyValue_eq, keyBytes]

/-- Writing the last key completes the records. -/
theorem RevWritten.finalize {records : List Record} {base buf : Bytes} {tw : TagRevWriter}
    (h : RevWritten records base buf tw) :
    tw.finalize buf = wireRecords 0 records ++ base := by
  cases records with
  | nil =>
    obtain ⟨rfl, hkey⟩ := h
    simp [TagRevWriter.finalize, hkey, wireRecords]
  | cons r rs =>
    obtain ⟨rfl, hkey⟩ := h
    simp [TagRevWriter.finalize, hkey, wireRecords, keyValue_eq, keyBytes]

/-- Records whose tags are in order one by one. -/
theorem ascending_of_pairwise {records : List Record} {last : Nat}
    (hlast : ∀ r ∈ records, last ≤ r.tag)
    (h : records.Pairwise fun r r' => r.tag ≤ r'.tag) : Ascending last records := by
  induction records generalizing last with
  | nil => trivial
  | cons r rs ih =>
    obtain ⟨hr, hrs⟩ := List.pairwise_cons.mp h
    exact ⟨hlast r (by simp), ih hr hrs⟩

/-- Writes records one after the other: each key, then its value. -/
def TagWriter.encodeRecords (tw : TagWriter) : List Record → Option (Bytes × TagWriter)
  | [] => some ([], tw)
  | r :: rs => do
      let (key, tw) ← tw.encodeKey r.tag r.wireType
      let (rest, tw) ← tw.encodeRecords rs
      some (key ++ r.payload ++ rest, tw)

/-- Prepends records one after the other, the last one of the message first. -/
def TagRevWriter.prependRecords (tw : TagRevWriter) (buf : Bytes) :
    List Record → Option (Bytes × TagRevWriter)
  | [] => some (buf, tw)
  | r :: rs => do
      let (buf, tw) ← tw.beginField r.tag r.wireType buf
      tw.prependRecords (r.payload ++ buf) rs

/-- Measures the keys of records, and adds the lengths of their values. -/
def TagMeasurer.recordsLen (tm : TagMeasurer) : List Record → Option (Nat × TagMeasurer)
  | [] => some (0, tm)
  | r :: rs => do
      let (keyLen, tm) ← tm.keyLen r.tag
      let (rest, tm) ← tm.recordsLen rs
      some (keyLen + r.payload.length + rest, tm)

theorem encodeRecords_of_ascending {last : Nat} {records : List Record}
    (h : Ascending last records) :
    TagWriter.encodeRecords ⟨last⟩ records =
      some (wireRecords last records, ⟨lastTagOf last records⟩) := by
  induction records generalizing last with
  | nil => rfl
  | cons r rs ih =>
    simp [TagWriter.encodeRecords, encodeKey_of_le h.1, ih h.2, wireRecords, lastTagOf_cons]

theorem recordsLen_of_ascending {last : Nat} {records : List Record}
    (h : Ascending last records) :
    TagMeasurer.recordsLen (.runtime last) records =
      some ((wireRecords last records).length, .runtime (lastTagOf last records)) := by
  induction records generalizing last with
  | nil => rfl
  | cons r rs ih =>
    simp [TagMeasurer.recordsLen, keyLen_runtime_of_le h.1 r.wireType, ih h.2, wireRecords,
      lastTagOf_cons, Nat.add_assoc]

/-- Prepending records that are in order, from the last to the first. -/
theorem RevWritten.prependRecords {records : List Record} {base buf : Bytes}
    {tw : TagRevWriter} (before : List Record) (h : RevWritten records base buf tw)
    (hasc : (before ++ records).Pairwise fun r r' => r.tag ≤ r'.tag) :
    ∃ buf' tw', tw.prependRecords buf before.reverse = some (buf', tw') ∧
      RevWritten (before ++ records) base buf' tw' := by
  induction before using List.reverseRecOn generalizing records buf tw with
  | nil => exact ⟨buf, tw, rfl, h⟩
  | append_singleton before r ih =>
    rw [List.append_assoc] at hasc
    have hhead : ∀ r' ∈ records.head?, r.tag ≤ r'.tag := fun r' hr' =>
      (List.pairwise_cons.mp (List.pairwise_append.mp hasc).2.1).1 r' (List.mem_of_mem_head? hr')
    obtain ⟨buf₁, tw₁, hbegin, h₁⟩ := h.beginField r.wireType hhead r.payload
    obtain ⟨buf', tw', hrun, h'⟩ := ih h₁ hasc
    refine ⟨buf', tw', ?_, by simpa using h'⟩
    simp [TagRevWriter.prependRecords, hbegin, hrun]

end Bilrost
