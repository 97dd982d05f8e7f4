import Bilrost.Wire.Tags

/-!
Records one after the other. Writing, prepending and measuring some records and
then others is writing, prepending and measuring all of them.
-/

namespace Bilrost

theorem encodeRecords_append (tw : TagWriter) (rs₁ rs₂ : List Record) :
    tw.encodeRecords (rs₁ ++ rs₂) = (tw.encodeRecords rs₁).bind fun first =>
      (first.2.encodeRecords rs₂).map fun rest => (first.1 ++ rest.1, rest.2) := by
  induction rs₁ generalizing tw with
  | nil => simp [TagWriter.encodeRecords]
  | cons r rs ih =>
      simp only [List.cons_append, TagWriter.encodeRecords]
      cases tw.encodeKey r.tag r.wireType with
      | none => rfl
      | some key =>
          simp only [Option.bind_eq_bind, Option.bind_some, ih]
          cases key.2.encodeRecords rs with
          | none => rfl
          | some first =>
              simp only [Option.bind_some]
              cases first.2.encodeRecords rs₂ <;> simp

theorem prependRecords_append (tw : TagRevWriter) (buf : Bytes) (rs₁ rs₂ : List Record) :
    tw.prependRecords buf (rs₁ ++ rs₂) =
      (tw.prependRecords buf rs₁).bind fun first => first.2.prependRecords first.1 rs₂ := by
  induction rs₁ generalizing tw buf with
  | nil => rfl
  | cons r rs ih =>
      simp only [List.cons_append, TagRevWriter.prependRecords]
      cases tw.beginField r.tag r.wireType buf with
      | none => rfl
      | some begun => exact ih begun.2 _

theorem recordsLen_append (tm : TagMeasurer) (rs₁ rs₂ : List Record) :
    tm.recordsLen (rs₁ ++ rs₂) = (tm.recordsLen rs₁).bind fun first =>
      (first.2.recordsLen rs₂).map fun rest => (first.1 + rest.1, rest.2) := by
  induction rs₁ generalizing tm with
  | nil => simp [TagMeasurer.recordsLen]
  | cons r rs ih =>
      simp only [List.cons_append, TagMeasurer.recordsLen]
      cases tm.keyLen r.tag with
      | none => rfl
      | some key =>
          simp only [Option.bind_eq_bind, Option.bind_some, ih]
          cases key.2.recordsLen rs with
          | none => rfl
          | some first =>
              simp only [Option.bind_some]
              cases first.2.recordsLen rs₂ <;> simp [Nat.add_assoc]

/-- With small tags alone every key is one byte. -/
theorem recordsLen_trivial {last : Nat} {records : List Record} (h : Ascending last records)
    (hlt : ∀ r ∈ records, r.tag < 32) :
    TagMeasurer.trivial.recordsLen records =
      some ((wireRecords last records).length, .trivial) := by
  induction records generalizing last with
  | nil => rfl
  | cons r rs ih =>
      have htag := hlt r List.mem_cons_self
      have hkey : (keyBytes (r.tag - last) r.wireType).length = 1 :=
        keyBytes_length_of_lt (by omega) _
      have hrest := ih h.2 fun r' hr' => hlt r' (List.mem_cons_of_mem r hr')
      simp [TagMeasurer.recordsLen, TagMeasurer.keyLen, hrest, wireRecords, hkey, Nat.add_assoc]

/-- More records under the tag of the one before cost a byte each. -/
theorem recordsLen_repeated {tm tm' : TagMeasurer} {tag len : Nat} (wireType : WireType)
    (hkey : tm.keyLen tag = some (len, tm')) (payloads : List Bytes) :
    tm'.recordsLen (payloads.map (Record.mk tag wireType)) =
      some (payloads.flatten.length + payloads.length, tm') := by
  have hsame : tm'.keyLen tag = some (1, tm') := by
    cases tm with
    | trivial =>
        obtain ⟨-, rfl⟩ := Prod.ext_iff.mp (Option.some.inj hkey)
        rfl
    | runtime last =>
        rw [TagMeasurer.keyLen] at hkey
        split_ifs at hkey with hlt
        obtain ⟨-, rfl⟩ := Prod.ext_iff.mp (Option.some.inj hkey)
        rw [keyLen_runtime_of_le le_rfl wireType, Nat.sub_self, keyBytes_zero]
        rfl
  induction payloads with
  | nil => rfl
  | cons payload payloads ih =>
      simp only [List.map_cons, TagMeasurer.recordsLen, hsame, Option.bind_eq_bind,
        Option.bind_some, ih, List.flatten_cons, List.length_append, List.length_cons,
        Option.some.injEq, Prod.mk.injEq, and_true]
      omega

end Bilrost
