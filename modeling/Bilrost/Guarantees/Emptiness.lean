import Bilrost.Schema.Emptiness
import Bilrost.Schema.Single
import Bilrost.Codec.OpaqueBijection

/-!
A message is empty exactly if nothing is written of it.
-/

namespace Bilrost

/-- A message without schema is empty if it has no fields. -/
theorem OpaqueMessage.shows : OpaqueMessage.codec.Shows := by
  have hiter (message : OpaqueMessage) :
      message.isEmpty = true ↔ wireRecords 0 (records message.iter) = [] := by
    constructor
    · intro hempty
      have hentries : message.fields.entries = [] := List.isEmpty_iff.mp hempty
      rw [iter_eq, hentries]
      rfl
    · intro hbytes
      cases hentries : message.fields.entries with
      | nil => exact List.isEmpty_iff.mpr hentries
      | cons field rest =>
          obtain ⟨value, hvalue⟩ := exists_mem_iter (hentries ▸ List.mem_cons_self : field ∈ _)
          cases hi : message.iter with
          | nil =>
              rw [hi] at hvalue
              cases hvalue
          | cons item items =>
              rw [hi] at hbytes
              have hkey := (List.append_eq_nil_iff.mp (List.append_eq_nil_iff.mp hbytes).1).1
              exact absurd hkey (varint_ne_nil _)
  constructor
  · rfl
  · exact fun _ => rfl
  · intro message
    rw [(encoders_agree message).2.2]
    exact (hiter message).trans (by simp)
  · intro message
    rw [(encoders_agree message).1]
    exact (hiter message).trans (by simp)

theorem MessageCodec.Shows.encodeToVec {M : Type} {codec : MessageCodec M} (h : codec.Shows)
    (m : M) : codec.isEmpty m = true ↔ codec.encodeToVec m = some [] := by
  constructor
  · intro hempty
    rw [MessageCodec.encodeToVec, encodedLen, (h.rawEncodedLen m).mp hempty]
    exact (h.rawEncode m).mp hempty
  · intro hbytes
    obtain ⟨len, -, hbytes⟩ := Option.bind_eq_some_iff.mp hbytes
    exact (h.rawEncode m).mpr hbytes

/-- Unless a schema has arrays of length zero, its empty messages are those that
have the length zero and those that are encoded as no bytes, `empty` and
whatever was cleared among them. The same goes for messages without schema. -/
theorem empty_iff_no_bytes {allowed : Features} (hallowed : ¬allowed.emptyArrays) {M : Type}
    {codec : MessageCodec M} (h : Built allowed (.message codec)) :
    (∀ m, (codec.isEmpty m = true ↔ codec.rawEncodedLen m = some 0) ∧
        (codec.isEmpty m = true ↔ codec.rawEncode m = some []) ∧
        (codec.isEmpty m = true ↔ codec.encodeToVec m = some [])) ∧
      codec.isEmpty codec.empty = true ∧ (∀ m, codec.isEmpty (codec.clear m) = true) ∧
      OpaqueMessage.codec.Shows := by
  have hshows : codec.Shows := h.shows hallowed
  refine ⟨fun m => ⟨hshows.rawEncodedLen m, hshows.rawEncode m, hshows.encodeToVec m⟩,
    hshows.empty, hshows.clear, OpaqueMessage.shows⟩

/-- A message with one field of type `u32`. -/
theorem empty_iff_no_bytes_u32 :
    (u32Field.derived 1).isEmpty (0 : BitVec 32) = true ∧
      (u32Field.derived 1).encodeToVec (0 : BitVec 32) = some [] ∧
      (u32Field.derived 1).encodeToVec (5 : BitVec 32) ≠ some [] := by
  have hbuilt : Built ⟨True, True, False, True⟩ (.message (u32Field.derived 1)) :=
    .derived (by decide) (built_u32Field _)
  obtain ⟨hiff, hempty, -⟩ := empty_iff_no_bytes (fun h => h) hbuilt
  refine ⟨hempty, (hiff _).2.2.mp hempty, fun hbytes => ?_⟩
  have hzero : (u32Field.derived 1).isEmpty (5 : BitVec 32) = true := (hiff _).2.2.mpr hbytes
  revert hzero
  decide

end Bilrost
