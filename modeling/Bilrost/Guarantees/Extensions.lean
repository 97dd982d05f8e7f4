import Bilrost.Guarantees.Rereading
import Bilrost.Guarantees.UnknownFields
import Bilrost.Schema.MessageStrips

/-!
What it means to have extensions. A message that is read with nothing worse than
these is read canonically from what remains of its bytes when all fields that are
not known are left out, at every depth of nesting. Where messages are known by
their encodings, that is what it is written as.
-/

namespace Bilrost

open Program

section
variable {M : Type} {codec : MessageCodec M} {m : M} {β : Type} [Buf β] {buf : β}
  {canon : Canonicity}

end

/-- What remains of the only field of a message, and of others behind it. -/
theorem Remains.derived {depth : Nat} {T : Type} {codec : FieldCodec T}
    {payloads payloads' : List Bytes} (tag : Nat) (wireType : WireType)
    (h : Remains depth (.field codec) payloads payloads') {unknown : List Record}
    (hunknown : ∀ r ∈ unknown, r.tag ≠ tag) :
    Remains depth (.message (codec.derived tag))
      (wireRecords 0 (payloads.map (Record.mk tag wireType) ++ unknown))
      (wireRecords 0 (payloads'.map (Record.mk tag wireType))) := by
  have hnone : ∀ r ∈ unknown, (Fields.single (codec.tagged tag)).fieldOf r.tag = none :=
    fun r hr => Fields.fieldOf_eq_none.mpr fun _ hmem => hunknown r hr (List.mem_singleton.mp hmem)
  let own : Stretch (Fields.single (codec.tagged tag)) :=
    ⟨some (0 : Fin 1), payloads.map (Record.mk tag wireType), payloads'.map (Record.mk tag wireType)⟩
  let others : Stretch (Fields.single (codec.tagged tag)) := ⟨none, unknown, []⟩
  have hknown : ∀ s ∈ [own, others], ∀ i, s.field = some i →
      Remains depth (.messageField (codec.tagged tag)) s.records s.remaining :=
    List.forall_mem_cons.mpr ⟨fun _ _ => h.tagged tag wireType,
      List.forall_mem_singleton.mpr fun _ hi => (by cases hi)⟩
  have hleft : ∀ s ∈ [own, others], s.field = none →
      s.remaining = [] ∧ ∀ r ∈ s.records, (Fields.single (codec.tagged tag)).fieldOf r.tag = none :=
    List.forall_mem_cons.mpr ⟨fun hi => (by cases hi),
      List.forall_mem_singleton.mpr fun _ => ⟨rfl, hnone⟩⟩
  have hremains := Remains.fields (w := (Fields.single (codec.tagged tag)).derived) _ hknown hleft
  rw [FieldCodec.derived]
  simpa [own, others] using hremains

end Bilrost
