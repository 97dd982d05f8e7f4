import Bilrost.Guarantees.Agreement
import Bilrost.Guarantees.Bijection
import Bilrost.Schema.Rereads

/-!
What is decoded can be encoded and decoded again. It is what the fuzzing
harnesses of the repository look for: they decode whatever data they are given
and, where that succeeds, compare all that can be done with the message.
-/

namespace Bilrost

open Program

section
variable {M : Type} {codec : MessageCodec M} {m : M}

/-- A message that relaxed or distinguished decoding returns for a buffer. -/
def MessageCodec.Decoded (codec : MessageCodec M) {β : Type} [Buf β] (buf : β) (m : M) : Prop :=
  codec.decode buf = .ok m ∨ ∃ canon, codec.decodeDistinguished buf = .ok (m, canon)

theorem Structural.readsBack_of_decoded (h : Structural (.message codec)) {β : Type} [Buf β]
    {buf : β} (hdecoded : codec.Decoded buf m) (way : Way) (mode : DecodingMode) :
    codec.ReadsBack way mode recursionLimit m := by
  have hregular := h.built.regular
  have hrereads : codec.Rereads := h.rereads
  rcases hdecoded with hdecode | ⟨canon, hdecode⟩
  · have hparse : (codec.mergeBy .relaxed .owned recursionLimit codec.empty).Parses
        (Buf.bytes buf) (m, .canonical) [] := by
      apply hregular.decodeAs_eq_ok.mp
      rw [MessageCodec.decodeAs]
      change (codec.decode buf).map (fun value => (value, Canonicity.canonical)) = _
      rw [hdecode]
      rfl
    exact hrereads hparse way mode
  · have hparse : (codec.mergeBy .distinguished .owned recursionLimit codec.empty).Parses
        (Buf.bytes buf) (m, canon) [] := hregular.decodeAs_eq_ok.mp hdecode
    exact hrereads hparse way mode

/-- Whatever some bytes are decoded to, canonical or not, it is encoded as bytes
that every call decodes to the same message, and canonically. The limit on
nesting is never in the way then. -/
theorem decoded_again (h : Structural (.message codec)) {β : Type} [Buf β] {buf : β}
    (hdecoded : codec.Decoded buf m) :
    ∃ bytes, codec.encodeToVec m = some bytes ∧
      (bytes.length < 2 ^ 64 → codec.DecodesTo bytes m) := by
  obtain ⟨bytes, hencodes⟩ := h.encodesAs m
  refine ⟨bytes, hencodes.encodeToVec, fun hlt => ?_⟩
  exact h.built.decodesTo_of_readsBack not_false (h.readsBack_of_decoded hdecoded)
    hencodes.encodeToVec hlt

end

/-- A message in a field of another one. -/
def nestedNumber : FieldCodec (BitVec 32) :=
  (u32Field.derived 1).nested.plain
    { isEmpty := (u32Field.derived 1).isEmpty, clear := (u32Field.derived 1).clear }

theorem structural_nestedNumber : Structural (.message (nestedNumber.derived 1)) := by
  have hnumber : Structural (.message (u32Field.derived 1)) :=
    .derived (by decide) (.plain rfl (Scalar.empties_single _)
      (.scalar (.varint (VarintScalar.lawful_unsigned (by decide)))))
  apply Structural.derived (by decide)
  have hlocks := hnumber.built.locks
  exact .plain rfl ⟨hlocks.isEmpty, hlocks.clear⟩ (.nested hnumber)

theorem eq_zero_of_decoded_nestedNumber {m : BitVec 32}
    (h : (nestedNumber.derived 1).Decoded ([5, 2, 8, 7] : Bytes) m) : m = 0 := by
  have hdecode : (nestedNumber.derived 1).decode ([5, 2, 8, 7] : Bytes) = .ok 0 := by
    rfl
  have hdistinguished : (nestedNumber.derived 1).decodeDistinguished ([5, 2, 8, 7] : Bytes) =
      .ok (0, .hasExtensions) := by
    rfl
  rcases h with h | ⟨canon, h⟩
  · exact Except.ok.inj (h.symm.trans hdecode)
  · exact congrArg Prod.fst (Except.ok.inj (h.symm.trans hdistinguished))

theorem decoded_again_nestedNumber :
    (nestedNumber.derived 1).Decoded ([5, 2, 8, 7] : Bytes) 0 ∧
      ∃ bytes, (nestedNumber.derived 1).encodeToVec 0 = some bytes ∧
        (bytes.length < 2 ^ 64 → (nestedNumber.derived 1).DecodesTo bytes 0) := by
  have hdecoded : (nestedNumber.derived 1).Decoded ([5, 2, 8, 7] : Bytes) 0 := .inl rfl
  exact ⟨hdecoded, decoded_again structural_nestedNumber hdecoded⟩

end Bilrost
