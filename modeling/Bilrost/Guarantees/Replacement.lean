import Bilrost.Codec.Streams
import Bilrost.Guarantees.Agreement
import Bilrost.Guarantees.Restricted
import Bilrost.Schema.MessageLocks
import Bilrost.Schema.Structural

/-!
The calls that decode into a message that is already there. The message is
cleared before its fields are decoded and after an error, but not before its
length delimiter is read.
-/

namespace Bilrost

open Program

namespace MessageCodec

variable {M : Type} {codec : MessageCodec M}

/-- What is left of a message that is replaced: after a success what a message
of its own would have been decoded as, and nothing after an error. Ignored
fields are not decoded, and they only count where the message had nothing in
them that clearing it would keep. -/
def Replaces {α : Type} (codec : MessageCodec M) (self : M) (fresh : Except Stop (M × α))
    (outcome : M × Except Stop α) : Prop :=
  match outcome.2 with
  | .ok result => ∃ m, fresh = .ok (m, result) ∧ codec.same false outcome.1 m ∧
      (codec.clear self = codec.empty → outcome.1 = m)
  | .error _ => codec.isEmpty outcome.1 = true

/-- The calls that replace a message, each with the call that decodes a message
of its own from the same bytes. `delimiter` is what the length delimiter is read
from, in those calls that read one. -/
inductive Replacement (codec : MessageCodec M) (self residue : M) : {α : Type} →
    (delimiter : Option Bytes) → Except Stop (M × α) → M × Except Stop α → Prop
  | «from» {β : Type} [Buf β] (buf : β) :
      Replacement codec self residue none ((codec.decode buf).map fun m => (m, ()))
        (codec.replaceFrom self residue buf)
  | fromLengthDelimited {β : Type} [Buf β] (buf : β) :
      Replacement codec self residue (some (Buf.bytes buf))
        ((codec.decodeLengthDelimited buf).map fun m => (m, ()))
        (codec.replaceFromLengthDelimited self residue buf)
  | restrictedFrom {β : Type} [Buf β] (buf : β) (restrictTo : Canonicity) :
      Replacement codec self residue none (codec.decodeRestricted buf restrictTo)
        (codec.replaceRestrictedFrom self residue buf restrictTo)
  | restrictedFromLengthDelimited {β : Type} [Buf β] (buf : β) (restrictTo : Canonicity) :
      Replacement codec self residue (some (Buf.bytes buf))
        (codec.decodeRestrictedLengthDelimited buf restrictTo)
        (codec.replaceRestrictedFromLengthDelimited self residue buf restrictTo)
  | distinguishedFrom {β : Type} [Buf β] (buf : β) :
      Replacement codec self residue none (codec.decodeDistinguished buf)
        (codec.replaceDistinguishedFrom self residue buf)
  | distinguishedFromLengthDelimited {β : Type} [Buf β] (buf : β) :
      Replacement codec self residue (some (Buf.bytes buf))
        (codec.decodeDistinguishedLengthDelimited buf)
        (codec.replaceDistinguishedFromLengthDelimited self residue buf)
  | canonicalFrom {β : Type} [Buf β] (buf : β) :
      Replacement codec self residue none ((codec.decodeCanonical buf).map fun m => (m, ()))
        (codec.replaceCanonicalFrom self residue buf)
  | canonicalFromLengthDelimited {β : Type} [Buf β] (buf : β) :
      Replacement codec self residue (some (Buf.bytes buf))
        ((codec.decodeCanonicalLengthDelimited buf).map fun m => (m, ()))
        (codec.replaceCanonicalFromLengthDelimited self residue buf)
  | borrowedFrom (buf : Bytes) :
      Replacement codec self residue none ((codec.decodeBorrowed buf).map fun m => (m, ()))
        (codec.replaceBorrowedFrom self residue buf)
  | borrowedFromLengthDelimited (buf : Bytes) :
      Replacement codec self residue (some buf)
        ((codec.decodeBorrowedLengthDelimited buf).map fun m => (m, ()))
        (codec.replaceBorrowedFromLengthDelimited self residue buf)
  | restrictedBorrowedFrom (buf : Bytes) (restrictTo : Canonicity) :
      Replacement codec self residue none (codec.decodeRestrictedBorrowed buf restrictTo)
        (codec.replaceRestrictedBorrowedFrom self residue buf restrictTo)
  | restrictedBorrowedFromLengthDelimited (buf : Bytes) (restrictTo : Canonicity) :
      Replacement codec self residue (some buf)
        (codec.decodeRestrictedBorrowedLengthDelimited buf restrictTo)
        (codec.replaceRestrictedBorrowedFromLengthDelimited self residue buf restrictTo)
  | distinguishedBorrowedFrom (buf : Bytes) :
      Replacement codec self residue none (codec.decodeDistinguishedBorrowed buf)
        (codec.replaceDistinguishedBorrowedFrom self residue buf)
  | distinguishedBorrowedFromLengthDelimited (buf : Bytes) :
      Replacement codec self residue (some buf)
        (codec.decodeDistinguishedBorrowedLengthDelimited buf)
        (codec.replaceDistinguishedBorrowedFromLengthDelimited self residue buf)
  | canonicalBorrowedFrom (buf : Bytes) :
      Replacement codec self residue none ((codec.decodeCanonicalBorrowed buf).map fun m => (m, ()))
        (codec.replaceCanonicalBorrowedFrom self residue buf)
  | canonicalBorrowedFromLengthDelimited (buf : Bytes) :
      Replacement codec self residue (some buf)
        ((codec.decodeCanonicalBorrowedLengthDelimited buf).map fun m => (m, ()))
        (codec.replaceCanonicalBorrowedFromLengthDelimited self residue buf)

theorem Replaces.forget {self : M} {α : Type} {fresh : Except Stop (M × α)}
    {outcome : M × Except Stop α} (h : codec.Replaces self fresh outcome) :
    codec.Replaces self ((fresh.map Prod.fst).map fun m => (m, ()))
      (outcome.1, outcome.2.map fun _ => ()) := by
  obtain ⟨after, result⟩ := outcome
  cases result with
  | ok result =>
    obtain ⟨m, rfl, hsame, hequal⟩ := h
    exact ⟨m, rfl, hsame, hequal⟩
  | error stop => exact h

/-- What a call that reads a delimiter first leaves. -/
structure ReplacesBehind (codec : MessageCodec M) (before : M) {α : Type} (delimiter : Bytes)
    (fresh : Except Stop (M × α)) (outcome : M × Except Stop α) : Prop where
  read : (parseDelimited delimiter).isSome → codec.Replaces before fresh outcome
  unread : ¬ (parseDelimited delimiter).isSome → ∃ stop, outcome = (before, .error stop)

theorem Replaces.iff_whole {self : M} {α : Type} {fresh : Except Stop (M × α)}
    {outcome : M × Except Stop α} (h : codec.Replaces self fresh outcome) :
    codec.Replaces self fresh outcome ↔
      ∀ bytes ∈ (none : Option Bytes),
        (parseDelimited bytes).isSome ∨ codec.isEmpty self = true :=
  iff_of_true h (by simp)

/-- Merges into messages that are the same return the same. -/
theorem Locks.result_mergeBy (h : codec.Locks) {β : Type} [Buf β] (way : Way)
    (mode : DecodingMode) {b : Bool} {m m' : M} (hm : codec.same b m m') {capped : Capped β}
    {x : M × Canonicity}
    (hx : (codec.mergeBy way mode recursionLimit m).result .notCanonical capped = .ok x) :
    ∃ y, (codec.mergeBy way mode recursionLimit m').result .notCanonical capped = .ok y ∧
      codec.same b x.1 y.1 ∧ x.2 = y.2 := by
  have hlock : Lock (recursionLimit < recursionLimit) _
      (codec.mergeBy way mode recursionLimit m) (codec.mergeBy way mode recursionLimit m') :=
    h.mergeBy (.modes_of way mode mode recursionLimit) b hm
  have hslice (m : M) := faulted_result_slice .notCanonical
    (codec.mergeBy way mode recursionLimit m) capped
  have hx' : (codec.mergeBy way mode recursionLimit m).result .notCanonical capped.slice =
      .ok x := by
    rw [← faulted_eq_ok, hslice, hx, faulted_ok]
  have hlimit : (codec.mergeBy way mode recursionLimit m).result .notCanonical capped.slice ≠
      .error limitError := by
    rw [hx']
    rintro ⟨⟩
  have hresult := (hlock capped.slice).result hlimit
  rw [hx'] at hresult
  cases hy : (codec.mergeBy way mode recursionLimit m').result .notCanonical capped.slice with
  | error stop =>
    rw [hy] at hresult
    exact hresult.elim
  | ok y =>
    rw [hy] at hresult
    refine ⟨y, ?_, hresult.1, hresult.2 rfl⟩
    rw [← faulted_eq_ok, ← hslice, hy, faulted_ok]

end MessageCodec

section
variable {allowed : Features} {M : Type} {codec : MessageCodec M} {β : Type} [Buf β]

/-- Messages without ignored fields are cleared to the empty message. -/
theorem Built.clear_eq_empty (h : Built allowed (.message codec)) (hignored : ¬ allowed.ignored)
    (m : M) : codec.clear m = codec.empty :=
  h.discerns hignored false _ _ (h.locks.clear m)

/-- What a restricted merge returns is what an unrestricted one does, where that
is good enough. -/
theorem result_mergeDistinguished_iff (h : Built allowed (.message codec)) {capped : Capped β}
    (hover : ¬ capped.Over) (mode : DecodingMode) (m : M) (restrictTo : Canonicity)
    (x : M × Canonicity) :
    (codec.mergeBy .distinguished mode recursionLimit m).result restrictTo capped = .ok x ↔
      (codec.mergeBy .distinguished mode recursionLimit m).result .notCanonical capped = .ok x ∧
        restrictTo ≤ x.2 := by
  obtain ⟨region, after, hholds⟩ := Capped.exists_holds hover
  have hresult (minCanonicity : Canonicity) :
      (codec.mergeBy .distinguished mode recursionLimit m).result minCanonicity capped = .ok x ↔
        (codec.mergeDistinguished mode recursionLimit m).parse region = .ok ⟨x, x.2, []⟩ ∧
          minCanonicity ≤ x.2 := by
    rw [← run_mergeDistinguished_iff (.schema h) hholds mode recursionLimit m minCanonicity x.1 x.2,
      codec.mergeDistinguished_eq_mergeBy, Program.result]
    cases (codec.mergeBy .distinguished mode recursionLimit m).run minCanonicity capped with
    | error stop => simp [Except.map]
    | ok result => simp [Except.map, Prod.ext_iff]
  rw [hresult, hresult, and_assoc, and_iff_right (Canonicity.notCanonical_le _)]

theorem Built.isEmpty_clear (h : Built allowed (.message codec)) (m : M) :
    codec.isEmpty (codec.clear m) = true :=
  (h.locks.isEmpty (codec.clear m)).mpr (h.locks.clear m)

/-- The message is cleared, merged into, and cleared again after an error. -/
theorem replaces_fromCapped (h : Built allowed (.message codec)) (mode : DecodingMode)
    (self residue : M) (capped : Capped β) :
    codec.Replaces self ((codec.decodeCapped mode capped).map fun m => (m, ()))
      (codec.replaceFromCapped mode self residue capped) := by
  have hreplace : codec.replaceFromCapped mode self residue capped =
      match (codec.mergeBy .relaxed mode recursionLimit (codec.clear self)).result .notCanonical
        capped with
      | .ok x => (x.1, .ok ())
      | .error stop => (codec.clear residue, .error stop) := by
    rw [MessageCodec.replaceFromCapped, ← MessageCodec.asCanonical_merge, Program.result,
      asCanonical, run_bind]
    cases (codec.merge mode recursionLimit (codec.clear self)).run .notCanonical capped <;> rfl
  rw [hreplace, MessageCodec.decodeCapped_eq]
  cases hx : (codec.mergeBy .relaxed mode recursionLimit (codec.clear self)).result .notCanonical
      capped with
  | error stop => exact h.isEmpty_clear residue
  | ok x =>
    obtain ⟨y, hy, hsame, -⟩ := h.locks.result_mergeBy .relaxed mode (h.locks.clear self) hx
    refine ⟨y.1, by rw [hy]; rfl, hsame, fun hequal => ?_⟩
    rw [hequal, hy] at hx
    exact congrArg Prod.fst (Except.ok.inj hx).symm

/-- After a merge that was good enough there is nothing left to refuse. -/
theorem replaces_restrictedFromCapped (h : Built allowed (.message codec)) (mode : DecodingMode)
    (self residue : M) {capped : Capped β} (hover : ¬ capped.Over) (restrictTo : Canonicity) :
    codec.Replaces self (codec.decodeRestrictedCapped mode capped restrictTo)
      (codec.replaceRestrictedFromCapped mode self residue capped restrictTo) := by
  have hreplace : codec.replaceRestrictedFromCapped mode self residue capped restrictTo =
      match (codec.mergeBy .distinguished mode recursionLimit (codec.clear self)).result restrictTo
        capped with
      | .ok x => (x.1, (check restrictTo x.2).mapError .error)
      | .error stop => (codec.clear residue, .error stop) := by
    rw [MessageCodec.replaceRestrictedFromCapped, MessageCodec.mergeDistinguished_eq_mergeBy,
      Program.result]
    cases (codec.mergeBy .distinguished mode recursionLimit (codec.clear self)).run restrictTo
      capped <;> rfl
  rw [hreplace, MessageCodec.decodeRestrictedCapped_eq]
  cases hx : (codec.mergeBy .distinguished mode recursionLimit (codec.clear self)).result restrictTo
      capped with
  | error stop => exact h.isEmpty_clear residue
  | ok x =>
    obtain ⟨hx, hle⟩ := (result_mergeDistinguished_iff h hover mode _ restrictTo x).mp hx
    obtain ⟨y, hy, hsame, hcanon⟩ :=
      h.locks.result_mergeBy .distinguished mode (h.locks.clear self) hx
    have hchecked : check restrictTo x.2 = .ok x.2 := check_of_le hle
    have hfresh := (result_mergeDistinguished_iff h hover mode codec.empty restrictTo y).mpr
      ⟨hy, hcanon ▸ hle⟩
    simp only [MessageCodec.Replaces, hchecked, Except.mapError]
    refine ⟨y.1, ?_, hsame, fun hequal => ?_⟩
    · rw [hfresh, Except.bind, ← hcanon, hchecked]
      rfl
    · rw [hequal, hy] at hx
      exact congrArg Prod.fst (Except.ok.inj hx).symm

/-- Reading a length delimiter is splitting the bytes of the buffer, and what is
left is not over its cap. -/
theorem newLengthDelimited_spec (buf : β) :
    if (parseDelimited (Buf.bytes buf)).isSome then
      ∃ capped, Capped.newLengthDelimited buf = .ok capped ∧ ¬ capped.Over
    else ∃ kind, Capped.newLengthDelimited buf = .error kind := by
  have hbytes := newLengthDelimited_bytes buf
  cases hparse : parseDelimited (Buf.bytes buf) with
  | none =>
    rw [hparse] at hbytes
    exact hbytes
  | some parts =>
    rw [hparse] at hbytes
    obtain ⟨capped, hcapped, hholds⟩ := hbytes
    exact ⟨capped, hcapped, hholds.not_over⟩

theorem takeDelimited_spec (buf : Bytes) :
    if (parseDelimited buf).isSome then ∃ taken, MessageCodec.takeDelimited buf = .ok taken
    else ∃ stop, MessageCodec.takeDelimited buf = .error stop := by
  have hbytes := takeBorrowedLengthDelimited_bytes buf
  rw [MessageCodec.takeDelimited]
  cases hparse : parseDelimited buf with
  | none =>
    rw [hparse] at hbytes
    obtain ⟨kind, hkind⟩ := hbytes
    rw [hkind]
    exact ⟨_, rfl⟩
  | some parts =>
    rw [hparse] at hbytes
    rw [hbytes]
    exact ⟨_, rfl⟩

namespace MessageCodec.ReplacesBehind

variable {α : Type} {self residue : M} {delimiter : Bytes} {fresh : Except Stop (M × α)}
  {outcome : M × Except Stop α}

theorem forget (h : codec.ReplacesBehind self delimiter fresh outcome) :
    codec.ReplacesBehind self delimiter ((fresh.map Prod.fst).map fun m => (m, ()))
      (outcome.1, outcome.2.map fun _ => ()) where
  read hsome := (h.read hsome).forget
  unread hnone := by
    obtain ⟨stop, rfl⟩ := h.unread hnone
    exact ⟨stop, rfl⟩

theorem replaces_iff (h : codec.ReplacesBehind self delimiter fresh outcome) :
    codec.Replaces self fresh outcome ↔
      ∀ bytes ∈ some delimiter, (parseDelimited bytes).isSome ∨ codec.isEmpty self = true := by
  simp only [Option.mem_some_iff, forall_eq']
  by_cases hsome : (parseDelimited delimiter).isSome
  · exact iff_of_true (h.read hsome) (.inl hsome)
  · obtain ⟨stop, rfl⟩ := h.unread hsome
    simp [MessageCodec.Replaces, hsome]

theorem fromLengthDelimited (h : Built allowed (.message codec)) (buf : β) :
    codec.ReplacesBehind self (Buf.bytes buf)
      ((codec.decodeLengthDelimited buf).map fun m => (m, ()))
      (codec.replaceFromLengthDelimited self residue buf) where
  read hsome := by
    have hspec := newLengthDelimited_spec buf
    rw [if_pos hsome] at hspec
    obtain ⟨capped, hcapped, -⟩ := hspec
    rw [MessageCodec.decodeLengthDelimited, MessageCodec.replaceFromLengthDelimited, hcapped]
    exact replaces_fromCapped h .owned self residue capped
  unread hnone := by
    have hspec := newLengthDelimited_spec buf
    rw [if_neg hnone] at hspec
    obtain ⟨kind, hkind⟩ := hspec
    exact ⟨_, by rw [MessageCodec.replaceFromLengthDelimited, hkind]⟩

theorem restrictedFromLengthDelimited (h : Built allowed (.message codec)) (buf : β)
    (restrictTo : Canonicity) :
    codec.ReplacesBehind self (Buf.bytes buf)
      (codec.decodeRestrictedLengthDelimited buf restrictTo)
      (codec.replaceRestrictedFromLengthDelimited self residue buf restrictTo) where
  read hsome := by
    have hspec := newLengthDelimited_spec buf
    rw [if_pos hsome] at hspec
    obtain ⟨capped, hcapped, hover⟩ := hspec
    rw [MessageCodec.decodeRestrictedLengthDelimited,
      MessageCodec.replaceRestrictedFromLengthDelimited, hcapped]
    exact replaces_restrictedFromCapped h .owned self residue hover restrictTo
  unread hnone := by
    have hspec := newLengthDelimited_spec buf
    rw [if_neg hnone] at hspec
    obtain ⟨kind, hkind⟩ := hspec
    exact ⟨_, by rw [MessageCodec.replaceRestrictedFromLengthDelimited, hkind]⟩

theorem borrowedFromLengthDelimited (h : Built allowed (.message codec)) (buf : Bytes) :
    codec.ReplacesBehind self buf ((codec.decodeBorrowedLengthDelimited buf).map fun m => (m, ()))
      (codec.replaceBorrowedFromLengthDelimited self residue buf) where
  read hsome := by
    have hspec := takeDelimited_spec buf
    rw [if_pos hsome] at hspec
    obtain ⟨taken, htaken⟩ := hspec
    rw [MessageCodec.decodeBorrowedLengthDelimited,
      MessageCodec.replaceBorrowedFromLengthDelimited, htaken]
    exact replaces_fromCapped h .borrowed self residue (Capped.new taken)
  unread hnone := by
    have hspec := takeDelimited_spec buf
    rw [if_neg hnone] at hspec
    obtain ⟨stop, hstop⟩ := hspec
    exact ⟨stop, by rw [MessageCodec.replaceBorrowedFromLengthDelimited, hstop]⟩

theorem restrictedBorrowedFromLengthDelimited (h : Built allowed (.message codec)) (buf : Bytes)
    (restrictTo : Canonicity) :
    codec.ReplacesBehind self buf
      (codec.decodeRestrictedBorrowedLengthDelimited buf restrictTo)
      (codec.replaceRestrictedBorrowedFromLengthDelimited self residue buf restrictTo) where
  read hsome := by
    have hspec := takeDelimited_spec buf
    rw [if_pos hsome] at hspec
    obtain ⟨taken, htaken⟩ := hspec
    rw [MessageCodec.decodeRestrictedBorrowedLengthDelimited,
      MessageCodec.replaceRestrictedBorrowedFromLengthDelimited, htaken]
    exact replaces_restrictedFromCapped h .borrowed self residue (holds_new taken).not_over
      restrictTo
  unread hnone := by
    have hspec := takeDelimited_spec buf
    rw [if_neg hnone] at hspec
    obtain ⟨stop, hstop⟩ := hspec
    exact ⟨stop, by rw [MessageCodec.replaceRestrictedBorrowedFromLengthDelimited, hstop]⟩

end MessageCodec.ReplacesBehind

theorem replaces_restrictedFrom (h : Built allowed (.message codec)) (mode : DecodingMode)
    (self residue : M) (buf : β) (restrictTo : Canonicity) :
    codec.Replaces self (codec.decodeRestrictedCapped mode (Capped.new buf) restrictTo)
      (codec.replaceRestrictedFromCapped mode self residue (Capped.new buf) restrictTo) :=
  replaces_restrictedFromCapped h mode self residue (holds_new buf).not_over restrictTo

open MessageCodec in
/-- A call that replaces a message leaves nothing in it of what was there,
whatever it returns, exactly when it reads no delimiter, or one with no more
bytes than follow it, or when nothing was there. -/
theorem replacement_replaces_iff (h : Built allowed (.message codec)) (self residue : M) {α : Type}
    {delimiter : Option Bytes} {fresh : Except Stop (M × α)} {outcome : M × Except Stop α}
    (hcall : codec.Replacement self residue delimiter fresh outcome) :
    codec.Replaces self fresh outcome ↔
      ∀ bytes ∈ delimiter, (parseDelimited bytes).isSome ∨ codec.isEmpty self = true := by
  cases hcall with
  | «from» buf => exact (replaces_fromCapped h .owned self residue (Capped.new buf)).iff_whole
  | fromLengthDelimited buf =>
    exact (ReplacesBehind.fromLengthDelimited h buf).replaces_iff
  | restrictedFrom buf restrictTo =>
    exact (replaces_restrictedFrom h .owned self residue buf restrictTo).iff_whole
  | restrictedFromLengthDelimited buf restrictTo =>
    exact (ReplacesBehind.restrictedFromLengthDelimited h buf restrictTo).replaces_iff
  | distinguishedFrom buf =>
    exact (replaces_restrictedFrom h .owned self residue buf .notCanonical).iff_whole
  | distinguishedFromLengthDelimited buf =>
    exact (ReplacesBehind.restrictedFromLengthDelimited h buf .notCanonical).replaces_iff
  | canonicalFrom buf =>
    exact (replaces_restrictedFrom h .owned self residue buf .canonical).forget.iff_whole
  | canonicalFromLengthDelimited buf =>
    exact (ReplacesBehind.restrictedFromLengthDelimited h buf .canonical).forget.replaces_iff
  | borrowedFrom buf =>
    exact (replaces_fromCapped h .borrowed self residue (Capped.new buf)).iff_whole
  | borrowedFromLengthDelimited buf =>
    exact (ReplacesBehind.borrowedFromLengthDelimited h buf).replaces_iff
  | restrictedBorrowedFrom buf restrictTo =>
    exact (replaces_restrictedFrom h .borrowed self residue buf restrictTo).iff_whole
  | restrictedBorrowedFromLengthDelimited buf restrictTo =>
    exact (ReplacesBehind.restrictedBorrowedFromLengthDelimited h buf restrictTo).replaces_iff
  | distinguishedBorrowedFrom buf =>
    exact (replaces_restrictedFrom h .borrowed self residue buf .notCanonical).iff_whole
  | distinguishedBorrowedFromLengthDelimited buf =>
    exact (ReplacesBehind.restrictedBorrowedFromLengthDelimited h buf .notCanonical).replaces_iff
  | canonicalBorrowedFrom buf =>
    exact (replaces_restrictedFrom h .borrowed self residue buf .canonical).forget.iff_whole
  | canonicalBorrowedFromLengthDelimited buf =>
    exact (ReplacesBehind.restrictedBorrowedFromLengthDelimited h buf .canonical).forget
      |>.replaces_iff

theorem replacement_replaces_iff_u32 :
    (u32Field.derived 1).Replaces 7
        (((u32Field.derived 1).decodeLengthDelimited ([2, 4, 9] : Bytes)).map fun m => (m, ()))
        ((u32Field.derived 1).replaceFromLengthDelimited 7 0 ([2, 4, 9] : Bytes)) ↔
      ∀ bytes ∈ some [2, 4, 9],
        (parseDelimited bytes).isSome ∨ (u32Field.derived 1).isEmpty 7 = true :=
  have hbuilt : Built .all (.message (u32Field.derived 1)) :=
    .derived (by decide) (built_u32Field _)
  replacement_replaces_iff hbuilt 7 0 (.fromLengthDelimited ([2, 4, 9] : Bytes))

/-- Where there is not even a delimiter, the old message is still there. -/
theorem replaceFromLengthDelimited_keeps :
    (u32Field.derived 1).replaceFromLengthDelimited 7 0 ([] : Bytes) =
        (7, .error (.error .truncated)) ∧
      ¬ (u32Field.derived 1).Replaces 7
        (((u32Field.derived 1).decodeLengthDelimited ([] : Bytes)).map fun m => (m, ()))
        ((u32Field.derived 1).replaceFromLengthDelimited 7 0 ([] : Bytes)) := by
  have hkept : (u32Field.derived 1).replaceFromLengthDelimited 7 0 ([] : Bytes) =
      (7, .error (.error .truncated)) := rfl
  have hfull : (u32Field.derived 1).isEmpty 7 = false := rfl
  refine ⟨hkept, fun hreplaces => ?_⟩
  rw [hkept] at hreplaces
  exact Bool.false_ne_true (hfull.symm.trans hreplaces)

end

end Bilrost
