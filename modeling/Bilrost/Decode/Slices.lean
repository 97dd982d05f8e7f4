import Bilrost.Decode.Loops

/-!
Runs on buffers of any kind are runs on slices. What a program does depends on
the bytes that a buffer holds and not on how they are stored, beyond the cap
included, except that a varint may be found malformed in one way or the other.
-/

namespace Bilrost

/-- The same bytes under the same cap in one piece. -/
def Capped.slice {β : Type} [Buf β] (capped : Capped β) : Capped Bytes :=
  ⟨Buf.bytes capped.buf, capped.extraBytesRemaining⟩

/-- Two results with the same value and the same bytes left, or two errors that
are not told apart. -/
def SameOnSlice {β ε γ : Type} [Buf β] (kinds : ε → ε → Prop) :
    Except ε (γ × Capped β) → Except ε (γ × Capped Bytes) → Prop
  | .ok (x, capped), .ok (y, slice) => y = x ∧ slice = capped.slice
  | .error e, .error e' => kinds e e'
  | _, _ => False

/-- Two errors of reads, neither of which is about the depth of recursion. -/
def ReadErrors (e e' : DecodeErrorKind) : Prop :=
  e ≠ .recursionLimitReached ∧ e' ≠ .recursionLimitReached

namespace Capped

variable {β : Type} [Buf β] (capped : Capped β)

@[simp] theorem slice_new (buf : β) : (new buf).slice = new (Buf.bytes buf) := rfl

@[simp] theorem slice_remaining : capped.slice.remaining = capped.remaining :=
  (Buf.remaining_eq capped.buf).symm

@[simp] theorem slice_extra : capped.slice.extraBytesRemaining = capped.extraBytesRemaining := rfl

@[simp] theorem slice_remainingBeforeCap :
    capped.slice.remainingBeforeCap = capped.remainingBeforeCap := by
  rw [remainingBeforeCap, slice_remaining, slice_extra, remainingBeforeCap]

theorem slice_hasRemaining : capped.slice.hasRemaining = capped.hasRemaining := by
  rw [hasRemaining, slice_remaining, slice_extra, hasRemaining]

variable {capped}

theorem slice_advance {n : Nat} (h : n ≤ capped.remaining) :
    capped.slice.advance n = (capped.advance n).slice := by
  rw [remaining, Buf.remaining_eq] at h
  rw [slice, slice, advance, advance, Buf.bytes_advance _ _ h]
  rfl

theorem slice_copy {n : Nat} (h : n ≤ capped.remaining) :
    capped.slice.copy n = ((capped.copy n).1, (capped.copy n).2.slice) := by
  rw [remaining, Buf.remaining_eq] at h
  have hcopy := Buf.copyOut_spec _ h
  have hslice := Buf.copyOut_spec (Buf.bytes capped.buf) h
  refine Prod.ext (hslice.1.trans hcopy.1.symm) ?_
  rw [slice, copy, copy, slice]
  exact congrArg (Capped.mk · _) (hslice.2.trans hcopy.2.symm)

theorem parseVarint_error {bytes : Bytes} {e : DecodeErrorKind} (h : parseVarint bytes = .error e) :
    e ≠ .recursionLimitReached := by
  rw [parseVarint] at h
  split at h
  · obtain rfl := Except.error.inj h
    decide
  · split at h
    · cases h
    · obtain rfl := Except.error.inj h
      decide

/-- Reading a varint, told by the bytes of the buffer. -/
theorem decodeVarint_bytes (capped : Capped β) :
    match parseVarint (Buf.bytes capped.buf) with
    | .ok (value, rest) =>
        ∃ buf, capped.decodeVarint = .ok (value, { capped with buf }) ∧ Buf.bytes buf = rest
    | .error _ => ∃ e, capped.decodeVarint = .error e ∧ e ≠ .recursionLimitReached := by
  have hspec := decodeVarint_spec capped.buf
  rw [VarintResult] at hspec
  cases hrun : Bilrost.decodeVarint capped.buf with
  | mk result buf =>
    rw [hrun] at hspec
    cases hparse : parseVarint (Buf.bytes capped.buf) with
    | ok found =>
      obtain ⟨value, rest⟩ := found
      rw [hparse] at hspec
      obtain ⟨rfl, hrest⟩ : result = .ok value ∧ Buf.bytes buf = rest := hspec
      exact ⟨buf, by rw [decodeVarint, hrun], hrest⟩
    | error e =>
      rw [hparse] at hspec
      obtain rfl : result = .error e := hspec.1
      refine ⟨_, by rw [decodeVarint, hrun], ?_⟩
      split_ifs
      · decide
      · exact parseVarint_error hparse

/-- Taking a region, told by the bytes of the buffer. -/
theorem takeLengthDelimited_bytes (capped : Capped β) :
    match parseVarint (Buf.bytes capped.buf) with
    | .ok (len, rest) =>
        if len + capped.extraBytesRemaining ≤ rest.length then
          ∃ buf, capped.takeLengthDelimited = .ok ⟨buf, rest.length - len⟩ ∧ Buf.bytes buf = rest
        else capped.takeLengthDelimited = .error .truncated
    | .error _ => ∃ e, capped.takeLengthDelimited = .error e ∧ e ≠ .recursionLimitReached := by
  have hspec := decodeVarint_spec capped.buf
  rw [VarintResult] at hspec
  cases hrun : Bilrost.decodeVarint capped.buf with
  | mk result buf =>
    rw [hrun] at hspec
    cases hparse : parseVarint (Buf.bytes capped.buf) with
    | ok found =>
      obtain ⟨len, rest⟩ := found
      rw [hparse] at hspec
      obtain ⟨rfl, hrest⟩ : result = .ok len ∧ Buf.bytes buf = rest := hspec
      have hremaining : Buf.remaining buf = rest.length := by rw [Buf.remaining_eq, hrest]
      simp only [takeLengthDelimited, decodeLengthDelimiter, hrun, bind, Except.bind, hremaining]
      by_cases hfit : len + capped.extraBytesRemaining ≤ rest.length
      · rw [if_pos hfit, if_neg (by omega), if_neg (by omega)]
        exact ⟨buf, rfl, hrest⟩
      · rw [if_neg hfit]
        split_ifs
        · rfl
        · rfl
        · omega
    | error e =>
      rw [hparse] at hspec
      obtain rfl : result = .error e := hspec.1
      refine ⟨e, ?_, parseVarint_error hparse⟩
      simp only [takeLengthDelimited, decodeLengthDelimiter, hrun, bind, Except.bind]

theorem slice_decodeVarint :
    SameOnSlice ReadErrors capped.decodeVarint capped.slice.decodeVarint := by
  have hbuf := decodeVarint_bytes capped
  have hslice := decodeVarint_bytes capped.slice
  rw [slice, Buf.bytes_slice] at hslice
  cases hparse : parseVarint (Buf.bytes capped.buf) with
  | ok result =>
    simp only [hparse] at hbuf hslice
    obtain ⟨buf, hrun, hbytes⟩ := hbuf
    obtain ⟨rest, hrun', rfl⟩ := hslice
    rw [hrun, slice, hrun']
    exact ⟨rfl, by rw [slice, hbytes]⟩
  | error e =>
    simp only [hparse] at hbuf hslice
    obtain ⟨e₁, hrun, h₁⟩ := hbuf
    obtain ⟨e₂, hrun', h₂⟩ := hslice
    rw [hrun, slice, hrun']
    exact ⟨h₁, h₂⟩

/-- Taking a region of a slice. -/
theorem slice_takeLengthDelimited (capped : Capped β) :
    match capped.takeLengthDelimited with
    | .ok delimited => capped.slice.takeLengthDelimited = .ok delimited.slice
    | .error e => e ≠ .recursionLimitReached ∧
        ∃ e', capped.slice.takeLengthDelimited = .error e' ∧ e' ≠ .recursionLimitReached := by
  have hbuf := takeLengthDelimited_bytes capped
  have hslice := takeLengthDelimited_bytes capped.slice
  rw [slice, Buf.bytes_slice] at hslice
  cases hparse : parseVarint (Buf.bytes capped.buf) with
  | ok result =>
    simp only [hparse] at hbuf hslice
    split_ifs at hbuf hslice with hfit
    · obtain ⟨buf, hrun, hbytes⟩ := hbuf
      obtain ⟨rest, hrun', rfl⟩ := hslice
      simp only [hrun]
      exact hrun'.trans (by rw [slice, hbytes])
    · rw [hbuf, slice, hslice]
      exact ⟨by decide, _, rfl, by decide⟩
  | error e =>
    simp only [hparse] at hbuf hslice
    obtain ⟨e₁, hrun, h₁⟩ := hbuf
    rw [hrun, slice]
    exact ⟨h₁, hslice⟩

end Capped

open Capped

/-- A read does the same with the bytes of a buffer in one piece. -/
theorem Op.run_slice {β γ : Type} [Buf β] (o : Op γ) (capped : Capped β) :
    SameOnSlice ReadErrors (o.run capped) (o.run capped.slice) := by
  have copied {n : Nat} (h : n ≤ capped.remaining) :
      SameOnSlice (ε := DecodeErrorKind) ReadErrors (.ok (capped.copy n))
        (.ok (capped.slice.copy n)) := by
    rw [slice_copy h]
    exact ⟨rfl, rfl⟩
  have hbefore : capped.remainingBeforeCap ≤ capped.remaining := Nat.sub_le _ _
  have hexact : ReadErrors .truncated .truncated := ⟨by decide, by decide⟩
  cases o with
  | decodeVarint => exact slice_decodeVarint
  | remainingBeforeCap => exact ⟨capped.slice_remainingBeforeCap, rfl⟩
  | hasRemaining =>
    rw [Op.run, Op.run, slice_hasRemaining]
    cases hmore : capped.hasRemaining with
    | ok more => exact ⟨rfl, rfl⟩
    | error e =>
      obtain rfl : e = .truncated := by
        rw [Capped.hasRemaining] at hmore
        split at hmore <;> simp_all
      exact hexact
  | peekRepeatedField =>
    simp only [Op.run, Capped.peekRepeatedField, slice_remainingBeforeCap]
    by_cases hzero : capped.remainingBeforeCap = 0
    · rw [if_pos hzero, if_pos hzero]
      exact ⟨rfl, rfl⟩
    · have hne : Buf.bytes capped.buf ≠ [] := by
        intro hnil
        rw [Capped.remainingBeforeCap, Capped.remaining, Buf.remaining_eq, hnil] at hzero
        simp at hzero
      obtain ⟨b, rest, hcons⟩ := List.exists_cons_of_ne_nil hne
      obtain ⟨tail, hchunk, -⟩ := Buf.chunk_eq_cons hcons
      have hslice : (Buf.chunk capped.slice.buf).headD 0 = b := by
        rw [slice, hcons]
        rfl
      simp only [hzero, ↓reduceIte, hchunk, List.headD_cons, hslice]
      split_ifs
      · exact ⟨rfl, rfl⟩
      · rw [slice_advance (by omega)]
        exact ⟨rfl, rfl⟩
  | getBytes n =>
    simp only [Op.run, Capped.getBytes, slice_remainingBeforeCap]
    split_ifs
    · exact hexact
    · exact copied (by omega)
  | copyBytes n =>
    simp only [Op.run, Capped.copyBytes, slice_remaining]
    split_ifs
    · exact hexact
    · exact copied (by omega)
  | skipBytes n =>
    simp only [Op.run, Capped.skipBytes, slice_remaining]
    split_ifs
    · exact hexact
    · rw [slice_advance (by omega)]
      exact ⟨rfl, rfl⟩
  | takeAll =>
    simp only [Op.run, Capped.takeAll, slice_remainingBeforeCap]
    exact copied hbefore
  | takeSmolStr =>
    simp only [Op.run, Capped.takeSmolStr, Capped.takeAll, slice_remainingBeforeCap]
    have hslice : (Buf.chunk capped.slice.buf).take capped.remainingBeforeCap =
        (capped.copy capped.remainingBeforeCap).1 := by
      rw [Capped.remaining, Buf.remaining_eq] at hbefore
      exact (Buf.copyOut_spec _ hbefore).1.symm
    have hadvance : capped.slice.advance capped.remainingBeforeCap =
        (capped.copy capped.remainingBeforeCap).2.slice := by
      rw [Capped.remaining, Buf.remaining_eq] at hbefore
      rw [slice, Capped.advance, Capped.copy, slice]
      exact congrArg (Capped.mk · _) (Buf.copyOut_spec _ hbefore).2.symm
    by_cases hshort : capped.remainingBeforeCap ≤ 23
    · rw [if_pos hshort, if_pos hshort]
      exact copied hbefore
    · have hlong : capped.remainingBeforeCap ≤ (Buf.chunk capped.slice.buf).length := by
        rw [Capped.remaining, Buf.remaining_eq] at hbefore
        exact hbefore
      rw [if_neg hshort, if_neg hshort, if_pos hlong]
      split_ifs with hchunk
      · refine ⟨?_, slice_advance hbefore⟩
        rw [hslice, Buf.take_chunk hchunk, Capped.copy]
        rw [Capped.remaining, Buf.remaining_eq] at hbefore
        exact (Buf.copyOut_spec _ hbefore).1
      · exact ⟨hslice, hadvance⟩
  | takeBorrowed =>
    have hdelimited := slice_takeLengthDelimited capped
    simp only [Op.run, takeBorrowedLengthDelimited_eq]
    cases hrun : capped.takeLengthDelimited with
    | ok delimited =>
      simp only [hrun] at hdelimited
      simp only [hdelimited, slice_remainingBeforeCap]
      have hslice : (⟨delimited.slice.buf, capped.slice.extraBytesRemaining⟩ : Capped Bytes) =
          (⟨delimited.buf, capped.extraBytesRemaining⟩ : Capped β).slice := rfl
      have hcopy : (⟨delimited.buf, capped.extraBytesRemaining⟩ : Capped β).slice.copy
          delimited.remainingBeforeCap = _ := slice_copy (Nat.sub_le _ _)
      rw [hslice, hcopy]
      exact ⟨rfl, rfl⟩
    | error e =>
      simp only [hrun] at hdelimited
      obtain ⟨hkind, e', hrun', hkind'⟩ := hdelimited
      simp only [hrun']
      exact ⟨hkind, hkind'⟩
  | note n => exact ⟨rfl, rfl⟩

namespace Program

/-- A program does the same with the bytes of a buffer in one piece. -/
theorem run_slice {β α : Type} [Buf β] (minCanonicity : Canonicity) (p : Program α)
    (capped : Capped β) :
    SameOnSlice (fun stop stop' => stop.fault = stop'.fault) (p.run minCanonicity capped)
      (p.run minCanonicity capped.slice) := by
  have readErrors {e e' : DecodeErrorKind} (h : ReadErrors e e') :
      (Stop.error e).fault = (Stop.error e').fault := by
    have other {e : DecodeErrorKind} (h : e ≠ .recursionLimitReached) :
        (Stop.error e).fault = .other := by
      cases e <;> first | rfl | exact absurd rfl h
    rw [other h.1, other h.2]
  induction p generalizing capped with
  | done value => exact ⟨rfl, rfl⟩
  | fail stop => exact rfl
  | check canon next ih =>
    simp only [run]
    split
    · exact ih capped
    · exact rfl
  | op o next ih =>
    have hread := o.run_slice capped
    simp only [run]
    cases hrun : o.run capped with
    | ok result =>
      cases hrun' : o.run capped.slice with
      | ok result' =>
        rw [hrun, hrun'] at hread
        obtain ⟨hvalue, hslice⟩ := hread
        obtain ⟨y, slice⟩ := result'
        obtain rfl : y = result.1 := hvalue
        obtain rfl : slice = result.2.slice := hslice
        exact ih _ result.2
      | error e' =>
        rw [hrun, hrun'] at hread
        exact hread.elim
    | error e =>
      cases hrun' : o.run capped.slice with
      | ok result' =>
        rw [hrun, hrun'] at hread
        exact hread.elim
      | error e' =>
        rw [hrun, hrun'] at hread
        exact readErrors hread
  | region inner next ihInner ihNext =>
    have hdelimited := slice_takeLengthDelimited capped
    simp only [run]
    cases hrun : capped.takeLengthDelimited with
    | ok delimited =>
      simp only [hrun] at hdelimited
      simp only [hdelimited, slice_remainingBeforeCap]
      have hinner := ihInner delimited.remainingBeforeCap delimited
      cases hi : (inner delimited.remainingBeforeCap).run minCanonicity delimited with
      | ok result =>
        cases hi' : (inner delimited.remainingBeforeCap).run minCanonicity delimited.slice with
        | ok result' =>
          rw [hi, hi'] at hinner
          obtain ⟨hvalue, hslice⟩ := hinner
          obtain ⟨y, slice⟩ := result'
          obtain rfl : y = result.1 := hvalue
          obtain rfl : slice = result.2.slice := hslice
          exact ihNext _ ⟨result.2.buf, capped.extraBytesRemaining⟩
        | error stop' =>
          rw [hi, hi'] at hinner
          exact hinner.elim
      | error stop =>
        cases hi' : (inner delimited.remainingBeforeCap).run minCanonicity delimited.slice with
        | ok result' =>
          rw [hi, hi'] at hinner
          exact hinner.elim
        | error stop' =>
          rw [hi, hi'] at hinner
          exact hinner
    | error e =>
      simp only [hrun] at hdelimited
      obtain ⟨hkind, e', hrun', hkind'⟩ := hdelimited
      simp only [hrun']
      exact readErrors ⟨hkind, hkind'⟩

end Program

end Bilrost
