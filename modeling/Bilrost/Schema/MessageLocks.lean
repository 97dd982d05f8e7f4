import Bilrost.Schema.Locks

/-!
Decoders of messages in lockstep, and by induction those of everything that is
built.
-/

namespace Bilrost

open Program

theorem FieldCodec.Locks.tagged {T : Type} {codec : FieldCodec T} (h : codec.Locks) (tag : Nat) :
    (codec.tagged tag).Locks where
  same := h.same
  isEmpty := h.isEmpty
  clear := h.clear
  locks s b tag' wireType duplicated v v' hv := by
    rw [tagged_decodeBy, tagged_decodeBy]
    split_ifs
    · exact lock_error _ _
    · exact h.locks s b wireType hv

theorem Oneof.locks {T : Type} {oneof : Oneof T} (h : ∀ i, (oneof.codec i).Locks) :
    oneof.field.Locks where
  same := sameLaws_eq T
  isEmpty value := by
    rw [Oneof.field, Option.isNone_iff_eq_none]
    exact oneof.view.eq_symm_apply.symm
  clear value := rfl
  locks s b tag wireType duplicated v v' hv := by
    obtain rfl : v = v' := hv
    rw [field_decodeBy, field_decodeBy]
    split
    · exact lock_error _ _
    · next i _ _ =>
      refine ((h i).decodeFieldBy true true wireType ((h i).same.refl true _)).bind
        fun x y hxy => lock_done ⟨?_, hxy.2⟩
      exact congrArg (oneof.construct i) (((h i).same.eq _ _).mp hxy.1)
    · exact lock_error _ _

namespace Fields

variable {s : Sides} {M : Type} {F : Fields M} {w : F.Writing}

variable (F) in
@[simp] theorem get_symm (values : ∀ i, F.Ty i) (ignored : F.Ignored) (i : F.Index) :
    F.get (F.view.symm (values, ignored)) i = values i := by
  simp [get]

@[simp] theorem get_set_self (m : M) (i : F.Index) (value : F.Ty i) :
    F.get (F.set m i value) i = value := by
  rw [get, set, Equiv.apply_symm_apply]
  exact Function.update_self i value (F.view m).1

@[simp] theorem get_set_of_ne (m : M) {i j : F.Index} (h : j ≠ i) (value : F.Ty i) :
    F.get (F.set m i value) j = F.get m j := by
  rw [get, set, Equiv.apply_symm_apply]
  exact Function.update_of_ne h value (F.view m).1

theorem sameLaws (h : ∀ i, SameLaws (F.field i).same) : SameLaws (F.message w).same where
  eq m m' := Iff.rfl
  equiv := by
    refine ⟨fun m i => (h i).equiv.refl _, fun hm i => (h i).equiv.symm (hm i),
      fun hm hm' i => (h i).equiv.trans (hm i) (hm' i)⟩

/-- Messages that are the same stay so when a field of both is set. -/
theorem same_set (h : ∀ i, SameLaws (F.field i).same) {b : Bool} {m m' : M}
    (hm : (F.message w).same b m m') (i : F.Index) {x y : F.Ty i}
    (hxy : (F.field i).same b x y) :
    (F.message w).same b (F.set m i x) (F.set m' i y) := by
  cases b with
  | true =>
    obtain rfl : m = m' := hm
    rw [((h i).eq x y).mp hxy]
    rfl
  | false =>
    intro j
    by_cases hj : j = i
    · subst hj
      rw [get_set_self, get_set_self]
      exact hxy
    · rw [get_set_of_ne m hj, get_set_of_ne m' hj]
      exact hm j

theorem same_get (h : ∀ i, SameLaws (F.field i).same) {b : Bool} {m m' : M}
    (hm : (F.message w).same b m m') (i : F.Index) :
    (F.field i).same b (F.get m i) (F.get m' i) := by
  cases b with
  | true =>
    obtain rfl : m = m' := hm
    exact (h i).refl true _
  | false => exact hm i

theorem lock_skipUnknown {R : M → M → Prop} {m m' : M} (hm : R m m') (wireType : WireType) :
    s.Lock (s.Matches R) (s.way.skipUnknown wireType m) (s.way'.skipUnknown wireType m') := by
  have hskip : s.Lock Eq (skipField wireType) (skipField wireType) := lock_refl (fun _ => rfl) _
  cases hway : s.way with
  | relaxed =>
    cases hway' : s.way' with
    | relaxed => exact hskip.bind fun _ _ _ => lock_done ⟨hm, fun _ => rfl⟩
    | distinguished =>
      refine Lock.check_right _ (hskip.bind fun _ _ _ => lock_done ⟨hm, ?_⟩)
      rw [hway, hway']
      rintro ⟨⟩
  | distinguished =>
    obtain hway' : s.way' = .distinguished := by simpa [hway, eq_comm] using s.ways
    rw [hway']
    exact Lock.check _ _ (hskip.bind fun _ _ _ => lock_done ⟨hm, fun _ => rfl⟩)

theorem locks (h : ∀ i, (F.field i).Locks) : (F.message w).Locks where
  same := sameLaws fun i => (h i).same
  isEmpty m := by
    have hall : (F.message w).isEmpty m ↔ ∀ i, (F.field i).isEmpty (F.get m i) := by
      rw [message, List.all_eq_true]
      exact ⟨fun h i => h i (List.mem_finRange i), fun h i _ => h i⟩
    rw [hall]
    refine forall_congr' fun i => ((h i).isEmpty _).trans ?_
    rw [message, get_symm F]
  clear m i := by
    rw [message, get_symm F, get_symm F]
    exact (h i).clear _
  locks s b tag wireType duplicated m m' hm := by
    have hsame i := (h i).same
    rw [message_fieldBy, message_fieldBy]
    cases F.fieldOf tag with
    | some i =>
      exact ((h i).locks s b tag wireType duplicated (same_get hsame hm i)).bind
        fun x y hxy => lock_done ⟨same_set hsame hm i hxy.1, hxy.2⟩
    | none => exact lock_skipUnknown hm wireType

end Fields

namespace MessageCodec

variable {M : Type} {codec : MessageCodec M}

/-- What a recursive message type does is decided by the depth there is. -/
theorem locks_of_sameTo {approx : Nat → MessageCodec M}
    (hsame : ∀ depth, codec.SameTo depth (approx depth)) (h : ∀ depth, (approx depth).Locks) :
    codec.Locks where
  same := (hsame 0).same ▸ (h 0).same
  isEmpty m := by
    rw [(hsame 0).isEmpty, (hsame 0).same, (hsame 0).empty]
    exact (h 0).isEmpty m
  clear m := by
    rw [(hsame 0).clear, (hsame 0).same, (hsame 0).empty]
    exact (h 0).clear m
  locks s b tag wireType duplicated m m' hm := by
    have hs := hsame s.depth'
    rw [hs.same] at hm ⊢
    rw [hs.fieldBy s.way s.mode s.depths, hs.fieldBy s.way' s.mode' le_rfl]
    exact (h s.depth').locks s b tag wireType duplicated hm

theorem locks_of_unrolls {approx : Nat → MessageCodec M} {within : Nat → M → Prop}
    (hunrolls : codec.Unrolls approx within) (h : ∀ n, (approx n).Locks) : codec.Locks where
  same := hunrolls.same 0 ▸ (h 0).same
  isEmpty m := by
    rw [hunrolls.isEmpty 0, hunrolls.same 0, hunrolls.empty 0]
    exact (h 0).isEmpty m
  clear m := by
    rw [hunrolls.clear 0, hunrolls.same 0, hunrolls.empty 0]
    exact (h 0).clear m
  locks s b tag wireType duplicated m m' hm := by
    rw [hunrolls.fieldBy, hunrolls.fieldBy]
    refine (lock_refl (R := Eq) (fun _ => rfl) (Program.read .remainingBeforeCap)).bind
      fun len len' hlen => ?_
    obtain rfl : len = len' := hlen
    rw [hunrolls.same len] at hm ⊢
    exact (h len).locks s b tag wireType duplicated hm

end MessageCodec

def Part.Locks : Part → Prop
  | .value codec => codec.Locks
  | .field codec => codec.Locks
  | .messageField fld => fld.Locks
  | .message codec => codec.Locks

/-- All decoders are in lockstep with themselves, whatever the way, the mode and
the depth. -/
theorem Built.locks {allowed : Features} {part : Part} (h : Built allowed part) : part.Locks := by
  induction h with
  | scalar h => exact h.locks
  | packed hcoll _ hitem => exact hitem.packed hcoll.agrees
  | localProxy n empty _ _ hitem => exact hitem.packed (LocalProxy.agrees _ n empty)
  | map hcoll _ _ hkey hval => exact (hkey.entry hval).packedItems hcoll.agrees _
  | packedArray _ _ hitem => exact hitem.packedArray _
  | proxied forOverwrite emptyState _ hproxy _ hcodec =>
    exact hcodec.proxied hproxy forOverwrite emptyState
  | nested _ hcodec => exact hcodec.nested
  | tupled _ hcodec => exact hcodec.tupled
  | inlined _ hcodec => exact hcodec.inlined
  | plain _ hempties _ hcodec => exact hcodec.plain hempties
  | optional _ hcodec => exact hcodec.optional
  | unpackedField hcoll _ hitem => exact hitem.unpackedField hcoll
  | packedField hcoll _ hitem => exact hitem.packedField hcoll
  | unpackedArrayField _ _ hempties _ hitem => exact hitem.unpackedArrayField hempties
  | packedArrayField _ _ hempties _ hitem => exact hitem.packedArrayField hempties
  | unpackedArrayOptionField _ _ hitem => exact hitem.unpackedArrayOptionField
  | tagged tag _ hcodec => exact hcodec.tagged tag
  | oneof _ hvariants => exact Oneof.locks hvariants
  | fields _ _ _ _ hfields => exact Fields.locks hfields
  | recursive approx hsame _ _ happrox => exact MessageCodec.locks_of_sameTo hsame happrox
  | unrolled approx _ hunrolls _ happrox => exact MessageCodec.locks_of_unrolls hunrolls happrox

end Bilrost
