import Bilrost.Buffer.Exact

/-!
Planned reservations. A plan is a bound from below on the size of the next chunk.
Until that chunk is there, no further plan lowers the bound, and every prepend
leaves it enough for the bytes that are still to come; once it is there, those
bytes fit in front.
-/

namespace Bilrost

variable {cfg : BuildConfig} {buf buf' : ReverseBuffer} {bytes : List UInt8} {count : Nat}

/-- What may come after a plan: bytes, and further plans. -/
inductive PlannedCall : Type 1 where
  | prepend (piece : Piece)
  | plan (additional : Nat)

namespace PlannedCall

def run (cfg : BuildConfig) (buf : ReverseBuffer) : PlannedCall → Step ReverseBuffer
  | prepend piece => piece.run cfg buf
  | plan additional => .ok (buf.planReservation additional)

/-- How many bytes the call prepends. -/
def length : PlannedCall → Nat
  | prepend piece => piece.bytes.length
  | plan _ => 0

def total (calls : List PlannedCall) : Nat := (calls.map length).sum

@[simp] theorem total_cons (call : PlannedCall) (calls : List PlannedCall) :
    total (call :: calls) = call.length + total calls := rfl

theorem total_append (before after : List PlannedCall) :
    total (before ++ after) = total before + total after := by
  simp [total]

end PlannedCall

/-- One call after the other. -/
def runPlanned (cfg : BuildConfig) : ReverseBuffer → List PlannedCall → Step ReverseBuffer
  | buf, [] => .ok buf
  | buf, call :: calls => do
      let buf ← call.run cfg buf
      runPlanned cfg buf calls

/-- The room in front and the next chunk are enough for so many bytes. -/
def Covers (cfg : BuildConfig) (buf : ReverseBuffer) (count : Nat) : Prop :=
  count ≤ buf.front ∨ ∃ size, buf.newAllocationSize cfg = .ok size ∧ count ≤ buf.front + size

theorem covers_planReservation (cfg : BuildConfig) (buf : ReverseBuffer) (additional : Nat) :
    Covers cfg (buf.planReservation additional) additional := by
  unfold Covers
  rw [planReservation_front]
  rcases le_or_gt additional buf.front with hle | hlt
  · exact .inl hle
  · exact .inr (newAllocationSize_planReservation cfg hlt)

theorem plannedAllocation_le (buf : ReverseBuffer) (additional : Nat) :
    buf.plannedAllocation ≤ (buf.planReservation additional).plannedAllocation := by
  unfold ReverseBuffer.planReservation
  dsimp only
  split_ifs with _ hless
  · exact le_rfl
  · exact le_rfl
  · exact not_lt.mp hless

/-- A further plan does not make the next chunk any smaller, not even one that
takes the place of an exact plan. -/
theorem newAllocationSize_le {size : Nat} (hsize : buf.newAllocationSize cfg = .ok size)
    (additional : Nat) :
    ∃ size', (buf.planReservation additional).newAllocationSize cfg = .ok size' ∧
      size ≤ size' := by
  unfold ReverseBuffer.planReservation
  dsimp only
  split_ifs with _ hless
  · exact ⟨size, hsize, le_rfl⟩
  · exact ⟨size, hsize, le_rfl⟩
  · refine ⟨max (max minChunkSize buf.capacity) (additional - buf.front), rfl, ?_⟩
    unfold ReverseBuffer.newAllocationSize at hsize
    split_ifs at hsize
    · obtain ⟨-, -, hsize⟩ := step_bind_eq_ok hsize
      have := Except.ok.inj hsize
      omega
    · have := Except.ok.inj hsize
      omega

theorem Covers.planReservation (h : Covers cfg buf count) (additional : Nat) :
    Covers cfg (buf.planReservation additional) count := by
  unfold Covers at *
  rw [planReservation_front]
  rcases h with hle | ⟨size, hsize, hle⟩
  · exact .inl hle
  · obtain ⟨size', hsize', hsizes⟩ := newAllocationSize_le hsize additional
    exact .inr ⟨size', hsize', by omega⟩

theorem Covers.planned (h : Covers cfg buf count) (piece : Piece) :
    Covers cfg (piece.planned buf) count := by
  cases piece with
  | u8 byte => exact h
  | _ => exact h.planReservation _

@[simp] theorem planned_front (piece : Piece) : (piece.planned buf).front = buf.front := by
  cases piece with
  | u8 byte => rfl
  | _ => exact planReservation_front _

theorem Kept.newAllocationSize (h : Kept buf buf') :
    buf'.newAllocationSize cfg = buf.newAllocationSize cfg := by
  unfold ReverseBuffer.newAllocationSize
  rw [h.plan.1, h.plan.2, h.capacity]

/-- A plan for `count` bytes of a buffer that had `chunks` of them: it is unused,
or its one chunk is there. -/
def Provides (cfg : BuildConfig) (chunks count : Nat) (buf : ReverseBuffer) : Prop :=
  buf.chunks.length = chunks ∧ Covers cfg buf count ∨
    buf.chunks.length = chunks + 1 ∧ count ≤ buf.front

/-- A piece of at most `count` bytes leaves room for the rest of them. -/
theorem Provides.piece {chunks : Nat} (h : Provides cfg chunks count buf)
    (hcarries : Carries buf bytes) {piece : Piece} (hpiece : piece.bytes.length ≤ count)
    (hrun : piece.run cfg buf = .ok buf') (hcarries' : Carries buf' (piece.bytes ++ bytes)) :
    Provides cfg chunks (count - piece.bytes.length) buf' := by
  have hlen := hcarries.length_eq
  have hlen' := hcarries'.length_eq
  have hfront := hcarries.front_le
  have hfront' := hcarries'.front_le
  rw [List.length_append] at hlen'
  rcases Piece.run_eq_ok hrun with ⟨hfits, hkept⟩ | ⟨hcross, hgrown⟩
  · have hcapacity := hkept.capacity
    rcases h with ⟨hchunks, hcovers⟩ | ⟨hchunks, hroom⟩
    · refine .inl ⟨hkept.chunks.trans hchunks, ?_⟩
      unfold Covers at *
      rw [hkept.newAllocationSize]
      rcases hcovers with hroom | ⟨size, hsize, hroom⟩
      · exact .inl (by omega)
      · exact .inr ⟨size, hsize, by omega⟩
    · exact .inr ⟨hkept.chunks.trans hchunks, by omega⟩
  · obtain ⟨size, hsize, hcapacity⟩ := hgrown.size
    have hadded := hgrown.chunks
    rcases h with ⟨hchunks, hcovers⟩ | ⟨hchunks, hroom⟩
    · refine .inr ⟨by omega, ?_⟩
      have hplanned := hcovers.planned piece
      unfold Covers at hplanned
      rw [planned_front] at hplanned
      rcases hplanned with hroom | ⟨size', hsize', hroom⟩
      · omega
      · obtain rfl : size' = size := Except.ok.inj (hsize'.symm.trans hsize)
        omega
    · omega

section fits

theorem ok_ne_allocation {α : Type} (a : α) : (.ok a : Step α) ≠ .error .allocation := by
  intro h
  cases h

theorem bind_ne_allocation {α γ : Type} {x : Step α} {f : α → Step γ}
    (hx : x ≠ .error .allocation) (hf : ∀ a, f a ≠ .error .allocation) :
    x >>= f ≠ .error .allocation := by
  cases x with
  | error e =>
      intro h
      obtain rfl := Except.error.inj h
      exact hx rfl
  | ok a => exact hf a

theorem boundsCheck_ne_allocation (cond : Bool) : boundsCheck cond ≠ .error .allocation := by
  cases cond <;> decide

theorem debugAssert_ne_allocation (cfg : BuildConfig) (cond : Bool) :
    cfg.debugAssert cond ≠ .error .allocation := by
  unfold BuildConfig.debugAssert
  split_ifs
  · decide
  · decide

theorem copyBuf_ne_allocation {β : Type} [Buf β] (data : β) (dest : List Cell)
    (start size : Nat) :
    ReverseBuffer.copyBuf cfg data dest start size ≠ .error .allocation := by
  unfold ReverseBuffer.copyBuf
  exact bind_ne_allocation (debugAssert_ne_allocation cfg _) fun _ => ok_ne_allocation _

/-- A piece that fits asks for no memory. -/
theorem Piece.run_ne_allocation {piece : Piece} (hfits : piece.bytes.length ≤ buf.front) :
    piece.run cfg buf ≠ .error .allocation := by
  cases piece with
  | slice data =>
      have hfits : data.length ≤ buf.front := hfits
      unfold Piece.run Piece.op BufferOp.run ReverseBuffer.prependSlice
      dsimp only
      rw [if_pos hfits]
      split_ifs
      · exact bind_ne_allocation (boundsCheck_ne_allocation _) fun _ => ok_ne_allocation _
      · exact bind_ne_allocation (boundsCheck_ne_allocation _) fun _ => ok_ne_allocation _
  | array data =>
      have hfits : data.length ≤ buf.front := hfits
      unfold Piece.run Piece.op BufferOp.run ReverseBuffer.prependArray
      dsimp only
      rw [if_pos hfits]
      exact bind_ne_allocation (boundsCheck_ne_allocation _) fun _ => ok_ne_allocation _
  | u8 byte =>
      have hfits : 1 ≤ buf.front := hfits
      have hne : buf.front ≠ 0 := Nat.pos_iff_ne_zero.mp hfits
      unfold Piece.run Piece.op BufferOp.run ReverseBuffer.prependU8
      dsimp only
      rw [if_neg hne, step_ok_bind, cfg.sub_of_le hfits, step_ok_bind]
      exact bind_ne_allocation (boundsCheck_ne_allocation _) fun _ => ok_ne_allocation _
  | buf data =>
      unfold Piece.run Piece.op BufferOp.run ReverseBuffer.prepend
      simp only [Buf.remaining_eq]
      split_ifs with h0 hle hself
      · exact ok_ne_allocation _
      · exact bind_ne_allocation (boundsCheck_ne_allocation _) fun _ => ok_ne_allocation _
      · apply bind_ne_allocation (boundsCheck_ne_allocation _)
        intro _
        apply bind_ne_allocation (copyBuf_ne_allocation _ _ _ _)
        rintro ⟨chunk, left⟩
        exact bind_ne_allocation (debugAssert_ne_allocation cfg _) fun _ => ok_ne_allocation _
      · exact absurd hfits hle

/-- A piece that fits is prepended, and the rest of the room is left. -/
theorem Carries.piece_fits (cfg : BuildConfig) (h : Carries buf bytes) {piece : Piece}
    (hfits : piece.bytes.length ≤ buf.front) :
    ∃ buf', piece.run cfg buf = .ok buf' ∧ Carries buf' (piece.bytes ++ bytes) ∧
      buf'.front = buf.front - piece.bytes.length := by
  have hsafe : piece.op.Safe cfg buf := Piece.safe_of_fits hfits
  have hlands := h.piece piece hsafe
  cases hrun : piece.run cfg buf with
  | error e =>
      rw [hrun] at hlands
      cases e with
      | allocation => exact absurd hrun (Piece.run_ne_allocation hfits)
      | panic => exact hlands.elim
  | ok buf' =>
      rw [hrun] at hlands
      refine ⟨buf', rfl, hlands, ?_⟩
      obtain ⟨-, hkept⟩ := (Piece.run_eq_ok hrun).resolve_right fun hcross => by omega
      have hlen := h.length_eq
      have hlen' := Carries.length_eq hlands
      have hfront := h.front_le
      have hfront' := Carries.front_le hlands
      rw [List.length_append, hkept.capacity] at hlen'
      rw [hkept.capacity] at hfront'
      omega

end fits

/-- A call that returns leaves what carries bytes, and the plan provides for the
calls that follow. -/
theorem Provides.call {chunks : Nat} (h : Provides cfg chunks count buf)
    (hcarries : Carries buf bytes) {call : PlannedCall} (hcall : call.length ≤ count)
    (hrun : call.run cfg buf = .ok buf') :
    (∃ bytes', Carries buf' bytes') ∧ Provides cfg chunks (count - call.length) buf' := by
  cases call with
  | prepend piece =>
      have hlands := hcarries.piece piece
        (safe_of_run_ok hcarries.front_le hcarries.capacity_lt hrun)
      rw [show piece.run cfg buf = .ok buf' from hrun] at hlands
      exact ⟨⟨_, hlands⟩, h.piece hcarries hcall hrun hlands⟩
  | plan additional =>
      obtain rfl := Except.ok.inj hrun
      constructor
      · exact ⟨bytes, hcarries.with_plan (planReservation_chunks _) (planReservation_front _)
          (planReservation_capacity _) (planReservation_keepBack _)⟩
      · unfold Provides at *
        rw [planReservation_chunks, planReservation_front]
        exact h.imp (fun h => ⟨h.1, h.2.planReservation additional⟩) id

theorem Provides.run {chunks : Nat} (h : Provides cfg chunks count buf)
    (hcarries : Carries buf bytes) {calls : List PlannedCall}
    (htotal : PlannedCall.total calls ≤ count) (hrun : runPlanned cfg buf calls = .ok buf') :
    (∃ bytes', Carries buf' bytes') ∧
      Provides cfg chunks (count - PlannedCall.total calls) buf' := by
  induction calls generalizing buf bytes count with
  | nil =>
      obtain rfl := Except.ok.inj hrun
      exact ⟨⟨bytes, hcarries⟩, h⟩
  | cons call calls ih =>
      obtain ⟨mid, hmid, hrun⟩ := step_bind_eq_ok hrun
      rw [PlannedCall.total_cons] at htotal ⊢
      obtain ⟨⟨bytes', hcarries'⟩, hprovides⟩ := h.call hcarries (by omega) hmid
      rw [← Nat.sub_sub]
      exact ih hprovides hcarries' (by omega) hrun

/-- Calls for which there is room return. -/
theorem Carries.runPlanned_fits (cfg : BuildConfig) (h : Carries buf bytes)
    {calls : List PlannedCall} (hfits : PlannedCall.total calls ≤ buf.front) :
    ∃ buf', runPlanned cfg buf calls = .ok buf' := by
  induction calls generalizing buf bytes with
  | nil => exact ⟨buf, rfl⟩
  | cons call calls ih =>
      rw [PlannedCall.total_cons] at hfits
      cases call with
      | prepend piece =>
          have hpiece : piece.bytes.length + PlannedCall.total calls ≤ buf.front := hfits
          have hfirst : piece.bytes.length ≤ buf.front := by omega
          obtain ⟨mid, hmid, hcarries, hfront⟩ := h.piece_fits cfg hfirst
          obtain ⟨buf', hrun⟩ := ih hcarries (by omega)
          refine ⟨buf', ?_⟩
          rw [runPlanned, PlannedCall.run, hmid, step_ok_bind, hrun]
      | plan additional =>
          have hplan : 0 + PlannedCall.total calls ≤ buf.front := hfits
          have hcarries := h.with_plan (planReservation_chunks additional)
            (planReservation_front _) (planReservation_capacity _) (planReservation_keepBack _)
          exact ih hcarries (by rw [planReservation_front]; omega)

/-- What a plan for `additional` bytes is for. While at most so many are
prepended, whatever further plans are made, one chunk is allocated at most, and
once it is no call fails. Until then no further plan makes the next chunk any
smaller. -/
structure Planned (cfg : BuildConfig) (buf : ReverseBuffer) (additional : Nat) : Prop where
  once {calls : List PlannedCall} {buf' : ReverseBuffer} :
    PlannedCall.total calls ≤ additional →
      runPlanned cfg (buf.planReservation additional) calls = .ok buf' →
        buf'.chunks.length = buf.chunks.length ∨ buf'.chunks.length = buf.chunks.length + 1
  returns {before after : List PlannedCall} {mid : ReverseBuffer} :
    PlannedCall.total (before ++ after) ≤ additional →
      runPlanned cfg (buf.planReservation additional) before = .ok mid →
        buf.chunks.length < mid.chunks.length → ∃ buf', runPlanned cfg mid after = .ok buf'
  keeps {calls : List PlannedCall} {mid : ReverseBuffer} (further : Nat) :
    PlannedCall.total calls ≤ additional →
      runPlanned cfg (buf.planReservation additional) calls = .ok mid →
        mid.chunks.length = buf.chunks.length →
          mid.plannedAllocation ≤ (mid.planReservation further).plannedAllocation ∧
            Covers cfg (mid.planReservation further) (additional - PlannedCall.total calls) ∧
              ∀ size, mid.newAllocationSize cfg = .ok size →
                ∃ size', (mid.planReservation further).newAllocationSize cfg = .ok size' ∧
                  size ≤ size'

/-- A plan covers its bytes with one chunk. -/
theorem plan_reservation_covers (cfg : BuildConfig) {buf : ReverseBuffer}
    (h : Reachable cfg buf) (additional : Nat) : Planned cfg buf additional := by
  obtain ⟨bytes, hcarries⟩ := h.carries
  have hplanned := hcarries.with_plan (planReservation_chunks additional)
    (planReservation_front _) (planReservation_capacity _) (planReservation_keepBack _)
  have hprovides : Provides cfg buf.chunks.length additional (buf.planReservation additional) :=
    .inl ⟨by rw [planReservation_chunks], covers_planReservation cfg buf additional⟩
  constructor
  · intro calls buf' htotal hrun
    exact (hprovides.run hplanned htotal hrun).2.imp And.left And.left
  · intro before after mid htotal hrun hmore
    rw [PlannedCall.total_append] at htotal
    obtain ⟨⟨bytes', hmid⟩, hprovides⟩ := hprovides.run hplanned (by omega) hrun
    apply hmid.runPlanned_fits cfg
    rcases hprovides with ⟨hsame, -⟩ | ⟨-, hroom⟩
    · omega
    · omega
  · intro calls mid further htotal hrun hsame
    obtain ⟨-, hprovides⟩ := hprovides.run hplanned htotal hrun
    refine ⟨plannedAllocation_le mid further, ?_, fun size hsize => newAllocationSize_le hsize _⟩
    rcases hprovides with ⟨-, hcovers⟩ | ⟨hmore, -⟩
    · exact hcovers.planReservation further
    · omega

/-- After three bytes, a plan for twelve times twelve. -/
theorem plan_reservation_covers_144 :
    ∃ buf, ReverseBuffer.new.prependSlice ⟨true, true⟩ [1, 2, 3] = .ok buf ∧
      Planned ⟨true, true⟩ buf 144 := by
  have hrun : (BufferOp.prependSlice [1, 2, 3]).run ⟨true, true⟩ .new =
      .ok ⟨[List.replicate 29 none ++ [some 1, some 2, some 3]], 29, 32, 0, false, false⟩ := by
    decide +kernel
  exact ⟨_, hrun, plan_reservation_covers _ (.call .new _ hrun) 144⟩

end Bilrost
