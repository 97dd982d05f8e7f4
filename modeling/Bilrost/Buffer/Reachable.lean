import Bilrost.Buffer.Growth

/-!
The buffers that can be reached by any calls from any of the constructors, the
empty box included. Each of them represents bytes, or does so but for a chunk of
size zero at its back.
-/

namespace Bilrost

variable {cfg : BuildConfig} {buf buf' : ReverseBuffer} {bytes : List UInt8}

inductive Carries : ReverseBuffer → List UInt8 → Prop
  | plain {buf : ReverseBuffer} {bytes : List UInt8} (h : Represents buf bytes) : Carries buf bytes
  | padded {inner : ReverseBuffer} {bytes : List UInt8} (h : Represents inner bytes)
      (hkeep : inner.keepBack = false) : Carries inner.padded bytes

/-- A step ends with a buffer that carries the bytes, or because memory ran
out. -/
def Lands (result : Step ReverseBuffer) (bytes : List UInt8) : Prop :=
  match result with
  | .ok buf => Carries buf bytes
  | .error .allocation => True
  | .error .panic => False

theorem Meets.lands {result : Step ReverseBuffer} (h : Meets result bytes) :
    Lands result bytes := by
  cases result with
  | ok buf => exact .plain h
  | error e => cases e <;> exact h

theorem Represents.chunks_of_front (h : Represents buf bytes) : buf.front ≠ 0 → buf.chunks ≠ [] := by
  intro h0 hnil
  exact h0 (h.shape.front_zero (by simp [hnil]))

namespace ReverseBuffer

/-- Dropping chunks goes past the one of size zero if it comes to it. -/
theorem dropChunks_padded {rest : ReverseBuffer} (hkeep : buf.keepBack = false)
    (chunks : List (List Cell)) (h : buf.dropChunks cfg chunks = .ok rest) :
    buf.dropChunks cfg (chunks ++ [[]]) = .ok rest.padded ∨
      buf.dropChunks cfg (chunks ++ [[]]) =
        .ok { rest with plannedAllocation := 0, plannedExact := false } := by
  induction chunks generalizing buf with
  | nil =>
      right
      obtain rfl := Except.ok.inj h
      simp [dropChunks, hkeep, cfg.sub_of_le (Nat.zero_le _)]
  | cons c chunks ih =>
      rw [List.cons_append, dropChunks]
      rw [dropChunks] at h
      by_cases hin : buf.front < c.length
      · rw [if_pos hin] at h ⊢
        obtain rfl := Except.ok.inj h
        exact .inl rfl
      · rw [if_neg hin] at h ⊢
        simp only [hkeep, Bool.false_and, Bool.false_eq_true, ↓reduceIte] at h ⊢
        obtain ⟨capacity, hcapacity, h⟩ := step_bind_eq_ok h
        rw [hcapacity]
        exact ih rfl h

theorem padded_planReservationExact (buf : ReverseBuffer) (n : Nat) :
    buf.padded.planReservationExact cfg n = (buf.planReservationExact cfg n).map padded := by
  unfold planReservationExact
  by_cases hlt : n < buf.front
  · have hlt' : n < buf.padded.front := hlt
    rw [if_pos hlt, if_pos hlt']
    rfl
  · have hlt' : ¬n < buf.padded.front := hlt
    rw [if_neg hlt, if_neg hlt', step_map_of_bind]
    rfl

/-- Planning an exact size changes the plan at most. -/
theorem planReservationExact_eq_ok {n : Nat} (h : buf.planReservationExact cfg n = .ok buf') :
    (n < buf.front ∧ buf' = buf ∨ buf.front ≤ n ∧ buf'.plannedExact = true ∧
        cfg.add buf.capacity (n - buf.front) = .ok buf'.plannedAllocation) ∧
      buf'.chunks = buf.chunks ∧ buf'.front = buf.front ∧ buf'.capacity = buf.capacity ∧
      buf'.keepBack = buf.keepBack := by
  unfold planReservationExact at h
  split_ifs at h with hlt
  · obtain rfl := Except.ok.inj h
    exact ⟨.inl ⟨hlt, rfl⟩, rfl, rfl, rfl, rfl⟩
  · obtain ⟨planned, hplanned, h⟩ := step_bind_eq_ok h
    obtain rfl := Except.ok.inj h
    exact ⟨.inr ⟨not_lt.mp hlt, rfl, hplanned⟩, rfl, rfl, rfl, rfl⟩

/-- The chunks are those that are handed to the loop. -/
theorem dropChunks_chunks (cfg : BuildConfig) (buf : ReverseBuffer)
    (own chunks : List (List Cell)) :
    ({ buf with chunks := own }).dropChunks cfg chunks = buf.dropChunks cfg chunks := by
  cases chunks <;> rfl

theorem dropChunks_keepBack {rest : ReverseBuffer} (chunks : List (List Cell))
    (h : buf.dropChunks cfg chunks = .ok rest) : rest.keepBack = buf.keepBack := by
  induction chunks generalizing buf with
  | nil =>
      obtain rfl := Except.ok.inj h
      rfl
  | cons c chunks ih =>
      rw [dropChunks] at h
      split_ifs at h
      · obtain rfl := Except.ok.inj h
        rfl
      · obtain ⟨-, -, h⟩ := step_bind_eq_ok h
        obtain rfl := Except.ok.inj h
        rfl
      · obtain ⟨capacity, -, h⟩ := step_bind_eq_ok h
        exact (ih h :)

end ReverseBuffer

namespace Carries

/-- The plan is not about the bytes. -/
theorem represents_plan (h : Represents buf bytes) (n : Nat) (exact : Bool) :
    Represents { buf with plannedAllocation := n, plannedExact := exact } bytes :=
  ⟨h.shape, h.cells⟩

theorem lands_map_padded {result : Step ReverseBuffer} (h : Meets result bytes)
    (hkeep : ∀ buf', result = .ok buf' → buf'.keepBack = false) :
    Lands (result.map ReverseBuffer.padded) bytes := by
  cases result with
  | ok buf' => exact .padded h (hkeep buf' rfl)
  | error e => cases e <;> exact h

theorem len_padded (h : Represents buf bytes) (hne : bytes ≠ []) :
    buf.padded.len cfg = .ok bytes.length := by
  have hpos := List.length_pos_iff.mpr hne
  have hlen := h.length_eq
  have hcap : (buf.capacity == 0) = false := by
    rw [beq_eq_false_iff_ne]
    omega
  have hsome : buf.padded.chunks.isEmpty = false := by
    simp [ReverseBuffer.padded]
  unfold ReverseBuffer.len
  simp only [hsome, ReverseBuffer.padded_capacity, hcap, Bool.false_and, Bool.not_false,
    beq_self_eq_true, cfg.debugAssert_true, step_ok_bind, ReverseBuffer.padded_front]
  rw [cfg.sub_of_le h.shape.front_le, hlen]

theorem advance_padded (h : Represents buf bytes) (hkeep : buf.keepBack = false) {cnt : Nat}
    (hcnt : cnt ≤ bytes.length) :
    ∃ buf', buf.padded.advance cfg cnt = .ok buf' ∧ Carries buf' (bytes.drop cnt) := by
  by_cases h0 : cnt = 0
  · subst h0
    exact ⟨buf.padded, if_pos rfl, .padded h hkeep⟩
  have hne : bytes ≠ [] := by
    intro hnil
    rw [hnil] at hcnt
    exact h0 (Nat.le_zero.mp hcnt)
  obtain ⟨rest, hrest, hrep⟩ := h.advance cfg hcnt
  unfold ReverseBuffer.advance at hrest ⊢
  rw [if_neg h0, h.len_eq, step_ok_bind, if_neg (Nat.not_lt.mpr hcnt)] at hrest
  rw [if_neg h0, len_padded h hne, step_ok_bind, if_neg (Nat.not_lt.mpr hcnt)]
  obtain ⟨front, hfront, hdrop⟩ := step_bind_eq_ok hrest
  rw [ReverseBuffer.padded_front, hfront, step_ok_bind]
  have hkept : rest.keepBack = false := (ReverseBuffer.dropChunks_keepBack _ hdrop).trans hkeep
  have hsame := ReverseBuffer.dropChunks_chunks cfg { buf with front := front } buf.padded.chunks
    buf.padded.chunks
  rcases ReverseBuffer.dropChunks_padded (by exact hkeep) _ hdrop with hpadded | hpast
  · exact ⟨_, hsame.trans hpadded, .padded hrep hkept⟩
  · exact ⟨_, hsame.trans hpast, .plain (represents_plan hrep 0 false)⟩

/-- A step, as if the chunk of size zero were not there. -/
theorem piece_padded (h : Represents buf bytes) (piece : Piece)
    (hsafe : piece.op.Safe cfg buf.padded) :
    piece.run cfg buf.padded = (piece.run cfg buf).map ReverseBuffer.padded := by
  have hfront := h.chunks_of_front
  cases piece with
  | buf data => exact ReverseBuffer.padded_prepend hfront data hsafe
  | slice data => exact ReverseBuffer.padded_prependSlice hfront data
  | array data => exact ReverseBuffer.padded_prependArray hfront data
  | u8 byte => exact ReverseBuffer.padded_prependU8 hfront byte

theorem safe_of_padded {op : BufferOp} (h : op.Safe cfg buf.padded) : op.Safe cfg buf := by
  cases op with
  | prepend data => exact h.imp_right ReverseBuffer.oldFrontOk_of_padded
  | prependU8 byte => exact h
  | planReservationExact additional => exact h
  | _ => trivial

theorem front_le (h : Carries buf bytes) : buf.front ≤ buf.capacity := by
  cases h with
  | plain h => exact h.shape.front_le
  | padded h => exact h.shape.front_le

theorem capacity_lt (h : Carries buf bytes) : buf.capacity < 2 ^ 64 := by
  cases h with
  | plain h => exact h.shape.capacity_lt
  | padded h => exact h.shape.capacity_lt

theorem length_eq (h : Carries buf bytes) : bytes.length = buf.capacity - buf.front := by
  cases h with
  | plain h => exact h.length_eq
  | padded h => exact h.length_eq

/-- Prepending bytes, unless an assertion fails or a plan of zero is used. -/
theorem piece (h : Carries buf bytes) (piece : Piece) (hsafe : piece.op.Safe cfg buf) :
    Lands (piece.run cfg buf) (piece.bytes ++ bytes) := by
  rw [← piece.apply_op]
  cases h with
  | plain h => exact (h.run (piece.admissible_op bytes).inBounds hsafe).lands
  | @padded inner _ h hkeep =>
      rw [piece_padded h piece hsafe]
      apply lands_map_padded (h.run (piece.admissible_op bytes).inBounds (safe_of_padded hsafe))
      intro buf' hrun
      rcases Piece.run_eq_ok hrun with ⟨-, hkept⟩ | ⟨-, hgrown⟩
      · exact hkept.keepBack.trans hkeep
      · exact hgrown.keepBack.trans hkeep

/-- One call. -/
theorem run (h : Carries buf bytes) {op : BufferOp} (hin : op.InBounds bytes)
    (hsafe : op.Safe cfg buf) : Lands (op.run cfg buf) (op.apply bytes) := by
  cases op with
  | prepend data => exact h.piece (.buf data) hsafe
  | prependSlice data => exact h.piece (.slice data) hsafe
  | prependArray data => exact h.piece (.array data) hsafe
  | prependU8 byte => exact h.piece (.u8 byte) hsafe
  | advance cnt =>
      cases h with
      | plain h =>
          have hstep : Meets (BufferOp.run cfg buf (.advance cnt)) _ := h.run hin hsafe
          exact hstep.lands
      | padded h hkeep =>
          obtain ⟨buf', hrun, hcarries⟩ := advance_padded h hkeep hin
          rw [BufferOp.run, hrun]
          exact hcarries
  | clear =>
      cases h with
      | plain h => exact h.clear.lands
      | @padded inner _ h hkeep =>
          have hclear : inner.padded.clear = .ok .new := by
            rw [ReverseBuffer.clear, ReverseBuffer.padded_keepBack, hkeep]
            rfl
          rw [BufferOp.run, hclear]
          exact .plain Represents.represents_new
  | planReservation additional =>
      cases h with
      | plain h => exact .plain (h.planReservation additional)
      | padded h hkeep =>
          rw [BufferOp.run, ReverseBuffer.padded_planReservation]
          exact .padded (h.planReservation additional) (by simpa using hkeep)
  | planReservationExact additional =>
      cases h with
      | plain h => exact (h.planReservationExact additional hsafe).lands
      | @padded inner _ h hkeep =>
          rw [BufferOp.run, ReverseBuffer.padded_planReservationExact]
          apply lands_map_padded (h.planReservationExact additional hsafe)
          intro buf' hrun
          exact (ReverseBuffer.planReservationExact_eq_ok hrun).2.2.2.2.trans hkeep

/-- Where the length is told, it is that of the bytes. -/
theorem len_eq_ok (h : Carries buf bytes) {len : Nat} (hlen : buf.len cfg = .ok len) :
    len = bytes.length := by
  obtain ⟨-, -, hlen⟩ := step_bind_eq_ok hlen
  obtain ⟨-, -, hlen⟩ := step_bind_eq_ok hlen
  rw [cfg.sub_of_le h.front_le] at hlen
  rw [h.length_eq]
  exact (Except.ok.inj hlen).symm

theorem inBounds_of_run_ok (h : Carries buf bytes) {op : BufferOp}
    (hrun : op.run cfg buf = .ok buf') : op.InBounds bytes := by
  cases op with
  | advance cnt =>
      by_contra hout
      have hcnt : bytes.length < cnt := not_le.mp hout
      simp only [BufferOp.run] at hrun
      unfold ReverseBuffer.advance at hrun
      rw [if_neg (by omega)] at hrun
      obtain ⟨len, hlen, hrun⟩ := step_bind_eq_ok hrun
      rw [h.len_eq_ok hlen, if_pos hcnt] at hrun
      cases hrun
  | _ => trivial

end Carries

/-- The buffers that calls lead to, in builds of one kind. Calls that return
lead from one buffer to the next. -/
inductive Reachable (cfg : BuildConfig) : ReverseBuffer → Prop
  | new : Reachable cfg .new
  | withCapacity {capacity : Nat} {buf : ReverseBuffer}
      (h : ReverseBuffer.withCapacity cfg capacity = .ok buf) : Reachable cfg buf
  | fromBox {value : List UInt8} (hlen : value.length < 2 ^ 63) : Reachable cfg (.fromBox value)
  | call {buf buf' : ReverseBuffer} (h : Reachable cfg buf) (op : BufferOp)
      (hrun : op.run cfg buf = .ok buf') : Reachable cfg buf'

theorem carries_fromBox {value : List UInt8} (hlen : value.length < 2 ^ 63) :
    Carries (.fromBox value) value := by
  by_cases hne : value = []
  · subst hne
    exact .padded Represents.represents_new rfl
  · have hstart : BufferStart ⟨true, true⟩ (.fromBox value) value := .fromBox hne hlen
    exact .plain hstart.represents

/-- What can be reached carries bytes. -/
theorem Reachable.carries (h : Reachable cfg buf) : ∃ bytes, Carries buf bytes := by
  induction h with
  | new => exact ⟨[], .plain Represents.represents_new⟩
  | withCapacity h => exact ⟨[], .plain (BufferStart.withCapacity h).represents⟩
  | @fromBox value hlen => exact ⟨value, carries_fromBox hlen⟩
  | @call buf buf' _ op hrun ih =>
      obtain ⟨bytes, hcarries⟩ := ih
      have hsafe := safe_of_run_ok hcarries.front_le hcarries.capacity_lt hrun
      have hlands := hcarries.run (hcarries.inBounds_of_run_ok hrun) hsafe
      rw [hrun] at hlands
      exact ⟨_, hlands⟩

end Bilrost
