import Bilrost.Buffer.Runs

/-!
What prepending does to the allocations of a buffer: nothing as long as the
bytes fit in front, and otherwise it adds one chunk, whose size is the one that
is planned. A buffer that was made from an empty box has a chunk of size zero
behind all others; it does what it would do without that chunk, until it comes
to look at it.
-/

namespace Bilrost

/-- The ways to put bytes in front. -/
inductive Piece : Type 1 where
  | buf {β : Type} [Buf β] (data : β)
  | slice (data : List UInt8)
  | array (data : List UInt8)
  | u8 (byte : UInt8)

namespace Piece

def op : Piece → BufferOp
  | buf data => .prepend data
  | slice data => .prependSlice data
  | array data => .prependArray data
  | u8 byte => .prependU8 byte

def bytes : Piece → List UInt8
  | buf data => Buf.bytes data
  | slice data => data
  | array data => data
  | u8 byte => [byte]

def run (cfg : BuildConfig) (buf : ReverseBuffer) (piece : Piece) : Step ReverseBuffer :=
  piece.op.run cfg buf

/-- The plan by which a chunk is added. Only a single byte is not announced. -/
def planned (buf : ReverseBuffer) (piece : Piece) : ReverseBuffer :=
  match piece with
  | u8 _ => buf
  | _ => buf.planReservation piece.bytes.length

theorem apply_op (piece : Piece) (bytes : List UInt8) :
    piece.op.apply bytes = piece.bytes ++ bytes := by
  cases piece <;> rfl

theorem admissible_op (piece : Piece) (bytes : List UInt8) : piece.op.Admissible bytes := by
  cases piece <;> trivial

end Piece

/-- From `x >>= f` to its two parts. -/
theorem step_bind_eq_ok {α γ : Type} {x : Step α} {f : α → Step γ} {c : γ}
    (h : x >>= f = .ok c) : ∃ a, x = .ok a ∧ f a = .ok c := by
  cases x with
  | error e => cases h
  | ok a => exact ⟨a, rfl, h⟩

@[simp] theorem step_ok_map {α γ : Type} (g : α → γ) (a : α) :
    (.ok a : Step α).map g = .ok (g a) := rfl

theorem step_map_of_bind {α γ δ : Type} (g : γ → δ) (x : Step α) (f : α → Step γ) :
    (x >>= f).map g = x >>= fun a => (f a).map g := by
  cases x <;> rfl

variable {cfg : BuildConfig} {buf buf' : ReverseBuffer} {bytes : List UInt8}

/-- One more chunk, of the size that `planned` has for the next one. -/
structure Grown (cfg : BuildConfig) (planned buf buf' : ReverseBuffer) : Prop where
  size : ∃ size, planned.newAllocationSize cfg = .ok size ∧ buf'.capacity = buf.capacity + size
  chunks : buf'.chunks.length = buf.chunks.length + 1
  plan : buf'.plannedAllocation = 0 ∧ buf'.plannedExact = false
  keepBack : buf'.keepBack = buf.keepBack

/-- The allocations and the plan are what they were. -/
structure Kept (buf buf' : ReverseBuffer) : Prop where
  capacity : buf'.capacity = buf.capacity
  chunks : buf'.chunks.length = buf.chunks.length
  plan : buf'.plannedAllocation = buf.plannedAllocation ∧ buf'.plannedExact = buf.plannedExact
  keepBack : buf'.keepBack = buf.keepBack

theorem kept_write (write : List Cell → List Cell) (front : Nat) :
    Kept buf { buf.modifyFrontChunk write with front := front } :=
  ⟨rfl, List.length_modifyHead, ⟨rfl, rfl⟩, rfl⟩

theorem add_eq_ok {a b c : Nat} (hlt : a + b < 2 ^ 64) (h : cfg.add a b = .ok c) : c = a + b := by
  rw [cfg.add_of_lt hlt] at h
  exact (Except.ok.inj h).symm

/-- An allocation ends within the address space. -/
theorem allocateChunk_eq_ok {allocated size : Nat} {chunk : List Cell}
    (h : ReverseBuffer.allocateChunk cfg allocated size = .ok chunk) :
    allocated + size < 2 ^ 64 ∧ chunk.length = size := by
  obtain ⟨-, -, h⟩ := step_bind_eq_ok h
  split_ifs at h with hfits
  obtain rfl := Except.ok.inj h
  exact ⟨hfits.2, List.length_replicate⟩

theorem grown_of_grow (h : buf.grow cfg = .ok buf') : Grown cfg buf buf buf' := by
  obtain ⟨size, hsize, h⟩ := step_bind_eq_ok h
  obtain ⟨chunk, hchunk, h⟩ := step_bind_eq_ok h
  obtain ⟨front, -, h⟩ := step_bind_eq_ok h
  obtain ⟨capacity, hcapacity, h⟩ := step_bind_eq_ok h
  obtain rfl := Except.ok.inj h
  exact ⟨⟨size, hsize, add_eq_ok (allocateChunk_eq_ok hchunk).1 hcapacity⟩, rfl, ⟨rfl, rfl⟩, rfl⟩

/-- Growing a buffer after it was written to, and writing to it afterwards. -/
theorem Grown.written {planned grown : ReverseBuffer} {write : List Cell → List Cell}
    (h : Grown cfg (planned.modifyFrontChunk write) (planned.modifyFrontChunk write) grown)
    (hcapacity : planned.capacity = buf.capacity)
    (hchunks : planned.chunks.length = buf.chunks.length)
    (hkeep : planned.keepBack = buf.keepBack) (write' : List Cell → List Cell) (front : Nat) :
    Grown cfg planned buf { grown.modifyFrontChunk write' with front := front } := by
  obtain ⟨⟨size, hsize, hcap⟩, hlength, hplan, hkeep'⟩ := h
  refine ⟨⟨size, hsize, ?_⟩, ?_, hplan, hkeep'.trans hkeep⟩
  · rw [← hcapacity]
    exact hcap
  · simp only [modifyFrontChunk_chunks, List.length_modifyHead] at hlength ⊢
    rw [hlength, hchunks]

theorem grown_of_growAndCopySlice {data : List UInt8}
    (h : buf.growAndCopySlice cfg data = .ok buf') :
    Grown cfg (buf.planReservation data.length) buf buf' := by
  unfold ReverseBuffer.growAndCopySlice at h
  dsimp only at h
  split_ifs at h with h0
  · obtain ⟨grown, hgrow, h⟩ := step_bind_eq_ok h
    obtain ⟨front, -, h⟩ := step_bind_eq_ok h
    obtain ⟨-, -, h⟩ := step_bind_eq_ok h
    obtain rfl := Except.ok.inj h
    obtain ⟨⟨size, hsize, hcap⟩, hlength, hplan, hkeep⟩ := grown_of_grow hgrow
    refine ⟨⟨size, hsize, by simpa using hcap⟩, ?_, hplan, by simpa using hkeep⟩
    simpa using hlength
  · obtain ⟨grown, hgrow, h⟩ := step_bind_eq_ok h
    obtain ⟨front, -, h⟩ := step_bind_eq_ok h
    obtain ⟨-, -, h⟩ := step_bind_eq_ok h
    obtain ⟨-, -, h⟩ := step_bind_eq_ok h
    obtain rfl := Except.ok.inj h
    exact (grown_of_grow hgrow).written (by simp) (by simp) (by simp) _ _

theorem grown_of_growAndCopyBuf {β : Type} [Buf β] {data : β} {len : Nat}
    (h : buf.growAndCopyBuf cfg data len = .ok buf') :
    Grown cfg (buf.planReservation len) buf buf' := by
  obtain ⟨size, hsize, h⟩ := step_bind_eq_ok h
  obtain ⟨chunk, hchunk, h⟩ := step_bind_eq_ok h
  obtain ⟨newEnd, -, h⟩ := step_bind_eq_ok h
  obtain ⟨newFront, -, h⟩ := step_bind_eq_ok h
  obtain ⟨-, -, h⟩ := step_bind_eq_ok h
  obtain ⟨⟨newChunk, left⟩, -, h⟩ := step_bind_eq_ok h
  obtain ⟨-, -, h⟩ := step_bind_eq_ok h
  obtain ⟨⟨oldChunk, left'⟩, -, h⟩ := step_bind_eq_ok h
  obtain ⟨-, -, h⟩ := step_bind_eq_ok h
  obtain ⟨capacity, hcapacity, h⟩ := step_bind_eq_ok h
  obtain rfl := Except.ok.inj h
  have hcap := add_eq_ok (allocateChunk_eq_ok hchunk).1 hcapacity
  exact ⟨⟨size, hsize, by simpa using hcap⟩, by simp, ⟨rfl, rfl⟩, by simp⟩

/-- A prepend that returns has added a chunk exactly if the bytes did not fit. -/
theorem Piece.run_eq_ok {piece : Piece} (h : piece.run cfg buf = .ok buf') :
    piece.bytes.length ≤ buf.front ∧ Kept buf buf' ∨
      buf.front < piece.bytes.length ∧ Grown cfg (piece.planned buf) buf buf' := by
  rw [Piece.run] at h
  cases piece with
  | slice data =>
    simp only [Piece.op, BufferOp.run] at h
    unfold ReverseBuffer.prependSlice at h
    split_ifs at h with hle hself
    · obtain ⟨-, -, h⟩ := step_bind_eq_ok h
      obtain rfl := Except.ok.inj h
      exact .inl ⟨hle, kept_write _ _⟩
    · obtain ⟨-, -, h⟩ := step_bind_eq_ok h
      obtain rfl := Except.ok.inj h
      exact .inl ⟨hle, kept_write _ _⟩
    · exact .inr ⟨not_le.mp hle, grown_of_growAndCopySlice h⟩
  | array data =>
    simp only [Piece.op, BufferOp.run] at h
    unfold ReverseBuffer.prependArray at h
    split_ifs at h with hle
    · obtain ⟨-, -, h⟩ := step_bind_eq_ok h
      obtain rfl := Except.ok.inj h
      exact .inl ⟨hle, kept_write _ _⟩
    · exact .inr ⟨not_le.mp hle, grown_of_growAndCopySlice h⟩
  | u8 byte =>
    simp only [Piece.op, BufferOp.run] at h
    unfold ReverseBuffer.prependU8 at h
    split_ifs at h with h0
    · obtain ⟨grown, hgrow, h⟩ := step_bind_eq_ok h
      obtain ⟨front, -, h⟩ := step_bind_eq_ok h
      obtain ⟨-, -, h⟩ := step_bind_eq_ok h
      obtain rfl := Except.ok.inj h
      obtain ⟨hsize, hlength, hplan, hkeep⟩ := grown_of_grow hgrow
      refine .inr ⟨?_, hsize, ?_, hplan, hkeep⟩
      · rw [h0]
        exact Nat.one_pos
      · simpa using hlength
    · obtain ⟨same, hsame, h⟩ := step_bind_eq_ok h
      obtain rfl := Except.ok.inj hsame
      obtain ⟨front, -, h⟩ := step_bind_eq_ok h
      obtain ⟨-, -, h⟩ := step_bind_eq_ok h
      obtain rfl := Except.ok.inj h
      exact .inl ⟨Nat.pos_of_ne_zero h0, kept_write _ _⟩
  | @buf β _ data =>
    simp only [Piece.op, BufferOp.run] at h
    unfold ReverseBuffer.prepend at h
    simp only [Buf.remaining_eq] at h
    split_ifs at h with h0 hle hself
    · obtain rfl := Except.ok.inj h
      exact .inl ⟨h0.le.trans (Nat.zero_le _), rfl, rfl, ⟨rfl, rfl⟩, rfl⟩
    · obtain ⟨-, -, h⟩ := step_bind_eq_ok h
      obtain rfl := Except.ok.inj h
      exact .inl ⟨hle, kept_write _ _⟩
    · obtain ⟨-, -, h⟩ := step_bind_eq_ok h
      obtain ⟨⟨chunk, left⟩, -, h⟩ := step_bind_eq_ok h
      obtain ⟨-, -, h⟩ := step_bind_eq_ok h
      obtain rfl := Except.ok.inj h
      exact .inl ⟨hle, kept_write _ _⟩
    · exact .inr ⟨not_le.mp hle, grown_of_growAndCopyBuf h⟩

namespace ReverseBuffer

/-- The same buffer with a chunk of size zero behind all others. -/
def padded (buf : ReverseBuffer) : ReverseBuffer := { buf with chunks := buf.chunks ++ [[]] }

@[simp] theorem padded_front (buf : ReverseBuffer) : buf.padded.front = buf.front := rfl

@[simp] theorem padded_capacity (buf : ReverseBuffer) : buf.padded.capacity = buf.capacity := rfl

@[simp] theorem padded_keepBack (buf : ReverseBuffer) : buf.padded.keepBack = buf.keepBack := rfl

@[simp] theorem padded_newAllocationSize (buf : ReverseBuffer) :
    buf.padded.newAllocationSize cfg = buf.newAllocationSize cfg := rfl

@[simp] theorem padded_frontChunk (buf : ReverseBuffer) : buf.padded.frontChunk = buf.frontChunk := by
  unfold padded frontChunk
  cases buf.chunks <;> rfl

theorem padded_planReservation (buf : ReverseBuffer) (n : Nat) :
    buf.padded.planReservation n = (buf.planReservation n).padded := by
  unfold planReservation
  rw [apply_ite padded, apply_ite padded]
  rfl

/-- Writing to the front chunk, unless that is the one of size zero. -/
theorem padded_modifyFrontChunk {write : List Cell → List Cell}
    (h : buf.chunks ≠ [] ∨ write [] = []) :
    buf.padded.modifyFrontChunk write = (buf.modifyFrontChunk write).padded := by
  unfold padded modifyFrontChunk
  cases hc : buf.chunks with
  | nil =>
    obtain hwrite := h.resolve_left (fun hne => hne hc)
    simp [hwrite]
  | cons c rest => rfl

theorem padded_modifyFrontChunk_of_ne (h : buf.chunks ≠ []) (write : List Cell → List Cell) :
    buf.padded.modifyFrontChunk write = (buf.modifyFrontChunk write).padded :=
  padded_modifyFrontChunk (.inl h)

theorem padded_grow (buf : ReverseBuffer) :
    buf.padded.grow cfg = (buf.grow cfg).map padded := by
  unfold grow
  simp only [padded_newAllocationSize, padded_front, padded_capacity, step_map_of_bind]
  rfl

theorem grow_chunks_ne_nil (h : buf.grow cfg = .ok buf') : buf'.chunks ≠ [] := by
  have hlength := (grown_of_grow h).chunks
  intro hnil
  rw [hnil] at hlength
  exact Nat.succ_ne_zero _ hlength.symm

theorem padded_growAndCopySlice (h : buf.front ≠ 0 → buf.chunks ≠ []) (data : List UInt8) :
    buf.padded.growAndCopySlice cfg data = (buf.growAndCopySlice cfg data).map padded := by
  unfold growAndCopySlice
  rw [padded_planReservation]
  simp only [padded_front, planReservation_front]
  by_cases h0 : buf.front = 0
  · rw [if_pos h0, if_pos h0, padded_grow]
    cases hgrow : (buf.planReservation data.length).grow cfg with
    | error e => rfl
    | ok grown =>
      have hwrite := padded_modifyFrontChunk_of_ne (grow_chunks_ne_nil hgrow)
      simp only [step_ok_map, step_ok_bind, padded_front, padded_frontChunk, step_map_of_bind, hwrite]
      rfl
  · rw [if_neg h0, if_neg h0, padded_modifyFrontChunk (.inl (by simpa using h h0)), padded_grow]
    cases hgrow : ((buf.planReservation data.length).modifyFrontChunk _).grow cfg with
    | error e => rfl
    | ok grown =>
      have hwrite := padded_modifyFrontChunk_of_ne (grow_chunks_ne_nil hgrow)
      simp only [step_ok_map, step_ok_bind, padded_front, padded_frontChunk, step_map_of_bind, hwrite]
      rfl

/-- Bytes in front of the front index, of which there are none unless there is a
chunk. -/
theorem padded_overwrite (h : buf.front ≠ 0 → buf.chunks ≠ []) {start : Nat} {data : List UInt8}
    (hle : start + data.length ≤ buf.front) :
    buf.padded.modifyFrontChunk (overwrite · start data) =
      (buf.modifyFrontChunk (overwrite · start data)).padded := by
  apply padded_modifyFrontChunk
  by_cases h0 : buf.front = 0
  · right
    obtain rfl : data = [] := List.length_eq_zero_iff.mp (by omega)
    exact overwrite_nil []
  · exact .inl (h h0)

theorem padded_selfCopy (h : buf.front ≠ 0 → buf.chunks ≠ []) (data : List UInt8) :
    buf.padded.modifyFrontChunk (selfCopy · buf.front data) =
      (buf.modifyFrontChunk (selfCopy · buf.front data)).padded := by
  apply padded_modifyFrontChunk
  by_cases h0 : buf.front = 0
  · right
    simp [selfCopy, overwriteZip]
  · exact .inl (h h0)

theorem padded_prependSlice (h : buf.front ≠ 0 → buf.chunks ≠ []) (data : List UInt8) :
    buf.padded.prependSlice cfg data = (buf.prependSlice cfg data).map padded := by
  unfold prependSlice
  simp only [padded_front, padded_frontChunk]
  by_cases hle : data.length ≤ buf.front
  · rw [if_pos hle, if_pos hle, padded_selfCopy h, padded_overwrite h (by omega)]
    split_ifs <;> rw [step_map_of_bind] <;> rfl
  · rw [if_neg hle, if_neg hle, padded_growAndCopySlice h]

theorem padded_prependArray (h : buf.front ≠ 0 → buf.chunks ≠ []) (data : List UInt8) :
    buf.padded.prependArray cfg data = (buf.prependArray cfg data).map padded := by
  unfold prependArray
  simp only [padded_front, padded_frontChunk]
  by_cases hle : data.length ≤ buf.front
  · rw [if_pos hle, if_pos hle, padded_overwrite h (by omega), step_map_of_bind]
    rfl
  · rw [if_neg hle, if_neg hle, padded_growAndCopySlice h]

theorem padded_prependU8 (h : buf.front ≠ 0 → buf.chunks ≠ []) (byte : UInt8) :
    buf.padded.prependU8 cfg byte = (buf.prependU8 cfg byte).map padded := by
  unfold prependU8
  by_cases h0 : buf.front = 0
  · have h0' : buf.padded.front = 0 := h0
    rw [if_pos h0, if_pos h0', padded_grow]
    cases hgrow : buf.grow cfg with
    | error e => rfl
    | ok grown =>
      have hwrite := padded_modifyFrontChunk_of_ne (grow_chunks_ne_nil hgrow)
      simp only [step_ok_map, step_ok_bind, padded_front, padded_frontChunk, step_map_of_bind, hwrite]
      rfl
  · have h0' : buf.padded.front ≠ 0 := h0
    rw [if_neg h0, if_neg h0']
    have hwrite := padded_modifyFrontChunk_of_ne (h h0)
    simp only [step_ok_bind, padded_front, padded_frontChunk, step_map_of_bind, hwrite]
    rfl

theorem oldFrontOk_of_padded (hold : Represents.OldFrontOk cfg buf.padded) :
    Represents.OldFrontOk cfg buf := by
  intro hdebug c hc
  apply hold hdebug c
  rw [padded, List.head?_append, Option.mem_def.mp hc]
  rfl

theorem copyBuf_zero {β : Type} [Buf β] (data : β) :
    copyBuf cfg data [] 0 0 = .ok ([], (Buf.copyOut 0 data).2) := by
  have hcopy := (Buf.copyOut_spec data (Nat.zero_le _)).1
  simp [copyBuf, hcopy]

/-- Here the chunk of size zero is looked at, when there is no other and the
assertion is on. -/
theorem padded_growAndCopyBuf {β : Type} [Buf β] (h : buf.front ≠ 0 → buf.chunks ≠ []) (data : β)
    (len : Nat) (hold : Represents.OldFrontOk cfg buf.padded) :
    buf.padded.growAndCopyBuf cfg data len = (buf.growAndCopyBuf cfg data len).map padded := by
  unfold growAndCopyBuf
  rw [padded_planReservation]
  have hq : (buf.planReservation len).front ≠ 0 → (buf.planReservation len).chunks ≠ [] := by
    simpa using h
  have hold' : (buf.planReservation len).chunks = [] → cfg.debugAssertions = false := by
    intro hnil
    rw [planReservation_chunks] at hnil
    by_contra hdebug
    have hlt := hold (by simpa using hdebug) [] (by simp [padded, hnil])
    exact Nat.not_lt_zero _ hlt
  simp only [padded_newAllocationSize, padded_frontChunk, step_map_of_bind]
  generalize buf.planReservation len = planned at hq hold'
  cases hc : planned.chunks with
  | cons c rest =>
    simp only [padded, hc]
    rfl
  | nil =>
    have h0 : planned.front = 0 := by
      by_contra hne
      exact hq hne hc
    have hchunk : planned.frontChunk = [] := by
      rw [frontChunk, hc]
      rfl
    have hpass (cond : Bool) : cfg.debugAssert cond = .ok () := by
      simp [BuildConfig.debugAssert, hold' hc]
    simp only [padded, hc, h0, hchunk, hpass, copyBuf_zero, step_ok_bind]
    rfl

theorem padded_prepend {β : Type} [Buf β] (h : buf.front ≠ 0 → buf.chunks ≠ []) (data : β)
    (hold : (Buf.bytes data).length ≤ buf.front ∨ Represents.OldFrontOk cfg buf.padded) :
    buf.padded.prepend cfg data = (buf.prepend cfg data).map padded := by
  unfold prepend
  simp only [Buf.remaining_eq]
  by_cases h0 : (Buf.bytes data).length = 0
  · rw [if_pos h0, if_pos h0]
    rfl
  rw [if_neg h0, if_neg h0]
  by_cases hle : (Buf.bytes data).length ≤ buf.front
  · have hle' : (Buf.bytes data).length ≤ buf.padded.front := hle
    rw [if_pos hle, if_pos hle']
    have hwrite := padded_modifyFrontChunk_of_ne (h (by omega))
    simp only [padded_front, padded_frontChunk, step_map_of_bind, apply_ite (Except.map padded), hwrite]
    rfl
  · have hle' : ¬(Buf.bytes data).length ≤ buf.padded.front := hle
    rw [if_neg hle, if_neg hle', padded_growAndCopyBuf h data _ (hold.resolve_left hle)]

end ReverseBuffer

end Bilrost
