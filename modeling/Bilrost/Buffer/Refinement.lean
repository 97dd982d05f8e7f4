import Bilrost.Buffer.ReverseBuffer

/-!
The prepend-only buffer refines a list of bytes. `Represents buf bytes` is the
documented representation invariant together with the bytes that the chunks
hold from the front index on; every operation keeps it, and everything that can
be read from the buffer is read from those bytes.
-/

namespace Bilrost

namespace BuildConfig

variable (cfg : BuildConfig)

@[simp] theorem debugAssert_true : cfg.debugAssert true = .ok () := by
  simp [debugAssert]

theorem add_of_lt {a b : Nat} (h : a + b < 2 ^ 64) : cfg.add a b = .ok (a + b) := if_pos h

theorem sub_of_le {a b : Nat} (h : b ≤ a) : cfg.sub a b = .ok (a - b) := if_pos h

end BuildConfig

@[simp] theorem boundsCheck_true : boundsCheck true = .ok () := rfl

@[simp] theorem step_ok_bind {α γ : Type} (a : α) (f : α → Step γ) :
    ((.ok a : Step α) >>= f) = f a := rfl

@[simp] theorem step_error_bind {α γ : Type} (e : BufferFailure) (f : α → Step γ) :
    ((.error e : Step α) >>= f) = .error e := rfl

section copying
variable {dest : List Cell} {start : Nat} {data : List UInt8}

theorem overwrite_length (h : start + data.length ≤ dest.length) :
    (overwrite dest start data).length = dest.length := by
  simp only [overwrite, List.length_append, List.length_take, List.length_map, List.length_drop]
  omega

@[simp] theorem overwrite_nil (dest : List Cell) : overwrite dest start [] = dest := by
  simp [overwrite]

theorem modifyHead_overwrite_nil (chunks : List (List Cell)) :
    chunks.modifyHead (overwrite · start []) = chunks := by
  cases chunks <;> simp

theorem drop_overwrite (h : start ≤ dest.length) :
    (overwrite dest start data).drop start = data.map some ++ dest.drop (start + data.length) := by
  have hlen : (dest.take start).length = start := by simp [h]
  rw [overwrite, List.append_assoc, List.drop_append, hlen, Nat.sub_self, List.drop_zero,
    List.drop_eq_nil_of_le hlen.le, List.nil_append]

theorem overwriteZip_eq (cells : List Cell) (h : data.length ≤ cells.length) :
    overwriteZip cells data = data.map some ++ cells.drop data.length := by
  induction data generalizing cells with
  | nil => cases cells <;> rfl
  | cons byte bytes ih =>
    cases cells with
    | nil => simp at h
    | cons cell cells => simp [overwriteZip, ih cells (by simpa using h)]

/-- Copying backwards comes to the same as copying forwards. -/
theorem selfCopy_eq {oldFront : Nat} (hdata : data.length ≤ oldFront)
    (hfront : oldFront ≤ dest.length) :
    selfCopy dest oldFront data = overwrite dest (oldFront - data.length) data := by
  have hlen : (dest.take oldFront).length = oldFront := by simp [hfront]
  rw [selfCopy, overwriteZip_eq _ (by simp [hfront, hdata]), List.reverse_append, List.length_reverse,
    List.drop_reverse, List.reverse_reverse, hlen, ← List.map_reverse, List.reverse_reverse,
    List.take_take, overwrite, Nat.sub_add_cancel hdata, Nat.min_eq_left (Nat.sub_le _ _)]

end copying

/-- The sizes of the chunks, the front chunk first. -/
def sizes (chunks : List (List Cell)) : List Nat := chunks.map List.length

@[simp] theorem sizes_nil : sizes [] = [] := rfl

@[simp] theorem sizes_cons (c : List Cell) (chunks : List (List Cell)) :
    sizes (c :: chunks) = c.length :: sizes chunks := rfl

theorem length_flatten_chunks (chunks : List (List Cell)) :
    chunks.flatten.length = (sizes chunks).sum := List.length_flatten

/-- The representation invariant: the front index is in the front chunk, or at
the end of the only chunk of an empty buffer that keeps it; no chunk has size
zero; and the capacity is the size of all chunks together. -/
structure Shape (sizes : List Nat) (front capacity : Nat) (keepBack : Bool) : Prop where
  front_in : ∀ size rest, sizes = size :: rest →
    front < size ∨ rest = [] ∧ keepBack = true ∧ front = size
  front_zero : sizes = [] → front = 0
  nonzero : 0 ∉ sizes
  capacity_eq : capacity = sizes.sum
  capacity_lt : capacity < 2 ^ 64
  kept : keepBack = true → sizes ≠ []

theorem Shape.front_le {ss : List Nat} {front capacity : Nat} {keepBack : Bool}
    (h : Shape ss front capacity keepBack) : front ≤ capacity := by
  rw [h.capacity_eq]
  cases ss with
  | nil => simp [h.front_zero rfl]
  | cons size rest =>
    rw [List.sum_cons]
    rcases h.front_in size rest rfl with hlt | ⟨-, -, heq⟩ <;> omega

/-- The documented invariant, and the bytes in use. -/
structure Represents (buf : ReverseBuffer) (bytes : List UInt8) : Prop where
  shape : Shape (sizes buf.chunks) buf.front buf.capacity buf.keepBack
  cells : buf.chunks.flatten.drop buf.front = bytes.map some

namespace Represents

variable {cfg : BuildConfig} {buf : ReverseBuffer} {bytes : List UInt8}

theorem length_eq (h : Represents buf bytes) : bytes.length = buf.capacity - buf.front := by
  have := congrArg List.length h.cells
  rwa [List.length_map, List.length_drop, length_flatten_chunks, ← h.shape.capacity_eq,
    eq_comm] at this

theorem front_le_chunk (h : Represents buf bytes) {c : List Cell} {rest : List (List Cell)}
    (hc : buf.chunks = c :: rest) : buf.front ≤ c.length := by
  rcases h.shape.front_in c.length (sizes rest) (by simp [hc]) with hlt | ⟨-, -, heq⟩ <;> omega

/-- With bytes in it, a buffer has its front index in the front chunk. -/
theorem front_lt_chunk (h : Represents buf bytes) (hne : bytes ≠ []) {c : List Cell}
    {rest : List (List Cell)} (hc : buf.chunks = c :: rest) : buf.front < c.length := by
  rcases h.shape.front_in c.length (sizes rest) (by simp [hc]) with hlt | ⟨hrest, -, heq⟩
  · exact hlt
  · have hlen := h.length_eq
    have hpos := List.length_pos_iff.mpr hne
    rw [h.shape.capacity_eq, hc, sizes_cons, hrest, List.sum_cons, List.sum_nil] at hlen
    omega

theorem chunks_ne_nil (h : Represents buf bytes) (hne : bytes ≠ []) : buf.chunks ≠ [] := by
  intro hnil
  have hcells := h.cells
  rw [hnil, List.flatten_nil, List.drop_nil] at hcells
  exact hne (List.map_eq_nil_iff.mp hcells.symm)

/-- The bytes, cut at the end of the front chunk. -/
theorem cells_cons (h : Represents buf bytes) {c : List Cell} {rest : List (List Cell)}
    (hc : buf.chunks = c :: rest) : c.drop buf.front ++ rest.flatten = bytes.map some := by
  rw [← h.cells, hc, List.flatten_cons, List.drop_append_of_le_length (h.front_le_chunk hc)]

theorem len_eq (h : Represents buf bytes) : buf.len cfg = .ok bytes.length := by
  have hfront : (!(buf.chunks.isEmpty && decide (0 < buf.front))) = true := by
    cases hc : buf.chunks with
    | nil => simp [h.shape.front_zero (by simp [hc])]
    | cons c rest => simp
  have hcap : (buf.chunks.isEmpty == (buf.capacity == 0)) = true := by
    cases hc : buf.chunks with
    | nil => simp [h.shape.capacity_eq, hc]
    | cons c rest =>
      have hnz : 0 ≠ c.length := fun h0 => h.shape.nonzero (by simp [hc, h0])
      have : buf.capacity ≠ 0 := by
        rw [h.shape.capacity_eq, hc, sizes_cons, List.sum_cons]
        omega
      simp [this]
  simp only [ReverseBuffer.len, hfront, hcap, BuildConfig.debugAssert_true, step_ok_bind]
  rw [cfg.sub_of_le h.shape.front_le, h.length_eq]

theorem slices_flatten (h : Represents buf bytes) : buf.slices.flatten = bytes.map some := by
  unfold ReverseBuffer.slices toVectorableSlices
  cases hc : buf.chunks with
  | nil => simpa [hc] using h.cells
  | cons c rest => exact h.cells_cons hc

/-- Writing bytes right before the front index. -/
theorem write_front (h : Represents buf bytes) {data : List UInt8}
    (hle : data.length ≤ buf.front) :
    sizes (buf.chunks.modifyHead (overwrite · (buf.front - data.length) data)) =
        sizes buf.chunks ∧
      (buf.chunks.modifyHead (overwrite · (buf.front - data.length) data)).flatten.drop
        (buf.front - data.length) = (data ++ bytes).map some := by
  cases hc : buf.chunks with
  | nil =>
    have hzero := h.shape.front_zero (by simp [hc])
    obtain rfl : data = [] := List.length_eq_zero_iff.mp (by omega)
    have := h.cells
    simp_all
  | cons c rest =>
    have hfront := h.front_le_chunk hc
    have hlen : (overwrite c (buf.front - data.length) data).length = c.length :=
      overwrite_length (by omega)
    refine ⟨by simp [hlen], ?_⟩
    rw [List.modifyHead_cons, List.flatten_cons, List.drop_append_of_le_length (by omega),
      drop_overwrite (by omega), Nat.sub_add_cancel hle, List.append_assoc, h.cells_cons hc,
      List.map_append]

/-- The buffer after bytes were written in place. -/
theorem prepend_in_place (h : Represents buf bytes) (data : List UInt8)
    (hle : data.length ≤ buf.front) :
    Represents
      { buf.modifyFrontChunk (overwrite · (buf.front - data.length) data) with
        front := buf.front - data.length } (data ++ bytes) := by
  obtain ⟨hsizes, hcells⟩ := h.write_front hle
  refine ⟨?_, hcells⟩
  simp only [ReverseBuffer.modifyFrontChunk, hsizes]
  refine { h.shape with front_in := fun size rest hs => ?_, front_zero := fun hs => ?_ }
  · rcases h.shape.front_in size rest hs with hlt | ⟨hrest, hkeep, heq⟩
    · left
      omega
    · rcases Nat.eq_zero_or_pos data.length with h0 | hpos
      · exact .inr ⟨hrest, hkeep, by omega⟩
      · have hsize : size ≠ 0 := fun h0 => h.shape.nonzero (by simp [hs, h0])
        left
        omega
  · have := h.shape.front_zero hs
    omega

/-- The buffer after the front chunk was filled up and another one put before
it that is in use from `newFront` on. -/
theorem push_chunk (h : Represents buf bytes) (dataFront dataBack : List UInt8)
    (newChunk : List Cell) (newFront : Nat) (hback : dataBack.length = buf.front)
    (hfront : newFront < newChunk.length) (hcells : newChunk.drop newFront = dataFront.map some)
    (hcap : buf.capacity + newChunk.length < 2 ^ 64) :
    Represents
      ⟨newChunk :: buf.chunks.modifyHead (overwrite · 0 dataBack), newFront,
        buf.capacity + newChunk.length, 0, false, buf.keepBack⟩
      (dataFront ++ dataBack ++ bytes) := by
  obtain ⟨hsizes, hold⟩ := h.write_front hback.le
  rw [hback, Nat.sub_self, List.drop_zero] at hold
  rw [hback, Nat.sub_self] at hsizes
  constructor
  · simp only [sizes_cons, hsizes]
    refine ⟨?_, by simp, ?_, ?_, hcap, by simp⟩
    · rintro size rest ⟨rfl, rfl⟩
      exact .inl hfront
    · simp only [List.mem_cons, not_or]
      exact ⟨by omega, h.shape.nonzero⟩
    · rw [List.sum_cons, h.shape.capacity_eq]
      omega
  · rw [List.flatten_cons, List.drop_append_of_le_length hfront.le, hcells, hold]
    simp

end Represents

/-- An operation that meets its specification leaves `bytes`, or fails because
memory ran out. -/
def Meets (result : Step ReverseBuffer) (bytes : List UInt8) : Prop :=
  match result with
  | .ok buf => Represents buf bytes
  | .error .allocation => True
  | .error .panic => False

section allocation
variable {cfg : BuildConfig} {buf : ReverseBuffer}

section
variable (write : List Cell → List Cell)

@[simp] theorem modifyFrontChunk_chunks :
    (buf.modifyFrontChunk write).chunks = buf.chunks.modifyHead write := rfl

@[simp] theorem modifyFrontChunk_front : (buf.modifyFrontChunk write).front = buf.front := rfl

@[simp] theorem modifyFrontChunk_capacity :
    (buf.modifyFrontChunk write).capacity = buf.capacity := rfl

@[simp] theorem modifyFrontChunk_keepBack :
    (buf.modifyFrontChunk write).keepBack = buf.keepBack := rfl

end

theorem allocateChunk_cases (cfg : BuildConfig) (allocated : Nat) {size : Nat}
    (hpos : 0 < size) :
    ReverseBuffer.allocateChunk cfg allocated size = .error .allocation ∨
      allocated + size < 2 ^ 64 ∧
        ReverseBuffer.allocateChunk cfg allocated size = .ok (List.replicate size none) := by
  simp only [ReverseBuffer.allocateChunk, hpos, decide_true, BuildConfig.debugAssert_true,
    step_ok_bind]
  by_cases hfits : size < 2 ^ 63 ∧ allocated + size < 2 ^ 64
  · exact .inr ⟨hfits.2, if_pos hfits⟩
  · exact .inl (if_neg hfits)

/-- A plan for more bytes than fit leads to a chunk that is large enough. -/
theorem newAllocationSize_planReservation (cfg : BuildConfig) {additional : Nat}
    (h : buf.front < additional) :
    ∃ size, (buf.planReservation additional).newAllocationSize cfg = .ok size ∧
      additional ≤ buf.front + size := by
  have hnot : ¬additional < buf.front := by omega
  rw [ReverseBuffer.planReservation, if_neg hnot]
  by_cases hmore : buf.plannedAllocation > additional - buf.front
  · rw [if_pos hmore]
    by_cases hexact : buf.plannedExact = true
    · have hne : (buf.plannedAllocation != 0) = true := by
        simp only [bne_iff_ne]
        omega
      refine ⟨buf.plannedAllocation, ?_, by omega⟩
      rw [ReverseBuffer.newAllocationSize, if_pos hexact, hne, cfg.debugAssert_true, step_ok_bind]
    · refine ⟨_, by rw [ReverseBuffer.newAllocationSize, if_neg hexact], ?_⟩
      have := le_max_right (max minChunkSize buf.capacity) buf.plannedAllocation
      omega
  · rw [if_neg hmore]
    refine ⟨_, by rw [ReverseBuffer.newAllocationSize, if_neg (by simp)], ?_⟩
    have := le_max_right (max minChunkSize buf.capacity) (additional - buf.front)
    simp only
    omega

@[simp] theorem planReservation_chunks (n : Nat) : (buf.planReservation n).chunks = buf.chunks := by
  unfold ReverseBuffer.planReservation
  grind

@[simp] theorem planReservation_front (n : Nat) : (buf.planReservation n).front = buf.front := by
  unfold ReverseBuffer.planReservation
  grind

@[simp] theorem planReservation_capacity (n : Nat) :
    (buf.planReservation n).capacity = buf.capacity := by
  unfold ReverseBuffer.planReservation
  grind

@[simp] theorem planReservation_keepBack (n : Nat) :
    (buf.planReservation n).keepBack = buf.keepBack := by
  unfold ReverseBuffer.planReservation
  grind

/-- Growing puts an unused chunk in front, if there is memory for it. -/
theorem grow_cases (buf : ReverseBuffer) {size : Nat}
    (hsize : buf.newAllocationSize cfg = .ok size) (hpos : 0 < size)
    (hfront : buf.front ≤ buf.capacity) :
    buf.grow cfg = .error .allocation ∨ buf.capacity + size < 2 ^ 64 ∧
      buf.grow cfg = .ok ⟨List.replicate size none :: buf.chunks, buf.front + size,
        buf.capacity + size, 0, false, buf.keepBack⟩ := by
  rcases allocateChunk_cases cfg buf.capacity hpos with hfail | ⟨hcap, hok⟩
  · left
    simp only [ReverseBuffer.grow, hsize, step_ok_bind, hfail, step_error_bind]
  · refine .inr ⟨hcap, ?_⟩
    simp only [ReverseBuffer.grow, hsize, step_ok_bind, hok]
    rw [cfg.add_of_lt (by omega), cfg.add_of_lt hcap]
    rfl

/-- Unless an exact plan is for nothing, growing makes room. -/
theorem newAllocationSize_pos (cfg : BuildConfig)
    (hplan : ¬(buf.plannedExact = true ∧ buf.plannedAllocation = 0)) :
    ∃ size, buf.newAllocationSize cfg = .ok size ∧ 0 < size := by
  unfold ReverseBuffer.newAllocationSize
  by_cases hexact : buf.plannedExact = true
  · have hne : buf.plannedAllocation ≠ 0 := fun h0 => hplan ⟨hexact, h0⟩
    refine ⟨buf.plannedAllocation, ?_, by omega⟩
    have hcond : (buf.plannedAllocation != 0) = true := by simpa using hne
    rw [if_pos hexact, hcond, cfg.debugAssert_true, step_ok_bind]
  · refine ⟨_, if_neg hexact, ?_⟩
    have : 0 < minChunkSize := by decide
    omega

end allocation

namespace Represents

variable {cfg : BuildConfig} {buf : ReverseBuffer} {bytes : List UInt8}

theorem front_le_frontChunk (h : Represents buf bytes) :
    buf.front ≤ buf.frontChunk.length := by
  unfold ReverseBuffer.frontChunk
  cases hc : buf.chunks with
  | nil => simp [h.shape.front_zero (by simp [hc])]
  | cons c rest => exact h.front_le_chunk hc

/-- The buffer after data was split between the front chunk and a new one. -/
theorem push_split (h : Represents buf bytes) (data : List UInt8) {size : Nat}
    (hlt : buf.front < data.length) (hroom : data.length ≤ buf.front + size)
    (hcap : buf.capacity + size < 2 ^ 64) :
    Represents
      ⟨overwrite (List.replicate size none) (buf.front + size - data.length)
          (data.take (data.length - buf.front)) ::
        buf.chunks.modifyHead (overwrite · 0 (data.drop (data.length - buf.front))),
        buf.front + size - data.length, buf.capacity + size, 0, false, buf.keepBack⟩
      (data ++ bytes) := by
  have hlen : (data.take (data.length - buf.front)).length = data.length - buf.front := by simp
  have hchunk : (overwrite (List.replicate size none) (buf.front + size - data.length)
      (data.take (data.length - buf.front))).length = size := by
    rw [overwrite_length, List.length_replicate]
    rw [hlen, List.length_replicate]
    omega
  have hpush := h.push_chunk (data.take (data.length - buf.front))
    (data.drop (data.length - buf.front))
    (overwrite (List.replicate size none) (buf.front + size - data.length)
      (data.take (data.length - buf.front)))
    (buf.front + size - data.length) (by rw [List.length_drop]; omega)
    (by rw [hchunk]; omega) ?_ (by rw [hchunk]; exact hcap)
  · rw [hchunk, List.take_append_drop] at hpush
    exact hpush
  · rw [drop_overwrite (by rw [List.length_replicate]; omega), hlen,
      List.drop_eq_nil_of_le (by rw [List.length_replicate]; omega), List.append_nil]

theorem growAndCopySlice (h : Represents buf bytes) {data : List UInt8}
    (hlt : buf.front < data.length) :
    Meets (buf.growAndCopySlice cfg data) (data ++ bytes) := by
  obtain ⟨size, hsize, hroom⟩ := newAllocationSize_planReservation cfg hlt
  have hpos : 0 < size := by omega
  have hfront := h.shape.front_le
  have hdone (hcap : buf.capacity + size < 2 ^ 64) :=
    h.push_split _ hlt hroom hcap
  unfold ReverseBuffer.growAndCopySlice
  simp only [planReservation_front]
  by_cases h0 : buf.front = 0
  · rw [if_pos h0]
    rcases grow_cases _ hsize hpos (by simpa using hfront) with hfail | ⟨hcap, hgrow⟩
    · simp only [hfail, step_error_bind, Meets]
    · simp only [planReservation_chunks, planReservation_front, planReservation_capacity,
        planReservation_keepBack] at hcap hgrow
      have hle : buf.front + size - data.length ≤ size := by omega
      simp only [hgrow, step_ok_bind, cfg.sub_of_le hroom, ReverseBuffer.frontChunk,
        List.headD_cons, List.length_replicate, hle, decide_true, boundsCheck_true,
        ReverseBuffer.modifyFrontChunk, List.modifyHead_cons, Meets]
      have hwhole := hdone hcap
      rw [h0] at hwhole ⊢
      simp only [Nat.sub_zero, List.take_length, List.drop_length,
        modifyHead_overwrite_nil] at hwhole
      exact hwhole
  · rw [if_neg h0]
    rcases grow_cases ((buf.planReservation data.length).modifyFrontChunk
      (overwrite · 0 (data.drop (data.length - buf.front)))) hsize hpos
      (by simpa using hfront) with hfail | ⟨hcap, hgrow⟩
    · simp only [hfail, step_error_bind, Meets]
    · simp only [modifyFrontChunk_chunks, modifyFrontChunk_front, modifyFrontChunk_capacity,
        modifyFrontChunk_keepBack, planReservation_chunks, planReservation_front,
        planReservation_capacity, planReservation_keepBack] at hcap hgrow
      have hle : buf.front + size - data.length ≤ size := by omega
      have hsum : (buf.front + size - data.length +
          (data.take (data.length - buf.front)).length == size) = true := by
        simp only [List.length_take, beq_iff_eq]
        omega
      simp only [hgrow, step_ok_bind, cfg.sub_of_le hroom, ReverseBuffer.frontChunk,
        List.headD_cons, List.length_replicate, hsum, hle, decide_true, boundsCheck_true,
        BuildConfig.debugAssert_true, Meets]
      exact hdone hcap

/-- The optimization writes the same bytes. -/
theorem modifyFrontChunk_selfCopy (h : Represents buf bytes) {data : List UInt8}
    (hle : data.length ≤ buf.front) :
    buf.modifyFrontChunk (selfCopy · buf.front data) =
      buf.modifyFrontChunk (overwrite · (buf.front - data.length) data) := by
  have hfront := h.front_le_frontChunk
  unfold ReverseBuffer.modifyFrontChunk
  unfold ReverseBuffer.frontChunk at hfront
  cases hc : buf.chunks with
  | nil => rfl
  | cons c rest =>
    rw [hc, List.headD_cons] at hfront
    simp only [List.modifyHead_cons, selfCopy_eq hle hfront]

/-- `prepend_slice`, with the optimization or without. -/
theorem prependSlice (h : Represents buf bytes) (data : List UInt8) :
    Meets (buf.prependSlice cfg data) (data ++ bytes) := by
  have hfront := h.front_le_frontChunk
  unfold ReverseBuffer.prependSlice
  by_cases hle : data.length ≤ buf.front
  · have hnew : buf.front - data.length ≤ buf.frontChunk.length := by omega
    rw [if_pos hle]
    simp only
    split
    · simp only [hfront, decide_true, boundsCheck_true, step_ok_bind, Meets]
      rw [h.modifyFrontChunk_selfCopy hle]
      exact h.prepend_in_place _ hle
    · simp only [hnew, decide_true, boundsCheck_true, step_ok_bind, Meets]
      exact h.prepend_in_place _ hle
  · rw [if_neg hle]
    exact h.growAndCopySlice (by omega)

theorem prependArray (h : Represents buf bytes) (data : List UInt8) :
    Meets (buf.prependArray cfg data) (data ++ bytes) := by
  have hfront := h.front_le_frontChunk
  unfold ReverseBuffer.prependArray
  by_cases hle : data.length ≤ buf.front
  · have hnew : buf.front - data.length ≤ buf.frontChunk.length := by omega
    rw [if_pos hle]
    simp only [hnew, decide_true, boundsCheck_true, step_ok_bind, Meets]
    exact h.prepend_in_place _ hle
  · rw [if_neg hle]
    exact h.growAndCopySlice (by omega)

theorem prependU8 (h : Represents buf bytes) (byte : UInt8)
    (hplan : ¬(buf.front = 0 ∧ buf.plannedExact = true ∧ buf.plannedAllocation = 0)) :
    Meets (buf.prependU8 cfg byte) (byte :: bytes) := by
  unfold ReverseBuffer.prependU8
  by_cases h0 : buf.front = 0
  · obtain ⟨size, hsize, hpos⟩ := newAllocationSize_pos cfg fun hp => hplan ⟨h0, hp⟩
    rw [if_pos h0]
    rcases grow_cases _ hsize hpos h.shape.front_le with hfail | ⟨hcap, hgrow⟩
    · simp only [hfail, step_error_bind, Meets]
    · have hdone := h.push_split [byte]
        (by rw [List.length_singleton]; omega) (by rw [List.length_singleton]; omega) hcap
      have hlt : buf.front + size - 1 < size := by omega
      simp only [hgrow, step_ok_bind, cfg.sub_of_le (show 1 ≤ buf.front + size by omega),
        ReverseBuffer.frontChunk, List.headD_cons, List.length_replicate, hlt, decide_true,
        boundsCheck_true, Meets]
      simp only [h0, List.length_singleton, Nat.sub_zero, List.take_of_length_le,
        Nat.le_refl, List.drop_of_length_le, modifyHead_overwrite_nil] at hdone ⊢
      exact hdone
  · rw [if_neg h0]
    have hle := h.front_le_frontChunk
    have hlt : buf.front - 1 < buf.frontChunk.length := by omega
    simp only [step_ok_bind, cfg.sub_of_le (show 1 ≤ buf.front by omega), hlt, decide_true,
      boundsCheck_true, Meets]
    exact h.prepend_in_place [byte] (by rw [List.length_singleton]; omega)

section buf
variable {β : Type} [Buf β]

theorem copyBuf_eq (cfg : BuildConfig) (data : β) (dest : List Cell) (start : Nat) {size : Nat}
    (h : size ≤ (Buf.bytes data).length) :
    ∃ data', ReverseBuffer.copyBuf cfg data dest start size =
        .ok (overwrite dest start ((Buf.bytes data).take size), data') ∧
      Buf.bytes data' = (Buf.bytes data).drop size := by
  obtain ⟨hbytes, hleft⟩ := Buf.copyOut_spec _ h
  have hrem : decide (Buf.remaining data ≥ size) = true := by
    simpa [Buf.remaining_eq] using h
  refine ⟨(Buf.copyOut size data).2, ?_, hleft⟩
  simp only [ReverseBuffer.copyBuf, hrem, cfg.debugAssert_true, step_ok_bind, hbytes]

/-- The condition under which the old front chunk passes its assertion. -/
def OldFrontOk (cfg : BuildConfig) (buf : ReverseBuffer) : Prop :=
  cfg.debugAssertions = true → ∀ c ∈ buf.chunks.head?, buf.front < c.length

omit [Buf β] in
theorem modifyHead_frontChunk (write : List Cell → List Cell) :
    (buf.chunks.modifyHead fun _ => write buf.frontChunk) = buf.chunks.modifyHead write := by
  unfold ReverseBuffer.frontChunk
  cases buf.chunks <;> rfl

theorem growAndCopyBuf (h : Represents buf bytes) {data : β}
    (hlt : buf.front < (Buf.bytes data).length) (hold : OldFrontOk cfg buf) :
    Meets (buf.growAndCopyBuf cfg data (Buf.bytes data).length) (Buf.bytes data ++ bytes) := by
  obtain ⟨size, hsize, hroom⟩ := newAllocationSize_planReservation cfg hlt
  have hpos : 0 < size := by omega
  have hfront := h.shape.front_le
  unfold ReverseBuffer.growAndCopyBuf
  simp only [hsize, step_ok_bind, planReservation_capacity, planReservation_front,
    planReservation_chunks, planReservation_keepBack]
  rcases allocateChunk_cases cfg buf.capacity hpos with hfail | ⟨hcap, hok⟩
  · simp only [hfail, step_error_bind, Meets]
  · have hlt' : size + buf.front - (Buf.bytes data).length < size := by omega
    have hrest : size - (size + buf.front - (Buf.bytes data).length) =
        (Buf.bytes data).length - buf.front := by omega
    have hasrt : cfg.debugAssert (buf.chunks.head?.all fun c => buf.front < c.length) = .ok () := by
      by_cases hdebug : cfg.debugAssertions = true
      · have hall : (buf.chunks.head?.all fun c => decide (buf.front < c.length)) = true := by
          rw [Option.all_eq_true]
          intro c hc
          simpa using hold hdebug c hc
        rw [hall, cfg.debugAssert_true]
      · simp [BuildConfig.debugAssert, hdebug]
    -- the first copy takes what does not fit in the old front chunk, the second the rest
    obtain ⟨data₁, hcopy₁, hdata₁⟩ := copyBuf_eq cfg data
      (List.replicate size none) (size + buf.front - (Buf.bytes data).length)
      (show (Buf.bytes data).length - buf.front ≤ _ by omega)
    obtain ⟨data₂, hcopy₂, hdata₂⟩ := copyBuf_eq cfg data₁ buf.frontChunk 0
      (show buf.front ≤ _ by rw [hdata₁, List.length_drop]; omega)
    have hnone : (Buf.remaining data₂ == 0) = true := by
      simp only [Buf.remaining_eq, hdata₂, hdata₁, List.length_drop, beq_iff_eq]
      omega
    have hlast : (Buf.bytes data₁).take buf.front =
        (Buf.bytes data).drop ((Buf.bytes data).length - buf.front) := by
      rw [hdata₁, List.take_of_length_le (by rw [List.length_drop]; omega)]
    have hfrontChunk : (buf.planReservation (Buf.bytes data).length).frontChunk =
        buf.frontChunk := by
      simp [ReverseBuffer.frontChunk]
    simp only [hok, step_ok_bind, cfg.add_of_lt (show size + buf.front < 2 ^ 64 by omega),
      cfg.sub_of_le (show (Buf.bytes data).length ≤ size + buf.front by omega),
      List.length_replicate, hlt', decide_true, cfg.debugAssert_true, hrest, hcopy₁, hasrt,
      hfrontChunk, hcopy₂, hnone, cfg.add_of_lt hcap, Meets, hlast]
    have hmod : (buf.chunks.modifyHead fun _ => overwrite buf.frontChunk 0
        ((Buf.bytes data).drop ((Buf.bytes data).length - buf.front))) = _ :=
      modifyHead_frontChunk (overwrite · 0 _)
    rw [Nat.add_comm size buf.front, hmod]
    exact h.push_split _ hlt hroom hcap

/-- `prepend`, with the optimization or without. It trips over an assertion when
an empty buffer has kept its chunk and the data does not fit in there. -/
theorem prepend (h : Represents buf bytes) (data : β)
    (hold : (Buf.bytes data).length ≤ buf.front ∨ OldFrontOk cfg buf) :
    Meets (buf.prepend cfg data) (Buf.bytes data ++ bytes) := by
  have hfront := h.front_le_frontChunk
  unfold ReverseBuffer.prepend
  simp only [Buf.remaining_eq]
  by_cases h0 : (Buf.bytes data).length = 0
  · rw [if_pos h0, List.length_eq_zero_iff.mp h0]
    exact h
  rw [if_neg h0]
  by_cases hle : (Buf.bytes data).length ≤ buf.front
  · rw [if_pos hle]
    simp only [hfront, decide_true, boundsCheck_true, step_ok_bind]
    split
    · have hcopy := (Buf.copyOut_spec _ (le_refl (Buf.bytes data).length)).1
      rw [List.take_length] at hcopy
      simp only [hcopy, Meets]
      rw [h.modifyFrontChunk_selfCopy hle]
      exact h.prepend_in_place _ hle
    · obtain ⟨data', hcopy, hdata'⟩ := copyBuf_eq cfg data buf.frontChunk
        (buf.front - (Buf.bytes data).length) (le_refl (Buf.bytes data).length)
      have hnone : ((Buf.bytes data').length == 0) = true := by simp [hdata']
      simp only [hcopy, step_ok_bind, hnone, cfg.debugAssert_true, List.take_length, Meets]
      have hsame : (buf.modifyFrontChunk fun _ => overwrite buf.frontChunk
          (buf.front - (Buf.bytes data).length) (Buf.bytes data)) =
          buf.modifyFrontChunk
            (overwrite · (buf.front - (Buf.bytes data).length) (Buf.bytes data)) := by
        rw [ReverseBuffer.modifyFrontChunk, modifyHead_frontChunk (overwrite ·
          (buf.front - (Buf.bytes data).length) (Buf.bytes data))]
        rfl
      rw [hsame]
      exact h.prepend_in_place _ hle
  · rw [if_neg hle]
    exact h.growAndCopyBuf (by omega) (hold.resolve_left hle)

end buf

omit buf bytes in
theorem represents_new : Represents .new [] :=
  ⟨⟨by simp [ReverseBuffer.new], fun _ => rfl, by simp [ReverseBuffer.new], rfl, by decide,
    by simp [ReverseBuffer.new]⟩, rfl⟩

theorem clear (h : Represents buf bytes) : Meets buf.clear [] := by
  unfold ReverseBuffer.clear
  by_cases hkeep : buf.keepBack = true
  · rw [if_pos hkeep]
    have hne : buf.chunks ≠ [] := fun hnil => h.shape.kept hkeep (by simp [hnil])
    have hback := List.getLast?_eq_some_getLast hne
    have hmem := List.getLast_mem hne
    generalize buf.chunks.getLast hne = back at hback hmem
    have hpos : back.length ≠ 0 := fun h0 => h.shape.nonzero (List.mem_map.mpr ⟨back, hmem, h0⟩)
    have hle : back.length ≤ buf.capacity := by
      rw [h.shape.capacity_eq]
      exact List.le_sum_of_mem (List.mem_map.mpr ⟨back, hmem, rfl⟩)
    have hlt := h.shape.capacity_lt
    simp only [hback, Meets]
    refine ⟨⟨?_, by simp, by simpa using hpos.symm, by simp, hle.trans_lt hlt, by simp⟩, by simp⟩
    rintro size rest ⟨rfl, rfl⟩
    exact .inr ⟨rfl, hkeep, rfl⟩
  · rw [if_neg hkeep]
    exact represents_new

theorem planReservation (h : Represents buf bytes) (additional : Nat) :
    Represents (buf.planReservation additional) bytes :=
  ⟨by simpa using h.shape, by simpa using h.cells⟩

/-- Planning an exact size is safe where the sum does not overflow, and without
overflow checks in any case. -/
theorem planReservationExact (h : Represents buf bytes) (additional : Nat)
    (hsum : cfg.debugAssertions = true → buf.capacity + (additional - buf.front) < 2 ^ 64) :
    Meets (buf.planReservationExact cfg additional) bytes := by
  have hrep (n : Nat) :
      Represents { buf with plannedAllocation := n, plannedExact := true } bytes :=
    ⟨h.shape, h.cells⟩
  unfold ReverseBuffer.planReservationExact
  by_cases hlt : additional < buf.front
  · rw [if_pos hlt]
    exact h
  · rw [if_neg hlt]
    by_cases hfits : buf.capacity + (additional - buf.front) < 2 ^ 64
    · simp only [cfg.add_of_lt hfits, step_ok_bind]
      exact hrep _
    · have hdebug : ¬cfg.debugAssertions = true := fun hd => hfits (hsum hd)
      have hwrap : cfg.add buf.capacity (additional - buf.front) =
          .ok ((buf.capacity + (additional - buf.front)) % 2 ^ 64) := by
        rw [BuildConfig.add, if_neg hfits, if_neg hdebug]
      simp only [hwrap, step_ok_bind]
      exact hrep _

/-- The loop of `advance` drops chunks until the front index is in range. -/
theorem dropChunks (chunks : List (List Cell)) (hnonzero : 0 ∉ sizes chunks)
    (hcap : buf.capacity = (sizes chunks).sum) (hlt : buf.capacity < 2 ^ 64)
    (hfront : buf.front ≤ buf.capacity) (hkeep : buf.keepBack = true → chunks ≠ [])
    (hcells : chunks.flatten.drop buf.front = bytes.map some) :
    ∃ buf', buf.dropChunks cfg chunks = .ok buf' ∧ Represents buf' bytes := by
  induction chunks generalizing buf with
  | nil =>
    have h0 : buf.front = 0 := by
      rw [hcap] at hfront
      simpa using hfront
    refine ⟨_, rfl, ⟨by simp, fun _ => h0, by simp, by simpa using hcap, hlt, ?_⟩, hcells⟩
    exact fun hk => absurd rfl (hkeep hk)
  | cons c rest ih =>
    rw [sizes_cons, List.sum_cons] at hcap
    have hc : 0 < c.length := Nat.pos_of_ne_zero fun h0 => hnonzero (by simp [h0])
    rw [ReverseBuffer.dropChunks]
    by_cases hin : buf.front < c.length
    · rw [if_pos hin]
      refine ⟨_, rfl, ⟨?_, by simp, hnonzero, by simpa using hcap, hlt, by simp⟩, hcells⟩
      rintro size sizes' ⟨rfl, rfl⟩
      exact .inl hin
    rw [if_neg hin]
    by_cases hlast : (buf.keepBack && rest.isEmpty) = true
    · -- the last chunk is kept, used up to its end
      obtain ⟨hk, hrest⟩ : buf.keepBack = true ∧ rest = [] := by simpa using hlast
      subst hrest
      have heq : buf.capacity = buf.front := by
        rw [hcap] at hfront ⊢
        simp only [sizes_nil, List.sum_nil, Nat.add_zero] at hfront ⊢
        omega
      rw [if_pos hlast, show (buf.capacity == buf.front) = true by simpa using heq,
        cfg.debugAssert_true, step_ok_bind]
      refine ⟨_, rfl, ⟨?_, by simp, hnonzero, by simpa using hcap, hlt, by simp⟩, hcells⟩
      rintro size sizes' ⟨rfl, rfl⟩
      exact .inr ⟨rfl, hk, heq.symm.trans (by simpa using hcap)⟩
    · rw [if_neg hlast, cfg.sub_of_le (by omega), step_ok_bind]
      refine ih (fun h0 => hnonzero (List.mem_cons_of_mem _ h0)) ?_ ?_ ?_ ?_ ?_
      · simp only
        omega
      · exact (Nat.sub_le _ _).trans_lt hlt
      · simp only
        omega
      · rintro hk rfl
        exact hlast (by simpa using hk)
      · rw [← hcells, List.flatten_cons, List.drop_append,
          List.drop_eq_nil_of_le (Nat.le_of_not_lt hin), List.nil_append]

theorem advance (cfg : BuildConfig) (h : Represents buf bytes) {cnt : Nat}
    (hcnt : cnt ≤ bytes.length) :
    ∃ buf', buf.advance cfg cnt = .ok buf' ∧ Represents buf' (bytes.drop cnt) := by
  unfold ReverseBuffer.advance
  by_cases h0 : cnt = 0
  · rw [if_pos h0, h0]
    exact ⟨buf, rfl, h⟩
  · have hlen := h.length_eq
    have hlt := h.shape.capacity_lt
    have hfront := h.shape.front_le
    rw [if_neg h0, h.len_eq, step_ok_bind, if_neg (Nat.not_lt.mpr hcnt),
      cfg.add_of_lt (by omega), step_ok_bind]
    refine dropChunks buf.chunks h.shape.nonzero h.shape.capacity_eq h.shape.capacity_lt ?_ ?_ ?_
    · simp only
      omega
    · exact fun hk hnil => h.shape.kept hk (by simp [hnil])
    · rw [← List.drop_drop, h.cells, List.map_drop]

/-- Reading by `chunk` and `advance` yields the bytes. -/
theorem drain (h : Represents buf bytes) {rounds : Nat} (hrounds : bytes.length ≤ rounds) :
    buf.drain cfg rounds = .ok (bytes.map some) := by
  induction rounds generalizing buf bytes with
  | zero =>
    obtain rfl : bytes = [] := List.length_eq_zero_iff.mp (by omega)
    rfl
  | succ rounds ih =>
    rw [ReverseBuffer.drain, h.len_eq, step_ok_bind]
    by_cases h0 : bytes = []
    · simp [h0]
    · rw [if_neg (by simpa using h0)]
      obtain ⟨c, rest, hc⟩ := List.exists_cons_of_ne_nil (h.chunks_ne_nil h0)
      have hin := h.front_lt_chunk h0 hc
      have hcells := h.cells_cons hc
      have hlen := congrArg List.length hcells
      simp only [List.length_append, List.length_map, List.length_drop] at hlen
      obtain ⟨buf', hadv, h'⟩ := h.advance cfg
        (show c.length - buf.front ≤ _ by omega)
      have hchunk : buf.chunk cfg = .ok (c.drop buf.front) := by
        simp [ReverseBuffer.chunk, hc, hin]
      simp only [hchunk, step_ok_bind, List.length_drop, hadv,
        ih h' (by rw [List.length_drop]; omega)]
      have hrest : rest.flatten = (bytes.drop (c.length - buf.front)).map some := by
        rw [List.map_drop, ← hcells, List.drop_left' (by simp)]
      rw [← hrest, hcells]

theorem intoVec (h : Represents buf bytes) : buf.intoVec cfg = .ok (bytes.map some) := by
  have hdrain : (buf.len cfg >>= fun n => buf.drain cfg n) = .ok (bytes.map some) := by
    rw [h.len_eq, step_ok_bind, h.drain le_rfl]
  unfold ReverseBuffer.intoVec
  split
  · next whole hwhole =>
    by_cases h0 : buf.front = 0
    · rw [if_pos h0]
      have := h.cells
      rw [hwhole, h0, List.flatten_singleton, List.drop_zero] at this
      rw [this]
    · rw [if_neg h0]
      exact hdrain
  · exact hdrain

end Represents

namespace ReverseBufferReader

variable {cfg : BuildConfig} {reader : ReverseBufferReader} {bytes : List UInt8}

/-- A reader over chunks, and what is left to read. It never keeps a chunk that
it has read to the end, unless there is nothing left from the start. -/
structure Reads (reader : ReverseBufferReader) (bytes : List UInt8) : Prop where
  front_in : bytes ≠ [] → ∀ c rest, reader.chunks = c :: rest → reader.front < c.length
  capacity_eq : reader.capacity = (sizes reader.chunks).sum
  capacity_lt : reader.capacity < 2 ^ 64
  front_le : reader.front ≤ reader.capacity
  cells : reader.chunks.flatten.drop reader.front = bytes.map some

namespace Reads

theorem remaining_eq (h : Reads reader bytes) : reader.remaining cfg = .ok bytes.length := by
  have hlen := congrArg List.length h.cells
  rw [List.length_drop, length_flatten_chunks, ← h.capacity_eq, List.length_map] at hlen
  rw [ReverseBufferReader.remaining, cfg.sub_of_le h.front_le, hlen]

theorem dropChunks (chunks : List (List Cell)) {front capacity : Nat}
    (hcap : capacity = (sizes chunks).sum) (hlt : capacity < 2 ^ 64) (hfront : front ≤ capacity)
    (hcells : chunks.flatten.drop front = bytes.map some) :
    ∃ reader', ReverseBufferReader.dropChunks cfg front capacity chunks = .ok reader' ∧
      Reads reader' bytes := by
  induction chunks generalizing front capacity with
  | nil => exact ⟨_, rfl, by simp, hcap, hlt, hfront, hcells⟩
  | cons c rest ih =>
    rw [sizes_cons, List.sum_cons] at hcap
    rw [ReverseBufferReader.dropChunks]
    by_cases hin : front < c.length
    · rw [if_pos hin]
      refine ⟨_, rfl, ?_, hcap, hlt, hfront, hcells⟩
      rintro - c' rest' ⟨rfl, rfl⟩
      exact hin
    · rw [if_neg hin, cfg.sub_of_le (by omega), step_ok_bind]
      refine ih (by omega) (by omega) (by omega) ?_
      rw [← hcells, List.flatten_cons, List.drop_append,
        List.drop_eq_nil_of_le (Nat.le_of_not_lt hin), List.nil_append]

theorem advance (cfg : BuildConfig) (h : Reads reader bytes) {cnt : Nat}
    (hcnt : cnt ≤ bytes.length) :
    ∃ reader', reader.advance cfg cnt = .ok reader' ∧ Reads reader' (bytes.drop cnt) := by
  unfold ReverseBufferReader.advance
  by_cases h0 : cnt = 0
  · rw [if_pos h0, h0]
    exact ⟨reader, rfl, h⟩
  · have hlen := congrArg List.length h.cells
    rw [List.length_drop, length_flatten_chunks, ← h.capacity_eq, List.length_map] at hlen
    have hlt := h.capacity_lt
    have hfront := h.front_le
    rw [if_neg h0, h.remaining_eq, step_ok_bind, if_neg (Nat.not_lt.mpr hcnt),
      cfg.add_of_lt (by omega), step_ok_bind]
    refine dropChunks reader.chunks h.capacity_eq h.capacity_lt (by omega) ?_
    rw [← List.drop_drop, h.cells, List.map_drop]

/-- A reader yields what is left to read. -/
theorem drain (h : Reads reader bytes) {rounds : Nat} (hrounds : bytes.length ≤ rounds) :
    reader.drain cfg rounds = .ok (bytes.map some) := by
  induction rounds generalizing reader bytes with
  | zero =>
    obtain rfl : bytes = [] := List.length_eq_zero_iff.mp (by omega)
    rfl
  | succ rounds ih =>
    rw [ReverseBufferReader.drain, h.remaining_eq, step_ok_bind]
    by_cases h0 : bytes = []
    · simp [h0]
    · rw [if_neg (by simpa using h0)]
      have hne : reader.chunks ≠ [] := by
        intro hnil
        have hcells := h.cells
        rw [hnil, List.flatten_nil, List.drop_nil] at hcells
        exact h0 (List.map_eq_nil_iff.mp hcells.symm)
      obtain ⟨c, rest, hc⟩ := List.exists_cons_of_ne_nil hne
      have hin := h.front_in h0 c rest hc
      have hcells := h.cells
      rw [hc, List.flatten_cons, List.drop_append_of_le_length hin.le] at hcells
      have hlen := congrArg List.length hcells
      simp only [List.length_append, List.length_map, List.length_drop] at hlen
      obtain ⟨reader', hadv, h'⟩ := h.advance cfg
        (show c.length - reader.front ≤ _ by omega)
      have hchunk : reader.chunk cfg = .ok (c.drop reader.front) := by
        simp [ReverseBufferReader.chunk, hc, hin]
      simp only [hchunk, step_ok_bind, List.length_drop, hadv,
        ih h' (by rw [List.length_drop]; omega)]
      have hrest : rest.flatten = (bytes.drop (c.length - reader.front)).map some := by
        rw [List.map_drop, ← hcells, List.drop_left' (by simp)]
      rw [← hrest, hcells]

end Reads

end ReverseBufferReader

theorem Represents.bufReader {buf : ReverseBuffer} {bytes : List UInt8}
    (h : Represents buf bytes) : buf.bufReader.Reads bytes :=
  ⟨fun hne _ _ hc => h.front_lt_chunk hne hc, h.shape.capacity_eq, h.shape.capacity_lt,
    h.shape.front_le, h.cells⟩

end Bilrost
