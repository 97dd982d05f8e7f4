import Bilrost.Buffer.Refinement

/-!
Runs of the prepend-only buffer. A run starts from one of the constructors and
goes through any operations. Two steps break the refinement. Planning an exact
reservation adds sizes without a check, which panics or wraps; after a wrap to
zero the next byte is put into a chunk of size zero. And where debug assertions
are on, prepending a `Buf` to an empty buffer that keeps its chunk trips over an
assertion that forgets this case of the invariant. No other step does.
-/

namespace Bilrost

inductive BufferOp : Type 1 where
  | prepend {β : Type} [Buf β] (data : β)
  | prependSlice (data : List UInt8)
  | prependArray (data : List UInt8)
  | prependU8 (byte : UInt8)
  | advance (cnt : Nat)
  | clear
  | planReservation (additional : Nat)
  | planReservationExact (additional : Nat)

namespace BufferOp

def run (cfg : BuildConfig) (buf : ReverseBuffer) : BufferOp → Step ReverseBuffer
  | prepend data => buf.prepend cfg data
  | prependSlice data => buf.prependSlice cfg data
  | prependArray data => buf.prependArray cfg data
  | prependU8 byte => buf.prependU8 cfg byte
  | advance cnt => buf.advance cfg cnt
  | clear => buf.clear
  | planReservation additional => .ok (buf.planReservation additional)
  | planReservationExact additional => buf.planReservationExact cfg additional

/-- What an operation is meant to do to the bytes. -/
def apply (bytes : List UInt8) : BufferOp → List UInt8
  | prepend data => Buf.bytes data ++ bytes
  | prependSlice data => data ++ bytes
  | prependArray data => data ++ bytes
  | prependU8 byte => byte :: bytes
  | advance cnt => bytes.drop cnt
  | clear => []
  | planReservation _ => bytes
  | planReservationExact _ => bytes

/-- The calls that are allowed. -/
def Admissible (bytes : List UInt8) : BufferOp → Prop
  | advance cnt => cnt ≤ bytes.length
  | planReservationExact additional => 0 < additional
  | _ => True

/-- No more bytes are dropped than there are. -/
def InBounds (bytes : List UInt8) : BufferOp → Prop
  | advance cnt => cnt ≤ bytes.length
  | _ => True

theorem Admissible.inBounds {bytes : List UInt8} {op : BufferOp} (h : op.Admissible bytes) :
    op.InBounds bytes := by
  cases op with
  | advance cnt => exact h
  | _ => trivial

/-- The steps that go well. Overflow checks come with debug assertions, so the
sum of an exact plan must fit where those are on; without them it is the use of
an exact plan of zero that goes wrong. -/
def Safe (cfg : BuildConfig) (buf : ReverseBuffer) : BufferOp → Prop
  | prepend data => (Buf.bytes data).length ≤ buf.front ∨ Represents.OldFrontOk cfg buf
  | prependU8 _ => ¬(buf.front = 0 ∧ buf.plannedExact = true ∧ buf.plannedAllocation = 0)
  | planReservationExact additional =>
      cfg.debugAssertions = true → buf.capacity + (additional - buf.front) < 2 ^ 64
  | _ => True

end BufferOp

variable {cfg : BuildConfig} {buf : ReverseBuffer} {bytes : List UInt8}

theorem Represents.run (h : Represents buf bytes) {op : BufferOp} (hadm : op.InBounds bytes)
    (hsafe : op.Safe cfg buf) : Meets (op.run cfg buf) (op.apply bytes) := by
  cases op with
  | prepend data => exact h.prepend data hsafe
  | prependSlice data => exact h.prependSlice data
  | prependArray data => exact h.prependArray data
  | prependU8 byte => exact h.prependU8 byte hsafe
  | advance cnt =>
    obtain ⟨buf', hadv, h'⟩ := h.advance cfg hadm
    simp only [BufferOp.run, hadv, Meets]
    exact h'
  | clear => exact h.clear
  | planReservation additional => exact h.planReservation additional
  | planReservationExact additional => exact h.planReservationExact additional hsafe

section failing
variable {β : Type} [Buf β]

/-- The assertion in `grow_and_copy_buf` fails when the front index is at the
end of the chunk that was kept. -/
theorem growAndCopyBuf_not_ok (hfront : buf.front ≤ buf.capacity) {data : β}
    (hlt : buf.front < (Buf.bytes data).length) (hold : ¬Represents.OldFrontOk cfg buf) :
    ∀ buf', buf.growAndCopyBuf cfg data (Buf.bytes data).length ≠ .ok buf' := by
  intro buf'
  obtain ⟨hdebug, c, hc, hge⟩ : cfg.debugAssertions = true ∧ ∃ c ∈ buf.chunks.head?,
      c.length ≤ buf.front := by
    simpa [Represents.OldFrontOk] using hold
  obtain ⟨size, hsize, hroom⟩ := newAllocationSize_planReservation cfg hlt
  have hasrt : cfg.debugAssert (buf.chunks.head?.all fun c => buf.front < c.length) =
      .error .panic := by
    obtain hc : buf.chunks.head? = some c := hc
    simp [BuildConfig.debugAssert, hdebug, hc, Nat.not_lt.mpr hge]
  unfold ReverseBuffer.growAndCopyBuf
  simp only [hsize, step_ok_bind, planReservation_capacity, planReservation_front,
    planReservation_chunks]
  rcases allocateChunk_cases cfg buf.capacity (show 0 < size by omega) with hfail | ⟨hcap, hok⟩
  · simp [hfail]
  · have hlt' : size + buf.front - (Buf.bytes data).length < size := by omega
    obtain ⟨data₁, hcopy₁, -⟩ := Represents.copyBuf_eq cfg data
      (List.replicate size none) (size + buf.front - (Buf.bytes data).length)
      (show size - (size + buf.front - (Buf.bytes data).length) ≤ _ by omega)
    simp [hok, cfg.add_of_lt (show size + buf.front < 2 ^ 64 by omega),
      cfg.sub_of_le (show (Buf.bytes data).length ≤ size + buf.front by omega), hlt', hcopy₁, hasrt]

/-- A chunk of size zero has no place for a byte. -/
theorem prependU8_not_ok (hcap : buf.capacity < 2 ^ 64) (byte : UInt8) (h0 : buf.front = 0)
    (hexact : buf.plannedExact = true) (hplan : buf.plannedAllocation = 0) :
    ∀ buf', buf.prependU8 cfg byte ≠ .ok buf' := by
  intro buf'
  have hsize : buf.newAllocationSize cfg = (do cfg.debugAssert false; .ok 0) := by
    rw [ReverseBuffer.newAllocationSize, if_pos hexact, hplan]
    rfl
  by_cases hdebug : cfg.debugAssertions = true
  · have hasrt : cfg.debugAssert false = .error .panic := by
      simp [BuildConfig.debugAssert, hdebug]
    simp [ReverseBuffer.prependU8, h0, ReverseBuffer.grow, hsize, hasrt]
  · have hasrt : cfg.debugAssert false = .ok () := by
      simp [BuildConfig.debugAssert, hdebug]
    have halloc : ReverseBuffer.allocateChunk cfg buf.capacity 0 = .ok [] := by
      have hfits : 0 < 2 ^ 63 ∧ buf.capacity + 0 < 2 ^ 64 := ⟨by decide, hcap⟩
      simp only [ReverseBuffer.allocateChunk, Nat.lt_irrefl, decide_false, hasrt, step_ok_bind,
        hfits, and_self, if_true, List.replicate_zero]
    have hgrow : buf.grow cfg = .ok ⟨[] :: buf.chunks, 0, buf.capacity, 0, false, buf.keepBack⟩ := by
      simp only [ReverseBuffer.grow, hsize, hasrt, halloc, step_ok_bind, h0,
        cfg.add_of_lt (show 0 + 0 < 2 ^ 64 by decide), cfg.add_of_lt (show buf.capacity + 0 < 2 ^ 64 from hcap)]
      rfl
    -- the front index wraps around, far beyond the empty chunk
    have hsub : cfg.sub 0 1 = .ok (0 + 2 ^ 64 - 1) := by
      rw [BuildConfig.sub, if_neg (by omega), if_neg hdebug]
    simp only [ReverseBuffer.prependU8, h0, if_true, hgrow, step_ok_bind, hsub,
      ReverseBuffer.frontChunk, List.headD_cons, List.length_nil, Nat.not_lt_zero, decide_false]
    rintro ⟨⟩

end failing

/-- A step that does not meet the condition does not return. -/
theorem safe_of_run_ok (hfront : buf.front ≤ buf.capacity) (hcap : buf.capacity < 2 ^ 64)
    {op : BufferOp} {buf' : ReverseBuffer} (hrun : op.run cfg buf = .ok buf') : op.Safe cfg buf := by
  cases op with
  | prepend data =>
    by_contra hunsafe
    obtain ⟨hgt, hold⟩ := not_or.mp hunsafe
    have hne : (Buf.bytes data).length ≠ 0 := by omega
    simp only [BufferOp.run, ReverseBuffer.prepend, Buf.remaining_eq, hne, hgt, ↓reduceIte] at hrun
    exact growAndCopyBuf_not_ok hfront (by omega) hold buf' hrun
  | prependU8 byte =>
    rintro ⟨h0, hexact, hplan⟩
    exact prependU8_not_ok hcap byte h0 hexact hplan buf' hrun
  | planReservationExact additional =>
    intro hdebug
    by_contra hsum
    have hge : ¬additional < buf.front := by
      intro hlt
      rw [Nat.sub_eq_zero_of_le hlt.le] at hsum
      exact hsum hcap
    have hadd : cfg.add buf.capacity (additional - buf.front) = .error .panic := by
      rw [BuildConfig.add, if_neg hsum, if_pos hdebug]
    simp [BufferOp.run, ReverseBuffer.planReservationExact, hge, hadd] at hrun
  | _ => trivial

/-- The constructors, and the bytes they start with. -/
inductive BufferStart (cfg : BuildConfig) : ReverseBuffer → List UInt8 → Prop
  | new : BufferStart cfg .new []
  | withCapacity {capacity : Nat} {buf : ReverseBuffer}
      (h : ReverseBuffer.withCapacity cfg capacity = .ok buf) : BufferStart cfg buf []
  | fromBox {value : List UInt8} (hne : value ≠ []) (hlen : value.length < 2 ^ 63) :
      BufferStart cfg (.fromBox value) value

theorem BufferStart.represents (h : BufferStart cfg buf bytes) : Represents buf bytes := by
  cases h with
  | new => exact Represents.represents_new
  | @withCapacity capacity _ h =>
    unfold ReverseBuffer.withCapacity at h
    by_cases h0 : capacity = 0
    · rw [if_pos h0] at h
      cases h
      exact Represents.represents_new
    · rw [if_neg h0] at h
      rcases allocateChunk_cases cfg 0 (Nat.pos_of_ne_zero h0) with
        hfail | ⟨hlt, hok⟩
      · simp [hfail] at h
      · simp only [hok, step_ok_bind] at h
        cases h
        refine ⟨⟨?_, by simp, by simpa using Ne.symm h0, by simp, by simpa using hlt, by simp⟩,
          by simp⟩
        rintro size rest ⟨rfl, rfl⟩
        exact .inr ⟨rfl, rfl, by simp⟩
  | fromBox hne hlen =>
    have hpos := List.length_pos_iff.mpr hne
    refine ⟨⟨?_, by simp [ReverseBuffer.fromBox], ?_, ?_, ?_, ?_⟩, ?_⟩
    · rintro size rest ⟨rfl, rfl⟩
      left
      simpa [ReverseBuffer.fromBox, ReverseBuffer.new] using hpos
    · simpa [ReverseBuffer.fromBox] using hpos.ne
    · simp [ReverseBuffer.fromBox]
    · simp only [ReverseBuffer.fromBox]
      omega
    · simp [ReverseBuffer.fromBox]
    · simp [ReverseBuffer.fromBox, ReverseBuffer.new]

/-- The buffer is in its documented shape, and everything that reads it reads
the same bytes. -/
structure Reports (cfg : BuildConfig) (buf : ReverseBuffer) (bytes : List UInt8) : Prop where
  shape : Shape (sizes buf.chunks) buf.front buf.capacity buf.keepBack
  len : buf.len cfg = .ok bytes.length
  slices : buf.slices.flatten = bytes.map some
  readerSlices : buf.bufReader.slices.flatten = bytes.map some
  reader : buf.bufReader.drain cfg bytes.length = .ok (bytes.map some)
  drain : buf.drain cfg bytes.length = .ok (bytes.map some)
  intoVec : buf.intoVec cfg = .ok (bytes.map some)

theorem Represents.reports (h : Represents buf bytes) : Reports cfg buf bytes :=
  ⟨h.shape, h.len_eq, h.slices_flatten, h.slices_flatten, h.bufReader.drain le_rfl,
    h.drain le_rfl, h.intoVec⟩

/-- A run, which ends at the first operation that fails. -/
def runOps (cfg : BuildConfig) : ReverseBuffer → List BufferOp → Step ReverseBuffer
  | buf, [] => .ok buf
  | buf, op :: ops => do runOps cfg (← op.run cfg buf) ops

def AdmissibleRun : List UInt8 → List BufferOp → Prop
  | _, [] => True
  | bytes, op :: ops => op.Admissible bytes ∧ AdmissibleRun (op.apply bytes) ops

/-- Every step of the run that is taken meets the condition. -/
def SafeRun (cfg : BuildConfig) : ReverseBuffer → List BufferOp → Prop
  | _, [] => True
  | buf, op :: ops =>
      op.Safe cfg buf ∧ ∀ buf', op.run cfg buf = .ok buf' → SafeRun cfg buf' ops

/-- What a run is meant to end with: the bytes, or a failed allocation. -/
def RunMeets (cfg : BuildConfig) (result : Step ReverseBuffer) (bytes : List UInt8) : Prop :=
  match result with
  | .ok buf => Reports cfg buf bytes
  | .error .allocation => True
  | .error .panic => False

theorem Represents.runOps_meets (h : Represents buf bytes) (ops : List BufferOp)
    (hadm : AdmissibleRun bytes ops) (hsafe : SafeRun cfg buf ops) :
    RunMeets cfg (runOps cfg buf ops) (ops.foldl BufferOp.apply bytes) := by
  induction ops generalizing buf bytes with
  | nil => exact h.reports
  | cons op ops ih =>
    have hstep := h.run hadm.1.inBounds hsafe.1
    rw [runOps]
    cases hrun : op.run cfg buf with
    | error e =>
      rw [hrun] at hstep
      cases e with
      | allocation => trivial
      | panic => exact hstep
    | ok buf' =>
      rw [hrun] at hstep
      exact ih hstep hadm.2 (hsafe.2 buf' hrun)

theorem Represents.safeRun_of_ok (h : Represents buf bytes) (ops : List BufferOp)
    (hadm : AdmissibleRun bytes ops) {buf' : ReverseBuffer}
    (hrun : runOps cfg buf ops = .ok buf') : SafeRun cfg buf ops := by
  induction ops generalizing buf bytes with
  | nil => trivial
  | cons op ops ih =>
    rw [runOps] at hrun
    cases hstep : op.run cfg buf with
    | error e => simp [hstep] at hrun
    | ok next =>
      rw [hstep, step_ok_bind] at hrun
      have hsafe := safe_of_run_ok h.shape.front_le h.shape.capacity_lt hstep
      have hnext := h.run hadm.1.inBounds hsafe
      rw [hstep] at hnext
      refine ⟨hsafe, fun next' hnext' => ?_⟩
      obtain rfl : next = next' := Except.ok.inj (hstep.symm.trans hnext')
      exact ih hnext hadm.2 hrun

/-- A run whose steps meet the condition refines the list of bytes, and a run
that returns met the condition at each step. -/
theorem reverseBuffer_runs (cfg : BuildConfig) {buf : ReverseBuffer} {bytes : List UInt8}
    (hstart : BufferStart cfg buf bytes) (ops : List BufferOp) (hadm : AdmissibleRun bytes ops) :
    (SafeRun cfg buf ops →
        RunMeets cfg (runOps cfg buf ops) (ops.foldl BufferOp.apply bytes)) ∧
      ((∃ buf', runOps cfg buf ops = .ok buf') → SafeRun cfg buf ops) :=
  ⟨hstart.represents.runOps_meets ops hadm,
    fun ⟨_, hrun⟩ => hstart.represents.safeRun_of_ok ops hadm hrun⟩

/-- A run that empties a buffer with a chunk to keep, and fills it again. -/
theorem reverseBuffer_runs_kept :
    RunMeets ⟨false, true⟩
      (runOps ⟨false, true⟩ ⟨[[none, none]], 2, 2, 0, false, true⟩
        [.planReservationExact 3, .prependSlice [1, 2, 3], .advance 3, .prependArray [4]])
      [4] := by
  have hstart : BufferStart ⟨false, true⟩ ⟨[[none, none]], 2, 2, 0, false, true⟩ [] :=
    @BufferStart.withCapacity _ 2 _ (by decide +kernel)
  have hadm : AdmissibleRun []
      [.planReservationExact 3, .prependSlice [1, 2, 3], .advance 3, .prependArray [4]] :=
    ⟨Nat.succ_pos 2, trivial, Nat.le_refl 3, trivial, trivial⟩
  refine (reverseBuffer_runs _ hstart _ hadm).1 ⟨?_, fun _ _ => ⟨trivial, fun _ _ =>
    ⟨trivial, fun _ _ => ⟨trivial, fun _ _ => trivial⟩⟩⟩⟩
  exact fun hdebug => absurd hdebug Bool.false_ne_true

/-- With assertions on, five bytes from a `Buf` do not go into an empty buffer of
capacity four. Without them, a planned reservation whose size wraps to zero
leaves no place for the next byte. -/
theorem reverseBuffer_fails :
    (∃ buf, BufferStart ⟨true, false⟩ buf [] ∧
        ReverseBuffer.withCapacity ⟨true, false⟩ 4 = .ok buf ∧
        runOps ⟨true, false⟩ buf [.prepend ([104, 101, 108, 108, 111] : List UInt8)] =
          .error .panic) ∧
      ∃ buf, BufferStart ⟨false, false⟩ buf (List.replicate 16 0) ∧
        buf = .fromBox (List.replicate 16 0) ∧
        AdmissibleRun (List.replicate 16 0)
          [.planReservationExact (2 ^ 64 - 16), .prependU8 1] ∧
        runOps ⟨false, false⟩ buf [.planReservationExact (2 ^ 64 - 16), .prependU8 1] =
          .error .panic := by
  have hkept : ReverseBuffer.withCapacity ⟨true, false⟩ 4 =
      .ok ⟨[[none, none, none, none]], 4, 4, 0, false, true⟩ := by decide +kernel
  refine ⟨⟨_, .withCapacity hkept, hkept, by decide +kernel⟩, _,
    .fromBox (by simp) (by simp), rfl, ⟨?_, trivial, trivial⟩, by decide +kernel⟩
  simp [BufferOp.Admissible]

end Bilrost
