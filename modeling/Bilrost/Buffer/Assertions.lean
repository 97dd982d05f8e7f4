import Bilrost.Buffer.Reachable

/-!
The debug assertions of the buffer. An empty buffer may have a chunk: the one it
keeps, with the front index at its end, or one of size zero that was an empty
box. Some of the assertions were written with neither of them in mind.
-/

namespace Bilrost

/-- The calls that move bytes or look at them. -/
inductive BufferCall : Type 1 where
  | prepend {β : Type} [Buf β] (data : β)
  | prependSlice (data : List UInt8)
  | prependU8 (byte : UInt8)
  | advance (cnt : Nat)
  | clear
  | chunk
  | contiguous
  | len

/-- No bytes, but a chunk. -/
def Emptied (buf : ReverseBuffer) : Prop := buf.chunks ≠ [] ∧ buf.front = buf.capacity

namespace BufferCall

/-- What is looked at is not returned here. -/
def run (cfg : BuildConfig) (buf : ReverseBuffer) : BufferCall → Step ReverseBuffer
  | prepend data => buf.prepend cfg data
  | prependSlice data => buf.prependSlice cfg data
  | prependU8 byte => buf.prependU8 cfg byte
  | advance cnt => buf.advance cfg cnt
  | clear => buf.clear
  | chunk => do
      let _ ← buf.chunk cfg
      .ok buf
  | contiguous => do
      let _ ← buf.contiguous cfg
      .ok buf
  | len => do
      let _ ← buf.len cfg
      .ok buf

/-- What a call is meant to do to the bytes. -/
def apply (bytes : List UInt8) : BufferCall → List UInt8
  | prepend data => Buf.bytes data ++ bytes
  | prependSlice data => data ++ bytes
  | prependU8 byte => byte :: bytes
  | advance cnt => bytes.drop cnt
  | clear => []
  | _ => bytes

/-- No more bytes are dropped than there are. -/
def InBounds (bytes : List UInt8) : BufferCall → Prop
  | advance cnt => cnt ≤ bytes.length
  | _ => True

/-- The calls that are not wrong about an empty buffer with a chunk. -/
def Asserts (buf : ReverseBuffer) : BufferCall → Prop
  | prepend data => ¬(buf.front < (Buf.bytes data).length ∧ Emptied buf)
  | chunk => ¬Emptied buf
  | contiguous => ¬Emptied buf
  | len => ¬(buf.capacity = 0 ∧ Emptied buf)
  | _ => True

end BufferCall

variable {cfg : BuildConfig} {buf buf' : ReverseBuffer} {bytes : List UInt8}

/-- An empty buffer has one chunk at most, with its front index at the end. -/
theorem Carries.chunks_of_emptied (h : Carries buf bytes) (hempty : Emptied buf) :
    ∃ c, buf.chunks = [c] ∧ buf.front = c.length := by
  obtain ⟨hne, hfront⟩ := hempty
  cases h with
  | plain h =>
      obtain ⟨c, rest, hc⟩ := List.exists_cons_of_ne_nil hne
      have hcap := h.shape.capacity_eq
      rw [hc, sizes_cons, List.sum_cons] at hcap
      rcases h.shape.front_in c.length (sizes rest) (by simp [hc]) with hlt | ⟨hrest, -, heq⟩
      · omega
      · obtain rfl : rest = [] := by simpa [sizes] using hrest
        exact ⟨c, hc, heq⟩
  | @padded inner _ h hkeep =>
      cases hc : inner.chunks with
      | nil => exact ⟨[], by simp [ReverseBuffer.padded, hc], h.shape.front_zero (by simp [hc])⟩
      | cons c rest =>
          have hcap := h.shape.capacity_eq
          rw [hc, sizes_cons, List.sum_cons] at hcap
          rw [ReverseBuffer.padded_front, ReverseBuffer.padded_capacity] at hfront
          rcases h.shape.front_in c.length (sizes rest) (by simp [hc]) with hlt | ⟨-, hkept, -⟩
          · omega
          · rw [hkeep] at hkept
            cases hkept

/-- Otherwise the front index is in the front chunk. -/
theorem Carries.front_lt (h : Carries buf bytes) (hsome : ¬Emptied buf) {c : List Cell}
    (hc : buf.chunks.head? = some c) : buf.front < c.length := by
  have hne : buf.chunks ≠ [] := by
    rintro hnil
    rw [hnil] at hc
    cases hc
  have hpos : bytes ≠ [] := by
    rintro rfl
    have hlen := h.length_eq
    have hle := h.front_le
    rw [List.length_nil] at hlen
    exact hsome ⟨hne, by omega⟩
  cases h with
  | plain h =>
      obtain ⟨c', rest, hchunks⟩ := List.exists_cons_of_ne_nil hne
      rw [hchunks] at hc
      obtain rfl : c' = c := Option.some.inj hc
      exact h.front_lt_chunk hpos hchunks
  | @padded inner _ h hkeep =>
      cases hchunks : inner.chunks with
      | nil =>
          have hcap := h.shape.capacity_eq
          have hlen := h.length_eq
          have hbytes := List.length_pos_iff.mpr hpos
          rw [hchunks] at hcap
          simp at hcap
          omega
      | cons c' rest =>
          have hhead : inner.padded.chunks.head? = some c' := by
            simp [ReverseBuffer.padded, hchunks]
          obtain rfl : c' = c := Option.some.inj (hhead.symm.trans hc)
          exact h.front_lt_chunk hpos hchunks

namespace ReverseBuffer

theorem chunk_eq_ok (h : Carries buf bytes) (hsome : ¬Emptied buf) :
    ∃ cells, buf.chunk cfg = .ok cells := by
  unfold chunk
  cases hc : buf.chunks with
  | nil => exact ⟨[], rfl⟩
  | cons c rest =>
      have hlt : buf.front < c.length := h.front_lt hsome (by simp [hc])
      exact ⟨c.drop buf.front, by simp [hlt]⟩

theorem chunk_not_ok (hdebug : cfg.debugAssertions = true) (h : Carries buf bytes)
    (hempty : Emptied buf) : buf.chunk cfg = .error .panic := by
  obtain ⟨c, hc, hfront⟩ := h.chunks_of_emptied hempty
  unfold chunk
  rw [hc]
  simp [BuildConfig.debugAssert, hdebug, hfront]

theorem contiguous_eq_ok (h : Carries buf bytes) (hsome : ¬Emptied buf) :
    ∃ cells, buf.contiguous cfg = .ok cells := by
  obtain ⟨cells, hcells⟩ : ∃ cells, buf.chunk cfg = .ok cells := chunk_eq_ok h hsome
  unfold contiguous
  split
  · exact ⟨none, rfl⟩
  · exact ⟨some cells, by rw [hcells]; rfl⟩

theorem contiguous_not_ok (hdebug : cfg.debugAssertions = true) (h : Carries buf bytes)
    (hempty : Emptied buf) : buf.contiguous cfg = .error .panic := by
  obtain ⟨c, hc, -⟩ := h.chunks_of_emptied hempty
  unfold contiguous
  rw [hc]
  rw [chunk_not_ok hdebug h hempty]
  rfl

/-- No call but the planning of an exact size leaves an exact plan behind. -/
theorem dropChunks_plan (hexact : buf.plannedExact = false) (chunks : List (List Cell))
    (h : buf.dropChunks cfg chunks = .ok buf') : buf'.plannedExact = false := by
  induction chunks generalizing buf with
  | nil =>
      obtain rfl := Except.ok.inj h
      exact hexact
  | cons c chunks ih =>
      rw [dropChunks] at h
      split_ifs at h
      · obtain rfl := Except.ok.inj h
        exact hexact
      · obtain ⟨-, -, h⟩ := step_bind_eq_ok h
        obtain rfl := Except.ok.inj h
        exact hexact
      · obtain ⟨capacity, -, h⟩ := step_bind_eq_ok h
        exact ih rfl h

end ReverseBuffer

/-- A buffer that carries bytes, without an exact plan. -/
structure Idle (buf : ReverseBuffer) (bytes : List UInt8) : Prop where
  carries : Carries buf bytes
  plan : buf.plannedExact = false

/-- A call ends with such a buffer, or because memory ran out, but never with an
assertion that fails or an index that underflows. -/
def EndsIdle (result : Step ReverseBuffer) (bytes : List UInt8) : Prop :=
  match result with
  | .ok buf => Idle buf bytes
  | .error .allocation => True
  | .error .panic => False

namespace Idle

theorem of_lands {result : Step ReverseBuffer} (h : Lands result bytes)
    (hplan : ∀ buf', result = .ok buf' → buf'.plannedExact = false) : EndsIdle result bytes := by
  cases result with
  | ok buf' => exact ⟨h, hplan buf' rfl⟩
  | error e => cases e <;> exact h

/-- Looking at the buffer changes nothing. -/
theorem looked {α : Type} (h : Idle buf bytes) {look : Step α} {value : α} (hlook : look = .ok value) :
    EndsIdle (do let _ ← look; .ok buf) bytes := by
  rw [hlook]
  exact h

theorem piece (h : Idle buf bytes) (piece : Piece) (hsafe : piece.op.Safe cfg buf) :
    EndsIdle (piece.run cfg buf) (piece.bytes ++ bytes) := by
  apply of_lands (h.carries.piece piece hsafe)
  intro buf' hrun
  rcases Piece.run_eq_ok hrun with ⟨-, hkept⟩ | ⟨-, hgrown⟩
  · exact hkept.plan.2.trans h.plan
  · exact hgrown.plan.2

theorem len_eq_ok (h : Idle buf bytes) (hcap : ¬(buf.capacity = 0 ∧ Emptied buf)) :
    ∃ len, buf.len cfg = .ok len := by
  cases h.carries with
  | plain h => exact ⟨_, h.len_eq⟩
  | @padded inner _ h hkeep =>
      by_cases hne : bytes = []
      · subst hne
        have hlen := h.length_eq
        have hle := h.shape.front_le
        rw [List.length_nil] at hlen
        have hempty : Emptied inner.padded := by
          constructor
          · simp [ReverseBuffer.padded]
          · rw [ReverseBuffer.padded_front, ReverseBuffer.padded_capacity]
            omega
        obtain ⟨c, hc, hfront⟩ := (Carries.padded h hkeep).chunks_of_emptied hempty
        obtain ⟨-, rfl⟩ : inner.chunks = [] ∧ [] = c := by
          have hback : inner.chunks ++ [[]] = [] ++ [c] := hc
          simpa using List.append_inj' hback rfl
        exact absurd ⟨hempty.2.symm.trans hfront, hempty⟩ hcap
      · exact ⟨_, Carries.len_padded h hne⟩

/-- One call. -/
theorem call (h : Idle buf bytes) {call : BufferCall} (hin : call.InBounds bytes)
    (hasserts : call.Asserts buf) : EndsIdle (call.run cfg buf) (call.apply bytes) := by
  cases call with
  | prepend data =>
      apply h.piece (.buf data)
      by_cases hlt : buf.front < (Buf.bytes data).length
      · right
        intro hdebug c hc
        exact h.carries.front_lt (fun hempty => hasserts ⟨hlt, hempty⟩) hc
      · exact .inl (not_lt.mp hlt)
  | prependSlice data => exact h.piece (.slice data) trivial
  | prependU8 byte =>
      apply h.piece (.u8 byte)
      rintro ⟨-, hexact, -⟩
      rw [h.plan] at hexact
      cases hexact
  | advance cnt =>
      have hlands : Lands (BufferOp.run cfg buf (.advance cnt)) _ := h.carries.run hin trivial
      apply of_lands hlands
      intro buf' hrun
      simp only [BufferOp.run] at hrun
      unfold ReverseBuffer.advance at hrun
      split_ifs at hrun with h0
      · obtain rfl := Except.ok.inj hrun
        exact h.plan
      · obtain ⟨len, -, hrun⟩ := step_bind_eq_ok hrun
        split_ifs at hrun
        obtain ⟨front, -, hrun⟩ := step_bind_eq_ok hrun
        have hplan : ({ buf with front := front } : ReverseBuffer).plannedExact = false := h.plan
        exact ReverseBuffer.dropChunks_plan hplan _ hrun
  | clear =>
      have hlands : Lands (BufferOp.run cfg buf .clear) _ := h.carries.run trivial trivial
      apply of_lands hlands
      intro buf' hrun
      simp only [BufferOp.run] at hrun
      unfold ReverseBuffer.clear at hrun
      split_ifs at hrun with hkeep
      · cases hback : buf.chunks.getLast? with
        | none =>
            rw [hback] at hrun
            cases hrun
        | some back =>
            rw [hback] at hrun
            obtain rfl := Except.ok.inj hrun
            rfl
      · obtain rfl := Except.ok.inj hrun
        rfl
  | chunk =>
      obtain ⟨cells, hcells⟩ := ReverseBuffer.chunk_eq_ok h.carries hasserts
      exact h.looked hcells
  | contiguous =>
      obtain ⟨cells, hcells⟩ := ReverseBuffer.contiguous_eq_ok h.carries hasserts
      exact h.looked hcells
  | len =>
      obtain ⟨len, hlen⟩ := h.len_eq_ok hasserts
      exact h.looked hlen

/-- Where assertions are on, a call that returns was not wrong. -/
theorem asserts_of_ok (hdebug : cfg.debugAssertions = true) (h : Idle buf bytes)
    {call : BufferCall} (hrun : call.run cfg buf = .ok buf') : call.Asserts buf := by
  cases call with
  | prepend data =>
      rintro ⟨hlt, hempty⟩
      obtain ⟨c, hc, hfront⟩ := h.carries.chunks_of_emptied hempty
      have hsafe : (BufferOp.prepend data).Safe cfg buf :=
        safe_of_run_ok h.carries.front_le h.carries.capacity_lt hrun
      rcases hsafe with hle | hold
      · omega
      · have hin : buf.front < c.length := hold hdebug c (by simp [hc])
        omega
  | chunk =>
      intro hempty
      obtain ⟨cells, hcells, -⟩ := step_bind_eq_ok hrun
      rw [ReverseBuffer.chunk_not_ok hdebug h.carries hempty] at hcells
      cases hcells
  | contiguous =>
      intro hempty
      obtain ⟨cells, hcells, -⟩ := step_bind_eq_ok hrun
      rw [ReverseBuffer.contiguous_not_ok hdebug h.carries hempty] at hcells
      cases hcells
  | len =>
      rintro ⟨hcap, hne, -⟩
      obtain ⟨len, hlen, -⟩ := step_bind_eq_ok hrun
      obtain ⟨-, -, hlen⟩ := step_bind_eq_ok hlen
      obtain ⟨u, hassert, -⟩ := step_bind_eq_ok hlen
      simp [BuildConfig.debugAssert, hdebug, hcap, hne] at hassert
  | _ => trivial

end Idle

theorem idle_new : Idle .new [] := ⟨.plain Represents.represents_new, rfl⟩

/-- The constructors, and the bytes they start with. -/
inductive IdleStart (cfg : BuildConfig) : ReverseBuffer → List UInt8 → Prop
  | new : IdleStart cfg .new []
  | withCapacity {capacity : Nat} {buf : ReverseBuffer}
      (h : ReverseBuffer.withCapacity cfg capacity = .ok buf) : IdleStart cfg buf []
  | fromBox {value : List UInt8} (hlen : value.length < 2 ^ 63) :
      IdleStart cfg (.fromBox value) value

theorem IdleStart.idle (h : IdleStart cfg buf bytes) : Idle buf bytes := by
  cases h with
  | new => exact idle_new
  | withCapacity h =>
      refine ⟨.plain (BufferStart.withCapacity h).represents, ?_⟩
      unfold ReverseBuffer.withCapacity at h
      split_ifs at h
      · obtain rfl := Except.ok.inj h
        rfl
      · obtain ⟨chunk, -, h⟩ := step_bind_eq_ok h
        obtain rfl := Except.ok.inj h
        rfl
  | fromBox hlen => exact ⟨carries_fromBox hlen, rfl⟩

/-- A run, which ends at the first call that fails. -/
def runCalls (cfg : BuildConfig) : ReverseBuffer → List BufferCall → Step ReverseBuffer
  | buf, [] => .ok buf
  | buf, call :: calls => do runCalls cfg (← call.run cfg buf) calls

def InBoundsRun : List UInt8 → List BufferCall → Prop
  | _, [] => True
  | bytes, call :: calls => call.InBounds bytes ∧ InBoundsRun (call.apply bytes) calls

/-- No call of the run is wrong about an empty buffer with a chunk. -/
def AssertsRun (cfg : BuildConfig) : ReverseBuffer → List BufferCall → Prop
  | _, [] => True
  | buf, call :: calls =>
      call.Asserts buf ∧ ∀ buf', call.run cfg buf = .ok buf' → AssertsRun cfg buf' calls

theorem Idle.runCalls_holds (h : Idle buf bytes) (calls : List BufferCall)
    (hin : InBoundsRun bytes calls) (hasserts : AssertsRun cfg buf calls) :
    EndsIdle (runCalls cfg buf calls) (calls.foldl BufferCall.apply bytes) := by
  induction calls generalizing buf bytes with
  | nil => exact h
  | cons call calls ih =>
      have hstep : EndsIdle (call.run cfg buf) (call.apply bytes) := h.call hin.1 hasserts.1
      rw [runCalls]
      cases hrun : call.run cfg buf with
      | error e =>
          rw [hrun] at hstep
          cases e with
          | allocation => trivial
          | panic => exact hstep
      | ok next =>
          rw [hrun] at hstep
          exact ih hstep hin.2 (hasserts.2 next hrun)

theorem Idle.assertsRun_of_ok (hdebug : cfg.debugAssertions = true) (h : Idle buf bytes)
    (calls : List BufferCall) (hin : InBoundsRun bytes calls)
    (hrun : runCalls cfg buf calls = .ok buf') : AssertsRun cfg buf calls := by
  induction calls generalizing buf bytes with
  | nil => trivial
  | cons call calls ih =>
      obtain ⟨next, hstep, hrun⟩ := step_bind_eq_ok hrun
      have hasserts := asserts_of_ok hdebug h hstep
      have hnext : EndsIdle (call.run cfg buf) (call.apply bytes) := h.call hin.1 hasserts
      rw [hstep] at hnext
      constructor
      · exact hasserts
      · intro next' hnext'
        obtain rfl : next = next' := Except.ok.inj (hstep.symm.trans hnext')
        exact ih hnext hin.2 hrun

/-- A run fails no assertion and lets no subtraction underflow if none of its
calls is wrong about an empty buffer with a chunk, and one that returns, with
assertions on, made no such call. -/
theorem assertions_hold {cfg : BuildConfig} {buf : ReverseBuffer} {bytes : List UInt8}
    (hstart : IdleStart cfg buf bytes) (calls : List BufferCall)
    (hin : InBoundsRun bytes calls) :
    (AssertsRun cfg buf calls →
        EndsIdle (runCalls cfg buf calls) (calls.foldl BufferCall.apply bytes)) ∧
      (cfg.debugAssertions = true → (∃ buf', runCalls cfg buf calls = .ok buf') →
        AssertsRun cfg buf calls) := by
  constructor
  · intro hasserts
    exact hstart.idle.runCalls_holds calls hin hasserts
  · rintro hdebug ⟨buf', hrun⟩
    exact hstart.idle.assertsRun_of_ok hdebug calls hin hrun

/-- A kept chunk that is filled, looked at and emptied again. -/
theorem assertions_hold_kept :
    EndsIdle
      (runCalls ⟨true, false⟩ ⟨[[none, none]], 2, 2, 0, false, true⟩
        [.prependSlice [1, 2], .chunk, .advance 2, .len, .prependU8 3])
      [3] := by
  have hstart : IdleStart ⟨true, false⟩ ⟨[[none, none]], 2, 2, 0, false, true⟩ [] :=
    @IdleStart.withCapacity _ 2 _ (by decide +kernel)
  have hin : InBoundsRun [] [.prependSlice [1, 2], .chunk, .advance 2, .len, .prependU8 3] :=
    ⟨trivial, trivial, Nat.le_refl 2, trivial, trivial, trivial⟩
  apply (assertions_hold hstart _ hin).1
  refine ⟨trivial, fun buf₁ h₁ => ⟨?_, fun buf₂ h₂ => ⟨trivial, fun buf₃ h₃ => ⟨?_, fun _ _ =>
    ⟨trivial, fun _ _ => trivial⟩⟩⟩⟩⟩
  · obtain rfl : _ = buf₁ := Except.ok.inj h₁
    rintro ⟨-, hfront⟩
    cases hfront
  · obtain rfl : _ = buf₁ := Except.ok.inj h₁
    obtain rfl : _ = buf₂ := Except.ok.inj h₂
    obtain rfl : _ = buf₃ := Except.ok.inj h₃
    rintro ⟨hcap, -⟩
    cases hcap

/-- An empty buffer that keeps its chunk cannot be looked at, nor can five bytes
from a `Buf` be prepended to it, and the length of an empty box is not told. -/
theorem assertions_fail :
    (∃ buf, ReverseBuffer.withCapacity ⟨true, false⟩ 4 = .ok buf ∧
        IdleStart ⟨true, false⟩ buf [] ∧
        runCalls ⟨true, false⟩ buf [.chunk] = .error .panic ∧
        runCalls ⟨true, false⟩ buf [.contiguous] = .error .panic ∧
        runCalls ⟨true, false⟩ buf [.prepend ([104, 101, 108, 108, 111] : List UInt8)] =
          .error .panic) ∧
      IdleStart ⟨true, false⟩ (.fromBox []) [] ∧
      runCalls ⟨true, false⟩ (.fromBox []) [.len] = .error .panic := by
  have hkept : ReverseBuffer.withCapacity ⟨true, false⟩ 4 =
      .ok ⟨[[none, none, none, none]], 4, 4, 0, false, true⟩ := by decide +kernel
  constructor
  · exact ⟨_, hkept, .withCapacity hkept, by decide +kernel, by decide +kernel, by decide +kernel⟩
  · exact ⟨.fromBox (by simp), by decide +kernel⟩

end Bilrost
