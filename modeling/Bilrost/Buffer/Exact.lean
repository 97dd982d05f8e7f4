import Bilrost.Buffer.Reachable

/-!
Exact reservations. The plan is for a chunk of the capacity and the missing
bytes together, where the missing bytes would do; so only an empty buffer is
given a chunk that is no larger than asked for. And a buffer without any
capacity forgets the exact plan again when all bytes come in one piece that is
not a single byte.
-/

namespace Bilrost

variable {cfg : BuildConfig} {buf buf' : ReverseBuffer} {bytes : List UInt8}

/-- Prepends one piece after the other. -/
def runPieces (cfg : BuildConfig) : ReverseBuffer → List Piece → Step ReverseBuffer
  | buf, [] => .ok buf
  | buf, piece :: pieces => do
      let buf ← piece.run cfg buf
      runPieces cfg buf pieces

/-- `plan_reservation_exact`, and then the bytes. -/
def reserveExactly (cfg : BuildConfig) (buf : ReverseBuffer) (additional : Nat)
    (pieces : List Piece) : Step ReverseBuffer := do
  let buf ← buf.planReservationExact cfg additional
  runPieces cfg buf pieces

namespace Piece

/-- How many bytes there are in all. -/
def total (pieces : List Piece) : Nat := (pieces.map fun piece => piece.bytes.length).sum

@[simp] theorem total_nil : total [] = 0 := rfl

@[simp] theorem total_cons (piece : Piece) (pieces : List Piece) :
    total (piece :: pieces) = piece.bytes.length + total pieces := rfl

/-- The first piece with bytes in it. -/
def first (pieces : List Piece) : Option Piece := pieces.find? fun piece => 0 < piece.bytes.length

def isBuf : Piece → Bool
  | @Piece.buf _ _ _ => true
  | _ => false

def isU8 : Piece → Bool
  | .u8 _ => true
  | _ => false

/-- The piece with which the first `room` bytes are passed. -/
theorem exists_crossing {room : Nat} (pieces : List Piece) (h : room < total pieces) :
    ∃ before piece after, pieces = before ++ piece :: after ∧ total before ≤ room ∧
      room < total before + piece.bytes.length := by
  induction pieces generalizing room with
  | nil => exact absurd h (Nat.not_lt_zero _)
  | cons piece pieces ih =>
      rw [total_cons] at h
      by_cases hfits : piece.bytes.length ≤ room
      · obtain ⟨before, crossing, after, rfl, hbefore, hcross⟩ :=
          ih (show room - piece.bytes.length < total pieces by omega)
        refine ⟨piece :: before, crossing, after, rfl, ?_, ?_⟩
        · rw [total_cons]
          omega
        · rw [total_cons]
          omega
      · refine ⟨[], piece, pieces, rfl, Nat.zero_le _, ?_⟩
        rw [total_nil]
        omega

theorem total_append (before after : List Piece) :
    total (before ++ after) = total before + total after := by
  simp [total]

/-- Pieces without bytes are not the first one. -/
theorem first_of_total_eq_zero {before : List Piece} (h : total before = 0) {piece : Piece}
    (hpiece : 0 < piece.bytes.length) (after : List Piece) :
    first (before ++ piece :: after) = some piece := by
  induction before with
  | nil => simp [first, hpiece]
  | cons p before ih =>
      rw [total_cons] at h
      have hp : ¬0 < p.bytes.length := by omega
      rw [List.cons_append, first, List.find?_cons_of_neg (by simpa using hp)]
      exact ih (by omega)

end Piece

open Piece

theorem runPieces_append (before after : List Piece) :
    runPieces cfg buf (before ++ after) =
      runPieces cfg buf before >>= fun buf => runPieces cfg buf after := by
  induction before generalizing buf with
  | nil => rfl
  | cons piece before ih =>
      simp only [List.cons_append, runPieces, ih]
      cases piece.run cfg buf <;> rfl

theorem Kept.refl (buf : ReverseBuffer) : Kept buf buf := ⟨rfl, rfl, ⟨rfl, rfl⟩, rfl⟩

theorem Kept.trans {mid : ReverseBuffer} (h : Kept buf mid) (h' : Kept mid buf') :
    Kept buf buf' :=
  ⟨h'.capacity.trans h.capacity, h'.chunks.trans h.chunks,
    ⟨h'.plan.1.trans h.plan.1, h'.plan.2.trans h.plan.2⟩, h'.keepBack.trans h.keepBack⟩

/-- The step took place in a buffer with `len` bytes afterwards, and `P` holds of
it; or memory ran out. -/
def EndsWith (P : ReverseBuffer → Prop) (len : Nat) (result : Step ReverseBuffer) : Prop :=
  match result with
  | .ok buf => P buf ∧ ∃ bytes, Carries buf bytes ∧ bytes.length = len
  | .error .allocation => True
  | .error .panic => False

theorem EndsWith.bind {P Q : ReverseBuffer → Prop} {len len' : Nat} {result : Step ReverseBuffer}
    {f : ReverseBuffer → Step ReverseBuffer} (h : EndsWith P len result)
    (hf : ∀ buf bytes, P buf → Carries buf bytes → bytes.length = len →
      EndsWith Q len' (f buf)) : EndsWith Q len' (result >>= f) := by
  cases result with
  | error e => cases e <;> exact h
  | ok buf =>
      obtain ⟨hP, bytes, hcarries, hlen⟩ := h
      exact hf buf bytes hP hcarries hlen

theorem EndsWith.mono {P Q : ReverseBuffer → Prop} {len len' : Nat} {result : Step ReverseBuffer}
    (h : EndsWith P len result) (hlen : len = len')
    (hPQ : ∀ buf bytes, P buf → Carries buf bytes → bytes.length = len → Q buf) :
    EndsWith Q len' result := by
  subst hlen
  cases result with
  | error e => cases e <;> exact h
  | ok buf =>
      obtain ⟨hP, bytes, hcarries, hlen⟩ := h
      exact ⟨hPQ buf bytes hP hcarries hlen, bytes, hcarries, hlen⟩

theorem Carries.oldFrontOk (h : Carries buf bytes) (hne : bytes ≠ []) :
    Represents.OldFrontOk cfg buf := by
  have hplain {inner : ReverseBuffer} (h : Represents inner bytes) (c : List Cell)
      (hc : inner.chunks.head? = some c) : inner.front < c.length := by
    obtain ⟨rest, hrest⟩ := List.head?_eq_some_iff.mp hc
    exact h.front_lt_chunk hne hrest
  intro _ c hc
  cases h with
  | plain h => exact hplain h c hc
  | @padded inner _ h hkeep =>
      obtain ⟨first, rest, hchunks⟩ := List.exists_cons_of_ne_nil (h.chunks_ne_nil hne)
      apply hplain h c
      rw [hchunks]
      simpa [ReverseBuffer.padded, hchunks] using hc

/-- An empty buffer with a chunk has its front index at the end of that. -/
theorem Carries.not_oldFrontOk (h : Carries buf []) (hne : buf.chunks ≠ [])
    (hdebug : cfg.debugAssertions = true) : ¬Represents.OldFrontOk cfg buf := by
  intro hold
  have hlen := h.length_eq
  rw [List.length_nil] at hlen
  cases h with
  | plain h =>
      obtain ⟨c, rest, hchunks⟩ := List.exists_cons_of_ne_nil hne
      have hlt := hold hdebug c (by simp [hchunks])
      have hcap := h.shape.capacity_eq
      rw [hchunks, sizes_cons, List.sum_cons] at hcap
      omega
  | @padded inner _ h hkeep =>
      cases hchunks : inner.chunks with
      | nil =>
          have hlt := hold hdebug [] (by simp [ReverseBuffer.padded, hchunks])
          exact Nat.not_lt_zero _ hlt
      | cons c rest =>
          have hlt := hold hdebug c (by simp [ReverseBuffer.padded, hchunks])
          have hcap := h.shape.capacity_eq
          rw [hchunks, sizes_cons, List.sum_cons] at hcap
          simp only [ReverseBuffer.padded_front, ReverseBuffer.padded_capacity] at hlt hlen
          omega

/-- A piece that fits is always safe. -/
theorem Piece.safe_of_fits {piece : Piece} (h : piece.bytes.length ≤ buf.front) :
    piece.op.Safe cfg buf := by
  cases piece with
  | buf data => exact .inl h
  | u8 byte =>
      rintro ⟨h0, -⟩
      rw [h0] at h
      exact absurd h (Nat.not_succ_le_zero 0)
  | _ => trivial

/-- One piece: either it fits, or a chunk is added. -/
theorem Carries.piece_ends (h : Carries buf bytes) (piece : Piece)
    (hsafe : piece.op.Safe cfg buf) :
    EndsWith (fun buf' => piece.bytes.length ≤ buf.front ∧ Kept buf buf' ∨
      buf.front < piece.bytes.length ∧ Grown cfg (piece.planned buf) buf buf')
      (piece.bytes.length + bytes.length) (piece.run cfg buf) := by
  have hlands := h.piece piece hsafe
  cases hrun : piece.run cfg buf with
  | error e =>
      rw [hrun] at hlands
      cases e <;> exact hlands
  | ok buf' =>
      rw [hrun] at hlands
      exact ⟨Piece.run_eq_ok hrun, _, hlands, List.length_append⟩

/-- Pieces that fit leave the allocations as they are. -/
theorem Carries.pieces_fit (cfg : BuildConfig) (h : Carries buf bytes) (pieces : List Piece)
    (hfits : total pieces ≤ buf.front) :
    EndsWith (Kept buf) (total pieces + bytes.length) (runPieces cfg buf pieces) := by
  induction pieces generalizing buf bytes with
  | nil => exact ⟨.refl buf, bytes, h, (Nat.zero_add _).symm⟩
  | cons piece pieces ih =>
      rw [total_cons] at hfits
      have hpiece : piece.bytes.length ≤ buf.front := by omega
      rw [runPieces]
      refine (h.piece_ends piece (Piece.safe_of_fits hpiece)).bind fun mid bytes' hmid hcarries hlen => ?_
      obtain ⟨-, hkept⟩ := hmid.resolve_right fun hcross => absurd hpiece (by omega)
      have hmidLen := hcarries.length_eq
      have hbufLen := h.length_eq
      have hle := h.front_le
      have hle' := hcarries.front_le
      rw [hkept.capacity] at hmidLen hle'
      have hrest := ih hcarries (by omega)
      refine hrest.mono ?_ fun buf' _ hkept' _ _ => hkept.trans hkept'
      rw [hlen, total_cons]
      omega

/-- The size of the chunk that a piece makes room with, while an exact plan is
made: the plan is kept for a single byte and where it is for more than what
this piece is short of. -/
theorem newAllocationSize_of_plan {piece : Piece} {planned size : Nat}
    (hplan : buf.plannedAllocation = planned ∧ buf.plannedExact = true)
    (hcross : buf.front < piece.bytes.length)
    (hsize : (piece.planned buf).newAllocationSize cfg = .ok size) :
    if piece.isU8 = true ∨ piece.bytes.length - buf.front < planned then size = planned
    else size = max (max minChunkSize buf.capacity) (piece.bytes.length - buf.front) := by
  obtain ⟨rfl, hexact⟩ := hplan
  have hown (hsize : buf.newAllocationSize cfg = .ok size) : size = buf.plannedAllocation := by
    unfold ReverseBuffer.newAllocationSize at hsize
    rw [if_pos hexact] at hsize
    obtain ⟨-, -, hsize⟩ := step_bind_eq_ok hsize
    exact (Except.ok.inj hsize).symm
  have hannounced (hsize : (buf.planReservation piece.bytes.length).newAllocationSize cfg =
      .ok size) : if piece.bytes.length - buf.front < buf.plannedAllocation
        then size = buf.plannedAllocation
        else size = max (max minChunkSize buf.capacity) (piece.bytes.length - buf.front) := by
    unfold ReverseBuffer.planReservation at hsize
    rw [if_neg (by omega)] at hsize
    dsimp only at hsize
    split_ifs at hsize ⊢ with hkept
    · exact hown hsize
    · unfold ReverseBuffer.newAllocationSize at hsize
      rw [if_neg Bool.false_ne_true] at hsize
      exact (Except.ok.inj hsize).symm
  cases piece with
  | u8 byte =>
      rw [if_pos (.inl rfl)]
      exact hown hsize
  | buf data => simpa [Piece.isU8] using hannounced hsize
  | slice data => simpa [Piece.isU8] using hannounced hsize
  | array data => simpa [Piece.isU8] using hannounced hsize

/-- Pieces never take a chunk away, and with as many chunks as before there is
as much capacity. -/
theorem runPieces_chunks (pieces : List Piece) (h : runPieces cfg buf pieces = .ok buf') :
    buf.chunks.length ≤ buf'.chunks.length ∧
      (buf'.chunks.length ≤ buf.chunks.length → buf'.capacity = buf.capacity) := by
  induction pieces generalizing buf with
  | nil =>
      obtain rfl := Except.ok.inj h
      exact ⟨le_rfl, fun _ => rfl⟩
  | cons piece pieces ih =>
      obtain ⟨mid, hmid, h⟩ := step_bind_eq_ok h
      obtain ⟨hle, hcap⟩ := ih h
      rcases Piece.run_eq_ok hmid with ⟨-, hkept⟩ | ⟨-, hgrown⟩
      · rw [hkept.chunks, hkept.capacity] at *
        exact ⟨hle, hcap⟩
      · have hchunks := hgrown.chunks
        exact ⟨by omega, fun hsame => by omega⟩

theorem Carries.runPieces_ok (h : Carries buf bytes) (pieces : List Piece)
    (hrun : runPieces cfg buf pieces = .ok buf') :
    ∃ bytes', Carries buf' bytes' ∧ bytes'.length = total pieces + bytes.length := by
  induction pieces generalizing buf bytes with
  | nil =>
      obtain rfl := Except.ok.inj hrun
      exact ⟨bytes, h, (Nat.zero_add _).symm⟩
  | cons piece pieces ih =>
      obtain ⟨mid, hmid, hrun⟩ := step_bind_eq_ok hrun
      have hlands := h.piece piece (safe_of_run_ok h.front_le h.capacity_lt hmid)
      rw [hmid] at hlands
      obtain ⟨bytes', hcarries, hlen⟩ := ih hlands hrun
      refine ⟨bytes', hcarries, ?_⟩
      rw [hlen, List.length_append, total_cons]
      omega

/-- What an exact reservation is for: one allocation at most, not of a chunk of
size zero, and no more spare capacity behind it than before. What is spare is
what is in front of the front index. -/
structure Exact (buf buf' : ReverseBuffer) : Prop where
  once : buf'.chunks.length ≤ buf.chunks.length + 1
  sized : buf.chunks.length < buf'.chunks.length → ∀ c ∈ buf'.chunks.head?, c ≠ []
  spare : buf.chunks.length < buf'.chunks.length → buf'.front ≤ buf.front

/-- The condition under which a reservation is exact: the bytes fit anyway, or
the buffer is empty and its plan is not overridden to less than the smallest
size of a chunk. With debug assertions, a `Buf` must not be the first to pass the
end of a chunk that is kept. -/
def Reserves (cfg : BuildConfig) (buf : ReverseBuffer) (additional : Nat) (pieces : List Piece) :
    Prop :=
  additional ≤ buf.front ∨
    buf.capacity = buf.front ∧
      (buf.capacity = 0 → minChunkSize ≤ additional ∨
        ∀ piece ∈ first pieces, piece.bytes.length < additional ∨ piece.isU8 = true) ∧
      (cfg.debugAssertions = true → buf.chunks ≠ [] →
        ∀ piece ∈ first pieces, piece.isBuf = true → piece.bytes.length ≤ buf.front)

theorem Carries.with_plan (h : Carries buf bytes) (hchunks : buf'.chunks = buf.chunks)
    (hfront : buf'.front = buf.front) (hcapacity : buf'.capacity = buf.capacity)
    (hkeep : buf'.keepBack = buf.keepBack) : Carries buf' bytes := by
  cases h with
  | plain h =>
      refine .plain ⟨?_, ?_⟩
      · rw [hchunks, hfront, hcapacity, hkeep]
        exact h.shape
      · rw [hchunks, hfront]
        exact h.cells
  | @padded inner _ h hinner =>
      have heq : buf' = ReverseBuffer.padded ⟨inner.chunks, inner.front, inner.capacity,
          buf'.plannedAllocation, buf'.plannedExact, inner.keepBack⟩ := by
        cases buf'
        simp only [ReverseBuffer.padded] at *
        subst hchunks hfront hcapacity hkeep
        rfl
      rw [heq]
      exact .padded (represents_plan h _ _) hinner

/-- Where the bytes fit, nothing is allocated. -/
theorem Kept.exact (h : Kept buf buf') : Exact buf buf' := by
  have hchunks := h.chunks
  exact ⟨by omega, fun hlt => by omega, fun hlt => by omega⟩

theorem Carries.head_ne_nil (h : Carries buf bytes) (hne : bytes ≠ []) :
    ∀ c ∈ buf.chunks.head?, c ≠ [] := by
  rintro c hc rfl
  have hold : Represents.OldFrontOk ⟨true, true⟩ buf := h.oldFrontOk hne
  exact Nat.not_lt_zero _ (hold rfl [] hc)

section planned
variable {additional : Nat} {planned : ReverseBuffer}

/-- The pieces up to the one that does not fit, that one, and the pieces after
it. -/
theorem Carries.crossing (h : Carries buf bytes) {before after : List Piece} {piece : Piece}
    (hbefore : total before ≤ buf.front) (hcross : buf.front < total before + piece.bytes.length)
    (hrun : runPieces cfg buf (before ++ piece :: after) = .ok buf') :
    ∃ mid bytes' grown, Carries mid bytes' ∧ bytes'.length = total before + bytes.length ∧
      Kept buf mid ∧ mid.front = buf.front - total before ∧
      piece.run cfg mid = .ok grown ∧ Grown cfg (piece.planned mid) mid grown ∧
      runPieces cfg grown after = .ok buf' := by
  rw [runPieces_append] at hrun
  obtain ⟨mid, hmid, hrun⟩ := step_bind_eq_ok hrun
  obtain ⟨grown, hgrown, hrun⟩ := step_bind_eq_ok hrun
  have hends := h.pieces_fit cfg before hbefore
  rw [hmid] at hends
  obtain ⟨hkept, bytes', hcarries, hlen⟩ := hends
  have hfront : mid.front = buf.front - total before := by
    have h₁ := h.length_eq
    have h₂ := hcarries.length_eq
    have h₃ := h.front_le
    have h₄ := hcarries.front_le
    have h₅ := hkept.capacity
    omega
  rcases Piece.run_eq_ok hgrown with ⟨hfits, -⟩ | ⟨-, hadded⟩
  · omega
  · exact ⟨mid, bytes', grown, hcarries, hlen, hkept, hfront, hgrown, hadded, hrun⟩

/-- An empty buffer with a chunk takes no `Buf` first that does not fit, where the
assertion is on. -/
theorem Carries.first_fits (h : Carries buf bytes) (hempty : buf.capacity = buf.front)
    (hne : buf.chunks ≠ []) (hdebug : cfg.debugAssertions = true) (pieces : List Piece)
    (hrun : runPieces cfg buf pieces = .ok buf') :
    ∀ piece ∈ first pieces, piece.isBuf = true → piece.bytes.length ≤ buf.front := by
  induction pieces generalizing buf bytes with
  | nil => exact fun piece hpiece => by cases hpiece
  | cons p pieces ih =>
      obtain ⟨mid, hmid, hrun⟩ := step_bind_eq_ok hrun
      have hsafe := safe_of_run_ok h.front_le h.capacity_lt hmid
      by_cases hpos : 0 < p.bytes.length
      · rw [first, List.find?_cons_of_pos (by simpa using hpos)]
        rintro piece hpiece hbuf
        obtain rfl := Option.some.inj hpiece
        have hbytes : bytes = [] := by
          have hlen := h.length_eq
          exact List.length_eq_zero_iff.mp (by omega)
        subst hbytes
        cases p with
        | buf data => exact hsafe.resolve_right (h.not_oldFrontOk hne hdebug)
        | _ => cases hbuf
      · rw [first, List.find?_cons_of_neg (by simpa using hpos)]
        have hlands := h.piece p hsafe
        rw [hmid] at hlands
        obtain ⟨-, hkept⟩ := (Piece.run_eq_ok hmid).resolve_right fun hcross => by omega
        have hlen := h.length_eq
        have hle := h.front_le
        have hlen' := Carries.length_eq hlands
        have hle' := Carries.front_le hlands
        rw [List.length_append, hkept.capacity] at hlen'
        rw [hkept.capacity] at hle'
        have hfront : mid.front = buf.front := by omega
        have hchunks : mid.chunks ≠ [] := by
          intro hnil
          have hlength := hkept.chunks
          rw [hnil] at hlength
          exact hne (List.length_eq_zero_iff.mp hlength.symm)
        have hrest := ih hlands (by rw [hkept.capacity, hfront, hempty]) hchunks hrun
        rwa [hfront] at hrest

/-- Where an exact reservation turns out to be exact, the condition was met. -/
theorem reserves_of_exact (h : Carries buf bytes) {pieces : List Piece}
    (htotal : total pieces = additional)
    (hrun : reserveExactly cfg buf additional pieces = .ok buf') (hexact : Exact buf buf') :
    Reserves cfg buf additional pieces := by
  by_cases hfits : additional ≤ buf.front
  · exact .inl hfits
  obtain ⟨planned, hplanned, hrun⟩ := step_bind_eq_ok hrun
  obtain ⟨hplan, hchunks, hfront, hcapacity, hkeep⟩ :=
    ReverseBuffer.planReservationExact_eq_ok hplanned
  obtain ⟨-, hplanExact, hsum⟩ := hplan.resolve_left fun hlt => hfits hlt.1.le
  have hcarries := h.with_plan hchunks hfront hcapacity hkeep
  obtain ⟨final, hfinal, hfinalLen⟩ := hcarries.runPieces_ok pieces hrun
  have hlen := h.length_eq
  have hle := h.front_le
  have hlen' := hfinal.length_eq
  have hle' := hfinal.front_le
  have hlt' := hfinal.capacity_lt
  -- the bytes are all there in the end, so the sum did not wrap around
  have hplanSize : planned.plannedAllocation = buf.capacity + (additional - buf.front) :=
    add_eq_ok (by omega) hsum
  obtain ⟨before, piece, after, rfl, hbefore, hcross⟩ :=
    exists_crossing pieces (show planned.front < total pieces by omega)
  obtain ⟨mid, bytes', grown, hmid, hmidLen, hkept, hmidFront, hpiece, hgrown, hafter⟩ :=
    hcarries.crossing hbefore hcross hrun
  obtain ⟨⟨size, hsize, hgrownCap⟩, hgrownChunks, -⟩ := hgrown
  have hcond := newAllocationSize_of_plan
    ⟨hkept.plan.1.trans hplanSize, hkept.plan.2.trans hplanExact⟩ (by omega) hsize
  obtain ⟨hgrownLe, hgrownSame⟩ := runPieces_chunks after hafter
  have hkeptChunks := hkept.chunks
  have hkeptCap := hkept.capacity
  have honce := hexact.once
  rw [hchunks] at hkeptChunks
  have hspare := hexact.spare (by omega)
  have hfinalCap := hgrownSame (by omega)
  have hparts := total_append before (piece :: after)
  rw [total_cons] at hparts
  have hsizeLe : size ≤ additional := by omega
  have hempty : buf.capacity = buf.front := by
    split_ifs at hcond <;> omega
  refine .inr ⟨hempty, fun hzero => ?_, fun hdebug hne => ?_⟩
  · have hfirst : first (before ++ piece :: after) = some piece :=
      first_of_total_eq_zero (by omega) (by omega) after
    rw [hfirst]
    by_cases hplan : piece.isU8 = true ∨
        piece.bytes.length - mid.front < buf.capacity + (additional - buf.front)
    · right
      rintro p hp
      obtain rfl := Option.some.inj hp
      exact hplan.symm.imp (fun hlt => by omega) id
    · left
      rw [if_neg hplan] at hcond
      have := le_max_left minChunkSize mid.capacity
      omega
  · have hfirst := hcarries.first_fits (by omega) (hchunks ▸ hne) hdebug _ hrun
    rwa [hfront] at hfirst

/-- Where the condition is met, an exact reservation is exact. -/
theorem exact_of_reserves (h : Carries buf bytes) (hadditional : additional < 2 ^ 64)
    {pieces : List Piece} (htotal : total pieces = additional)
    (hreserves : Reserves cfg buf additional pieces) :
    EndsWith (Exact buf) (additional + bytes.length)
      (reserveExactly cfg buf additional pieces) := by
  have hle := h.front_le
  have hlt := h.capacity_lt
  have hlen := h.length_eq
  -- the sum of the plan never overflows here
  have hplans : ∃ planned, buf.planReservationExact cfg additional = .ok planned := by
    unfold ReverseBuffer.planReservationExact
    split_ifs with hfits
    · exact ⟨buf, rfl⟩
    · have hsum : buf.capacity + (additional - buf.front) < 2 ^ 64 := by
        rcases hreserves with hroom | ⟨hempty, -⟩ <;> omega
      dsimp only
      rw [cfg.add_of_lt hsum]
      exact ⟨_, rfl⟩
  obtain ⟨planned, hplanned⟩ := hplans
  obtain ⟨hplan, hchunks, hfront, hcapacity, hkeep⟩ :=
    ReverseBuffer.planReservationExact_eq_ok hplanned
  have hcarries := h.with_plan hchunks hfront hcapacity hkeep
  rw [reserveExactly, hplanned, step_ok_bind]
  by_cases hroom : additional ≤ buf.front
  · have hfit := hcarries.pieces_fit cfg pieces (by omega)
    rw [htotal] at hfit
    refine hfit.mono rfl fun buf' _ hkept _ _ => ⟨?_, ?_, ?_⟩
    · rw [hkept.chunks, hchunks]
      exact Nat.le_succ _
    · rw [hkept.chunks, hchunks]
      exact fun hlt => absurd hlt (lt_irrefl _)
    · rw [hkept.chunks, hchunks]
      exact fun hlt => absurd hlt (lt_irrefl _)
  obtain ⟨hempty, hsmall, hold⟩ := hreserves.resolve_left hroom
  obtain ⟨-, hplanExact, hsum⟩ := hplan.resolve_left fun hlt => hroom hlt.1.le
  have hplanSize : planned.plannedAllocation = additional := by
    rw [add_eq_ok (by omega) hsum]
    omega
  obtain ⟨before, piece, after, rfl, hbefore, hcross⟩ :=
    exists_crossing pieces (show planned.front < total pieces by omega)
  rw [total_append, total_cons] at htotal
  rw [runPieces_append]
  refine (hcarries.pieces_fit cfg before hbefore).bind fun mid bytes' hkept hmid hmidLen => ?_
  have hmidLe := hmid.front_le
  have hmidLen' := hmid.length_eq
  have hmidCap := hkept.capacity
  have hmidChunks := hkept.chunks
  have hfirst (hzero : total before = 0) : first (before ++ piece :: after) = some piece :=
    first_of_total_eq_zero hzero (by omega) after
  have hsafe : piece.op.Safe cfg mid := by
    cases piece with
    | buf data =>
        right
        by_cases hbytes : bytes' = []
        · -- nothing was written yet, so this is the first piece
          intro hdebug
          subst hbytes
          rw [List.length_nil] at hmidLen
          have hnil : buf.chunks = [] := by
            by_contra hne
            have hfits := hold hdebug hne _ (hfirst (by omega)) rfl
            omega
          rw [hchunks, hnil, List.length_nil] at hmidChunks
          rw [List.length_eq_zero_iff.mp hmidChunks]
          exact fun c hc => by cases hc
        · exact hmid.oldFrontOk hbytes
    | u8 byte =>
        rintro ⟨-, -, hzero⟩
        rw [hkept.plan.1, hplanSize] at hzero
        omega
    | slice data => trivial
    | array data => trivial
  rw [runPieces]
  refine (hmid.piece_ends piece hsafe).bind fun grown bytes'' hgrown hcarried hcarriedLen => ?_
  obtain ⟨-, ⟨⟨size, hsize, hgrownCap⟩, hgrownChunks, -⟩⟩ :=
    hgrown.resolve_left fun hfits => by omega
  have hcond := newAllocationSize_of_plan
    ⟨hkept.plan.1.trans hplanSize, hkept.plan.2.trans hplanExact⟩ (by omega) hsize
  have hsizeEq : size = additional := by
    by_cases hkeeps : piece.isU8 = true ∨ piece.bytes.length - mid.front < additional
    · rwa [if_pos hkeeps] at hcond
    · -- all bytes come in this piece, and there was no capacity
      rw [if_neg hkeeps] at hcond
      obtain ⟨hnotU8, hge⟩ := not_or.mp hkeeps
      have hmin := (hsmall (by omega)).resolve_right fun hlater => by
        rcases hlater piece (hfirst (by omega)) with hshort | hU8
        · omega
        · exact hnotU8 hU8
      have hcap : mid.capacity = 0 := by omega
      rw [hcap, Nat.max_zero] at hcond
      omega
  have hgrownLe := hcarried.front_le
  have hgrownLen := hcarried.length_eq
  refine (hcarried.pieces_fit cfg after (by omega)).mono (by omega) ?_
  intro buf' final hkept' hfinal hfinalLen
  have hfinalLen' := hfinal.length_eq
  have hfinalCap := hkept'.capacity
  have hfinalChunks := hkept'.chunks
  have hfinalLe := hfinal.front_le
  rw [hchunks] at hmidChunks
  have hpos : 0 < final.length := by omega
  exact ⟨by omega, fun _ => hfinal.head_ne_nil (List.length_pos_iff.mp hpos), fun _ => by omega⟩

end planned

/-- An exact reservation is exact under this condition, and only under it. -/
theorem reserveExactly_iff (cfg : BuildConfig) {buf : ReverseBuffer} (h : Reachable cfg buf)
    {additional : Nat} (hadditional : additional < 2 ^ 64) {pieces : List Piece}
    (htotal : total pieces = additional) :
    (Reserves cfg buf additional pieces →
      match reserveExactly cfg buf additional pieces with
      | .ok buf' => Exact buf buf'
      | .error .allocation => True
      | .error .panic => False) ∧
    ∀ buf', reserveExactly cfg buf additional pieces = .ok buf' → Exact buf buf' →
      Reserves cfg buf additional pieces := by
  obtain ⟨bytes, hcarries⟩ := h.carries
  refine ⟨fun hreserves => ?_, fun buf' hrun hexact => reserves_of_exact hcarries htotal hrun hexact⟩
  have hends := exact_of_reserves hcarries hadditional htotal hreserves
  cases hrun : reserveExactly cfg buf additional pieces with
  | ok buf' =>
      rw [hrun] at hends
      exact hends.1
  | error e =>
      rw [hrun] at hends
      cases e <;> exact hends

/-- Three bytes in two pieces. -/
theorem reserveExactly_three :
    match reserveExactly ⟨true, true⟩ .new 3 [.slice [2, 3], .u8 1] with
    | .ok buf' => Exact .new buf'
    | .error .allocation => True
    | .error .panic => False := by
  have htotal : total [.slice [2, 3], .u8 1] = 3 := rfl
  refine (reserveExactly_iff ⟨true, true⟩ .new (by decide) htotal).1 (.inr ⟨rfl, fun _ => ?_,
    fun _ hne => absurd rfl hne⟩)
  right
  intro piece hpiece
  obtain rfl : .slice [2, 3] = piece := Option.some.inj hpiece
  exact .inl (by decide)

/-- Four bytes in front of sixteen leave sixteen to spare, and four bytes in a
new buffer leave twenty-eight. -/
theorem reserveExactly_not_exact :
    (∃ buf buf', buf = ReverseBuffer.fromBox (List.replicate 16 0) ∧ Reachable ⟨true, true⟩ buf ∧
        reserveExactly ⟨true, true⟩ buf 4 [.slice [1, 2, 3, 4]] = .ok buf' ∧
        buf.front = 0 ∧ buf'.front = 16 ∧ ¬Exact buf buf') ∧
      ∃ buf', Reachable ⟨true, true⟩ .new ∧
        reserveExactly ⟨true, true⟩ .new 4 [.slice [1, 2, 3, 4]] = .ok buf' ∧
        buf'.front = 28 ∧ ¬Exact .new buf' := by
  refine ⟨⟨_, ⟨[List.replicate 16 none ++ [some 1, some 2, some 3, some 4],
      List.replicate 16 (some 0)], 16, 36, 0, false, false⟩, rfl, .fromBox (by simp),
      by decide +kernel, rfl, rfl, fun hexact => ?_⟩,
    ⟨[List.replicate 28 none ++ [some 1, some 2, some 3, some 4]], 28, 32, 0, false, false⟩,
    .new, by decide +kernel, rfl, fun hexact => ?_⟩
  · exact absurd (hexact.spare (by decide)) (by decide)
  · exact absurd (hexact.spare (by decide)) (by decide)

end Bilrost
