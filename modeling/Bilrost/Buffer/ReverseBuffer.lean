import Bilrost.Base.Buf

/-!
The prepend-only buffer: chunks of bytes of which only the end is in use, with
the offset of the first byte in the front chunk. This file is the buffer as the
source has it, with its reservation plan, its unchecked arithmetic and its debug
assertions, which are only there in some builds. An operation fails when the
allocator does, or by a panic.

`chunks` lists the front chunk first; the vector of the source has it last.
-/

namespace Bilrost

/-- How the crate is built: with debug assertions and overflow checks or
without, and with the optimization for short copies or without. -/
structure BuildConfig where
  debugAssertions : Bool
  selfCopyOptimization : Bool
  deriving DecidableEq

/-- Why an operation does not return. -/
inductive BufferFailure where
  | allocation
  | panic
  deriving DecidableEq, Repr

/-- A byte of an allocation, `none` as long as it is not initialized. -/
abbrev Cell := Option UInt8

structure ReverseBuffer where
  chunks : List (List Cell)
  front : Nat
  capacity : Nat
  plannedAllocation : Nat
  plannedExact : Bool
  keepBack : Bool
  deriving DecidableEq

def maxSelfCopy : Nat := 9

/-- Two slice references of sixteen bytes each. -/
def minChunkSize : Nat := 32

/-- The arithmetic of `usize`, which panics or wraps, and assertions. -/
abbrev Step (α : Type) := Except BufferFailure α

namespace BuildConfig

def debugAssert (cfg : BuildConfig) (cond : Bool) : Step Unit :=
  if cfg.debugAssertions && !cond then .error .panic else .ok ()

def add (cfg : BuildConfig) (a b : Nat) : Step Nat :=
  if a + b < 2 ^ 64 then .ok (a + b)
  else if cfg.debugAssertions then .error .panic
  else .ok ((a + b) % 2 ^ 64)

def sub (cfg : BuildConfig) (a b : Nat) : Step Nat :=
  if b ≤ a then .ok (a - b)
  else if cfg.debugAssertions then .error .panic
  else .ok (a + 2 ^ 64 - b)

end BuildConfig

/-- The bounds check of a slice index. -/
def boundsCheck (cond : Bool) : Step Unit :=
  if cond then .ok () else .error .panic

/-- Copies `data` over the cells from `start` on. -/
def overwrite (dest : List Cell) (start : Nat) (data : List UInt8) : List Cell :=
  dest.take start ++ data.map some ++ dest.drop (start + data.length)

/-- Copies bytes over the first cells one by one, as far as both go. -/
def overwriteZip : List Cell → List UInt8 → List Cell
  | _ :: cells, byte :: bytes => some byte :: overwriteZip cells bytes
  | cells, _ => cells

/-- The copy that goes backwards from the front index. -/
def selfCopy (dest : List Cell) (oldFront : Nat) (data : List UInt8) : List Cell :=
  (overwriteZip (dest.take oldFront).reverse data.reverse).reverse ++ dest.drop oldFront

/-- What is in use of the front chunk, then the other chunks. -/
def toVectorableSlices (chunks : List (List Cell)) (front : Nat) : List (List Cell) :=
  match chunks with
  | [] => []
  | frontChunk :: rest => frontChunk.drop front :: rest

namespace ReverseBuffer

def new : ReverseBuffer := ⟨[], 0, 0, 0, false, false⟩

/-- An allocation fails when no layout has its size, and at the latest when the
address space is used up. -/
def allocateChunk (cfg : BuildConfig) (allocated newChunkSize : Nat) : Step (List Cell) := do
  cfg.debugAssert (0 < newChunkSize)
  if newChunkSize < 2 ^ 63 ∧ allocated + newChunkSize < 2 ^ 64 then
    .ok (List.replicate newChunkSize none)
  else .error .allocation

def withCapacity (cfg : BuildConfig) (capacity : Nat) : Step ReverseBuffer :=
  if capacity = 0 then .ok new
  else do
    let chunk ← allocateChunk cfg 0 capacity
    .ok ⟨[chunk], capacity, capacity, 0, false, true⟩

/-- `From<Box<[u8]>>` -/
def fromBox (value : List UInt8) : ReverseBuffer :=
  { new with capacity := value.length, chunks := [value.map some] }

/-- `len`, also `Buf::remaining` -/
def len (cfg : BuildConfig) (buf : ReverseBuffer) : Step Nat := do
  cfg.debugAssert (!(buf.chunks.isEmpty && 0 < buf.front))
  cfg.debugAssert (buf.chunks.isEmpty == (buf.capacity == 0))
  cfg.sub buf.capacity buf.front

/-- The chunk that is kept is the oldest one. -/
def clear (buf : ReverseBuffer) : Step ReverseBuffer :=
  if buf.keepBack then
    match buf.chunks.getLast? with
    | some back => .ok ⟨[back], back.length, back.length, 0, false, buf.keepBack⟩
    | none => .error .panic
  else .ok new

def planReservation (buf : ReverseBuffer) (additional : Nat) : ReverseBuffer :=
  if additional < buf.front then buf
  else
    let moreNeeded := additional - buf.front
    if buf.plannedAllocation > moreNeeded then buf
    else { buf with plannedAllocation := moreNeeded, plannedExact := false }

def planReservationExact (cfg : BuildConfig) (buf : ReverseBuffer) (additional : Nat) :
    Step ReverseBuffer :=
  if additional < buf.front then .ok buf
  else do
    let moreNeeded := additional - buf.front
    let planned ← cfg.add buf.capacity moreNeeded
    .ok { buf with plannedAllocation := planned, plannedExact := true }

/-- `front_chunk_mut`, to look at -/
def frontChunk (buf : ReverseBuffer) : List Cell := buf.chunks.headD []

/-- `front_chunk_mut`, to write to -/
def modifyFrontChunk (buf : ReverseBuffer) (write : List Cell → List Cell) : ReverseBuffer :=
  { buf with chunks := buf.chunks.modifyHead write }

def newAllocationSize (cfg : BuildConfig) (buf : ReverseBuffer) : Step Nat :=
  if buf.plannedExact then do
    cfg.debugAssert (buf.plannedAllocation != 0)
    .ok buf.plannedAllocation
  else .ok (max (max minChunkSize buf.capacity) buf.plannedAllocation)

def grow (cfg : BuildConfig) (buf : ReverseBuffer) : Step ReverseBuffer := do
  let newChunkSize ← buf.newAllocationSize cfg
  let newChunk ← allocateChunk cfg buf.capacity newChunkSize
  let front ← cfg.add buf.front newChunkSize
  let capacity ← cfg.add buf.capacity newChunkSize
  .ok ⟨newChunk :: buf.chunks, front, capacity, 0, false, buf.keepBack⟩

/-- `copy_buf` into the `size` cells from `start` on. -/
def copyBuf {β : Type} [Buf β] (cfg : BuildConfig) (data : β) (dest : List Cell)
    (start size : Nat) : Step (List Cell × β) := do
  cfg.debugAssert (Buf.remaining data ≥ size)
  let (bytes, data) := Buf.copyOut size data
  .ok (overwrite dest start bytes, data)

/-- `grow_and_copy_buf`: the end of the data goes to the old front chunk, the
rest to the end of a new one. -/
def growAndCopyBuf {β : Type} [Buf β] (cfg : BuildConfig) (buf : ReverseBuffer) (data : β)
    (prependingLen : Nat) : Step ReverseBuffer := do
  let buf := buf.planReservation prependingLen
  let newChunkSize ← buf.newAllocationSize cfg
  let newChunk ← allocateChunk cfg buf.capacity newChunkSize
  let newEnd ← cfg.add newChunkSize buf.front
  let newFront ← cfg.sub newEnd prependingLen
  cfg.debugAssert (newFront < newChunk.length)
  let (newChunk, data) ← copyBuf cfg data newChunk newFront (newChunk.length - newFront)
  cfg.debugAssert (buf.chunks.head?.all fun oldFrontChunk => buf.front < oldFrontChunk.length)
  let (oldChunk, data) ← copyBuf cfg data buf.frontChunk 0 buf.front
  cfg.debugAssert (Buf.remaining data == 0)
  let capacity ← cfg.add buf.capacity newChunkSize
  .ok ⟨newChunk :: buf.chunks.modifyHead fun _ => oldChunk, newFront, capacity, 0, false,
    buf.keepBack⟩

def growAndCopySlice (cfg : BuildConfig) (buf : ReverseBuffer) (data : List UInt8) :
    Step ReverseBuffer := do
  let buf := buf.planReservation data.length
  if buf.front = 0 then
    let buf ← buf.grow cfg
    let newFront ← cfg.sub buf.front data.length
    boundsCheck (newFront ≤ buf.frontChunk.length)
    .ok { buf.modifyFrontChunk (overwrite · newFront data) with front := newFront }
  else
    let dataFront := data.take (data.length - buf.front)
    let dataBack := data.drop (data.length - buf.front)
    let buf ← (buf.modifyFrontChunk (overwrite · 0 dataBack)).grow cfg
    let newFront ← cfg.sub buf.front data.length
    cfg.debugAssert (newFront + dataFront.length == buf.frontChunk.length)
    boundsCheck (newFront ≤ buf.frontChunk.length)
    .ok { buf.modifyFrontChunk (overwrite · newFront dataFront) with front := newFront }

def prepend {β : Type} [Buf β] (cfg : BuildConfig) (buf : ReverseBuffer) (data : β) :
    Step ReverseBuffer :=
  let prependingLen := Buf.remaining data
  if prependingLen = 0 then .ok buf
  else if prependingLen ≤ buf.front then do
    let newFront := buf.front - prependingLen
    boundsCheck (buf.front ≤ buf.frontChunk.length)
    if cfg.selfCopyOptimization && prependingLen ≤ maxSelfCopy then
      let (bytes, _) := Buf.copyOut prependingLen data
      .ok { buf.modifyFrontChunk (selfCopy · buf.front bytes) with front := newFront }
    else
      let (chunk, data) ← copyBuf cfg data buf.frontChunk newFront prependingLen
      cfg.debugAssert (Buf.remaining data == 0)
      .ok { buf.modifyFrontChunk (fun _ => chunk) with front := newFront }
  else growAndCopyBuf cfg buf data prependingLen

def prependSlice (cfg : BuildConfig) (buf : ReverseBuffer) (data : List UInt8) :
    Step ReverseBuffer :=
  if data.length ≤ buf.front then
    let newFront := buf.front - data.length
    if cfg.selfCopyOptimization && data.length ≤ maxSelfCopy then do
      boundsCheck (buf.front ≤ buf.frontChunk.length)
      .ok { buf.modifyFrontChunk (selfCopy · buf.front data) with front := newFront }
    else do
      boundsCheck (newFront ≤ buf.frontChunk.length)
      .ok { buf.modifyFrontChunk (overwrite · newFront data) with front := newFront }
  else growAndCopySlice cfg buf data

/-- `prepend_array`, which never uses the optimization. -/
def prependArray (cfg : BuildConfig) (buf : ReverseBuffer) (data : List UInt8) :
    Step ReverseBuffer :=
  if data.length ≤ buf.front then do
    let newFront := buf.front - data.length
    boundsCheck (newFront ≤ buf.frontChunk.length)
    .ok { buf.modifyFrontChunk (overwrite · newFront data) with front := newFront }
  else growAndCopySlice cfg buf data

def prependU8 (cfg : BuildConfig) (buf : ReverseBuffer) (byte : UInt8) : Step ReverseBuffer := do
  let buf ← if buf.front = 0 then buf.grow cfg else .ok buf
  let newFront ← cfg.sub buf.front 1
  boundsCheck (newFront < buf.frontChunk.length)
  .ok { buf.modifyFrontChunk (overwrite · newFront [byte]) with front := newFront }

def chunk (cfg : BuildConfig) (buf : ReverseBuffer) : Step (List Cell) :=
  match buf.chunks with
  | [] => .ok []
  | frontChunk :: _ => do
      cfg.debugAssert (buf.front < frontChunk.length)
      .ok (frontChunk.drop buf.front)

def contiguous (cfg : BuildConfig) (buf : ReverseBuffer) : Step (Option (List Cell)) :=
  match buf.chunks with
  | _ :: _ :: _ => .ok none
  | _ => do
      let chunk ← buf.chunk cfg
      .ok (some chunk)

/-- The loop of `advance`: drops chunks until the front index is in the front
chunk again. -/
def dropChunks (cfg : BuildConfig) (buf : ReverseBuffer) : List (List Cell) → Step ReverseBuffer
  | [] => .ok { buf with chunks := [] }
  | frontChunk :: chunks =>
      if buf.front < frontChunk.length then .ok { buf with chunks := frontChunk :: chunks }
      else if buf.keepBack && chunks.isEmpty then do
        cfg.debugAssert (buf.capacity == buf.front)
        .ok { buf with chunks := frontChunk :: chunks }
      else do
        let capacity ← cfg.sub buf.capacity frontChunk.length
        dropChunks cfg ⟨[], buf.front - frontChunk.length, capacity, 0, false, buf.keepBack⟩ chunks

def advance (cfg : BuildConfig) (buf : ReverseBuffer) (cnt : Nat) : Step ReverseBuffer :=
  if cnt = 0 then .ok buf
  else do
    let len ← buf.len cfg
    if cnt > len then .error .panic
    else
      let front ← cfg.add buf.front cnt
      dropChunks cfg { buf with front := front } buf.chunks

def slices (buf : ReverseBuffer) : List (List Cell) := toVectorableSlices buf.chunks buf.front

/-- Reading a buffer to its end by `chunk` and `advance`, as `BufMut::put` does.
Every round takes a byte at least, so `len` rounds are enough. -/
def drain (cfg : BuildConfig) : Nat → ReverseBuffer → Step (List Cell)
  | 0, _ => .ok []
  | rounds + 1, buf => do
      let remaining ← buf.len cfg
      if remaining = 0 then .ok []
      else
        let chunk ← buf.chunk cfg
        let buf ← buf.advance cfg chunk.length
        let rest ← drain cfg rounds buf
        .ok (chunk ++ rest)

def intoVec (cfg : BuildConfig) (buf : ReverseBuffer) : Step (List Cell) :=
  match buf.chunks with
  | [whole] => if buf.front = 0 then .ok whole else do drain cfg (← buf.len cfg) buf
  | _ => do drain cfg (← buf.len cfg) buf

end ReverseBuffer

/-- The reader that leaves the buffer as it is. -/
structure ReverseBufferReader where
  chunks : List (List Cell)
  front : Nat
  capacity : Nat

namespace ReverseBufferReader

def remaining (cfg : BuildConfig) (reader : ReverseBufferReader) : Step Nat :=
  cfg.sub reader.capacity reader.front

def slices (reader : ReverseBufferReader) : List (List Cell) :=
  toVectorableSlices reader.chunks reader.front

def chunk (cfg : BuildConfig) (reader : ReverseBufferReader) : Step (List Cell) :=
  match reader.chunks with
  | [] => .ok []
  | frontChunk :: _ => do
      cfg.debugAssert (reader.front < frontChunk.length)
      .ok (frontChunk.drop reader.front)

/-- The loop of `advance`. -/
def dropChunks (cfg : BuildConfig) (front capacity : Nat) :
    List (List Cell) → Step ReverseBufferReader
  | [] => .ok ⟨[], front, capacity⟩
  | frontChunk :: chunks =>
      if front < frontChunk.length then .ok ⟨frontChunk :: chunks, front, capacity⟩
      else do
        let capacity ← cfg.sub capacity frontChunk.length
        dropChunks cfg (front - frontChunk.length) capacity chunks

def advance (cfg : BuildConfig) (reader : ReverseBufferReader) (cnt : Nat) :
    Step ReverseBufferReader :=
  if cnt = 0 then .ok reader
  else do
    let remaining ← reader.remaining cfg
    if cnt > remaining then .error .panic
    else
      let front ← cfg.add reader.front cnt
      dropChunks cfg front reader.capacity reader.chunks

/-- Reading to the end by `chunk` and `advance`. -/
def drain (cfg : BuildConfig) : Nat → ReverseBufferReader → Step (List Cell)
  | 0, _ => .ok []
  | rounds + 1, reader => do
      let remaining ← reader.remaining cfg
      if remaining = 0 then .ok []
      else
        let chunk ← reader.chunk cfg
        let reader ← reader.advance cfg chunk.length
        let rest ← drain cfg rounds reader
        .ok (chunk ++ rest)

end ReverseBufferReader

def ReverseBuffer.bufReader (buf : ReverseBuffer) : ReverseBufferReader :=
  ⟨buf.chunks, buf.front, buf.capacity⟩

end Bilrost
