import Bilrost.Decode.Capped

/-!
Decoders as programs. A decoder is written once, as a program over the reads
that the source makes: the operations on a capped buffer, the check of a
canonicity against the context, and the decoding of a delimited region inside
the region being read. `Program.run` executes it on a buffer the way the source
does. What the rest of the development proves about all decoders alike is
proved by induction on programs.
-/

namespace Bilrost

/-- How a run stops short: with an error of the source or, in the model alone,
because a loop used up the rounds it was given. -/
inductive Stop where
  | error (kind : DecodeErrorKind)
  | outOfRounds
  deriving DecidableEq, Repr

/-- What a decoder does with the depth of recursion, and where. The source keeps
no such record; it is there so that one can say what a run has passed. -/
inductive Note where
  /-- The limit is tested with this much depth remaining. -/
  | meets (depth : Nat)
  /-- The contents of a value that is encoded like a message come next, and this
  depth is lessened for them. -/
  | enters (depth : Nat)
  /-- The contents of a message variant of a oneof come next. -/
  | entersVariant
  /-- A value without contents is refused as empty, before the limit is tested
  with this much depth remaining. -/
  | skipsEmpty (depth : Nat)
  deriving DecidableEq, Repr

/-- The reads of a decoder. -/
inductive Op : Type → Type where
  | decodeVarint : Op Nat
  | remainingBeforeCap : Op Nat
  | hasRemaining : Op Bool
  | peekRepeatedField : Op (Option WireType)
  | getBytes (n : Nat) : Op Bytes
  | copyBytes (n : Nat) : Op Bytes
  | skipBytes (n : Nat) : Op Unit
  | takeAll : Op Bytes
  | takeSmolStr : Op Bytes
  | takeBorrowed : Op Bytes
  | note (note : Note) : Op Unit

/-- A read, executed. -/
def Op.run {β γ : Type} [Buf β] : Op γ → Capped β → Except DecodeErrorKind (γ × Capped β)
  | decodeVarint, capped => capped.decodeVarint
  | remainingBeforeCap, capped => .ok (capped.remainingBeforeCap, capped)
  | hasRemaining, capped => capped.hasRemaining.map fun more => (more, capped)
  | peekRepeatedField, capped => .ok capped.peekRepeatedField
  | getBytes n, capped => capped.getBytes n
  | copyBytes n, capped => capped.copyBytes n
  | skipBytes n, capped => (capped.skipBytes n).map fun capped => ((), capped)
  | takeAll, capped => .ok capped.takeAll
  | takeSmolStr, capped => .ok capped.takeSmolStr
  | takeBorrowed, capped => capped.takeBorrowedLengthDelimited
  | note _, capped => .ok ((), capped)

/-- A decoder that returns an `α`. `region` reads a length delimiter and runs
`inner`, which is told the length, on the region that follows. -/
inductive Program : Type → Type 1 where
  | done {α : Type} (value : α) : Program α
  | fail {α : Type} (stop : Stop) : Program α
  | check {α : Type} (canon : Canonicity) (next : Program α) : Program α
  | op {γ α : Type} (read : Op γ) (next : γ → Program α) : Program α
  | region {γ α : Type} (inner : Nat → Program γ) (next : γ → Program α) : Program α

namespace Program

def bind {α δ : Type} : Program α → (α → Program δ) → Program δ
  | done value, f => f value
  | fail stop, _ => .fail stop
  | check canon next, f => .check canon (next.bind f)
  | op read next, f => .op read fun x => (next x).bind f
  | region inner next, f => .region inner fun x => (next x).bind f

instance : Monad Program where
  pure := done
  bind := bind

/-- Runs a decoder whose context demands the canonicity `minCanonicity`. -/
def run {β : Type} [Buf β] (minCanonicity : Canonicity) {α : Type} :
    Program α → Capped β → Except Stop (α × Capped β)
  | done value, capped => .ok (value, capped)
  | fail stop, _ => .error stop
  | check canon next, capped =>
      match Bilrost.check minCanonicity canon with
      | .ok _ => next.run minCanonicity capped
      | .error kind => .error (.error kind)
  | op read next, capped =>
      match read.run capped with
      | .ok (x, capped) => (next x).run minCanonicity capped
      | .error kind => .error (.error kind)
  | region inner next, capped =>
      match capped.takeLengthDelimited with
      | .ok delimited =>
          match (inner delimited.remainingBeforeCap).run minCanonicity delimited with
          | .ok (x, delimited) =>
              (next x).run minCanonicity ⟨delimited.buf, capped.extraBytesRemaining⟩
          | .error stop => .error stop
      | .error kind => .error (.error kind)

/-- One read. -/
def read {γ : Type} (o : Op γ) : Program γ := .op o .done

def error {α : Type} (kind : DecodeErrorKind) : Program α := .fail (.error kind)

/-- `ctx.check(canon)?` -/
def checked (canon : Canonicity) : Program Canonicity := .check canon (.done canon)

/-- Records what the decoder is at. -/
def noted (note : Note) : Program Unit := .op (.note note) .done

/-- Decodes a delimited region. -/
def delimited {γ : Type} (inner : Nat → Program γ) : Program γ := .region inner .done

def ofResult {α : Type} : Except DecodeErrorKind α → Program α
  | .ok value => .done value
  | .error kind => .error kind

@[simp] theorem pure_eq {α : Type} (value : α) : (pure value : Program α) = .done value := rfl

@[simp] theorem bind_eq {α δ : Type} (p : Program α) (f : α → Program δ) : p >>= f = p.bind f := rfl

@[simp] theorem done_bind {α δ : Type} (value : α) (f : α → Program δ) :
    (done value).bind f = f value := rfl

@[simp] theorem fail_bind {α δ : Type} (stop : Stop) (f : α → Program δ) :
    (fail stop).bind f = .fail stop := rfl

@[simp] theorem check_bind {α δ : Type} (canon : Canonicity) (next : Program α)
    (f : α → Program δ) : (check canon next).bind f = .check canon (next.bind f) := rfl

@[simp] theorem op_bind {γ α δ : Type} (o : Op γ) (next : γ → Program α) (f : α → Program δ) :
    (op o next).bind f = .op o fun x => (next x).bind f := rfl

@[simp] theorem region_bind {γ α δ : Type} (inner : Nat → Program γ) (next : γ → Program α)
    (f : α → Program δ) : (region inner next).bind f = .region inner fun x => (next x).bind f := rfl

@[simp] theorem bind_done {α : Type} (p : Program α) : p.bind .done = p := by
  induction p with
  | done value => rfl
  | fail stop => rfl
  | check canon next ih => simp [ih]
  | op o next ih => simp [ih]
  | region inner next _ ih => simp [ih]

theorem bind_assoc {α δ ε : Type} (p : Program α) (f : α → Program δ) (g : δ → Program ε) :
    (p.bind f).bind g = p.bind fun x => (f x).bind g := by
  induction p with
  | done value => rfl
  | fail stop => rfl
  | check canon next ih => simp [ih]
  | op o next ih => simp [ih]
  | region inner next _ ih => simp [ih]

section
variable {β : Type} [Buf β] (minCanonicity : Canonicity)

/-- A program runs as its parts do, one after the other. -/
theorem run_bind {α δ : Type} (p : Program α) (f : α → Program δ) (capped : Capped β) :
    (p.bind f).run minCanonicity capped =
      match p.run minCanonicity capped with
      | .ok (x, capped) => (f x).run minCanonicity capped
      | .error stop => .error stop := by
  induction p generalizing capped with
  | done value => rfl
  | fail stop => rfl
  | check canon next ih =>
    simp only [check_bind, run]
    split
    · exact ih f capped
    · rfl
  | op o next ih =>
    simp only [op_bind, run]
    split
    · exact ih _ f _
    · rfl
  | region inner next _ ih =>
    simp only [region_bind, run]
    split
    · split
      · exact ih _ f _
      · rfl
    · rfl

end

end Program

end Bilrost
