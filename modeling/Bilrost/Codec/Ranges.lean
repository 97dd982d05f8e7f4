import Bilrost.Codec.Fields
import Mathlib.Logic.Equiv.Fin.Basic

/-!
Ranges. They are encoded as tuples of their bounds, the first with the tag zero
and the second with the tag one.
-/

namespace Bilrost

/-- `core::ops::RangeInclusive`. Iterating to the end of a range sets its flag,
which is compared along with the bounds. -/
structure RangeInclusive (T : Type) where
  start : T
  stop : T
  exhausted : Bool
  deriving DecidableEq

namespace RangeInclusive

variable {T : Type}

/-- `start..=end` -/
def new (bounds : T × T) : RangeInclusive T := ⟨bounds.1, bounds.2, false⟩

/-- `into_inner` -/
def intoInner (range : RangeInclusive T) : T × T := (range.start, range.stop)

end RangeInclusive

/-- `core::ops::Range`. -/
structure Range (T : Type) where
  start : T
  stop : T
  deriving DecidableEq

namespace Range

variable {T : Type}

/-- `start..end` -/
def ofTuple (bounds : T × T) : Range T := ⟨bounds.1, bounds.2⟩

def toTuple (range : Range T) : T × T := (range.start, range.stop)

end Range

/-- The emptiness of a value that is taken apart. -/
def EmptyState.through {S P : Type} (state : EmptyState P) (takeApart : S → P) (compose : P → S) :
    EmptyState S where
  isEmpty value := state.isEmpty (takeApart value)
  clear value := compose (state.clear (takeApart value))

/-- A value that is taken apart to be encoded. What is decoded into it is decoded
into its parts, from which it is composed again. -/
def ValueCodec.through {S P : Type} (codec : ValueCodec P) (takeApart : S → P) (compose : P → S) :
    ValueCodec S where
  forOverwrite := compose codec.forOverwrite
  emptyState := codec.emptyState.map fun state => state.through takeApart compose
  wireType := codec.wireType
  encodeValue value := codec.encodeValue (takeApart value)
  prependValue value := codec.prependValue (takeApart value)
  valueEncodedLen value := codec.valueEncodedLen (takeApart value)
  manyValuesEncodedLen values := codec.manyValuesEncodedLen (values.map takeApart)
  decodeValue mode depth value := do
    let parts ← codec.decodeValue mode depth (takeApart value)
    .done (compose parts)
  checksEmpty := codec.checksEmpty
  decodeValueDistinguished mode allowEmpty depth value := do
    let (parts, canon) ← codec.decodeValueDistinguished mode allowEmpty depth (takeApart value)
    .done (compose parts, canon)
  nestsWithin depth value := codec.nestsWithin depth (takeApart value)

section
variable {T : Type} (start stop : FieldCodec T)

def boundField : Fin 2 → MessageField T
  | 0 => start.tagged 0
  | 1 => stop.tagged 1

/-- The bounds of a range, each with an encoding of its own. -/
def boundFields : Fields (T × T) where
  count := 2
  Ty _ := T
  field := boundField start stop
  Ignored := Unit
  ignoredDefault := ()
  view := (finTwoArrowEquiv T).symm.trans (Equiv.prodPUnit _).symm

/-- The fields as the handwritten encoding goes through them. -/
def bounds : MessageCodec (T × T) :=
  (boundFields start stop).message ((boundFields start stop).listed (.runtime 0))

/-- How `RangeInclusive` is encoded. -/
def RangeInclusive.codec : ValueCodec (RangeInclusive T) :=
  (bounds start stop).tupled.through intoInner new

/-- How `Range` is encoded. -/
def Range.codec : ValueCodec (Range T) :=
  (bounds start stop).tupled.through toTuple ofTuple

def boundsState : EmptyState (T × T) where
  isEmpty := (bounds start stop).isEmpty
  clear := (bounds start stop).clear

end

end Bilrost
