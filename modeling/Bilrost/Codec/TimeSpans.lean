import Bilrost.Codec.Proxied
import Bilrost.Codec.Fields
import Bilrost.Codec.ScalarTypes
import Bilrost.Types.Normalize
import Mathlib.Logic.Equiv.Fin.Basic

/-!
Signed spans of time as values. The types of two other crates are encoded by way
of a proxy, which is a pair of seconds and nanoseconds with the same sign; its
encoding is handwritten and is that of the message `Duration`. What is used of
the other crates is a parameter, along with what they say about it.
-/

namespace Bilrost

open Program Bilrost.Types

/-- Signed integers as their bits. -/
def Ranged.bits {lo hi : Int} (w : Nat) (hw : 0 < w) (hlo : lo = -2 ^ (w - 1))
    (hhi : hi = 2 ^ (w - 1) - 1) : Ranged lo hi ≃ BitVec w where
  toFun n := BitVec.ofInt w n.val
  invFun b :=
    { val := b.toInt
      le_val := hlo ▸ BitVec.le_toInt b
      val_le := by
        have hlt := @BitVec.toInt_lt w b
        omega }
  left_inv n := by
    have hle : -2 ^ (w - 1) ≤ n.val := hlo.symm.trans_le n.le_val
    have hge : n.val ≤ 2 ^ (w - 1) - 1 := n.val_le.trans_eq hhi
    exact Ranged.ext (BitVec.toInt_ofInt_eq_self hw hle (Int.lt_of_le_sub_one hge))
  right_inv b := BitVec.ofInt_toInt

def I64.bits : I64 ≃ BitVec 64 := Ranged.bits 64 (by decide) (by decide) (by decide)

def I32.bits : I32 ≃ BitVec 32 := Ranged.bits 32 (by decide) (by decide) (by decide)

namespace SecondsAndNanos

/-- A signed integer of 64 bits in the general encoding, and one of 32 bits in
the fixed one. -/
def Ty : Fin 2 → Type
  | 0 => BitVec 64
  | 1 => BitVec 32

def field : (i : Fin 2) → MessageField (Ty i)
  | 0 => (VarintScalar.i64.scalar.codec.plain (EmptyState.single (0 : BitVec 64))).tagged 1
  | 1 => (FixedScalar.i32.scalar.codec.plain (EmptyState.single (0 : BitVec 32))).tagged 2

/-- The fields of a message of seconds and nanoseconds. -/
def fields {M : Type} (view : M ≃ I64 × I32) : Fields M where
  count := 2
  Ty := Ty
  field := field
  Ignored := Unit
  ignoredDefault := ()
  view := view.trans ((I64.bits.prodCongr I32.bits).trans
    ((piFinTwoEquiv Ty).symm.trans (Equiv.prodPUnit _).symm))

end SecondsAndNanos

namespace Types.Duration

def parts : Duration ≃ I64 × I32 where
  toFun d := (d.seconds, d.nanos)
  invFun p := ⟨p.1, p.2⟩
  left_inv _ := rfl
  right_inv _ := rfl

def fields : Fields Duration := SecondsAndNanos.fields parts

/-- The derived message. -/
def message : MessageCodec Duration := fields.message fields.derived

end Types.Duration

@[ext] structure TimeDeltaProxy where
  secs : I64
  nanos : I32
  deriving DecidableEq, Repr

namespace TimeDeltaProxy

def parts : TimeDeltaProxy ≃ I64 × I32 where
  toFun p := (p.secs, p.nanos)
  invFun p := ⟨p.1, p.2⟩
  left_inv _ := rfl
  right_inv _ := rfl

def fields : Fields TimeDeltaProxy := SecondsAndNanos.fields parts

/-- The fields as the handwritten encoding goes through them. -/
def message : MessageCodec TimeDeltaProxy := fields.message (fields.listed (.runtime 0))

/-- The handwritten encoding. Relaxed decoding alone looks at the signs. -/
def codec : ValueCodec TimeDeltaProxy :=
  { message.tupled with
    decodeValue := fun mode depth value => do
      let value ← message.tupled.decodeValue mode depth value
      if value.secs.val.sign * value.nanos.val.sign = -1 then error .invalidValue
      else .done value }

/-- The exact number of nanoseconds. -/
def total (p : TimeDeltaProxy) : Int := p.secs.val * nanosPerSecond + p.nanos.val

/-- The message with the same parts. -/
def duration (p : TimeDeltaProxy) : Duration := ⟨p.secs, p.nanos⟩

end TimeDeltaProxy

/-- `Proxiable` and `DistinguishedProxiable` of a type of spans, with its default
value. -/
structure SpanSupport (T : Type) where
  default : T
  encodeProxy : T → TimeDeltaProxy
  decodeProxy : TimeDeltaProxy → Attempt (Except DecodeErrorKind T)

namespace SpanSupport

variable {T : Type} (support : SpanSupport T)

/-- `decode_proxy_distinguished`, which is the same for all of them. -/
def decodeProxyDistinguished (p : TimeDeltaProxy) :
    Attempt (Except DecodeErrorKind (T × Canonicity)) := do
  let decoded ← support.decodeProxy p
  .ok (decoded.map fun t => (t, .canonical))

/-- As a proxy. None of them panics. -/
def proxy : Proxy T TimeDeltaProxy where
  encodeProxy := support.encodeProxy
  decodeProxy p :=
    match support.decodeProxy p with
    | .ok decoded => decoded
    | .error _ => .error .other
  decodeProxyDistinguished p :=
    match support.decodeProxyDistinguished p with
    | .ok decoded => decoded
    | .error _ => .error .other

/-- `delegate_proxied_encoding`, with the empty state by default. -/
def codec [DecidableEq T] : ValueCodec T :=
  TimeDeltaProxy.codec.proxied support.proxy support.default
    (some (EmptyState.single support.default))

end SpanSupport

/-- What is used of `chrono::TimeDelta`. -/
structure ChronoTimeDelta (TimeDelta : Type) where
  default : TimeDelta
  new : I64 → U32 → Option TimeDelta
  numSeconds : TimeDelta → I64
  subsecNanos : TimeDelta → I32

namespace ChronoTimeDelta

variable {TimeDelta : Type} (chrono : ChronoTimeDelta TimeDelta)

/-- The range is that of milliseconds in 64 bits, without the least of them. -/
def leastTotal : Int := -9223372036854775807000000

def greatestTotal : Int := 9223372036854775807000000

/-- What `chrono` says about it, where `total` is the length of a span in
nanoseconds: a span is made from the seconds before it and the nanoseconds that
follow, and taken apart toward zero. -/
structure Documented (total : TimeDelta → Int) : Prop where
  injective : Function.Injective total
  least_le (t : TimeDelta) : leastTotal ≤ total t
  le_greatest (t : TimeDelta) : total t ≤ greatestTotal
  default : total chrono.default = 0
  new_eq_some {secs : I64} {nanos : U32} {t : TimeDelta} : chrono.new secs nanos = some t →
    total t = secs.val * nanosPerSecond + nanos.val
  new_isSome {secs : I64} {nanos : U32} : (chrono.new secs nanos).isSome ↔
    nanos.val < nanosPerSecond ∧ leastTotal ≤ secs.val * nanosPerSecond + nanos.val ∧
      secs.val * nanosPerSecond + nanos.val ≤ greatestTotal
  numSeconds (t : TimeDelta) : (chrono.numSeconds t).val = (total t).tdiv nanosPerSecond
  subsecNanos (t : TimeDelta) : (chrono.subsecNanos t).val = (total t).tmod nanosPerSecond

def encodeProxy (t : TimeDelta) : TimeDeltaProxy := ⟨chrono.numSeconds t, chrono.subsecNanos t⟩

/-- The pair that `TimeDelta::new` is given: of a span below zero, the second
before it. -/
def splitProxy (proxy : TimeDeltaProxy) : Attempt (Except DecodeErrorKind (I64 × I32)) :=
  if (-9223372036854775808 + 1 ≤ proxy.secs.val ∧ proxy.secs.val ≤ 0) ∧
      -999999999 ≤ proxy.nanos.val ∧ proxy.nanos.val ≤ -1 then do
    let secs ← Ranged.fit (proxy.secs.val - 1)
    let nanos ← Ranged.fit (proxy.nanos.val + 1000000000)
    .ok (.ok (secs, nanos))
  else if proxy.nanos.val = 0 ∨
      0 ≤ proxy.secs.val ∧ 0 ≤ proxy.nanos.val ∧ proxy.nanos.val ≤ 999999999 then
    .ok (.ok (proxy.secs, proxy.nanos))
  else .ok (.error .invalidValue)

def decodeProxy (proxy : TimeDeltaProxy) : Attempt (Except DecodeErrorKind TimeDelta) := do
  match ← splitProxy proxy with
  | .error kind => .ok (.error kind)
  | .ok (secs, nanos) =>
      match chrono.new secs (.wrap nanos.val) with
      | some t => .ok (.ok t)
      | none => .ok (.error .outOfDomainValue)

def support : SpanSupport TimeDelta := ⟨chrono.default, chrono.encodeProxy, chrono.decodeProxy⟩

end ChronoTimeDelta

/-- What is used of `time::Duration`. -/
structure TimeDuration (Duration : Type) where
  default : Duration
  new : I64 → I32 → Attempt Duration
  wholeSeconds : Duration → I64
  subsecNanoseconds : Duration → I32

namespace TimeDuration

variable {Duration : Type} (time : TimeDuration Duration)

/-- The range is that of seconds in 64 bits. -/
def leastTotal : Int := -9223372036854775808999999999

def greatestTotal : Int := 9223372036854775807999999999

/-- What `time` says about it: a span is made of any seconds and nanoseconds, but
for a panic where it would be out of range, and taken apart toward zero. -/
structure Documented (total : Duration → Int) : Prop where
  injective : Function.Injective total
  least_le (t : Duration) : leastTotal ≤ total t
  le_greatest (t : Duration) : total t ≤ greatestTotal
  default : total time.default = 0
  new_eq_ok {secs : I64} {nanos : I32} {t : Duration} : time.new secs nanos = .ok t →
    total t = secs.val * nanosPerSecond + nanos.val
  new_returns {secs : I64} {nanos : I32} : leastTotal ≤ secs.val * nanosPerSecond + nanos.val →
    secs.val * nanosPerSecond + nanos.val ≤ greatestTotal → ∃ t, time.new secs nanos = .ok t
  wholeSeconds (t : Duration) : (time.wholeSeconds t).val = (total t).tdiv nanosPerSecond
  subsecNanoseconds (t : Duration) :
    (time.subsecNanoseconds t).val = (total t).tmod nanosPerSecond

def encodeProxy (t : Duration) : TimeDeltaProxy := ⟨time.wholeSeconds t, time.subsecNanoseconds t⟩

/-- The lower bound of the seconds is that of their type. -/
def decodeProxy (proxy : TimeDeltaProxy) : Attempt (Except DecodeErrorKind Duration) :=
  if proxy.secs.val ≤ 0 ∧ -999999999 ≤ proxy.nanos.val ∧ proxy.nanos.val ≤ 0 ∨
      0 ≤ proxy.secs.val ∧ 0 ≤ proxy.nanos.val ∧ proxy.nanos.val ≤ 999999999 then do
    let t ← time.new proxy.secs proxy.nanos
    .ok (.ok t)
  else .ok (.error .invalidValue)

def support : SpanSupport Duration := ⟨time.default, time.encodeProxy, time.decodeProxy⟩

end TimeDuration

end Bilrost
