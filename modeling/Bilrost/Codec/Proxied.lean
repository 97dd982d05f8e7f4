import Bilrost.Codec.Basic

/-!
Types that are encoded as values of another type.
-/

namespace Bilrost

open Program

/-- `Proxiable` and `DistinguishedProxiable`. What is decoded never depends on
the value that was there before. -/
structure Proxy (T P : Type) where
  encodeProxy : T → P
  decodeProxy : P → Except DecodeErrorKind T
  decodeProxyDistinguished : P → Except DecodeErrorKind (T × Canonicity)

/-- `Proxied`, for a type with its own `ForOverwrite` and `EmptyState`. -/
def ValueCodec.proxied {T P : Type} (codec : ValueCodec P) (proxy : Proxy T P)
    (forOverwrite : T) (emptyState : Option (EmptyState T)) : ValueCodec T where
  forOverwrite := forOverwrite
  emptyState := emptyState
  wireType := codec.wireType
  encodeValue value := codec.encodeValue (proxy.encodeProxy value)
  prependValue value := codec.prependValue (proxy.encodeProxy value)
  valueEncodedLen value := codec.valueEncodedLen (proxy.encodeProxy value)
  manyValuesEncodedLen values := codec.manyValuesEncodedLen (values.map proxy.encodeProxy)
  decodeValue mode depth _ := do
    let decoded ← codec.decodeValue mode depth codec.forOverwrite
    ofResult (proxy.decodeProxy decoded)
  checksEmpty := codec.checksEmpty
  decodeValueDistinguished mode allowEmpty depth _ := do
    let (decoded, canon) ← codec.decodeValueDistinguished mode allowEmpty depth codec.forOverwrite
    let (value, proxyCanon) ← ofResult (proxy.decodeProxyDistinguished decoded)
    let proxyCanon ← checked proxyCanon
    .done (value, canon.update proxyCanon)
  nestsWithin depth value := codec.nestsWithin depth (proxy.encodeProxy value)

end Bilrost
