import Bilrost.Schema.MessageSheds
import Bilrost.Schema.Walks

/-!
Schemas whose types keep to what they are relied on for. Types that are encoded
as another one report what they decode as canonical or as not canonical, and
where a message stands for the value of a field, the empty message stands for
the empty value. All that is structural does; so do ignored fields, which are
never decoded.
-/

namespace Bilrost

open Program

/-- `DistinguishedProxiable`: a value is reported as canonical or as not. -/
def Proxy.Reports {T P : Type} (proxy : Proxy T P) : Prop :=
  ∀ ⦃p : P⦄ ⦃value : T⦄ ⦃canon : Canonicity⦄,
    proxy.decodeProxyDistinguished p = .ok (value, canon) → canon ≠ .hasExtensions

/-- An empty message is decoded to the empty value. This is what it is taken for
without being decoded where it may not be empty. -/
def ValueCodec.ReadsEmpty {T : Type} (codec : ValueCodec T) : Prop :=
  ∀ ⦃mode : DecodingMode⦄ ⦃depth : Nat⦄ ⦃value : T⦄, codec.checksEmpty = true →
    codec.Means .distinguished mode depth (regionBytes []) (value, .canonical) →
      value = codec.forOverwrite

/-- Schemas with distinguished decoders whose types do so. Arrays of length zero may
be anywhere but in optional fields that are not packed: there a key is all that is
read. -/
inductive Attested : Part → Prop
  -- values
  | scalar {T : Type} {s : Scalar T} (h : s.Standard) : Attested (.value s.codec)
  | packed {C T : Type} {item : ValueCodec T} {coll : Collection C T}
      (hcoll : coll.Standard .distinguished) (hitem : Attested (.value item)) :
      Attested (.value (item.packed coll))
  | localProxy {T : Type} {item : ValueCodec T} (n : Nat) (empty : T)
      (hitem : Attested (.value item)) :
      Attested (.value (item.packed (LocalProxy.collection T n empty)))
  | map {C K V : Type} {key : ValueCodec K} {val : ValueCodec V} {coll : Collection C (K × V)}
      (hcoll : coll.Standard .distinguished) (hkey : Attested (.value key))
      (hval : Attested (.value val)) : Attested (.value (key.map val coll))
  | packedArray {T : Type} {item : ValueCodec T} {n : Nat} (hitem : Attested (.value item)) :
      Attested (.value (item.packedArray n))
  | proxied {T P : Type} {codec : ValueCodec P} {proxy : Proxy T P} (forOverwrite : T)
      (emptyState : Option (EmptyState T)) (hproxy : proxy.Lawful) (hreports : proxy.Reports)
      (hcodec : Attested (.value codec)) :
      Attested (.value (codec.proxied proxy forOverwrite emptyState))
  | nested {M : Type} {codec : MessageCodec M} (hcodec : Attested (.message codec)) :
      Attested (.value codec.nested)
  | tupled {M : Type} {codec : MessageCodec M} (hcodec : Attested (.message codec)) :
      Attested (.value codec.tupled)
  | inlined {M : Type} {codec : MessageCodec M} (hcodec : Attested (.message codec)) :
      Attested (.value codec.inlined)
  -- fields with one tag
  | plain {T : Type} {codec : ValueCodec T} {state : EmptyState T}
      (hstate : codec.emptyState = some state) (hempties : codec.Empties state)
      (hreads : codec.ReadsEmpty) (hcodec : Attested (.value codec)) :
      Attested (.field (codec.plain state))
  | optional {T : Type} {codec : ValueCodec T} (hcodec : Attested (.value codec)) :
      Attested (.field codec.optional)
  | unpackedField {C T : Type} {item : ValueCodec T} {coll : Collection C T}
      (hcoll : coll.Standard .distinguished) (hitem : Attested (.value item)) :
      Attested (.field (item.unpackedField coll))
  | packedField {C T : Type} {item : ValueCodec T} {coll : Collection C T}
      (hcoll : coll.Standard .distinguished) (hitem : Attested (.value item)) :
      Attested (.field (item.packedField coll))
  | unpackedArrayField {T : Type} {item : ValueCodec T} {state : EmptyState T} {n : Nat}
      (hstate : item.emptyState = some state) (hempties : item.Empties state)
      (hitem : Attested (.value item)) : Attested (.field (item.unpackedArrayField state n))
  | packedArrayField {T : Type} {item : ValueCodec T} {state : EmptyState T} {n : Nat}
      (hstate : item.emptyState = some state) (hempties : item.Empties state)
      (hitem : Attested (.value item)) : Attested (.field (item.packedArrayField state n))
  | unpackedArrayOptionField {T : Type} {item : ValueCodec T} {n : Nat} (hn : 0 < n)
      (hitem : Attested (.value item)) : Attested (.field (item.unpackedArrayOptionField n))
  -- fields of messages
  | tagged {T : Type} {codec : FieldCodec T} (tag : Nat) (hcodec : Attested (.field codec)) :
      Attested (.messageField (codec.tagged tag))
  | oneof {T : Type} {oneof : Oneof T}
      (hvariants : ∀ i, Attested (.value (oneof.codec i))) :
      Attested (.messageField oneof.field)
  -- messages
  | fields {M : Type} {F : Fields M} {w : F.Writing} (hsound : F.Sound) (hw : w.Standard)
      (hfields : ∀ i, Attested (.messageField (F.field i))) :
      Attested (.message (F.message w))
  | recursive {M : Type} {codec : MessageCodec M} (approx : Nat → MessageCodec M)
      (hsame : ∀ depth, codec.SameTo depth (approx depth))
      (hwithin : ∀ m, ∃ depth, codec.nestsWithin depth m)
      (happrox : ∀ depth, Attested (.message (approx depth))) : Attested (.message codec)
  | unrolled {M : Type} {codec : MessageCodec M} (approx : Nat → MessageCodec M)
      (within : Nat → M → Prop) (hunrolls : codec.Unrolls approx within)
      (happrox : ∀ n, Attested (.message (approx n))) : Attested (.message codec)

theorem Attested.built {part : Part} (h : Attested part) : Built .distinguished part := by
  induction h with
  | scalar h => exact .scalar h
  | packed hcoll _ hitem => exact .packed hcoll hitem
  | localProxy n empty _ hitem => exact .localProxy n empty trivial hitem
  | map hcoll _ _ hkey hval => exact .map hcoll hkey hval
  | packedArray _ hitem => exact .packedArray (.inr trivial) hitem
  | proxied forOverwrite emptyState hproxy _ _ hcodec =>
      exact .proxied forOverwrite emptyState trivial hproxy hcodec
  | nested _ hcodec => exact .nested hcodec
  | tupled _ hcodec => exact .tupled hcodec
  | inlined _ hcodec => exact .inlined hcodec
  | plain hstate hempties _ _ hcodec => exact .plain hstate hempties hcodec
  | optional _ hcodec => exact .optional hcodec
  | unpackedField hcoll _ hitem => exact .unpackedField hcoll hitem
  | packedField hcoll _ hitem => exact .packedField hcoll hitem
  | unpackedArrayField hstate hempties _ hitem =>
      exact .unpackedArrayField (.inr trivial) hstate hempties hitem
  | packedArrayField hstate hempties _ hitem =>
      exact .packedArrayField (.inr trivial) hstate hempties hitem
  | unpackedArrayOptionField hn _ hitem => exact .unpackedArrayOptionField (.inl hn) hitem
  | tagged tag _ hcodec => exact .tagged tag hcodec
  | oneof _ hvariants => exact .oneof hvariants
  | fields hsound hw _ hfields => exact .fields hsound hw (.inl trivial) hfields
  | recursive approx hsame hwithin _ happrox => exact .recursive approx hsame hwithin happrox
  | unrolled approx within hunrolls _ happrox => exact .unrolled approx within hunrolls happrox

namespace MessageCodec

variable {M : Type} (codec : MessageCodec M)

end MessageCodec

theorem Collection.Standard.distinguished {C T : Type} {coll : Collection C T}
    (h : coll.Standard .structural) : coll.Standard .distinguished := by
  cases h with
  | vec T => exact .vec T
  | arrayVec T capacity => exact .arrayVec T capacity
  | btreeMap K V => exact .btreeMap K V
  | btreeSet T => exact .btreeSet T
  | hashMap K V place hhashed => exact hhashed.elim
  | hashSet T place hhashed => exact hhashed.elim

namespace Structural

end Structural

end Bilrost
