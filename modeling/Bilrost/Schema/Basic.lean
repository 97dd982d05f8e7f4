import Bilrost.Codec.MessageWays

/-!
Message schemas. `Built` is what the encodings of values, fields and messages
can be put together from, and whatever is said of every message type is proved
by induction on it.

A recursive message type is not put together from its parts. It is what a
sequence of others comes to, each of which does the same as it to one level of
nesting more. Where it contains itself in a message variant, which does not
count as a level, the number of bytes there are takes the place of the levels.
-/

namespace Bilrost

/-- What a schema may make use of apart from what all of them may. -/
structure Features where
  /-- Collections without an order. They have no distinguished decoders. -/
  hashed : Prop
  /-- Types that are encoded as another type. -/
  proxies : Prop
  /-- Arrays of length zero. -/
  emptyArrays : Prop
  /-- Fields that are left out of the encoding. -/
  ignored : Prop

namespace Features

def all : Features := ⟨True, True, True, True⟩

/-- What there are distinguished decoders for. -/
def distinguished : Features := ⟨False, True, True, True⟩

/-- What `Eq` is structural for. -/
def structural : Features := ⟨False, False, False, False⟩

end Features

/-- The encodings of scalars. -/
inductive Scalar.Standard : {T : Type} → Scalar T → Prop
  | varint {T : Type} {s : VarintScalar T} (h : s.Lawful) : Standard s.scalar
  | fixed {T : Type} {s : FixedScalar T} (h : s.Lawful) : Standard s.scalar
  | delimited {T : Type} {s : DelimitedScalar T} (h : s.Lawful) : Standard s.scalar
  | plainArray (n : Nat) : Standard (plainArray n)

/-- The collections. -/
inductive Collection.Standard (allowed : Features) : {C T : Type} → Collection C T → Prop
  | vec (T : Type) : Standard allowed (vec T)
  | arrayVec (T : Type) (capacity : Nat) : Standard allowed (arrayVec T capacity)
  | btreeMap (K V : Type) [LinearOrder K] : Standard allowed (btreeMap K V)
  | btreeSet (T : Type) [LinearOrder T] : Standard allowed (btreeSet T)
  | hashMap (K V : Type) [DecidableEq K] (place : List (K × V) → Nat) (h : allowed.hashed) :
      Standard allowed (hashMap K V place)
  | hashSet (T : Type) [DecidableEq T] (place : List (T × Unit) → Nat) (h : allowed.hashed) :
      Standard allowed (hashSet T place)

namespace Collection.Standard

variable {allowed : Features} {C T : Type} {coll : Collection C T}

theorem isEmpty (h : coll.Standard allowed) (items : C) :
    coll.isEmpty items ↔ items = coll.empty := by
  cases h with
  | vec => exact List.isEmpty_iff
  | arrayVec =>
    rw [Subtype.ext_iff]
    exact List.isEmpty_iff
  | btreeMap => exact SortedMap.isEmpty_iff
  | btreeSet => exact SortedMap.isEmpty_iff
  | hashMap =>
    rw [Subtype.ext_iff]
    exact List.isEmpty_iff
  | hashSet =>
    rw [Subtype.ext_iff]
    exact List.isEmpty_iff

theorem clear (h : coll.Standard allowed) (items : C) : coll.clear items = coll.empty := by
  cases h <;> rfl

end Collection.Standard

/-- The two forms of a proxy agree. -/
structure Proxy.Lawful {T P : Type} (proxy : Proxy T P) : Prop where
  distinguished (p : P) :
    (proxy.decodeProxyDistinguished p).map Prod.fst = proxy.decodeProxy p
  refuses (p : P) : Refuses (proxy.decodeProxy p)

/-- The contract of `EmptyState`: a value is empty when it is the one that is
decoded into, and clearing makes it that. -/
structure ValueCodec.Empties {T : Type} (codec : ValueCodec T) (state : EmptyState T) : Prop where
  isEmpty (value : T) : state.isEmpty value ↔ codec.same false value codec.forOverwrite
  clear (value : T) : codec.same false (state.clear value) codec.forOverwrite

namespace Fields

variable {M : Type} (F : Fields M)

/-- Every field has tags of its own. -/
structure Sound : Prop where
  tagged (i : F.Index) : (F.field i).tags ≠ []
  nodup (i : F.Index) : (F.field i).tags.Nodup
  disjoint : F.indices.Pairwise fun i j => (F.field i).tags.Disjoint (F.field j).tags
  lt (i : F.Index) (tag : Nat) : tag ∈ (F.field i).tags → tag < 2 ^ 32

/-- The ways in which fields are written: as planned by the derive macro, or in
the order in which they are listed if that is the order of their tags. -/
inductive Writing.Standard : F.Writing → Prop
  | derived : Standard F.derived
  | listed (measurer : TagMeasurer)
      (ascending : F.indices.Pairwise fun i j =>
        ∀ tag ∈ (F.field i).tags, ∀ tag' ∈ (F.field j).tags, tag < tag')
      (measures : measurer = .runtime 0 ∨
        measurer = .trivial ∧ ∀ i : F.Index, ∀ tag ∈ (F.field i).tags, tag < 32) :
      Standard (F.listed measurer)

section
variable {F} (start : Nat) (htags : ∀ i, (F.field i).tags = [i.val + start])
include htags

theorem ascending_of_tags :
    F.indices.Pairwise fun i j => ∀ tag ∈ (F.field i).tags, ∀ tag' ∈ (F.field j).tags,
      tag < tag' := by
  refine (List.pairwise_lt_finRange F.count).imp fun {i j} hlt => ?_
  rw [htags, htags]
  intro tag hi tag' hj
  rw [List.mem_singleton.mp hi, List.mem_singleton.mp hj]
  exact Nat.add_lt_add_right hlt start

/-- Fields with consecutive tags. -/
theorem sound_of_tags (hlt : F.count + start ≤ 2 ^ 32) : F.Sound where
  tagged i := (htags i).trans_ne (List.cons_ne_nil _ _)
  nodup i := (htags i).symm ▸ List.nodup_singleton _
  disjoint := (ascending_of_tags start htags).imp fun hlt tag hi hj => (hlt tag hi tag hj).false
  lt i tag htag := by
    rw [htags, List.mem_singleton] at htag
    have hi : i.val < F.count := i.isLt
    omega

end

/-- Fields that are written as they are listed, with tags from zero on. -/
theorem listed_of_tags {F : Fields M} (htags : ∀ i, (F.field i).tags = [i.val])
    (hlt : F.count ≤ 32) : (F.listed .trivial).Standard := by
  refine .listed _ (ascending_of_tags 0 htags) (.inr ⟨rfl, fun i tag htag => ?_⟩)
  rw [htags, List.mem_singleton] at htag
  have hi : i.val < F.count := i.isLt
  omega

end Fields

/-- Two message types that do the same to a depth of nesting. -/
structure MessageCodec.SameTo {M : Type} (depth : Nat) (codec codec' : MessageCodec M) :
    Prop where
  empty : codec.empty = codec'.empty
  isEmpty : codec.isEmpty = codec'.isEmpty
  clear : codec.clear = codec'.clear
  same : codec.same = codec'.same
  nestsWithin : codec.nestsWithin depth = codec'.nestsWithin depth
  rawEncode {m : M} : codec.nestsWithin depth m → codec.rawEncode m = codec'.rawEncode m
  rawPrepend {m : M} : codec.nestsWithin depth m → codec.rawPrepend m = codec'.rawPrepend m
  rawEncodedLen {m : M} :
    codec.nestsWithin depth m → codec.rawEncodedLen m = codec'.rawEncodedLen m
  rawDecodeField (mode : DecodingMode) {d : Nat} :
    d ≤ depth → codec.rawDecodeField mode d = codec'.rawDecodeField mode d
  rawDecodeFieldDistinguished (mode : DecodingMode) {d : Nat} : d ≤ depth →
    codec.rawDecodeFieldDistinguished mode d = codec'.rawDecodeFieldDistinguished mode d

namespace MessageCodec

variable {M : Type} {depth : Nat} {codec codec' : MessageCodec M}

theorem SameTo.fieldBy (h : codec.SameTo depth codec') (way : Way) (mode : DecodingMode) {d : Nat}
    (hd : d ≤ depth) : codec.fieldBy way mode d = codec'.fieldBy way mode d := by
  funext tag wireType dup m
  simp only [MessageCodec.fieldBy, h.rawDecodeField mode hd, h.rawDecodeFieldDistinguished mode hd]

end MessageCodec

/-- A message type that contains itself in a message variant. What it does with
some bytes is what the approximation to their number does with them, and those
that follow agree. -/
structure MessageCodec.Unrolls {M : Type} (codec : MessageCodec M) (approx : Nat → MessageCodec M)
    (within : Nat → M → Prop) : Prop where
  empty (n : Nat) : codec.empty = (approx n).empty
  isEmpty (n : Nat) : codec.isEmpty = (approx n).isEmpty
  clear (n : Nat) : codec.clear = (approx n).clear
  same (n : Nat) : codec.same = (approx n).same
  reached (m : M) : ∃ n, within n m
  nestsWithin {n : Nat} {m : M} : within n m → ∀ depth,
    codec.nestsWithin depth m ↔ (approx n).nestsWithin depth m
  rawEncode {n : Nat} {m : M} : within n m → codec.rawEncode m = (approx n).rawEncode m
  rawPrepend {n : Nat} {m : M} : within n m → codec.rawPrepend m = (approx n).rawPrepend m
  rawEncodedLen {n : Nat} {m : M} : within n m → codec.rawEncodedLen m = (approx n).rawEncodedLen m
  fieldBy (way : Way) (mode : DecodingMode) (depth tag : Nat) (wireType : WireType) (dup : Bool)
    (m : M) : codec.fieldBy way mode depth tag wireType dup m =
      .op .remainingBeforeCap fun len => (approx len).fieldBy way mode depth tag wireType dup m
  coherent (way : Way) (mode : DecodingMode) (depth tag : Nat) (wireType : WireType) (dup : Bool)
    (m : M) {n : Nat} {bytes : Bytes} : bytes.length ≤ n →
      ((approx n).fieldBy way mode depth tag wireType dup m).parse bytes =
        ((approx bytes.length).fieldBy way mode depth tag wireType dup m).parse bytes

/-- The parts of a schema. -/
inductive Part : Type 1 where
  | value {T : Type} (codec : ValueCodec T)
  | field {T : Type} (codec : FieldCodec T)
  | messageField {T : Type} (field : MessageField T)
  | message {M : Type} (codec : MessageCodec M)

/-- What schemas are built from. -/
inductive Built (allowed : Features) : Part → Prop
  -- values
  | scalar {T : Type} {s : Scalar T} (h : s.Standard) : Built allowed (.value s.codec)
  | packed {C T : Type} {item : ValueCodec T} {coll : Collection C T}
      (hcoll : coll.Standard allowed) (hitem : Built allowed (.value item)) :
      Built allowed (.value (item.packed coll))
  | localProxy {T : Type} {item : ValueCodec T} (n : Nat) (empty : T) (hallowed : allowed.proxies)
      (hitem : Built allowed (.value item)) :
      Built allowed (.value (item.packed (LocalProxy.collection T n empty)))
  | map {C K V : Type} {key : ValueCodec K} {val : ValueCodec V} {coll : Collection C (K × V)}
      (hcoll : coll.Standard allowed) (hkey : Built allowed (.value key))
      (hval : Built allowed (.value val)) : Built allowed (.value (key.map val coll))
  | packedArray {T : Type} {item : ValueCodec T} {n : Nat} (hn : 0 < n ∨ allowed.emptyArrays)
      (hitem : Built allowed (.value item)) : Built allowed (.value (item.packedArray n))
  | proxied {T P : Type} {codec : ValueCodec P} {proxy : Proxy T P} (forOverwrite : T)
      (emptyState : Option (EmptyState T)) (hallowed : allowed.proxies) (hproxy : proxy.Lawful)
      (hcodec : Built allowed (.value codec)) :
      Built allowed (.value (codec.proxied proxy forOverwrite emptyState))
  | nested {M : Type} {codec : MessageCodec M} (hcodec : Built allowed (.message codec)) :
      Built allowed (.value codec.nested)
  | tupled {M : Type} {codec : MessageCodec M} (hcodec : Built allowed (.message codec)) :
      Built allowed (.value codec.tupled)
  | inlined {M : Type} {codec : MessageCodec M} (hcodec : Built allowed (.message codec)) :
      Built allowed (.value codec.inlined)
  -- fields with one tag
  | plain {T : Type} {codec : ValueCodec T} {state : EmptyState T}
      (hstate : codec.emptyState = some state) (hempties : codec.Empties state)
      (hcodec : Built allowed (.value codec)) : Built allowed (.field (codec.plain state))
  | optional {T : Type} {codec : ValueCodec T} (hcodec : Built allowed (.value codec)) :
      Built allowed (.field codec.optional)
  | unpackedField {C T : Type} {item : ValueCodec T} {coll : Collection C T}
      (hcoll : coll.Standard allowed) (hitem : Built allowed (.value item)) :
      Built allowed (.field (item.unpackedField coll))
  | packedField {C T : Type} {item : ValueCodec T} {coll : Collection C T}
      (hcoll : coll.Standard allowed) (hitem : Built allowed (.value item)) :
      Built allowed (.field (item.packedField coll))
  | unpackedArrayField {T : Type} {item : ValueCodec T} {state : EmptyState T} {n : Nat}
      (hn : 0 < n ∨ allowed.emptyArrays) (hstate : item.emptyState = some state)
      (hempties : item.Empties state) (hitem : Built allowed (.value item)) :
      Built allowed (.field (item.unpackedArrayField state n))
  | packedArrayField {T : Type} {item : ValueCodec T} {state : EmptyState T} {n : Nat}
      (hn : 0 < n ∨ allowed.emptyArrays) (hstate : item.emptyState = some state)
      (hempties : item.Empties state) (hitem : Built allowed (.value item)) :
      Built allowed (.field (item.packedArrayField state n))
  | unpackedArrayOptionField {T : Type} {item : ValueCodec T} {n : Nat}
      (hn : 0 < n ∨ allowed.emptyArrays) (hitem : Built allowed (.value item)) :
      Built allowed (.field (item.unpackedArrayOptionField n))
  -- fields of messages
  | tagged {T : Type} {codec : FieldCodec T} (tag : Nat)
      (hcodec : Built allowed (.field codec)) : Built allowed (.messageField (codec.tagged tag))
  | oneof {T : Type} {oneof : Oneof T}
      (hvariants : ∀ i, Built allowed (.value (oneof.codec i))) :
      Built allowed (.messageField oneof.field)
  -- messages
  | fields {M : Type} {F : Fields M} {w : F.Writing} (hsound : F.Sound) (hw : w.Standard)
      (hignored : allowed.ignored ∨ Subsingleton F.Ignored)
      (hfields : ∀ i, Built allowed (.messageField (F.field i))) :
      Built allowed (.message (F.message w))
  | recursive {M : Type} {codec : MessageCodec M} (approx : Nat → MessageCodec M)
      (hsame : ∀ depth, codec.SameTo depth (approx depth))
      (hwithin : ∀ m, ∃ depth, codec.nestsWithin depth m)
      (happrox : ∀ depth, Built allowed (.message (approx depth))) :
      Built allowed (.message codec)
  | unrolled {M : Type} {codec : MessageCodec M} (approx : Nat → MessageCodec M)
      (within : Nat → M → Prop) (hunrolls : codec.Unrolls approx within)
      (happrox : ∀ n, Built allowed (.message (approx n))) : Built allowed (.message codec)

end Bilrost
