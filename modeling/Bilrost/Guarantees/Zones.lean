import Bilrost.Guarantees.Bijection
import Bilrost.Guarantees.CalendarParts
import Bilrost.Schema.Pairs

/-!
Date-times with an offset come back from the pair that they are encoded as. The
pair is written as a list of numbers and the three parts of the offset, which
say what date-time it was.
-/

namespace Bilrost

open Program Bilrost.Types

/-- The parts of an offset. -/
theorem OffsetParts.structural : Structural (.message OffsetParts.message) :=
  structural_triple (.plain rfl (Scalar.empties_single _)
    (.scalar (.varint ((VarintScalar.lawful_signed (by decide)).valuedAs I8.bits))))

theorem OffsetParts.built (allowed : Features) : Built allowed (.message OffsetParts.message) :=
  built_triple (.plain rfl (Scalar.empties_single _)
    (.scalar (.varint ((VarintScalar.lawful_signed (by decide)).valuedAs I8.bits))))

theorem OffsetParts.nestsWithin (depth : Nat) (parts : OffsetParts) :
    OffsetParts.message.nestsWithin depth parts := fun _ => trivial

theorem OffsetParts.isEmpty (parts : OffsetParts) :
    OffsetParts.message.isEmpty parts = true ↔ parts = (0, 0, 0) := by
  constructor
  · intro hempty
    exact OffsetParts.structural.built.discerns not_false false _ _
      ((OffsetParts.structural.built.locks.isEmpty parts).mp hempty)
  · rintro rfl
    rfl

namespace OffsetSupport

variable {O : Type} {support : OffsetSupport O}

/-- What is expected of the support of a type of offsets: nothing panics, and an
offset comes back from its parts, which are zero exactly if it is empty. -/
structure Lossless (support : OffsetSupport O) : Prop where
  returns (parts : OffsetParts) : ∃ decoded, support.decodeProxy parts = .ok decoded ∧
    Refuses decoded
  back (offset : O) : support.decodeProxy (support.encodeProxy offset) = .ok (.ok offset)
  isEmpty (offset : O) : support.isEmpty offset = true ↔ support.encodeProxy offset = (0, 0, 0)
  forOverwrite : support.encodeProxy support.forOverwrite = (0, 0, 0)

variable (h : support.Lossless)
include h

theorem Lossless.injective : Function.Injective support.encodeProxy := by
  intro offset offset' hparts
  have hback := h.back offset
  rw [hparts, h.back] at hback
  exact (Except.ok.inj (Except.ok.inj hback)).symm

theorem Lossless.empty_iff (offset : O) :
    support.isEmpty offset = true ↔ offset = support.forOverwrite := by
  rw [h.isEmpty, ← h.forOverwrite, h.injective.eq_iff]

theorem Lossless.decodeProxy_proxy (parts : OffsetParts) :
    .ok (support.proxy.decodeProxy parts) = support.decodeProxy parts := by
  obtain ⟨decoded, hdecode, -⟩ := h.returns parts
  simp only [proxy, hdecode]

theorem Lossless.decodeProxyDistinguished_proxy (parts : OffsetParts) :
    support.proxy.decodeProxyDistinguished parts =
      (support.proxy.decodeProxy parts).map fun offset => (offset, .canonical) := by
  obtain ⟨decoded, hdecode, -⟩ := h.returns parts
  simp only [proxy, decodeProxyDistinguished, hdecode, Attempt.ok_bind]

theorem Lossless.lawful : support.proxy.Lawful where
  distinguished parts := by
    rw [h.decodeProxyDistinguished_proxy]
    cases support.proxy.decodeProxy parts <;> rfl
  refuses parts := by
    obtain ⟨decoded, hdecode, hrefuses⟩ := h.returns parts
    rw [← h.decodeProxy_proxy] at hdecode
    rwa [Except.ok.inj hdecode]

theorem Lossless.built {allowed : Features} (hallowed : allowed.proxies) :
    Built allowed (.value support.codec) :=
  .proxied _ _ hallowed h.lawful (.tupled (OffsetParts.built allowed))

theorem Lossless.readsBack {way : Way} {mode : DecodingMode} {allowEmpty : Bool} {depth : Nat}
    {offset : O} (hempty : allowEmpty = true ∨ support.isEmpty offset = false) :
    support.codec.ReadsBack way mode allowEmpty (depth + 1) offset := by
  apply ValueCodec.ReadsBack.proxied h.lawful
  · rw [h.decodeProxyDistinguished_proxy]
    have hback := h.back offset
    rw [← h.decodeProxy_proxy] at hback
    exact congrArg (Except.map _) (Except.ok.inj hback)
  · apply (Structural.tupled OffsetParts.structural).readsBack
    · exact ⟨depth, rfl, OffsetParts.nestsWithin depth _⟩
    · refine hempty.imp_right fun hnot heq => ?_
      rw [(h.isEmpty offset).mpr heq] at hnot
      cases hnot

end OffsetSupport

namespace ArrayParts

variable {V T : Type} {n : Nat} [DecidableEq T] [Zero T] {array : ArrayParts V T n}
  {acceptable : V → Prop} {part : VarintScalar T}

/-- The parts of a value determine it, and are zero of the one that is decoded
into. No conversion fails as if there were too many levels. -/
structure Determines (array : ArrayParts V T n) : Prop where
  injective {v v' : V} {arr : List.Vector T n} : array.parts v = .ok arr →
    array.parts v' = .ok arr → v = v'
  refuses {arr : List.Vector T n} {decoded : Except DecodeErrorKind V} :
    array.ofParts arr = .ok decoded → Refuses decoded
  forOverwrite : array.parts array.forOverwrite = .ok (List.Vector.replicate n 0)

section
variable (h : array.Inverse acceptable) (hdetermines : array.Determines)
include h hdetermines

theorem Inverse.isEmpty_iff (v : V) :
    array.support.isEmpty v = true ↔ v = array.support.forOverwrite := by
  obtain ⟨arr, harr⟩ := h.parts_returns v
  have hisEmpty : array.support.isEmpty v = true ↔ arr = List.Vector.replicate n 0 :=
    h.isEmpty harr
  rw [hisEmpty]
  constructor
  · rintro rfl
    exact hdetermines.injective harr hdetermines.forOverwrite
  · rintro rfl
    exact Except.ok.inj (harr.symm.trans hdetermines.forOverwrite)

theorem Inverse.lawful : array.support.proxy.Lawful where
  distinguished proxy := by
    obtain ⟨decoded, hdecode⟩ := h.returns proxy.intoInner
    have hrelaxed : array.support.decodeProxy proxy = .ok decoded := hdecode
    simp only [PartsSupport.proxy, decodeProxyDistinguished_support, hdecode, Attempt.ok_bind,
      hrelaxed]
    cases decoded <;> rfl
  refuses proxy := by
    obtain ⟨decoded, hdecode⟩ := h.returns proxy.intoInner
    have hrelaxed : array.support.decodeProxy proxy = .ok decoded := hdecode
    simp only [PartsSupport.proxy, hrelaxed]
    exact hdetermines.refuses hdecode

theorem Inverse.built (hpart : part.Lawful) {allowed : Features} (hallowed : allowed.proxies) :
    Built allowed (.value (array.support.codec part)) :=
  .proxied _ _ hallowed (h.lawful hdetermines)
    (.localProxy n 0 hallowed (.scalar (.varint hpart)))

theorem Inverse.readsBack (hpart : part.Lawful) (hn : 9 * n < 2 ^ 64) {way : Way}
    {mode : DecodingMode} {allowEmpty : Bool} {depth : Nat} {v : V} (hv : acceptable v) :
    (array.support.codec part).ReadsBack way mode allowEmpty depth v := by
  obtain ⟨arr, harr⟩ := h.parts_returns v
  obtain ⟨hlength, hencode⟩ := encodeProxy_support harr
  have hproxy := PartsSupport.encodeProxy_proxy hencode
  have hdistinguishes := h.distinguishes hpart hn
  have hback := (h.roundTrips hpart hn).back hv hencode
  obtain ⟨canon, hdecode⟩ := hdistinguishes.accepts.mp hback
  obtain rfl := (hdistinguishes.canonical_iff hdecode).mpr hencode
  apply ValueCodec.ReadsBack.proxied (h.lawful hdetermines)
  · rw [hproxy]
    simp only [PartsSupport.proxy, hdecode]
  · rw [hproxy]
    intro payload hpayload hlt
    rw [VarintScalar.encodeValue_packed hpart] at hpayload
    obtain rfl := Option.some.inj hpayload
    refine (VarintScalar.parses_packed_localProxy hpart hn).mpr ⟨_, hlength, rfl, ?_⟩
    rw [List.append_nil]
    exact congrArg part.packedVarints (LocalProxy.items_ofItems hlength)

/-- A value whose bytes are decoded at all is one that comes back. -/
theorem Inverse.acceptable_of_parses (hpart : part.Lawful) (hn : 9 * n < 2 ^ 64)
    {mode : DecodingMode} {allowEmpty : Bool} {depth : Nat} {start v : V} {payload : Bytes}
    {x : V × Canonicity} (hencode : (array.support.codec part).encodeValue v = some payload)
    (hparse : ((array.support.codec part).decodeBy .relaxed mode allowEmpty depth start).Parses
      payload x []) : acceptable v := by
  obtain ⟨arr, harr⟩ := h.parts_returns v
  obtain ⟨hlength, hproxy⟩ := encodeProxy_support harr
  obtain rfl := Option.some.inj
    ((PartsSupport.gives_of_encodeProxy hpart hproxy).encode.symm.trans hencode)
  rw [PartsSupport.codec, ValueCodec.proxied_decodeBy] at hparse
  obtain ⟨proxy, mid, hpacked, hresult⟩ := parses_bind.mp hparse
  obtain ⟨hdecode, rfl⟩ := parses_ofResult.mp (parses_asCanonical.mp hresult).1
  -- the list is the only one that has these bytes
  obtain ⟨hproxies, -⟩ := hpacked.unique ((VarintScalar.parses_packed_localProxy hpart hn).mpr
    ⟨_, hlength, rfl, (List.append_nil _).symm⟩)
  rw [hproxies] at hdecode
  have hback : array.support.decodeProxy (.ofItems 0 _ hlength) = .ok (.ok x.1) := by
    obtain ⟨decoded, hdecoded⟩ := h.returns (filled _ hlength)
    have hsupport : array.support.decodeProxy (.ofItems 0 _ hlength) = .ok decoded := hdecoded
    simp only [PartsSupport.proxy, hsupport] at hdecode
    rw [hsupport, hdecode]
  obtain ⟨hacceptable, hparts⟩ := h.iff.mp hback
  have hfilled : filled _ hlength = arr := filled_trimmed arr hlength
  rw [show (LocalProxy.ofItems 0 _ hlength).intoInner = filled _ hlength from rfl, hfilled] at hparts
  exact hdetermines.injective hparts harr ▸ hacceptable

end

end ArrayParts

section
variable {N O : Type} {n : Nat} {naive : ArrayParts N I32 n} {offset : OffsetSupport O}
  {acceptable : N → Prop}

theorem isEmpty_zonedPair (parts : N × O) : (zonedPair naive.support offset).isEmpty parts =
    (naive.isEmpty parts.1 && (offset.isEmpty parts.2 && true)) := rfl

variable (hnaive : naive.Inverse acceptable) (hdetermines : naive.Determines)
  (hoffset : offset.Lossless)
include hnaive hdetermines hoffset

theorem built_zonedPair {allowed : Features} (hallowed : allowed.proxies) :
    Built allowed (.message (zonedPair naive.support offset)) := by
  apply built_pair
  · refine .plain rfl ⟨hnaive.isEmpty_iff hdetermines, fun _ => rfl⟩ ?_
    exact hnaive.built hdetermines VarintScalar.lawful_rangedI32 hallowed
  · exact .plain rfl ⟨hoffset.empty_iff, fun _ => rfl⟩ (hoffset.built hallowed)

theorem readsBack_zonedPair (hn : 9 * n < 2 ^ 64) {way : Way} {mode : DecodingMode} {depth : Nat}
    {parts : N × O} (hparts : acceptable parts.1) :
    (zonedPair naive.support offset).ReadsBack way mode (depth + 1) parts := by
  have hpart := VarintScalar.lawful_rangedI32
  have hfirst : Built .proxied (.value (naive.support.codec .rangedI32)) :=
    hnaive.built hdetermines hpart trivial
  have hsecond : Built .proxied (.value offset.codec) := hoffset.built trivial
  apply readsBack_pair (show ¬Features.proxied.emptyArrays from not_false)
  · exact .plain rfl ⟨hnaive.isEmpty_iff hdetermines, fun _ => rfl⟩ hfirst
  · exact .plain rfl ⟨hoffset.empty_iff, fun _ => rfl⟩ hsecond
  · apply ValueCodec.ReadsBack.plain hfirst.cuts (hfirst.writes not_false)
    · exact (hnaive.isEmpty_iff hdetermines _).mp
    · exact fun _ => hnaive.readsBack hdetermines hpart hn hparts
  · apply ValueCodec.ReadsBack.plain hsecond.cuts (hsecond.writes not_false)
    · exact (hoffset.empty_iff _).mp
    · exact fun hempty => hoffset.readsBack (.inr hempty)

end

namespace ZonedSupport

variable {Z N O : Type} {n : Nat} {support : ZonedSupport Z N O} {naive : ArrayParts N I32 n}
  {offset : OffsetSupport O} {acceptable : N → Prop}

/-- What is expected of the support of a type of date-times with an offset: they
come back from the pair, and are empty when that is. -/
structure Lossless (support : ZonedSupport Z N O) (naive : ArrayParts N I32 n)
    (offset : OffsetSupport O) : Prop where
  back (z : Z) : support.decodeProxy (support.encodeProxy z) = z
  isEmpty (z : Z) : support.isEmpty z =
    (naive.isEmpty (support.encodeProxy z).1 && offset.isEmpty (support.encodeProxy z).2)
  forOverwrite : support.encodeProxy support.forOverwrite =
    (naive.forOverwrite, offset.forOverwrite)

theorem lawful_proxy (support : ZonedSupport Z N O) : support.proxy.Lawful where
  distinguished _ := rfl
  refuses _ := by
    rintro ⟨⟩

variable (h : support.Lossless naive offset) (hnaive : naive.Inverse acceptable)
  (hdetermines : naive.Determines) (hoffset : offset.Lossless)
include hnaive hdetermines hoffset

theorem built {allowed : Features} (hallowed : allowed.proxies) :
    Built allowed (.value (support.codec naive.support offset)) :=
  .proxied _ _ hallowed support.lawful_proxy
    (.tupled (built_zonedPair hnaive hdetermines hoffset hallowed))

include h

theorem Lossless.empty_iff (z : Z) : support.isEmpty z = true ↔ z = support.forOverwrite := by
  have hinjective : Function.Injective support.encodeProxy :=
    Function.LeftInverse.injective h.back
  have hfirst : naive.isEmpty (support.encodeProxy z).1 = true ↔ _ :=
    hnaive.isEmpty_iff hdetermines _
  rw [h.isEmpty, Bool.and_eq_true, hfirst, hoffset.empty_iff, ← hinjective.eq_iff,
    h.forOverwrite, Prod.ext_iff]
  exact Iff.rfl

theorem Lossless.readsBack (hn : 9 * n < 2 ^ 64) {way : Way} {mode : DecodingMode}
    {allowEmpty : Bool} {depth : Nat} {z : Z} (hz : acceptable (support.encodeProxy z).1)
    (hempty : allowEmpty = true ∨ support.isEmpty z = false) :
    (support.codec naive.support offset).ReadsBack way mode allowEmpty (depth + 2) z := by
  have hbuilt : Built .proxied (.message (zonedPair naive.support offset)) :=
    built_zonedPair hnaive hdetermines hoffset trivial
  have hshows : (zonedPair naive.support offset).Shows := hbuilt.shows not_false
  apply ValueCodec.ReadsBack.proxied support.lawful_proxy
  · exact congrArg (fun z => Except.ok (z, Canonicity.canonical)) (h.back z)
  · apply (readsBack_zonedPair hnaive hdetermines hoffset hn hz).tupled
      (hbuilt.writes not_false)
    refine hempty.imp_right fun hnot hencode => ?_
    have hall := (hshows.rawEncode _).mpr hencode
    rw [isEmpty_zonedPair, Bool.and_true, ← h.isEmpty] at hall
    rw [hall] at hnot
    cases hnot

end ZonedSupport

/-- What a date-time with an offset is on the wire: a list of numbers, and the
parts of the offset. -/
def zonedWire : MessageCodec (List I32 × OffsetParts) :=
  pair ((VarintScalar.rangedI32.scalar.codec.packed (Collection.vec I32)).plain
      (Collection.vec I32).emptyState)
    (OffsetParts.message.tupled.plain ⟨OffsetParts.message.isEmpty, OffsetParts.message.clear⟩)

theorem structural_zonedWire : Structural (.message zonedWire) := by
  have hvec : (Collection.vec I32).Standard .structural := .vec I32
  apply structural_pair
  · refine .plain rfl ⟨hvec.isEmpty, hvec.clear⟩ (.packed hvec (.scalar (.varint ?_)))
    exact VarintScalar.lawful_rangedI32
  · have hlocks := OffsetParts.structural.built.locks
    exact .plain rfl ⟨hlocks.isEmpty, hlocks.clear⟩ (.tupled OffsetParts.structural)

theorem OffsetParts.atMost (parts : OffsetParts) : OffsetParts.message.tupled.AtMost parts 63 := by
  have hwrites : VarintScalar.rangedI8.scalar.codec.Writes True :=
    (Scalar.Standard.varint ((VarintScalar.lawful_signed (by decide)).valuedAs I8.bits)).writes True
  have hvarint (n : I8) : VarintScalar.rangedI8.scalar.codec.AtMost n 9 := by
    intro bytes hencode
    obtain rfl := Option.some.inj hencode
    exact (congrArg List.length (encodeVarint_eq _)).trans_le (varint_length_le _)
  exact Fields.atMost sound_triple standard_triple le_rfl
    (fun i => ((ValueCodec.guards_plain _ _).writes hwrites).tagged i.val)
    fun i => (hvarint _).plain hwrites i.val

/-- Six numbers and an offset take few bytes. -/
theorem zonedWire_atMost {items : List I32} (hlength : items.length ≤ 6) (parts : OffsetParts) :
    zonedWire.tupled.AtMost (items, parts) 153 := by
  have hpart := VarintScalar.lawful_rangedI32
  have hvec : (Collection.vec I32).Standard .structural := .vec I32
  have hnumbers : Structural (.value
      (VarintScalar.rangedI32.scalar.codec.packed (Collection.vec I32))) :=
    .packed hvec (.scalar (.varint hpart))
  have hparts : Structural (.value OffsetParts.message.tupled) := .tupled OffsetParts.structural
  have hfirst : (VarintScalar.rangedI32.scalar.codec.packed (Collection.vec I32)).AtMost items
      63 := by
    intro bytes hencode
    rw [VarintScalar.encodeValue_packed hpart] at hencode
    obtain rfl := Option.some.inj hencode
    have hlen : (VarintScalar.rangedI32.varints items).length ≤ 9 * items.length :=
      VarintScalar.length_varints_le items
    have hprefix := varint_length_le (VarintScalar.rangedI32.varints items).length
    show (VarintScalar.rangedI32.packedVarints items).length ≤ 63
    rw [VarintScalar.packedVarints, List.length_append]
    omega
  intro bytes hencode
  refine (hfirst.pair (OffsetParts.atMost parts) (hnumbers.built.writes not_false)
    (hparts.built.writes not_false) bytes hencode).trans (by decide)

/-- The bytes of six numbers and the parts of an offset. -/
def zonedBytes (arr : List.Vector I32 6) (parts : OffsetParts) : Option Bytes :=
  zonedWire.tupled.encodeValue (LocalProxy.trimmed (EmptyState.single 0) arr.toList, parts)

theorem exists_zonedBytes (arr : List.Vector I32 6) (parts : OffsetParts) :
    ∃ bytes, zonedBytes arr parts = some bytes ∧ bytes.length ≤ 153 := by
  obtain ⟨hlength, -⟩ := LocalProxy.newWithoutEmptySuffix_eq (EmptyState.lawful_single 0) arr
  have hwrites : zonedWire.tupled.Writes _ :=
    (Structural.tupled structural_zonedWire).built.writes not_false
  obtain ⟨bytes, hbytes⟩ := hwrites.encode
    (LocalProxy.trimmed (EmptyState.single 0) arr.toList, parts)
  exact ⟨bytes, hbytes, zonedWire_atMost hlength parts bytes hbytes⟩

theorem zonedBytes_inj {arr arr' : List.Vector I32 6} {parts parts' : OffsetParts} :
    zonedBytes arr parts = zonedBytes arr' parts' ↔ arr = arr' ∧ parts = parts' := by
  constructor
  · intro hsame
    obtain ⟨bytes, hbytes, hle⟩ := exists_zonedBytes arr parts
    have hboth := (Structural.tupled structural_zonedWire).encodeValue_inj hbytes (hsame ▸ hbytes)
      (hle.trans_lt (by decide))
    obtain ⟨hitems, hparts⟩ := Prod.ext_iff.mp hboth
    refine ⟨List.Vector.toList_injective ?_, hparts⟩
    have hfilled := congrArg (padded 6 (0 : I32)) hitems
    rwa [LocalProxy.padded_trimmed (EmptyState.lawful_single 0) arr.toList_length,
      LocalProxy.padded_trimmed (EmptyState.lawful_single 0) arr'.toList_length] at hfilled
  · rintro ⟨rfl, rfl⟩
    rfl

namespace ZonedSupport

variable {Z N O : Type} {n : Nat} {support : ZonedSupport Z N O} {naive : ArrayParts N I32 n}
  {offset : OffsetSupport O} {acceptable : N → Prop}

/-- A date-time with an offset is written as the numbers that its date-time is
encoded as, and the parts of its offset. -/
theorem writesLike (hnaive : naive.Inverse acceptable) (hdetermines : naive.Determines)
    (hoffset : offset.Lossless) (hn : 9 * n < 2 ^ 64) {z : Z} {items : List I32}
    {hlength : items.length ≤ n}
    (hitems : naive.support.encodeProxy (support.encodeProxy z).1 = .ok (.ofItems 0 items hlength)) :
    zonedWire.tupled.WritesLike (items, offset.encodeProxy (support.encodeProxy z).2)
      (support.codec naive.support offset) z := by
  have hpart := VarintScalar.lawful_rangedI32
  have hvec : (Collection.vec I32).Standard .structural := .vec I32
  have hfirst : Built .proxied (.value (naive.support.codec .rangedI32)) :=
    hnaive.built hdetermines hpart trivial
  have hsecond : Built .proxied (.value offset.codec) := hoffset.built trivial
  have hnumbers : Structural (.value
      (VarintScalar.rangedI32.scalar.codec.packed (Collection.vec I32))) :=
    .packed hvec (.scalar (.varint hpart))
  obtain ⟨items', hlength', hproxy, -, hisEmpty⟩ :=
    (hnaive.roundTrips hpart hn).encodes (support.encodeProxy z).1
  obtain rfl : items' = items := by
    have hsame := congrArg LocalProxy.items (Except.ok.inj (hproxy.symm.trans hitems))
    simpa only [LocalProxy.items_ofItems] using hsame
  have hproxied : (zonedPair naive.support offset).tupled.WritesLike (support.encodeProxy z)
      (support.codec naive.support offset) z := ⟨rfl, rfl⟩
  refine ValueCodec.WritesLike.trans (MessageCodec.WritesLike.value ?_ .tupled .tupled) hproxied
  apply writesLike_pair
  · apply ValueCodec.Guards.writesLike (not_false : ¬False) (ValueCodec.guards_plain _ _)
      (ValueCodec.guards_plain _ _) (hnumbers.built.writes not_false) (hfirst.writes not_false)
    · exact Bool.eq_iff_iff.mpr (hisEmpty.trans (hvec.isEmpty items').symm)
    · rfl
    · intro _
      refine ⟨rfl, ?_⟩
      rw [(PartsSupport.gives_of_encodeProxy hpart hitems).encode,
        VarintScalar.encodeValue_packed hpart]
      rfl
  · have hparts : Structural (.value OffsetParts.message.tupled) := .tupled OffsetParts.structural
    apply ValueCodec.Guards.writesLike (not_false : ¬False) (ValueCodec.guards_plain _ _)
      (ValueCodec.guards_plain _ _) (hparts.built.writes not_false) (hsecond.writes not_false)
    · exact Bool.eq_iff_iff.mpr ((hoffset.isEmpty _).trans (OffsetParts.isEmpty _).symm)
    · rfl
    · exact fun _ => ⟨rfl, rfl⟩

section
variable {naive : ArrayParts N I32 6} (hnaive : naive.Inverse acceptable)
  (hdetermines : naive.Determines) (hoffset : offset.Lossless)
include hnaive hdetermines hoffset

variable (support) in
theorem encodeValue_eq {z : Z} {arr : List.Vector I32 6}
    (harr : naive.parts (support.encodeProxy z).1 = .ok arr) :
    (support.codec naive.support offset).encodeValue z =
      zonedBytes arr (offset.encodeProxy (support.encodeProxy z).2) := by
  obtain ⟨hlength, hitems⟩ := ArrayParts.encodeProxy_support harr
  exact (writesLike hnaive hdetermines hoffset (by decide) hitems).encodeValue

variable (support) in
theorem exists_encodeValue (z : Z) : ∃ bytes,
    (support.codec naive.support offset).encodeValue z = some bytes ∧ bytes.length ≤ 153 := by
  obtain ⟨arr, harr⟩ := hnaive.parts_returns (support.encodeProxy z).1
  rw [encodeValue_eq support hnaive hdetermines hoffset harr]
  exact exists_zonedBytes arr _

/-- Different date-times, or different offsets, are encoded as different bytes. -/
theorem Lossless.encodeValue_inj (h : support.Lossless naive offset) {z z' : Z} :
    (support.codec naive.support offset).encodeValue z =
      (support.codec naive.support offset).encodeValue z' ↔ z = z' := by
  constructor
  · intro hsame
    obtain ⟨arr, harr⟩ := hnaive.parts_returns (support.encodeProxy z).1
    obtain ⟨arr', harr'⟩ := hnaive.parts_returns (support.encodeProxy z').1
    rw [encodeValue_eq support hnaive hdetermines hoffset harr,
      encodeValue_eq support hnaive hdetermines hoffset harr', zonedBytes_inj] at hsame
    obtain ⟨rfl, hparts⟩ := hsame
    have hproxy : support.encodeProxy z = support.encodeProxy z' :=
      Prod.ext (hdetermines.injective harr harr') (hoffset.injective hparts)
    rw [← h.back z, hproxy, h.back]
  · rintro rfl
    rfl

/-- What is decoded at all from the bytes of a date-time with an offset says that
its date-time comes back. -/
theorem acceptable_of_parses (hempty : acceptable naive.forOverwrite) {mode : DecodingMode}
    {depth : Nat} {start z : Z} {payload : Bytes} {x : Z × Canonicity}
    (hencode : (support.codec naive.support offset).encodeValue z = some payload)
    (hparse : ((support.codec naive.support offset).decodeBy .relaxed mode true depth start).Parses
      payload x []) : acceptable (support.encodeProxy z).1 := by
  have hpart := VarintScalar.lawful_rangedI32
  have hfirst : Built .proxied (.value (naive.support.codec .rangedI32)) :=
    hnaive.built hdetermines hpart trivial
  have hsecond : Built .proxied (.value offset.codec) := hoffset.built trivial
  have hwrites : (naive.support.codec .rangedI32).Writes (¬Features.proxied.hashed) :=
    hfirst.writes not_false
  have hbuilt : Built .proxied (.message (zonedPair naive.support offset)) :=
    built_zonedPair hnaive hdetermines hoffset trivial
  have hraw : (zonedPair naive.support offset).Writes (¬Features.proxied.hashed) :=
    hbuilt.writes not_false
  obtain ⟨bytes, hbytes, hle⟩ :=
    exists_encodeValue support hnaive hdetermines hoffset z
  obtain rfl := Option.some.inj (hbytes.symm.trans hencode)
  obtain ⟨content, hcontent, rfl⟩ := encodeDelimited_eq_some hraw.rawEncodedLen_eq hencode
  have hlt : content.length < 2 ^ 64 := by
    rw [List.length_append] at hle
    omega
  rw [codec, ValueCodec.proxied_decodeBy] at hparse
  obtain ⟨pair, mid, hpair, hresult⟩ := parses_bind.mp hparse
  obtain ⟨-, rfl⟩ := parses_ofResult.mp (parses_asCanonical.mp hresult).1
  obtain ⟨content', -, hregion, ⟨hshort, -⟩ | ⟨-, -, hmerge⟩⟩ := MessageCodec.contents_of_tupled hpair
  · cases hshort
  obtain rfl : content = content' := regionBytes_inj (hle.trans_lt (by decide)) hregion
  cases hzero : naive.isEmpty (support.encodeProxy z).1 with
  | true => exact ((hnaive.isEmpty_iff hdetermines _).mp hzero).symm ▸ hempty
  | false =>
      obtain ⟨p, hp⟩ := hwrites.encode (support.encodeProxy z).1
      have hwritten := (ValueCodec.guards_plain _ naive.support.emptyState).written hwrites hp
      rw [show ((naive.support.codec .rangedI32).plain naive.support.emptyState).emptyState.isEmpty
        (support.encodeProxy z).1 = false from hzero, if_neg Bool.false_ne_true] at hwritten
      obtain ⟨decoded, hdecoded⟩ := parses_first_of_pair not_false
        (.plain rfl ⟨hnaive.isEmpty_iff hdetermines, fun _ => rfl⟩ hfirst)
        (.plain rfl ⟨hoffset.empty_iff, fun _ => rfl⟩ hsecond) hwritten hcontent hlt hmerge
      rw [ValueCodec.plain_decodeBy] at hdecoded
      obtain ⟨x', mid, hfield, hresult'⟩ := parses_bind.mp hdecoded
      obtain ⟨-, rfl⟩ := Way.parses_refuseEmpty.mp hresult'
      exact hnaive.acceptable_of_parses hdetermines hpart (by decide) hp
        (ValueCodec.parses_decodeFieldBy.mp hfield).2

end

end ZonedSupport

end Bilrost
