import Bilrost.Codec.CalendarParts
import Bilrost.Guarantees.TimeSpans
import Bilrost.Schema.PartLists

/-!
Types that are encoded as lists of parts. A value whose parts its own constructor
accepts comes back from the list it is encoded to, and no other list of its parts
is canonical. All of this holds if the constructor undoes the accessors.
-/

namespace Bilrost

open Program Bilrost.Types

theorem EmptyState.lawful_single {T : Type} [DecidableEq T] (empty : T) :
    (EmptyState.single empty).Lawful empty := fun _ => decide_eq_true_iff

namespace PartsSupport

variable {V T : Type} {n : Nat} [Zero T]

/-- What is expected of the support of a type: nothing panics, and a value whose
parts are accepted comes back from the proxy it is encoded to, which is the empty
list exactly if the value is empty. On the wire a value is decoded from the lists
that its proxies stand for. -/
structure RoundTrips (support : PartsSupport V T n) (part : VarintScalar T)
    (acceptable : V → Prop) : Prop where
  encodes (v : V) : ∃ items h, support.encodeProxy v = .ok (.ofItems 0 items h) ∧
    (support.codec part).Gives v (part.packedVarints items) ∧
    (support.isEmpty v = true ↔ items = [])
  returns (items : List T) (h : items.length ≤ n) :
    ∃ decoded, support.decodeProxy (.ofItems 0 items h) = .ok decoded
  back {v : V} {proxy : LocalProxy T n} : acceptable v → support.encodeProxy v = .ok proxy →
    support.decodeProxy proxy = .ok (.ok v)
  acceptable {v : V} {items : List T} {h : items.length ≤ n} :
    support.decodeProxy (.ofItems 0 items h) = .ok (.ok v) → acceptable v
  decodes {β : Type} [Buf β] {buf : β} (mode : DecodingMode) (depth : Nat) (value : V) {v : V}
    {rest : Bytes} : ((support.codec part).decodeValue mode depth value).Leaves buf v rest ↔
      ∃ items h, Buf.bytes buf = part.packedVarints items ++ rest ∧
        support.decodeProxy (.ofItems 0 items h) = .ok (.ok v)

/-- What is expected of the distinguished form: it accepts the same lists, and a
list is canonical exactly if it is the one that the value is encoded to. -/
structure Distinguishes (support : PartsSupport V T n) (part : VarintScalar T) : Prop where
  accepts {v : V} {items : List T} {h : items.length ≤ n} :
    support.decodeProxy (.ofItems 0 items h) = .ok (.ok v) ↔
      ∃ canon, support.decodeProxyDistinguished (.ofItems 0 items h) = .ok (.ok (v, canon))
  canonical_iff {v : V} {items : List T} {h : items.length ≤ n} {canon : Canonicity} :
    support.decodeProxyDistinguished (.ofItems 0 items h) = .ok (.ok (v, canon)) →
      (canon = .canonical ↔ support.encodeProxy v = .ok (.ofItems 0 items h))
  decodes {β : Type} [Buf β] {buf : β} (mode : DecodingMode) (allowEmpty : Bool) (depth : Nat)
    (value : V) {v : V} {canon : Canonicity} {rest : Bytes} :
    ((support.codec part).decodeValueDistinguished mode allowEmpty depth value).Leaves buf
        (v, canon) rest ↔
      ∃ items h, Buf.bytes buf = part.packedVarints items ++ rest ∧
        support.decodeProxyDistinguished (.ofItems 0 items h) = .ok (.ok (v, canon))

section
variable {support : PartsSupport V T n} {part : VarintScalar T}

theorem encodeProxy_proxy {v : V} {proxy : LocalProxy T n} (h : support.encodeProxy v = .ok proxy) :
    support.proxy.encodeProxy v = proxy := by
  simp only [PartsSupport.proxy, h]

variable (hpart : part.Lawful)
include hpart

/-- The bytes are those of the list of parts. -/
theorem gives_of_encodeProxy {v : V} {items : List T} {hlength : items.length ≤ n}
    (h : support.encodeProxy v = .ok (.ofItems 0 items hlength)) :
    (support.codec part).Gives v (part.packedVarints items) := by
  have hpacked : (part.scalar.codec.packed (LocalProxy.collection T n 0)).Writes True :=
    ValueCodec.writes_packedItems ((Scalar.Standard.varint hpart).writes True).toPuts
      fun _ _ => rfl
  have hwrites := hpacked.proxied support.proxy support.forOverwrite
    (some { isEmpty := support.isEmpty, clear := fun _ => support.forOverwrite })
  have hencode : (support.codec part).encodeValue v = some (part.packedVarints items) := by
    show (part.scalar.codec.packed (LocalProxy.collection T n 0)).encodeValue
      (support.proxy.encodeProxy v) = _
    rw [encodeProxy_proxy h, VarintScalar.encodeValue_packed hpart]
    exact congrArg (fun l => some (part.packedVarints l)) (LocalProxy.items_ofItems hlength)
  exact ⟨hencode, hwrites.prepend trivial hencode, hwrites.encodedLen hencode⟩

theorem regular_codec (way : Way) (mode : DecodingMode) (allowEmpty : Bool) (depth : Nat)
    (value : V) : ((support.codec part).decodeBy way mode allowEmpty depth value).Regular :=
  ((((Scalar.Standard.varint hpart).regular.packed _).proxied _ _ _).regular
    way mode allowEmpty depth value)

/-- Bytes are decoded by way of the lists that they are the bytes of. -/
theorem leaves_decodeValue (hn : 9 * n < 2 ^ 64)
    (hreturns : ∀ items h, ∃ decoded, support.decodeProxy (.ofItems 0 items h) = .ok decoded)
    {β : Type} [Buf β] {buf : β} (mode : DecodingMode) (depth : Nat) (value : V) {v : V}
    {rest : Bytes} : ((support.codec part).decodeValue mode depth value).Leaves buf v rest ↔
      ∃ items h, Buf.bytes buf = part.packedVarints items ++ rest ∧
        support.decodeProxy (.ofItems 0 items h) = .ok (.ok v) := by
  have hregular : (asCanonical ((support.codec part).decodeValue mode depth value)).Regular :=
    regular_codec hpart .relaxed mode true depth value
  have hparses : ((support.codec part).decodeValue mode depth value).Parses (Buf.bytes buf) v rest ↔
      ((support.codec part).decodeBy .relaxed mode true depth value).Parses (Buf.bytes buf)
        (v, .canonical) rest := by
    simp [ValueCodec.decodeBy]
  rw [leaves_iff hregular.of_asCanonical, hparses, codec, ValueCodec.proxied_decodeBy]
  simp only [parses_bind, parses_asCanonical, parses_ofResult, and_true]
  constructor
  · rintro ⟨x, mid, hpacked, hdecode, rfl⟩
    obtain ⟨items, h, rfl, hbytes⟩ :=
      (VarintScalar.parses_packed_localProxy hpart hn).mp hpacked
    obtain ⟨decoded, hdecoded⟩ := hreturns items h
    simp only [PartsSupport.proxy, hdecoded] at hdecode
    exact ⟨items, h, hbytes, hdecoded.trans (congrArg _ hdecode)⟩
  · rintro ⟨items, h, hbytes, hdecode⟩
    refine ⟨(.ofItems 0 items h, .canonical), rest, ?_, ?_, rfl⟩
    · exact (VarintScalar.parses_packed_localProxy hpart hn).mpr ⟨items, h, rfl, hbytes⟩
    · simp only [PartsSupport.proxy, hdecode]

theorem leaves_decodeValueDistinguished (hn : 9 * n < 2 ^ 64)
    (hreturns : ∀ items h,
      ∃ decoded, support.decodeProxyDistinguished (.ofItems 0 items h) = .ok decoded)
    {β : Type} [Buf β] {buf : β} (mode : DecodingMode) (allowEmpty : Bool) (depth : Nat)
    (value : V) {v : V} {canon : Canonicity} {rest : Bytes} :
    ((support.codec part).decodeValueDistinguished mode allowEmpty depth value).Leaves buf
        (v, canon) rest ↔
      ∃ items h, Buf.bytes buf = part.packedVarints items ++ rest ∧
        support.decodeProxyDistinguished (.ofItems 0 items h) = .ok (.ok (v, canon)) := by
  have hregular : ((support.codec part).decodeValueDistinguished mode allowEmpty depth value).Regular :=
    regular_codec hpart .distinguished mode allowEmpty depth value
  rw [leaves_iff hregular]
  show ((support.codec part).decodeBy .distinguished mode allowEmpty depth value).Parses _ _ _ ↔ _
  rw [codec, ValueCodec.proxied_decodeBy]
  simp only [parses_bind, parses_check, parses_done, parses_ofResult]
  constructor
  · rintro ⟨x, mid, hpacked, y, mid', ⟨hdecode, rfl⟩, hresult, rfl⟩
    obtain ⟨items, h, rfl, hbytes⟩ :=
      (VarintScalar.parses_packed_localProxy hpart hn).mp hpacked
    obtain ⟨decoded, hdecoded⟩ := hreturns items h
    simp only [PartsSupport.proxy, hdecoded] at hdecode
    obtain ⟨rfl, rfl⟩ : v = y.1 ∧ canon = y.2 := by
      simpa only [Canonicity.canonical_update, Prod.mk.injEq, eq_comm] using hresult
    exact ⟨items, h, hbytes, hdecoded.trans (congrArg _ hdecode)⟩
  · rintro ⟨items, h, hbytes, hdecode⟩
    refine ⟨(.ofItems 0 items h, .canonical), rest, ?_, (v, canon), rest, ⟨?_, rfl⟩, ?_, rfl⟩
    · exact (VarintScalar.parses_packed_localProxy hpart hn).mpr ⟨items, h, rfl, hbytes⟩
    · simp only [PartsSupport.proxy, hdecode]
    · simp only [Canonicity.canonical_update]

end

end PartsSupport

namespace ArrayParts

variable {V T : Type} {n : Nat} [DecidableEq T] [Zero T] {array : ArrayParts V T n}
  {acceptable : V → Prop} {part : VarintScalar T}

/-- What is decoded from an array of parts is what is encoded to it, for the values
whose parts are accepted. -/
structure Inverse (array : ArrayParts V T n) (acceptable : V → Prop) : Prop where
  parts_returns (v : V) : ∃ arr, array.parts v = .ok arr
  returns (arr : List.Vector T n) : ∃ decoded, array.ofParts arr = .ok decoded
  iff {arr : List.Vector T n} {v : V} :
    array.ofParts arr = .ok (.ok v) ↔ acceptable v ∧ array.parts v = .ok arr
  isEmpty {v : V} {arr : List.Vector T n} : array.parts v = .ok arr →
    (array.isEmpty v = true ↔ arr = List.Vector.replicate n 0)

/-- The list that a value is encoded to. -/
theorem encodeProxy_support {v : V} {arr : List.Vector T n} (h : array.parts v = .ok arr) :
    ∃ hlength, array.support.encodeProxy v =
      .ok (.ofItems 0 (LocalProxy.trimmed (EmptyState.single 0) arr.toList) hlength) := by
  obtain ⟨hlength, heq⟩ := LocalProxy.newWithoutEmptySuffix_eq (EmptyState.lawful_single 0) arr
  refine ⟨hlength, ?_⟩
  show (array.parts v >>= fun arr => _) = _
  rw [h, Attempt.ok_bind, heq]

theorem decodeProxyDistinguished_support (proxy : LocalProxy T n) :
    array.support.decodeProxyDistinguished proxy =
      (array.ofParts proxy.intoInner >>= fun decoded => .ok (decoded.map fun v =>
        (v, (proxy.intoInnerDistinguished (EmptyState.single 0)).2))) := by
  have hsplit : proxy.intoInnerDistinguished (EmptyState.single 0) =
      (proxy.intoInner, (proxy.intoInnerDistinguished (EmptyState.single 0)).2) :=
    Prod.ext proxy.intoInnerDistinguished_fst rfl
  simp only [support]
  rw [hsplit]

/-- The array that a list is filled up to. -/
def filled (items : List T) (h : items.length ≤ n) : List.Vector T n :=
  (LocalProxy.ofItems 0 items h).intoInner

theorem filled_trimmed (arr : List.Vector T n) (h) :
    filled (LocalProxy.trimmed (EmptyState.single 0) arr.toList) h = arr :=
  List.Vector.toList_injective
    (LocalProxy.padded_trimmed (EmptyState.lawful_single 0) arr.toList_length)

variable (h : array.Inverse acceptable)
include h

theorem Inverse.roundTrips (hpart : part.Lawful) (hn : 9 * n < 2 ^ 64) :
    array.support.RoundTrips part acceptable where
  encodes v := by
    obtain ⟨arr, harr⟩ := h.parts_returns v
    obtain ⟨hlength, hencode⟩ := encodeProxy_support harr
    refine ⟨_, hlength, hencode, PartsSupport.gives_of_encodeProxy hpart hencode, ?_⟩
    rw [show array.support.isEmpty v = array.isEmpty v from rfl,
      h.isEmpty harr]
    constructor
    · rintro rfl
      have hnil : LocalProxy.trimmed (.single 0) (padded n (0 : T) []) =
          LocalProxy.trimmed (.single 0) [] :=
        LocalProxy.trimmed_padded (EmptyState.lawful_single 0)
      exact hnil
    · intro hnil
      have hfilled := filled_trimmed arr hlength
      simp only [hnil] at hfilled
      exact hfilled.symm
  returns items h' := h.returns _
  back {v proxy} hacceptable hencode := by
    obtain ⟨arr, harr⟩ := h.parts_returns v
    obtain ⟨hlength, hencode'⟩ := encodeProxy_support harr
    obtain rfl := Except.ok.inj (hencode'.symm.trans hencode)
    show array.ofParts (filled _ hlength) = _
    rw [filled_trimmed]
    exact h.iff.mpr ⟨hacceptable, harr⟩
  acceptable hdecode := (h.iff.mp hdecode).1
  decodes mode depth value :=
    PartsSupport.leaves_decodeValue hpart hn (fun _ _ => h.returns _) mode depth value

theorem Inverse.decodeProxyDistinguished_iff {items : List T} {hlength : items.length ≤ n} {v : V}
    {canon : Canonicity} : array.support.decodeProxyDistinguished
        (.ofItems 0 items hlength) = .ok (.ok (v, canon)) ↔
      array.ofParts (filled items hlength) = .ok (.ok v) ∧
        canon = ((LocalProxy.ofItems 0 items hlength).intoInnerDistinguished
          (EmptyState.single 0)).2 := by
  obtain ⟨decoded, hdecoded⟩ := h.returns (filled items hlength)
  rw [decodeProxyDistinguished_support, show (LocalProxy.ofItems 0 items hlength).intoInner =
    filled items hlength from rfl, hdecoded, Attempt.ok_bind]
  cases decoded with
  | error kind => simp [Except.map]
  | ok w =>
      simp only [Except.map, Except.ok.injEq, Prod.mk.injEq]
      exact and_congr_right' eq_comm

theorem Inverse.distinguishes (hpart : part.Lawful) (hn : 9 * n < 2 ^ 64) :
    array.support.Distinguishes part where
  accepts := by
    intro v items hlength
    simp only [h.decodeProxyDistinguished_iff, exists_and_left, exists_eq, and_true]
    exact Iff.rfl
  canonical_iff := by
    intro v items hlength canon hdecode
    obtain ⟨hofParts, rfl⟩ := h.decodeProxyDistinguished_iff.mp hdecode
    obtain ⟨hlength', hencode⟩ := encodeProxy_support (h.iff.mp hofParts).2
    have harr : (filled items hlength).toList = padded n 0 items := rfl
    simp only [harr] at hencode hlength'
    have hsingle : (EmptyState.single (0 : T)).Lawful 0 := EmptyState.lawful_single 0
    rw [LocalProxy.intoInnerDistinguished_snd hsingle, LocalProxy.items_ofItems,
      ← LocalProxy.trimmed_padded_eq_iff (n := n) hsingle, hencode, Except.ok.injEq]
    constructor
    · intro heq
      apply LocalProxy.ext_toList
      · exact congrArg (padded n 0) heq
      · exact congrArg List.length heq
    · intro heq
      simpa only [LocalProxy.items_ofItems] using congrArg LocalProxy.items heq
  decodes mode allowEmpty depth value := by
    apply PartsSupport.leaves_decodeValueDistinguished hpart hn
    intro items hlength
    obtain ⟨decoded, hdecoded⟩ := h.returns (LocalProxy.ofItems 0 items hlength).intoInner
    rw [decodeProxyDistinguished_support, hdecoded, Attempt.ok_bind]
    exact ⟨_, rfl⟩

end ArrayParts

end Bilrost
