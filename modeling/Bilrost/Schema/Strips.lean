import Bilrost.Schema.Attested
import Bilrost.Schema.Remains

/-!
Values that are decoded with nothing worse than extensions are decoded from what
remains without these, and canonically. Nothing is asked of their encoders: the
bytes that remain are followed through the decoders.
-/

namespace Bilrost

open Program

theorem Canonicity.not_hasExtensions_le_notCanonical : ¬hasExtensions ≤ notCanonical := by decide

namespace Collection

variable {C T : Type}

/-- Putting an item into a collection is canonical or it is not. -/
def Decides (coll : Collection C T) : Prop :=
  ∀ ⦃front next : C⦄ ⦃item : T⦄ ⦃canon : Canonicity⦄,
    coll.inserted .distinguished front item = .ok (next, canon) → .hasExtensions ≤ canon →
      canon = .canonical

/-- Without a check of the order, every item that is taken is fine. -/
theorem decides_of_trivially {coll : Collection C T} (insert : C → T → Except DecodeErrorKind C)
    (h : coll.insertDistinguished = trivially insert) : coll.Decides := by
  intro front next item canon hinserted _
  have hmap : (insert front item).map (fun items => (items, Canonicity.canonical)) =
      .ok (next, canon) := by
    rw [inserted, h] at hinserted
    exact hinserted
  cases hinsert : insert front item with
  | error kind =>
      rw [hinsert] at hmap
      cases hmap
  | ok items =>
      rw [hinsert] at hmap
      exact (congrArg Prod.snd (Except.ok.inj hmap)).symm

theorem decides_btreeMap {K V : Type} [LinearOrder K] : (btreeMap K V).Decides := by
  intro front next entry canon h hcanon
  have hnew (h : (btreeMap.insertNew K V front entry).map (fun map => (map, Canonicity.notCanonical)) =
      .ok (next, canon)) : canon = .canonical := by
    unfold btreeMap.insertNew at h
    split_ifs at h
    · cases h
    · obtain rfl := congrArg Prod.snd (Except.ok.inj h)
      exact absurd hcanon Canonicity.not_hasExtensions_le_notCanonical
  simp only [inserted, btreeMap] at h
  split at h
  · exact (congrArg Prod.snd (Except.ok.inj h)).symm
  · split at h
    · exact hnew h
    · cases h
    · exact (congrArg Prod.snd (Except.ok.inj h)).symm

theorem decides_btreeSet [LinearOrder T] : (btreeSet T).Decides :=
  fun _ _ _ _ h => decides_btreeMap (K := T) (V := Unit) h

theorem Standard.decides {allowed : Features} {coll : Collection C T} (h : coll.Standard allowed)
    (hordered : ¬allowed.hashed) : coll.Decides := by
  cases h with
  | vec => exact decides_of_trivially (fun items item => .ok (items ++ [item])) rfl
  | arrayVec => exact decides_of_trivially (arrayVec.push T _) rfl
  | btreeMap => exact decides_btreeMap
  | btreeSet => exact decides_btreeSet
  | hashMap K V place hhashed => exact absurd hhashed hordered
  | hashSet T place hhashed => exact absurd hhashed hordered

end Collection

namespace ValueCodec

variable {T C K V : Type}

/-- Whatever some bytes mean as an item, but for extensions, what remains of them
means canonically. -/
def Cleans (item : ValueCodec T) : Prop :=
  ∀ ⦃mode : DecodingMode⦄ ⦃depth : Nat⦄ ⦃payload : Bytes⦄ ⦃value : T⦄ ⦃canon : Canonicity⦄,
    item.Means .distinguished mode depth payload (value, canon) → .hasExtensions ≤ canon →
      ∃ payload' : Bytes, Remains depth (.value item) payload payload' ∧
        item.Means .distinguished mode depth payload' (value, .canonical)

/-- The same of values that may not be empty, unless an empty message remains. -/
structure Strips (codec : ValueCodec T) : Prop where
  cleans : codec.Cleans
  decode {mode : DecodingMode} {depth : Nat} {payload : Bytes} {value : T} {canon : Canonicity} :
    (codec.decodeBy .distinguished mode false depth codec.forOverwrite).Parses payload
      (value, canon) [] → .hasExtensions ≤ canon →
    ∃ payload' : Bytes, Remains depth (.value codec) payload payload' ∧
      ((codec.decodeBy .distinguished mode false depth codec.forOverwrite).Parses payload'
          (value, .canonical) [] ∨
        codec.checksEmpty = true ∧ payload ≠ regionBytes [] ∧ payload' = regionBytes [] ∧
          codec.Means .distinguished mode depth payload' (value, .canonical))

/-- Decoders that do the same with values that may be empty and others. -/
theorem Cleans.strips {codec : ValueCodec T} (h : codec.Cleans)
    (hsame : ∀ {mode depth payload x},
      (codec.decodeBy .distinguished mode false depth codec.forOverwrite).Parses payload x [] ↔
        codec.Means .distinguished mode depth payload x) : codec.Strips where
  cleans := h
  decode hparse hcanon := by
    obtain ⟨payload', hremains, hmeans⟩ := h (hsame.mp hparse) hcanon
    exact ⟨payload', hremains, .inl (hsame.mpr hmeans)⟩

theorem strips_scalar (scalar : Scalar T) : scalar.codec.Strips := by
  have hcleans : scalar.codec.Cleans := by
    intro mode depth payload value canon hmeans _
    rw [Means, Scalar.decodeBy_eq, parses_asCanonical] at hmeans
    refine ⟨payload, .scalar payload, ?_⟩
    rw [Means, Scalar.decodeBy_eq, parses_asCanonical]
    exact ⟨hmeans.1, rfl⟩
  apply hcleans.strips
  intro mode depth payload x
  rw [Means, Scalar.decodeBy_eq, Scalar.decodeBy_eq]

theorem Cleans.entry {key : ValueCodec K} {val : ValueCodec V} (hcuts : key.Cuts)
    (hkey : key.Cleans) (hval : val.Cleans) : (key.entry val).Cleans := by
  intro mode depth payload e canon hmeans hcanon
  obtain ⟨keyPayload, valPayload, keyCanon, valCanon, rfl, hkeyMeans, hvalMeans, rfl⟩ :=
    hcuts.means_entry.mp hmeans
  obtain ⟨hkeyCanon, hvalCanon⟩ := Canonicity.le_update_iff.mp hcanon
  obtain ⟨keyBytes, hkeyRemains, hkeyBytes⟩ := hkey hkeyMeans hkeyCanon
  obtain ⟨valBytes, hvalRemains, hvalBytes⟩ := hval hvalMeans hvalCanon
  refine ⟨keyBytes ++ valBytes, Remains.entry hkeyRemains hvalRemains, ?_⟩
  exact hcuts.means_entry.mpr ⟨keyBytes, valBytes, _, _, rfl, hkeyBytes, hvalBytes, rfl⟩

section
variable {item : ValueCodec T} {coll : Collection C T} {mode : DecodingMode} {depth : Nat}
  {canon : Canonicity}

/-- The items go into the collection as they did. -/
theorem Cleans.rounds (h : item.Cleans) (hcoll : coll.Decides) {state : C × Canonicity} {items : C}
    {payloads : List Bytes}
    (hrounds : Rounds (item.Takes coll .distinguished mode depth) state payloads (items, canon))
    (hcanon : .hasExtensions ≤ canon) :
    .hasExtensions ≤ state.2 ∧ ∃ payloads', RemainsEach depth item payloads payloads' ∧
      Rounds (item.Takes coll .distinguished mode depth) (state.1, .canonical) payloads'
        (items, .canonical) := by
  generalize hend : (items, canon) = last at hrounds
  induction hrounds with
  | nil =>
      subst hend
      exact ⟨hcanon, [], .nil, .nil⟩
  | cons hstep _ ih =>
      obtain ⟨hnext, payloads', hremains, hmore⟩ := ih hend
      obtain ⟨⟨value, itemCanon⟩, ⟨next, insertCanon⟩, hmeans, hinserted, rfl⟩ :=
        parses_decodeItemBy.mp hstep
      obtain ⟨hboth, hinsertCanon⟩ := Canonicity.le_update_iff.mp hnext
      obtain ⟨hstate, hitemCanon⟩ := Canonicity.le_update_iff.mp hboth
      obtain ⟨payload', hremains', hmeans'⟩ := h hmeans hitemCanon
      obtain rfl := hcoll hinserted hinsertCanon
      refine ⟨hstate, payload' :: payloads', .cons hremains' hremains, .cons ?_ hmore⟩
      exact parses_decodeItemBy.mpr ⟨_, _, hmeans', hinserted, rfl⟩

theorem Cleans.packedItems {fixedSize : Option Nat} (h : item.Cleans) (hseparate : item.Separate)
    (hsize : ∀ size ∈ fixedSize, ∀ ⦃mode depth payload meaning⦄,
      item.Means .distinguished mode depth payload meaning → payload.length = size)
    (hcoll : coll.Decides) : (packedItems fixedSize item coll).Cleans := by
  intro mode depth payload items canon hmeans hcanon
  obtain ⟨payloads, hlt, rfl, -, hrounds⟩ := hseparate.parses_packedItems.mp hmeans
  obtain ⟨-, payloads', hremains, hrounds'⟩ := h.rounds hcoll hrounds hcanon
  refine ⟨regionBytes payloads'.flatten, ?_, ?_⟩
  · rw [region_eq]
    exact .packedItems_of_each hremains
  · refine hseparate.parses_packedItems.mpr
      ⟨payloads', (Remains.flatten_length_le hremains).trans_lt hlt, (region_eq _).symm, ?_, hrounds'⟩
    apply misfits_flatten
    intro size hsized payload hpayload
    obtain ⟨meaning, hmeaning⟩ := means_of_rounds hrounds' payload hpayload
    exact hsize size hsized hmeaning

theorem Cleans.strips_packedItems {fixedSize : Option Nat}
    (h : (ValueCodec.packedItems fixedSize item coll).Cleans) (hseparate : item.Separate) :
    (ValueCodec.packedItems fixedSize item coll).Strips := by
  apply h.strips
  intro mode depth payload x
  rw [Means, hseparate.parses_packedItems, hseparate.parses_packedItems]

theorem Cleans.strips_packed (h : item.Cleans) (hcuts : item.Cuts) (hcoll : coll.Decides) :
    (item.packed coll).Strips :=
  (h.packedItems hcuts.separate (fun _ hsize _ _ _ _ hmeans => (hcuts.complete hmeans).length hsize)
    hcoll).strips_packedItems hcuts.separate

theorem Cleans.strips_map {key : ValueCodec K} {val : ValueCodec V} {coll : Collection C (K × V)}
    (hkeyCuts : key.Cuts) (hvalCuts : val.Cuts) (hkey : key.Cleans) (hval : val.Cleans)
    (hcoll : coll.Decides) : (key.map val coll).Strips := by
  have hseparate := hkeyCuts.separate_entry hvalCuts
  refine ((hkey.entry hkeyCuts hval).packedItems hseparate ?_ hcoll).strips_packedItems hseparate
  exact fun size hsize _ _ _ _ => length_of_means_entry hkeyCuts hvalCuts hsize

/-- The items of an array are as they were. -/
theorem Cleans.fills (h : item.Cleans) {n : Nat} {payloads : List Bytes} {arr : List.Vector T n}
    (hfills : Fills (item.Replaces .distinguished mode depth)
      (List.Vector.replicate n item.forOverwrite) payloads (arr, canon))
    (hcanon : .hasExtensions ≤ canon) :
    ∃ payloads', RemainsEach depth item payloads payloads' ∧
      Fills (item.Replaces .distinguished mode depth) (List.Vector.replicate n item.forOverwrite)
        payloads' (arr, .canonical) := by
  induction n generalizing payloads canon with
  | zero =>
      obtain ⟨rfl, heq⟩ := hfills
      refine ⟨[], .nil, rfl, ?_⟩
      rw [arr.eq_nil, (List.Vector.replicate 0 item.forOverwrite).eq_nil]
  | succ n ih =>
      cases payloads with
      | nil => exact hfills.elim
      | cons payload payloads =>
          rw [List.Vector.replicate_succ] at hfills ⊢
          obtain ⟨⟨first, firstCanon⟩, ⟨rest, restCanon⟩, hfirst, hrest, heq⟩ := hfills
          obtain ⟨rfl, rfl⟩ := Prod.ext_iff.mp heq
          obtain ⟨hfirstCanon, hrestCanon⟩ := Canonicity.le_update_iff.mp hcanon
          obtain ⟨payload', hremains, hfirst'⟩ := h hfirst hfirstCanon
          obtain ⟨payloads', hremains', hrest'⟩ := ih hrest hrestCanon
          exact ⟨payload' :: payloads', .cons hremains hremains', _, _, hfirst', hrest', rfl⟩

theorem Cleans.strips_packedArray (h : item.Cleans) (hcuts : item.Cuts) (n : Nat) :
    (item.packedArray n).Strips := by
  have hcleans : (item.packedArray n).Cleans := by
    intro mode depth payload arr canon hmeans hcanon
    obtain ⟨payloads, hlt, rfl, hfills⟩ := hcuts.parses_packedArray.mp hmeans
    obtain ⟨payloads', hremains, hfills'⟩ := h.fills hfills hcanon
    refine ⟨regionBytes payloads'.flatten, ?_, ?_⟩
    · rw [region_eq]
      exact .packedArray_of_each hremains
    · exact hcuts.parses_packedArray.mpr
        ⟨payloads', (Remains.flatten_length_le hremains).trans_lt hlt, (region_eq _).symm, hfills'⟩
  apply hcleans.strips
  intro mode depth payload x
  rw [Means, hcuts.parses_packedArray, hcuts.parses_packedArray]

end

section
variable {P : Type} {codec : ValueCodec P} {proxy : Proxy T P} {forOverwrite : T}
  {emptyState : Option (EmptyState T)} {mode : DecodingMode} {allowEmpty : Bool} {depth : Nat}
  {bytes rest : Bytes} {value : T} {canon : Canonicity}

theorem parses_proxied :
    ((codec.proxied proxy forOverwrite emptyState).decodeBy .distinguished mode allowEmpty depth
        (codec.proxied proxy forOverwrite emptyState).forOverwrite).Parses bytes (value, canon) rest ↔
      ∃ p codecCanon proxyCanon,
        (codec.decodeBy .distinguished mode allowEmpty depth codec.forOverwrite).Parses bytes
          (p, codecCanon) rest ∧
        proxy.decodeProxyDistinguished p = .ok (value, proxyCanon) ∧
        canon = codecCanon.update proxyCanon := by
  rw [proxied_decodeBy]
  simp only [parses_bind, parses_ofResult, parses_check, parses_done]
  constructor
  · rintro ⟨⟨p, codecCanon⟩, mid, hp, ⟨v, proxyCanon⟩, left, ⟨hproxy, rfl⟩, heq, rfl⟩
    obtain ⟨rfl, rfl⟩ := Prod.ext_iff.mp heq
    exact ⟨p, codecCanon, proxyCanon, hp, hproxy, rfl⟩
  · rintro ⟨p, codecCanon, proxyCanon, hp, hproxy, rfl⟩
    exact ⟨(p, codecCanon), rest, hp, (value, proxyCanon), rest, ⟨hproxy, rfl⟩, rfl, rfl⟩

/-- The proxy is the same, and so what is made of it. -/
theorem Strips.proxied (h : codec.Strips) (hreports : proxy.Reports) (forOverwrite : T)
    (emptyState : Option (EmptyState T)) :
    (codec.proxied proxy forOverwrite emptyState).Strips := by
  have hcanonical {p : P} {value : T} {canon : Canonicity}
      (hproxy : proxy.decodeProxyDistinguished p = .ok (value, canon))
      (hcanon : .hasExtensions ≤ canon) : canon = .canonical := by
    have hne := hreports hproxy
    revert hcanon hne
    cases canon <;> decide
  have hmeans {mode : DecodingMode} {allowEmpty : Bool} {depth : Nat} {payload : Bytes} {p : P}
      {value : T} (hproxy : proxy.decodeProxyDistinguished p = .ok (value, .canonical))
      (hp : (codec.decodeBy .distinguished mode allowEmpty depth codec.forOverwrite).Parses payload
        (p, .canonical) []) :
      ((codec.proxied proxy forOverwrite emptyState).decodeBy .distinguished mode allowEmpty depth
        (codec.proxied proxy forOverwrite emptyState).forOverwrite).Parses payload
          (value, .canonical) [] :=
    parses_proxied.mpr ⟨p, _, _, hp, hproxy, rfl⟩
  constructor
  · intro mode depth payload value canon hparse hcanon
    obtain ⟨p, codecCanon, proxyCanon, hp, hproxy, rfl⟩ := parses_proxied.mp hparse
    obtain ⟨hcodecCanon, hproxyCanon⟩ := Canonicity.le_update_iff.mp hcanon
    obtain rfl := hcanonical hproxy hproxyCanon
    obtain ⟨payload', hremains, hp'⟩ := h.cleans hp hcodecCanon
    exact ⟨payload', hremains.proxied proxy forOverwrite emptyState, hmeans hproxy hp'⟩
  · intro mode depth payload value canon hparse hcanon
    obtain ⟨p, codecCanon, proxyCanon, hp, hproxy, rfl⟩ := parses_proxied.mp hparse
    obtain ⟨hcodecCanon, hproxyCanon⟩ := Canonicity.le_update_iff.mp hcanon
    obtain rfl := hcanonical hproxy hproxyCanon
    obtain ⟨payload', hremains, hdecode⟩ := h.decode hp hcodecCanon
    refine ⟨payload', hremains.proxied proxy forOverwrite emptyState, ?_⟩
    rcases hdecode with hp' | ⟨hchecks, hne, hempty, hp'⟩
    · exact .inl (hmeans hproxy hp')
    · exact .inr ⟨hchecks, hne, hempty, hmeans hproxy hp'⟩

end

end ValueCodec

end Bilrost
