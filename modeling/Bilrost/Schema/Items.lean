import Bilrost.Schema.Payloads

/-!
What collections are decoded from. In either form the items are payloads that
stand one after the other, with keys between them or without, and the decoder
puts what each of them means into the collection.
-/

namespace Bilrost

open Program

namespace Collection

variable {C T : Type}

/-- Inserting an item in one way or the other. -/
def inserted (coll : Collection C T) (way : Way) (items : C) (item : T) :
    Except DecodeErrorKind (C × Canonicity) :=
  match way with
  | .relaxed => (coll.insert items item).map fun items => (items, .canonical)
  | .distinguished => coll.insertDistinguished items item

/-- Inserting items one after the other, each with the canonicity it has of its
own. -/
def insertAll (coll : Collection C T) (way : Way) : C × Canonicity → List (T × Canonicity) →
    Option (C × Canonicity)
  | state, [] => some state
  | state, item :: items =>
      match coll.inserted way state.1 item.1 with
      | .ok (next, canon) => coll.insertAll way (next, (state.2.update item.2).update canon) items
      | .error _ => none

theorem parses_insertBy {coll : Collection C T} {way : Way} {items : C} {item : T}
    {bytes rest : Bytes} {x : C × Canonicity} :
    (coll.insertBy way items item).Parses bytes x rest ↔
      coll.inserted way items item = .ok x ∧ bytes = rest := by
  cases way with
  | relaxed =>
      simp only [insertBy, parses_asCanonical, parses_ofResult, inserted]
      cases coll.insert items item with
      | error kind => simp [Except.map]
      | ok next =>
          obtain ⟨value, canon⟩ := x
          simp only [Except.map, Except.ok.injEq, Prod.mk.injEq]
          tauto
  | distinguished =>
      simp only [insertBy, insertChecked, inserted, checked, Program.bind_eq, parses_bind,
        parses_ofResult, check_bind, parses_check, done_bind, parses_done]
      constructor
      · rintro ⟨inserted, mid, ⟨hinsert, rfl⟩, rfl, rfl⟩
        exact ⟨hinsert, rfl⟩
      · rintro ⟨hinsert, rfl⟩
        exact ⟨x, bytes, ⟨hinsert, rfl⟩, rfl, rfl⟩

end Collection

namespace ValueCodec

variable {C T K V : Type}

/-- What some bytes mean as an item, in one way and mode and at one depth. -/
def Means (item : ValueCodec T) (way : Way) (mode : DecodingMode) (depth : Nat) (payload : Bytes)
    (meaning : T × Canonicity) : Prop :=
  (item.decodeBy way mode true depth item.forOverwrite).Parses payload meaning []

/-- Items that are decoded from bytes of their own. -/
structure Separate (item : ValueCodec T) : Prop where
  isLocal (way : Way) (mode : DecodingMode) (depth : Nat) :
    (item.decodeBy way mode true depth item.forOverwrite).Local
  takes {way : Way} {mode : DecodingMode} {depth : Nat} {meaning : T × Canonicity} :
    ¬item.Means way mode depth [] meaning

theorem Cuts.separate {item : ValueCodec T} (h : item.Cuts) : item.Separate where
  isLocal way mode depth := h.isLocal way mode true depth _
  takes hmeans := (h.complete hmeans).ne_nil rfl

/-- What means something is cut off in one way only. -/
theorem Separate.append_inj {item : ValueCodec T} (h : item.Separate) {way : Way}
    {mode : DecodingMode} {depth : Nat} {payload payload' rest rest' : Bytes}
    {meaning meaning' : T × Canonicity} (hmeans : item.Means way mode depth payload meaning)
    (hmeans' : item.Means way mode depth payload' meaning')
    (heq : payload ++ rest = payload' ++ rest') : payload = payload' ∧ rest = rest' := by
  have hparse := (h.isLocal way mode depth).append hmeans rest
  rw [heq] at hparse
  obtain ⟨-, rfl⟩ := hparse.unique ((h.isLocal way mode depth).append hmeans' rest')
  exact ⟨List.append_cancel_right heq, rfl⟩

theorem Cuts.means_entry {key : ValueCodec K} {val : ValueCodec V} (hkey : key.Cuts) {way : Way}
    {mode : DecodingMode} {depth : Nat} {payload : Bytes} {meaning : (K × V) × Canonicity} :
    (key.entry val).Means way mode depth payload meaning ↔
      ∃ keyPayload valPayload keyCanon valCanon, payload = keyPayload ++ valPayload ∧
        key.Means way mode depth keyPayload (meaning.1.1, keyCanon) ∧
        val.Means way mode depth valPayload (meaning.1.2, valCanon) ∧
        meaning.2 = keyCanon.update valCanon := by
  rw [Means, entry_decodeBy]
  simp only [parses_bind, parses_done]
  constructor
  · rintro ⟨newKey, mid, hnewKey, newVal, left, hnewVal, rfl, rfl⟩
    obtain ⟨keyPayload, rfl, hkeyMeans⟩ := (hkey.isLocal way mode true depth _).iff.mp hnewKey
    exact ⟨keyPayload, mid, newKey.2, newVal.2, rfl, hkeyMeans, hnewVal, rfl⟩
  · rintro ⟨keyPayload, valPayload, keyCanon, valCanon, rfl, hkeyMeans, hvalMeans, hcanon⟩
    refine ⟨(meaning.1.1, keyCanon), valPayload, ?_, (meaning.1.2, valCanon), [], hvalMeans, ?_, rfl⟩
    · exact (hkey.isLocal way mode true depth _).append hkeyMeans valPayload
    · exact Prod.ext rfl hcanon.symm

/-- Entries with keys and values of fixed sizes have a fixed size as well. -/
theorem length_of_means_entry {key : ValueCodec K} {val : ValueCodec V} (hkey : key.Cuts)
    (hval : val.Cuts) {way : Way} {mode : DecodingMode} {depth size : Nat} {payload : Bytes}
    {meaning : (K × V) × Canonicity} (hsize : combinedFixedSize key.wireType val.wireType = some size)
    (hmeans : (key.entry val).Means way mode depth payload meaning) : payload.length = size := by
  obtain ⟨keyPayload, valPayload, keyCanon, valCanon, rfl, hkeyMeans, hvalMeans, -⟩ :=
    hkey.means_entry.mp hmeans
  unfold combinedFixedSize at hsize
  cases hkeySize : key.wireType.fixedSize with
  | none => simp [hkeySize] at hsize
  | some keySize =>
      cases hvalSize : val.wireType.fixedSize with
      | none => simp [hkeySize, hvalSize] at hsize
      | some valSize =>
          obtain rfl : keySize + valSize = size := by simpa [hkeySize, hvalSize] using hsize
          rw [List.length_append, (hkey.complete hkeyMeans).length hkeySize,
            (hval.complete hvalMeans).length hvalSize]

theorem Cuts.separate_entry {key : ValueCodec K} {val : ValueCodec V} (hkey : key.Cuts)
    (hval : val.Cuts) : (key.entry val).Separate where
  isLocal way mode depth := hkey.local_entry hval way mode true depth _
  takes hmeans := by
    obtain ⟨keyPayload, valPayload, keyCanon, valCanon, hnil, hkeyMeans, -, -⟩ :=
      hkey.means_entry.mp hmeans
    obtain ⟨rfl, -⟩ := List.append_eq_nil_iff.mp hnil.symm
    exact (hkey.complete hkeyMeans).ne_nil rfl

section
variable {item : ValueCodec T} {coll : Collection C T} {way : Way} {mode : DecodingMode} {depth : Nat}

theorem parses_decodeItemBy {state state' : C × Canonicity} {bytes rest : Bytes} :
    (item.decodeItemBy coll way mode depth state).Parses bytes state' rest ↔
      ∃ meaning inserted,
        (item.decodeBy way mode true depth item.forOverwrite).Parses bytes meaning rest ∧
        coll.inserted way state.1 meaning.1 = .ok inserted ∧
        state' = (inserted.1, (state.2.update meaning.2).update inserted.2) := by
  simp only [decodeItemBy, parses_bind, Collection.parses_insertBy, parses_done]
  constructor
  · rintro ⟨meaning, mid, hmeans, inserted, left, ⟨hinserted, rfl⟩, rfl, rfl⟩
    exact ⟨meaning, inserted, hmeans, hinserted, rfl⟩
  · rintro ⟨meaning, inserted, hmeans, hinserted, rfl⟩
    exact ⟨meaning, rest, hmeans, inserted, rest, ⟨hinserted, rfl⟩, rfl, rfl⟩

/-- What one payload does to a collection. -/
def Takes (item : ValueCodec T) (coll : Collection C T) (way : Way) (mode : DecodingMode)
    (depth : Nat) (state : C × Canonicity) (payload : Bytes) (state' : C × Canonicity) : Prop :=
  (item.decodeItemBy coll way mode depth state).Parses payload state' []

theorem Separate.takers (h : item.Separate) :
    Takers (item.decodeItemBy coll way mode depth) where
  isLocal state := by
    apply (h.isLocal way mode depth).bind
    intro meaning
    have hinsert : (coll.insertBy way state.1 meaning.1).Local := by
      cases way with
      | relaxed => exact (local_ofResult _).asCanonical
      | distinguished =>
          exact (local_ofResult _).bind fun x => ((local_done _).check x.2).bind fun _ => local_done _
    exact hinsert.bind fun inserted => local_done _
  takes hparse := by
    obtain ⟨meaning, -, hmeans, -⟩ := parses_decodeItemBy.mp hparse
    exact h.takes hmeans

/-- The payloads of items that mean something. -/
theorem rounds_iff_insertAll {payloads : List (Bytes × T × Canonicity)}
    (hmeans : ∀ p ∈ payloads, item.Means way mode depth p.1 p.2) {state state' : C × Canonicity} :
    Rounds (item.Takes coll way mode depth) state (payloads.map Prod.fst) state' ↔
      coll.insertAll way state (payloads.map Prod.snd) = some state' := by
  induction payloads generalizing state with
  | nil =>
      rw [List.map_nil, List.map_nil, Collection.insertAll, Option.some.injEq]
      constructor
      · rintro ⟨⟩
        rfl
      · rintro rfl
        exact .nil
  | cons p payloads ih =>
      have hp := hmeans p List.mem_cons_self
      have hrest {state : C × Canonicity} :
          Rounds (item.Takes coll way mode depth) state (payloads.map Prod.fst) state' ↔
            coll.insertAll way state (payloads.map Prod.snd) = some state' :=
        ih fun q hq => hmeans q (List.mem_cons_of_mem p hq)
      rw [List.map_cons, List.map_cons, Collection.insertAll]
      cases hinserted : coll.inserted way state.1 p.2.1 with
      | error kind =>
          simp only [reduceCtorEq, iff_false]
          rintro (_ | ⟨hstep, -⟩)
          obtain ⟨meaning, inserted, hmeaning, hins, -⟩ := parses_decodeItemBy.mp hstep
          obtain ⟨rfl, -⟩ := hp.unique hmeaning
          rw [hinserted] at hins
          cases hins
      | ok inserted =>
          simp only [← hrest]
          constructor
          · rintro (_ | ⟨hstep, hmore⟩)
            obtain ⟨meaning, inserted', hmeaning, hins, rfl⟩ := parses_decodeItemBy.mp hstep
            obtain ⟨rfl, -⟩ := hp.unique hmeaning
            obtain rfl : inserted = inserted' := by simpa [hinserted] using hins
            exact hmore
          · intro hmore
            refine .cons ?_ hmore
            exact parses_decodeItemBy.mpr ⟨p.2, inserted, hp, hinserted, rfl⟩

/-- Items in a region. -/
theorem Separate.parses_packedItems (h : item.Separate) {fixedSize : Option Nat} {allowEmpty : Bool}
    {value : C} {bytes rest : Bytes} {x : C × Canonicity} :
    ((packedItems fixedSize item coll).decodeBy way mode allowEmpty depth value).Parses bytes x rest ↔
      ∃ payloads : List Bytes, payloads.flatten.length < 2 ^ 64 ∧
        bytes = varint payloads.flatten.length ++ (payloads.flatten ++ rest) ∧
        misfits fixedSize payloads.flatten.length = false ∧
        Rounds (item.Takes coll way mode depth) (value, .canonical) payloads x := by
  rw [(packedItems_decodeBy fixedSize item coll way mode allowEmpty depth value).parses,
    parses_delimited]
  constructor
  · rintro ⟨content, hlt, hbytes, hinner⟩
    cases hfits : misfits fixedSize content.length with
    | true => simp [hfits] at hinner
    | false =>
        simp only [hfits, Bool.false_eq_true, ↓reduceIte] at hinner
        obtain ⟨-, payloads, rfl, hrounds⟩ := h.takers.parses_whileRemaining.mp hinner
        exact ⟨payloads, hlt, hbytes, hfits, hrounds⟩
  · rintro ⟨payloads, hlt, hbytes, hfits, hrounds⟩
    refine ⟨payloads.flatten, hlt, hbytes, ?_⟩
    simp only [hfits, Bool.false_eq_true, ↓reduceIte]
    exact h.takers.parses_whileRemaining.mpr ⟨rfl, payloads, rfl, hrounds⟩

/-- Items of a fixed size fit. -/
theorem flatten_length {size : Nat} {payloads : List Bytes}
    (h : ∀ payload ∈ payloads, payload.length = size) :
    payloads.flatten.length = payloads.length * size := by
  rw [List.length_flatten, List.map_congr_left h, List.map_const', List.sum_replicate, smul_eq_mul]

theorem misfits_flatten {fixedSize : Option Nat} {payloads : List Bytes}
    (h : ∀ size ∈ fixedSize, ∀ payload ∈ payloads, payload.length = size) :
    misfits fixedSize payloads.flatten.length = false := by
  cases fixedSize with
  | none => rfl
  | some size =>
      have hlen := flatten_length (h size rfl)
      simp [misfits, hlen]

theorem means_of_rounds {state state' : C × Canonicity} {payloads : List Bytes}
    (hrounds : Rounds (item.Takes coll way mode depth) state payloads state') :
    ∀ payload ∈ payloads, ∃ meaning, item.Means way mode depth payload meaning := by
  induction hrounds with
  | nil => simp
  | cons hstep _ ih =>
      obtain ⟨meaning, inserted, hmeans, -⟩ := parses_decodeItemBy.mp hstep
      simp only [List.mem_cons, forall_eq_or_imp]
      exact ⟨⟨meaning, hmeans⟩, ih⟩

theorem Cuts.complete_of_rounds (h : item.Cuts) {state state' : C × Canonicity}
    {payloads : List Bytes} (hrounds : Rounds (item.Takes coll way mode depth) state payloads state') :
    ∀ payload ∈ payloads, item.wireType.Complete payload := by
  intro payload hpayload
  obtain ⟨meaning, hmeans⟩ := means_of_rounds hrounds payload hpayload
  exact h.complete hmeans

/-- A packed value. -/
theorem Cuts.parses_packed (h : item.Cuts) {allowEmpty : Bool} {value : C} {bytes rest : Bytes}
    {x : C × Canonicity} :
    ((item.packed coll).decodeBy way mode allowEmpty depth value).Parses bytes x rest ↔
      ∃ payloads : List Bytes, payloads.flatten.length < 2 ^ 64 ∧
        bytes = varint payloads.flatten.length ++ (payloads.flatten ++ rest) ∧
        Rounds (item.Takes coll way mode depth) (value, .canonical) payloads x := by
  rw [packed, h.separate.parses_packedItems]
  constructor
  · rintro ⟨payloads, hlt, hbytes, -, hrounds⟩
    exact ⟨payloads, hlt, hbytes, hrounds⟩
  · rintro ⟨payloads, hlt, hbytes, hrounds⟩
    refine ⟨payloads, hlt, hbytes, misfits_flatten fun size hsize payload hpayload => ?_, hrounds⟩
    exact (h.complete_of_rounds hrounds payload hpayload).length hsize

/-- What the payloads of unpacked items look like behind the first key. -/
def unpackedPayloads (wireType : WireType) (payloads : List Bytes) : Bytes :=
  payloads.flatMap fun payload => keyBytes 0 wireType ++ payload

/-- A run of fields under one tag, after the first key. -/
theorem Cuts.parses_decodeUnpackedBy (h : item.Cuts) {wireType : WireType} {value : C}
    {bytes rest : Bytes} {x : C × Canonicity} :
    (item.decodeUnpackedBy coll way mode depth wireType value).Parses bytes x rest ↔
      item.wireType = wireType ∧ NoRepeat rest ∧ ∃ payload payloads,
        bytes = payload ++ (unpackedPayloads item.wireType payloads ++ rest) ∧
        Rounds (item.Takes coll way mode depth) (value, .canonical) (payload :: payloads) x := by
  have htakers : Takers (item.decodeItemBy coll way mode depth) := h.separate.takers
  simp only [decodeUnpackedBy, decodeRepeatedBy, parses_bind, parses_checkWireType]
  constructor
  · rintro ⟨state, mid, ⟨u, mid', ⟨hwire, rfl⟩, hfirst⟩, hmore⟩
    obtain ⟨payload, rfl, hpayload⟩ := (htakers.isLocal _).iff.mp hfirst
    obtain ⟨hstop, payloads, rfl, hrounds⟩ :=
      (htakers.parses_whileRepeated fun _ _ => rfl).mp hmore
    exact ⟨hwire, hstop, payload, payloads, rfl, .cons hpayload hrounds⟩
  · rintro ⟨hwire, hstop, payload, payloads, rfl, hrounds⟩
    cases hrounds with
    | @cons _ state _ _ _ hstep hmore =>
        refine ⟨state, _, ⟨(), _, ⟨hwire, rfl⟩, (htakers.isLocal _).append hstep _⟩, ?_⟩
        exact (htakers.parses_whileRepeated fun _ _ => rfl).mpr ⟨hstop, payloads, rfl, hmore⟩

end

end ValueCodec

end Bilrost
