import Bilrost.Schema.MessageReadBack
import Bilrost.Schema.Structural

/-!
Options, arrays and repeated fields that are read back, and with them every
value of a structural schema. Of an array each item is decoded into the place of
an empty one, so the payloads fill it again one by one.
-/

namespace Bilrost

open Program

namespace ValueCodec

variable {T C : Type} {item codec : ValueCodec T} {coll : Collection C T} {state : EmptyState T}
  {ordered : Prop} {way : Way} {mode : DecodingMode} {allowEmpty : Bool} {depth n : Nat}

/-- A payload is not longer than what it is part of. -/
theorem length_lt_of_flatten {bytesOf : T → Bytes} {values : List T} {limit : Nat}
    (h : (values.map bytesOf).flatten.length < limit) :
    ∀ value ∈ values, (bytesOf value).length < limit := by
  intro value hvalue
  have hmem : bytesOf value ∈ values.map bytesOf := List.mem_map_of_mem hvalue
  exact (List.sublist_flatten_of_mem hmem).length_le.trans_lt h

/-- Values have no other payloads. -/
theorem payloads_eq {bytesOf : T → Bytes}
    (hencode : ∀ value, item.encodeValue value = some (bytesOf value)) {values : List T}
    {payloads : List Bytes} (h : values.map item.encodeValue = payloads.map some) :
    payloads = values.map bytesOf := by
  apply List.map_injective_iff.mpr (Option.some_injective _)
  rw [← h, funext hencode, List.map_map]
  rfl

/-- The payloads of the items of an array fill an empty one with them. -/
theorem fills_of_readsBack {bytesOf : T → Bytes}
    (hencode : ∀ value, item.encodeValue value = some (bytesOf value)) {arr : List.Vector T n}
    (hitems : ∀ value ∈ arr.toList, item.ReadsBack way mode true depth value)
    (hlt : ∀ value ∈ arr.toList, (bytesOf value).length < 2 ^ 64) :
    Fills (item.Replaces way mode depth) (List.Vector.replicate n item.forOverwrite)
      (arr.toList.map bytesOf) (arr, .canonical) := by
  induction n with
  | zero =>
      obtain rfl := arr.eq_nil
      exact ⟨rfl, rfl⟩
  | succ n ih =>
      obtain ⟨first, rest, rfl⟩ := arr.exists_eq_cons
      rw [List.Vector.toList_cons] at hitems hlt ⊢
      rw [List.forall_mem_cons] at hitems hlt
      rw [List.Vector.replicate_succ, List.map_cons]
      refine ⟨(first, .canonical), (rest, .canonical), ?_, ?_, rfl⟩
      · exact hitems.1 _ (hencode first) hlt.1
      · exact ih hitems.2 hlt.2

theorem ReadsBack.packedArray {arr : List.Vector T n} (hcuts : item.Cuts)
    (hputs : item.Puts ordered)
    (hitems : ∀ value ∈ arr.toList, item.ReadsBack way mode true depth value) :
    (item.packedArray n).ReadsBack way mode allowEmpty depth arr := by
  choose bytesOf hencodes using hputs.encode
  intro payload hencode hlt
  have hall := encodeAll_eq hencodes arr.toList
  obtain ⟨content, hcontent, rfl⟩ := encodeDelimited_eq_some
    (fun bytes hbytes => hputs.many hbytes) hencode
  obtain rfl := Option.some.inj (hall.symm.trans hcontent)
  have hcontentLt : ((arr.toList).map bytesOf).flatten.length < 2 ^ 64 := by
    rw [List.length_append] at hlt
    omega
  apply hcuts.parses_packedArray.mpr
  refine ⟨_, hcontentLt, by rw [List.append_nil], ?_⟩
  exact fills_of_readsBack hencodes hitems (length_lt_of_flatten hcontentLt)

/-- An array that is empty is the one that is decoded into. -/
theorem Empties.array_eq (hempties : item.Empties state)
    (hdiscerns : ∀ x y, item.same false x y → x = y) {arr : List.Vector T n}
    (hempty : (state.array n).isEmpty arr = true) :
    arr = List.Vector.replicate n item.forOverwrite := by
  apply List.Vector.toList_injective
  rw [List.Vector.replicate, List.Vector.toList_mk]
  apply List.eq_replicate_iff.mpr
  constructor
  · exact arr.toList_length
  · intro value hvalue
    exact hdiscerns _ _ ((hempties.isEmpty value).mp (List.all_eq_true.mp hempty value hvalue))

theorem ReadsBack.optional {value : Option T} (hcuts : codec.Cuts) (hwrites : codec.Writes ordered)
    (h : ∀ v ∈ value, codec.ReadsBack way mode true depth v) :
    codec.optional.ReadsBack ordered way mode depth value := by
  cases value with
  | none =>
      refine ⟨_, _, codec.written_none, fun _ => rfl, ?_⟩
      intro payload payloads hcons
      cases hcons
  | some value =>
      obtain ⟨payload, hpayload⟩ := hwrites.encode value
      refine ⟨_, _, hwrites.written_some hpayload, ?_⟩
      constructor
      · intro hnil
        cases hnil
      · intro p ps hcons hlt rest _
        obtain ⟨rfl, rfl⟩ := List.cons.inj hcons
        have hvalue := h value rfl payload hpayload (hlt payload List.mem_cons_self)
        have hlocal := hcuts.isLocal way mode true depth codec.forOverwrite
        rw [optional_decodeBy]
        refine parses_bind.mpr ⟨(value, .canonical), rest, ?_, parses_done.mpr ⟨rfl, rfl⟩⟩
        exact parses_decodeFieldBy.mpr ⟨rfl, hlocal.append hvalue rest⟩

section
variable {items : C}

/-- The fields of a collection: those of its items, as they are put. -/
theorem ReadsBack.unpackedField {allowed : Features} (hcuts : item.Cuts)
    (hwrites : item.Writes ordered) (hcoll : coll.Standard allowed)
    (hreversed : ordered → ∀ items, coll.reversed items = (coll.iter items).reverse)
    (hitems : ∀ value ∈ coll.iter items, item.ReadsBack way mode true depth value)
    (hrebuilds : coll.Rebuilds way items) :
    (item.unpackedField coll).ReadsBack ordered way mode depth items := by
  obtain ⟨payloads, hpayloads, hwritten⟩ :=
    hwrites.written_unpackedField hcoll hreversed items
  choose bytesOf hencodes using hwrites.encode
  obtain rfl := payloads_eq hencodes hpayloads
  refine ⟨_, _, hwritten, ?_, ?_⟩
  · intro hnil
    apply (hcoll.isEmpty items).mp
    rw [hcoll.isEmpty_iter, List.map_eq_nil_iff.mp hnil]
    rfl
  · intro payload payloads hcons hlt rest hrest
    have hlengths : ∀ value ∈ coll.iter items, (bytesOf value).length < 2 ^ 64 :=
      fun value hvalue => hlt _ (List.mem_map_of_mem hvalue)
    have hrounds := rounds_of_readsBack hencodes hitems hlengths hrebuilds
    have hcomes : item.comesPacked item.wireType = false := by simp [comesPacked]
    rw [hcons] at hrounds
    simp only [unpackedField_decodeBy, hcomes, Bool.false_eq_true, ↓reduceIte]
    exact hcuts.parses_decodeUnpackedBy.mpr ⟨rfl, hrest, payload, payloads, rfl, hrounds⟩

end

section
variable {arr : List.Vector T (n + 1)}

/-- The fields of an array, after the key of the first one. -/
theorem parses_of_readsBack {payloads : List Bytes} (hcuts : item.Cuts)
    (hwrites : item.Writes ordered)
    (hitems : ∀ value ∈ arr.toList, item.ReadsBack way mode true depth value)
    (hpayloads : arr.toList.map item.encodeValue = payloads.map some)
    (hlt : ∀ p ∈ payloads, p.length < 2 ^ 64) {payload : Bytes} {more : List Bytes}
    (hcons : payloads = payload :: more) {rest : Bytes} (hrest : NoRepeat rest) :
    (item.decodeArrayEitherReprBy way mode depth item.wireType
      (List.Vector.replicate (n + 1) item.forOverwrite)).Parses
        (payload ++ (unpackedPayloads item.wireType more ++ rest)) (arr, .canonical) rest := by
  choose bytesOf hencodes using hwrites.encode
  obtain rfl := payloads_eq hencodes hpayloads
  have hfills := fills_of_readsBack hencodes hitems fun value hvalue =>
    hlt _ (List.mem_map_of_mem hvalue)
  have hcomes : item.comesPacked item.wireType = false := by simp [comesPacked]
  rw [hcons] at hfills
  simp only [decodeArrayEitherReprBy, hcomes, Bool.false_eq_true, ↓reduceIte]
  exact hcuts.parses_decodeArrayUnpackedOnlyBy.mpr ⟨rfl, hrest, payload, more, rfl, hfills⟩

theorem ReadsBack.unpackedArrayField (hcuts : item.Cuts) (hwrites : item.Writes ordered)
    (hempty : (state.array (n + 1)).isEmpty arr = true →
      arr = List.Vector.replicate (n + 1) item.forOverwrite)
    (hitems : ∀ value ∈ arr.toList, item.ReadsBack way mode true depth value) :
    (item.unpackedArrayField state (n + 1)).ReadsBack ordered way mode depth arr := by
  cases hisEmpty : (state.array (n + 1)).isEmpty arr with
  | true =>
      refine ⟨_, _, written_unpackedArrayField_empty item hisEmpty, fun _ => hempty hisEmpty, ?_⟩
      intro payload payloads hcons
      cases hcons
  | false =>
      obtain ⟨payloads, hpayloads, hwritten⟩ := hwrites.written_unpackedArrayField hisEmpty
      refine ⟨_, _, hwritten, fun hnil => ?_, ?_⟩
      · exact hempty (hwritten.isEmpty.mpr hnil)
      · intro payload more hcons hlt rest hrest
        have hparses := parses_of_readsBack hcuts hwrites hitems hpayloads hlt hcons hrest
        rw [unpackedArrayField_decodeBy]
        refine parses_bind.mpr ⟨(arr, .canonical), rest, hparses, ?_⟩
        simp only [hisEmpty, Way.refuseEmpty_false]
        exact parses_done.mpr ⟨rfl, rfl⟩

theorem ReadsBack.packedArrayField {arr : List.Vector T n}
    (hwrites : (item.packedArray n).Writes ordered)
    (hempty : (state.array n).isEmpty arr = true →
      arr = List.Vector.replicate n item.forOverwrite)
    (h : (item.packedArray n).ReadsBack way mode false depth arr) :
    (item.packedArrayField state n).ReadsBack ordered way mode depth arr := by
  apply (guards_packedArrayField item state n).readsBack hwrites hempty
  intro hisEmpty payload hpayload hlt rest
  have hlocal := (cuts_packedArray item n).isLocal way mode false depth
    (List.Vector.replicate n item.forOverwrite)
  have hstays : (state.array n).isEmpty arr = false := hisEmpty
  have hwire : (item.packedArray n).wireType = .lengthDelimited := rfl
  rw [packedArrayField_decodeBy, if_pos hwire]
  refine parses_bind.mpr ⟨(arr, .canonical), rest, ?_, ?_⟩
  · exact hlocal.append (h payload hpayload hlt) rest
  · rw [hstays, Way.refuseEmpty_false]
    exact parses_done.mpr ⟨rfl, rfl⟩

theorem ReadsBack.unpackedArrayOptionField {value : Option (List.Vector T (n + 1))}
    (hcuts : item.Cuts) (hwrites : item.Writes ordered)
    (hitems : ∀ arr ∈ value, ∀ v ∈ arr.toList, item.ReadsBack way mode true depth v) :
    (item.unpackedArrayOptionField (n + 1)).ReadsBack ordered way mode depth value := by
  cases value with
  | none =>
      refine ⟨_, _, written_unpackedArrayOptionField_none item (n + 1), fun _ => rfl, ?_⟩
      intro payload payloads hcons
      cases hcons
  | some arr =>
      obtain ⟨payloads, hpayloads, hwritten⟩ :=
        hwrites.written_unpackedArrayOptionField n.succ_pos arr
      refine ⟨_, _, hwritten, fun hnil => ?_, ?_⟩
      · rw [hnil, List.map_nil, List.map_eq_nil_iff] at hpayloads
        exact absurd (arr.toList_length.symm.trans (congrArg List.length hpayloads)) n.succ_ne_zero
      · intro payload more hcons hlt rest hrest
        have hparses := parses_of_readsBack hcuts hwrites (hitems arr rfl) hpayloads hlt hcons hrest
        rw [unpackedArrayOptionField_decodeBy]
        exact parses_bind.mpr ⟨(arr, .canonical), rest, hparses, parses_done.mpr ⟨rfl, rfl⟩⟩

end

end ValueCodec

namespace MessageCodec

variable {M : Type} {codec : MessageCodec M} {way : Way} {mode : DecodingMode} {depth : Nat} {m : M}

theorem SameTo.mergeBy {codec' : MessageCodec M} (h : codec.SameTo depth codec') (way : Way)
    (mode : DecodingMode) {d : Nat} (hd : d ≤ depth) (m : M) :
    codec.mergeBy way mode d m = codec'.mergeBy way mode d m := by
  rw [MessageCodec.mergeBy, MessageCodec.mergeBy, h.stepBy way mode hd]

theorem readsBack_of_sameTo {codec' : MessageCodec M} (hsame : codec.SameTo depth codec')
    (hnests : codec.nestsWithin depth m) (h : codec'.ReadsBack way mode depth m) :
    codec.ReadsBack way mode depth m := by
  intro bytes hencode hlt
  rw [hsame.rawEncode hnests] at hencode
  rw [hsame.mergeBy way mode le_rfl, hsame.empty]
  exact h bytes hencode hlt

/-- A message is read by the approximation to the number of its bytes, and all
that follow. -/
theorem Unrolls.parses_mergeBy {approx : Nat → MessageCodec M} {within : Nat → M → Prop}
    (hunrolls : codec.Unrolls approx within) (hregular : codec.Regular) {n : Nat}
    (happrox : (approx n).Regular) {bytes : Bytes} (hn : bytes.length ≤ n) {x : M × Canonicity} :
    (codec.mergeBy way mode depth m).Parses bytes x [] ↔
      ((approx n).mergeBy way mode depth m).Parses bytes x [] := by
  rw [hregular.parses_mergeBy, happrox.parses_mergeBy]
  have hreading {records : List Record} {last : Nat} {lastTag : Option Nat} :
      Reading (codec.stepBy way mode depth) ⟨0, none, (m, .canonical), bytes⟩ records
          ⟨last, lastTag, x, []⟩ ↔
        Reading ((approx n).stepBy way mode depth) ⟨0, none, (m, .canonical), bytes⟩ records
          ⟨last, lastTag, x, []⟩ := by
    constructor
    · intro h
      exact h.imp (fun _ _ _ _ _ _ _ hle => (hunrolls.parses_stepBy hle).mp) hn
    · intro h
      exact h.imp (fun _ _ _ _ _ _ _ hle => (hunrolls.parses_stepBy hle).mpr) hn
  simp only [hreading]

theorem readsBack_of_unrolls {approx : Nat → MessageCodec M} {within : Nat → M → Prop}
    (hunrolls : codec.Unrolls approx within)
    (hgrows : ∀ {n n' m}, n ≤ n' → within n m → within n' m) (hregular : codec.Regular)
    (happrox : ∀ n, (approx n).Regular)
    (h : ∀ n, within n m → (approx n).ReadsBack way mode depth m) :
    codec.ReadsBack way mode depth m := by
  intro bytes hencode hlt
  obtain ⟨k, hk⟩ := hunrolls.reached m
  -- far enough to write the message and to read its bytes
  have hwithin := hgrows (le_max_left k bytes.length) hk
  rw [hunrolls.rawEncode hwithin] at hencode
  rw [hunrolls.parses_mergeBy hregular (happrox _) (le_max_right k bytes.length),
    hunrolls.empty (max k bytes.length)]
  exact h _ hwithin bytes hencode hlt

end MessageCodec

/-- The parts of a schema are read back, to the depth that they nest to. A
message that would stand for nothing in its place is not one of those that are
refused when empty. -/
def Part.ReadsBack : Part → Prop
  | .value codec => ∀ way mode allowEmpty depth value, codec.nestsWithin depth value →
      (allowEmpty = true ∨ value ≠ codec.forOverwrite) →
        codec.ReadsBack way mode allowEmpty depth value
  | .field codec => ∀ way mode depth value, codec.nestsWithin depth value →
      codec.ReadsBack (¬Features.structural.hashed) way mode depth value
  | .messageField fld => fld.tags.Nodup → ∀ way mode depth value, fld.nestsWithin depth value →
      fld.ReadsBack (¬Features.structural.hashed) way mode depth value
  | .message codec => ∀ way mode depth m, codec.nestsWithin depth m →
      codec.ReadsBack way mode depth m

namespace Structural

/-- A message without bytes is the empty one. -/
theorem eq_empty_of_rawEncode {M : Type} {codec : MessageCodec M}
    (h : Structural (.message codec)) {m : M} (hencode : codec.rawEncode m = some []) :
    m = codec.empty := by
  have hshows : codec.Shows := h.built.shows not_false
  have hisEmpty := (hshows.rawEncode m).mpr hencode
  exact h.built.discerns not_false false _ _ ((h.built.locks.isEmpty m).mp hisEmpty)

/-- The empty state is the one that is decoded into. -/
theorem isEmpty_iff {T : Type} {codec : ValueCodec T} (h : Structural (.value codec))
    {state : EmptyState T} (hempties : codec.Empties state) (value : T) :
    state.isEmpty value = true ↔ value = codec.forOverwrite := by
  constructor
  · intro hempty
    exact h.built.discerns not_false false _ _ ((hempties.isEmpty value).mp hempty)
  · rintro rfl
    exact hempties.isEmpty_forOverwrite (h.built.locks.same.refl false _)

/-- Every value of a structural schema is read back from what it is encoded as,
in either way and mode, if it nests to no more than the depth that there is. -/
theorem readsBack {part : Part} (h : Structural part) : part.ReadsBack := by
  induction h with
  | scalar h => exact fun way mode allowEmpty depth value _ _ =>
      h.readsBack way mode allowEmpty depth value
  | packed hcoll hitem ih =>
      intro way mode allowEmpty depth items hnests _
      apply ValueCodec.ReadsBack.packed hitem.built.cuts (hitem.built.writes not_false)
      · exact fun value hvalue => ih way mode true depth value (hnests value hvalue) (.inl rfl)
      · exact hcoll.rebuilds not_false way items
  | map hcoll hkey hval ihkey ihval =>
      intro way mode allowEmpty depth items hnests _
      apply ValueCodec.ReadsBack.map hkey.built.cuts hval.built.cuts
        (hkey.built.writes not_false) (hval.built.writes not_false)
      · exact fun e he => ihkey way mode true depth e.1 (hnests e he).1 (.inl rfl)
      · exact fun e he => ihval way mode true depth e.2 (hnests e he).2 (.inl rfl)
      · exact hcoll.rebuilds not_false way items
  | packedArray hn hitem ih =>
      intro way mode allowEmpty depth arr hnests _
      have hwrites : ValueCodec.Writes _ _ := hitem.built.writes not_false
      apply ValueCodec.ReadsBack.packedArray hitem.built.cuts hwrites.toPuts
      exact fun value hvalue => ih way mode true depth value (hnests value hvalue) (.inl rfl)
  | nested hcodec ih =>
      rintro way mode allowEmpty _ m ⟨depth, rfl, hnests⟩ hempty
      apply (ih way mode depth m hnests).nested (hcodec.built.writes not_false)
      exact hempty.imp_right fun hne hencode => hne (hcodec.eq_empty_of_rawEncode hencode)
  | tupled hcodec ih =>
      rintro way mode allowEmpty _ m ⟨depth, rfl, hnests⟩ hempty
      apply (ih way mode depth m hnests).tupled (hcodec.built.writes not_false)
      exact hempty.imp_right fun hne hencode => hne (hcodec.eq_empty_of_rawEncode hencode)
  | inlined hcodec ih =>
      intro way mode allowEmpty depth m hnests _
      exact (ih way mode depth m hnests).inlined (hcodec.built.writes not_false)
  | plain hstate hempties hcodec ih =>
      intro way mode depth value hnests
      apply ValueCodec.ReadsBack.plain hcodec.built.cuts (hcodec.built.writes not_false)
      · exact (hcodec.isEmpty_iff hempties value).mp
      · intro hisEmpty
        apply ih way mode false depth value hnests
        right
        intro heq
        rw [(hcodec.isEmpty_iff hempties value).mpr heq] at hisEmpty
        cases hisEmpty
  | optional hcodec ih =>
      intro way mode depth value hnests
      apply ValueCodec.ReadsBack.optional hcodec.built.cuts (hcodec.built.writes not_false)
      exact fun v hv => ih way mode true depth v (hnests v hv) (.inl rfl)
  | unpackedField hcoll hitem ih =>
      intro way mode depth items hnests
      apply ValueCodec.ReadsBack.unpackedField hitem.built.cuts (hitem.built.writes not_false)
        hcoll hcoll.reversed_iter
      · exact fun value hvalue => ih way mode true depth value (hnests value hvalue) (.inl rfl)
      · exact hcoll.rebuilds not_false way items
  | packedField hcoll hitem ih =>
      intro way mode depth items hnests
      have hwrites : ValueCodec.Writes _ _ := hitem.built.writes not_false
      apply ValueCodec.ReadsBack.packedField (ValueCodec.writes_packedItems hwrites.toPuts
        hcoll.reversed_iter)
      · exact (hcoll.isEmpty items).mp
      · apply ValueCodec.ReadsBack.packed hitem.built.cuts hwrites
        · exact fun value hvalue => ih way mode true depth value (hnests value hvalue) (.inl rfl)
        · exact hcoll.rebuilds not_false way items
  | @unpackedArrayField _ _ _ n hn hstate hempties hitem ih =>
      intro way mode depth arr hnests
      obtain ⟨n, rfl⟩ := Nat.exists_eq_succ_of_ne_zero hn.ne'
      apply ValueCodec.ReadsBack.unpackedArrayField hitem.built.cuts
        (hitem.built.writes not_false)
      · exact hempties.array_eq (hitem.built.discerns not_false false)
      · exact fun value hvalue => ih way mode true depth value (hnests value hvalue) (.inl rfl)
  | packedArrayField hn hstate hempties hitem ih =>
      intro way mode depth arr hnests
      have hwrites : ValueCodec.Writes _ _ := hitem.built.writes not_false
      apply ValueCodec.ReadsBack.packedArrayField (hwrites.packedArray _)
      · exact hempties.array_eq (hitem.built.discerns not_false false)
      · apply ValueCodec.ReadsBack.packedArray hitem.built.cuts hwrites.toPuts
        exact fun value hvalue => ih way mode true depth value (hnests value hvalue) (.inl rfl)
  | @unpackedArrayOptionField _ _ n hn hitem ih =>
      intro way mode depth value hnests
      obtain ⟨n, rfl⟩ := Nat.exists_eq_succ_of_ne_zero hn.ne'
      apply ValueCodec.ReadsBack.unpackedArrayOptionField hitem.built.cuts
        (hitem.built.writes not_false)
      exact fun arr harr v hv => ih way mode true depth v (hnests arr harr v hv) (.inl rfl)
  | tagged tag _ ih => exact fun _ way mode depth value hnests =>
      (ih way mode depth value hnests).tagged tag
  | oneof hvariants ih =>
      intro hnodup way mode depth value hnests
      apply Oneof.readsBack hnodup
      · exact fun i => (hvariants i).built.cuts
      · exact fun i => (hvariants i).built.writes not_false
      · exact fun v hv => ih v.1 way mode true depth v.2 (hnests v hv) (.inl rfl)
  | @fields _ F w hsound hw hignored hfields ih =>
      intro way mode depth m hnests
      apply Built.readsBack_message (show ¬Features.structural.emptyArrays from not_false) hsound hw
      · exact fun i => (hfields i).built
      · exact hignored.elim _ _
      · exact fun i => ih i (hsound.nodup i) way mode depth _ (hnests i)
  | recursive approx hsame _ _ ih =>
      intro way mode depth m hnests
      apply MessageCodec.readsBack_of_sameTo (hsame depth) hnests
      rw [(hsame depth).nestsWithin] at hnests
      exact ih depth way mode depth m hnests
  | unrolled approx within hunrolls hgrows happrox ih =>
      intro way mode depth m hnests
      apply MessageCodec.readsBack_of_unrolls hunrolls hgrows
      · exact (Structural.unrolled approx within hunrolls hgrows happrox).built.regular
      · exact fun n => (happrox n).built.regular
      · exact fun n hn => ih n way mode depth m ((hunrolls.nestsWithin hn depth).mp hnests)

end Structural

end Bilrost
