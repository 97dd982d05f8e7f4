import Bilrost.Schema.DecodedOnce
import Bilrost.Schema.MessageSheds

/-!
What was decoded is read back. Whatever bytes a value was decoded from, in either
way, those that it is encoded as are decoded to it again with no more room for
nesting than there was. Nothing is asked of the value: what lies in it was
decoded with less room, and so is read back with that.
-/

namespace Bilrost

open Program

namespace Collection

variable {C T : Type}

/-- What is in a collection was put into it. -/
def Keeps (coll : Collection C T) : Prop :=
  ∀ ⦃way : Way⦄ ⦃front next : C⦄ ⦃item : T⦄ ⦃canon : Canonicity⦄,
    coll.inserted way front item = .ok (next, canon) →
      ∀ x ∈ coll.iter next, x ∈ coll.iter front ∨ x = item

theorem keeps_vec : (vec T).Keeps := by
  intro way front next item canon h x hx
  have hnext : front ++ [item] = next := by
    cases way <;> exact congrArg Prod.fst (Except.ok.inj h)
  subst hnext
  simpa [vec] using hx

theorem keeps_arrayVec {capacity : Nat} : (arrayVec T capacity).Keeps := by
  intro way front next item canon h x hx
  have hmap : (arrayVec.push T capacity front item).map (fun items => (items, Canonicity.canonical)) =
      .ok (next, canon) := by
    cases way <;> exact h
  unfold arrayVec.push at hmap
  split_ifs at hmap
  · obtain rfl := congrArg Prod.fst (Except.ok.inj hmap)
    simpa [arrayVec] using hx
  · cases hmap

/-- In whatever order, an entry that is taken is inserted. -/
theorem eq_of_inserted_btreeMap {K V : Type} [LinearOrder K] {way : Way} {front next : SortedMap K V}
    {entry : K × V} {canon : Canonicity}
    (h : (btreeMap K V).inserted way front entry = .ok (next, canon)) :
    next = front.insert entry.1 entry.2 := by
  have hnew {canon' : Canonicity}
      (h : (btreeMap.insertNew K V front entry).map (fun map => (map, canon')) = .ok (next, canon)) :
      next = front.insert entry.1 entry.2 := by
    unfold btreeMap.insertNew at h
    split_ifs at h
    · cases h
    · exact (congrArg Prod.fst (Except.ok.inj h)).symm
  cases way with
  | relaxed => exact hnew h
  | distinguished =>
      simp only [inserted, btreeMap] at h
      split at h
      · exact (congrArg Prod.fst (Except.ok.inj h)).symm
      · split at h
        · exact hnew h
        · cases h
        · exact (congrArg Prod.fst (Except.ok.inj h)).symm

theorem keeps_btreeMap {K V : Type} [LinearOrder K] : (btreeMap K V).Keeps := by
  intro way front next entry canon h x hx
  rw [eq_of_inserted_btreeMap h] at hx
  rcases SortedMap.mem_upsertEntries hx with hold | heq | ⟨v, heq⟩
  · exact .inl hold
  · exact .inr heq
  · exact .inr heq

theorem keeps_btreeSet [LinearOrder T] : (btreeSet T).Keeps := by
  intro way front next item canon h x hx
  obtain ⟨entry, hentry, rfl⟩ := List.mem_map.mp hx
  have h : (btreeMap T Unit).inserted way front (item, ()) = .ok (next, canon) := by
    cases way <;> exact h
  rcases keeps_btreeMap h entry hentry with hold | rfl
  · exact .inl (List.mem_map_of_mem hold)
  · exact .inr rfl

theorem Standard.keeps {allowed : Features} {coll : Collection C T} (h : coll.Standard allowed)
    (hordered : ¬allowed.hashed) : coll.Keeps := by
  cases h with
  | vec => exact keeps_vec
  | arrayVec => exact keeps_arrayVec
  | btreeMap => exact keeps_btreeMap
  | btreeSet => exact keeps_btreeSet
  | hashMap K V place hhashed => exact absurd hhashed hordered
  | hashSet T place hhashed => exact absurd hhashed hordered

end Collection

namespace ValueCodec

variable {T C K V : Type} {item codec : ValueCodec T} {coll : Collection C T} {way : Way}
  {mode : DecodingMode} {depth n : Nat}

/-- A value that is read back as an item, in either way and mode. -/
def Readable (item : ValueCodec T) (depth : Nat) (value : T) : Prop :=
  ∀ way mode, item.ReadsBack way mode true depth value

/-- Whatever some bytes mean as an item is read back. -/
def Recalls (item : ValueCodec T) : Prop :=
  ∀ ⦃way : Way⦄ ⦃mode : DecodingMode⦄ ⦃depth : Nat⦄ ⦃payload : Bytes⦄ ⦃value : T⦄
    ⦃canon : Canonicity⦄,
    item.Means way mode depth payload (value, canon) → item.Readable depth value

/-- What is decoded is read back, unless it would be refused where it was. -/
def Rereads (codec : ValueCodec T) : Prop :=
  ∀ ⦃way : Way⦄ ⦃mode : DecodingMode⦄ ⦃allowEmpty : Bool⦄ ⦃depth : Nat⦄ ⦃payload : Bytes⦄
    ⦃value : T⦄ ⦃canon : Canonicity⦄,
    (codec.decodeBy way mode allowEmpty depth codec.forOverwrite).Parses payload (value, canon) [] →
      (allowEmpty = true ∨ value ≠ codec.forOverwrite) →
        ∀ way' mode', codec.ReadsBack way' mode' allowEmpty depth value

theorem Rereads.recalls (h : codec.Rereads) : codec.Recalls :=
  fun _ _ _ _ _ _ hmeans => h hmeans (.inl rfl)

theorem Recalls.entry {key : ValueCodec K} {val : ValueCodec V} (hcuts : key.Cuts)
    (hkey : key.Recalls) (hval : val.Recalls) : (key.entry val).Recalls := by
  intro way mode depth payload e canon hmeans way' mode'
  obtain ⟨keyPayload, valPayload, keyCanon, valCanon, -, hkeyMeans, hvalMeans, -⟩ :=
    hcuts.means_entry.mp hmeans
  exact .entry hcuts (hkey hkeyMeans way' mode') (hval hvalMeans way' mode')

/-- The items that a collection takes in are read back, if those in it are. -/
theorem Recalls.rounds (h : item.Recalls) (hcoll : coll.Keeps) {state state' : C × Canonicity}
    {payloads : List Bytes}
    (hrounds : Rounds (item.Takes coll way mode depth) state payloads state')
    (hstate : ∀ x ∈ coll.iter state.1, item.Readable depth x) :
    ∀ x ∈ coll.iter state'.1, item.Readable depth x := by
  induction hrounds with
  | nil => exact hstate
  | cons hstep _ ih =>
      obtain ⟨⟨value, canon⟩, inserted, hmeans, hinserted, rfl⟩ := parses_decodeItemBy.mp hstep
      apply ih
      intro x hx
      rcases hcoll hinserted x hx with hold | rfl
      · exact hstate x hold
      · exact h hmeans

theorem Recalls.rounds_of_empty (h : item.Recalls) (hcoll : coll.Keeps)
    (hempty : coll.iter coll.empty = []) {items : C} {canon : Canonicity} {payloads : List Bytes}
    (hrounds : Rounds (item.Takes coll way mode depth) (coll.empty, .canonical) payloads
      (items, canon)) : ∀ x ∈ coll.iter items, item.Readable depth x := by
  apply h.rounds hcoll hrounds
  intro x hx
  rw [hempty] at hx
  cases hx

theorem Recalls.fills (h : item.Recalls) {payloads : List Bytes}
    {x : List.Vector T n × Canonicity}
    (hfills : Fills (item.Replaces way mode depth) (List.Vector.replicate n item.forOverwrite)
      payloads x) : ∀ value ∈ x.1.toList, item.Readable depth value := by
  induction n generalizing payloads with
  | zero =>
      rw [x.1.eq_nil]
      simp
  | succ n ih =>
      cases payloads with
      | nil => exact hfills.elim
      | cons payload payloads =>
          rw [List.Vector.replicate_succ] at hfills
          obtain ⟨⟨first, canon⟩, rest, hfirst, hrest, rfl⟩ := hfills
          rw [List.Vector.toList_cons]
          exact List.forall_mem_cons.mpr ⟨h hfirst, ih hrest⟩

/-- Whichever form they are in, the items of a collection are put into it one by
one. -/
theorem Cuts.rounds_of_unpackedField (hcuts : item.Cuts) {wireType : WireType} {items : C}
    {bytes rest : Bytes} {x : C × Canonicity}
    (hparse : ((item.unpackedField coll).decodeBy way mode depth wireType items).Parses bytes x
      rest) : ∃ way' payloads canon,
        Rounds (item.Takes coll way' mode depth) (items, .canonical) payloads (x.1, canon) := by
  rw [unpackedField_decodeBy] at hparse
  split_ifs at hparse
  · have hpacked : ((item.packed coll).decodeBy .relaxed mode true depth items).Parses bytes
        (x.1, .canonical) rest := by
      simpa [decodeBy] using (Way.parses_demote.mp hparse).1
    obtain ⟨payloads, -, -, hrounds⟩ := hcuts.parses_packed.mp hpacked
    exact ⟨_, payloads, _, hrounds⟩
  · obtain ⟨-, -, payload, payloads, -, hrounds⟩ := hcuts.parses_decodeUnpackedBy.mp hparse
    exact ⟨way, _, x.2, hrounds⟩

theorem Cuts.rounds_of_packedField (hcuts : item.Cuts) {wireType : WireType} {items : C}
    {bytes rest : Bytes} {x : C × Canonicity}
    (hparse : ((item.packedField coll).decodeBy way mode depth wireType items).Parses bytes x
      rest) : ∃ way' payloads canon,
        Rounds (item.Takes coll way' mode depth) (items, .canonical) payloads (x.1, canon) := by
  rw [packedField_decodeBy] at hparse
  split_ifs at hparse
  · obtain ⟨decoded, mid, hpacked, hrefuse⟩ := parses_bind.mp hparse
    obtain ⟨rfl, -⟩ := Way.parses_refuseEmpty.mp hrefuse
    obtain ⟨payloads, -, -, hrounds⟩ := hcuts.parses_packed.mp hpacked
    exact ⟨way, payloads, decoded.2, hrounds⟩
  · have hunpacked : (item.decodeUnpackedBy coll .relaxed mode depth wireType items).Parses bytes
        (x.1, .canonical) rest := by
      simpa [decodeUnpackedBy_relaxed] using (Way.parses_demote.mp hparse).1
    obtain ⟨-, -, payload, payloads, -, hrounds⟩ := hcuts.parses_decodeUnpackedBy.mp hunpacked
    exact ⟨_, _, _, hrounds⟩

theorem Cuts.fills_of_eitherRepr (hcuts : item.Cuts) {wireType : WireType}
    {arr : List.Vector T (n + 1)} {bytes rest : Bytes} {x : List.Vector T (n + 1) × Canonicity}
    (hparse : (item.decodeArrayEitherReprBy way mode depth wireType arr).Parses bytes x rest) :
    ∃ way' payloads canon, Fills (item.Replaces way' mode depth) arr payloads (x.1, canon) := by
  unfold decodeArrayEitherReprBy at hparse
  split_ifs at hparse
  · have hpacked : ((item.packedArray (n + 1)).decodeBy .relaxed mode true depth arr).Parses bytes
        (x.1, .canonical) rest := by
      simpa [decodeBy] using (Way.parses_demote.mp hparse).1
    obtain ⟨payloads, -, -, hfills⟩ := hcuts.parses_packedArray.mp hpacked
    exact ⟨_, payloads, _, hfills⟩
  · obtain ⟨-, -, payload, payloads, -, hfills⟩ :=
      hcuts.parses_decodeArrayUnpackedOnlyBy.mp hparse
    exact ⟨way, _, x.2, hfills⟩

theorem Cuts.fills_of_packedArrayField (hcuts : item.Cuts) {state : EmptyState T}
    {wireType : WireType} {arr : List.Vector T (n + 1)} {bytes rest : Bytes}
    {x : List.Vector T (n + 1) × Canonicity}
    (hparse : ((item.packedArrayField state (n + 1)).decodeBy way mode depth wireType arr).Parses
      bytes x rest) :
    ∃ way' payloads canon, Fills (item.Replaces way' mode depth) arr payloads (x.1, canon) := by
  rw [packedArrayField_decodeBy] at hparse
  split_ifs at hparse
  · obtain ⟨decoded, mid, hpacked, hrefuse⟩ := parses_bind.mp hparse
    obtain ⟨rfl, -⟩ := Way.parses_refuseEmpty.mp hrefuse
    obtain ⟨payloads, -, -, hfills⟩ := hcuts.parses_packedArray.mp hpacked
    exact ⟨way, payloads, decoded.2, hfills⟩
  · have hunpacked : (item.decodeArrayUnpackedOnlyBy .relaxed mode depth wireType arr).Parses bytes
        (x.1, .canonical) rest := by
      simpa [decodeArrayUnpackedOnlyBy_relaxed] using (Way.parses_demote.mp hparse).1
    obtain ⟨-, -, payload, payloads, -, hfills⟩ :=
      hcuts.parses_decodeArrayUnpackedOnlyBy.mp hunpacked
    exact ⟨_, _, _, hfills⟩

end ValueCodec

/-- What is decoded into an empty field is read back. -/
def FieldCodec.Rereads {T : Type} (ordered : Prop) (codec : FieldCodec T) : Prop :=
  ∀ ⦃way : Way⦄ ⦃mode : DecodingMode⦄ ⦃depth : Nat⦄ ⦃wireType : WireType⦄ ⦃bytes rest : Bytes⦄
    ⦃x : T × Canonicity⦄,
    (codec.decodeBy way mode depth wireType codec.forOverwrite).Parses bytes x rest →
      ∀ way' mode', codec.ReadsBack ordered way' mode' depth x.1

def MessageField.Rereads {T : Type} (ordered : Prop) (field : MessageField T) : Prop :=
  ∀ ⦃way : Way⦄ ⦃mode : DecodingMode⦄ ⦃depth tag : Nat⦄ ⦃wireType : WireType⦄ ⦃dup : Bool⦄
    ⦃bytes rest : Bytes⦄ ⦃x : T × Canonicity⦄, tag ∈ field.tags →
    (field.decodeBy way mode depth tag wireType dup field.empty).Parses bytes x rest →
      ∀ way' mode', field.ReadsBack ordered way' mode' depth x.1

def MessageCodec.Rereads {M : Type} (codec : MessageCodec M) : Prop :=
  ∀ ⦃way : Way⦄ ⦃mode : DecodingMode⦄ ⦃depth : Nat⦄ ⦃bytes : Bytes⦄ ⦃x : M × Canonicity⦄,
    (codec.mergeBy way mode depth codec.empty).Parses bytes x [] →
      ∀ way' mode', codec.ReadsBack way' mode' depth x.1

/-- Nothing is written of an empty field, so there is nothing to read. -/
theorem MessageField.readsBack_empty {T : Type} {ordered : Prop} {field : MessageField T}
    (hshows : field.Shows) (hwrites : field.Writes ordered) (way : Way) (mode : DecodingMode)
    (depth : Nat) : field.ReadsBack ordered way mode depth field.empty := by
  obtain ⟨records, hwritten⟩ := hwrites.written field.empty
  obtain rfl := hwritten.isEmpty.mp hshows.empty
  refine ⟨[], hwritten, fun _ => rfl, ?_⟩
  intro r rs hcons
  cases hcons

namespace MessageCodec

variable {M : Type} {codec : MessageCodec M}

/-- A message value reads back what was merged into it a level deeper. -/
theorem Rereads.embedded {value : ValueCodec M} (h : codec.Rereads)
    (hforOverwrite : value.forOverwrite = codec.empty)
    (hcontents : ∀ {way mode allowEmpty depth payload x},
      (value.decodeBy way mode allowEmpty depth codec.empty).Parses payload x [] →
        codec.DecodesContents way mode allowEmpty depth payload x)
    (hback : ∀ {way mode allowEmpty depth m}, codec.ReadsBack way mode depth m →
      (allowEmpty = true ∨ m ≠ codec.empty) →
        value.ReadsBack way mode allowEmpty (depth + 1) m) : value.Rereads := by
  intro way mode allowEmpty depth payload m canon hparse hempty way' mode'
  rw [hforOverwrite] at hparse hempty
  obtain ⟨content, -, rfl, ⟨hshort, heq⟩ | ⟨-, hdepth, hmerge⟩⟩ := hcontents hparse
  · -- it was refused, being empty where it may not be
    have hallowed : allowEmpty = false := by
      cases allowEmpty with
      | false => rfl
      | true => simp [Way.shortcut] at hshort
    rw [hallowed] at hempty
    exact absurd (congrArg Prod.fst heq) (hempty.resolve_left Bool.false_ne_true)
  · obtain ⟨depth, rfl⟩ := Nat.exists_eq_succ_of_ne_zero hdepth.ne'
    exact hback (h hmerge way' mode') hempty

theorem rereads_of_sameTo {approx : Nat → MessageCodec M}
    (hsame : ∀ depth, codec.SameTo depth (approx depth))
    (hwithin : ∀ m, ∃ depth, ∀ d, depth ≤ d → codec.nestsWithin d m)
    (h : ∀ depth, (approx depth).Rereads) : codec.Rereads := by
  intro way mode depth bytes x hparse way' mode'
  obtain ⟨k, hk⟩ := hwithin x.1
  -- the approximation that writes the message reads with less room as well
  have hnear := hsame (max k depth)
  have hle := le_max_right k depth
  rw [hnear.mergeBy way mode hle, hnear.empty] at hparse
  intro bytes' hencode hlt
  rw [hnear.rawEncode (hk _ (le_max_left k depth))] at hencode
  rw [hnear.mergeBy way' mode' hle, hnear.empty]
  exact h _ hparse way' mode' bytes' hencode hlt

theorem rereads_of_unrolls {approx : Nat → MessageCodec M} {within : Nat → M → Prop}
    (hunrolls : codec.Unrolls approx within)
    (hgrows : ∀ {n n' m}, n ≤ n' → within n m → within n' m) (hregular : codec.Regular)
    (happrox : ∀ n, (approx n).Regular) (h : ∀ n, (approx n).Rereads) : codec.Rereads := by
  intro way mode depth bytes x hparse way' mode' bytes' hencode hlt
  obtain ⟨k, hk⟩ := hunrolls.reached x.1
  -- far enough to write the message and to read both
  let n := max k (max bytes.length bytes'.length)
  have hn : k ≤ n := le_max_left ..
  have hbytes : bytes.length ≤ n := (le_max_left ..).trans (le_max_right ..)
  have hbytes' : bytes'.length ≤ n := (le_max_right ..).trans (le_max_right ..)
  rw [hunrolls.parses_mergeBy hregular (happrox n) hbytes, hunrolls.empty n] at hparse
  rw [hunrolls.rawEncode (hgrows hn hk)] at hencode
  rw [hunrolls.parses_mergeBy hregular (happrox n) hbytes', hunrolls.empty n]
  exact h n hparse way' mode' bytes' hencode hlt

end MessageCodec

def Part.Rereads : Part → Prop
  | .value codec => codec.Rereads
  | .field codec => codec.Rereads (¬Features.structural.hashed)
  | .messageField fld => fld.tags.Nodup → fld.Rereads (¬Features.structural.hashed)
  | .message codec => codec.Rereads

/-- Whatever of a structural schema is decoded is read back. -/
theorem Structural.rereads {part : Part} (h : Structural part) : part.Rereads := by
  induction h with
  | scalar h => exact fun _ _ allowEmpty depth _ value _ _ _ way mode =>
      h.readsBack way mode allowEmpty depth value
  | packed hcoll hitem ih =>
      intro way mode allowEmpty depth payload items canon hparse _ way' mode'
      obtain ⟨payloads, -, -, hrounds⟩ := hitem.built.cuts.parses_packed.mp hparse
      have hitems := ih.recalls.rounds_of_empty (hcoll.keeps not_false) hcoll.iter_empty
        hrounds
      apply ValueCodec.ReadsBack.packed hitem.built.cuts (hitem.built.writes not_false)
      · exact fun value hvalue => hitems value hvalue way' mode'
      · exact hcoll.rebuilds not_false way' items
  | @map _ _ _ key val coll hcoll hkey hval ihkey ihval =>
      intro way mode allowEmpty depth payload items canon hparse _ way' mode'
      have hseparate := hkey.built.cuts.separate_entry hval.built.cuts
      have hentries := ihkey.recalls.entry hkey.built.cuts ihval.recalls
      have hkeyWrites : ValueCodec.Writes (¬Features.structural.hashed) key :=
        hkey.built.writes not_false
      have hvalWrites : ValueCodec.Writes (¬Features.structural.hashed) val :=
        hval.built.writes not_false
      obtain ⟨payloads, -, -, -, hrounds⟩ := hseparate.parses_packedItems.mp hparse
      have hitems := hentries.rounds_of_empty (hcoll.keeps not_false) hcoll.iter_empty
        hrounds
      apply ValueCodec.ReadsBack.packedItems hseparate (hkeyWrites.puts_entry hvalWrites)
      · exact hkeyWrites.length_entry hvalWrites
      · exact fun e he => hitems e he way' mode'
      · exact hcoll.rebuilds not_false way' items
  | packedArray hn hitem ih =>
      intro way mode allowEmpty depth payload arr canon hparse _ way' mode'
      have hwrites : ValueCodec.Writes _ _ := hitem.built.writes not_false
      obtain ⟨payloads, -, -, hfills⟩ := hitem.built.cuts.parses_packedArray.mp hparse
      apply ValueCodec.ReadsBack.packedArray hitem.built.cuts hwrites.toPuts
      exact fun value hvalue => ih.recalls.fills hfills value hvalue way' mode'
  | nested hcodec ih =>
      apply ih.embedded rfl MessageCodec.contents_of_nested
      intro way mode allowEmpty depth m hback hempty
      apply hback.nested (hcodec.built.writes not_false)
      exact hempty.imp_right fun hne hencode => hne (hcodec.eq_empty_of_rawEncode hencode)
  | tupled hcodec ih =>
      apply ih.embedded rfl MessageCodec.contents_of_tupled
      intro way mode allowEmpty depth m hback hempty
      apply hback.tupled (hcodec.built.writes not_false)
      exact hempty.imp_right fun hne hencode => hne (hcodec.eq_empty_of_rawEncode hencode)
  | inlined hcodec ih =>
      intro way mode allowEmpty depth payload m canon hparse _ way' mode'
      obtain ⟨content, -, -, hmerge⟩ := MessageCodec.contents_of_inlined hparse
      exact (ih hmerge way' mode').inlined (hcodec.built.writes not_false)
  | plain hstate hempties hcodec ih =>
      intro way mode depth wireType bytes rest x hparse way' mode'
      rw [ValueCodec.plain_decodeBy] at hparse
      obtain ⟨decoded, mid, hfield, hrefuse⟩ := parses_bind.mp hparse
      obtain ⟨rfl, -⟩ := Way.parses_refuseEmpty.mp hrefuse
      obtain ⟨-, hvalue⟩ := ValueCodec.parses_decodeFieldBy.mp hfield
      obtain ⟨payload, -, hpayload⟩ :=
        (hcodec.built.cuts.isLocal way mode false depth _).iff.mp hvalue
      have hiff := hcodec.isEmpty_iff hempties decoded.1
      apply ValueCodec.ReadsBack.plain hcodec.built.cuts (hcodec.built.writes not_false) hiff.mp
      intro hisEmpty
      apply ih hpayload (.inr fun heq => ?_) way' mode'
      rw [hiff.mpr heq] at hisEmpty
      cases hisEmpty
  | optional hcodec ih =>
      intro way mode depth wireType bytes rest x hparse way' mode'
      rw [ValueCodec.optional_decodeBy] at hparse
      obtain ⟨decoded, mid, hfield, hdone⟩ := parses_bind.mp hparse
      obtain ⟨rfl, -⟩ := parses_done.mp hdone
      obtain ⟨-, hvalue⟩ := ValueCodec.parses_decodeFieldBy.mp hfield
      obtain ⟨payload, -, hpayload⟩ :=
        (hcodec.built.cuts.isLocal way mode true depth _).iff.mp hvalue
      apply ValueCodec.ReadsBack.optional hcodec.built.cuts (hcodec.built.writes not_false)
      intro v hv
      obtain rfl : decoded.1 = v := Option.some.inj hv
      exact ih hpayload (.inl rfl) way' mode'
  | unpackedField hcoll hitem ih =>
      intro way mode depth wireType bytes rest x hparse way' mode'
      obtain ⟨way'', payloads, canon, hrounds⟩ := hitem.built.cuts.rounds_of_unpackedField hparse
      have hitems := ih.recalls.rounds_of_empty (hcoll.keeps not_false) hcoll.iter_empty
        hrounds
      apply ValueCodec.ReadsBack.unpackedField hitem.built.cuts (hitem.built.writes not_false)
        hcoll hcoll.reversed_iter
      · exact fun value hvalue => hitems value hvalue way' mode'
      · exact hcoll.rebuilds not_false way' x.1
  | packedField hcoll hitem ih =>
      intro way mode depth wireType bytes rest x hparse way' mode'
      have hwrites : ValueCodec.Writes _ _ := hitem.built.writes not_false
      obtain ⟨way'', payloads, canon, hrounds⟩ := hitem.built.cuts.rounds_of_packedField hparse
      have hitems := ih.recalls.rounds_of_empty (hcoll.keeps not_false) hcoll.iter_empty
        hrounds
      apply ValueCodec.ReadsBack.packedField (ValueCodec.writes_packedItems hwrites.toPuts
        hcoll.reversed_iter)
      · exact (hcoll.isEmpty x.1).mp
      · apply ValueCodec.ReadsBack.packed hitem.built.cuts hwrites
        · exact fun value hvalue => hitems value hvalue way' mode'
        · exact hcoll.rebuilds not_false way' x.1
  | @unpackedArrayField _ _ _ n hn hstate hempties hitem ih =>
      intro way mode depth wireType bytes rest x hparse way' mode'
      obtain ⟨n, rfl⟩ := Nat.exists_eq_succ_of_ne_zero hn.ne'
      rw [ValueCodec.unpackedArrayField_decodeBy] at hparse
      obtain ⟨decoded, mid, heither, hrefuse⟩ := parses_bind.mp hparse
      obtain ⟨rfl, -⟩ := Way.parses_refuseEmpty.mp hrefuse
      obtain ⟨way'', payloads, canon, hfills⟩ := hitem.built.cuts.fills_of_eitherRepr heither
      apply ValueCodec.ReadsBack.unpackedArrayField hitem.built.cuts
        (hitem.built.writes not_false)
      · exact hempties.array_eq (hitem.built.discerns not_false false)
      · exact fun value hvalue => ih.recalls.fills hfills value hvalue way' mode'
  | @packedArrayField _ _ _ n hn hstate hempties hitem ih =>
      intro way mode depth wireType bytes rest x hparse way' mode'
      obtain ⟨n, rfl⟩ := Nat.exists_eq_succ_of_ne_zero hn.ne'
      have hwrites : ValueCodec.Writes _ _ := hitem.built.writes not_false
      obtain ⟨way'', payloads, canon, hfills⟩ := hitem.built.cuts.fills_of_packedArrayField hparse
      apply ValueCodec.ReadsBack.packedArrayField (hwrites.packedArray _)
      · exact hempties.array_eq (hitem.built.discerns not_false false)
      · apply ValueCodec.ReadsBack.packedArray hitem.built.cuts hwrites.toPuts
        exact fun value hvalue => ih.recalls.fills hfills value hvalue way' mode'
  | @unpackedArrayOptionField _ _ n hn hitem ih =>
      intro way mode depth wireType bytes rest x hparse way' mode'
      obtain ⟨n, rfl⟩ := Nat.exists_eq_succ_of_ne_zero hn.ne'
      rw [ValueCodec.unpackedArrayOptionField_decodeBy] at hparse
      obtain ⟨decoded, mid, heither, hdone⟩ := parses_bind.mp hparse
      obtain ⟨rfl, -⟩ := parses_done.mp hdone
      obtain ⟨way'', payloads, canon, hfills⟩ := hitem.built.cuts.fills_of_eitherRepr heither
      apply ValueCodec.ReadsBack.unpackedArrayOptionField hitem.built.cuts
        (hitem.built.writes not_false)
      intro arr harr value hvalue
      obtain rfl : decoded.1 = arr := Option.some.inj harr
      exact ih.recalls.fills hfills value hvalue way' mode'
  | tagged tag _ ih =>
      intro _ way mode depth tag' wireType dup bytes rest x _ hparse way' mode'
      exact (ih (FieldCodec.parses_tagged hparse).2 way' mode').tagged tag
  | @oneof _ oneof hvariants ih =>
      intro hnodup way mode depth tag wireType dup bytes rest x _ hparse way' mode'
      have hcuts (i : Fin oneof.count) : (oneof.codec i).Cuts := (hvariants i).built.cuts
      obtain ⟨-, i, payload, v, -, -, -, hview, hpayload⟩ := Oneof.parses_field hcuts hparse
      apply Oneof.readsBack hnodup hcuts fun i => (hvariants i).built.writes not_false
      intro v' hv'
      obtain rfl : ⟨i, v⟩ = v' := Option.some.inj (hview.symm.trans hv')
      exact ih i hpayload (.inl rfl) way' mode'
  | @fields _ F w hsound hw hignored hfields ih =>
      intro way mode depth bytes x hparse way' mode'
      have hregular := (Structural.fields hsound hw hignored hfields).built.regular
      obtain ⟨-, records, last, lastTag, hreading⟩ := hregular.parses_mergeBy.mp hparse
      apply Built.readsBack_message (show ¬Features.structural.emptyArrays from not_false) hsound hw
      · exact fun i => (hfields i).built
      · exact hignored.elim _ _
      · intro i
        rcases Fields.decodesField_of_reading hsound (fun i => (hfields i).built.fresh) hreading
          (Fields.behind_empty (w := w)) i with hsame | ⟨tag, wireType, dup, bytes, canon, rest,
            htag, hfield⟩
        · have hget : F.get x.1 i = (F.field i).empty := hsame.trans (Fields.get_empty w i)
          rw [hget]
          exact MessageField.readsBack_empty ((hfields i).built.shows not_false)
            ((hfields i).built.writes not_false) way' mode' depth
        · exact ih i (hsound.nodup i) htag hfield way' mode'
  | recursive approx hsame hwithin happrox ih =>
      exact MessageCodec.rereads_of_sameTo hsame hwithin ih
  | unrolled approx within hunrolls hgrows happrox ih =>
      apply MessageCodec.rereads_of_unrolls hunrolls hgrows
      · exact (Structural.unrolled approx within hunrolls hgrows happrox).built.regular
      · exact fun n => (happrox n).built.regular
      · exact ih

end Bilrost
