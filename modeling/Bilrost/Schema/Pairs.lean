import Bilrost.Codec.DateTimes
import Bilrost.Schema.DecodedOnce
import Bilrost.Schema.Sheds
import Bilrost.Schema.Walks
import Bilrost.Schema.WritesLike

/-!
Tuples with their indices as tags, and values that are encoded as another type.
Pairs of items that are written alike are written alike, and a pair takes no
more bytes than its items and their keys.
-/

namespace Bilrost

open Program

/-- A region has one content. -/
theorem regionBytes_inj {content content' : Bytes} (hlt : (regionBytes content).length < 2 ^ 64)
    (h : regionBytes content = regionBytes content') : content = content' := by
  have hparse {content : Bytes} (hlt : (regionBytes content).length < 2 ^ 64) :
      Op.decodeVarint.parse (regionBytes content) = some (content.length, content) := by
    rw [regionBytes, List.length_append] at hlt
    exact parses_decodeVarint.mpr ⟨by omega, rfl⟩
  have hsame := hparse hlt
  rw [h, hparse (h ▸ hlt), Option.some.injEq, Prod.mk.injEq] at hsame
  exact hsame.2.symm

/-- Where a message is decoded from what it is written as, a field that is written
as the first record, and as no other, is decoded from that record. -/
theorem Fields.parses_first {allowed : Features} (harrays : ¬allowed.emptyArrays) {M : Type}
    {F : Fields M} {w : F.Writing} {i : F.Index} {m : M} {r : Record} {records : List Record}
    {way : Way} {mode : DecodingMode} {depth : Nat} {x : M × Canonicity}
    (hbuilt : Built allowed (.message (F.message w))) (hfield : F.fieldOf r.tag = some i)
    (hwritten : (F.message w).Written (¬allowed.hashed) m (r :: records))
    (hothers : ∀ r' ∈ records, r'.tag ≠ r.tag)
    (hlt : (wireRecords 0 (r :: records)).length < 2 ^ 64)
    (hparse : ((F.message w).mergeBy way mode depth (F.message w).empty).Parses
      (wireRecords 0 (r :: records)) x []) :
    ∃ decoded, ((F.field i).decodeBy way mode depth r.tag r.wireType false
      (F.field i).empty).Parses r.payload decoded [] := by
  have hfits : Fits 0 (r :: records) := ⟨hwritten.ascending, hwritten.tag_lt, fun r' hr' =>
    hwritten.complete r' hr' fun _ => (length_payload_le 0 r' hr').trans_lt hlt⟩
  obtain ⟨run, rest, decoded, own, heq, hrun, hdecode, -, -⟩ :=
    hbuilt.regular.exists_of_walks_cons (hbuilt.reaches harrays r.tag r.wireType) hfits hparse
  obtain rfl : run = [] := by
    cases run with
    | nil => rfl
    | cons r' run =>
        have hmem : r' ∈ records := heq ▸ List.mem_cons_self
        exact absurd (hrun r' List.mem_cons_self).1 (hothers r' hmem)
  have hnothing := hdecode [] fun _ => by rintro key ⟨⟩
  rw [wireRecords, List.append_nil, List.append_nil] at hnothing
  obtain ⟨decoded', hdecoded, -⟩ := (parses_fieldBy hfield).mp hnothing
  rw [get_empty] at hdecoded
  exact ⟨decoded', hdecoded⟩

section
variable {A B T : Type} {first : FieldCodec A} {second : FieldCodec B} {item : FieldCodec T}

theorem itemField_tags (i : Fin 2) : (itemField first second i).tags = [i.val] := by
  fin_cases i <;> rfl

theorem sound_pair : (pairFields first second).Sound :=
  Fields.sound_of_tags (F := pairFields first second) 0 itemField_tags (by decide : 2 + 0 ≤ 2 ^ 32)

theorem standard_pair : ((pairFields first second).listed .trivial).Standard :=
  Fields.listed_of_tags (F := pairFields first second) itemField_tags (by decide : 2 ≤ 32)

theorem built_pair {allowed : Features} (hfirst : Built allowed (.field first))
    (hsecond : Built allowed (.field second)) : Built allowed (.message (pair first second)) := by
  refine .fields sound_pair standard_pair (.inr (inferInstanceAs (Subsingleton Unit))) fun i => ?_
  fin_cases i
  · exact .tagged 0 hfirst
  · exact .tagged 1 hsecond

/-- A pair is read back if its items are. -/
theorem readsBack_pair {allowed : Features} (harrays : ¬allowed.emptyArrays)
    (hfirst : Built allowed (.field first)) (hsecond : Built allowed (.field second)) {way : Way}
    {mode : DecodingMode} {depth : Nat} {items : A × B}
    (hback : first.ReadsBack (¬allowed.hashed) way mode depth items.1)
    (hback' : second.ReadsBack (¬allowed.hashed) way mode depth items.2) :
    (pair first second).ReadsBack way mode depth items := by
  apply Built.readsBack_message harrays sound_pair standard_pair
  · intro i
    fin_cases i
    · exact .tagged 0 hfirst
    · exact .tagged 1 hsecond
  · rfl
  · intro i
    fin_cases i
    · exact hback.tagged 0
    · exact hback'.tagged 1

/-- Where a pair is decoded from what it is written as, the first of its items is
decoded from what that is written as. -/
theorem parses_first_of_pair {allowed : Features} (harrays : ¬allowed.emptyArrays)
    (hfirst : Built allowed (.field first)) (hsecond : Built allowed (.field second)) {way : Way}
    {mode : DecodingMode} {depth : Nat} {items : A × B} {wireType : WireType}
    {payload content : Bytes} {x : (A × B) × Canonicity}
    (hwritten : first.Written (¬allowed.hashed) items.1 wireType [payload])
    (hencode : (pair first second).rawEncode items = some content) (hlt : content.length < 2 ^ 64)
    (hparse : ((pair first second).mergeBy way mode depth (pair first second).empty).Parses content
      x []) :
    ∃ decoded, (first.decodeBy way mode depth wireType first.forOverwrite).Parses payload decoded
      [] := by
  have hwrites : first.Writes (¬allowed.hashed) := hfirst.writes harrays
  have hwrites' : second.Writes (¬allowed.hashed) := hsecond.writes harrays
  obtain ⟨wireType', payloads, hwritten'⟩ := hwrites' items.2
  let emit : Fin 2 → List Record := ![[⟨0, wireType, payload⟩], payloads.map (Record.mk 1 wireType')]
  have hemit (i : Fin 2) : (itemField first second i).Written (¬allowed.hashed)
      ((pairFields first second).get items i) (emit i) := by
    fin_cases i
    · exact hwritten.tagged 0
    · exact hwritten'.tagged 1
  have hpair : (pair first second).Written (¬allowed.hashed) items
      (⟨0, wireType, payload⟩ :: payloads.map (Record.mk 1 wireType')) := by
    have hrecords := Fields.written (F := pairFields first second) sound_pair standard_pair
      (fun i => by
        fin_cases i
        · exact hwrites.tagged 0
        · exact hwrites'.tagged 1) hemit
    have hall : (List.finRange 2).flatMap emit =
        ⟨0, wireType, payload⟩ :: payloads.map (Record.mk 1 wireType') := by
      simp [emit, List.finRange_succ]
    exact hall ▸ hrecords
  obtain rfl := Option.some.inj (hpair.encode.symm.trans hencode)
  have hothers : ∀ r ∈ payloads.map (Record.mk 1 wireType'), r.tag ≠ 0 := by
    intro r hr
    obtain ⟨p, -, rfl⟩ := List.mem_map.mp hr
    exact Nat.one_ne_zero
  obtain ⟨decoded, hdecoded⟩ := Fields.parses_first (i := (0 : Fin 2)) harrays
    (built_pair hfirst hsecond) rfl hpair hothers hlt hparse
  exact ⟨_, (FieldCodec.parses_tagged hdecoded).2⟩

theorem structural_pair (hfirst : Structural (.field first)) (hsecond : Structural (.field second)) :
    Structural (.message (pair first second)) := by
  refine .fields sound_pair standard_pair (inferInstanceAs (Subsingleton Unit)) fun i => ?_
  fin_cases i
  · exact .tagged 0 hfirst
  · exact .tagged 1 hsecond

theorem sound_triple : (tripleFields item).Sound :=
  Fields.sound_of_tags 0 (fun _ => rfl) (by decide : 3 + 0 ≤ 2 ^ 32)

theorem standard_triple : ((tripleFields item).listed .trivial).Standard :=
  Fields.listed_of_tags (fun _ => rfl) (by decide : 3 ≤ 32)

theorem built_triple {allowed : Features} (hitem : Built allowed (.field item)) :
    Built allowed (.message (triple item)) :=
  .fields sound_triple standard_triple (.inr (inferInstanceAs (Subsingleton Unit))) fun i =>
    .tagged i.val hitem

theorem structural_triple (hitem : Structural (.field item)) :
    Structural (.message (triple item)) :=
  .fields sound_triple standard_triple (inferInstanceAs (Subsingleton Unit)) fun i =>
    .tagged i.val hitem

end

/-- Types that are encoded as another type, and nothing else that is special. -/
def Features.proxied : Features := ⟨False, True, False, False⟩

/-- A value is read back if its proxy is, and is what that stands for. -/
theorem ValueCodec.ReadsBack.proxied {T P : Type} {codec : ValueCodec P} {proxy : Proxy T P}
    {forOverwrite : T} {emptyState : Option (EmptyState T)} {way : Way} {mode : DecodingMode}
    {allowEmpty : Bool} {depth : Nat} {value : T} (hproxy : proxy.Lawful)
    (hback : proxy.decodeProxyDistinguished (proxy.encodeProxy value) = .ok (value, .canonical))
    (h : codec.ReadsBack way mode allowEmpty depth (proxy.encodeProxy value)) :
    (codec.proxied proxy forOverwrite emptyState).ReadsBack way mode allowEmpty depth value := by
  intro payload hencode hlt
  rw [proxied_decodeBy]
  refine parses_bind.mpr ⟨(proxy.encodeProxy value, .canonical), [], h payload hencode hlt, ?_⟩
  cases way with
  | relaxed =>
      refine parses_asCanonical.mpr ⟨parses_ofResult.mpr ⟨?_, rfl⟩, rfl⟩
      rw [← hproxy.distinguished, hback]
      rfl
  | distinguished =>
      exact parses_bind.mpr ⟨_, [], parses_ofResult.mpr ⟨hback, rfl⟩, by simp⟩

section
variable {M M' : Type} {F : Fields M} {F' : Fields M'} {m : M} {m' : M'} {is : List F.Index}
  {is' : List F'.Index}

/-- One after the other, fields that are written alike are written alike. -/
theorem Fields.encodeIn_congr (h : List.Forall₂ (fun i i' =>
      (F.field i).WritesLike (F.get m i) (F'.field i') (F'.get m' i')) is is') (tw : TagWriter) :
    F'.encodeIn m' is' tw = F.encodeIn m is tw := by
  induction h generalizing tw with
  | nil => rfl
  | cons hfield _ ih => simp only [encodeIn, hfield.encode, ih]

theorem Fields.encodedLenIn_congr (h : List.Forall₂ (fun i i' =>
      (F.field i).WritesLike (F.get m i) (F'.field i') (F'.get m' i')) is is') (tm : TagMeasurer) :
    F'.encodedLenIn m' is' tm = F.encodedLenIn m is tm := by
  induction h generalizing tm with
  | nil => rfl
  | cons hfield _ ih => simp only [encodedLenIn, hfield.encodedLen, ih]

end

section
variable {A B A' B' : Type} {first : FieldCodec A} {second : FieldCodec B} {first' : FieldCodec A'}
  {second' : FieldCodec B'} {items : A × B} {items' : A' × B'}

/-- Pairs are written alike if their items are. -/
theorem writesLike_pair (hfirst : first.WritesLike items.1 first' items'.1)
    (hsecond : second.WritesLike items.2 second' items'.2) :
    (pair first second).WritesLike items (pair first' second') items' := by
  have hfields : List.Forall₂ (fun i i' : Fin 2 => (itemField first second i).WritesLike
      ((pairFields first second).get items i) (itemField first' second' i')
        ((pairFields first' second').get items' i')) (List.finRange 2) (List.finRange 2) := by
    refine List.forall₂_same.mpr fun i _ => ?_
    fin_cases i
    · exact hfirst.tagged 0
    · exact hsecond.tagged 1
  have hencode : (pairFields first' second').encodeIn items' (List.finRange 2) TagWriter.new =
      (pairFields first second).encodeIn items (List.finRange 2) TagWriter.new :=
    Fields.encodeIn_congr hfields _
  have hlen : (pairFields first' second').encodedLenIn items' (List.finRange 2) .trivial =
      (pairFields first second).encodedLenIn items (List.finRange 2) .trivial :=
    Fields.encodedLenIn_congr hfields _
  constructor
  · exact congrArg (Option.bind · fun x => some x.1) hencode
  · exact congrArg (Option.bind · fun x => some x.1) hlen

end

theorem wireRecords_length_le_mul {last n : Nat} {records : List Record}
    (h : ∀ r ∈ records, r.payload.length ≤ n) :
    (wireRecords last records).length ≤ records.length * (9 + n) := by
  induction records generalizing last with
  | nil => exact Nat.zero_le _
  | cons r records ih =>
      obtain ⟨hr, hrecords⟩ := List.forall_mem_cons.mp h
      have hrest : (wireRecords r.tag records).length ≤ _ := ih hrecords
      have hkey : (keyBytes (r.tag - last) r.wireType).length ≤ 9 := varint_length_le _
      rw [wireRecords, List.length_append, List.length_append, List.length_cons, Nat.succ_mul]
      omega

/-- A value takes no more bytes than these. -/
def ValueCodec.AtMost {T : Type} (codec : ValueCodec T) (value : T) (n : Nat) : Prop :=
  ∀ bytes, codec.encodeValue value = some bytes → bytes.length ≤ n

/-- A field takes no more than one record with so many bytes. -/
def MessageField.AtMost {T : Type} (ordered : Prop) (field : MessageField T) (value : T) (n : Nat) :
    Prop :=
  ∃ records, field.Written ordered value records ∧ records.length ≤ 1 ∧
    ∀ r ∈ records, r.payload.length ≤ n

theorem ValueCodec.AtMost.plain {T : Type} {ordered : Prop} {codec : ValueCodec T}
    {state : EmptyState T} {value : T} {n : Nat} (h : codec.AtMost value n)
    (hwrites : codec.Writes ordered) (tag : Nat) :
    ((codec.plain state).tagged tag).AtMost ordered value n := by
  obtain ⟨payload, hpayload⟩ := hwrites.encode value
  refine ⟨_, ((guards_plain codec state).written hwrites hpayload).tagged tag, ?_, ?_⟩
  · split_ifs <;> simp
  · split_ifs
    · simp
    · simpa using h payload hpayload

theorem Fields.atMost {M : Type} {ordered : Prop} {F : Fields M} {w : F.Writing} {m : M} {n : Nat}
    (hsound : F.Sound) (hw : w.Standard) (hforward : (w.forward m).length ≤ F.count)
    (hwrites : ∀ i, (F.field i).Writes ordered)
    (h : ∀ i, (F.field i).AtMost ordered (F.get m i) n) :
    (F.message w).tupled.AtMost m (9 + F.count * (9 + n)) := by
  intro bytes hencode
  choose emit hemit hone hpayload using h
  have hwritten := written hsound hw hwrites hemit
  obtain ⟨content, hcontent, rfl⟩ := encodeDelimited_eq_some (fun bytes hbytes => by
    obtain rfl := Option.some.inj (hwritten.encode.symm.trans hbytes)
    exact hwritten.encodedLen) hencode
  obtain rfl := Option.some.inj (hwritten.encode.symm.trans hcontent)
  have hrecords : (wireRecords 0 ((w.forward m).flatMap emit)).length ≤ _ :=
    wireRecords_length_le_mul fun r hr => by
      obtain ⟨i, -, hi⟩ := List.mem_flatMap.mp hr
      exact hpayload i r hi
  have hcount : ((w.forward m).flatMap emit).length ≤ F.count := by
    rw [List.length_flatMap]
    refine le_trans (List.sum_le_card_nsmul _ 1 fun x hx => ?_) ?_
    · obtain ⟨i, -, rfl⟩ := List.mem_map.mp hx
      exact hone i
    · simpa using hforward
  have hlen := varint_length_le (wireRecords 0 ((w.forward m).flatMap emit)).length
  have hmul := Nat.mul_le_mul_right (9 + n) hcount
  rw [List.length_append]
  omega

theorem ValueCodec.AtMost.pair {A B : Type} {ordered : Prop} {first : ValueCodec A}
    {second : ValueCodec B} {state : EmptyState A} {state' : EmptyState B} {items : A × B} {n : Nat}
    (hfirst : first.AtMost items.1 n) (hsecond : second.AtMost items.2 n)
    (hwrites : first.Writes ordered) (hwrites' : second.Writes ordered) :
    (Bilrost.pair (first.plain state) (second.plain state')).tupled.AtMost items
      (9 + 2 * (9 + n)) := by
  apply Fields.atMost sound_pair standard_pair le_rfl
  · intro i
    fin_cases i
    · exact ((guards_plain first state).writes hwrites).tagged 0
    · exact ((guards_plain second state').writes hwrites').tagged 1
  · intro i
    fin_cases i
    · exact hfirst.plain hwrites 0
    · exact hsecond.plain hwrites' 1

end Bilrost
