import Bilrost.Schema.ValueLocks

/-!
Decoders of fields and messages in lockstep, and with them those of everything
that is built.
-/

namespace Bilrost

open Program

/-- Decoders of fields in lockstep, for a type with an empty state. -/
structure FieldCodec.Locks {T : Type} (codec : FieldCodec T) : Prop where
  same : SameLaws codec.same
  isEmpty (value : T) : codec.emptyState.isEmpty value ↔ codec.same false value codec.forOverwrite
  clear (value : T) : codec.same false (codec.emptyState.clear value) codec.forOverwrite
  locks (s : Sides) (b : Bool) (wireType : WireType) {v v' : T} (h : codec.same b v v') :
    s.Lock (s.Matches (codec.same b)) (codec.decodeBy s.way s.mode s.depth wireType v)
      (codec.decodeBy s.way' s.mode' s.depth' wireType v')

structure MessageField.Locks {T : Type} (field : MessageField T) : Prop where
  same : SameLaws field.same
  isEmpty (value : T) : field.isEmpty value ↔ field.same false value field.empty
  clear (value : T) : field.same false (field.clear value) field.empty
  locks (s : Sides) (b : Bool) (tag : Nat) (wireType : WireType) (duplicated : Bool) {v v' : T}
    (h : field.same b v v') :
    s.Lock (s.Matches (field.same b))
      (field.decodeBy s.way s.mode s.depth tag wireType duplicated v)
      (field.decodeBy s.way' s.mode' s.depth' tag wireType duplicated v')

structure MessageCodec.Locks {M : Type} (codec : MessageCodec M) : Prop where
  same : SameLaws codec.same
  isEmpty (m : M) : codec.isEmpty m ↔ codec.same false m codec.empty
  clear (m : M) : codec.same false (codec.clear m) codec.empty
  locks (s : Sides) (b : Bool) (tag : Nat) (wireType : WireType) (duplicated : Bool) {m m' : M}
    (h : codec.same b m m') :
    s.Lock (s.Matches (codec.same b))
      (codec.fieldBy s.way s.mode s.depth tag wireType duplicated m)
      (codec.fieldBy s.way' s.mode' s.depth' tag wireType duplicated m')

section
variable {s : Sides} {σ τ : Type} {R : σ → τ → Prop}
  {decode : Nat → WireType → Bool → σ → Program σ}
  {decode' : Nat → WireType → Bool → τ → Program τ}

/-- The loop over fields is compared by one field. -/
theorem Sides.lock_fieldsFrom
    (h : ∀ tag wireType dup x y, R x y →
      s.Lock R (decode tag wireType dup x) (decode' tag wireType dup y))
    (last : Nat) (lastTag : Option Nat) {x : σ} {y : τ} (hxy : R x y) :
    s.Lock R (fieldsFrom decode last lastTag x) (fieldsFrom decode' last lastTag y) := by
  let Q (state : TagReader × Option Nat × σ) (state' : TagReader × Option Nat × τ) : Prop :=
    state.1 = state'.1 ∧ state.2.1 = state'.2.1 ∧ R state.2.2 state'.2.2
  have hround (state : TagReader × Option Nat × σ) (state' : TagReader × Option Nat × τ)
      (hq : Q state state') : s.Lock Q (readField decode state) (readField decode' state') := by
    obtain ⟨tr, lastTag, x⟩ := state
    obtain ⟨tr', lastTag', y⟩ := state'
    obtain ⟨rfl, rfl, hxy⟩ := hq
    refine (lock_refl (R := Eq) (fun _ => rfl) _).bind fun key key' hkey => ?_
    subst hkey
    exact (h _ _ _ x y hxy).bind fun _ _ hnew => lock_done ⟨rfl, rfl, hnew⟩
  exact (Lock.whileRemaining hround (s := (⟨last⟩, lastTag, x)) (t := (⟨last⟩, lastTag, y))
    ⟨rfl, rfl, hxy⟩).bind fun _ _ hstate => lock_done hstate.2.2

end

namespace MessageCodec

variable {s : Sides} {M : Type} {codec : MessageCodec M}

theorem Locks.mergeBy (h : codec.Locks) (s : Sides) (b : Bool) {m m' : M}
    (hm : codec.same b m m') :
    s.Lock (s.Matches (codec.same b)) (codec.mergeBy s.way s.mode s.depth m)
      (codec.mergeBy s.way' s.mode' s.depth' m') := by
  refine Sides.lock_fieldsFrom (fun tag wireType dup x y hxy => ?_) 0 none ⟨hm, fun _ => rfl⟩
  refine (h.locks s b tag wireType dup hxy.1).bind fun z w hzw => lock_done ⟨hzw.1, ?_⟩
  intro hway
  simp only [hxy.2 hway, hzw.2 hway]

theorem Locks.contentsBy (h : codec.Locks) (s : Sides) (b : Bool) {note note' : Note}
    (hnote : note' ≠ .skipsEmpty 0) {m m' : M} (hm : codec.same b m m') :
    s.Lock (s.Matches (codec.same b)) (codec.contentsBy note s.way s.mode s.depth m)
      (codec.contentsBy note' s.way' s.mode' s.depth' m') :=
  Lock.note (fun h => absurd h hnote) (h.mergeBy s b hm)

/-- Inside of a message there is as much leniency as outside. -/
theorem Locks.contentsBy_inner (h : codec.Locks) (s : Sides) (hdepth : 0 < s.depth) (b : Bool)
    {note note' : Note} (hnote : note' ≠ .skipsEmpty 0) {m m' : M} (hm : codec.same b m m') :
    s.Lock (s.Matches (codec.same b)) (codec.contentsBy note s.way s.mode (s.depth - 1) m)
      (codec.contentsBy note' s.way' s.mode' (s.depth' - 1) m') := by
  have hinner : s.inner.Lock (s.inner.Matches (codec.same b))
      (codec.contentsBy note s.way s.mode (s.depth - 1) m)
      (codec.contentsBy note' s.way' s.mode' (s.depth' - 1) m') :=
    h.contentsBy s.inner b hnote hm
  have hlenient : (s.inner.depth < s.inner.depth') = (s.depth < s.depth') := by
    have hdepths := s.depths
    simp only [Sides.inner]
    exact propext (by omega)
  rw [Sides.Lock, hlenient] at hinner
  exact hinner

theorem lock_refused {R : M → M → Prop} {m m' : M} (h : R m m') :
    s.Lock (s.Matches R) (refused m) (refused m') :=
  Lock.check _ _ (lock_done ⟨h, fun _ => rfl⟩)

/-- Where there are no bytes, there are no fields. -/
theorem run_mergeBy_end {way : Way} {mode : DecodingMode} {depth : Nat} {slice : Capped Bytes}
    (hover : ¬ slice.Over) (hlen : slice.remainingBeforeCap = 0) (m : M) :
    (codec.mergeBy way mode depth m).run .notCanonical slice = .ok ((m, .canonical), slice) := by
  have hrest : slice.hasRemaining = .ok false := by
    have hcompare : compare slice.remaining slice.extraBytesRemaining = .eq := by
      rw [compare_eq_iff_eq]
      rw [Capped.Over] at hover
      rw [Capped.remainingBeforeCap] at hlen
      omega
    rw [Capped.hasRemaining, hcompare]
  simp only [mergeBy, fieldsFrom, whileRemaining, whileRemainingIn, op_bind, run, Op.run, hrest,
    Except.map, Bool.false_eq_true, ↓reduceIte, done_bind]

end MessageCodec

/-- Two tests of the limit, where the first side has no more depth left. -/
theorem Sides.lock_limitReached {s : Sides} {α δ : Type} {R : α → δ → Prop} {f : Unit → Program α}
    {g : Unit → Program δ} (h : 0 < s.depth → s.Lock R (f ()) (g ())) :
    s.Lock R ((limitReached s.depth).bind f) ((limitReached s.depth').bind g) := by
  have hdepths := s.depths
  have hreached (n : Nat) : limitReached n = .op (.note (.meets n)) fun _ =>
    if n = 0 then error .recursionLimitReached else .done () := rfl
  simp only [hreached, op_bind]
  have hnote : s.Lock R ((if s.depth = 0 then error .recursionLimitReached else .done ()).bind f)
      ((if s.depth' = 0 then error .recursionLimitReached else .done ()).bind g) := by
    rcases Nat.eq_zero_or_pos s.depth with hzero | hpos
    · rw [if_pos hzero]
      rcases Nat.eq_zero_or_pos s.depth' with hzero' | hpos'
      · rw [if_pos hzero']
        exact lock_error R _
      · exact lock_of_limit (by omega) R _
    · rw [if_neg (by omega), if_neg (by omega)]
      exact h hpos
  exact Lock.note (fun h => by cases h) hnote

namespace MessageCodec

variable {s : Sides} {M : Type} {codec : MessageCodec M}

/-- Where only the second side refuses a message without contents, it is enough
that the first one finds none. -/
theorem lockIn_refused {R : M → M → Prop} {m m' : M} (hm : R m m') (hway : s.way = .relaxed)
    (hway' : s.way' = .distinguished) {note : Note} (hnote : note ≠ .skipsEmpty 0)
    {p : Program (M × Canonicity)}
    (hp : ∀ slice : Capped Bytes, ¬ slice.Over → slice.remainingBeforeCap = 0 →
      p.run .notCanonical slice = .ok ((m, .canonical), slice)) :
    LockIn (s.depth < s.depth') (s.Matches R) 0 p (.op (.note note) fun _ => refused m') := by
  intro slice hover hlen
  refine .inr ⟨?_, fun hpasses => absurd hpasses ?_⟩
  · rw [hp slice hover hlen]
    refine ⟨⟨hm, ?_⟩, rfl⟩
    rw [hway, hway']
    rintro ⟨⟩
  · rw [passes_note, refused, passes_check]
    simpa using hnote.symm

/-- Two decoders of contents, each of which may refuse a message without any. -/
theorem lockIn_shortcut {R : M → M → Prop} {m m' : M} (hm : R m m') {note note' : Note}
    (hnote : note' = .skipsEmpty 0 → note = .skipsEmpty 0) {p q : Program (M × Canonicity)}
    (hpq : s.Lock (s.Matches R) p q)
    (hend : s.way = .relaxed → s.way' = .distinguished →
      LockIn (s.depth < s.depth') (s.Matches R) 0 p (.op (.note note') fun _ => refused m'))
    (allowEmpty : Bool) (len : Nat) :
    LockIn (s.depth < s.depth') (s.Matches R) len
      (if s.way.shortcut allowEmpty len then .op (.note note) fun _ => refused m else p)
      (if s.way'.shortcut allowEmpty len then .op (.note note') fun _ => refused m' else q) := by
  have hrefused : s.Lock (s.Matches R) (.op (.note note) fun _ => refused m)
      (.op (.note note') fun _ => refused m') :=
    Lock.note hnote (lock_refused hm)
  cases hway : s.way with
  | distinguished =>
    obtain hway' : s.way' = .distinguished := by simpa [hway, eq_comm] using s.ways
    rw [hway']
    split_ifs
    · exact hrefused.region_of len
    · exact hpq.region_of len
  | relaxed =>
    rw [Way.shortcut_relaxed, if_neg (by decide)]
    cases hway' : s.way' with
    | relaxed =>
      rw [Way.shortcut_relaxed, if_neg (by decide)]
      exact hpq.region_of len
    | distinguished =>
      split_ifs with hshort
      · obtain rfl : len = 0 := by simpa using (Bool.and_eq_true_iff.mp hshort).2
        exact hend hway hway'
      · exact hpq.region_of len

theorem run_contentsBy_end {note : Note} {way : Way} {mode : DecodingMode} {depth : Nat}
    {slice : Capped Bytes} (hover : ¬ slice.Over) (hlen : slice.remainingBeforeCap = 0) (m : M) :
    (codec.contentsBy note way mode depth m).run .notCanonical slice =
      .ok ((m, .canonical), slice) :=
  run_mergeBy_end hover hlen m

theorem Locks.nested (h : codec.Locks) : codec.nested.Locks where
  same := h.same
  locks s b allowEmpty m m' hm := by
    refine Lock.of_same ?_ (codec.nested_decodeBy ..) (codec.nested_decodeBy ..)
    refine Sides.lock_limitReached fun hdepth => Lock.delimited fun len => ?_
    refine lockIn_shortcut hm (fun h => by cases h)
      (h.contentsBy_inner s hdepth b (fun h => by cases h) hm) ?_ _ len
    exact fun hway hway' => lockIn_refused hm hway hway' (fun h => by cases h)
      fun slice hover hlen => run_contentsBy_end hover hlen m

theorem Locks.tupled (h : codec.Locks) : codec.tupled.Locks where
  same := h.same
  locks s b allowEmpty m m' hm := by
    have hdepths := s.depths
    refine Lock.of_same ?_ (codec.tupled_decodeBy ..) (codec.tupled_decodeBy ..)
    refine Lock.delimited fun len => lockIn_shortcut hm ?_ ?_ ?_ _ len
    · intro hnote
      obtain hzero : s.depth' = 0 := by simpa using hnote
      have hzero' : s.depth = 0 := by omega
      rw [hzero']
    · exact Sides.lock_limitReached fun hdepth =>
        h.contentsBy_inner s hdepth b (fun h => by cases h) hm
    · intro hway hway'
      rcases Nat.eq_zero_or_pos s.depth with hzero | hpos
      · -- the first side is at the limit
        rw [hzero]
        refine fun slice hover hlen => .inl ⟨rfl, ?_⟩
        rw [passes_note]
        rcases Nat.eq_zero_or_pos s.depth' with hzero' | hpos'
        · exact .inr (.inl (by rw [hzero']))
        · exact .inl hpos'
      · have hnote : Note.skipsEmpty s.depth' ≠ .skipsEmpty 0 := by
          simpa using (hpos.trans_le hdepths).ne'
        refine lockIn_refused hm hway hway' hnote fun slice hover hlen => ?_
        rw [limitReached, if_neg hpos.ne']
        exact run_contentsBy_end hover hlen m

theorem Locks.inlined (h : codec.Locks) : codec.inlined.Locks where
  same := h.same
  locks s b allowEmpty m m' hm := by
    refine Lock.of_same ?_ (codec.inlined_decodeBy ..) (codec.inlined_decodeBy ..)
    exact Lock.delimited fun len =>
      (h.contentsBy s b (fun h => by cases h) hm).region_of len

end MessageCodec

theorem forall₂_replicate {α δ : Type} {R : α → δ → Prop} {l : List α} {n : Nat}
    (h : l.length = n) (y : δ) : List.Forall₂ R l (List.replicate n y) ↔ ∀ x ∈ l, R x y := by
  subst h
  induction l with
  | nil => simp
  | cons x l ih => simp [List.replicate_succ, ih]

namespace ValueCodec

variable {s : Sides} {C T : Type}

theorem Locks.decodeFieldBy {codec : ValueCodec T} (h : codec.Locks) (b allowEmpty : Bool)
    (wireType : WireType) {v v' : T} (hv : codec.same b v v') :
    s.Lock (s.Matches (codec.same b))
      (codec.decodeFieldBy s.way s.mode allowEmpty s.depth wireType v)
      (codec.decodeFieldBy s.way' s.mode' allowEmpty s.depth' wireType v') :=
  (lock_refl (R := Eq) (fun _ => rfl) _).bind fun _ _ _ => h.locks s b allowEmpty hv

/-- Values that are the same are empty together. -/
theorem Empties.isEmpty_eq {codec : ValueCodec T} {state : EmptyState T} (h : codec.Empties state)
    (hsame : SameLaws codec.same) {b : Bool} {v v' : T} (hv : codec.same b v v') :
    state.isEmpty v = state.isEmpty v' := by
  have hv := hsame.weaken hv
  rw [Bool.eq_iff_iff, h.isEmpty, h.isEmpty]
  exact ⟨hsame.equiv.trans (hsame.equiv.symm hv), hsame.equiv.trans hv⟩

theorem Locks.plain {codec : ValueCodec T} (h : codec.Locks) {state : EmptyState T}
    (hempties : codec.Empties state) : (codec.plain state).Locks where
  same := h.same
  isEmpty := hempties.isEmpty
  clear := hempties.clear
  locks s b wireType v v' hv := by
    rw [plain_decodeBy, plain_decodeBy]
    refine (h.decodeFieldBy b false wireType hv).bind fun x y hxy => ?_
    exact Sides.lock_refuseEmpty hxy (by rw [hempties.isEmpty_eq h.same hxy.1])

theorem Locks.optional {codec : ValueCodec T} (h : codec.Locks) : codec.optional.Locks where
  same := sameLaws_eq _
  isEmpty value := Option.isNone_iff_eq_none
  clear value := rfl
  locks s b wireType v v' hv := by
    obtain rfl : v = v' := hv
    rw [optional_decodeBy, optional_decodeBy]
    refine (h.decodeFieldBy true true wireType (h.same.refl true _)).bind fun x y hxy => ?_
    exact lock_done ⟨congrArg some ((h.same.eq _ _).mp hxy.1), hxy.2⟩

section
variable {item : ValueCodec T} (hitem : item.Locks)
include hitem

theorem Locks.decodeRepeatedBy {coll : Collection C T} (hcoll : coll.Agrees) (wireType : WireType)
    {state state' : C × Canonicity} (h : s.Matches Eq state state') :
    s.Lock (s.Matches Eq) (item.decodeRepeatedBy coll s.way s.mode s.depth wireType state)
      (item.decodeRepeatedBy coll s.way' s.mode' s.depth' wireType state') :=
  (lock_refl (R := Eq) (fun _ => rfl) _).bind fun _ _ _ => lock_decodeItemBy hitem hcoll h

theorem Locks.decodeUnpackedBy {coll : Collection C T} (hcoll : coll.Agrees) (wireType : WireType)
    (items : C) :
    s.Lock (s.Matches Eq) (item.decodeUnpackedBy coll s.way s.mode s.depth wireType items)
      (item.decodeUnpackedBy coll s.way' s.mode' s.depth' wireType items) :=
  (hitem.decodeRepeatedBy hcoll wireType ⟨rfl, fun _ => rfl⟩).bind fun _ _ hstate =>
    Lock.whileRepeated (fun wireType _ _ h => hitem.decodeRepeatedBy hcoll wireType h) hstate

theorem Locks.decodeUnpacked {coll : Collection C T} (hcoll : coll.Agrees) (wireType : WireType)
    (items : C) :
    s.Lock Eq (item.decodeUnpacked coll s.mode s.depth wireType items)
      (item.decodeUnpacked coll s.mode' s.depth' wireType items) := by
  have h := hitem.decodeUnpackedBy (s := s.relaxed) hcoll wireType items
  simp only [Sides.relaxed, decodeUnpackedBy_relaxed] at h
  exact (Lock.of_map _ _ h).mono fun _ _ h => h.1

end

/-- Relaxed decoding of values, without the canonicity. -/
theorem Locks.decodeValue {codec : ValueCodec T} (h : codec.Locks) {b : Bool} {v v' : T}
    (hv : codec.same b v v') :
    s.Lock (codec.same b) (codec.decodeValue s.mode s.depth v)
      (codec.decodeValue s.mode' s.depth' v') :=
  (Lock.of_map _ _ (h.locks s.relaxed b true hv)).mono fun _ _ h => h.1

theorem Locks.packed {item : ValueCodec T} (hitem : item.Locks) {coll : Collection C T}
    (hcoll : coll.Agrees) : (item.packed coll).Locks :=
  hitem.packedItems hcoll _

section
variable {item : ValueCodec T} (hitem : item.Locks) {allowed : Features} {coll : Collection C T}
  (hcoll : coll.Standard allowed)
include hitem hcoll

theorem Locks.unpackedField : (item.unpackedField coll).Locks where
  same := sameLaws_eq C
  isEmpty := hcoll.isEmpty
  clear := hcoll.clear
  locks s b wireType v v' hv := by
    obtain rfl : v = v' := hv
    rw [unpackedField_decodeBy, unpackedField_decodeBy]
    split_ifs
    · exact Sides.lock_demote ((hitem.packed hcoll.agrees).decodeValue (b := b) rfl)
    · exact hitem.decodeUnpackedBy hcoll.agrees wireType v

theorem Locks.packedField : (item.packedField coll).Locks where
  same := sameLaws_eq C
  isEmpty := hcoll.isEmpty
  clear := hcoll.clear
  locks s b wireType v v' hv := by
    obtain rfl : v = v' := hv
    rw [packedField_decodeBy, packedField_decodeBy]
    split_ifs
    · refine ((hitem.packed hcoll.agrees).locks s b false rfl).bind fun x y hxy => ?_
      exact Sides.lock_refuseEmpty hxy (congrArg coll.isEmpty hxy.1)
    · exact Sides.lock_demote (hitem.decodeUnpacked hcoll.agrees wireType v)

end

section
variable {item : ValueCodec T} (hitem : item.Locks) {n : Nat}
include hitem

theorem Locks.decodeArrayFieldsBy {b : Bool} {arr arr' : List.Vector T n}
    (h : List.Forall₂ (item.same b) arr.toList arr'.toList) :
    s.Lock (s.Matches fun a a' => List.Forall₂ (item.same b) a.toList a'.toList)
      (item.decodeArrayFieldsBy s.way s.mode s.depth arr)
      (item.decodeArrayFieldsBy s.way' s.mode' s.depth' arr') := by
  cases n with
  | zero => exact lock_done ⟨h, fun _ => rfl⟩
  | succ n =>
    rw [← arr.cons_head_tail, ← arr'.cons_head_tail, List.Vector.toList_cons,
      List.Vector.toList_cons, List.forall₂_cons] at h
    have hnext (v v' : T) (hv : item.same b v v') :
        s.Lock (s.Matches (item.same b))
          (item.nextField.bind fun _ => item.decodeBy s.way s.mode true s.depth v)
          (item.nextField.bind fun _ => item.decodeBy s.way' s.mode' true s.depth' v') :=
      (lock_refl (R := Eq) (fun _ => rfl) _).bind fun _ _ _ => hitem.locks s b true hv
    refine (hitem.locks s b true h.1).bind fun x y hx => ?_
    refine (lock_decodeEach hnext h.2).bind fun z w hz => lock_done ⟨?_, ?_⟩
    · simpa only [List.Vector.toList_cons, List.forall₂_cons] using ⟨hx.1, hz.1⟩
    · intro hway
      simp only [hx.2 hway, hz.2 hway]

theorem Locks.decodeArrayUnpackedOnlyBy {b : Bool} (wireType : WireType) {arr arr' : List.Vector T n}
    (h : List.Forall₂ (item.same b) arr.toList arr'.toList) :
    s.Lock (s.Matches fun a a' => List.Forall₂ (item.same b) a.toList a'.toList)
      (item.decodeArrayUnpackedOnlyBy s.way s.mode s.depth wireType arr)
      (item.decodeArrayUnpackedOnlyBy s.way' s.mode' s.depth' wireType arr') := by
  refine (lock_refl (R := Eq) (fun _ => rfl) _).bind fun _ _ _ => ?_
  refine (hitem.decodeArrayFieldsBy h).bind fun x y hxy => ?_
  exact (lock_refl (R := Eq) (fun _ => rfl) _).bind fun _ _ _ => lock_done hxy

theorem Locks.decodeArrayUnpackedOnly {b : Bool} (wireType : WireType) {arr arr' : List.Vector T n}
    (h : List.Forall₂ (item.same b) arr.toList arr'.toList) :
    s.Lock (fun a a' => List.Forall₂ (item.same b) a.toList a'.toList)
      (item.decodeArrayUnpackedOnly s.mode s.depth wireType arr)
      (item.decodeArrayUnpackedOnly s.mode' s.depth' wireType arr') := by
  have h := hitem.decodeArrayUnpackedOnlyBy (s := s.relaxed) wireType h
  simp only [Sides.relaxed, decodeArrayUnpackedOnlyBy_relaxed] at h
  exact (Lock.of_map _ _ h).mono fun _ _ h => h.1

theorem Locks.decodeArrayEitherReprBy {b : Bool} (wireType : WireType) {arr arr' : List.Vector T n}
    (h : List.Forall₂ (item.same b) arr.toList arr'.toList) :
    s.Lock (s.Matches fun a a' => List.Forall₂ (item.same b) a.toList a'.toList)
      (item.decodeArrayEitherReprBy s.way s.mode s.depth wireType arr)
      (item.decodeArrayEitherReprBy s.way' s.mode' s.depth' wireType arr') := by
  rw [ValueCodec.decodeArrayEitherReprBy, ValueCodec.decodeArrayEitherReprBy]
  split_ifs
  · exact Sides.lock_demote ((hitem.packedArray n).decodeValue (b := b) h)
  · exact hitem.decodeArrayUnpackedOnlyBy wireType h

omit hitem in
/-- Arrays keep the contract of their items. -/
theorem Empties.array {state : EmptyState T} (h : item.Empties state) (n : Nat) :
    (item.packedArray n).Empties (state.array n) where
  isEmpty arr := by
    change arr.toList.all state.isEmpty ↔
      List.Forall₂ (item.same false) arr.toList (List.Vector.replicate n item.forOverwrite).toList
    rw [List.Vector.replicate, List.Vector.toList_mk, forall₂_replicate arr.toList_length,
      List.all_eq_true]
    exact forall₂_congr fun v _ => h.isEmpty v
  clear arr := by
    change List.Forall₂ (item.same false) (arr.map state.clear).toList
      (List.Vector.replicate n item.forOverwrite).toList
    rw [List.Vector.replicate, List.Vector.toList_mk,
      forall₂_replicate (List.Vector.toList_length _), List.Vector.toList_map]
    intro v hv
    obtain ⟨w, -, rfl⟩ := List.mem_map.mp hv
    exact h.clear w

theorem Locks.unpackedArrayField {state : EmptyState T} (hempties : item.Empties state) :
    (item.unpackedArrayField state n).Locks where
  same := hitem.same.forall₂
  isEmpty := (hempties.array n).isEmpty
  clear := (hempties.array n).clear
  locks s b wireType v v' hv := by
    rw [unpackedArrayField_decodeBy, unpackedArrayField_decodeBy]
    refine (hitem.decodeArrayEitherReprBy wireType hv).bind fun x y hxy => ?_
    exact Sides.lock_refuseEmpty hxy
      ((hempties.array n).isEmpty_eq hitem.same.forall₂ (b := b) hxy.1)

theorem Locks.packedArrayField {state : EmptyState T} (hempties : item.Empties state) :
    (item.packedArrayField state n).Locks where
  same := hitem.same.forall₂
  isEmpty := (hempties.array n).isEmpty
  clear := (hempties.array n).clear
  locks s b wireType v v' hv := by
    rw [packedArrayField_decodeBy, packedArrayField_decodeBy]
    split_ifs
    · refine ((hitem.packedArray n).locks s b false hv).bind fun x y hxy => ?_
      exact Sides.lock_refuseEmpty hxy
        ((hempties.array n).isEmpty_eq hitem.same.forall₂ (b := b) hxy.1)
    · exact Sides.lock_demote (hitem.decodeArrayUnpackedOnly wireType hv)

theorem Locks.unpackedArrayOptionField : (item.unpackedArrayOptionField n).Locks where
  same := sameLaws_eq _
  isEmpty value := Option.isNone_iff_eq_none
  clear value := rfl
  locks s b wireType v v' hv := by
    obtain rfl : v = v' := hv
    have hrefl := (hitem.same.forall₂ (n := n)).refl true
    rw [unpackedArrayOptionField_decodeBy, unpackedArrayOptionField_decodeBy]
    refine (hitem.decodeArrayEitherReprBy wireType (hrefl _)).bind fun x y hxy => ?_
    exact lock_done ⟨congrArg some ((hitem.same.forall₂.eq _ _).mp hxy.1), hxy.2⟩

end

end ValueCodec

end Bilrost
