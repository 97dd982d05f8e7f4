import Bilrost.Schema.Basic

/-!
Decoders of values in lockstep: relaxed and distinguished, owned and borrowed,
and with more or less depth of recursion left. `same` is what the values before
and after have in common.
-/

namespace Bilrost

open Program

/-- Two ways to decode that are compared. The first may be the relaxed one, and
it has no more depth left than the second. -/
structure Sides where
  way : Way
  way' : Way
  mode : DecodingMode
  mode' : DecodingMode
  depth : Nat
  depth' : Nat
  ways : way = .relaxed ∨ way = way'
  depths : depth ≤ depth'

namespace Sides

variable (s : Sides)

/-- Programs of the two sides in lockstep, except at the recursion limit when
the first side has less depth left. -/
abbrev Lock {α δ : Type} (R : α → δ → Prop) (p : Program α) (q : Program δ) : Prop :=
  Program.Lock (s.depth < s.depth') R p q

/-- Decoded values that are related, and canonicities that are the same if both
sides decode the same way. -/
def Matches {α δ : Type} (R : α → δ → Prop) (x : α × Canonicity) (y : δ × Canonicity) : Prop :=
  R x.1 y.1 ∧ (s.way = s.way' → x.2 = y.2)

/-- The two sides inside of a message. -/
def inner : Sides where
  way := s.way
  way' := s.way'
  mode := s.mode
  mode' := s.mode'
  depth := s.depth - 1
  depth' := s.depth' - 1
  ways := s.ways
  depths := Nat.sub_le_sub_right s.depths 1

/-- Both sides decoding the relaxed way. -/
def relaxed : Sides :=
  { s with way := .relaxed, way' := .relaxed, ways := .inl rfl }

variable {s}

section
variable {α δ : Type} {R : α → δ → Prop} {p : Program α} {q : Program δ}

theorem lock_asCanonical (h : s.Lock R p q) :
    s.Lock (s.Matches R) (asCanonical p) (asCanonical q) :=
  h.bind fun _ _ hvalue => lock_done ⟨hvalue, fun _ => rfl⟩

/-- Both ways of decoding in a form that is not canonical. -/
theorem lock_demote (h : s.Lock R p q) :
    s.Lock (s.Matches R) (s.way.demote p) (s.way'.demote q) := by
  cases hway : s.way with
  | relaxed =>
    cases hway' : s.way' with
    | relaxed => exact lock_asCanonical h
    | distinguished =>
      refine Lock.check_right _ (h.bind fun x y hvalue => lock_done ⟨hvalue, ?_⟩)
      rw [hway, hway']
      rintro ⟨⟩
  | distinguished =>
    obtain hway' : s.way' = .distinguished := by simpa [hway, eq_comm] using s.ways
    rw [hway']
    exact Lock.check _ _ (h.bind fun x y hvalue => lock_done ⟨hvalue, fun _ => rfl⟩)

/-- Refusing a value that is empty, or is not, on both sides. -/
theorem lock_refuseEmpty {x : α × Canonicity} {y : δ × Canonicity} (h : s.Matches R x y)
    {empty empty' : Bool} (hempty : empty = empty') :
    s.Lock (s.Matches R) (s.way.refuseEmpty empty x) (s.way'.refuseEmpty empty' y) := by
  subst hempty
  cases empty with
  | false =>
    simp only [Way.refuseEmpty_false]
    exact lock_done h
  | true =>
    cases hway : s.way with
    | relaxed =>
      rw [Way.refuseEmpty_relaxed]
      cases hway' : s.way' with
      | relaxed => exact lock_done h
      | distinguished =>
        refine Lock.check_right _ (lock_done ⟨h.1, ?_⟩)
        rw [hway, hway']
        rintro ⟨⟩
    | distinguished =>
      obtain hway' : s.way' = .distinguished := by simpa [hway, eq_comm] using s.ways
      rw [hway']
      exact Lock.check _ _ (lock_done ⟨h.1, fun _ => rfl⟩)

end

end Sides

/-- What `same` means. -/
structure SameLaws {T : Type} (same : Bool → T → T → Prop) : Prop where
  eq (x y : T) : same true x y ↔ x = y
  equiv : Equivalence (same false)

theorem sameLaws_eq (T : Type) : SameLaws fun _ : Bool => (Eq : T → T → Prop) :=
  ⟨fun _ _ => Iff.rfl, eq_equivalence⟩

namespace SameLaws

variable {T : Type} {same : Bool → T → T → Prop}

theorem refl (h : SameLaws same) (b : Bool) (x : T) : same b x x := by
  cases b with
  | true => exact (h.eq x x).mpr rfl
  | false => exact h.equiv.refl x

theorem weaken (h : SameLaws same) {b : Bool} {x y : T} (hxy : same b x y) : same false x y := by
  cases b with
  | true =>
    rw [(h.eq x y).mp hxy]
    exact h.equiv.refl y
  | false => exact hxy

theorem forall₂ (h : SameLaws same) {n : Nat} :
    SameLaws fun b (a a' : List.Vector T n) => List.Forall₂ (same b) a.toList a'.toList where
  eq a a' := by
    have htrue : same true = Eq := funext fun x => funext fun y => propext (h.eq x y)
    rw [htrue, List.forall₂_eq_eq_eq]
    exact List.Vector.toList_injective.eq_iff
  equiv := by
    refine ⟨fun a => List.forall₂_same.mpr fun x _ => h.equiv.refl x, fun hxy => ?_,
      fun {x y z} hxy hyz => ?_⟩
    · exact List.Forall₂.flip (hxy.imp fun _ _ h' => h.equiv.symm h')
    · obtain ⟨hlen, hget⟩ := List.forall₂_iff_get.mp hxy
      obtain ⟨hlen', hget'⟩ := List.forall₂_iff_get.mp hyz
      exact List.forall₂_iff_get.mpr ⟨hlen.trans hlen', fun i hi hi' =>
        h.equiv.trans (hget i hi (hlen ▸ hi)) (hget' i (hlen ▸ hi) hi')⟩

end SameLaws

/-- Decoders of values in lockstep. -/
structure ValueCodec.Locks {T : Type} (codec : ValueCodec T) : Prop where
  same : SameLaws codec.same
  locks (s : Sides) (b allowEmpty : Bool) {v v' : T} (h : codec.same b v v') :
    s.Lock (s.Matches (codec.same b)) (codec.decodeBy s.way s.mode allowEmpty s.depth v)
      (codec.decodeBy s.way' s.mode' allowEmpty s.depth' v')

/-- Inserting an item in a collection does the same in both ways. -/
def Collection.Agrees {C T : Type} (coll : Collection C T) : Prop :=
  ∀ items item, (coll.insertDistinguished items item).map Prod.fst = coll.insert items item

section
variable {s : Sides} {C T K V : Type}

/-- Reading delimited bytes does nothing that is noted. -/
theorem DelimitedRead.not_passes (reads : DelimitedRead) (note : Note) (slice : Capped Bytes) :
    ¬ reads.bytes.Passes note slice := by
  have hread {o : Op Bytes} (h : o.notes = []) (capped : Capped Bytes) :
      ¬ (Program.read o).Passes note capped := by
    rw [Program.read, passes_op]
    simp [h]
  have hregion {o : Op Bytes} (h : o.notes = []) :
      ¬ (Program.delimited fun _ => Program.read o).Passes note slice := by
    rw [Program.delimited]
    cases htake : slice.takeLengthDelimited with
    | error kind => exact not_passes_region htake
    | ok delimited =>
      rw [passes_region htake]
      simp [hread h]
  cases reads with
  | copied => exact hregion rfl
  | smolStr => exact hregion rfl
  | borrowed => exact hread rfl slice

/-- However delimited bytes are read, they are the same. -/
theorem DelimitedRead.lock_bytes (reads reads' : DelimitedRead) :
    s.Lock Eq reads.bytes reads'.bytes := by
  intro slice
  refine .inr ⟨?_, fun hpasses => absurd hpasses (reads'.not_passes _ slice)⟩
  rw [DelimitedRead.run_slice, DelimitedRead.run_slice]
  cases slice.takeBorrowedLengthDelimited with
  | ok taken => exact ⟨rfl, rfl⟩
  | error kind => exact rfl

/-- Scalars are decoded in the same way from owned and from borrowed data. -/
theorem Scalar.Standard.lock {scalar : Scalar T} (h : scalar.Standard) :
    s.Lock Eq (scalar.decode s.mode) (scalar.decode s.mode') := by
  cases h with
  | varint => exact lock_refl (fun _ => rfl) _
  | fixed => exact lock_refl (fun _ => rfl) _
  | plainArray => exact lock_refl (fun _ => rfl) _
  | @delimited _ strings =>
    refine (DelimitedRead.lock_bytes (strings.reads s.mode) _).bind fun bytes bytes' hvalue => ?_
    rw [hvalue]
    exact lock_refl (fun _ => rfl) _

theorem Scalar.Standard.locks {scalar : Scalar T} (h : scalar.Standard) :
    scalar.codec.Locks where
  same := sameLaws_eq T
  locks s b allowEmpty v v' _ := by
    rw [Scalar.decodeBy_eq, Scalar.decodeBy_eq]
    exact Sides.lock_asCanonical h.lock

theorem Collection.Agrees.lock_insertBy {coll : Collection C T} (h : coll.Agrees) (items : C)
    (item : T) :
    s.Lock (s.Matches Eq) (coll.insertBy s.way items item) (coll.insertBy s.way' items item) := by
  rcases s.ways with hway | hway
  · cases hway' : s.way' with
    | relaxed =>
      rw [hway]
      exact lock_refl (fun _ => ⟨rfl, fun _ => rfl⟩) _
    | distinguished =>
      rw [hway, Collection.insertBy, Collection.insertBy, ← h, Collection.insertChecked]
      cases coll.insertDistinguished items item with
      | error kind => exact lock_error _ kind
      | ok inserted =>
        refine Lock.check_right _ (lock_done ⟨rfl, ?_⟩)
        rw [hway, hway']
        rintro ⟨⟩
  · rw [hway]
    exact lock_refl (fun _ => ⟨rfl, fun _ => rfl⟩) _

theorem Collection.agrees_trivially {coll : Collection C T} {insert : C → T → _}
    (h : coll.insert = insert) (h' : coll.insertDistinguished = trivially insert) :
    coll.Agrees := by
  intro items item
  rw [h, h', trivially]
  cases insert items item <;> rfl

theorem Collection.agrees_btreeMap (K V : Type) [LinearOrder K] : (btreeMap K V).Agrees := by
  intro map entry
  have hinsert (h : ∀ last ∈ map.last, last.1 < entry.1) :
      (btreeMap K V).insert map entry = .ok (map.insert entry.1 entry.2) := by
    simp only [btreeMap, btreeMap.insertNew, SortedMap.contains_eq_false h, Bool.false_eq_true,
      ↓reduceIte]
  cases hlast : map.last with
  | none =>
    rw [hinsert (by simp [hlast])]
    simp only [btreeMap, hlast, Except.map]
  | some last =>
    cases hcompare : compare entry.1 last.1 with
    | lt =>
      simp only [btreeMap, hlast, hcompare]
      cases btreeMap.insertNew K V map entry <;> rfl
    | eq =>
      have hcontains : map.contains entry.1 = true := by
        rw [compare_eq_iff_eq.mp hcompare]
        exact SortedMap.contains_last hlast
      simp only [btreeMap, btreeMap.insertNew, hlast, hcompare, hcontains, ↓reduceIte, Except.map]
    | gt =>
      rw [hinsert (by simpa [hlast] using compare_gt_iff_gt.mp hcompare)]
      simp only [btreeMap, hlast, hcompare, Except.map]

theorem Collection.Standard.agrees {allowed : Features} {coll : Collection C T}
    (h : coll.Standard allowed) : coll.Agrees := by
  cases h with
  | vec => exact Collection.agrees_trivially rfl rfl
  | arrayVec => exact Collection.agrees_trivially rfl rfl
  | btreeMap K V => exact Collection.agrees_btreeMap K V
  | btreeSet T => exact fun items item => Collection.agrees_btreeMap T Unit items (item, ())
  | hashMap => exact Collection.agrees_trivially rfl rfl
  | hashSet => exact Collection.agrees_trivially rfl rfl

theorem LocalProxy.agrees (T : Type) (n : Nat) (empty : T) :
    (LocalProxy.collection T n empty).Agrees :=
  Collection.agrees_trivially rfl rfl

end

namespace ValueCodec

variable {s : Sides} {C T K V : Type}

section
variable {item : ValueCodec T} (hitem : item.Locks) {coll : Collection C T} (hcoll : coll.Agrees)
include hitem hcoll

theorem lock_decodeItemBy {state state' : C × Canonicity} (h : s.Matches Eq state state') :
    s.Lock (s.Matches Eq) (item.decodeItemBy coll s.way s.mode s.depth state)
      (item.decodeItemBy coll s.way' s.mode' s.depth' state') := by
  have hnew := hitem.locks s true true (hitem.same.refl true item.forOverwrite)
  refine hnew.bind fun x y hvalue => ?_
  rw [h.1, (hitem.same.eq x.1 y.1).mp hvalue.1]
  refine (hcoll.lock_insertBy state'.1 y.1).bind fun z w hinserted => lock_done ⟨hinserted.1, ?_⟩
  intro hway
  simp only [h.2 hway, hvalue.2 hway, hinserted.2 hway]

theorem Locks.packedItems (fixedSize : Option Nat) : (packedItems fixedSize item coll).Locks where
  same := sameLaws_eq C
  locks s b allowEmpty v v' h := by
    refine Lock.of_same ?_ (packedItems_decodeBy ..) (packedItems_decodeBy ..)
    refine Lock.delimited fun len => Lock.region_of ?_ len
    split_ifs
    · exact lock_error _ _
    · exact Lock.whileRemaining (fun state state' h => lock_decodeItemBy hitem hcoll h)
        ⟨h, fun _ => rfl⟩

end

theorem Locks.entry {key : ValueCodec K} {val : ValueCodec V} (hkey : key.Locks)
    (hval : val.Locks) : (key.entry val).Locks where
  same := by
    refine ⟨fun e e' => ?_, ⟨fun e => ?_, fun h => ?_, fun h h' => ?_⟩⟩
    · exact ((hkey.same.eq _ _).and (hval.same.eq _ _)).trans Prod.ext_iff.symm
    · exact ⟨hkey.same.refl false _, hval.same.refl false _⟩
    · exact ⟨hkey.same.equiv.symm h.1, hval.same.equiv.symm h.2⟩
    · exact ⟨hkey.same.equiv.trans h.1 h'.1, hval.same.equiv.trans h.2 h'.2⟩
  locks s b allowEmpty e e' h := by
    rw [entry_decodeBy, entry_decodeBy]
    refine (hkey.locks s b allowEmpty h.1).bind fun x y hx => ?_
    refine (hval.locks s b allowEmpty h.2).bind fun z w hz => lock_done ⟨⟨hx.1, hz.1⟩, ?_⟩
    intro hway
    rw [hx.2 hway, hz.2 hway]

/-- Decoding into each item of two arrays. -/
theorem lock_decodeEach {item : ValueCodec T} {n : Nat} {b : Bool}
    {decode decode' : T → Program (T × Canonicity)}
    (hdecode : ∀ v v', item.same b v v' →
      s.Lock (s.Matches (item.same b)) (decode v) (decode' v')) {arr arr' : List.Vector T n}
    (h : List.Forall₂ (item.same b) arr.toList arr'.toList) :
    s.Lock (s.Matches fun a a' => List.Forall₂ (item.same b) a.toList a'.toList)
      (decodeEachDistinguished decode arr) (decodeEachDistinguished decode' arr') := by
  induction n with
  | zero => exact lock_done ⟨h, fun _ => rfl⟩
  | succ n ih =>
    rw [← arr.cons_head_tail, ← arr'.cons_head_tail, List.Vector.toList_cons,
      List.Vector.toList_cons, List.forall₂_cons] at h
    refine (hdecode _ _ h.1).bind fun x y hx => ?_
    refine (ih h.2).bind fun z w hz => lock_done ⟨?_, ?_⟩
    · simpa only [List.Vector.toList_cons, List.forall₂_cons] using ⟨hx.1, hz.1⟩
    · intro hway
      simp only [hx.2 hway, hz.2 hway]

theorem Locks.packedArray {item : ValueCodec T} (hitem : item.Locks) (n : Nat) :
    (item.packedArray n).Locks where
  same := hitem.same.forall₂
  locks s b allowEmpty v v' h := by
    refine Lock.of_same ?_ (packedArray_decodeBy ..) (packedArray_decodeBy ..)
    refine Lock.delimited fun len => Lock.region_of ?_ len
    split_ifs
    · exact lock_error _ _
    · have hdecode (v v' : T) (h : item.same b v v') :
          s.Lock (s.Matches (item.same b))
            (item.anotherItem.bind fun _ => item.decodeBy s.way s.mode true s.depth v)
            (item.anotherItem.bind fun _ => item.decodeBy s.way' s.mode' true s.depth' v') :=
        (lock_refl (fun _ => rfl) _).bind fun _ _ _ => hitem.locks s b true h
      refine (lock_decodeEach hdecode h).bind fun x y hx => ?_
      exact (lock_refl (R := Eq) (fun _ => rfl) _).bind fun _ _ _ => lock_done hx

theorem Locks.proxied {P : Type} {codec : ValueCodec P} (hcodec : codec.Locks)
    {proxy : Proxy T P} (hproxy : proxy.Lawful) (forOverwrite : T)
    (emptyState : Option (EmptyState T)) :
    (codec.proxied proxy forOverwrite emptyState).Locks where
  same := sameLaws_eq T
  locks s b allowEmpty v v' _ := by
    rw [proxied_decodeBy, proxied_decodeBy]
    refine (hcodec.locks s true allowEmpty (hcodec.same.refl true _)).bind fun x y hx => ?_
    rw [(hcodec.same.eq x.1 y.1).mp hx.1]
    cases hway : s.way with
    | relaxed =>
      cases hway' : s.way' with
      | relaxed => exact Sides.lock_asCanonical (lock_refl (fun _ => rfl) _)
      | distinguished =>
        rw [← hproxy.distinguished]
        cases proxy.decodeProxyDistinguished y.1 with
        | error kind => exact lock_error _ kind
        | ok decoded =>
          refine Lock.check_right _ (lock_done ⟨rfl, ?_⟩)
          rw [hway, hway']
          rintro ⟨⟩
    | distinguished =>
      obtain hway' : s.way' = .distinguished := by simpa [hway, eq_comm] using s.ways
      rw [hway']
      cases proxy.decodeProxyDistinguished y.1 with
      | error kind => exact lock_error _ kind
      | ok decoded =>
        refine Lock.check _ _ (lock_done ⟨rfl, fun _ => ?_⟩)
        rw [hx.2 (hway.trans hway'.symm)]

end ValueCodec

end Bilrost
