import Bilrost.Derive.FieldsSorted

/-!
What the generated code of a sort group emits. A group is well formed when its
parts are apart: no tag of another part falls among the tags of a contiguous
run. Then, whichever variants are set, sorting the parts by one tag each puts
all their tags in order, and sorting them downwards gives the same order
backwards.
-/

namespace Bilrost

open Tagged

namespace MessageFieldsSorted

variable {φ : Type} [Tagged φ]

/-- Every tag of one field is below every tag of the other. -/
def Before (f g : φ) : Prop := ∀ s ∈ tags f, ∀ t ∈ tags g, s < t

/-- A tag that is below, or above, all tags of a run of fields. -/
def Outside (t : Nat) (fields : List φ) : Prop :=
  (∀ g ∈ fields, ∀ s ∈ tags g, t < s) ∨ (∀ g ∈ fields, ∀ s ∈ tags g, s < t)

/-- The fields of a contiguous part come before those of every later part. -/
def PrecedesPart (p q : SortGroupPart φ) : Prop :=
  match p with
  | .contiguous fields => ∀ f ∈ fields, ∀ g ∈ q.fields, Before f g
  | .oneofPart _ => True

/-- No tag of an earlier part falls among the tags of a contiguous part. -/
def ClearOf (p q : SortGroupPart φ) : Prop :=
  match q with
  | .contiguous fields => ∀ f ∈ p.fields, ∀ t ∈ tags f, Outside t fields
  | .oneofPart _ => True

/-- Two parts of a group, in this order, that never mix up their tags. -/
structure Apart (p q : SortGroupPart φ) : Prop where
  precedes : PrecedesPart p q
  clear : ClearOf p q
  disjoint : ∀ f ∈ p.fields, ∀ g ∈ q.fields, (tags f).Disjoint (tags g)

/-- A part whose own fields are present and in order. Only a field with more
than one tag, a oneof, can be asked for its current tag. -/
structure PartOk (p : SortGroupPart φ) : Prop where
  nonempty : p.fields ≠ []
  ordered : p.fields.Pairwise Before
  tagged : ∀ f ∈ p.fields, tags f ≠ []
  oneof : ∀ f, p = .oneofPart f → firstTag f < lastTag f

structure GroupOk (parts : List (SortGroupPart φ)) : Prop where
  parts_ok : ∀ p ∈ parts, PartOk p
  apart : parts.Pairwise Apart

/-- The array slot of a part: its key and the fields it emits. -/
def slot (currentTag : φ → Option Nat) : SortGroupPart φ → Option (Nat × List φ)
  | .contiguous fields => some ((fields.head?.map firstTag).getD 0, fields)
  | .oneofPart field => (currentTag field).map fun tag => (tag, [field])

section
variable (currentTag : φ → Option Nat)

/-- The two passes over the parts fill the slots of all parts. -/
theorem slots_perm (parts : List (SortGroupPart φ)) :
    (guaranteedParts .forward parts ++ populateOneofParts currentTag .forward parts).Perm
      (parts.filterMap (slot currentTag)) := by
  simp only [guaranteedParts, populateOneofParts, Direction.align]
  induction parts with
  | nil => exact List.Perm.refl _
  | cons p parts ih =>
    cases p with
    | contiguous fields => simpa [slot] using ih
    | oneofPart field =>
      cases htag : currentTag field with
      | none => simpa [slot, htag] using ih
      | some tag =>
        simp only [List.filterMap_cons, htag, slot, Option.map_some]
        exact List.perm_middle.trans (ih.cons _)

/-- Going through the parts backwards fills the same slots, each with its
fields backwards. -/
theorem slots_reverse_perm (parts : List (SortGroupPart φ)) :
    (guaranteedParts .reverse parts ++ populateOneofParts currentTag .reverse parts).Perm
      ((parts.filterMap (slot currentTag)).map (Prod.map id List.reverse)) := by
  simp only [guaranteedParts, populateOneofParts, Direction.align, List.filterMap_reverse]
  refine (List.Perm.append (List.reverse_perm _) (List.reverse_perm _)).trans ?_
  induction parts with
  | nil => exact List.Perm.refl _
  | cons p parts ih =>
    cases p with
    | contiguous fields => simpa [slot] using ih
    | oneofPart field =>
      cases htag : currentTag field with
      | none => simpa [slot, htag] using ih
      | some tag =>
        simp only [List.filterMap_cons, htag, slot, Option.map_some, List.map_cons]
        exact List.perm_middle.trans (ih.cons _)

/-- Whatever two fields emit, the first one's tag is lower. -/
def EmitsBefore (f g : φ) : Prop := ∀ s ∈ currentTag f, ∀ t ∈ currentTag g, s < t

/-- Two slots in an order that agrees with their keys. -/
def SlotsInOrder (a b : Nat × List φ) : Prop :=
  a.1 < b.1 ∧ ∀ f ∈ a.2, ∀ g ∈ b.2, EmitsBefore currentTag f g

variable {currentTag}

/-- Current tags are tags of the field. -/
def ValidTags (currentTag : φ → Option Nat) (fields : List φ) : Prop :=
  ∀ f ∈ fields, ∀ t ∈ currentTag f, t ∈ tags f

theorem Before.emits {f g : φ} (h : Before f g)
    (hf : ∀ t ∈ currentTag f, t ∈ tags f) (hg : ∀ t ∈ currentTag g, t ∈ tags g) :
    EmitsBefore currentTag f g :=
  fun s hs t ht => h s (hf s hs) t (hg t ht)

/-- The key of a contiguous part is a tag of its first field. -/
theorem slot_contiguous_key {fields : List φ} (h : PartOk (.contiguous fields)) :
    ∃ f ∈ fields, (fields.head?.map firstTag).getD 0 ∈ tags f := by
  obtain ⟨f, rest, rfl⟩ := List.exists_cons_of_ne_nil h.nonempty
  exact ⟨f, by simp, by simpa using firstTag_mem (h.tagged f (by simp [SortGroupPart.fields]))⟩

/-- Slots of parts that are apart are ordered by their keys, one way or the
other. -/
theorem Apart.slots {p q : SortGroupPart φ} (h : Apart p q) (hp : PartOk p) (hq : PartOk q)
    (hpv : ValidTags currentTag p.fields) (hqv : ValidTags currentTag q.fields)
    {a b : Nat × List φ} (ha : a ∈ slot currentTag p) (hb : b ∈ slot currentTag q) :
    SlotsInOrder currentTag a b ∨ SlotsInOrder currentTag b a := by
  cases p with
  | contiguous fs =>
    obtain rfl := Option.mem_some_iff.mp ha
    obtain ⟨f, hf, hkey⟩ := slot_contiguous_key hp
    left
    cases q with
    | contiguous gs =>
      obtain rfl := Option.mem_some_iff.mp hb
      obtain ⟨g, hg, hkey'⟩ := slot_contiguous_key hq
      exact ⟨h.precedes f hf g hg _ hkey _ hkey',
        fun f hf g hg => (h.precedes f hf g hg).emits (hpv f hf) (hqv g hg)⟩
    | oneofPart g =>
      obtain ⟨t, ht, rfl⟩ := Option.map_eq_some_iff.mp hb
      have hg : g ∈ (SortGroupPart.oneofPart g).fields := by simp [SortGroupPart.fields]
      refine ⟨h.precedes f hf g hg _ hkey t (hqv g hg t ht), fun f hf g' hg' => ?_⟩
      obtain rfl := List.mem_singleton.mp hg'
      exact (h.precedes f hf _ hg).emits (hpv f hf) (hqv _ hg)
  | oneofPart f =>
    obtain ⟨s, hs, rfl⟩ := Option.map_eq_some_iff.mp ha
    have hf : f ∈ (SortGroupPart.oneofPart f).fields := by simp [SortGroupPart.fields]
    have hsf := hpv f hf s hs
    cases q with
    | contiguous gs =>
      obtain rfl := Option.mem_some_iff.mp hb
      obtain ⟨g, hg, hkey⟩ := slot_contiguous_key hq
      rcases h.clear f hf s hsf with hlow | hhigh
      · refine .inl ⟨hlow g hg _ hkey, fun f' hf' g hg s' hs' t ht => ?_⟩
        obtain rfl := List.mem_singleton.mp hf'
        obtain rfl : s = s' := Option.some.inj (hs.symm.trans hs')
        exact hlow g hg t (hqv g hg t ht)
      · refine .inr ⟨hhigh g hg _ hkey, fun g hg f' hf' t ht s' hs' => ?_⟩
        obtain rfl := List.mem_singleton.mp hf'
        obtain rfl : s = s' := Option.some.inj (hs.symm.trans hs')
        exact hhigh g hg t (hqv g hg t ht)
    | oneofPart g =>
      obtain ⟨t, ht, rfl⟩ := Option.map_eq_some_iff.mp hb
      have hg : g ∈ (SortGroupPart.oneofPart g).fields := by simp [SortGroupPart.fields]
      have hne : s ≠ t := fun heq => h.disjoint f hf g hg hsf (heq ▸ hqv g hg t ht)
      have single (f g : φ) (s t : Nat) (hs : currentTag f = some s) (ht : currentTag g = some t)
          (hlt : s < t) : SlotsInOrder currentTag (s, [f]) (t, [g]) := by
        refine ⟨hlt, fun f' hf' g' hg' s' hs' t' ht' => ?_⟩
        obtain rfl := List.mem_singleton.mp hf'
        obtain rfl := List.mem_singleton.mp hg'
        obtain rfl : s = s' := Option.some.inj (hs.symm.trans hs')
        obtain rfl : t = t' := Option.some.inj (ht.symm.trans ht')
        exact hlt
      rcases Nat.lt_or_gt_of_ne hne with hlt | hgt
      · exact .inl (single f g s t hs ht hlt)
      · exact .inr (single g f t s ht hs hgt)

/-- All slots of a group are ordered by their keys. -/
theorem GroupOk.slots {parts : List (SortGroupPart φ)} (h : GroupOk parts)
    (hv : ValidTags currentTag (parts.flatMap SortGroupPart.fields)) :
    (parts.filterMap (slot currentTag)).Pairwise fun a b =>
      SlotsInOrder currentTag a b ∨ SlotsInOrder currentTag b a := by
  have hvp : ∀ p ∈ parts, ValidTags currentTag p.fields := fun p hp f hf =>
    hv f (List.mem_flatMap.mpr ⟨p, hp, hf⟩)
  rw [List.pairwise_filterMap]
  refine h.apart.imp_of_mem fun hp hq hpq a ha b hb => ?_
  exact hpq.slots (h.parts_ok _ hp) (h.parts_ok _ hq) (hvp _ hp) (hvp _ hq) ha hb

theorem GroupOk.slot_keys_nodup {parts : List (SortGroupPart φ)} (h : GroupOk parts)
    (hv : ValidTags currentTag (parts.flatMap SortGroupPart.fields)) :
    ((parts.filterMap (slot currentTag)).map Prod.fst).Nodup := by
  rw [List.Nodup, List.pairwise_map]
  refine (h.slots hv).imp fun hab => ?_
  rcases hab with hab | hba
  · exact Nat.ne_of_lt hab.1
  · exact (Nat.ne_of_lt hba.1).symm

/-- A group emits its tags in order. -/
theorem GroupOk.emits {parts : List (SortGroupPart φ)} (h : GroupOk parts)
    (hv : ValidTags currentTag (parts.flatMap SortGroupPart.fields)) :
    (processSortGroup currentTag .forward parts).Pairwise (EmitsBefore currentTag) := by
  have hperm := slots_perm currentTag parts
  have hkeys := h.slot_keys_nodup hv
  rw [processSortGroup, Direction.sort, List.pairwise_flatMap]
  constructor
  · intro entry hentry
    have hmem := hperm.subset ((KeyedSort.ascending_perm _).subset hentry)
    obtain ⟨p, hp, hslot⟩ := List.mem_filterMap.mp hmem
    cases p with
    | contiguous fields =>
      obtain rfl := Option.mem_some_iff.mp hslot
      have hvf : ValidTags currentTag fields := fun f hf =>
        hv f (List.mem_flatMap.mpr ⟨_, hp, hf⟩)
      exact (h.parts_ok _ hp).ordered.imp_of_mem fun hf hg hfg => hfg.emits (hvf _ hf) (hvf _ hg)
    | oneofPart field =>
      obtain ⟨t, -, rfl⟩ := Option.map_eq_some_iff.mp hslot
      exact List.pairwise_singleton _ _
  · -- the keys decide between the two orders that are possible for each pair
    have hstrict := KeyedSort.ascending_pairwise_lt ((hperm.map Prod.fst).nodup_iff.mpr hkeys)
    have hpairs := ((KeyedSort.ascending_perm _).trans hperm).symm.pairwise (h.slots hv)
      (fun hab => hab.symm)
    refine hstrict.imp₂ (fun a b hlt hab => ?_) hpairs
    rcases hab with hab | hba
    · exact hab.2
    · exact absurd hba.1 (Nat.not_lt.mpr hlt.le)

/-- Going backwards emits the same fields in the opposite order. -/
theorem GroupOk.emits_reverse {parts : List (SortGroupPart φ)} (h : GroupOk parts)
    (hv : ValidTags currentTag (parts.flatMap SortGroupPart.fields)) :
    processSortGroup currentTag .reverse parts =
      (processSortGroup currentTag .forward parts).reverse := by
  have hfwd := slots_perm currentTag parts
  have hrev := (slots_reverse_perm currentTag parts).trans (hfwd.symm.map (Prod.map id List.reverse))
  have hkeys := (hfwd.map Prod.fst).nodup_iff.mpr (h.slot_keys_nodup hv)
  rw [processSortGroup, processSortGroup, Direction.sort, Direction.sort,
    KeyedSort.descending_eq_reverse hrev (by simpa [Function.comp_def] using hkeys), KeyedSort.ascending_map,
    List.reverse_flatMap, ← List.map_reverse, List.flatMap_map]
  rfl

/-- The slots hold exactly the fields that have something to emit. -/
theorem slots_filter (parts : List (SortGroupPart φ)) :
    ((parts.filterMap (slot currentTag)).flatMap Prod.snd).filter (fun f => (currentTag f).isSome) =
      (parts.flatMap SortGroupPart.fields).filter fun f => (currentTag f).isSome := by
  induction parts with
  | nil => rfl
  | cons p parts ih =>
    cases p with
    | contiguous fields => simpa [slot, SortGroupPart.fields] using ih
    | oneofPart field =>
      cases htag : currentTag field with
      | none => simpa [slot, SortGroupPart.fields, htag] using ih
      | some tag => simpa [slot, SortGroupPart.fields, htag] using ih

theorem mem_of_mem_processSortGroup {parts : List (SortGroupPart φ)} {f : φ}
    (h : f ∈ processSortGroup currentTag .forward parts) :
    f ∈ parts.flatMap SortGroupPart.fields := by
  obtain ⟨entry, hentry, hf⟩ := List.mem_flatMap.mp h
  have hmem := (slots_perm currentTag parts).subset ((KeyedSort.ascending_perm _).subset hentry)
  obtain ⟨p, hp, hslot⟩ := List.mem_filterMap.mp hmem
  refine List.mem_flatMap.mpr ⟨p, hp, ?_⟩
  cases p with
  | contiguous fields =>
    obtain rfl := Option.mem_some_iff.mp hslot
    exact hf
  | oneofPart field =>
    obtain ⟨t, -, rfl⟩ := Option.map_eq_some_iff.mp hslot
    exact hf

/-- A group emits exactly its fields that have something to emit. -/
theorem processSortGroup_perm (parts : List (SortGroupPart φ)) :
    ((processSortGroup currentTag .forward parts).filter fun f => (currentTag f).isSome).Perm
      ((parts.flatMap SortGroupPart.fields).filter fun f => (currentTag f).isSome) := by
  rw [← slots_filter]
  exact (((KeyedSort.ascending_perm _).trans (slots_perm currentTag parts)).flatMap_right _).filter _

end

end MessageFieldsSorted

end Bilrost
