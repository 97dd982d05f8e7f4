import Bilrost.Base.KeyedSort
import Bilrost.Wire.Basic

/-!
The order in which a derived message emits its fields. A plain field has one
tag; a oneof has several and emits only the one its current variant has, so a
message with oneofs interleaved with other fields cannot be put in order once
and for all. The derive macro splits the fields, sorted by first tag, into
chunks: single fields that are always in order, and groups that are sorted at
run time by the tags of the variants that are set.

`MessageFieldsSorted.new` is that planning algorithm, with its assertions as
failures. `encodeOrder` and `prependOrder` are the calls that the generated
code makes for a given choice of current tags.
-/

namespace Bilrost

/-- Things that own some tags. -/
class Tagged (φ : Type) where
  tags : φ → List Nat

namespace Tagged

variable {φ : Type} [Tagged φ]

/-- The least tag. The source panics on a field without tags. -/
def firstTag (field : φ) : Nat := (tags field).min?.getD 0

/-- The greatest tag. -/
def lastTag (field : φ) : Nat := (tags field).max?.getD 0

theorem firstTag_mem {field : φ} (h : tags field ≠ []) : firstTag field ∈ tags field := by
  obtain ⟨t, ht⟩ := Option.isSome_iff_exists.mp (List.isSome_min?_of_ne_nil h)
  rw [firstTag, ht]
  exact List.min?_mem ht

theorem lastTag_mem {field : φ} (h : tags field ≠ []) : lastTag field ∈ tags field := by
  obtain ⟨t, ht⟩ := Option.isSome_iff_exists.mp (List.isSome_max?_of_ne_nil h)
  rw [lastTag, ht]
  exact List.max?_mem ht

theorem firstTag_le {field : φ} {t : Nat} (h : t ∈ tags field) : firstTag field ≤ t := by
  obtain ⟨m, hm⟩ := Option.isSome_iff_exists.mp (List.isSome_min?_of_mem h)
  rw [firstTag, hm]
  exact (List.min?_eq_some_iff.mp hm).2 t h

theorem le_lastTag {field : φ} {t : Nat} (h : t ∈ tags field) : t ≤ lastTag field := by
  obtain ⟨m, hm⟩ := Option.isSome_iff_exists.mp (List.isSome_max?_of_mem h)
  rw [lastTag, hm]
  exact (List.max?_eq_some_iff.mp hm).2 t h

end Tagged

open Tagged

/-- One element of a sort group. -/
inductive SortGroupPart (φ : Type) where
  /-- Fields that no other part of the group has a tag between. -/
  | contiguous (fields : List φ)
  /-- A oneof that is placed by the tag of its current variant. -/
  | oneofPart (field : φ)

inductive FieldChunk (φ : Type) where
  /-- A field that does not need to be sorted. -/
  | alwaysOrdered (field : φ)
  /-- Parts that are sorted before they are emitted. -/
  | sortGroup (parts : List (SortGroupPart φ))

def SortGroupPart.fields {φ : Type} : SortGroupPart φ → List φ
  | contiguous fields => fields
  | oneofPart field => [field]

def FieldChunk.fields {φ : Type} : FieldChunk φ → List φ
  | alwaysOrdered field => [field]
  | sortGroup parts => parts.flatMap SortGroupPart.fields

namespace MessageFieldsSorted

/-- The local variables of `MessageFieldsSorted::new`. -/
structure Planner (φ : Type) where
  chunks : List (FieldChunk φ)
  currentContiguousGroup : List φ
  currentSortGroup : List (SortGroupPart φ)
  sortGroupOneofTags : List Nat

variable {φ : Type} [Tagged φ]

/-- Moves the contiguous fields collected so far into the sort group. -/
def Planner.flushContiguous (st : Planner φ) : Planner φ :=
  if st.currentContiguousGroup.isEmpty then st
  else
    { st with
      currentContiguousGroup := []
      currentSortGroup := st.currentSortGroup ++ [.contiguous st.currentContiguousGroup] }

/-- `sort_group_oneof_tags.range(low..=high).next().is_some()` -/
def anyTagIn (oneofTags : List Nat) (low high : Nat) : Bool :=
  oneofTags.any fun t => low ≤ t && t ≤ high

/-- Whether a field has tags beyond the first tag of the next one. -/
def overlaps (field : φ) (next : Option φ) : Bool :=
  next.any fun nextField => lastTag field > firstTag nextField

/-- Puts one field where it belongs. -/
def Planner.place (st : Planner φ) (field : φ) (next : Option φ) : Planner φ :=
  let inCurrentSortGroup := st.sortGroupOneofTags.max?.any fun last => last > firstTag field
  if inCurrentSortGroup then
    if overlaps field next then
      let st := st.flushContiguous
      { st with
        sortGroupOneofTags := st.sortGroupOneofTags ++ tags field
        currentSortGroup := st.currentSortGroup ++ [.oneofPart field] }
    else if anyTagIn st.sortGroupOneofTags (firstTag field) (lastTag field) then
      let st := st.flushContiguous
      { st with currentSortGroup := st.currentSortGroup ++ [.oneofPart field] }
    else
      let split := st.currentContiguousGroup.getLast?.any fun previous =>
        anyTagIn st.sortGroupOneofTags (lastTag previous) (firstTag field)
      let st := if split then st.flushContiguous else st
      { st with currentContiguousGroup := st.currentContiguousGroup ++ [field] }
  else if overlaps field next then
    { st with
      sortGroupOneofTags := tags field
      currentSortGroup := st.currentSortGroup ++ [.oneofPart field] }
  else { st with chunks := st.chunks ++ [.alwaysOrdered field] }

/-- Closes the sort group when the next field lies beyond all of its oneofs.
`none` is the failed assertion that there is something to emit. -/
def Planner.close (st : Planner φ) (next : Option φ) : Option (Planner φ) :=
  match st.sortGroupOneofTags.max? with
  | none => some st
  | some sortGroupEnd =>
      if next.any fun nextField => firstTag nextField < sortGroupEnd then some st
      else
        let st := st.flushContiguous
        if st.currentSortGroup.isEmpty then none
        else
          some
            { chunks := st.chunks ++ [.sortGroup st.currentSortGroup]
              currentContiguousGroup := st.currentContiguousGroup
              currentSortGroup := []
              sortGroupOneofTags := [] }

/-- The loop over the fields, each with a look at the next. -/
def Planner.run (st : Planner φ) : List φ → Option (Planner φ)
  | [] => some st
  | field :: fields => ((st.place field fields.head?).close fields.head?).bind (run · fields)

/-- `MessageFieldsSorted::new`: the chunks, or `none` when an assertion fails. -/
def new (unsortedFields : List φ) : Option (List (FieldChunk φ)) := do
  let fields := (KeyedSort.ascending (unsortedFields.map fun f => (firstTag f, f))).map Prod.snd
  let st ← Planner.run ⟨[], [], [], []⟩ fields
  if st.currentSortGroup.isEmpty && st.currentContiguousGroup.isEmpty then some st.chunks
  else none

inductive Direction where
  | forward
  | reverse

def Direction.align {α : Type} : Direction → List α → List α
  | forward, items => items
  | reverse, items => items.reverse

def Direction.sort {α : Type} : Direction → List (Nat × α) → List (Nat × α)
  | forward, items => KeyedSort.ascending items
  | reverse, items => KeyedSort.descending items

/-- The array slots of the parts that are emitted in any case: a run of fields,
under the first tag of the first of them. -/
def guaranteedParts (direction : Direction) (parts : List (SortGroupPart φ)) :
    List (Nat × List φ) :=
  (direction.align parts).filterMap fun
    | .contiguous fields => some ((fields.head?.map firstTag).getD 0, direction.align fields)
    | .oneofPart _ => none

/-- The array slots of the oneofs that are set, under their current tags. -/
def populateOneofParts (currentTag : φ → Option Nat) (direction : Direction)
    (parts : List (SortGroupPart φ)) : List (Nat × List φ) :=
  (direction.align parts).filterMap fun
    | .contiguous _ => none
    | .oneofPart field => (currentTag field).map fun tag => (tag, [field])

/-- The code generated by `process_sort_groups`: which fields are emitted, in
order, for the current tags of the oneofs. -/
def processSortGroup (currentTag : φ → Option Nat) (direction : Direction)
    (parts : List (SortGroupPart φ)) : List φ :=
  (direction.sort (guaranteedParts direction parts ++
    populateOneofParts currentTag direction parts)).flatMap Prod.snd

def chunkOrder (currentTag : φ → Option Nat) (direction : Direction) : FieldChunk φ → List φ
  | .alwaysOrdered field => [field]
  | .sortGroup parts => processSortGroup currentTag direction parts

/-- The fields in the order in which `encode` and `encoded_len` visit them. -/
def encodeOrder (currentTag : φ → Option Nat) (chunks : List (FieldChunk φ)) : List φ :=
  chunks.flatMap (chunkOrder currentTag .forward)

/-- The fields in the order in which `prepend` visits them. -/
def prependOrder (currentTag : φ → Option Nat) (chunks : List (FieldChunk φ)) : List φ :=
  chunks.reverse.flatMap (chunkOrder currentTag .reverse)

end MessageFieldsSorted

end Bilrost
