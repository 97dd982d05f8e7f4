import Bilrost.Base.SortedMap
import Bilrost.Wire.Basic

/-!
Lists of tags as they are given in attributes: ranges of tags, which are sorted
when they are validated and may not overlap.
-/

namespace Bilrost

/-- A tag is a `u32`. -/
def tagLimit : Nat := 2 ^ 32

/-- `RangeInclusive<u32>` -/
@[ext] structure TagRange where
  start : Nat
  stop : Nat
  start_lt : start < tagLimit
  stop_lt : stop < tagLimit
  deriving DecidableEq

namespace TagRange

def isEmpty (range : TagRange) : Bool := decide (range.stop < range.start)

/-- The tags of a range, in the order in which it is iterated. -/
def tags (range : TagRange) : List Nat := List.range' range.start (range.stop + 1 - range.start)

instance : Membership Nat TagRange := ⟨fun range tag => range.start ≤ tag ∧ tag ≤ range.stop⟩

instance (tag : Nat) (range : TagRange) : Decidable (tag ∈ range) :=
  inferInstanceAs (Decidable (_ ∧ _))

theorem mem_iff {tag : Nat} {range : TagRange} :
    tag ∈ range ↔ range.start ≤ tag ∧ tag ≤ range.stop := Iff.rfl

@[simp] theorem mem_tags {tag : Nat} {range : TagRange} : tag ∈ range.tags ↔ tag ∈ range := by
  rw [tags, List.mem_range'_1, mem_iff]
  omega

theorem tags_pairwise (range : TagRange) : range.tags.Pairwise (· < ·) := by
  rw [tags]
  exact List.pairwise_lt_range'

theorem isEmpty_eq_false {range : TagRange} : range.isEmpty = false ↔ ∃ tag, tag ∈ range := by
  rw [isEmpty, decide_eq_false_iff_not, not_lt]
  constructor
  · intro hle
    exact ⟨range.start, le_rfl, hle⟩
  · rintro ⟨tag, hstart, hstop⟩
    exact hstart.trans hstop

/-- Two ranges without a tag in common. -/
def Apart (range range' : TagRange) : Prop := ∀ tag, ¬(tag ∈ range ∧ tag ∈ range')

theorem Apart.symm {range range' : TagRange} (h : range.Apart range') : range'.Apart range :=
  fun tag hboth => h tag hboth.symm

/-- Ranges are sorted by their starts, and then by their ends. -/
def key (range : TagRange) : Nat ×ₗ Nat := toLex (range.start, range.stop)

theorem start_le_of_key_le {range range' : TagRange} (h : range.key ≤ range'.key) :
    range.start ≤ range'.start := by
  rcases (Prod.Lex.le_iff ..).mp h with hlt | ⟨heq, -⟩
  · exact le_of_lt hlt
  · exact le_of_eq heq

end TagRange

inductive TagListError where
  | invalidTagRange (start stop : Nat)
  | tooLargeTagRange (start stop : Nat)
  | duplicatedTag (start : Nat)
  deriving DecidableEq, Repr

namespace TagList

/-- The checks of one range. -/
def checkRange (rangeSizeLimit : Option Nat) (range : TagRange) : Except TagListError Unit :=
  if range.isEmpty then .error (.invalidTagRange range.start range.stop)
  else
    match rangeSizeLimit with
    | some limit =>
        if limit ≤ range.stop - range.start + 1 then
          .error (.tooLargeTagRange range.start range.stop)
        else .ok ()
    | none => .ok ()

def checkRanges (rangeSizeLimit : Option Nat) : List TagRange → Except TagListError Unit
  | [] => .ok ()
  | range :: ranges => do
      checkRange rangeSizeLimit range
      checkRanges rangeSizeLimit ranges

/-- `sort_by_key` -/
def sortByKey (ranges : List TagRange) : List TagRange :=
  ranges.insertionSort fun lower higher => lower.key ≤ higher.key

/-- The check of neighbours in the sorted list. -/
def checkNeighbours : List TagRange → Except TagListError Unit
  | [] => .ok ()
  | [_] => .ok ()
  | lower :: higher :: rest =>
      if higher.start ≤ lower.stop then .error (.duplicatedTag higher.start)
      else checkNeighbours (higher :: rest)

/-- `validate`: the list as it is left, which is sorted. -/
def validate (rangeSizeLimit : Option Nat) (ranges : List TagRange) :
    Except TagListError (List TagRange) := do
  checkRanges rangeSizeLimit ranges
  let sorted := sortByKey ranges
  checkNeighbours sorted
  .ok sorted

/-- `iter_tags` -/
def iterTags (ranges : List TagRange) : List Nat := ranges.flatMap TagRange.tags

@[simp] theorem mem_iterTags {ranges : List TagRange} {tag : Nat} :
    tag ∈ iterTags ranges ↔ ∃ range ∈ ranges, tag ∈ range := by
  simp [iterTags]

theorem checkRange_none {range : TagRange} :
    checkRange none range = .ok () ↔ ∃ tag, tag ∈ range := by
  rw [checkRange, ← TagRange.isEmpty_eq_false]
  cases range.isEmpty <;> simp

theorem checkRange_nonempty {limit : Option Nat} {range : TagRange}
    (h : checkRange limit range = .ok ()) : ∃ tag, tag ∈ range := by
  unfold checkRange at h
  split_ifs at h with hempty
  exact TagRange.isEmpty_eq_false.mp (Bool.not_eq_true _ ▸ hempty)

theorem checkRanges_eq_ok {limit : Option Nat} {ranges : List TagRange} :
    checkRanges limit ranges = .ok () ↔ ∀ range ∈ ranges, checkRange limit range = .ok () := by
  induction ranges with
  | nil => simp [checkRanges]
  | cons range ranges ih =>
      rw [checkRanges, List.forall_mem_cons, ← ih]
      cases hcheck : checkRange limit range with
      | error err => simp [bind, Except.bind]
      | ok u => simp [bind, Except.bind]

theorem sortByKey_perm (ranges : List TagRange) : (sortByKey ranges).Perm ranges :=
  List.perm_insertionSort _ ranges

theorem sortByKey_pairwise (ranges : List TagRange) :
    (sortByKey ranges).Pairwise fun lower higher => lower.key ≤ higher.key := by
  have : Std.Total fun a b : TagRange => a.key ≤ b.key := ⟨fun a b => le_total a.key b.key⟩
  have : IsTrans TagRange fun a b => a.key ≤ b.key := ⟨fun _ _ _ => le_trans⟩
  exact List.pairwise_insertionSort _ ranges

theorem checkNeighbours_eq_ok {ranges : List TagRange} :
    checkNeighbours ranges = .ok () ↔
      ranges.IsChain fun lower higher => lower.stop < higher.start := by
  induction ranges with
  | nil => simp [checkNeighbours]
  | cons lower ranges ih =>
      cases ranges with
      | nil => simp [checkNeighbours]
      | cons higher rest =>
          rw [checkNeighbours, List.isChain_cons_cons, ← ih]
          split_ifs with hle
          · simp only [false_iff]
            omega
          · simp only [iff_and_self]
            intro
            omega

/-- A range before another one. -/
def Before (lower higher : TagRange) : Prop := lower.stop < higher.start

/-- Where no range is empty, neighbours in order mean that all are in order. -/
theorem pairwise_before {ranges : List TagRange} (hnonempty : ∀ range ∈ ranges, ∃ tag, tag ∈ range)
    (hchain : ranges.IsChain Before) : ranges.Pairwise Before := by
  have hproper : ranges.IsChain fun lower higher =>
      Before lower higher ∧ higher.start ≤ higher.stop := by
    apply hchain.imp_of_mem_imp
    intro lower higher _ hmem hbefore
    obtain ⟨tag, hstart, hstop⟩ := hnonempty higher hmem
    exact ⟨hbefore, hstart.trans hstop⟩
  have : IsTrans TagRange fun lower higher =>
      Before lower higher ∧ higher.start ≤ higher.stop := by
    constructor
    rintro a b c ⟨hab, hb⟩ ⟨hbc, hc⟩
    unfold Before at *
    exact ⟨by omega, hc⟩
  exact (List.isChain_iff_pairwise.mp hproper).imp And.left

theorem Before.apart {lower higher : TagRange} (h : Before lower higher) : lower.Apart higher := by
  rintro tag ⟨⟨-, hstop⟩, hstart, -⟩
  unfold Before at h
  omega

/-- Ranges in the order of their starts that have no tag in common. -/
theorem before_of_apart {lower higher : TagRange} (hkey : lower.key ≤ higher.key)
    (hapart : lower.Apart higher) (hnonempty : ∃ tag, tag ∈ higher) : Before lower higher := by
  have hstart := TagRange.start_le_of_key_le hkey
  obtain ⟨tag, htag⟩ := hnonempty
  rw [TagRange.mem_iff] at htag
  by_contra hnot
  unfold Before at hnot
  exact hapart higher.start ⟨⟨hstart, by omega⟩, le_rfl, by omega⟩

theorem validate_eq_ok {limit : Option Nat} {ranges sorted : List TagRange} :
    validate limit ranges = .ok sorted ↔ checkRanges limit ranges = .ok () ∧
      checkNeighbours (sortByKey ranges) = .ok () ∧ sortByKey ranges = sorted := by
  unfold validate
  cases checkRanges limit ranges with
  | error err => simp [bind, Except.bind]
  | ok u => cases hneighbours : checkNeighbours (sortByKey ranges) <;>
      simp [bind, Except.bind, hneighbours]

/-- Without a size limit a list is valid exactly if its ranges have tags and have
none in common. -/
theorem validate_none {ranges : List TagRange} :
    (∃ sorted, validate none ranges = .ok sorted) ↔
      (∀ range ∈ ranges, ∃ tag, tag ∈ range) ∧ ranges.Pairwise TagRange.Apart := by
  have hranges : checkRanges none ranges = .ok () ↔ ∀ range ∈ ranges, ∃ tag, tag ∈ range := by
    simp only [checkRanges_eq_ok, checkRange_none]
  have hperm := sortByKey_perm ranges
  have hapart : (sortByKey ranges).Pairwise TagRange.Apart ↔ ranges.Pairwise TagRange.Apart :=
    hperm.pairwise_iff TagRange.Apart.symm
  simp only [validate_eq_ok, exists_and_left, exists_eq', and_true]
  rw [hranges, checkNeighbours_eq_ok]
  constructor
  · rintro ⟨hnonempty, hchain⟩
    refine ⟨hnonempty, hapart.mp ?_⟩
    exact (pairwise_before (fun range hmem => hnonempty range (hperm.subset hmem)) hchain).imp
      Before.apart
  · rintro ⟨hnonempty, hdisjoint⟩
    refine ⟨hnonempty, List.Pairwise.isChain ?_⟩
    have hboth := (sortByKey_pairwise ranges).and (hapart.mpr hdisjoint)
    apply hboth.imp_of_mem
    rintro lower higher _ hmem ⟨hkey, hlh⟩
    exact before_of_apart hkey hlh (hnonempty higher (hperm.subset hmem))

/-- What is validated is the same ranges in order. -/
structure Validated (sorted ranges : List TagRange) : Prop where
  perm : sorted.Perm ranges
  nonempty : ∀ range ∈ sorted, ∃ tag, tag ∈ range
  before : sorted.Pairwise Before

theorem validated_of_eq_ok {limit : Option Nat} {ranges sorted : List TagRange}
    (h : validate limit ranges = .ok sorted) : Validated sorted ranges := by
  obtain ⟨hranges, hneighbours, rfl⟩ := validate_eq_ok.mp h
  have hperm := sortByKey_perm ranges
  have hnonempty : ∀ range ∈ sortByKey ranges, ∃ tag, tag ∈ range := fun range hmem =>
    checkRange_nonempty (checkRanges_eq_ok.mp hranges range (hperm.subset hmem))
  exact ⟨hperm, hnonempty, pairwise_before hnonempty (checkNeighbours_eq_ok.mp hneighbours)⟩

/-- The tags of a validated list come in order. -/
theorem Validated.iterTags_pairwise {sorted ranges : List TagRange} (h : Validated sorted ranges) :
    (iterTags sorted).Pairwise (· < ·) := by
  rw [iterTags, List.pairwise_flatMap]
  constructor
  · intro range _
    exact range.tags_pairwise
  · apply h.before.imp
    intro lower higher hbefore tag htag tag' htag'
    rw [TagRange.mem_tags, TagRange.mem_iff] at htag htag'
    unfold Before at hbefore
    omega

theorem Validated.mem_iterTags {sorted ranges : List TagRange} (h : Validated sorted ranges)
    {tag : Nat} : tag ∈ iterTags sorted ↔ ∃ range ∈ ranges, tag ∈ range := by
  simp only [TagList.mem_iterTags, h.perm.mem_iff]

end TagList

end Bilrost
