import Bilrost.Derive.EncodeOrder
import Bilrost.Derive.TagLists

/-!
The fields that a message is derived for. Fields without a tag are numbered on
from the field before; the tags of all fields are then compared with the ranges
that are reserved, and with one another.
-/

namespace Bilrost

open Tagged

/-- A list of tags from an attribute, validated. -/
structure ValidTagList (rangeSizeLimit : Option Nat) where
  ranges : List TagRange
  validated : ∃ raw, TagList.validate rangeSizeLimit raw = .ok ranges

/-- The attributes of a field, as far as they decide about its tags. -/
inductive FieldAttrs where
  | value (tag : Option (Fin tagLimit))
  | oneof (tags : ValidTagList (some 100)) (hnonempty : tags.ranges ≠ [])
  | ignored

inductive MessageFieldContent where
  | value (tag : Nat)
  | oneof (tags : List Nat)
  | ignored
  deriving DecidableEq

/-- `Field`, with the name that it has in errors. -/
structure Field where
  ident : String
  content : MessageFieldContent
  deriving DecidableEq

def Field.tags (field : Field) : List Nat :=
  match field.content with
  | .value tag => [tag]
  | .oneof tags => tags
  | .ignored => []

def Field.isIgnored (field : Field) : Bool := decide (field.content = .ignored)

instance : Tagged Field := ⟨Field.tags⟩

inductive FieldsError where
  | missingTag (ident : String)
  | reservedTag (ident : String) (tag : Nat)
  | multipleFieldsHaveTag (tag : Nat)
  /-- `last_tag` of a field without tags panics. -/
  | noLastTag
  deriving DecidableEq, Repr

/-- The two kinds of structs. -/
inductive StructKind where
  | unnamed
  | named
  deriving DecidableEq

/-- `checked_add(1)` -/
def nextTagAfter (tag : Nat) : Option Nat := if tag + 1 < tagLimit then some (tag + 1) else none

/-- `Field::new` -/
def Field.new (ident : String) (attrs : FieldAttrs) (inferredTag : Option Nat) :
    Except FieldsError Field :=
  match attrs with
  | .ignored => .ok ⟨ident, .ignored⟩
  | .oneof tags _ => .ok ⟨ident, .oneof (TagList.iterTags tags.ranges)⟩
  | .value tag =>
      match (tag.map Fin.val).or inferredTag with
      | some tag => .ok ⟨ident, .value tag⟩
      | none => .error (.missingTag ident)

/-- The tag that the field after this one gets if it has none of its own. -/
def Field.nextTag (field : Field) (nextTag : Option Nat) : Except FieldsError (Option Nat) :=
  if field.isIgnored then .ok nextTag
  else
    match field.tags.max? with
    | some lastTag => .ok (nextTagAfter lastTag)
    | none => .error .noLastTag

def newFields (nextTag : Option Nat) : List (String × FieldAttrs) → Except FieldsError (List Field)
  | [] => .ok []
  | (ident, attrs) :: rest => do
      let field ← Field.new ident attrs nextTag
      let nextTag ← field.nextTag nextTag
      let fields ← newFields nextTag rest
      .ok (field :: fields)

/-- All fields by their tags. Of fields with the same tag the last one is kept. -/
def allTags (fields : List Field) : SortedMap Nat Field :=
  (fields.flatMap fun field => field.tags.map fun tag => (tag, field)).foldl
    (fun map entry => map.insert entry.1 entry.2) SortedMap.empty

/-- `range(..).next()` -/
def firstInRange (map : SortedMap Nat Field) (range : TagRange) : Option (Nat × Field) :=
  map.entries.find? fun entry => decide (entry.1 ∈ range)

def checkReserved (map : SortedMap Nat Field) : List TagRange → Except FieldsError Unit
  | [] => .ok ()
  | range :: ranges =>
      match firstInRange map range with
      | some (forbiddenTag, badField) => .error (.reservedTag badField.ident forbiddenTag)
      | none => checkReserved map ranges

/-- The first item of a sorted list that comes twice. -/
def firstDuplicate : List Nat → Option Nat
  | [] => none
  | [_] => none
  | a :: b :: rest => if a = b then some a else firstDuplicate (b :: rest)

def StructKind.firstTag : StructKind → Nat
  | .unnamed => 0
  | .named => 1

def parseMessageFields (kind : StructKind) (fields : List (String × FieldAttrs))
    (reserved : ValidTagList none) : Except FieldsError (List Field) := do
  let unsortedFields ← newFields (some kind.firstTag) fields
  checkReserved (allTags unsortedFields) reserved.ranges
  match firstDuplicate ((unsortedFields.flatMap Field.tags).insertionSort (· ≤ ·)) with
  | some duplicatedTag => .error (.multipleFieldsHaveTag duplicatedTag)
  | none => .ok unsortedFields

/-- The field as it should be, numbered without a limit. -/
def FieldAttrs.content (number : Nat) : FieldAttrs → MessageFieldContent
  | .value (some tag) => .value tag.val
  | .value none => .value number
  | .oneof tags _ => .oneof (TagList.iterTags tags.ranges)
  | .ignored => .ignored

/-- The number of the field after it. -/
def FieldAttrs.numberAfter (number : Nat) : FieldAttrs → Nat
  | .value (some tag) => tag.val + 1
  | .value none => number + 1
  | .oneof tags _ => (TagList.iterTags tags.ranges).max?.getD 0 + 1
  | .ignored => number

/-- The fields of a message, numbered one after the other. -/
def numberedFields (number : Nat) : List (String × FieldAttrs) → List Field
  | [] => []
  | (ident, attrs) :: rest =>
      ⟨ident, attrs.content number⟩ :: numberedFields (attrs.numberAfter number) rest

/-- A number that is a tag. -/
def inferred (number : Nat) : Option Nat := if number < tagLimit then some number else none

theorem nextTagAfter_eq (tag : Nat) : nextTagAfter tag = inferred (tag + 1) := rfl

theorem ValidTagList.iterTags_ne_nil {limit : Option Nat} {list : ValidTagList limit}
    (h : list.ranges ≠ []) : TagList.iterTags list.ranges ≠ [] := by
  obtain ⟨raw, hraw⟩ := list.validated
  obtain ⟨range, hmem⟩ := List.exists_mem_of_ne_nil _ h
  obtain ⟨tag, htag⟩ := (TagList.validated_of_eq_ok hraw).nonempty range hmem
  exact List.ne_nil_of_mem (TagList.mem_iterTags.mpr ⟨range, hmem, htag⟩)

theorem TagList.lt_of_mem_iterTags {ranges : List TagRange} {tag : Nat}
    (h : tag ∈ TagList.iterTags ranges) : tag < tagLimit := by
  obtain ⟨range, -, -, hstop⟩ := TagList.mem_iterTags.mp h
  exact hstop.trans_lt range.stop_lt

/-- A field is there unless it is numbered too high. -/
theorem Field.new_eq_ok {ident : String} {attrs : FieldAttrs} {number : Nat} {field : Field} :
    Field.new ident attrs (inferred number) = .ok field ↔
      field = ⟨ident, attrs.content number⟩ ∧ ∀ tag ∈ field.tags, tag < tagLimit := by
  cases attrs with
  | ignored =>
      simp only [Field.new, FieldAttrs.content, Except.ok.injEq]
      constructor
      · rintro rfl
        exact ⟨rfl, by simp [Field.tags]⟩
      · exact fun h => h.1.symm
  | oneof tags hnonempty =>
      simp only [Field.new, FieldAttrs.content, Except.ok.injEq]
      constructor
      · rintro rfl
        exact ⟨rfl, fun tag htag => TagList.lt_of_mem_iterTags htag⟩
      · exact fun h => h.1.symm
  | value tag =>
      cases tag with
      | some tag =>
          simp only [Field.new, FieldAttrs.content, Option.map_some, Option.some_or,
            Except.ok.injEq]
          constructor
          · rintro rfl
            exact ⟨rfl, by simp [Field.tags]⟩
          · exact fun h => h.1.symm
      | none =>
          simp only [Field.new, FieldAttrs.content, Option.map_none, Option.none_or, inferred]
          split_ifs with hlt
          · simp only [Except.ok.injEq]
            constructor
            · rintro rfl
              exact ⟨rfl, by simpa [Field.tags] using hlt⟩
            · exact fun h => h.1.symm
          · simp only [false_iff, not_and]
            rintro rfl
            simpa [Field.tags] using hlt

/-- The next field is numbered on from this one. -/
theorem Field.nextTag_content (ident : String) (attrs : FieldAttrs) (number : Nat) :
    (⟨ident, attrs.content number⟩ : Field).nextTag (inferred number) =
      .ok (inferred (attrs.numberAfter number)) := by
  cases attrs with
  | ignored => rfl
  | oneof tags hnonempty =>
      obtain ⟨lastTag, hlast⟩ :=
        Option.isSome_iff_exists.mp (List.isSome_max?_of_ne_nil (tags.iterTags_ne_nil hnonempty))
      simp [Field.nextTag, Field.isIgnored, FieldAttrs.content, FieldAttrs.numberAfter,
        Field.tags, hlast, nextTagAfter_eq]
  | value tag => cases tag <;> rfl

theorem newFields_eq_ok {number : Nat} {fields : List (String × FieldAttrs)}
    {parsed : List Field} : newFields (inferred number) fields = .ok parsed ↔
      parsed = numberedFields number fields ∧
        ∀ field ∈ parsed, ∀ tag ∈ field.tags, tag < tagLimit := by
  induction fields generalizing number parsed with
  | nil =>
      simp only [newFields, numberedFields, Except.ok.injEq]
      constructor
      · rintro rfl
        exact ⟨rfl, by simp⟩
      · exact fun h => h.1.symm
  | cons spec rest ih =>
      obtain ⟨ident, attrs⟩ := spec
      simp only [newFields, numberedFields]
      cases hnew : Field.new ident attrs (inferred number) with
      | error err =>
          simp only [bind, Except.bind, reduceCtorEq, false_iff, not_and]
          rintro rfl hlt
          rw [Field.new_eq_ok.mpr ⟨rfl, hlt _ List.mem_cons_self⟩] at hnew
          cases hnew
      | ok field =>
          obtain ⟨rfl, hlt⟩ := Field.new_eq_ok.mp hnew
          simp only [bind, Except.bind, Field.nextTag_content]
          cases hrest : newFields (inferred (attrs.numberAfter number)) rest with
          | error err =>
              simp only [reduceCtorEq, false_iff, not_and]
              rintro rfl hall
              rw [ih.mpr ⟨rfl, fun field hmem => hall field (List.mem_cons_of_mem _ hmem)⟩] at hrest
              cases hrest
          | ok parsed' =>
              obtain ⟨rfl, hall⟩ := ih.mp hrest
              simp only [Except.ok.injEq]
              constructor
              · rintro rfl
                exact ⟨rfl, List.forall_mem_cons.mpr ⟨hlt, hall⟩⟩
              · exact fun h => h.1.symm

theorem mem_keys_foldl_insert {entries : List (Nat × Field)} {map : SortedMap Nat Field}
    {tag : Nat} :
    tag ∈ (entries.foldl (fun map entry => map.insert entry.1 entry.2) map).keys ↔
      tag ∈ map.keys ∨ tag ∈ entries.map Prod.fst := by
  induction entries generalizing map with
  | nil => simp
  | cons entry entries ih =>
      rw [List.foldl_cons, ih, SortedMap.mem_keys_insert, List.map_cons, List.mem_cons]
      tauto

theorem mem_keys_allTags {fields : List Field} {tag : Nat} :
    tag ∈ (allTags fields).keys ↔ tag ∈ fields.flatMap Field.tags := by
  have hempty : (SortedMap.empty : SortedMap Nat Field).keys = [] := rfl
  rw [allTags, mem_keys_foldl_insert, hempty]
  simp

theorem firstInRange_eq_none {map : SortedMap Nat Field} {range : TagRange} :
    firstInRange map range = none ↔ ∀ tag ∈ map.keys, tag ∉ range := by
  simp [firstInRange, SortedMap.keys, List.find?_eq_none]

theorem checkReserved_eq_ok {map : SortedMap Nat Field} {ranges : List TagRange} :
    checkReserved map ranges = .ok () ↔ ∀ range ∈ ranges, ∀ tag ∈ map.keys, tag ∉ range := by
  induction ranges with
  | nil => simp [checkReserved]
  | cons range ranges ih =>
      rw [checkReserved, List.forall_mem_cons, ← ih, ← firstInRange_eq_none]
      cases firstInRange map range <;> simp

/-- In a sorted list equal items are neighbours. -/
theorem firstDuplicate_eq_none {l : List Nat} (h : l.Pairwise (· ≤ ·)) :
    firstDuplicate l = none ↔ l.Nodup := by
  induction l with
  | nil => simp [firstDuplicate]
  | cons a l ih =>
      cases l with
      | nil => simp [firstDuplicate]
      | cons b rest =>
          obtain ⟨ha, hrest⟩ := List.pairwise_cons.mp h
          obtain ⟨hb, -⟩ := List.pairwise_cons.mp hrest
          rw [firstDuplicate, List.nodup_cons]
          split_ifs with heq
          · simp [heq]
          · rw [ih hrest, iff_and_self]
            intro _ hmem
            have hab := ha b List.mem_cons_self
            rcases List.mem_cons.mp hmem with rfl | hmem
            · exact heq rfl
            · have hba := hb a hmem
              omega

/-- The tags of all fields are numbered low enough, are different, and are not
reserved. -/
structure WellTagged (fields : List Field) (reserved : List TagRange) : Prop where
  lt : ∀ tag ∈ fields.flatMap Field.tags, tag < tagLimit
  nodup : (fields.flatMap Field.tags).Nodup
  free : ∀ tag ∈ fields.flatMap Field.tags, ∀ range ∈ reserved, tag ∉ range

theorem parseMessageFields_eq_ok {kind : StructKind} {fields : List (String × FieldAttrs)}
    {reserved : ValidTagList none} {parsed : List Field} :
    parseMessageFields kind fields reserved = .ok parsed ↔
      parsed = numberedFields kind.firstTag fields ∧ WellTagged parsed reserved.ranges := by
  have hfirst : some kind.firstTag = inferred kind.firstTag := by cases kind <;> decide
  rw [parseMessageFields, hfirst]
  cases hnew : newFields (inferred kind.firstTag) fields with
  | error err =>
      simp only [bind, Except.bind, reduceCtorEq, false_iff, not_and]
      rintro rfl htagged
      rw [newFields_eq_ok.mpr ⟨rfl, List.forall_mem_flatMap.mp htagged.lt⟩] at hnew
      cases hnew
  | ok unsorted =>
      obtain ⟨rfl, hlt⟩ := newFields_eq_ok.mp hnew
      have hchecks : WellTagged (numberedFields kind.firstTag fields) reserved.ranges ↔
          checkReserved (allTags (numberedFields kind.firstTag fields)) reserved.ranges = .ok () ∧
            firstDuplicate (((numberedFields kind.firstTag fields).flatMap
              Field.tags).insertionSort (· ≤ ·)) = none := by
        rw [checkReserved_eq_ok, firstDuplicate_eq_none (List.pairwise_insertionSort _ _),
          (List.perm_insertionSort _ _).nodup_iff]
        simp only [mem_keys_allTags]
        constructor
        · intro h
          exact ⟨fun range hrange tag htag => h.free tag htag range hrange, h.nodup⟩
        · rintro ⟨hfree, hnodup⟩
          exact ⟨List.forall_mem_flatMap.mpr hlt, hnodup,
            fun tag htag range hrange => hfree range hrange tag htag⟩
      simp only [bind, Except.bind]
      constructor
      · intro hparse
        cases hreserved : checkReserved (allTags (numberedFields kind.firstTag fields))
            reserved.ranges with
        | error err => simp [hreserved] at hparse
        | ok u =>
            simp only [hreserved] at hparse
            split at hparse
            · cases hparse
            · next hnone =>
                obtain rfl := Except.ok.inj hparse
                exact ⟨rfl, hchecks.mpr ⟨hreserved, hnone⟩⟩
      · rintro ⟨rfl, htagged⟩
        obtain ⟨hreserved, hnone⟩ := hchecks.mp htagged
        simp only [hreserved, hnone]

/-- A list of tag ranges is valid exactly if its ranges have tags and have none
in common, and then it yields each of their tags once, in order. Fields are
accepted exactly if, numbered on from one another, they are well tagged. -/
theorem derive_accepts_well_tagged (ranges : List TagRange) (kind : StructKind)
    (fields : List (String × FieldAttrs)) (reserved : ValidTagList none) :
    (((∃ sorted, TagList.validate none ranges = .ok sorted) ↔
        (∀ range ∈ ranges, ∃ tag, tag ∈ range) ∧ ranges.Pairwise TagRange.Apart) ∧
      ∀ sorted, TagList.validate none ranges = .ok sorted →
        (TagList.iterTags sorted).Pairwise (· < ·) ∧
          ∀ tag, tag ∈ TagList.iterTags sorted ↔ ∃ range ∈ ranges, tag ∈ range) ∧
    ((∃ parsed, parseMessageFields kind fields reserved = .ok parsed) ↔
        WellTagged (numberedFields kind.firstTag fields) reserved.ranges) ∧
      ∀ parsed, parseMessageFields kind fields reserved = .ok parsed →
        parsed = numberedFields kind.firstTag fields := by
  refine ⟨⟨TagList.validate_none, ?_⟩, ?_, ?_⟩
  · intro sorted hsorted
    have hvalidated := TagList.validated_of_eq_ok hsorted
    exact ⟨hvalidated.iterTags_pairwise, fun tag => hvalidated.mem_iterTags⟩
  · constructor
    · rintro ⟨parsed, hparsed⟩
      obtain ⟨rfl, htagged⟩ := parseMessageFields_eq_ok.mp hparsed
      exact htagged
    · intro htagged
      exact ⟨_, parseMessageFields_eq_ok.mpr ⟨rfl, htagged⟩⟩
  · intro parsed hparsed
    exact (parseMessageFields_eq_ok.mp hparsed).1

theorem Field.tags_ne_nil {ident : String} {attrs : FieldAttrs} {number : Nat}
    (h : (⟨ident, attrs.content number⟩ : Field).isIgnored = false) :
    (⟨ident, attrs.content number⟩ : Field).tags ≠ [] := by
  cases attrs with
  | ignored => cases h
  | oneof tags hnonempty => exact tags.iterTags_ne_nil hnonempty
  | value tag => cases tag <;> exact List.cons_ne_nil _ _

theorem exists_content_of_mem {number : Nat} {fields : List (String × FieldAttrs)} {field : Field}
    (h : field ∈ numberedFields number fields) :
    ∃ ident attrs number', field = ⟨ident, FieldAttrs.content number' attrs⟩ := by
  induction fields generalizing number with
  | nil => cases h
  | cons spec rest ih =>
      rcases List.mem_cons.mp h with rfl | h
      · exact ⟨_, _, _, rfl⟩
      · exact ih h

end Bilrost
