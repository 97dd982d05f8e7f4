import Bilrost.Schema.MessageSheds
import Bilrost.Schema.Unknown
import Bilrost.Schema.WritesLike

/-!
Messages that have grown. A later version of a message keeps the fields of the
earlier one, each perhaps with another type that is written alike, and has others
besides. What it writes is what the earlier one writes, with the fields that are
new in between.
-/

namespace Bilrost

namespace MessageField

variable {T T' T'' : Type} {ordered : Prop} {field : MessageField T} {field' : MessageField T'}
  {field'' : MessageField T''} {value : T} {value' : T'} {value'' : T''} {records : List Record}

theorem WritesLike.trans (h : field.WritesLike value field' value')
    (h' : field'.WritesLike value' field'' value'') : field.WritesLike value field'' value'' where
  encode tw := (h'.encode tw).trans (h.encode tw)
  prependEncode buf tw := (h'.prependEncode buf tw).trans (h.prependEncode buf tw)
  encodedLen tm := (h'.encodedLen tm).trans (h.encodedLen tm)
  currentTag := h'.currentTag.trans h.currentTag
  isEmpty := h'.isEmpty.trans h.isEmpty

/-- What is written alike has the same records. -/
theorem WritesLike.written (h : field.WritesLike value field' value')
    (hwritten : field.Written ordered value records) : field'.Written ordered value' records where
  encode tw := (h.encode tw).trans (hwritten.encode tw)
  prependEncode hordered buf tw := (h.prependEncode buf tw).trans (hwritten.prependEncode hordered buf tw)
  encodedLen tm := (h.encodedLen tm).trans (hwritten.encodedLen tm)
  currentTag r hr := h.currentTag.trans (hwritten.currentTag r hr)
  complete := hwritten.complete
  isEmpty := by
    rw [h.isEmpty]
    exact hwritten.isEmpty

/-- Fields with the same records are written alike. -/
theorem Written.writesLike (hordered : ordered) (h : field.Written ordered value records)
    (h' : field'.Written ordered value' records) (hshows : field.Shows) (hshows' : field'.Shows) :
    field.WritesLike value field' value' where
  encode tw := (h'.encode tw).trans (h.encode tw).symm
  prependEncode buf tw :=
    (h'.prependEncode hordered buf tw).trans (h.prependEncode hordered buf tw).symm
  encodedLen tm := (h'.encodedLen tm).trans (h.encodedLen tm).symm
  currentTag := by
    have hnone {T : Type} {field : MessageField T} {value : T} (hshows : field.Shows)
        (h : field.Written ordered value []) : field.currentTag value = none := by
      have hcurrent := hshows.currentTag value
      rw [h.isEmpty.mpr rfl] at hcurrent
      exact Option.not_isSome_iff_eq_none.mp (by simp [hcurrent])
    cases records with
    | nil => rw [hnone hshows h, hnone hshows' h']
    | cons r records =>
        rw [h.currentTag r List.mem_cons_self, h'.currentTag r List.mem_cons_self]
  isEmpty := Bool.eq_iff_iff.mpr (h'.isEmpty.trans h.isEmpty.symm)

end MessageField

/-- Oneofs with variants that are written alike, under the same tag. -/
theorem Oneof.writesLike_some {T T' : Type} {ordered : Prop} (hordered : ordered)
    {oneof : Oneof T} {oneof' : Oneof T'} (hwrites : ∀ i, (oneof.codec i).Writes ordered)
    (hwrites' : ∀ i, (oneof'.codec i).Writes ordered) {value : T} {value' : T'}
    {v : (i : Fin oneof.count) × oneof.Ty i} {v' : (i : Fin oneof'.count) × oneof'.Ty i}
    (hview : oneof.view value = some v) (hview' : oneof'.view value' = some v')
    (htag : oneof'.tag v'.1 = oneof.tag v.1)
    (h : (oneof.codec v.1).WritesLike v.2 (oneof'.codec v'.1) v'.2) :
    oneof.field.WritesLike value oneof'.field value' := by
  obtain ⟨payload, hpayload⟩ := (hwrites v.1).encode v.2
  have hwritten' := Oneof.written_some hwrites' hview' (h.encodeValue.trans hpayload)
  rw [htag, h.wireType] at hwritten'
  exact (Oneof.written_some hwrites hview hpayload).writesLike hordered hwritten' oneof.shows
    oneof'.shows

theorem Oneof.writesLike_none {T T' : Type} {ordered : Prop} (hordered : ordered)
    {oneof : Oneof T} {oneof' : Oneof T'} {value : T} {value' : T'}
    (hview : oneof.view value = none) (hview' : oneof'.view value' = none) :
    oneof.field.WritesLike value oneof'.field value' :=
  (Oneof.written_none hview).writesLike hordered (Oneof.written_none hview') oneof.shows
    oneof'.shows

namespace Fields

open MessageFieldsSorted

/-- The fields of the later version of a message that the fields of the earlier
one have become. They keep their tags. -/
structure Grows {M M' : Type} (F : Fields M) (F' : Fields M') (e : F.Index → F'.Index) : Prop where
  injective : Function.Injective e
  tags (i : F.Index) : (F.field i).tags ⊆ (F'.field (e i)).tags

/-- The fields that are new are empty. -/
def addsNothing {M M' : Type} {F : Fields M} {F' : Fields M'} (e : F.Index → F'.Index) (m' : M') :
    Bool :=
  F'.indices.all fun j => F.indices.any (fun i => e i == j) || (F'.field j).isEmpty (F'.get m' j)

theorem addsNothing_iff {M M' : Type} {F : Fields M} {F' : Fields M'} {e : F.Index → F'.Index}
    {m' : M'} : addsNothing e m' = true ↔
      ∀ j, (∀ i, e i ≠ j) → (F'.field j).isEmpty (F'.get m' j) = true := by
  simp only [addsNothing, indices, List.all_eq_true, List.mem_finRange, true_implies,
    Bool.or_eq_true, List.any_eq_true, true_and, beq_iff_eq, or_iff_not_imp_left, not_exists]

/-- The tags that a message knows. -/
def knows {M : Type} (F : Fields M) (tag : Nat) : Bool := (F.fieldOf tag).isSome

variable {M M' : Type} {F : Fields M} {F' : Fields M'} {w : F.Writing} {w' : F'.Writing}
  {ordered : Prop} {m : M} {m' : M'} {e : F.Index → F'.Index}

theorem written_filter (h : F.Sound) (hw : w.Standard) (hfields : ∀ i, (F.field i).Writes ordered)
    {emit : F.Index → List Record}
    (hemit : ∀ i, (F.field i).Written ordered (F.get m i) (emit i)) :
    (F.message w).Written ordered m
      (((w.forward m).filter fun i => (F.currentTag m i).isSome).flatMap emit) := by
  rw [flatMap_filter_of_silent fun i hcurrent => ?_]
  · exact written h hw hfields hemit
  · rw [List.eq_nil_iff_forall_not_mem]
    intro r hr
    have hsome : F.currentTag m i = some r.tag := (hemit i).currentTag r hr
    rw [hsome] at hcurrent
    cases hcurrent

theorem mem_order_iff (h : F.Sound) (hw : w.Standard) (hshows : ∀ i, (F.field i).Shows)
    {i : F.Index} : i ∈ (w.forward m).filter (fun i => (F.currentTag m i).isSome) ↔
      (F.currentTag m i).isSome = true := by
  rw [List.mem_filter]
  constructor
  · exact And.right
  · intro hsome
    refine ⟨hw.mem_forward h hshows ?_, hsome⟩
    have hempty := (hshows i).currentTag (F.get m i)
    rw [currentTag] at hsome
    rw [hsome] at hempty
    simpa using hempty.symm

/-- A message knows the records of its own fields. -/
theorem Sound.kept_eq (h : F.Sound) {i : F.Index} {records : List Record}
    (hrecords : ∀ r ∈ records, r.tag ∈ (F.field i).tags) : kept F.knows records = records := by
  rw [kept, List.filter_eq_self]
  intro r hr
  rw [knows, h.fieldOf_eq_some.mpr (hrecords r hr)]
  rfl

section
variable (he : F.Grows F' e) (h : F.Sound) (h' : F'.Sound)
include he h h'

/-- The earlier version of a message does not know the tags that are new. -/
theorem Grows.not_knows {j : F'.Index} (hj : ∀ i, e i ≠ j) {tag : Nat}
    (htag : tag ∈ (F'.field j).tags) : F.knows tag = false := by
  rw [Bool.eq_false_iff]
  intro hknown
  obtain ⟨i, hi⟩ := Option.isSome_iff_exists.mp hknown
  have htag' := he.tags i (h.fieldOf_eq_some.mp hi)
  exact hj i (h'.eq_of_mem htag' htag)

theorem Grows.kept_eq_nil {j : F'.Index} (hj : ∀ i, e i ≠ j) {records : List Record}
    (hrecords : ∀ r ∈ records, r.tag ∈ (F'.field j).tags) : kept F.knows records = [] := by
  rw [kept, List.filter_eq_nil_iff]
  intro r hr
  rw [he.not_knows h h' hj (hrecords r hr)]
  exact Bool.false_ne_true

variable (hw : w.Standard) (hw' : w'.Standard) (hfields : ∀ i, (F.field i).Writes ordered)
  (hfields' : ∀ j, (F'.field j).Writes ordered) (hshows : ∀ i, (F.field i).Shows)
  (hshows' : ∀ j, (F'.field j).Shows)
include hw hw' hfields hfields' hshows hshows'

omit he in
/-- Both versions write the fields that they have in common in the same order. -/
theorem map_order_eq [DecidablePred fun j => ∃ i, e i = j]
    (hcurrent : ∀ i, F'.currentTag m' (e i) = F.currentTag m i) :
    ((w.forward m).filter fun i => (F.currentTag m i).isSome).map e =
      ((w'.forward m').filter fun j => (F'.currentTag m' j).isSome).filter fun j => ∃ i, e i = j := by
  have hemits := (hw.emits (m := m) h fun i tag htag => (hfields i).valid htag).1
  have hemits' := (hw'.emits (m := m') h' fun j tag htag => (hfields' j).valid htag).1
  apply eq_of_emitsBefore _ ((hemits'.filter _).filter _)
  · intro j hj
    obtain ⟨i, hi, rfl⟩ := List.mem_map.mp hj
    rw [hcurrent]
    exact (mem_order_iff h hw hshows).mp hi
  · intro j
    rw [List.mem_map, List.mem_filter, mem_order_iff h' hw' hshows', decide_eq_true_eq]
    constructor
    · rintro ⟨i, hi, rfl⟩
      rw [hcurrent]
      exact ⟨(mem_order_iff h hw hshows).mp hi, i, rfl⟩
    · rintro ⟨hsome, i, rfl⟩
      rw [hcurrent] at hsome
      exact ⟨i, (mem_order_iff h hw hshows).mpr hsome, rfl⟩
  · rw [List.pairwise_map]
    apply (hemits.filter _).imp
    intro i j hbefore s hs t ht
    rw [hcurrent] at hs ht
    exact hbefore s hs t ht

/-- What the later version of a message writes is, without the fields that are
new, what the earlier one writes. -/
theorem Grows.exists_records
    (hlike : ∀ i, (F.field i).WritesLike (F.get m i) (F'.field (e i)) (F'.get m' (e i))) :
    ∃ records, (F'.message w').Written ordered m' records ∧
      (F.message w).Written ordered m (kept F.knows records) ∧
      (kept F.knows records = records ↔ addsNothing e m' = true) := by
  classical
  choose emit hemit using fun i => (hfields i).written (F.get m i)
  choose own hown using fun j => (hfields' j).written (F'.get m' j)
  let emit' : F'.Index → List Record := fun j =>
    if hj : ∃ i, e i = j then emit hj.choose else own j
  have hemit_old (i : F.Index) : emit' (e i) = emit i := by
    have hi : ∃ i', e i' = e i := ⟨i, rfl⟩
    simp only [emit', dif_pos hi, he.injective hi.choose_spec]
  have hemit' (j : F'.Index) : (F'.field j).Written ordered (F'.get m' j) (emit' j) := by
    by_cases hj : ∃ i, e i = j
    · obtain ⟨i, rfl⟩ := hj
      rw [hemit_old]
      exact (hlike i).written (hemit i)
    · simp only [emit', dif_neg hj]
      exact hown j
  have hold (i : F.Index) : kept F.knows (emit i) = emit i :=
    h.kept_eq fun r hr => (hfields i).valid ((hemit i).currentTag r hr)
  have hnew (j : F'.Index) (hj : ∀ i, e i ≠ j) : kept F.knows (emit' j) = [] :=
    he.kept_eq_nil h h' hj fun r hr => (hfields' j).valid ((hemit' j).currentTag r hr)
  let order := (w.forward m).filter fun i => (F.currentTag m i).isSome
  let order' := (w'.forward m').filter fun j => (F'.currentTag m' j).isSome
  have horder : order.map e = order'.filter fun j => ∃ i, e i = j :=
    map_order_eq h h' hw hw' hfields hfields' hshows hshows' fun i => (hlike i).currentTag
  have hkept : kept F.knows (order'.flatMap emit') = order.flatMap emit := by
    calc kept F.knows (order'.flatMap emit')
      _ = order'.flatMap fun j => kept F.knows (emit' j) := List.filter_flatMap ..
      _ = (order'.filter fun j => ∃ i, e i = j).flatMap fun j => kept F.knows (emit' j) := by
          symm
          apply flatMap_filter_of_silent
          intro j hj
          exact hnew j (not_exists.mp (of_decide_eq_false hj))
      _ = order.flatMap fun i => kept F.knows (emit' (e i)) := by
          rw [← horder, List.flatMap_map]
      _ = order.flatMap emit := by
          simp only [hemit_old, hold]
  refine ⟨order'.flatMap emit', written_filter h' hw' hfields' hemit', ?_, ?_⟩
  · rw [hkept]
    exact written_filter h hw hfields hemit
  · rw [addsNothing_iff]
    have hall := List.filter_eq_self (l := order'.flatMap emit') (p := fun r => F.knows r.tag)
    refine hall.trans ⟨fun hknown j hj => ?_, fun hempty r hr => ?_⟩
    · by_contra hisEmpty
      have hne : emit' j ≠ [] := fun hnil => hisEmpty ((hemit' j).isEmpty.mpr hnil)
      obtain ⟨r, hr⟩ := List.exists_mem_of_ne_nil _ hne
      have hcurrent : F'.currentTag m' j = some r.tag := (hemit' j).currentTag r hr
      have hmem : j ∈ order' := (mem_order_iff h' hw' hshows').mpr (by rw [hcurrent]; rfl)
      have htag := hknown r (List.mem_flatMap.mpr ⟨j, hmem, hr⟩)
      rw [he.not_knows h h' hj ((hfields' j).valid hcurrent)] at htag
      cases htag
    · obtain ⟨j, -, hr⟩ := List.mem_flatMap.mp hr
      by_cases hj : ∃ i, e i = j
      · obtain ⟨i, rfl⟩ := hj
        rw [hemit_old] at hr
        exact List.filter_eq_self.mp (hold i) r hr
      · rw [(hemit' j).isEmpty.mp (hempty j (not_exists.mp hj))] at hr
        cases hr

/-- With the new fields empty both versions write the same. -/
theorem Grows.writesLike
    (hlike : ∀ i, (F.field i).WritesLike (F.get m i) (F'.field (e i)) (F'.get m' (e i)))
    (hempty : addsNothing e m' = true) :
    (F.message w).WritesLike m (F'.message w') m' := by
  obtain ⟨records, hwritten', hwritten, heq⟩ :=
    he.exists_records h h' hw hw' hfields hfields' hshows hshows' hlike
  apply (writes h hw hfields).writesLike (writes h' hw' hfields')
  rw [hwritten'.encode, hwritten.encode, heq.mpr hempty]

end

end Fields

end Bilrost
