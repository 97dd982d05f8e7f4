import Bilrost.Derive.PlanInvariant
import Bilrost.Wire.Tags

/-!
The plan of a derived message, put to use. For fields with pairwise disjoint
tags the planner never fails, and whatever variants the oneofs have at run time
the fields are visited in the order of the tags they emit, forwards and
backwards. So the writers, which panic on tags that are out of order, never do.
-/

namespace Bilrost

open Tagged

namespace MessageFieldsSorted

variable {φ : Type} [Tagged φ]

/-- The fields as the planner sorts them. -/
def sortedFields (fields : List φ) : List φ :=
  (KeyedSort.ascending (fields.map fun f => (firstTag f, f))).map Prod.snd

theorem sortedFields_perm (fields : List φ) : (sortedFields fields).Perm fields := by
  have h := (KeyedSort.ascending_perm (fields.map fun f => (firstTag f, f))).map Prod.snd
  simpa [sortedFields, Function.comp_def] using h

theorem sortedFields_ascending (fields : List φ) :
    (sortedFields fields).Pairwise fun f g => firstTag f ≤ firstTag g := by
  rw [sortedFields, List.pairwise_map]
  refine (KeyedSort.ascending_pairwise_le _).imp_of_mem fun {a b} ha hb hle => ?_
  have key {c : Nat × φ} (hc : c ∈ KeyedSort.ascending (fields.map fun f => (firstTag f, f))) :
      c.1 = firstTag c.2 := by
    obtain ⟨f, -, rfl⟩ := List.mem_map.mp ((KeyedSort.ascending_perm _).subset hc)
    rfl
  rwa [key ha, key hb] at hle

theorem arranged_sortedFields {fields : List φ} (htagged : ∀ f ∈ fields, tags f ≠ [])
    (hdisjoint : fields.Pairwise fun f g => (tags f).Disjoint (tags g)) :
    Arranged (sortedFields fields) where
  tagged f hf := htagged f ((sortedFields_perm fields).subset hf)
  disjoint := (sortedFields_perm fields).symm.pairwise hdisjoint fun h => h.symm
  ascending := sortedFields_ascending fields

/-- The planner succeeds, and its chunks hold the fields, in order. -/
theorem new_chunksOk {fields : List φ} (htagged : ∀ f ∈ fields, tags f ≠ [])
    (hdisjoint : fields.Pairwise fun f g => (tags f).Disjoint (tags g)) :
    ∃ chunks, new fields = some chunks ∧ ChunksOk chunks ∧ (chunkFields chunks).Perm fields := by
  have hstart : PlannerOk (sortedFields fields) ⟨[], [], [], []⟩ (sortedFields fields) := by
    refine ⟨⟨arranged_sortedFields htagged hdisjoint, ?_, ⟨by simp, List.Pairwise.nil⟩, ?_, ?_, ?_⟩,
      by simp⟩
    · simp [chunkFields, partFields]
    · simp [chunkFields]
    · simpa using OpenOk.empty (sortedFields fields)
    · simp
  obtain ⟨st, hrun, hst⟩ := hstart.run
  have hnil : st.openParts = [] := by
    refine hst.open_iff.mp ?_
    cases hend : st.sortGroupOneofTags.max? with
    | none => exact List.max?_eq_none_iff.mp hend
    | some sortGroupEnd =>
      obtain ⟨next, hnext, -⟩ := hst.reaches sortGroupEnd hend
      simp at hnext
  have hrunNil : st.currentContiguousGroup = [] := by
    by_contra hne
    simp [openParts_of_ne hne] at hnil
  have hgroup : st.currentSortGroup = [] := (openParts_of_empty hrunNil).symm.trans hnil
  refine ⟨st.chunks, ?_, hst.chunks, ?_⟩
  · rw [sortedFields] at hrun
    simp [new, hrun, hrunNil, hgroup]
  · have hfields := hst.fields
    rw [hnil] at hfields
    simpa [partFields] using (List.Perm.of_eq hfields).trans (sortedFields_perm fields)

section
variable {currentTag : φ → Option Nat} {chunks : List (FieldChunk φ)}

theorem mem_of_mem_chunkOrder {chunk : FieldChunk φ} {f : φ}
    (h : f ∈ chunkOrder currentTag .forward chunk) : f ∈ chunk.fields := by
  cases chunk with
  | alwaysOrdered field => exact h
  | sortGroup parts => exact mem_of_mem_processSortGroup h

/-- The fields that are visited emit their tags in order. -/
theorem ChunksOk.emits (h : ChunksOk chunks) (hv : ValidTags currentTag (chunkFields chunks)) :
    (encodeOrder currentTag chunks).Pairwise (EmitsBefore currentTag) := by
  have hvc : ∀ chunk ∈ chunks, ValidTags currentTag chunk.fields := fun chunk hc f hf =>
    hv f (List.mem_flatMap.mpr ⟨chunk, hc, hf⟩)
  rw [encodeOrder, List.pairwise_flatMap]
  constructor
  · intro chunk hc
    cases chunk with
    | alwaysOrdered field => exact List.pairwise_singleton _ _
    | sortGroup parts => exact (h.groups parts hc).emits (hvc _ hc)
  · refine h.before.imp_of_mem fun hc hd hbefore f hf g hg => ?_
    have hf := mem_of_mem_chunkOrder hf
    have hg := mem_of_mem_chunkOrder hg
    exact (hbefore f hf g hg).emits (hvc _ hc f hf) (hvc _ hd g hg)

/-- `prepend` visits the same fields as `encode`, backwards. -/
theorem ChunksOk.prependOrder_eq (h : ChunksOk chunks)
    (hv : ValidTags currentTag (chunkFields chunks)) :
    prependOrder currentTag chunks = (encodeOrder currentTag chunks).reverse := by
  rw [prependOrder, encodeOrder, List.reverse_flatMap]
  refine List.flatMap_congr fun chunk hc => ?_
  have hc : chunk ∈ chunks := List.mem_reverse.mp hc
  cases chunk with
  | alwaysOrdered field => rfl
  | sortGroup parts =>
    exact (h.groups parts hc).emits_reverse fun f hf => hv f (List.mem_flatMap.mpr ⟨_, hc, hf⟩)

/-- The fields that have something to emit are all visited, each once. -/
theorem encodeOrder_perm (currentTag : φ → Option Nat) (chunks : List (FieldChunk φ)) :
    ((encodeOrder currentTag chunks).filter fun f => (currentTag f).isSome).Perm
      ((chunkFields chunks).filter fun f => (currentTag f).isSome) := by
  induction chunks with
  | nil => exact List.Perm.refl _
  | cons chunk chunks ih =>
    simp only [encodeOrder, chunkFields, List.flatMap_cons, List.filter_append] at ih ⊢
    refine List.Perm.append ?_ ih
    cases chunk with
    | alwaysOrdered field => exact List.Perm.refl _
    | sortGroup parts => exact processSortGroup_perm parts

omit [Tagged φ] in
/-- The records that the fields write, if each field writes its current tag only. -/
theorem pairwise_flatMap_records {emit : φ → List Record} {order : List φ}
    (hemit : ∀ f, ∀ r ∈ emit f, currentTag f = some r.tag)
    (horder : order.Pairwise (EmitsBefore currentTag)) :
    (order.flatMap emit).Pairwise fun r r' => r.tag ≤ r'.tag := by
  rw [List.pairwise_flatMap]
  constructor
  · intro f _
    refine List.pairwise_of_forall_mem_list fun r hr r' hr' => ?_
    have heq : r.tag = r'.tag := Option.some.inj ((hemit f r hr).symm.trans (hemit f r' hr'))
    exact heq.le
  · refine horder.imp fun {f g} hfg r hr r' hr' => ?_
    exact (hfg r.tag (hemit f r hr) r'.tag (hemit g r' hr')).le

omit [Tagged φ] in
/-- Fields visited in the order of their tags never trip a writer. -/
theorem writers_of_emits {emit : φ → List Record} {order : List φ}
    (hemit : ∀ f, ∀ r ∈ emit f, currentTag f = some r.tag)
    (horder : order.Pairwise (EmitsBefore currentTag)) (buf : Bytes) :
    (∃ tw, TagWriter.new.encodeRecords (order.flatMap emit) =
        some (wireRecords 0 (order.flatMap emit), tw)) ∧
      (∃ tm, TagMeasurer.recordsLen (.runtime 0) (order.flatMap emit) =
        some ((wireRecords 0 (order.flatMap emit)).length, tm)) ∧
      ∃ buf' tw, TagRevWriter.new.prependRecords buf
          (order.reverse.flatMap fun f => (emit f).reverse) = some (buf', tw) ∧
        tw.finalize buf' = wireRecords 0 (order.flatMap emit) ++ buf := by
  have hpairs := pairwise_flatMap_records hemit horder
  have hasc := ascending_of_pairwise (fun r _ => Nat.zero_le r.tag) hpairs
  have hempty : RevWritten [] buf buf TagRevWriter.new := ⟨rfl, rfl⟩
  obtain ⟨buf', tw, hrev, h'⟩ :=
    hempty.prependRecords (order.flatMap emit) (by simpa using hpairs)
  refine ⟨⟨_, encodeRecords_of_ascending hasc⟩, ⟨_, recordsLen_of_ascending hasc⟩, buf', tw, ?_, ?_⟩
  · rw [← hrev, List.reverse_flatMap]
    rfl
  · simpa using h'.finalize

/-- For fields with tags of their own the planner finds a plan. Only oneofs are
asked for their current tag. For every choice of current tags, `encode` visits
each field that has something to emit exactly once, by strictly ascending tag,
and `prepend` by strictly descending tag; and with any values under those tags,
neither of the writers nor the measurer meets a tag out of order. -/
theorem fields_emitted_in_order (fields : List φ) (htagged : ∀ f ∈ fields, tags f ≠ [])
    (hdisjoint : fields.Pairwise fun f g => (tags f).Disjoint (tags g)) :
    ∃ chunks, new fields = some chunks ∧
      (∀ parts f, .sortGroup parts ∈ chunks → .oneofPart f ∈ parts → firstTag f < lastTag f) ∧
      ∀ currentTag, ValidTags currentTag fields →
        ((encodeOrder currentTag chunks).filter fun f => (currentTag f).isSome).Perm
            (fields.filter fun f => (currentTag f).isSome) ∧
        ((encodeOrder currentTag chunks).filterMap currentTag).Pairwise (· < ·) ∧
        ((prependOrder currentTag chunks).filter fun f => (currentTag f).isSome).Perm
            (fields.filter fun f => (currentTag f).isSome) ∧
        ((prependOrder currentTag chunks).filterMap currentTag).Pairwise (· > ·) ∧
        ∀ emit : φ → List Record, (∀ f, ∀ r ∈ emit f, currentTag f = some r.tag) → ∀ buf,
          let written := wireRecords 0 ((encodeOrder currentTag chunks).flatMap emit)
          (∃ tw, TagWriter.new.encodeRecords ((encodeOrder currentTag chunks).flatMap emit) =
            some (written, tw)) ∧
          (∃ tm, TagMeasurer.recordsLen (.runtime 0)
              ((encodeOrder currentTag chunks).flatMap emit) = some (written.length, tm)) ∧
          ∃ buf' tw, TagRevWriter.new.prependRecords buf
              ((prependOrder currentTag chunks).flatMap fun f => (emit f).reverse) =
                some (buf', tw) ∧
            tw.finalize buf' = written ++ buf := by
  obtain ⟨chunks, hnew, hok, hperm⟩ := new_chunksOk htagged hdisjoint
  refine ⟨chunks, hnew, fun parts f hparts hf => ?_, fun currentTag hv => ?_⟩
  · exact ((hok.groups parts hparts).parts_ok _ hf).oneof f rfl
  have hv : ValidTags currentTag (chunkFields chunks) := fun f hf => hv f (hperm.subset hf)
  have hemits := hok.emits hv
  have hforward := (encodeOrder_perm currentTag chunks).trans (hperm.filter _)
  have hascending : ((encodeOrder currentTag chunks).filterMap currentTag).Pairwise (· < ·) :=
    List.pairwise_filterMap.mpr (hemits.imp fun h s hs t ht => h s hs t ht)
  rw [hok.prependOrder_eq hv]
  refine ⟨hforward, hascending, ?_, ?_, fun emit hemit buf => ?_⟩
  · rw [List.filter_reverse]
    exact (List.reverse_perm _).trans hforward
  · rw [List.filterMap_reverse]
    exact List.pairwise_reverse.mpr hascending
  · exact writers_of_emits hemit hemits buf

end

/-- A field that is nothing but its tags. -/
instance : Tagged (List Nat) := ⟨id⟩

/-- Two oneofs that straddle each other and three plain fields, with the last
variant of each oneof set. -/
theorem interleaved_oneofs_emitted :
    ∃ chunks, new [[1, 8], [4], [2, 6], [5], [9]] = some chunks ∧
      ((encodeOrder List.getLast? chunks).filterMap List.getLast?).Pairwise (· < ·) := by
  obtain ⟨chunks, hnew, -, h⟩ :=
    fields_emitted_in_order [[1, 8], [4], [2, 6], [5], [9]] (by decide) (by simp [tags])
  have hvalid : ValidTags List.getLast? [[1, 8], [4], [2, 6], [5], [9]] :=
    fun f _ t ht => List.mem_of_getLast? ht
  exact ⟨chunks, hnew, (h List.getLast? hvalid).2.1⟩

end MessageFieldsSorted

end Bilrost
