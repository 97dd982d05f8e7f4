import Bilrost.Derive.SortGroups

/-!
The invariant of the planner's loop. Between two fields the planner holds the
chunks it has closed, one open sort group (perhaps empty) and the tags that the
fields of that group may still put between later fields. The open group stays
well formed because a tag of an earlier field is either known to the planner or
below every tag of the fields that follow.
-/

namespace Bilrost

open Tagged

namespace MessageFieldsSorted

variable {φ : Type}

/-- The fields of a list of parts. -/
def partFields (parts : List (SortGroupPart φ)) : List φ :=
  parts.flatMap SortGroupPart.fields

@[simp] theorem partFields_append (parts parts' : List (SortGroupPart φ)) :
    partFields (parts ++ parts') = partFields parts ++ partFields parts' :=
  List.flatMap_append

@[simp] theorem partFields_oneofPart (f : φ) : partFields [.oneofPart f] = [f] := rfl

@[simp] theorem partFields_contiguous (run : List φ) :
    partFields [.contiguous run] = run := by
  simp [partFields, SortGroupPart.fields]

theorem mem_partFields {parts : List (SortGroupPart φ)} {p : SortGroupPart φ} {f : φ}
    (hp : p ∈ parts) (hf : f ∈ p.fields) : f ∈ partFields parts :=
  List.mem_flatMap.mpr ⟨p, hp, hf⟩

/-- The parts of the open sort group, with the run being collected as the last. -/
def Planner.openParts (st : Planner φ) : List (SortGroupPart φ) :=
  st.flushContiguous.currentSortGroup

@[simp] theorem flushContiguous_sortGroup (st : Planner φ) :
    st.flushContiguous.currentSortGroup = st.openParts := rfl

@[simp] theorem flushContiguous_chunks (st : Planner φ) :
    st.flushContiguous.chunks = st.chunks := by
  unfold Planner.flushContiguous
  split <;> rfl

@[simp] theorem flushContiguous_oneofTags (st : Planner φ) :
    st.flushContiguous.sortGroupOneofTags = st.sortGroupOneofTags := by
  unfold Planner.flushContiguous
  split <;> rfl

@[simp] theorem flushContiguous_contiguous (st : Planner φ) :
    st.flushContiguous.currentContiguousGroup = [] := by
  unfold Planner.flushContiguous
  split
  · simp_all
  · rfl

@[simp] theorem openParts_mk (chunks : List (FieldChunk φ)) (run : List φ)
    (group : List (SortGroupPart φ)) (T : List Nat) :
    Planner.openParts ⟨chunks, run, group, T⟩ =
      if run = [] then group else group ++ [.contiguous run] := by
  by_cases hrun : run = []
  · simp [Planner.openParts, Planner.flushContiguous, hrun, -flushContiguous_sortGroup]
  · simp [Planner.openParts, Planner.flushContiguous, hrun, -flushContiguous_sortGroup]

theorem openParts_of_empty {st : Planner φ} (h : st.currentContiguousGroup = []) :
    st.openParts = st.currentSortGroup := by
  simp [Planner.openParts, Planner.flushContiguous, h, -flushContiguous_sortGroup]

theorem openParts_of_ne {st : Planner φ} (h : st.currentContiguousGroup ≠ []) :
    st.openParts = st.currentSortGroup ++ [.contiguous st.currentContiguousGroup] := by
  simp [Planner.openParts, Planner.flushContiguous, h, -flushContiguous_sortGroup]

variable [Tagged φ]

/-- Fields as the planner goes through them: none without tags, no tag in two
fields, and sorted by first tag. -/
structure Arranged (fields : List φ) : Prop where
  tagged : ∀ f ∈ fields, tags f ≠ []
  disjoint : fields.Pairwise fun f g => (tags f).Disjoint (tags g)
  ascending : fields.Pairwise fun f g => firstTag f ≤ firstTag g

theorem Arranged.of_append_right {fs gs : List φ} (h : Arranged (fs ++ gs)) : Arranged gs where
  tagged f hf := h.tagged f (List.mem_append_right _ hf)
  disjoint := (List.pairwise_append.mp h.disjoint).2.1
  ascending := (List.pairwise_append.mp h.ascending).2.1

/-- A field with no tag beyond the first tag of the next field has no tag
beyond any tag of any later field. -/
theorem Arranged.before_of_not_overlaps {f : φ} {rest : List φ} (h : Arranged (f :: rest))
    (hno : overlaps f rest.head? = false) : ∀ g ∈ rest, Before f g := by
  intro g hg s hs t ht
  obtain ⟨next, rest, rfl⟩ := List.exists_cons_of_ne_nil (List.ne_nil_of_mem hg)
  have hlast : lastTag f ≤ firstTag next := by simpa [overlaps] using hno
  have hnext : firstTag next ≤ firstTag g := by
    rcases List.mem_cons.mp hg with rfl | hg
    · exact Nat.le_refl _
    · exact (List.pairwise_cons.mp (List.pairwise_cons.mp h.ascending).2).1 g hg
  have hle : s ≤ t := (le_lastTag hs).trans (hlast.trans (hnext.trans (firstTag_le ht)))
  have hne : s ≠ t := fun heq => (List.pairwise_cons.mp h.disjoint).1 g hg hs (heq ▸ ht)
  exact Nat.lt_of_le_of_ne hle hne

/-- A field that overlaps the next has more than one tag. -/
theorem Arranged.lt_lastTag_of_overlaps {f : φ} {rest : List φ} (h : Arranged (f :: rest))
    (hover : overlaps f rest.head? = true) : firstTag f < lastTag f := by
  cases rest with
  | nil => simp [overlaps] at hover
  | cons next rest =>
    have hlast : firstTag next < lastTag f := by simpa [overlaps] using hover
    have hfirst := (List.pairwise_cons.mp h.ascending).1 next (by simp)
    exact hfirst.trans_lt hlast

/-- What the planner knows of a tag of `f` when it places the later field `g`:
it is in the set of oneof tags, or below everything in `g`. -/
def Known (oneofTags : List Nat) (f g : φ) : Prop :=
  ∀ t ∈ tags f, t ∈ oneofTags ∨ ∀ s ∈ tags g, t < s

theorem Known.mono {T T' : List Nat} (hsub : T ⊆ T') {f g : φ} (h : Known T f g) :
    Known T' f g :=
  fun t ht => (h t ht).imp_left fun hT => hsub hT

theorem Before.known {f g : φ} (T : List Nat) (h : Before f g) : Known T f g :=
  fun t ht => .inr (h t ht)

/-- The open sort group, with the fields that are still to come. The planner's
set holds no tags but those of the group. -/
structure OpenOk (parts : List (SortGroupPart φ)) (oneofTags : List Nat) (rest : List φ) :
    Prop where
  group : GroupOk parts
  runs_before : ∀ run, .contiguous run ∈ parts → ∀ f ∈ run, ∀ g ∈ rest, Before f g
  known : (partFields parts).Pairwise (Known oneofTags)
  known_rest : ∀ f ∈ partFields parts, ∀ g ∈ rest, Known oneofTags f g
  owned : ∀ t ∈ oneofTags, ∃ f ∈ partFields parts, t ∈ tags f

theorem OpenOk.empty (rest : List φ) : OpenOk ([] : List (SortGroupPart φ)) [] rest where
  group := ⟨by simp, List.Pairwise.nil⟩
  runs_before := by simp
  known := List.Pairwise.nil
  known_rest := by simp [partFields]
  owned := by simp

theorem GroupOk.append_part {parts : List (SortGroupPart φ)} {q : SortGroupPart φ}
    (h : GroupOk parts) (hq : PartOk q) (hapart : ∀ p ∈ parts, Apart p q) :
    GroupOk (parts ++ [q]) where
  parts_ok p hp := by
    rcases List.mem_append.mp hp with hp | hp
    · exact h.parts_ok p hp
    · exact List.mem_singleton.mp hp ▸ hq
  apart := by
    refine List.pairwise_append.mpr ⟨h.apart, List.pairwise_singleton _ _, ?_⟩
    intro p hp q' hq'
    exact List.mem_singleton.mp hq' ▸ hapart p hp

theorem PartOk.single {p : SortGroupPart φ} {f : φ} (hp : p.fields = [f]) (hf : tags f ≠ [])
    (honeof : ∀ g, p = .oneofPart g → firstTag g < lastTag g) : PartOk p where
  nonempty := by simp [hp]
  ordered := by simp [hp]
  tagged := by simpa [hp] using hf
  oneof := honeof

section
variable {parts : List (SortGroupPart φ)} {T T' : List Nat} {f : φ} {rest : List φ}

/-- A field still to come has no tag in common with the fields of the group. -/
theorem Arranged.disjoint_of_mem (harr : Arranged (partFields parts ++ f :: rest))
    {p : SortGroupPart φ} (hp : p ∈ parts) {g : φ} (hg : g ∈ p.fields) :
    (tags g).Disjoint (tags f) :=
  (List.pairwise_append.mp harr.disjoint).2.2 g (mem_partFields hp hg) f (by simp)

theorem OpenOk.precedes (h : OpenOk parts T (f :: rest)) {p q : SortGroupPart φ} (hp : p ∈ parts)
    (hq : q.fields = [f]) : PrecedesPart p q := by
  cases p with
  | oneofPart g => trivial
  | contiguous run =>
    intro c hc g hg
    rw [hq] at hg
    exact List.mem_singleton.mp hg ▸ h.runs_before run hp c hc f (by simp)

/-- The known-ness of the fields after one more is placed. -/
theorem OpenOk.known_append (h : OpenOk parts T (f :: rest)) (hsub : T ⊆ T')
    (hf : ∀ g ∈ rest, Known T' f g) :
    (partFields parts ++ [f]).Pairwise (Known T') ∧
      ∀ c ∈ partFields parts ++ [f], ∀ g ∈ rest, Known T' c g := by
  constructor
  · refine List.pairwise_append.mpr
      ⟨h.known.imp fun hk => hk.mono hsub, List.pairwise_singleton _ _, fun c hc g hg => ?_⟩
    exact (h.known_rest c hc g (by simp_all)).mono hsub
  · intro c hc g hg
    rcases List.mem_append.mp hc with hc | hc
    · exact (h.known_rest c hc g (List.mem_cons_of_mem _ hg)).mono hsub
    · exact List.mem_singleton.mp hc ▸ hf g hg

theorem OpenOk.owned_append (h : OpenOk parts T (f :: rest))
    (hT : ∀ t ∈ T', t ∈ T ∨ t ∈ tags f) :
    ∀ t ∈ T', ∃ g ∈ partFields parts ++ [f], t ∈ tags g := by
  intro t ht
  rcases hT t ht with ht | ht
  · obtain ⟨g, hg, hgt⟩ := h.owned t ht
    exact ⟨g, List.mem_append_left _ hg, hgt⟩
  · exact ⟨f, by simp, ht⟩

/-- A oneof is placed on its own. -/
theorem OpenOk.push_oneof (h : OpenOk parts T (f :: rest))
    (harr : Arranged (partFields parts ++ f :: rest)) (honeof : firstTag f < lastTag f)
    (hsub : T ⊆ T') (hT : ∀ t ∈ T', t ∈ T ∨ t ∈ tags f) (hf : ∀ g ∈ rest, Known T' f g) :
    OpenOk (parts ++ [.oneofPart f]) T' rest := by
  obtain ⟨hknown, hknown'⟩ := h.known_append hsub hf
  have hpart : PartOk (.oneofPart f) := by
    refine .single rfl (harr.tagged f (by simp)) ?_
    rintro g ⟨⟩
    exact honeof
  refine ⟨h.group.append_part hpart fun p hp => ?_, ?_, by simpa using hknown,
    by simpa using hknown', by simpa using h.owned_append hT⟩
  · refine ⟨h.precedes hp rfl, trivial, fun g hg f' hf' => ?_⟩
    obtain rfl := List.mem_singleton.mp hf'
    exact harr.disjoint_of_mem hp hg
  · intro run hrun c hc g hg
    have hrun : .contiguous run ∈ parts := by simpa using hrun
    exact h.runs_before run hrun c hc g (List.mem_cons_of_mem _ hg)

/-- A field with tags of the group among its own has more than one tag. -/
theorem OpenOk.lt_lastTag_of_anyTagIn (h : OpenOk parts T (f :: rest))
    (harr : Arranged (partFields parts ++ f :: rest))
    (hin : anyTagIn T (firstTag f) (lastTag f) = true) : firstTag f < lastTag f := by
  have hf : firstTag f ∈ tags f := firstTag_mem (harr.tagged f (by simp))
  obtain ⟨t, ht, hrange⟩ := List.any_eq_true.mp hin
  obtain ⟨hlow, hhigh⟩ : firstTag f ≤ t ∧ t ≤ lastTag f := by simpa using hrange
  obtain ⟨g, hg, htg⟩ := h.owned t ht
  have hne : t ≠ firstTag f := fun heq =>
    (List.pairwise_append.mp harr.disjoint).2.2 g hg f (by simp) htg (heq ▸ hf)
  omega

/-- A tag that the planner keeps in its set and that is not in the range of a
field is outside the field. -/
theorem outside_of_not_anyTagIn {t : Nat} (hno : anyTagIn T (firstTag f) (lastTag f) = false)
    (ht : t ∈ T ∨ ∀ s ∈ tags f, t < s) : Outside t [f] := by
  simp only [Outside, List.mem_singleton, forall_eq]
  rcases ht with ht | ht
  · have hout : t < firstTag f ∨ lastTag f < t := by
      have := List.any_eq_false.mp hno t ht
      simp only [Bool.and_eq_true, decide_eq_true_eq, not_and, not_le] at this
      exact (Nat.lt_or_ge t (firstTag f)).imp_right this
    exact hout.imp (fun hlt s hs => hlt.trans_le (firstTag_le hs))
      (fun hgt s hs => (le_lastTag hs).trans_lt hgt)
  · exact .inl ht

/-- A field that nothing interferes with starts a run. -/
theorem OpenOk.push_run (h : OpenOk parts T (f :: rest))
    (harr : Arranged (partFields parts ++ f :: rest)) (hbefore : ∀ g ∈ rest, Before f g)
    (hno : anyTagIn T (firstTag f) (lastTag f) = false) :
    OpenOk (parts ++ [.contiguous [f]]) T rest := by
  obtain ⟨hknown, hknown'⟩ :=
    h.known_append (List.Subset.refl T) fun g hg => (hbefore g hg).known T
  refine ⟨h.group.append_part (.single rfl (harr.tagged f (by simp)) (by simp)) fun p hp => ?_, ?_,
    by simpa using hknown, by simpa using hknown', by simpa using h.owned_append fun t => .inl⟩
  · refine ⟨h.precedes hp rfl, fun g hg t ht => ?_, fun g hg f' hf' => ?_⟩
    · exact outside_of_not_anyTagIn hno (h.known_rest g (mem_partFields hp hg) f (by simp) t ht)
    · obtain rfl := List.mem_singleton.mp hf'
      exact harr.disjoint_of_mem hp hg
  · intro run hrun c hc g hg
    rcases List.mem_append.mp hrun with hrun | hrun
    · exact h.runs_before run hrun c hc g (List.mem_cons_of_mem _ hg)
    · obtain rfl : run = [f] := by simpa using hrun
      exact List.mem_singleton.mp hc ▸ hbefore g hg

/-- A tag outside a run, and not between the run and the next field, is outside
the run that has that field too. -/
theorem outside_extend {run : List φ} {last : φ} {t : Nat} (hlast : last ∈ run)
    (hrun : ∀ c ∈ run, Before c f) (htagged : ∀ c ∈ run, tags c ≠ []) (hf : tags f ≠ [])
    (hgap : anyTagIn T (lastTag last) (firstTag f) = false)
    (hno : anyTagIn T (firstTag f) (lastTag f) = false)
    (hknown : t ∈ T ∨ ∀ s ∈ tags last, t < s) (hout : Outside t run) :
    Outside t (run ++ [f]) := by
  obtain ⟨s, hs⟩ := List.exists_mem_of_ne_nil _ (htagged last hlast)
  rcases hout with hlow | hhigh
  · refine .inl fun c hc u hu => ?_
    rcases List.mem_append.mp hc with hc | hc
    · exact hlow c hc u hu
    · obtain rfl := List.mem_singleton.mp hc
      exact (hlow last hlast s hs).trans (hrun last hlast s hs u hu)
  · -- the planner knows this tag, since it is not below the run
    have hT : t ∈ T := hknown.resolve_right fun hlt =>
      absurd (hlt s hs) (Nat.not_lt.mpr (hhigh last hlast s hs).le)
    have hafter : firstTag f < t := by
      have := List.any_eq_false.mp hgap t hT
      have hl := hhigh last hlast _ (lastTag_mem (htagged last hlast))
      simp only [Bool.and_eq_true, decide_eq_true_eq, not_and, not_le] at this
      exact this hl.le
    refine .inr fun c hc u hu => ?_
    rcases List.mem_append.mp hc with hc | hc
    · exact hhigh c hc u hu
    · rcases outside_of_not_anyTagIn hno (.inl hT) with hlow | hhigh'
      · exact absurd (hlow f (by simp) _ (firstTag_mem hf)) (Nat.not_lt.mpr hafter.le)
      · exact hhigh' c hc u hu

/-- A field that nothing interferes with joins the run before it. -/
theorem OpenOk.extend_run {run : List φ} {last : φ}
    (h : OpenOk (parts ++ [.contiguous run]) T (f :: rest))
    (harr : Arranged (partFields (parts ++ [.contiguous run]) ++ f :: rest))
    (hbefore : ∀ g ∈ rest, Before f g) (hlast : last ∈ run)
    (hgap : anyTagIn T (lastTag last) (firstTag f) = false)
    (hno : anyTagIn T (firstTag f) (lastTag f) = false) :
    OpenOk (parts ++ [.contiguous (run ++ [f])]) T rest := by
  have hf : tags f ≠ [] := harr.tagged f (by simp)
  have hgroup := List.pairwise_append.mp h.group.apart
  have hrunOk : PartOk (.contiguous run) := h.group.parts_ok _ (by simp)
  have hrun : ∀ c ∈ run, Before c f := fun c hc => h.runs_before run (by simp) c hc f (by simp)
  have hknown := List.pairwise_append.mp (by simpa using h.known)
  obtain ⟨hknown', hknown''⟩ :=
    h.known_append (List.Subset.refl T) fun g hg => (hbefore g hg).known T
  refine ⟨GroupOk.append_part ⟨fun p hp => h.group.parts_ok p (by simp [hp]), hgroup.1⟩ ?_ ?_, ?_,
    by simpa using hknown', by simpa using hknown'',
    by simpa using h.owned_append fun t => .inl⟩
  · refine ⟨by simp [SortGroupPart.fields], ?_, ?_, by simp⟩
    · exact List.pairwise_append.mpr ⟨hrunOk.ordered, List.pairwise_singleton _ _,
        fun c hc g hg => List.mem_singleton.mp hg ▸ hrun c hc⟩
    · intro c hc
      rcases List.mem_append.mp hc with hc | hc
      · exact hrunOk.tagged c hc
      · exact List.mem_singleton.mp hc ▸ hf
  · intro p hp
    have hapart : Apart p (.contiguous run) := hgroup.2.2 p hp _ (by simp)
    refine ⟨?_, fun g hg t ht => ?_, fun g hg c hc => ?_⟩
    · cases p with
      | oneofPart g => trivial
      | contiguous run' =>
        intro c hc g hg
        rcases List.mem_append.mp hg with hg | hg
        · exact hapart.precedes c hc g hg
        · exact List.mem_singleton.mp hg ▸
            h.runs_before run' (by simp [hp]) c hc f (by simp)
    · exact outside_extend hlast hrun hrunOk.tagged hf hgap hno
        (hknown.2.2 g (mem_partFields hp hg) last hlast t ht) (hapart.clear g hg t ht)
    · rcases List.mem_append.mp hc with hc | hc
      · exact hapart.disjoint g hg c hc
      · exact List.mem_singleton.mp hc ▸ harr.disjoint_of_mem (by simp [hp]) hg
  · intro run' hrun' c hc g hg
    rcases List.mem_append.mp hrun' with hrun' | hrun'
    · exact h.runs_before run' (by simp [hrun']) c hc g (List.mem_cons_of_mem _ hg)
    · obtain rfl : run' = run ++ [f] := by simpa using hrun'
      rcases List.mem_append.mp hc with hc | hc
      · exact h.runs_before run (by simp) c hc g (List.mem_cons_of_mem _ hg)
      · exact List.mem_singleton.mp hc ▸ hbefore g hg

end

/-- The fields of the chunks closed so far. -/
def chunkFields (chunks : List (FieldChunk φ)) : List φ :=
  chunks.flatMap FieldChunk.fields

/-- Chunks of which each is in order, and all fields of one come before those
of the next. -/
structure ChunksOk (chunks : List (FieldChunk φ)) : Prop where
  groups : ∀ parts, .sortGroup parts ∈ chunks → GroupOk parts
  before : chunks.Pairwise fun c d => ∀ f ∈ c.fields, ∀ g ∈ d.fields, Before f g

theorem ChunksOk.append {chunks : List (FieldChunk φ)} {chunk : FieldChunk φ}
    (h : ChunksOk chunks) (hgroup : ∀ parts, chunk = .sortGroup parts → GroupOk parts)
    (hbefore : ∀ f ∈ chunkFields chunks, ∀ g ∈ chunk.fields, Before f g) :
    ChunksOk (chunks ++ [chunk]) where
  groups parts hparts := by
    rcases List.mem_append.mp hparts with hparts | hparts
    · exact h.groups parts hparts
    · exact hgroup parts (List.mem_singleton.mp hparts).symm
  before := by
    refine List.pairwise_append.mpr ⟨h.before, List.pairwise_singleton _ _, ?_⟩
    intro c hc d hd f hf g hg
    rw [List.mem_singleton.mp hd] at hg
    exact hbefore f (List.mem_flatMap.mpr ⟨c, hc, hf⟩) g hg

/-- What holds after a field is placed. -/
structure PlacedOk (all : List φ) (st : Planner φ) (rest : List φ) : Prop where
  arranged : Arranged all
  fields : chunkFields st.chunks ++ (partFields st.openParts ++ rest) = all
  chunks : ChunksOk st.chunks
  chunks_before :
    ∀ f ∈ chunkFields st.chunks, ∀ g ∈ partFields st.openParts ++ rest, Before f g
  opened : OpenOk st.openParts st.sortGroupOneofTags rest
  open_iff : st.sortGroupOneofTags = [] ↔ st.openParts = []

/-- What holds between two fields: an open sort group reaches beyond the next
field's first tag. -/
structure PlannerOk (all : List φ) (st : Planner φ) (rest : List φ) : Prop
    extends PlacedOk all st rest where
  reaches : ∀ sortGroupEnd ∈ st.sortGroupOneofTags.max?,
    ∃ next ∈ rest.head?, firstTag next < sortGroupEnd

section
variable {all : List φ} {st : Planner φ} {f : φ} {rest : List φ}

theorem PlacedOk.arranged_open (h : PlacedOk all st rest) :
    Arranged (partFields st.openParts ++ rest) :=
  (h.fields ▸ h.arranged).of_append_right

/-- A planner that has put one more field into its open sort group. -/
theorem PlacedOk.of_open {st' : Planner φ} (h : PlacedOk all st (f :: rest))
    (hchunks : st'.chunks = st.chunks)
    (hfields : partFields st'.openParts = partFields st.openParts ++ [f])
    (hopen : OpenOk st'.openParts st'.sortGroupOneofTags rest)
    (hne : st'.sortGroupOneofTags ≠ []) : PlacedOk all st' rest where
  arranged := h.arranged
  fields := by simpa [hchunks, hfields] using h.fields
  chunks := hchunks ▸ h.chunks
  chunks_before := by
    rw [hchunks, hfields, List.append_assoc]
    exact h.chunks_before
  opened := hopen
  open_iff := by
    refine iff_of_false hne fun hnil => ?_
    simp [hnil, partFields] at hfields

/-- A oneof whose tags are interleaved with others is a part of its own. -/
theorem PlacedOk.place_oneof (h : PlacedOk all st (f :: rest)) {T : List Nat} (hne : T ≠ [])
    (honeof : firstTag f < lastTag f) (hsub : st.sortGroupOneofTags ⊆ T)
    (hT : ∀ t ∈ T, t ∈ st.sortGroupOneofTags ∨ t ∈ tags f) (hf : ∀ g ∈ rest, Known T f g) :
    PlacedOk all
      { st.flushContiguous with
        sortGroupOneofTags := T
        currentSortGroup := st.flushContiguous.currentSortGroup ++ [.oneofPart f] } rest := by
  refine h.of_open (by simp) (by simp) ?_ hne
  simpa using h.opened.push_oneof h.arranged_open honeof hsub hT hf

/-- A field that nothing interferes with joins the run being collected, or
starts a new one where a oneof may emit a tag in between. -/
theorem PlacedOk.place_run (h : PlacedOk all st (f :: rest)) (hopen : st.sortGroupOneofTags ≠ [])
    (hbefore : ∀ g ∈ rest, Before f g)
    (hno : anyTagIn st.sortGroupOneofTags (firstTag f) (lastTag f) = false) {split : Bool}
    (hsplit : split = st.currentContiguousGroup.getLast?.any fun previous =>
      anyTagIn st.sortGroupOneofTags (lastTag previous) (firstTag f)) :
    PlacedOk all
      { (if split then st.flushContiguous else st) with
        currentContiguousGroup :=
          (if split then st.flushContiguous else st).currentContiguousGroup ++ [f] } rest := by
  have harr := h.arranged_open
  cases hrun : st.currentContiguousGroup.getLast? with
  | none =>
    have hnil : st.currentContiguousGroup = [] := List.getLast?_eq_none_iff.mp hrun
    obtain rfl : split = false := by simp [hsplit, hrun]
    refine h.of_open rfl (by simp [openParts_of_empty hnil, hnil]) ?_ hopen
    simpa [openParts_of_empty hnil, hnil] using h.opened.push_run harr hbefore hno
  | some last =>
    have hlast : last ∈ st.currentContiguousGroup := List.mem_of_getLast? hrun
    have hne : st.currentContiguousGroup ≠ [] := List.ne_nil_of_mem hlast
    cases split with
    | true =>
      refine h.of_open (by simp) (by simp) ?_ (by simpa using hopen)
      simpa using h.opened.push_run harr hbefore hno
    | false =>
      have hgap : anyTagIn st.sortGroupOneofTags (lastTag last) (firstTag f) = false := by
        simpa [hrun] using hsplit.symm
      have hopened := h.opened
      rw [openParts_of_ne hne] at harr hopened
      refine h.of_open rfl (by simp [openParts_of_ne hne]) ?_ hopen
      simpa using hopened.extend_run harr hbefore hlast hgap hno

/-- In an open sort group every field finds its place. -/
theorem PlannerOk.place_open (h : PlannerOk all st (f :: rest))
    (hopen : st.sortGroupOneofTags ≠ []) : PlacedOk all (st.place f rest.head?) rest := by
  obtain ⟨sortGroupEnd, hend⟩ : ∃ m, st.sortGroupOneofTags.max? = some m :=
    Option.isSome_iff_exists.mp (List.isSome_max?_of_ne_nil hopen)
  obtain ⟨next, hnext, hlt⟩ := h.reaches sortGroupEnd hend
  obtain rfl : f = next := by simpa using hnext
  have harr := h.arranged_open.of_append_right
  simp only [Planner.place, hend, Option.any_some, gt_iff_lt, hlt, decide_true, if_true]
  by_cases hover : overlaps f rest.head? = true
  · -- the field's own tags may fall between later fields
    rw [if_pos hover]
    simpa using h.place_oneof (T := st.sortGroupOneofTags ++ tags f) (by simp [hopen])
      (harr.lt_lastTag_of_overlaps hover) (by simp) (by simp) fun g _ t ht => .inl (by simp [ht])
  · have hbefore := harr.before_of_not_overlaps (by simpa using hover)
    rw [if_neg hover]
    by_cases hin : anyTagIn st.sortGroupOneofTags (firstTag f) (lastTag f) = true
    · rw [if_pos hin]
      simpa using h.place_oneof hopen (h.opened.lt_lastTag_of_anyTagIn h.arranged_open hin)
        (List.Subset.refl _) (fun t => .inl) fun g hg => (hbefore g hg).known _
    · rw [if_neg hin]
      exact h.place_run hopen hbefore (by simpa using hin) rfl

/-- Without an open sort group a field is in order by itself, or starts a group. -/
theorem PlannerOk.place_idle (h : PlannerOk all st (f :: rest))
    (hidle : st.sortGroupOneofTags = []) : PlacedOk all (st.place f rest.head?) rest := by
  have hparts := h.open_iff.mp hidle
  have harr := h.arranged_open
  simp only [Planner.place, hidle, List.max?_nil, Option.any_none, Bool.false_eq_true, if_false]
  have hrun : st.currentContiguousGroup = [] := by
    by_contra hne
    simp [openParts_of_ne hne] at hparts
  have hgroup : st.currentSortGroup = [] := (openParts_of_empty hrun).symm.trans hparts
  have hf : tags f ≠ [] := harr.tagged f (by simp)
  by_cases hover : overlaps f rest.head? = true
  · rw [if_pos hover]
    have := h.place_oneof hf (harr.of_append_right.lt_lastTag_of_overlaps hover) (by simp [hidle])
      (fun t => .inr) fun g _ t ht => .inl ht
    simpa [Planner.flushContiguous, hrun] using this
  · rw [if_neg hover]
    have hbefore := harr.of_append_right.before_of_not_overlaps (by simpa using hover)
    have hrest : ∀ g ∈ f :: rest, g ∈ partFields st.openParts ++ f :: rest :=
      fun g hg => List.mem_append_right _ hg
    refine ⟨h.arranged, ?_, h.chunks.append (by simp) ?_, ?_, ?_, by simp [hrun, hgroup]⟩
    · simpa [hrun, hgroup, hparts, chunkFields, partFields, FieldChunk.fields] using h.fields
    · intro c hc g hg
      obtain rfl := List.mem_singleton.mp hg
      exact h.chunks_before c hc _ (hrest _ (by simp))
    · intro c hc g hg
      have hg : g ∈ rest := by simpa [hrun, hgroup, partFields] using hg
      have hc : c ∈ chunkFields st.chunks ∨ c = f := by
        simpa [chunkFields, FieldChunk.fields] using hc
      rcases hc with hc | hc
      · exact h.chunks_before c hc g (hrest g (List.mem_cons_of_mem _ hg))
      · exact hc ▸ hbefore g hg
    · simpa [hrun, hgroup] using OpenOk.empty _

theorem PlannerOk.place (h : PlannerOk all st (f :: rest)) :
    PlacedOk all (st.place f rest.head?) rest := by
  by_cases hidle : st.sortGroupOneofTags = []
  · exact h.place_idle hidle
  · exact h.place_open hidle

/-- A sort group that reaches no tag of the rest comes before the rest. -/
theorem PlacedOk.open_before (h : PlacedOk all st rest)
    {sortGroupEnd : Nat} (hend : st.sortGroupOneofTags.max? = some sortGroupEnd)
    (hnext : rest.head?.any (fun next => firstTag next < sortGroupEnd) = false) :
    ∀ f ∈ partFields st.openParts, ∀ g ∈ rest, Before f g := by
  intro f hf g hg t ht s hs
  have harr := h.arranged_open
  rcases h.opened.known_rest f hf g hg t ht with hT | hlt
  · obtain ⟨next, rest, rfl⟩ := List.exists_cons_of_ne_nil (List.ne_nil_of_mem hg)
    have hnext : sortGroupEnd ≤ firstTag next := by simpa using hnext
    have hfirst : firstTag next ≤ firstTag g := by
      rcases List.mem_cons.mp hg with rfl | hg
      · exact Nat.le_refl _
      · exact (List.pairwise_cons.mp harr.of_append_right.ascending).1 g hg
    have hle : t ≤ s := ((List.max?_eq_some_iff.mp hend).2 t hT).trans
      (hnext.trans (hfirst.trans (firstTag_le hs)))
    have hne : t ≠ s := fun heq =>
      (List.pairwise_append.mp harr.disjoint).2.2 f hf g hg ht (heq ▸ hs)
    exact Nat.lt_of_le_of_ne hle hne
  · exact hlt s hs

theorem PlacedOk.close (h : PlacedOk all st rest) :
    ∃ st', st.close rest.head? = some st' ∧ PlannerOk all st' rest := by
  unfold Planner.close
  cases hend : st.sortGroupOneofTags.max? with
  | none => exact ⟨st, rfl, h, by simp [hend]⟩
  | some sortGroupEnd =>
    simp only
    by_cases hnext : rest.head?.any (fun next => firstTag next < sortGroupEnd) = true
    · rw [if_pos hnext]
      refine ⟨st, rfl, h, fun m hm => ?_⟩
      obtain rfl : sortGroupEnd = m := by simpa [hend] using hm
      simpa [Option.any_eq_true] using hnext
    · have hne : st.openParts ≠ [] := by
        intro hnil
        simp [h.open_iff.mpr hnil] at hend
      have hbefore := h.open_before hend (by simpa using hnext)
      rw [if_neg hnext]
      simp only [flushContiguous_sortGroup, flushContiguous_chunks, flushContiguous_contiguous]
      rw [if_neg (by simpa using hne)]
      refine ⟨_, rfl, ⟨h.arranged, ?_, h.chunks.append ?_ ?_, ?_, ?_, by simp⟩, by simp⟩
      · simpa [chunkFields, FieldChunk.fields, partFields] using h.fields
      · rintro parts ⟨⟩
        exact h.opened.group
      · intro c hc g hg
        exact h.chunks_before c hc g (List.mem_append_left _ hg)
      · intro c hc g hg
        have hg : g ∈ rest := by simpa [partFields] using hg
        have hc : c ∈ chunkFields st.chunks ∨ c ∈ partFields st.openParts := by
          simpa [chunkFields, FieldChunk.fields, partFields] using hc
        rcases hc with hc | hc
        · exact h.chunks_before c hc g (List.mem_append_right _ hg)
        · exact hbefore c hc g hg
      · simpa using OpenOk.empty _

/-- The loop places every field and closes every group. -/
theorem PlannerOk.run (h : PlannerOk all st rest) :
    ∃ st', st.run rest = some st' ∧ PlannerOk all st' [] := by
  induction rest generalizing st with
  | nil => exact ⟨st, rfl, h⟩
  | cons f rest ih =>
    obtain ⟨st', hclose, h'⟩ := h.place.close
    obtain ⟨st'', hrun, h''⟩ := ih h'
    exact ⟨st'', by simp [Planner.run, hclose, hrun], h''⟩

end

end MessageFieldsSorted

end Bilrost
