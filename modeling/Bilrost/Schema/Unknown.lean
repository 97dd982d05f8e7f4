import Bilrost.Schema.Walks

/-!
Fields that a message does not know. They are skipped together with all that
repeats them. What is decoded from some records is what is decoded from those of
them that the message knows, wherever the others stand.
-/

namespace Bilrost

open Program

namespace MessageCodec

variable {M : Type} {codec : MessageCodec M}

/-- A message knows no field of a tag: whatever is found there is skipped. -/
def Ignores (codec : MessageCodec M) (tag : Nat) : Prop :=
  ∀ ⦃way mode depth wireType dup m bytes x rest⦄,
    (codec.fieldBy way mode depth tag wireType dup m).Parses bytes x rest ↔
      (way.skipUnknown wireType m).Parses bytes x rest

theorem Ignores.parses_iff {tag depth : Nat} (h : codec.Ignores tag) {way : Way}
    {mode : DecodingMode} {wireType : WireType} {dup : Bool} {m : M} {bytes rest : Bytes}
    {x : M × Canonicity} :
    (codec.fieldBy way mode depth tag wireType dup m).Parses bytes x rest ↔
      (skipField wireType).Parses bytes () rest ∧ x = (m, way.extension) :=
  Iff.trans (by apply h) Way.parses_skipUnknown

/-- What is skipped is skipped as a whole. -/
theorem Ignores.reachesAt {tag : Nat} (h : codec.Ignores tag) (wireType : WireType) :
    codec.ReachesAt tag wireType := by
  intro way mode depth dup m bytes x rest hparse
  obtain ⟨taken, rfl, hextent, hmore⟩ := way.reaches_skipUnknown tag wireType m (h.mp hparse)
  exact ⟨taken, rfl, hextent, fun rest' hrest' => h.mpr (hmore hrest')⟩

end MessageCodec

/-- A derived message ignores the tags that none of its fields has. -/
theorem Fields.ignores {M : Type} {F : Fields M} {w : F.Writing} {tag : Nat}
    (h : F.fieldOf tag = none) : (F.message w).Ignores tag := by
  intro way mode depth wireType dup m bytes x rest
  rw [message_fieldBy, h]

theorem MessageCodec.SameTo.ignores {M : Type} {codec : MessageCodec M}
    {approx : Nat → MessageCodec M} {tag : Nat} (hsame : ∀ depth, codec.SameTo depth (approx depth))
    (h : ∀ depth, (approx depth).Ignores tag) : codec.Ignores tag := by
  intro way mode depth wireType dup m bytes x rest
  rw [(hsame depth).fieldBy way mode le_rfl]
  apply h depth

/-- The fields that are known. -/
def kept (known : Nat → Bool) (records : List Record) : List Record :=
  records.filter fun r => known r.tag

/-- The canonicity of some fields with those in them that are not known. -/
def Way.extensions (way : Way) (known : Nat → Bool) (records : List Record) : Canonicity :=
  if records.all fun r => known r.tag then .canonical else way.extension

/-- Two places in loops over fields, of which one has skipped some more: they
agree on which of the known fields are repeated. -/
structure InStep (known : Nat → Bool) (last : Nat) (lastTag : Option Nat) (last' : Nat)
    (lastTag' : Option Nat) : Prop where
  le : last' ≤ last
  behind : ∀ tag ∈ lastTag, tag ≤ last
  agrees : ∀ tag, known tag = true → last ≤ tag → (lastTag' == some tag) = (lastTag == some tag)

section
variable {known : Nat → Bool} {way : Way} {last last' tag : Nat} {lastTag lastTag' : Option Nat}
  {r : Record} {records run rest : List Record}

theorem InStep.start : InStep known 0 none 0 none := ⟨le_rfl, by simp, fun _ _ _ => rfl⟩

theorem InStep.same (tag : Nat) : InStep known tag (some tag) tag (some tag) :=
  ⟨le_rfl, by simp, fun _ _ _ => rfl⟩

theorem InStep.skip (h : InStep known last lastTag last' lastTag') (hle : last ≤ tag)
    (htag : known tag = false) : InStep known tag (some tag) last' lastTag' where
  le := h.le.trans hle
  behind := by simp
  agrees tag' hknown hle' := by
    have hne : tag ≠ tag' := by
      rintro rfl
      exact absurd hknown (by simp [htag])
    rw [h.agrees tag' hknown (hle.trans hle'), beq_eq_false_iff_ne.mpr fun heq => ?_,
      beq_eq_false_iff_ne.mpr fun heq => hne (Option.some.inj heq)]
    have hbehind := h.behind tag' heq
    omega

theorem kept_cons_known (h : known r.tag = true) :
    kept known (r :: records) = r :: kept known records := by
  simp [kept, h]

theorem kept_cons_unknown (h : known r.tag = false) :
    kept known (r :: records) = kept known records := by
  simp [kept, h]

theorem kept_append : kept known (records ++ rest) = kept known records ++ kept known rest :=
  List.filter_append ..

theorem kept_sublist : (kept known records).Sublist records := List.filter_sublist

theorem Repeats.kept_known (h : Repeats tag run) (htag : known tag = true) :
    kept known run = run := by
  rw [kept, List.filter_eq_self]
  intro r hr
  rw [(h r hr).1, htag]

theorem Repeats.kept_unknown (h : Repeats tag run) (htag : known tag = false) :
    kept known run = [] := by
  rw [kept, List.filter_eq_nil_iff]
  intro r hr
  rw [(h r hr).1, htag]
  exact Bool.false_ne_true

theorem Way.extensions_cons_unknown (h : known r.tag = false) :
    way.extensions known (r :: records) = way.extension := by
  simp [extensions, h]

theorem Way.extensions_append_known (h : ∀ r ∈ run, known r.tag = true) :
    way.extensions known (run ++ rest) = way.extensions known rest := by
  have hrun : (run.all fun r => known r.tag) = true := List.all_eq_true.mpr h
  rw [extensions, extensions, List.all_append, hrun, Bool.true_and]

/-- Skipping once or more often is the same. -/
theorem Way.extension_update_extensions (way : Way) (records : List Record) (own : Canonicity) :
    way.extension.update (own.update (way.extensions known records)) =
      own.update way.extension := by
  unfold extensions
  split_ifs
  · rw [Canonicity.update_canonical, Canonicity.update, Canonicity.update, min_comm]
  · unfold Canonicity.update
    rw [min_comm, min_assoc, min_self]

/-- The known fields among some, from the front. -/
theorem exists_of_filter_eq_append (hascending : Ascending tag records) (hknown : known tag = true)
    (hrun : ∀ r ∈ run, r.tag = tag)
    (heq : (kept known records) = run ++ rest) :
    ∃ rest', records = run ++ rest' ∧ kept known rest' = rest := by
  induction run generalizing records with
  | nil => exact ⟨records, rfl, heq⟩
  | cons r run ih =>
      obtain ⟨htag, hmoretags⟩ := List.forall_mem_cons.mp hrun
      cases records with
      | nil => cases heq
      | cons r' records =>
          cases hr' : known r'.tag with
          | true =>
              rw [kept_cons_known hr'] at heq
              obtain ⟨rfl, hmore⟩ := List.cons.inj heq
              have hascending' : Ascending tag records := htag ▸ hascending.2
              obtain ⟨rest', rfl, hrest⟩ := ih hascending' hmoretags hmore
              exact ⟨rest', rfl, hrest⟩
          | false =>
              -- a field that is not known has a higher tag, and all behind it as well
              rw [kept_cons_unknown hr'] at heq
              have hmem : r ∈ records := by
                apply kept_sublist.subset
                rw [heq]
                exact List.mem_cons_self
              have hle : r'.tag ≤ r.tag := hascending.2.le r hmem
              obtain rfl : r'.tag = tag := le_antisymm (htag ▸ hle) hascending.1
              rw [hr'] at hknown
              cases hknown

end

namespace MessageCodec

variable {M : Type} {codec : MessageCodec M} {way : Way} {mode : DecodingMode} {m m' : M}
  {depth last last' : Nat} {lastTag lastTag' : Option Nat} {canon : Canonicity}
  {known : Nat → Bool} {records : List Record}

/-- What is decoded from some fields is decoded from those of them that the
message knows. -/
theorem Regular.walks_known (h : codec.Regular)
    (hreaches : ∀ r ∈ records, codec.ReachesAt r.tag r.wireType)
    (hignores : ∀ tag, known tag = false → codec.Ignores tag) (hfits : Fits last records)
    (hstep : InStep known last lastTag last' lastTag')
    (hwalks : codec.Walks way mode depth last lastTag m records m' canon) :
    ∃ own, codec.Walks way mode depth last' lastTag' m (kept known records) m'
      own ∧ canon = own.update (way.extensions known records) := by
  induction hn : records.length using Nat.strongRecOn generalizing last lastTag last' lastTag' m
    records canon with
  | ind n ih =>
      cases records with
      | nil =>
          obtain ⟨rfl, rfl⟩ := walks_nil.mp hwalks
          exact ⟨.canonical, walks_nil.mpr ⟨rfl, rfl⟩, rfl⟩
      | cons r records =>
          obtain ⟨hle, htag, hcomplete, hmore⟩ := Fits.cons_iff.mp hfits
          obtain ⟨hfirst, hothers⟩ := List.forall_mem_cons.mp hreaches
          obtain ⟨run, rest, decoded, own, rfl, hrun, hfield, hown, rfl⟩ :=
            h.exists_of_walks_cons hfirst hfits hwalks
          replace hothers := (List.forall_mem_append.mp hothers).2
          have hlt : rest.length < n := by
            rw [← hn, List.length_cons, List.length_append]
            omega
          have hrest : Fits r.tag rest := hmore.append_right
          cases hr : known r.tag with
          | false =>
              obtain ⟨-, rfl⟩ := (hignores r.tag hr).parses_iff.mp (hfield _ id)
              obtain ⟨own', hfiltered, rfl⟩ := ih _ hlt hothers hrest (hstep.skip hle hr) hown rfl
              refine ⟨own', ?_, ?_⟩
              · rw [kept_cons_unknown hr, kept_append, hrun.kept_unknown hr]
                exact hfiltered
              · rw [Way.extensions_cons_unknown hr, Way.extension_update_extensions]
          | true =>
              obtain ⟨own', hfiltered, rfl⟩ := ih _ hlt hothers hrest (.same r.tag) hown rfl
              have hknown : ∀ r' ∈ r :: run, known r'.tag = true := by
                rw [List.forall_mem_cons]
                exact ⟨hr, fun r' hr' => (hrun r' hr').1 ▸ hr⟩
              have hfits' : Fits last' (r :: (run ++ kept known rest)) := by
                apply (hfits.mono hstep.le).sublist
                exact ((List.Sublist.refl run).append kept_sublist).cons_cons r
              refine ⟨decoded.2.update own', ?_, ?_⟩
              · rw [kept_cons_known hr, kept_append, hrun.kept_known hr]
                apply h.walks_cons hfits' hrun _ hfiltered
                rw [hstep.agrees r.tag hr hle]
                apply hfield
                intro hstop
                apply noRepeat_wireRecords
                intro r' hr'
                exact hrest.noRepeat_iff.mp hstop r' (kept_sublist.subset hr')
              · rw [← List.cons_append, Way.extensions_append_known hknown,
                  Canonicity.update_assoc]

/-- What is decoded from the fields that a message knows is decoded from them
with any others in between. -/
theorem Regular.walks_of_known (h : codec.Regular)
    (hreaches : ∀ r ∈ records, codec.ReachesAt r.tag r.wireType)
    (hignores : ∀ tag, known tag = false → codec.Ignores tag) (hfits : Fits last records)
    (hstep : InStep known last lastTag last' lastTag') (hwalks : codec.Walks way mode depth last'
      lastTag' m (kept known records) m' canon) :
    codec.Walks way mode depth last lastTag m records m'
      (canon.update (way.extensions known records)) := by
  induction hn : records.length using Nat.strongRecOn generalizing last lastTag last' lastTag' m
    records canon with
  | ind n ih =>
      cases records with
      | nil =>
          obtain ⟨rfl, rfl⟩ := walks_nil.mp hwalks
          exact walks_nil.mpr ⟨rfl, rfl⟩
      | cons r records =>
          obtain ⟨hle, htag, hcomplete, hmore⟩ := Fits.cons_iff.mp hfits
          obtain ⟨hfirst, hothers⟩ := List.forall_mem_cons.mp hreaches
          cases hr : known r.tag with
          | false =>
              -- all that repeats the field is skipped with it
              obtain ⟨run, rest, rfl, hrun, hafter⟩ := hmore.exists_run
              have hlt : rest.length < n := by
                rw [← hn, List.length_cons, List.length_append]
                omega
              rw [kept_cons_unknown hr, kept_append, hrun.kept_unknown hr] at hwalks
              have hfield : (codec.fieldBy way mode depth r.tag r.wireType (lastTag == some r.tag)
                  m).Parses (r.payload ++ (wireRecords r.tag run ++ wireRecords r.tag rest))
                    (m, way.extension) (wireRecords r.tag rest) := by
                apply (hignores r.tag hr).parses_iff.mpr
                refine ⟨(parses_skipField r.tag).mpr ?_, rfl⟩
                exact ⟨noRepeat_wireRecords hafter, r.payload, run, hcomplete, hrun, rfl⟩
              rw [Way.extensions_cons_unknown hr, ← Way.extension_update_extensions way rest]
              apply h.walks_cons hfits hrun hfield
              have hlater := (List.forall_mem_append.mp hothers).2
              exact ih _ hlt hlater hmore.append_right (hstep.skip hle hr) hwalks rfl
          | true =>
              rw [kept_cons_known hr] at hwalks
              have hfits' : Fits last' (r :: kept known records) := by
                apply (hfits.mono hstep.le).sublist
                exact kept_sublist.cons_cons r
              obtain ⟨run, rest', decoded, own, heq, hrun, hfield, hown, rfl⟩ :=
                h.exists_of_walks_cons hfirst hfits' hwalks
              obtain ⟨rest, rfl, rfl⟩ := exists_of_filter_eq_append hmore.ascending hr
                (fun r' hr' => (hrun r' hr').1) heq
              have hlt : rest.length < n := by
                rw [← hn, List.length_cons, List.length_append]
                omega
              have hrest : Fits r.tag rest := hmore.append_right
              have hlater := (List.forall_mem_append.mp hothers).2
              have hknown : ∀ r' ∈ r :: run, known r'.tag = true := by
                rw [List.forall_mem_cons]
                exact ⟨hr, fun r' hr' => (hrun r' hr').1 ▸ hr⟩
              rw [← List.cons_append, Way.extensions_append_known hknown, Canonicity.update_assoc]
              apply h.walks_cons hfits hrun _ (ih _ hlt hlater hrest (.same r.tag) hown rfl)
              rw [← hstep.agrees r.tag hr hle]
              apply hfield
              intro hstop
              apply noRepeat_wireRecords
              intro r' hr'
              have hknowns := (hrest.sublist kept_sublist).noRepeat_iff.mp hstop
              cases hr'' : known r'.tag with
              | true => exact hknowns r' (List.mem_filter.mpr ⟨hr', hr''⟩)
              | false =>
                  apply lt_of_le_of_ne (hrest.ascending.le r' hr')
                  intro heq
                  rw [← heq, hr] at hr''
                  cases hr''

end MessageCodec

/-- Some fields, and the same with unknown ones among them. -/
inductive Inserts (unknown : Nat → Prop) : List Record → List Record → Prop
  | nil : Inserts unknown [] []
  | keep {records records' : List Record} (r : Record) (h : Inserts unknown records records') :
      Inserts unknown (r :: records) (r :: records')
  | insert {records records' : List Record} (r : Record) (hunknown : unknown r.tag)
      (h : Inserts unknown records records') : Inserts unknown records (r :: records')

section
variable {known : Nat → Bool} {records records' : List Record}

theorem Inserts.sublist {unknown : Nat → Prop} (h : Inserts unknown records records') :
    records.Sublist records' := by
  induction h with
  | nil => exact .slnil
  | keep r _ ih => exact ih.cons_cons r
  | insert r _ _ ih => exact ih.cons r

theorem Inserts.mem {unknown : Nat → Prop} (h : Inserts unknown records records') {r : Record}
    (hr : r ∈ records') : r ∈ records ∨ unknown r.tag := by
  induction h with
  | nil => cases hr
  | keep r' _ ih =>
      rcases List.mem_cons.mp hr with rfl | hr
      · exact .inl List.mem_cons_self
      · exact (ih hr).imp_left (List.mem_cons_of_mem r')
  | insert r' hunknown _ ih =>
      rcases List.mem_cons.mp hr with rfl | hr
      · exact .inr hunknown
      · exact ih hr

theorem Inserts.kept_eq (h : Inserts (fun tag => known tag = false) records records') :
    kept known records' = kept known records := by
  induction h with
  | nil => rfl
  | keep r _ ih =>
      cases hr : known r.tag with
      | true => rw [kept_cons_known hr, kept_cons_known hr, ih]
      | false => rw [kept_cons_unknown hr, kept_cons_unknown hr, ih]
  | insert r hr _ ih => rw [kept_cons_unknown hr, ih]

theorem inserts_kept {unknown : Nat → Prop} (h : ∀ tag, known tag = false → unknown tag)
    (records : List Record) : Inserts unknown (kept known records) records := by
  induction records with
  | nil => exact .nil
  | cons r records ih =>
      cases hr : known r.tag with
      | true =>
          rw [kept_cons_known hr]
          exact .keep r ih
      | false =>
          rw [kept_cons_unknown hr]
          exact .insert r (h _ hr) ih

/-- Unknown fields that are new count as extensions. -/
theorem Inserts.extensions_eq (h : Inserts (fun tag => known tag = false) records records')
    (hne : records' ≠ records) (way : Way) : way.extensions known records' = way.extension := by
  induction h with
  | nil => exact absurd rfl hne
  | @keep records records' r _ ih =>
      have hmore := ih fun heq => hne (congrArg (r :: ·) heq)
      cases hr : known r.tag with
      | true =>
          have hone : ∀ r' ∈ [r], known r'.tag = true := by simp [hr]
          exact (Way.extensions_append_known hone).trans hmore
      | false => exact Way.extensions_cons_unknown hr
  | insert r hr _ _ => exact Way.extensions_cons_unknown hr

end

end Bilrost
