import Bilrost.Schema.Extents

/-!
Messages are read record by record. `Walks` is the decoder of a message put on
some records rather than on bytes. It takes the first record, perhaps together
with records of the same tag behind it, and goes on with the others; and it can
be told to go on with other records instead.
-/

namespace Bilrost

open Program

/-- Records that can stand behind a field tagged `last`. -/
structure Fits (last : Nat) (records : List Record) : Prop where
  ascending : Ascending last records
  tag_lt : ∀ r ∈ records, r.tag < 2 ^ 32
  complete : ∀ r ∈ records, r.wireType.Complete r.payload

theorem wellFormed_iff_fits {records : List Record} : WellFormed records ↔ Fits 0 records :=
  ⟨fun h => ⟨h.ascending, h.tag_lt, h.complete⟩, fun h => ⟨h.ascending, h.tag_lt, h.complete⟩⟩

theorem Ascending.le {last : Nat} {records : List Record} (h : Ascending last records) :
    ∀ r ∈ records, last ≤ r.tag := by
  induction records generalizing last with
  | nil => simp
  | cons r records ih =>
      rw [List.forall_mem_cons]
      exact ⟨h.1, fun r' hr' => h.1.trans (ih h.2 r' hr')⟩

theorem Ascending.pairwise {last : Nat} {records : List Record} (h : Ascending last records) :
    records.Pairwise fun r r' => r.tag ≤ r'.tag := by
  induction records generalizing last with
  | nil => exact .nil
  | cons r records ih => exact .cons h.2.le (ih h.2)

theorem Ascending.sublist {last : Nat} {records records' : List Record} (h : Ascending last records')
    (hsub : records.Sublist records') : Ascending last records :=
  ascending_of_pairwise (fun r hr => h.le r (hsub.subset hr)) (h.pairwise.sublist hsub)

/-- Two short varints are no shorter than one of their sum. -/
theorem varint_length_add_le (a b : Nat) :
    (varint (a + b)).length ≤ (varint a).length + (varint b).length := by
  have hlimits : ∀ m ≤ 8, ∀ n ≤ 8, m + n ≤ 8 →
      varintLimit m + varintLimit n ≤ varintLimit (m + n) := by decide
  by_cases hle : (varint a).length + (varint b).length ≤ 8
  · rw [varint_length_le_iff _ hle]
    have ha := (varint_length_le_iff a (by omega)).mp le_rfl
    have hb := (varint_length_le_iff b (by omega)).mp le_rfl
    have hadd := hlimits _ (by omega) _ (by omega) hle
    omega
  · have hnine := varint_length_le (a + b)
    omega

/-- Behind an earlier field, records take no more than a key in addition. -/
theorem wireRecords_length_le_of_le {last tag : Nat} (h : last ≤ tag) (wireType : WireType)
    {records : List Record} (hascending : Ascending tag records) :
    (wireRecords last records).length ≤
      (keyBytes (tag - last) wireType).length + (wireRecords tag records).length := by
  cases records with
  | nil => exact Nat.zero_le _
  | cons r records =>
      have hkey := varint_length_add_le (4 * (tag - last)) (4 * (r.tag - tag))
      have hsum : 4 * (tag - last) + 4 * (r.tag - tag) = 4 * (r.tag - last) := by
        have hle := hascending.1
        omega
      rw [hsum] at hkey
      simp only [wireRecords, List.length_append, keyBytes_length]
      omega

/-- Fewer records have fewer bytes. -/
theorem wireRecords_length_le {last : Nat} {records records' : List Record}
    (h : records.Sublist records') (hascending : Ascending last records') :
    (wireRecords last records).length ≤ (wireRecords last records').length := by
  induction h generalizing last with
  | slnil => exact le_rfl
  | cons r h ih =>
      have hle := ih hascending.2
      have hmore := wireRecords_length_le_of_le hascending.1 r.wireType (hascending.2.sublist h)
      simp only [wireRecords, List.length_append]
      omega
  | cons_cons r h ih =>
      have hle := ih hascending.2
      simp only [wireRecords, List.length_append]
      omega

namespace Fits

variable {last : Nat} {r : Record} {records run rest : List Record}

theorem nil (last : Nat) : Fits last [] := ⟨trivial, by simp, by simp⟩

theorem cons_iff : Fits last (r :: records) ↔
    last ≤ r.tag ∧ r.tag < 2 ^ 32 ∧ r.wireType.Complete r.payload ∧ Fits r.tag records := by
  constructor
  · rintro ⟨⟨hle, hascending⟩, htags, hcompletes⟩
    obtain ⟨htag, htags⟩ := List.forall_mem_cons.mp htags
    obtain ⟨hcomplete, hcompletes⟩ := List.forall_mem_cons.mp hcompletes
    exact ⟨hle, htag, hcomplete, hascending, htags, hcompletes⟩
  · rintro ⟨hle, htag, hcomplete, hascending, htags, hcompletes⟩
    exact ⟨⟨hle, hascending⟩, List.forall_mem_cons.mpr ⟨htag, htags⟩,
      List.forall_mem_cons.mpr ⟨hcomplete, hcompletes⟩⟩

/-- Some of the records fit where all of them do. -/
theorem sublist (h : Fits last records) (hsub : rest.Sublist records) : Fits last rest where
  ascending := h.ascending.sublist hsub
  tag_lt r hr := h.tag_lt r (hsub.subset hr)
  complete r hr := h.complete r (hsub.subset hr)

theorem mono {last' : Nat} (h : Fits last records) (hle : last' ≤ last) : Fits last' records where
  ascending := ascending_of_pairwise (fun r hr => hle.trans (h.ascending.le r hr))
    h.ascending.pairwise
  tag_lt := h.tag_lt
  complete := h.complete

theorem append_right (h : Fits last (run ++ rest)) : Fits last rest :=
  h.sublist (List.sublist_append_right run rest)

/-- Records of the tag before them may be put in front of the others. -/
theorem repeats_append (hlast : last < 2 ^ 32) (hrun : Repeats last run) (h : Fits last rest) :
    Fits last (run ++ rest) := by
  induction run with
  | nil => exact h
  | cons r run ih =>
      obtain ⟨⟨rfl, hcomplete⟩, hrun⟩ := List.forall_mem_cons.mp hrun
      exact cons_iff.mpr ⟨le_rfl, hlast, hcomplete, ih hrun⟩

/-- What stands behind a field repeats it or not, as the records tell. -/
theorem noRepeat_iff (h : Fits last records) :
    NoRepeat (wireRecords last records) ↔ ∀ r ∈ records, last < r.tag := by
  constructor
  · intro hstop
    cases records with
    | nil => simp
    | cons r records =>
        obtain ⟨hle, -, -, hmore⟩ := cons_iff.mp h
        have hlt : last < r.tag := by
          apply lt_of_le_of_ne hle
          intro heq
          rw [wireRecords, ← heq, Nat.sub_self, List.append_assoc] at hstop
          exact not_noRepeat_key _ _ hstop
        rw [List.forall_mem_cons]
        exact ⟨hlt, fun r' hr' => hlt.trans_le (hmore.ascending.le r' hr')⟩
  · exact noRepeat_wireRecords

/-- Records that are taken off the front of others are the first of these. -/
theorem exists_of_wireRecords_append {bytes : Bytes} (h : Fits last records)
    (hrun : Repeats last run) (heq : wireRecords last records = wireRecords last run ++ bytes) :
    ∃ rest, records = run ++ rest ∧ bytes = wireRecords last rest := by
  induction run generalizing records with
  | nil => exact ⟨records, rfl, heq.symm⟩
  | cons r run ih =>
      obtain ⟨⟨rfl, hcomplete⟩, hrun⟩ := List.forall_mem_cons.mp hrun
      cases records with
      | nil =>
          rw [wireRecords, wireRecords] at heq
          simp only [List.append_assoc] at heq
          exact absurd (List.append_eq_nil_iff.mp heq.symm).1 (keyBytes_ne_nil _ _)
      | cons r' records =>
          obtain ⟨hle, htag, hcomplete', hmore⟩ := cons_iff.mp h
          simp only [wireRecords, List.append_assoc] at heq
          have hlt : r.tag < 2 ^ 32 := hle.trans_lt htag
          obtain ⟨htags, hwire, hpayload⟩ := keyBytes_append_inj hle htag le_rfl hlt heq
          obtain ⟨tag, wireType, payload⟩ := r
          obtain ⟨tag', wireType', payload'⟩ := r'
          simp only at htags hwire
          subst htags hwire
          obtain ⟨rfl, hleft⟩ := hcomplete'.append_inj hcomplete hpayload
          obtain ⟨rest, rfl, rfl⟩ := ih hmore hrun hleft
          exact ⟨rest, rfl, rfl⟩

/-- The records that repeat the field before them, and the others. -/
theorem exists_run (h : Fits last records) : ∃ run rest, records = run ++ rest ∧
    Repeats last run ∧ ∀ r ∈ rest, last < r.tag := by
  induction records with
  | nil => exact ⟨[], [], rfl, by simp [Repeats], by simp⟩
  | cons r records ih =>
      obtain ⟨hle, htag, hcomplete, hmore⟩ := cons_iff.mp h
      rcases hle.eq_or_lt with rfl | hlt
      · obtain ⟨run, rest, rfl, hrun, hrest⟩ := ih hmore
        exact ⟨r :: run, rest, rfl, List.forall_mem_cons.mpr ⟨⟨rfl, hcomplete⟩, hrun⟩, hrest⟩
      · refine ⟨[], r :: records, rfl, by simp [Repeats], ?_⟩
        rw [List.forall_mem_cons]
        exact ⟨hlt, fun r' hr' => hlt.trans_le (hmore.ascending.le r' hr')⟩

end Fits

section
variable {σ : Type} {decode : Nat → WireType → Bool → σ → Program σ}

/-- The first field is decoded, and then the others. -/
theorem parses_fieldsFrom_cons (h : ∀ tag wireType dup s, (decode tag wireType dup s).Regular)
    {last tag : Nat} (hle : last ≤ tag) (htag : tag < 2 ^ 32) {lastTag : Option Nat} {s s' : σ}
    {wireType : WireType} {bytes rest : Bytes} :
    (fieldsFrom decode last lastTag s).Parses (keyBytes (tag - last) wireType ++ bytes) s' rest ↔
      ∃ s'' mid, (decode tag wireType (lastTag == some tag) s).Parses bytes s'' mid ∧
        (fieldsFrom decode tag (some tag) s'').Parses mid s' rest := by
  have hsame : (fieldsFrom decode last lastTag s).parse (keyBytes (tag - last) wireType ++ bytes) =
      ((decode tag wireType (lastTag == some tag) s).bind fun s'' =>
        fieldsFrom decode tag (some tag) s'').parse bytes :=
    (parse_fieldsFrom_cons h hle htag lastTag s wireType bytes).trans (parse_bind ..).symm
  rw [Parses, hsame]
  exact parses_bind

end

namespace MessageCodec

variable {M : Type} {codec : MessageCodec M} {way : Way} {mode : DecodingMode}
  {depth last : Nat} {lastTag : Option Nat} {m m' : M} {canon : Canonicity}
  {records : List Record}

/-- A message that is decoded from records behind a field, and how canonical they
are. -/
def Walks (codec : MessageCodec M) (way : Way) (mode : DecodingMode) (depth last : Nat)
    (lastTag : Option Nat) (m : M) (records : List Record) (m' : M) (canon : Canonicity) : Prop :=
  (fieldsFrom (codec.stepBy way mode depth) last lastTag (m, .canonical)).Parses
    (wireRecords last records) (m', canon) []

/-- What came before a field lowers the canonicity of the whole. -/
theorem Regular.parses_fieldsFrom_update (h : codec.Regular) {bytes : Bytes} {before : Canonicity} :
    (fieldsFrom (codec.stepBy way mode depth) last lastTag (m, before)).Parses bytes (m', canon)
        [] ↔
      ∃ own, (fieldsFrom (codec.stepBy way mode depth) last lastTag (m, .canonical)).Parses bytes
        (m', own) [] ∧ canon = before.update own := by
  have hstep := h.stepBy way mode depth
  simp only [parses_fieldsFrom_iff hstep, true_and]
  have hlowers {pos pos' : Position (M × Canonicity)} {records : List Record}
      (hreading : Reading (codec.stepBy way mode depth) pos records pos') (before own : Canonicity)
      (hown : pos.state.2 = before.update own) :
      ∃ own', Reading (codec.stepBy way mode depth) ⟨pos.last, pos.lastTag, (pos.state.1, own),
        pos.rest⟩ records ⟨pos'.last, pos'.lastTag, (pos'.state.1, own'), pos'.rest⟩ ∧
          pos'.state.2 = before.update own' := by
    induction hreading generalizing own with
    | nil => exact ⟨own, .nil, hown⟩
    | @cons last tag lastTag wireType s s' payload rest records pos hle htag hfield _ ih =>
        obtain ⟨decoded, hdecoded, rfl⟩ := parses_stepBy.mp hfield
        have hboth : s.2.update decoded.2 = before.update (own.update decoded.2) := by
          rw [← Canonicity.update_assoc]
          exact congrArg (Canonicity.update · decoded.2) hown
        obtain ⟨own', hmore, hcanon⟩ := ih (own.update decoded.2) hboth
        exact ⟨own', .cons hle htag (parses_stepBy.mpr ⟨decoded, hdecoded, rfl⟩) hmore, hcanon⟩
  have hraises {pos pos' : Position (M × Canonicity)} {records : List Record}
      (hreading : Reading (codec.stepBy way mode depth) pos records pos') (before : Canonicity) :
      Reading (codec.stepBy way mode depth) ⟨pos.last, pos.lastTag, (pos.state.1,
        before.update pos.state.2), pos.rest⟩ records ⟨pos'.last, pos'.lastTag, (pos'.state.1,
          before.update pos'.state.2), pos'.rest⟩ := by
    induction hreading with
    | nil => exact .nil
    | @cons last tag lastTag wireType s s' payload rest records pos hle htag hfield _ ih =>
        obtain ⟨decoded, hdecoded, rfl⟩ := parses_stepBy.mp hfield
        rw [← Canonicity.update_assoc] at ih
        exact .cons hle htag (parses_stepBy.mpr ⟨decoded, hdecoded, rfl⟩) ih
  constructor
  · rintro ⟨records, last', lastTag', hreading⟩
    obtain ⟨own, hown, hcanon⟩ := hlowers hreading before .canonical
      (Canonicity.update_canonical before).symm
    exact ⟨own, ⟨records, last', lastTag', hown⟩, hcanon⟩
  · rintro ⟨own, ⟨records, last', lastTag', hown⟩, rfl⟩
    have hreading := hraises hown before
    rw [Canonicity.update_canonical] at hreading
    exact ⟨records, last', lastTag', hreading⟩

theorem walks_nil :
    codec.Walks way mode depth last lastTag m [] m' canon ↔ m' = m ∧ canon = .canonical := by
  rw [Walks, wireRecords, Parses]
  simp only [parse_fieldsFrom_nil, Except.ok.injEq, Parsed.mk.injEq, Prod.mk.injEq, and_true,
    exists_and_left, exists_eq', and_assoc]
  constructor
  · rintro ⟨rfl, rfl⟩
    exact ⟨rfl, rfl⟩
  · rintro ⟨rfl, rfl⟩
    exact ⟨rfl, rfl⟩

/-- One field is read from the first record and maybe some others of its tag. -/
theorem Regular.walks_cons (h : codec.Regular) {r : Record} {run rest : List Record}
    (hfits : Fits last (r :: (run ++ rest))) (hrun : Repeats r.tag run) {decoded : M × Canonicity}
    (hfield : (codec.fieldBy way mode depth r.tag r.wireType (lastTag == some r.tag) m).Parses
      (r.payload ++ (wireRecords r.tag run ++ wireRecords r.tag rest)) decoded
        (wireRecords r.tag rest))
    (hmore : codec.Walks way mode depth r.tag (some r.tag) decoded.1 rest m' canon) :
    codec.Walks way mode depth last lastTag m (r :: (run ++ rest)) m'
      (decoded.2.update canon) := by
  obtain ⟨hle, htag, -, -⟩ := Fits.cons_iff.mp hfits
  have hlast : lastTagOf r.tag run = r.tag := lastTagOf_of_forall fun r' hr' => (hrun r' hr').1
  rw [Walks, wireRecords, wireRecords_append, hlast, List.append_assoc]
  apply (parses_fieldsFrom_cons (h.stepBy way mode depth) hle htag).mpr
  refine ⟨_, _, parses_stepBy.mpr ⟨decoded, hfield, rfl⟩, ?_⟩
  rw [Canonicity.canonical_update]
  exact h.parses_fieldsFrom_update.mpr ⟨canon, hmore, rfl⟩

/-- What is read from the first records, and that the others might be others as
far as that goes. -/
theorem Regular.exists_of_walks_cons (h : codec.Regular) {r : Record}
    (hreaches : codec.ReachesAt r.tag r.wireType) (hfits : Fits last (r :: records))
    (hwalks : codec.Walks way mode depth last lastTag m (r :: records) m' canon) :
    ∃ run rest decoded own, records = run ++ rest ∧ Repeats r.tag run ∧
      (∀ rest' : Bytes, (NoRepeat (wireRecords r.tag rest) → NoRepeat rest') →
        (codec.fieldBy way mode depth r.tag r.wireType (lastTag == some r.tag) m).Parses
          (r.payload ++ (wireRecords r.tag run ++ rest')) decoded rest') ∧
      codec.Walks way mode depth r.tag (some r.tag) decoded.1 rest m' own ∧
      canon = decoded.2.update own := by
  obtain ⟨hle, htag, hcomplete, hmore⟩ := Fits.cons_iff.mp hfits
  rw [Walks, wireRecords, List.append_assoc] at hwalks
  obtain ⟨s, mid, hstep, hloop⟩ :=
    (parses_fieldsFrom_cons (h.stepBy way mode depth) hle htag).mp hwalks
  obtain ⟨decoded, hfield, rfl⟩ := parses_stepBy.mp hstep
  obtain ⟨own, hown, rfl⟩ := h.parses_fieldsFrom_update.mp hloop
  obtain ⟨taken, hbytes, ⟨payload, run, hpayload, hrun, rfl⟩, hothers⟩ := hreaches _ _ _ _ _ hfield
  rw [List.append_assoc] at hbytes
  obtain ⟨rfl, hleft⟩ := hcomplete.append_inj hpayload hbytes
  obtain ⟨rest, rfl, rfl⟩ := hmore.exists_of_wireRecords_append hrun hleft
  refine ⟨run, rest, decoded, own, rfl, hrun, fun rest' hrest' => ?_, hown, ?_⟩
  · rw [← List.append_assoc]
    exact hothers hrest'
  · rw [Canonicity.canonical_update]

/-- All that is decoded is a sequence of fields. -/
theorem Reaches.exists_fits (hreaches : codec.Reaches) {pos pos' : Position (M × Canonicity)}
    {taken : List Record} (h : Reading (codec.stepBy way mode depth) pos taken pos')
    (hend : pos'.rest = []) : ∃ records, Fits pos.last records ∧
      pos.rest = wireRecords pos.last records := by
  induction h with
  | nil => exact ⟨[], .nil _, hend⟩
  | @cons last tag lastTag wireType s s' bytes rest taken pos hle htag hfield _ ih =>
      obtain ⟨records, hfits, hrest⟩ := ih hend
      obtain ⟨decoded, hdecoded, rfl⟩ := parses_stepBy.mp hfield
      obtain ⟨taken', hbytes, ⟨payload, run, hpayload, hrun, rfl⟩, -⟩ :=
        hreaches _ _ _ _ _ _ _ hdecoded
      obtain rfl := List.append_cancel_right hbytes
      have hlast : lastTagOf tag run = tag := lastTagOf_of_forall fun r hr => (hrun r hr).1
      refine ⟨⟨tag, wireType, payload⟩ :: (run ++ records), ?_, ?_⟩
      · exact Fits.cons_iff.mpr ⟨hle, htag, hpayload, Fits.repeats_append htag hrun hfits⟩
      · simp only at hrest
        simp only [wireRecords, wireRecords_append, hlast, List.append_assoc, ← hrest]

end MessageCodec

end Bilrost
