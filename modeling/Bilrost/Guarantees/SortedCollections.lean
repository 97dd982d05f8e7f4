import Bilrost.Schema.Forms
import Bilrost.Schema.Regular
import Bilrost.Schema.Single

/-!
Sorted sets and maps. Whatever the order of the items, they are all taken if no
two are the same, and the order decides nothing but the canonicity.
-/

namespace Bilrost

open Program

/-- The lowest of some canonicities. -/
def lowestOf (canons : List Canonicity) : Canonicity := canons.foldr Canonicity.update .canonical

/-- The canonicity that is returned: of the relaxed way none, that is the
highest. -/
def Way.reports (way : Way) (canon : Canonicity) : Canonicity :=
  match way with
  | .relaxed => .canonical
  | .distinguished => canon

/-- What the order of some keys contributes. -/
def Way.ordered {K : Type} [LinearOrder K] (way : Way) (keys : List K) : Canonicity :=
  match way with
  | .relaxed => .canonical
  | .distinguished => if keys.Pairwise (· < ·) then .canonical else .notCanonical

namespace Collection

variable {K V : Type} [LinearOrder K] {way : Way} {map map' : SortedMap K V}

/-- An entry is refused if its key is there, and lowers the canonicity if its
key is not above all others. -/
theorem btreeMap_inserted (way : Way) (map : SortedMap K V) (entry : K × V) :
    (btreeMap K V).inserted way map entry =
      if map.contains entry.1 then .error .unexpectedlyRepeated
      else .ok (map.insert entry.1 entry.2, way.ordered (map.keys ++ [entry.1])) := by
  cases way with
  | relaxed =>
      simp only [inserted, btreeMap, btreeMap.insertNew, Way.ordered]
      split_ifs <;> rfl
  | distinguished =>
      simp only [inserted, btreeMap, btreeMap.insertNew, Way.ordered, ← SortedMap.last_lt_iff]
      cases hlast : map.last with
      | none =>
          have hall : ∀ e ∈ map.last, e.1 < entry.1 := by simp [hlast]
          simp [SortedMap.contains_eq_false hall]
      | some last =>
          simp only [Option.mem_some_iff, forall_eq']
          rcases lt_trichotomy entry.1 last.1 with hlt | heq | hgt
          · simp only [compare_lt_iff_lt.mpr hlt, hlt.not_gt, ↓reduceIte]
            split_ifs <;> rfl
          · have hcontains : map.contains entry.1 = true := heq ▸ SortedMap.contains_last hlast
            simp [compare_eq_iff_eq.mpr heq, hcontains]
          · have hall : ∀ e ∈ map.last, e.1 < entry.1 := by simpa [hlast] using hgt
            simp [compare_gt_iff_gt.mpr hgt, SortedMap.contains_eq_false hall, hgt]

/-- What is out of order stays so. -/
theorem ordered_insert {key : K} (value : V) (keys : List K) :
    (way.ordered (map.keys ++ [key])).update (way.ordered ((map.insert key value).keys ++ keys)) =
      way.ordered (map.keys ++ key :: keys) := by
  cases way with
  | relaxed => rfl
  | distinguished =>
      by_cases hlast : (map.keys ++ [key]).Pairwise (· < ·)
      · have hentries := SortedMap.entries_insert_of_lt value (SortedMap.last_lt_iff.mpr hlast)
        have hkeys : (map.insert key value).keys ++ keys = map.keys ++ key :: keys := by
          simp [SortedMap.keys, hentries]
        simp [Way.ordered, hlast, hkeys]
      · have hmore : ¬(map.keys ++ key :: keys).Pairwise (· < ·) := by
          intro h
          rw [List.append_cons] at h
          exact hlast (List.pairwise_append.mp h).1
        simp [Way.ordered, hlast, hmore]

/-- Entries are all taken if no key is there twice, in any order. -/
theorem btreeMap_insertAll {entries : List ((K × V) × Canonicity)} {canon canon' : Canonicity} :
    (btreeMap K V).insertAll way (map, canon) entries = some (map', canon') ↔
      (map.keys ++ entries.map fun e => e.1.1).Nodup ∧
        map'.entries.Perm (map.entries ++ entries.map Prod.fst) ∧
        canon' = (canon.update (lowestOf (entries.map Prod.snd))).update
          (way.ordered (map.keys ++ entries.map fun e => e.1.1)) := by
  induction entries generalizing map canon with
  | nil =>
      have hordered : way.ordered map.keys = .canonical := by
        cases way with
        | relaxed => rfl
        | distinguished => exact if_pos map.keys_pairwise
      simp only [insertAll, List.map_nil, List.append_nil, lowestOf, List.foldr_nil,
        Canonicity.update_canonical, hordered, Option.some.injEq, Prod.mk.injEq]
      constructor
      · rintro ⟨rfl, rfl⟩
        exact ⟨map.nodup_keys, List.Perm.refl _, rfl⟩
      · rintro ⟨-, hperm, rfl⟩
        exact ⟨(SortedMap.eq_of_perm hperm).symm, rfl⟩
  | cons entry entries ih =>
      rw [insertAll, btreeMap_inserted]
      cases hnew : map.contains entry.1.1 with
      | true =>
          simp only [↓reduceIte, reduceCtorEq, false_iff, not_and]
          intro hnodup
          have hmem : entry.1.1 ∈ map.keys := SortedMap.contains_iff.mp hnew
          exact absurd rfl (List.nodup_append.mp hnodup |>.2.2 _ hmem _ (by simp))
      | false =>
          have hperm := SortedMap.entries_insert_perm entry.1.2 hnew
          have hkeys : ((map.insert entry.1.1 entry.1.2).keys ++ entries.map fun e => e.1.1).Perm
              (map.keys ++ (entry :: entries).map fun e => e.1.1) := by
            refine ((hperm.map Prod.fst).append_right _).trans ?_
            exact List.perm_middle.symm
          have hentries : ((map.insert entry.1.1 entry.1.2).entries ++ entries.map Prod.fst).Perm
              (map.entries ++ (entry :: entries).map Prod.fst) :=
            (hperm.append_right _).trans List.perm_middle.symm
          simp only [Bool.false_eq_true, ↓reduceIte, ih, hkeys.nodup_iff]
          have horder : (way.ordered (map.keys ++ [entry.1.1])).update _ = way.ordered _ :=
            ordered_insert entry.1.2 (entries.map fun e => e.1.1)
          have hcanon : (((canon.update entry.2).update (way.ordered (map.keys ++ [entry.1.1]))).update
              (lowestOf (entries.map Prod.snd))).update
                (way.ordered ((map.insert entry.1.1 entry.1.2).keys ++ entries.map fun e => e.1.1)) =
              (canon.update (lowestOf ((entry :: entries).map Prod.snd))).update
                (way.ordered (map.keys ++ (entry :: entries).map fun e => e.1.1)) := by
            rw [List.map_cons, List.map_cons, ← horder]
            simp only [lowestOf, List.foldr_cons, Canonicity.update, min_assoc, min_left_comm]
          rw [hcanon]
          constructor
          · rintro ⟨hnodup, hp, hc⟩
            exact ⟨hnodup, hp.trans hentries, hc⟩
          · rintro ⟨hnodup, hp, hc⟩
            exact ⟨hnodup, hp.trans hentries.symm, hc⟩

theorem insertAll_mapItems {C T U : Type} (coll : Collection C T) (view : T → U) (back : U → T)
    (state : C × Canonicity) (items : List (U × Canonicity)) :
    (coll.mapItems view back).insertAll way state items =
      coll.insertAll way state (items.map fun item => (back item.1, item.2)) := by
  induction items generalizing state with
  | nil => rfl
  | cons item items ih =>
      rw [insertAll, List.map_cons, insertAll]
      have hsame : (coll.mapItems view back).inserted way state.1 item.1 =
          coll.inserted way state.1 (back item.1) := by
        cases way <;> rfl
      rw [hsame]
      cases coll.inserted way state.1 (back item.1) with
      | ok next => exact ih _
      | error kind => rfl

theorem btreeSet_insertAll {T : Type} [LinearOrder T] {set set' : SortedMap T Unit}
    {items : List (T × Canonicity)} {canon canon' : Canonicity} :
    (btreeSet T).insertAll way (set, canon) items = some (set', canon') ↔
      (set.keys ++ items.map Prod.fst).Nodup ∧ set'.keys.Perm (set.keys ++ items.map Prod.fst) ∧
        canon' = (canon.update (lowestOf (items.map Prod.snd))).update
          (way.ordered (set.keys ++ items.map Prod.fst)) := by
  have hunit (l : List (T × Unit)) : (l.map Prod.fst).map (fun item => (item, ())) = l := by
    rw [List.map_map]
    exact List.map_id l
  have hperm (l l' : List (T × Unit)) : l.Perm l' ↔ (l.map Prod.fst).Perm (l'.map Prod.fst) := by
    constructor
    · exact fun h => h.map _
    · intro h
      simpa only [hunit] using h.map fun item => (item, ())
  rw [btreeSet, insertAll_mapItems, btreeMap_insertAll, hperm]
  simp only [List.map_map, Function.comp_def, List.map_append, SortedMap.keys]

end Collection

/-- Bytes that both decoders take for an item, and what they make of them. -/
structure ItemBytes {T : Type} (item : ValueCodec T) (mode : DecodingMode) (depth : Nat)
    (payload : Bytes) (value : T) (canon : Canonicity) : Prop where
  relaxed : (item.decodeValue mode depth item.forOverwrite).Leaves payload value []
  distinguished : (item.decodeValueDistinguished mode true depth item.forOverwrite).Leaves payload
    (value, canon) []

/-- What relaxed and distinguished decoding of a field come to: both succeed if
no two items are the same, with the same collection, which has just these items,
and the same bytes left; and the latter tells its canonicity. -/
structure DecodesDistinct {β C T : Type} [Buf β] (buf : β) (relaxed : Program C)
    (distinguished : Program (C × Canonicity)) (contents : C → List T) (items : List T)
    (distinct : Prop) (canon : Canonicity) (next : Bytes) : Prop where
  succeeds : (∃ value rest, relaxed.Leaves buf value rest) ↔ distinct
  contents {value : C} {rest : Bytes} : relaxed.Leaves buf value rest →
    (contents value).Perm items ∧ rest = next
  distinguished {value : C} {canon' : Canonicity} {rest : Bytes} :
    distinguished.Leaves buf (value, canon') rest ↔ relaxed.Leaves buf value rest ∧ canon' = canon

theorem ItemBytes.means {T : Type} {item : ValueCodec T} (hregular : item.Regular)
    {mode : DecodingMode} {depth : Nat} {payload : Bytes} {value : T} {canon : Canonicity}
    (h : ItemBytes item mode depth payload value canon) (way : Way) :
    item.Means way mode depth payload
      (value, way.reports canon) := by
  cases way with
  | relaxed =>
      rw [ValueCodec.Means, ValueCodec.decodeBy, parses_asCanonical]
      have hleaves := h.relaxed
      rw [leaves_iff (hregular.decodeValue mode depth _)] at hleaves
      exact ⟨hleaves, rfl⟩
  | distinguished =>
      have hdecoder : (item.decodeValueDistinguished mode true depth item.forOverwrite).Regular :=
        hregular.regular .distinguished mode true depth _
      exact (leaves_iff hdecoder).mp h.distinguished

section
variable {β C T : Type} [Buf β] {buf : β} {codec : FieldCodec C} {contents : C → List T}
  {items : List T} {distinct : Prop} {canon : Canonicity} {next : Bytes} {mode : DecodingMode}
  {depth : Nat} {wireType : WireType} {value : C}

/-- What is parsed in both ways, as what runs on a buffer return. -/
theorem decodesDistinct_of_parses (hregular : codec.Regular)
    (hexists : distinct → ∃ decoded, (contents decoded).Perm items)
    (hparses : ∀ way decoded rest,
      (codec.decodeBy way mode depth wireType value).Parses (Buf.bytes buf) decoded rest ↔
        rest = next ∧ distinct ∧ (contents decoded.1).Perm items ∧
          decoded.2 = way.reports canon) :
    DecodesDistinct buf (codec.decode mode depth wireType value)
      (codec.decodeDistinguished mode depth wireType value) contents items distinct canon next := by
  have hrelaxed {decoded : C} {rest : Bytes} :
      (codec.decode mode depth wireType value).Leaves buf decoded rest ↔
        rest = next ∧ distinct ∧ (contents decoded).Perm items := by
    rw [leaves_iff (hregular .relaxed mode depth wireType value).of_asCanonical]
    have h := hparses .relaxed (decoded, .canonical) rest
    simpa [FieldCodec.decodeBy, Way.reports] using h
  have hdistinguished {decoded : C} {canon' : Canonicity} {rest : Bytes} :
      (codec.decodeDistinguished mode depth wireType value).Leaves buf (decoded, canon') rest ↔
        rest = next ∧ distinct ∧ (contents decoded).Perm items ∧ canon' = canon := by
    have hdecoder : (codec.decodeDistinguished mode depth wireType value).Regular :=
      hregular .distinguished mode depth wireType value
    rw [leaves_iff hdecoder]
    exact hparses .distinguished (decoded, canon') rest
  constructor
  · constructor
    · rintro ⟨decoded, rest, hleaves⟩
      exact (hrelaxed.mp hleaves).2.1
    · intro hdistinct
      obtain ⟨decoded, hperm⟩ := hexists hdistinct
      exact ⟨decoded, next, hrelaxed.mpr ⟨rfl, hdistinct, hperm⟩⟩
  · intro decoded rest hleaves
    obtain ⟨hrest, -, hperm⟩ := hrelaxed.mp hleaves
    exact ⟨hperm, hrest⟩
  · intro decoded canon' rest
    rw [hdistinguished, hrelaxed]
    tauto

end

section
variable {allowed : Features} {T : Type} [LinearOrder T] {item : ValueCodec T} {mode : DecodingMode}
  {depth : Nat} {items : List (Bytes × T × Canonicity)}

/-- The canonicity of a field: items of their own form, one at least and in
order, have the lowest one among them. -/
def expectedCanonicity {K : Type} [LinearOrder K] (own form : Form) (keys : List K)
    (canons : List Canonicity) : Canonicity :=
  if form = own ∧ keys ≠ [] ∧ keys.Pairwise (· < ·) then lowestOf canons else .notCanonical

theorem lowestOf_reports (way : Way) (canons : List Canonicity) :
    lowestOf (canons.map way.reports) = way.reports (lowestOf canons) := by
  induction canons with
  | nil => cases way <;> rfl
  | cons canon canons ih =>
      have hcons (c : Canonicity) (cs : List Canonicity) :
          lowestOf (c :: cs) = c.update (lowestOf cs) := rfl
      rw [List.map_cons, hcons, ih, hcons]
      cases way <;> rfl

theorem Form.field_regular (hitem : Built allowed (.value item)) (own : Form) :
    (own.field item (Collection.btreeSet T)).Regular := by
  cases own with
  | packed => exact (Built.packedField (.btreeSet T) hitem).regular
  | unpacked => exact (Built.unpackedField (.btreeSet T) hitem).regular

omit [LinearOrder T] in
theorem ItemBytes.complete (hitem : Built allowed (.value item)) {payload : Bytes} {value : T}
    {canon : Canonicity} (h : ItemBytes item mode depth payload value canon) :
    item.wireType.Complete payload := by
  have hregular : item.Regular := hitem.regular
  have hcuts : item.Cuts := hitem.cuts
  exact hcuts.complete (h.means hregular .relaxed)

/-- The items are inserted one after the other. -/
theorem rounds_btreeSet (hitem : Built allowed (.value item))
    (hitems : ∀ i ∈ items, ItemBytes item mode depth i.1 i.2.1 i.2.2) {way : Way}
    {decoded : SortedMap T Unit × Canonicity} :
    Rounds (item.Takes (Collection.btreeSet T) way mode depth) (.empty, .canonical)
        (items.map Prod.fst) decoded ↔
      (items.map fun i => i.2.1).Nodup ∧ decoded.1.keys.Perm (items.map fun i => i.2.1) ∧
        decoded.2 = (way.reports (lowestOf (items.map fun i => i.2.2))).update
          (way.ordered (items.map fun i => i.2.1)) := by
  have hregular : item.Regular := hitem.regular
  have hmeans : ∀ p ∈ items.map fun i => (i.1, i.2.1, way.reports i.2.2),
      item.Means way mode depth p.1 p.2 := by
    intro p hp
    obtain ⟨i, hi, rfl⟩ := List.mem_map.mp hp
    exact (hitems i hi).means hregular way
  have hrounds : Rounds (item.Takes (Collection.btreeSet T) way mode depth) (.empty, .canonical)
        (items.map Prod.fst) decoded ↔
      (Collection.btreeSet T).insertAll way (.empty, .canonical)
        (items.map fun i => (i.2.1, way.reports i.2.2)) = some (decoded.1, decoded.2) := by
    simpa [List.map_map, Function.comp_def] using ValueCodec.rounds_iff_insertAll hmeans
  have hlowest := lowestOf_reports way (items.map fun i => i.2.2)
  rw [hrounds, Collection.btreeSet_insertAll, Canonicity.canonical_update, ← hlowest]
  simp only [List.map_map, Function.comp_def]
  exact Iff.rfl

omit [LinearOrder T] in
/-- What the own form of an encoding reports. -/
theorem canonicity_own {K : Type} [LinearOrder K] {way : Way} {form : Form} {keys : List K}
    {canons : List Canonicity} {isEmpty : Bool} (hempty : isEmpty = true ↔ keys = [])
    (hfirst : form = .unpacked → keys ≠ []) :
    (if form = .packed ∧ isEmpty = true then
        ((way.reports (lowestOf canons)).update (way.ordered keys)).update way.demoted
      else (way.reports (lowestOf canons)).update (way.ordered keys)) =
      way.reports (expectedCanonicity form form keys canons) := by
  cases way with
  | relaxed =>
      split_ifs <;> rfl
  | distinguished =>
      by_cases hnil : keys = []
      · have hpacked : form = .packed := by
          cases form with
          | packed => rfl
          | unpacked => exact absurd hnil (hfirst rfl)
        rw [if_pos ⟨hpacked, hempty.mpr hnil⟩]
        simp [Way.demoted, Way.reports, expectedCanonicity, hnil]
      · rw [if_neg fun h => hnil (hempty.mp h.2)]
        simp only [Way.reports, Way.ordered, expectedCanonicity, true_and, ne_eq, hnil,
          not_false_eq_true]
        split_ifs <;> simp

/-- A set in either form of either encoding. -/
theorem btreeSet_decodes (hitem : Built allowed (.value item)) (own form : Form)
    (hform : form = own ∨ item.wireType ≠ .lengthDelimited)
    (hitems : ∀ i ∈ items, ItemBytes item mode depth i.1 i.2.1 i.2.2) {next : Bytes}
    (hlength : form = .packed → (items.map Prod.fst).flatten.length < 2 ^ 64)
    (hfirst : form = .unpacked → items ≠ []) (hnext : form = .unpacked → NoRepeat next)
    {β : Type} [Buf β] {buf : β}
    (hbuf : Buf.bytes buf = form.bytes item.wireType (items.map Prod.fst) ++ next) :
    DecodesDistinct buf
      ((own.field item (Collection.btreeSet T)).decode mode depth (form.wireType item.wireType) .empty)
      ((own.field item (Collection.btreeSet T)).decodeDistinguished mode depth
        (form.wireType item.wireType) .empty)
      SortedMap.keys (items.map fun i => i.2.1) (items.map fun i => i.2.1).Nodup
      (expectedCanonicity own form (items.map fun i => i.2.1) (items.map fun i => i.2.2)) next := by
  have hcuts : item.Cuts := hitem.cuts
  have hfits : form.Fits item.wireType (items.map Prod.fst) next := by
    constructor
    · intro payload hpayload
      obtain ⟨i, hi, rfl⟩ := List.mem_map.mp hpayload
      exact (hitems i hi).complete hitem
    · exact hlength
    · intro hunpacked hnil
      exact hfirst hunpacked (List.map_eq_nil_iff.mp hnil)
    · exact hnext
  apply decodesDistinct_of_parses (Form.field_regular hitem own)
  · intro hdistinct
    have hkeys : (items.map fun i => (i.2.1, ())).map Prod.fst = items.map fun i => i.2.1 := by
      simp [Function.comp_def]
    obtain ⟨set, hperm⟩ := SortedMap.exists_perm (hkeys ▸ hdistinct)
    exact ⟨set, by simpa [SortedMap.keys, Function.comp_def] using hperm.map Prod.fst⟩
  · intro way decoded rest
    rw [hbuf]
    by_cases hown : form = own
    · subst hown
      have hempty {set : SortedMap T Unit} (hperm : set.keys.Perm (items.map fun i => i.2.1)) :
          (Collection.btreeSet T).isEmpty set = true ↔ items.map (fun i => i.2.1) = [] := by
        have hnil : items.map (fun i => i.2.1) = [] ↔ set.keys = [] := by
          rw [← List.length_eq_zero_iff, ← hperm.length_eq, List.length_eq_zero_iff]
        rw [hnil, SortedMap.keys, List.map_eq_nil_iff]
        exact List.isEmpty_iff
      have hcanon {set : SortedMap T Unit} (hperm : set.keys.Perm (items.map fun i => i.2.1)) :
          _ = way.reports (expectedCanonicity form form _ (items.map fun i => i.2.2)) :=
        canonicity_own (hempty hperm) fun hunpacked hnil =>
          hfirst hunpacked (List.map_eq_nil_iff.mp hnil)
      rw [hfits.parses_own hcuts]
      simp only [rounds_btreeSet hitem hitems]
      constructor
      · rintro ⟨rfl, inserted, ⟨hdistinct, hperm, hcanonicity⟩, rfl⟩
        rw [hcanonicity]
        exact ⟨rfl, hdistinct, hperm, hcanon hperm⟩
      · rintro ⟨rfl, hdistinct, hperm, hcanonicity⟩
        refine ⟨rfl, (decoded.1, (way.reports (lowestOf (items.map fun i => i.2.2))).update
          (way.ordered (items.map fun i => i.2.1))), ⟨hdistinct, hperm, rfl⟩, Prod.ext rfl ?_⟩
        exact hcanonicity.trans (hcanon hperm).symm
    · rw [hfits.parses_other hcuts hown (hform.resolve_left hown)]
      have hexpected : way.demoted = way.reports
          (expectedCanonicity own form (items.map fun i => i.2.1) (items.map fun i => i.2.2)) := by
        rw [expectedCanonicity, if_neg fun h => hown h.1]
        cases way <;> rfl
      simp only [rounds_btreeSet hitem hitems, hexpected]
      constructor
      · rintro ⟨rfl, hcanonicity, hdistinct, hperm, -⟩
        exact ⟨rfl, hdistinct, hperm, hcanonicity⟩
      · rintro ⟨rfl, hdistinct, hperm, hcanonicity⟩
        exact ⟨rfl, hcanonicity, hdistinct, hperm, rfl⟩

end

section
variable {allowed : Features} {K V : Type} [LinearOrder K] {key : ValueCodec K} {val : ValueCodec V}
  {mode : DecodingMode} {depth : Nat}
  {entries : List ((Bytes × K × Canonicity) × (Bytes × V × Canonicity))}

/-- The bytes of an entry. -/
def entryBytes (e : (Bytes × K × Canonicity) × (Bytes × V × Canonicity)) : Bytes := e.1.1 ++ e.2.1

def entryValue (e : (Bytes × K × Canonicity) × (Bytes × V × Canonicity)) : K × V :=
  (e.1.2.1, e.2.2.1)

def entryCanonicity (e : (Bytes × K × Canonicity) × (Bytes × V × Canonicity)) : Canonicity :=
  e.1.2.2.update e.2.2.2

omit [LinearOrder K] in
theorem means_entry (hkey : Built allowed (.value key)) (hval : Built allowed (.value val))
    {e : (Bytes × K × Canonicity) × (Bytes × V × Canonicity)}
    (hkeyBytes : ItemBytes key mode depth e.1.1 e.1.2.1 e.1.2.2)
    (hvalBytes : ItemBytes val mode depth e.2.1 e.2.2.1 e.2.2.2) (way : Way) :
    (key.entry val).Means way mode depth (entryBytes e)
      (entryValue e, way.reports (entryCanonicity e)) := by
  have hcuts : key.Cuts := hkey.cuts
  have hkeyRegular : key.Regular := hkey.regular
  have hvalRegular : val.Regular := hval.regular
  rw [hcuts.means_entry]
  refine ⟨e.1.1, e.2.1, way.reports e.1.2.2, way.reports e.2.2.2, rfl,
    hkeyBytes.means hkeyRegular way, hvalBytes.means hvalRegular way, ?_⟩
  cases way <;> rfl

omit [LinearOrder K] in
/-- Entries of a fixed size fill a region. -/
theorem misfits_entries (hkey : Built allowed (.value key)) (hval : Built allowed (.value val))
    (hentries : ∀ e ∈ entries, ItemBytes key mode depth e.1.1 e.1.2.1 e.1.2.2 ∧
      ItemBytes val mode depth e.2.1 e.2.2.1 e.2.2.2) :
    misfits (combinedFixedSize key.wireType val.wireType)
      (entries.map entryBytes).flatten.length = false := by
  apply ValueCodec.misfits_flatten
  intro size hsize payload hpayload
  obtain ⟨e, he, rfl⟩ := List.mem_map.mp hpayload
  obtain ⟨hkeyBytes, hvalBytes⟩ := hentries e he
  exact ValueCodec.length_of_means_entry hkey.cuts hval.cuts hsize
    (means_entry hkey hval hkeyBytes hvalBytes .relaxed)

/-- The entries are inserted one after the other. -/
theorem rounds_btreeMap (hkey : Built allowed (.value key)) (hval : Built allowed (.value val))
    (hentries : ∀ e ∈ entries, ItemBytes key mode depth e.1.1 e.1.2.1 e.1.2.2 ∧
      ItemBytes val mode depth e.2.1 e.2.2.1 e.2.2.2) {way : Way}
    {decoded : SortedMap K V × Canonicity} :
    Rounds ((key.entry val).Takes (Collection.btreeMap K V) way mode depth) (.empty, .canonical)
        (entries.map entryBytes) decoded ↔
      (entries.map fun e => e.1.2.1).Nodup ∧ decoded.1.entries.Perm (entries.map entryValue) ∧
        decoded.2 = (way.reports (lowestOf (entries.map entryCanonicity))).update
          (way.ordered (entries.map fun e => e.1.2.1)) := by
  have hmeans : ∀ p ∈ entries.map fun e =>
      (entryBytes e, entryValue e, way.reports (entryCanonicity e)),
      (key.entry val).Means way mode depth p.1 p.2 := by
    intro p hp
    obtain ⟨e, he, rfl⟩ := List.mem_map.mp hp
    exact means_entry hkey hval (hentries e he).1 (hentries e he).2 way
  have hrounds : Rounds ((key.entry val).Takes (Collection.btreeMap K V) way mode depth)
        (.empty, .canonical) (entries.map entryBytes) decoded ↔
      (Collection.btreeMap K V).insertAll way (.empty, .canonical)
        (entries.map fun e => (entryValue e, way.reports (entryCanonicity e))) =
          some (decoded.1, decoded.2) := by
    simpa [List.map_map, Function.comp_def] using ValueCodec.rounds_iff_insertAll hmeans
  have hlowest := lowestOf_reports way (entries.map entryCanonicity)
  rw [hrounds, Collection.btreeMap_insertAll, Canonicity.canonical_update, ← hlowest]
  simp only [List.map_map, Function.comp_def]
  exact Iff.rfl

/-- A map in a delimited region. -/
theorem parses_btreeMap (hkey : Built allowed (.value key)) (hval : Built allowed (.value val))
    (hentries : ∀ e ∈ entries, ItemBytes key mode depth e.1.1 e.1.2.1 e.1.2.2 ∧
      ItemBytes val mode depth e.2.1 e.2.2.1 e.2.2.2)
    (hlength : (entries.map entryBytes).flatten.length < 2 ^ 64) {way : Way} {next rest : Bytes}
    {allowEmpty : Bool} {decoded : SortedMap K V × Canonicity} :
    ((key.map val (Collection.btreeMap K V)).decodeBy way mode allowEmpty depth .empty).Parses
        (Form.packed.bytes .lengthDelimited (entries.map entryBytes) ++ next) decoded rest ↔
      rest = next ∧ (entries.map fun e => e.1.2.1).Nodup ∧
        decoded.1.entries.Perm (entries.map entryValue) ∧
        decoded.2 = (way.reports (lowestOf (entries.map entryCanonicity))).update
          (way.ordered (entries.map fun e => e.1.2.1)) := by
  have hkeyCuts : key.Cuts := hkey.cuts
  have hvalCuts : val.Cuts := hval.cuts
  have hseparate : (key.entry val).Separate := hkeyCuts.separate_entry hvalCuts
  have hmeans : ∀ payload ∈ entries.map entryBytes,
      ∃ meaning, (key.entry val).Means way mode depth payload meaning := by
    intro payload hpayload
    obtain ⟨e, he, rfl⟩ := List.mem_map.mp hpayload
    exact ⟨_, means_entry hkey hval (hentries e he).1 (hentries e he).2 way⟩
  rw [ValueCodec.map, hseparate.parses_packedItems, Form.bytes, List.append_assoc,
    ← rounds_btreeMap hkey hval hentries]
  constructor
  · rintro ⟨payloads, hlt, heq, -, hrounds⟩
    have hdelimited := parseDelimited_append hlt rest
    rw [← heq, parseDelimited_append hlength next] at hdelimited
    obtain ⟨hflat, rfl⟩ : (entries.map entryBytes).flatten = payloads.flatten ∧ next = rest := by
      simpa using hdelimited
    have hne {payload : Bytes} :
        (∃ meaning, (key.entry val).Means way mode depth payload meaning) → payload ≠ [] := by
      rintro ⟨meaning, hmeaning⟩ rfl
      exact hseparate.takes hmeaning
    have hcut {payload payload' rest rest' : Bytes} :
        (∃ meaning, (key.entry val).Means way mode depth payload meaning) →
        (∃ meaning, (key.entry val).Means way mode depth payload' meaning) →
        payload ++ rest = payload' ++ rest' → payload = payload' ∧ rest = rest' := by
      rintro ⟨meaning, hmeaning⟩ ⟨meaning', hmeaning'⟩
      exact hseparate.append_inj hmeaning hmeaning'
    obtain rfl := flatten_inj hne hcut hmeans (ValueCodec.means_of_rounds hrounds) hflat
    exact ⟨rfl, hrounds⟩
  · rintro ⟨rfl, hrounds⟩
    exact ⟨_, hlength, rfl, misfits_entries hkey hval hentries, hrounds⟩

/-- A map, whose keys and values are always packed. -/
theorem btreeMap_decodes (hkey : Built allowed (.value key)) (hval : Built allowed (.value val))
    (hentries : ∀ e ∈ entries, ItemBytes key mode depth e.1.1 e.1.2.1 e.1.2.2 ∧
      ItemBytes val mode depth e.2.1 e.2.2.1 e.2.2.2) {next : Bytes}
    (hlength : (entries.map entryBytes).flatten.length < 2 ^ 64) {β : Type} [Buf β] {buf : β}
    (hbuf : Buf.bytes buf =
      Form.packed.bytes .lengthDelimited (entries.map entryBytes) ++ next) :
    DecodesDistinct buf
      (((key.map val (Collection.btreeMap K V)).plain
        (Collection.btreeMap K V).emptyState).decode mode depth .lengthDelimited .empty)
      (((key.map val (Collection.btreeMap K V)).plain
        (Collection.btreeMap K V).emptyState).decodeDistinguished mode depth .lengthDelimited .empty)
      SortedMap.entries (entries.map entryValue) (entries.map fun e => e.1.2.1).Nodup
      (expectedCanonicity .packed .packed (entries.map fun e => e.1.2.1)
        (entries.map entryCanonicity)) next := by
  have hmap : (key.map val (Collection.btreeMap K V)).Regular :=
    (Built.map (.btreeMap K V) hkey hval).regular
  apply decodesDistinct_of_parses (hmap.plain _)
  · intro hdistinct
    have hkeys : (entries.map entryValue).map Prod.fst = entries.map fun e => e.1.2.1 := by
      simp [entryValue, Function.comp_def]
    exact SortedMap.exists_perm (hkeys ▸ hdistinct)
  · intro way decoded rest
    have hempty {map : SortedMap K V} (hperm : map.entries.Perm (entries.map entryValue)) :
        (Collection.btreeMap K V).isEmpty map = true ↔ entries.map (fun e => e.1.2.1) = [] := by
      have hnil : entries.map entryValue = [] ↔ map.entries = [] := by
        rw [← List.length_eq_zero_iff, ← hperm.length_eq, List.length_eq_zero_iff]
      rw [List.map_eq_nil_iff, ← List.map_eq_nil_iff (f := entryValue), hnil]
      exact List.isEmpty_iff
    have hcanon {map : SortedMap K V} (hperm : map.entries.Perm (entries.map entryValue)) :
        (if (Collection.btreeMap K V).emptyState.isEmpty map = true then
            ((way.reports (lowestOf (entries.map entryCanonicity))).update
              (way.ordered (entries.map fun e => e.1.2.1))).update way.demoted
          else (way.reports (lowestOf (entries.map entryCanonicity))).update
            (way.ordered (entries.map fun e => e.1.2.1))) =
          way.reports (expectedCanonicity .packed .packed (entries.map fun e => e.1.2.1)
            (entries.map entryCanonicity)) := by
      have hown : _ = way.reports
          (expectedCanonicity .packed .packed _ (entries.map entryCanonicity)) :=
        canonicity_own (hempty hperm) fun hunpacked => by cases hunpacked
      simp only [true_and] at hown
      exact hown
    have hchecks : (key.map val (Collection.btreeMap K V)).checksEmpty = false := rfl
    have hwire : (key.map val (Collection.btreeMap K V)).wireType = .lengthDelimited := rfl
    rw [hbuf, ValueCodec.plain_decodeBy, parses_bind]
    simp only [ValueCodec.parses_decodeFieldBy, parses_btreeMap hkey hval hentries hlength,
      Way.parses_refuseEmpty, hchecks, hwire, Bool.not_false, Bool.true_and, true_and]
    constructor
    · rintro ⟨inserted, mid, ⟨rfl, hdistinct, hperm, hcanonicity⟩, rfl, rfl⟩
      rw [hcanonicity]
      exact ⟨rfl, hdistinct, hperm, hcanon hperm⟩
    · rintro ⟨rfl, hdistinct, hperm, hcanonicity⟩
      refine ⟨(decoded.1, (way.reports (lowestOf (entries.map entryCanonicity))).update
        (way.ordered (entries.map fun e => e.1.2.1))), rest, ⟨rfl, hdistinct, hperm, rfl⟩, ?_, rfl⟩
      exact Prod.ext rfl (hcanonicity.trans (hcanon hperm).symm)

end

/-- A field is canonical just if it is of its own form, not empty, in order, and
all of it is canonical. -/
theorem expectedCanonicity_eq_canonical {K : Type} [LinearOrder K] {own form : Form} {keys : List K}
    {canons : List Canonicity} :
    expectedCanonicity own form keys canons = .canonical ↔
      form = own ∧ keys ≠ [] ∧ keys.Pairwise (· < ·) ∧ ∀ canon ∈ canons, canon = .canonical := by
  have hlowest : lowestOf canons = .canonical ↔ ∀ canon ∈ canons, canon = .canonical := by
    induction canons with
    | nil => simp [lowestOf]
    | cons canon canons ih =>
        have hcons : lowestOf (canon :: canons) = canon.update (lowestOf canons) := rfl
        rw [hcons, List.forall_mem_cons, ← ih]
        cases canon <;> cases lowestOf canons <;> decide
  unfold expectedCanonicity
  split_ifs with h
  · rw [hlowest]
    tauto
  · constructor
    · rintro ⟨⟩
    · rintro ⟨hform, hne, hordered, -⟩
      exact absurd ⟨hform, hne, hordered⟩ h

/-- Sets and maps are decoded from distinct items, in any order, and into just
these. Only the order, the form and the items themselves decide how canonical
they are. -/
theorem sorted_collections_decode {allowed : Features} {mode : DecodingMode} {depth : Nat}
    {next : Bytes} {β : Type} [Buf β] {buf : β} :
    (∀ {T : Type} [LinearOrder T] {item : ValueCodec T} (items : List (Bytes × T × Canonicity))
      (own form : Form), Built allowed (.value item) →
      (form = own ∨ item.wireType ≠ .lengthDelimited) →
      (∀ i ∈ items, ItemBytes item mode depth i.1 i.2.1 i.2.2) →
      (form = .packed → (items.map Prod.fst).flatten.length < 2 ^ 64) →
      (form = .unpacked → items ≠ [] ∧ NoRepeat next) →
      Buf.bytes buf = form.bytes item.wireType (items.map Prod.fst) ++ next →
      DecodesDistinct buf
        ((own.field item (Collection.btreeSet T)).decode mode depth (form.wireType item.wireType)
          .empty)
        ((own.field item (Collection.btreeSet T)).decodeDistinguished mode depth
          (form.wireType item.wireType) .empty)
        SortedMap.keys (items.map fun i => i.2.1) (items.map fun i => i.2.1).Nodup
        (expectedCanonicity own form (items.map fun i => i.2.1) (items.map fun i => i.2.2)) next) ∧
    (∀ {K V : Type} [LinearOrder K] {key : ValueCodec K} {val : ValueCodec V}
      (entries : List ((Bytes × K × Canonicity) × (Bytes × V × Canonicity))),
      Built allowed (.value key) → Built allowed (.value val) →
      (∀ e ∈ entries, ItemBytes key mode depth e.1.1 e.1.2.1 e.1.2.2 ∧
        ItemBytes val mode depth e.2.1 e.2.2.1 e.2.2.2) →
      (entries.map entryBytes).flatten.length < 2 ^ 64 →
      Buf.bytes buf = Form.packed.bytes .lengthDelimited (entries.map entryBytes) ++ next →
      DecodesDistinct buf
        (((key.map val (Collection.btreeMap K V)).plain
          (Collection.btreeMap K V).emptyState).decode mode depth .lengthDelimited .empty)
        (((key.map val (Collection.btreeMap K V)).plain
          (Collection.btreeMap K V).emptyState).decodeDistinguished mode depth .lengthDelimited
            .empty)
        SortedMap.entries (entries.map entryValue) (entries.map fun e => e.1.2.1).Nodup
        (expectedCanonicity .packed .packed (entries.map fun e => e.1.2.1)
          (entries.map entryCanonicity)) next) ∧
    ∀ {K : Type} [LinearOrder K] (own form : Form) (keys : List K) (canons : List Canonicity),
      expectedCanonicity own form keys canons = .canonical ↔
        form = own ∧ keys ≠ [] ∧ keys.Pairwise (· < ·) ∧ ∀ canon ∈ canons, canon = .canonical := by
  refine ⟨?_, ?_, fun own form keys canons => expectedCanonicity_eq_canonical⟩
  · intro T _ item items own form hitem hform hitems hlength hunpacked hbuf
    exact btreeSet_decodes hitem own form hform hitems hlength (fun h => (hunpacked h).1)
      (fun h => (hunpacked h).2) hbuf
  · intro K V _ key val entries hkey hval hentries hlength hbuf
    exact btreeMap_decodes hkey hval hentries hlength hbuf

/-- A varint is an item. -/
theorem itemBytes_varint {T : Type} {s : VarintScalar T} (h : s.Lawful) (mode : DecodingMode)
    (depth : Nat) (value : T) :
    ItemBytes s.scalar.codec mode depth (varint (s.toUint64 value)) value .canonical := by
  have hbuilt : Built .all (.value s.scalar.codec) := .scalar (.varint h)
  have hregular : s.scalar.codec.Regular := hbuilt.regular
  have hrelaxed : (s.scalar.decode mode).Parses (varint (s.toUint64 value)) value [] := by
    apply parses_op.mpr
    refine ⟨s.toUint64 value, [], parses_decodeVarint.mpr ⟨h.lt value, (List.append_nil _).symm⟩, ?_⟩
    exact parses_ofResult.mpr ⟨h.from_to value, rfl⟩
  constructor
  · exact (leaves_iff (hregular.decodeValue mode depth _)).mpr hrelaxed
  · have hdistinguished := hregular.regular .distinguished mode true depth s.scalar.codec.forOverwrite
    refine (leaves_iff hdistinguished).mpr ?_
    exact parses_asCanonical.mpr ⟨hrelaxed, rfl⟩

/-- Two items in the wrong order. -/
theorem sorted_collections_decode_bool :
    DecodesDistinct ([1, 0, 0] : Bytes)
      ((Form.unpacked.field VarintScalar.bool.scalar.codec (Collection.btreeSet Bool)).decode .owned
        100 .varint .empty)
      ((Form.unpacked.field VarintScalar.bool.scalar.codec
        (Collection.btreeSet Bool)).decodeDistinguished .owned 100 .varint .empty)
      SortedMap.keys [true, false] [true, false].Nodup .notCanonical [] := by
  have hitem : Built .all (.value VarintScalar.bool.scalar.codec) :=
    .scalar (.varint VarintScalar.lawful_bool)
  have hbytes (value : Bool) : varint (VarintScalar.bool.toUint64 value) = [UInt8.ofNat value.toNat] := by
    cases value <;> decide +kernel
  have hitems : ∀ i ∈ [(([1] : Bytes), true, Canonicity.canonical), ([0], false, .canonical)],
      ItemBytes VarintScalar.bool.scalar.codec .owned 100 i.1 i.2.1 i.2.2 := by
    intro i hi
    rcases List.mem_pair.mp hi with rfl | rfl
    · exact hbytes true ▸ itemBytes_varint VarintScalar.lawful_bool .owned 100 true
    · exact hbytes false ▸ itemBytes_varint VarintScalar.lawful_bool .owned 100 false
  have hbuf : Buf.bytes ([1, 0, 0] : Bytes) = Form.unpacked.bytes .varint [[1], [0]] ++ [] := by
    decide +kernel
  exact sorted_collections_decode.1 _ .unpacked .unpacked hitem (.inl rfl) hitems
    (by rintro ⟨⟩) (fun _ => ⟨by simp, by rintro key ⟨⟩⟩) hbuf

end Bilrost
