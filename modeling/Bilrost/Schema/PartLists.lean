import Bilrost.Guarantees.TrimmedArrays
import Bilrost.Schema.Items
import Bilrost.Schema.Writes

/-!
Packed varints in a `LocalProxy`. What is decoded is the proxy that stands for
the list of the varints, and no list is decoded from other bytes than those that
it is encoded to.
-/

namespace Bilrost

open Program

namespace LocalProxy

variable {T : Type} {n : Nat} {empty : T}

theorem length_padded {items : List T} (h : items.length ≤ n) :
    (padded n empty items).length = n := by
  rw [padded, List.length_append, List.length_replicate]
  omega

/-- The proxy that stands for a list. -/
def ofItems (empty : T) (items : List T) (h : items.length ≤ n) : LocalProxy T n where
  arr := ⟨padded n empty items, length_padded h⟩
  size := items.length
  size_le := h

theorem ext_toList {proxy proxy' : LocalProxy T n} (harr : proxy.arr.toList = proxy'.arr.toList)
    (hsize : proxy.size = proxy'.size) : proxy = proxy' := by
  obtain ⟨arr, size, hle⟩ := proxy
  obtain ⟨arr', size', hle'⟩ := proxy'
  obtain rfl : arr = arr' := List.Vector.toList_injective harr
  obtain rfl : size = size' := hsize
  rfl

section
variable {items : List T} (h : items.length ≤ n)

@[simp] theorem items_ofItems : (ofItems empty items h).items = items := List.take_left

theorem new_eq_ofItems : (LocalProxy.new empty : LocalProxy T n) =
    ofItems empty [] (Nat.zero_le n) := ext_toList rfl rfl

theorem insert_ofItems (hlt : items.length < n) (item : T) :
    (ofItems empty items h).insert item =
      .ok (ofItems empty (items ++ [item]) (by simpa using hlt)) := by
  have hinsert : ∃ proxy, (ofItems empty items h).insert item = .ok proxy := ⟨_, dif_pos hlt⟩
  obtain ⟨proxy, hproxy⟩ := hinsert
  obtain ⟨hitems, harr⟩ := items_insert hproxy
  rw [hproxy]
  congr 1
  apply ext_toList
  · rw [harr, items_ofItems]
    show items ++ item :: (padded n empty items).drop (items.length + 1) =
      padded n empty (items ++ [item])
    rw [padded, List.drop_length_add_append, List.drop_replicate, padded, List.append_assoc,
      List.length_append, List.length_singleton, Nat.sub_sub]
    rfl
  · rw [← length_items, hitems, items_ofItems]
    rfl

theorem insert_full (hfull : items.length = n) (item : T) :
    (ofItems empty items h).insert item = .error .invalidValue :=
  dif_neg fun hlt => hlt.ne hfull

/-- What is inserted into a proxy is appended to its list. -/
theorem insertAll_ofItems {way : Way} {canon : Canonicity} {more : List T}
    {x : LocalProxy T n × Canonicity} :
    (collection T n empty).insertAll way (ofItems empty items h, canon)
        (more.map fun item => (item, .canonical)) = some x ↔
      ∃ hall : (items ++ more).length ≤ n, x = (ofItems empty (items ++ more) hall, canon) := by
  have hinserted (items : List T) (h : items.length ≤ n) (item : T) :
      (collection T n empty).inserted way (ofItems empty items h) item =
        ((ofItems empty items h).insert item).map fun proxy => (proxy, .canonical) := by
    cases way <;> rfl
  induction more generalizing items with
  | nil =>
      simp only [List.map_nil, Collection.insertAll, Option.some.injEq, List.append_nil]
      constructor
      · rintro rfl
        exact ⟨h, rfl⟩
      · rintro ⟨-, rfl⟩
        rfl
  | cons item more ih =>
      rw [List.map_cons, Collection.insertAll, hinserted]
      by_cases hlt : items.length < n
      · rw [insert_ofItems h hlt]
        simp only [Except.map, Canonicity.update_canonical, ih, List.append_assoc,
          List.singleton_append]
      · rw [insert_full h (by omega)]
        simp only [Except.map, reduceCtorEq, false_iff]
        rintro ⟨hall, -⟩
        rw [List.length_append, List.length_cons] at hall
        omega

end

section
variable {state : EmptyState T} (hlawful : state.Lawful empty)
include hlawful

theorem newWithoutEmptySuffix_eq (arr : List.Vector T n) :
    ∃ h, newWithoutEmptySuffix state arr = ofItems empty (trimmed state arr.toList) h := by
  have hitems : (newWithoutEmptySuffix state arr).items = trimmed state arr.toList :=
    items_newWithoutEmptySuffix arr
  have hlength : (trimmed state arr.toList).length = (newWithoutEmptySuffix state arr).size := by
    rw [← hitems, length_items]
  refine ⟨hlength.trans_le (newWithoutEmptySuffix state arr).size_le, ?_⟩
  apply ext_toList
  · exact (padded_trimmed hlawful arr.toList_length).symm
  · exact hlength.symm

/-- What a list is filled up with is trimmed again. -/
theorem trimmed_padded {items : List T} :
    trimmed state (padded n empty items) = trimmed state items := by
  have hempty : ∀ item ∈ (List.replicate (n - items.length) empty).reverse,
      state.isEmpty item = true := by
    intro item hmem
    rw [List.mem_reverse] at hmem
    exact (hlawful item).mpr (List.eq_of_mem_replicate hmem)
  rw [trimmed, padded, List.rdropWhile, List.reverse_append, List.dropWhile_append_of_pos hempty,
    trimmed, List.rdropWhile]

/-- A list is what it expands to without the empty end if it does not end in an
empty item. -/
theorem trimmed_padded_eq_iff {items : List T} :
    trimmed state (padded n empty items) = items ↔ items.getLast? ≠ some empty := by
  rw [trimmed_padded hlawful, trimmed, List.rdropWhile_eq_self_iff]
  constructor
  · intro hlast hsome
    have hne : items ≠ [] := List.ne_nil_of_mem (List.mem_of_getLast? hsome)
    exact hlast hne ((hlawful _).mpr ((List.getLast_eq_iff_getLast?_eq_some hne).mpr hsome))
  · intro hlast hne hget
    exact hlast ((List.getLast?_eq_some_getLast hne).trans (congrArg some ((hlawful _).mp hget)))

end

end LocalProxy

namespace VarintScalar

variable {T : Type} {part : VarintScalar T}

/-- The varints of a list, one after the other. -/
def varints (part : VarintScalar T) (items : List T) : Bytes :=
  items.flatMap fun item => varint (part.toUint64 item)

/-- A list of varints as one delimited value. -/
def packedVarints (part : VarintScalar T) (items : List T) : Bytes :=
  varint (part.varints items).length ++ part.varints items

theorem length_varints_le (items : List T) : (part.varints items).length ≤ 9 * items.length := by
  induction items with
  | nil => exact Nat.le_refl 0
  | cons item items ih =>
      have hle := varint_length_le (part.toUint64 item)
      rw [varints, List.flatMap_cons, List.length_append, List.length_cons]
      rw [varints] at ih
      omega

theorem encodeAll_varints (items : List T) :
    encodeAll part.scalar.codec.encodeValue items = some (part.varints items) := by
  induction items with
  | nil => rfl
  | cons item items ih =>
      apply encodeAll_cons_eq_some.mpr
      refine ⟨_, _, ?_, ih, rfl⟩
      exact congrArg some (encodeVarint_eq _)

section
variable (hpart : part.Lawful)
include hpart

/-- A collection of varints is encoded as the list of them. -/
theorem encodeValue_packed {C : Type} (coll : Collection C T) (items : C) :
    (part.scalar.codec.packed coll).encodeValue items =
      some (part.packedVarints (coll.iter items)) := by
  have hwrites : part.scalar.codec.Writes True := (Scalar.Standard.varint hpart).writes True
  have hall : encodeAll part.scalar.codec.encodeValue (coll.iter items) = some _ :=
    encodeAll_varints (coll.iter items)
  have hlen := hwrites.many hall
  show encodeDelimited _ _ = _
  rw [hall, hlen]
  simp [encodeDelimited, packedVarints, encodeVarint_eq]

/-- What a payload means as one varint. -/
theorem means_iff {way : Way} {mode : DecodingMode} {depth : Nat} {payload : Bytes}
    {meaning : T × Canonicity} : part.scalar.codec.Means way mode depth payload meaning ↔
      payload = varint (part.toUint64 meaning.1) ∧ meaning.2 = .canonical := by
  rw [ValueCodec.Means, Scalar.decodeBy_eq, parses_asCanonical]
  apply and_congr_left'
  show (op .decodeVarint fun n => ofResult (part.fromUint64 n)).Parses _ _ _ ↔ _
  simp only [parses_op, parses_decodeVarint, parses_ofResult]
  constructor
  · rintro ⟨n, mid, ⟨hlt, rfl⟩, hfrom, rfl⟩
    rw [hpart.to_from hfrom, List.append_nil]
  · rintro rfl
    exact ⟨_, [], ⟨hpart.lt _, (List.append_nil _).symm⟩, hpart.from_to _, rfl⟩

variable {n : Nat} {empty : T}

/-- What is decoded into a new proxy: the proxy of a list that fits, from the
bytes of that list. -/
theorem parses_packed_localProxy (hn : 9 * n < 2 ^ 64) {way : Way} {mode : DecodingMode}
    {allowEmpty : Bool} {depth : Nat} {bytes rest : Bytes} {x : LocalProxy T n × Canonicity} :
    ((part.scalar.codec.packed (LocalProxy.collection T n empty)).decodeBy way mode allowEmpty depth
        (LocalProxy.new empty)).Parses bytes x rest ↔
      ∃ items h, x = (LocalProxy.ofItems empty items h, .canonical) ∧
        bytes = part.packedVarints items ++ rest := by
  have hcuts : part.scalar.codec.Cuts := (Scalar.Standard.varint hpart).cuts
  have hmeans (items : List T) : ∀ p ∈ items.map fun item =>
      (varint (part.toUint64 item), item, Canonicity.canonical),
      part.scalar.codec.Means way mode depth p.1 p.2 := by
    intro p hp
    obtain ⟨item, -, rfl⟩ := List.mem_map.mp hp
    exact (means_iff hpart).mpr ⟨rfl, rfl⟩
  have hrounds (items : List T) : Rounds
      (part.scalar.codec.Takes (LocalProxy.collection T n empty) way mode depth)
      (LocalProxy.new empty, .canonical) (items.map fun item => varint (part.toUint64 item)) x ↔
        ∃ h, x = (LocalProxy.ofItems empty items h, .canonical) := by
    have hinsert : (LocalProxy.collection T n empty).insertAll way
        (LocalProxy.ofItems empty [] (Nat.zero_le n), .canonical)
        (items.map fun item => (item, .canonical)) = some x ↔ _ :=
      LocalProxy.insertAll_ofItems (Nat.zero_le n)
    apply Iff.trans _ hinsert
    rw [← LocalProxy.new_eq_ofItems]
    apply (Iff.trans _ (ValueCodec.rounds_iff_insertAll (hmeans items))).trans
    · rw [List.map_map]
      exact Iff.rfl
    · rw [List.map_map]
      exact Iff.rfl
  rw [hcuts.parses_packed]
  constructor
  · rintro ⟨payloads, -, rfl, htakes⟩
    have hpayloads : ∃ items : List T,
        payloads = items.map fun item => varint (part.toUint64 item) := by
      have hall := ValueCodec.means_of_rounds htakes
      clear htakes
      induction payloads with
      | nil => exact ⟨[], rfl⟩
      | cons payload payloads ih =>
          obtain ⟨meaning, hmeaning⟩ := hall payload List.mem_cons_self
          obtain ⟨items, rfl⟩ := ih fun p hp => hall p (List.mem_cons_of_mem _ hp)
          obtain ⟨rfl, -⟩ := (means_iff hpart).mp hmeaning
          exact ⟨meaning.1 :: items, rfl⟩
    obtain ⟨items, rfl⟩ := hpayloads
    obtain ⟨h, rfl⟩ := (hrounds items).mp htakes
    exact ⟨items, h, rfl, (List.append_assoc ..).symm⟩
  · rintro ⟨items, h, rfl, rfl⟩
    have hle : (part.varints items).length ≤ 9 * items.length := length_varints_le items
    refine ⟨_, ?_, ?_, (hrounds items).mpr ⟨h, rfl⟩⟩
    · show (part.varints items).length < 2 ^ 64
      omega
    · exact List.append_assoc ..

end

end VarintScalar

end Bilrost
