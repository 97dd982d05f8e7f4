import Bilrost.Base.SortedMap
import Bilrost.Codec.Basic

/-!
Collections of items. A mapping is a collection of pairs of keys and values.
Sorted collections notice items that come in the wrong order, hashed ones have
no order and no distinguished form, and `LocalProxy` is an array that is filled
from the front.
-/

namespace Bilrost

/-- `Collection`, `DistinguishedCollection` and their emptiness. A mapping
inserts a key and a value as one item. -/
structure Collection (C T : Type) where
  empty : C
  isEmpty : C → Bool
  clear : C → C
  len : C → Nat
  iter : C → List T
  reversed : C → List T
  insert : C → T → Except DecodeErrorKind C
  insertDistinguished : C → T → Except DecodeErrorKind (C × Canonicity)

namespace Collection

/-- `TriviallyDistinguishedCollection`: every order is canonical. -/
def trivially {C T : Type} (insert : C → T → Except DecodeErrorKind C) (items : C) (item : T) :
    Except DecodeErrorKind (C × Canonicity) :=
  (insert items item).map fun items => (items, .canonical)

/-- `Vec`. -/
def vec (T : Type) : Collection (List T) T where
  empty := []
  isEmpty := List.isEmpty
  clear _ := []
  len := List.length
  iter := id
  reversed := List.reverse
  insert items item := .ok (items ++ [item])
  insertDistinguished := trivially fun items item => .ok (items ++ [item])

/-- `ArrayVec` with room for `capacity` items. -/
def arrayVec (T : Type) (capacity : Nat) : Collection {l : List T // l.length ≤ capacity} T where
  empty := ⟨[], Nat.zero_le _⟩
  isEmpty items := items.val.isEmpty
  clear _ := ⟨[], Nat.zero_le _⟩
  len items := items.val.length
  iter items := items.val
  reversed items := items.val.reverse
  insert := push
  insertDistinguished := trivially push
where
  push (items : {l : List T // l.length ≤ capacity}) (item : T) :
      Except DecodeErrorKind {l : List T // l.length ≤ capacity} :=
    if h : items.val.length < capacity then .ok ⟨items.val ++ [item], by simpa using h⟩
    else .error .invalidValue

/-- `BTreeMap`. -/
def btreeMap (K V : Type) [LinearOrder K] : Collection (SortedMap K V) (K × V) where
  empty := .empty
  isEmpty := SortedMap.isEmpty
  clear _ := .empty
  len map := map.entries.length
  iter map := map.entries
  reversed map := map.entries.reverse
  insert := insertNew
  insertDistinguished map entry :=
    match map.last with
    | none => .ok (map.insert entry.1 entry.2, .canonical)
    | some last =>
        match compare entry.1 last.1 with
        | .lt => (insertNew map entry).map fun map => (map, .notCanonical)
        | .eq => .error .unexpectedlyRepeated
        | .gt => .ok (map.insert entry.1 entry.2, .canonical)
where
  insertNew (map : SortedMap K V) (entry : K × V) : Except DecodeErrorKind (SortedMap K V) :=
    if map.contains entry.1 then .error .unexpectedlyRepeated
    else .ok (map.insert entry.1 entry.2)

/-- The same collection with items of another type. -/
def mapItems {C T U : Type} (coll : Collection C T) (view : T → U) (back : U → T) :
    Collection C U where
  empty := coll.empty
  isEmpty := coll.isEmpty
  clear := coll.clear
  len := coll.len
  iter items := (coll.iter items).map view
  reversed items := (coll.reversed items).map view
  insert items item := coll.insert items (back item)
  insertDistinguished items item := coll.insertDistinguished items (back item)

/-- `BTreeSet`: a sorted map to `Unit`. -/
def btreeSet (T : Type) [LinearOrder T] : Collection (SortedMap T Unit) T :=
  (btreeMap T Unit).mapItems Prod.fst fun item => (item, ())

/-- `HashMap`: distinct keys in no particular order, which `place` stands for.
`reversed` goes the same way as `iter`. There is no distinguished form; items
are always taken. -/
def hashMap (K V : Type) [DecidableEq K] (place : List (K × V) → Nat) :
    Collection {l : List (K × V) // (l.map Prod.fst).Nodup} (K × V) where
  empty := ⟨[], by simp⟩
  isEmpty map := map.val.isEmpty
  clear _ := ⟨[], by simp⟩
  len map := map.val.length
  iter map := map.val
  reversed map := map.val
  insert := insertNew
  insertDistinguished := trivially insertNew
where
  insertNew (map : {l : List (K × V) // (l.map Prod.fst).Nodup}) (entry : K × V) :
      Except DecodeErrorKind {l : List (K × V) // (l.map Prod.fst).Nodup} :=
    if h : entry.1 ∈ map.val.map Prod.fst then .error .unexpectedlyRepeated
    else .ok ⟨map.val.insertIdx (min (place map.val) map.val.length) entry, by
      have hperm := List.perm_insertIdx entry map.val (min_le_right (place map.val) _)
      rw [(hperm.map Prod.fst).nodup_iff]
      exact List.nodup_cons.mpr ⟨h, map.property⟩⟩

/-- `HashSet`. -/
def hashSet (T : Type) [DecidableEq T] (place : List (T × Unit) → Nat) :
    Collection {l : List (T × Unit) // (l.map Prod.fst).Nodup} T :=
  (hashMap T Unit place).mapItems Prod.fst fun item => (item, ())

end Collection

/-- `LocalProxy`: the first `size` items of an array. -/
structure LocalProxy (T : Type) (n : Nat) where
  arr : List.Vector T n
  size : Nat
  size_le : size ≤ n

namespace LocalProxy

variable {T : Type} {n : Nat}

/-- `Deref`: the items that are there. -/
def items (proxy : LocalProxy T n) : List T := proxy.arr.toList.take proxy.size

/-- `new_without_empty_suffix`. -/
def newWithoutEmptySuffix (state : EmptyState T) (arr : List.Vector T n) : LocalProxy T n where
  arr := arr
  size := n - (arr.toList.reverse.takeWhile state.isEmpty).length
  size_le := Nat.sub_le _ _

/-- `into_inner`. -/
def intoInner (proxy : LocalProxy T n) : List.Vector T n := proxy.arr

/-- `into_inner_distinguished`. -/
def intoInnerDistinguished (state : EmptyState T) (proxy : LocalProxy T n) :
    List.Vector T n × Canonicity :=
  match proxy.items.reverse.head? with
  | some lastItem =>
      (proxy.arr, if state.isEmpty lastItem then .notCanonical else .canonical)
  | none => (proxy.arr, .canonical)

def insert (proxy : LocalProxy T n) (item : T) : Except DecodeErrorKind (LocalProxy T n) :=
  if h : proxy.size < n then .ok ⟨proxy.arr.set ⟨proxy.size, h⟩ item, proxy.size + 1, h⟩
  else .error .invalidValue

/-- An array of the empty state. -/
def new (empty : T) : LocalProxy T n := ⟨List.Vector.replicate n empty, 0, Nat.zero_le _⟩

def collection (T : Type) (n : Nat) (empty : T) : Collection (LocalProxy T n) T where
  empty := new empty
  isEmpty proxy := proxy.size == 0
  clear proxy := ⟨proxy.arr, 0, Nat.zero_le _⟩
  len := size
  iter := items
  reversed proxy := proxy.items.reverse
  insert := insert
  insertDistinguished := Collection.trivially insert

end LocalProxy

end Bilrost
