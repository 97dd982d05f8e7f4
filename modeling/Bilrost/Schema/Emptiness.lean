import Bilrost.Schema.MessageLocks

/-!
Fields that write nothing exactly if they are empty, and messages that are empty
exactly if they are encoded as no bytes at all. A field that is not empty writes
a key at least. The one that does not, an array without items that is there, is
left out.
-/

namespace Bilrost

theorem encodeKey_ne_nil {tw tw' : TagWriter} {tag : Nat} {wireType : WireType} {key : Bytes}
    (h : tw.encodeKey tag wireType = some (key, tw')) : key ≠ [] := by
  unfold TagWriter.encodeKey at h
  split_ifs at h
  obtain ⟨rfl, -⟩ := Prod.ext_iff.mp (Option.some.inj h)
  rw [encodeVarint_eq]
  exact varint_ne_nil _

theorem keyLen_pos {tm tm' : TagMeasurer} {tag len : Nat}
    (h : tm.keyLen tag = some (len, tm')) : 0 < len := by
  cases tm with
  | trivial =>
      obtain ⟨rfl, -⟩ := Prod.ext_iff.mp (Option.some.inj h)
      exact Nat.one_pos
  | runtime lastTag =>
      rw [TagMeasurer.keyLen] at h
      split_ifs at h
      obtain ⟨rfl, -⟩ := Prod.ext_iff.mp (Option.some.inj h)
      rw [encodedLenVarint_eq]
      exact varint_length_pos _

/-- A field is written if and only if it is not empty. -/
structure MessageField.Shows {T : Type} (field : MessageField T) : Prop where
  empty : field.isEmpty field.empty = true
  clear (value : T) : field.isEmpty (field.clear value) = true
  currentTag (value : T) : (field.currentTag value).isSome = !field.isEmpty value
  encode_empty {value : T} : field.isEmpty value = true → ∀ tw, field.encode value tw = some ([], tw)
  encodedLen_empty {value : T} :
    field.isEmpty value = true → ∀ tm, field.encodedLen value tm = some (0, tm)
  encode_ne {value : T} {tw tw' : TagWriter} {bytes : Bytes} : field.isEmpty value = false →
    field.encode value tw = some (bytes, tw') → bytes ≠ []
  encodedLen_pos {value : T} {tm tm' : TagMeasurer} {len : Nat} : field.isEmpty value = false →
    field.encodedLen value tm = some (len, tm') → 0 < len

def FieldCodec.Shows {T : Type} (codec : FieldCodec T) : Prop := ∀ tag, (codec.tagged tag).Shows

/-- The empty messages are those without bytes. -/
structure MessageCodec.Shows {M : Type} (codec : MessageCodec M) : Prop where
  empty : codec.isEmpty codec.empty = true
  clear (m : M) : codec.isEmpty (codec.clear m) = true
  rawEncodedLen (m : M) : codec.isEmpty m = true ↔ codec.rawEncodedLen m = some 0
  rawEncode (m : M) : codec.isEmpty m = true ↔ codec.rawEncode m = some []

namespace ValueCodec

variable {T : Type} {codec : ValueCodec T} {tag : Nat} {value : T}

theorem encodeField_ne_nil {tw tw' : TagWriter} {bytes : Bytes}
    (h : codec.encodeField tag value tw = some (bytes, tw')) : bytes ≠ [] := by
  obtain ⟨⟨key, tw₁⟩, hkey, h⟩ := Option.bind_eq_some_iff.mp h
  obtain ⟨content, -, h⟩ := Option.bind_eq_some_iff.mp h
  obtain ⟨rfl, -⟩ := Prod.ext_iff.mp (Option.some.inj h)
  exact List.append_ne_nil_of_left_ne_nil (encodeKey_ne_nil hkey) _

theorem fieldEncodedLen_pos {tm tm' : TagMeasurer} {len : Nat}
    (h : codec.fieldEncodedLen tag value tm = some (len, tm')) : 0 < len := by
  obtain ⟨⟨keyLen, tm₁⟩, hkey, h⟩ := Option.bind_eq_some_iff.mp h
  obtain ⟨content, -, h⟩ := Option.bind_eq_some_iff.mp h
  obtain ⟨rfl, -⟩ := Prod.ext_iff.mp (Option.some.inj h)
  exact Nat.add_pos_left (keyLen_pos hkey) _

theorem encodeFields_ne_nil {values : List T} (hne : values ≠ []) {tw tw' : TagWriter}
    {bytes : Bytes} (h : codec.encodeFields tag values tw = some (bytes, tw')) : bytes ≠ [] := by
  cases values with
  | nil => exact absurd rfl hne
  | cons v vs =>
      obtain ⟨⟨first, tw₁⟩, hfirst, h⟩ := Option.bind_eq_some_iff.mp h
      obtain ⟨⟨rest, tw₂⟩, -, h⟩ := Option.bind_eq_some_iff.mp h
      obtain ⟨rfl, -⟩ := Prod.ext_iff.mp (Option.some.inj h)
      exact List.append_ne_nil_of_left_ne_nil (encodeField_ne_nil hfirst) _

/-- With one value at least, the keys take a byte at least. -/
theorem fieldsEncodedLen_pos {values : List T} {count : Nat} (hcount : 0 < count)
    {tm tm' : TagMeasurer} {len : Nat}
    (h : codec.fieldsEncodedLen tag values count tm = some (len, tm')) : 0 < len := by
  obtain ⟨⟨keyLen, tm₁⟩, hkey, h⟩ := Option.bind_eq_some_iff.mp h
  obtain ⟨content, -, h⟩ := Option.bind_eq_some_iff.mp h
  obtain ⟨rfl, -⟩ := Prod.ext_iff.mp (Option.some.inj h)
  have hpos := keyLen_pos hkey
  show 0 < keyLen + content + count - 1
  omega

end ValueCodec

theorem Collection.Standard.isEmpty_iter {allowed : Features} {C T : Type} {coll : Collection C T}
    (h : coll.Standard allowed) (items : C) : coll.isEmpty items = (coll.iter items).isEmpty := by
  cases h with
  | vec => rfl
  | arrayVec => rfl
  | btreeMap => rfl
  | btreeSet => exact List.isEmpty_map.symm
  | hashMap => rfl
  | hashSet => exact List.isEmpty_map.symm

theorem Collection.Standard.len_iter {allowed : Features} {C T : Type} {coll : Collection C T}
    (h : coll.Standard allowed) (items : C) : coll.len items = (coll.iter items).length := by
  cases h with
  | vec => rfl
  | arrayVec => rfl
  | btreeMap => rfl
  | btreeSet => exact List.length_map Prod.fst |>.symm
  | hashMap => rfl
  | hashSet => exact List.length_map Prod.fst |>.symm

namespace ValueCodec

variable {T C : Type} {codec item : ValueCodec T} {coll : Collection C T} {state : EmptyState T}

theorem Empties.isEmpty_forOverwrite (h : codec.Empties state)
    (hrefl : codec.same false codec.forOverwrite codec.forOverwrite) :
    state.isEmpty codec.forOverwrite = true := (h.isEmpty _).mpr hrefl

theorem Empties.isEmpty_clear (h : codec.Empties state) (value : T) :
    state.isEmpty (state.clear value) = true := (h.isEmpty _).mpr (h.clear value)

/-- A field that is written as one value unless it is empty. -/
structure Guards (codec : ValueCodec T) (field : FieldCodec T) : Prop where
  encode (tag : Nat) (value : T) (tw : TagWriter) : field.encode tag value tw =
    if field.emptyState.isEmpty value then some ([], tw) else codec.encodeField tag value tw
  prependEncode (tag : Nat) (value : T) (buf : Bytes) (tw : TagRevWriter) :
    field.prependEncode tag value buf tw =
      if field.emptyState.isEmpty value then some (buf, tw) else codec.prependField tag value buf tw
  encodedLen (tag : Nat) (value : T) (tm : TagMeasurer) : field.encodedLen tag value tm =
    if field.emptyState.isEmpty value then some (0, tm) else codec.fieldEncodedLen tag value tm

theorem guards_plain (codec : ValueCodec T) (state : EmptyState T) :
    codec.Guards (codec.plain state) :=
  ⟨fun _ _ _ => rfl, fun _ _ _ _ => rfl, fun _ _ _ => rfl⟩

theorem guards_packedField (item : ValueCodec T) (coll : Collection C T) :
    (item.packed coll).Guards (item.packedField coll) :=
  ⟨fun _ _ _ => rfl, fun _ _ _ _ => rfl, fun _ _ _ => rfl⟩

theorem guards_packedArrayField (item : ValueCodec T) (state : EmptyState T) (n : Nat) :
    (item.packedArray n).Guards (item.packedArrayField state n) :=
  ⟨fun _ _ _ => rfl, fun _ _ _ _ => rfl, fun _ _ _ => rfl⟩

theorem Guards.shows {field : FieldCodec T} (h : codec.Guards field)
    (hempty : field.emptyState.isEmpty field.forOverwrite = true)
    (hclear : ∀ value, field.emptyState.isEmpty (field.emptyState.clear value) = true) :
    field.Shows := fun tag =>
  { empty := hempty
    clear := hclear
    currentTag := fun value => by
      cases hv : field.emptyState.isEmpty value <;> simp [FieldCodec.tagged, hv]
    encode_empty := fun hv tw => (h.encode ..).trans (if_pos hv)
    encodedLen_empty := fun hv tm => (h.encodedLen ..).trans (if_pos hv)
    encode_ne := fun {value} _ _ _ hv hencode => by
      have hv : field.emptyState.isEmpty value = false := hv
      simp only [FieldCodec.tagged, h.encode] at hencode
      rw [if_neg (by simp [hv])] at hencode
      exact encodeField_ne_nil hencode
    encodedLen_pos := fun {value} _ _ _ hv hlen => by
      have hv : field.emptyState.isEmpty value = false := hv
      simp only [FieldCodec.tagged, h.encodedLen] at hlen
      rw [if_neg (by simp [hv])] at hlen
      exact fieldEncodedLen_pos hlen }

theorem Empties.shows_plain (h : codec.Empties state)
    (hrefl : codec.same false codec.forOverwrite codec.forOverwrite) : (codec.plain state).Shows := by
  apply (guards_plain codec state).shows
  · exact h.isEmpty_forOverwrite hrefl
  · exact h.isEmpty_clear

theorem shows_optional : codec.optional.Shows := fun tag =>
  { empty := rfl
    clear := fun _ => rfl
    currentTag := fun value => by cases value <;> rfl
    encode_empty := fun {value} hempty tw => by
      cases value with
      | none => rfl
      | some value => cases hempty
    encodedLen_empty := fun {value} hempty tm => by
      cases value with
      | none => rfl
      | some value => cases hempty
    encode_ne := fun {value} _ _ _ hsome hencode => by
      cases value with
      | none => cases hsome
      | some value => exact encodeField_ne_nil hencode
    encodedLen_pos := fun {value} _ _ _ hsome hlen => by
      cases value with
      | none => cases hsome
      | some value => exact fieldEncodedLen_pos hlen }

section
variable {allowed : Features} (hcoll : coll.Standard allowed)
include hcoll

theorem shows_unpackedField : (item.unpackedField coll).Shows := fun tag =>
  { empty := (hcoll.isEmpty _).mpr rfl
    clear := fun value => (hcoll.isEmpty _).mpr (hcoll.clear value)
    currentTag := fun value => by
      cases hempty : coll.isEmpty value <;>
        simp [FieldCodec.tagged, unpackedField, Collection.emptyState, hempty]
    encode_empty := fun {value} hempty tw => by
      have hnil : coll.iter value = [] :=
        List.isEmpty_iff.mp ((hcoll.isEmpty_iter value).symm.trans hempty)
      simp only [FieldCodec.tagged, unpackedField, hnil]
      rfl
    encodedLen_empty := fun {value} hempty tm => by
      have hnil : coll.iter value = [] :=
        List.isEmpty_iff.mp ((hcoll.isEmpty_iter value).symm.trans hempty)
      exact if_neg (by simp [hcoll.len_iter, hnil])
    encode_ne := fun {value} _ _ _ hsome hencode => by
      have hne : coll.iter value ≠ [] :=
        List.isEmpty_eq_false_iff.mp ((hcoll.isEmpty_iter value).symm.trans hsome)
      exact encodeFields_ne_nil hne hencode
    encodedLen_pos := fun {value} _ _ _ hsome hlen => by
      have hne : coll.iter value ≠ [] :=
        List.isEmpty_eq_false_iff.mp ((hcoll.isEmpty_iter value).symm.trans hsome)
      have hpos : 0 < coll.len value := by
        rw [hcoll.len_iter]
        exact List.length_pos_iff.mpr hne
      simp only [FieldCodec.tagged, unpackedField] at hlen
      rw [if_pos hpos] at hlen
      exact fieldsEncodedLen_pos hpos hlen }

theorem shows_packedField : (item.packedField coll).Shows := by
  apply (guards_packedField item coll).shows
  · exact (hcoll.isEmpty _).mpr rfl
  · exact fun value => (hcoll.isEmpty _).mpr (hcoll.clear value)

end

section
variable {n : Nat} (h : item.Empties state)
  (hrefl : item.same false item.forOverwrite item.forOverwrite)
include h hrefl

theorem array_isEmpty_forOverwrite :
    (state.array n).isEmpty (List.Vector.replicate n item.forOverwrite) = true := by
  apply List.all_eq_true.mpr
  intro value hvalue
  obtain rfl := List.eq_of_mem_replicate hvalue
  exact h.isEmpty_forOverwrite hrefl

omit hrefl in
theorem array_isEmpty_clear (value : List.Vector T n) :
    (state.array n).isEmpty ((state.array n).clear value) = true := by
  simp [EmptyState.array, h.isEmpty_clear]

theorem shows_packedArrayField : (item.packedArrayField state n).Shows := by
  apply (guards_packedArrayField item state n).shows
  · exact array_isEmpty_forOverwrite h hrefl
  · exact array_isEmpty_clear h

theorem shows_unpackedArrayField (hn : 0 < n) : (item.unpackedArrayField state n).Shows := fun tag =>
  { empty := array_isEmpty_forOverwrite h hrefl
    clear := array_isEmpty_clear h
    currentTag := fun value => by
      cases hv : (state.array n).isEmpty value <;> simp [FieldCodec.tagged, unpackedArrayField, hv]
    encode_empty := fun hv tw => if_pos hv
    encodedLen_empty := fun hv tm => if_pos hv
    encode_ne := fun {value} _ _ _ hv hencode => by
      have hne : value.toList ≠ [] := List.ne_nil_of_length_pos (value.toList_length.symm ▸ hn)
      have hv : (state.array n).isEmpty value = false := hv
      simp only [FieldCodec.tagged, unpackedArrayField] at hencode
      rw [if_neg (by simp [hv])] at hencode
      exact encodeFields_ne_nil hne hencode
    encodedLen_pos := fun {value} _ _ _ hv hlen => by
      have hne : value.toList.isEmpty = false :=
        List.isEmpty_eq_false_iff.mpr (List.ne_nil_of_length_pos (value.toList_length.symm ▸ hn))
      have hv : (state.array n).isEmpty value = false := hv
      simp only [FieldCodec.tagged, unpackedArrayField] at hlen
      rw [if_neg (by simp [hv]), if_neg (by simp [hne])] at hlen
      exact fieldsEncodedLen_pos (value.toList_length.symm ▸ hn) hlen }

end

theorem shows_unpackedArrayOptionField {n : Nat} (hn : 0 < n) :
    (item.unpackedArrayOptionField n).Shows := fun tag =>
  { empty := rfl
    clear := fun _ => rfl
    currentTag := fun value => by cases value <;> rfl
    encode_empty := fun {value} hempty tw => by
      cases value with
      | none => rfl
      | some value => cases hempty
    encodedLen_empty := fun {value} hempty tm => by
      cases value with
      | none => rfl
      | some value => cases hempty
    encode_ne := fun {value} _ _ _ hsome hencode => by
      cases value with
      | none => cases hsome
      | some value =>
          have hne : value.toList ≠ [] := List.ne_nil_of_length_pos (value.toList_length.symm ▸ hn)
          exact encodeFields_ne_nil hne hencode
    encodedLen_pos := fun {value} _ _ _ hsome hlen => by
      cases value with
      | none => cases hsome
      | some value => exact fieldsEncodedLen_pos hn hlen }

end ValueCodec

theorem Oneof.shows {T : Type} (oneof : Oneof T) : oneof.field.Shows where
  empty := by simp [field]
  clear value := by simp [field]
  currentTag value := by
    cases hview : oneof.view value <;> simp [field, Oneof.currentTag, hview]
  encode_empty {value} hempty tw := by
    cases hview : oneof.view value with
    | none => simp [field, hview]
    | some v => simp [field, hview] at hempty
  encodedLen_empty {value} hempty tm := by
    cases hview : oneof.view value with
    | none => simp [field, hview]
    | some v => simp [field, hview] at hempty
  encode_ne {value _ _ _} hsome hencode := by
    cases hview : oneof.view value with
    | none => simp [field, hview] at hsome
    | some v =>
        simp only [field, hview] at hencode
        exact ValueCodec.encodeField_ne_nil hencode
  encodedLen_pos {value _ _ _} hsome hlen := by
    cases hview : oneof.view value with
    | none => simp [field, hview] at hsome
    | some v =>
        simp only [field, hview] at hlen
        exact ValueCodec.fieldEncodedLen_pos hlen

namespace Fields

variable {M : Type} {F : Fields M} {w : F.Writing}

/-- The plan of the derive macro holds every field. -/
theorem Sound.chunkFields_perm (h : F.Sound) :
    (MessageFieldsSorted.chunkFields F.chunks).Perm F.indices := by
  obtain ⟨chunks, hnew, -, hperm⟩ :=
    MessageFieldsSorted.new_chunksOk (fun i _ => h.tagged i) h.disjoint
  rw [Fields.chunks, hnew]
  exact hperm

/-- A field that is written is visited. -/
theorem Writing.Standard.mem_forward (hw : w.Standard) (h : F.Sound)
    (hshows : ∀ i, (F.field i).Shows) {m : M} {i : F.Index}
    (hsome : (F.field i).isEmpty (F.get m i) = false) : i ∈ w.forward m := by
  cases hw with
  | listed measurer ascending measures => exact List.mem_finRange i
  | derived =>
      have hcurrent : (F.currentTag m i).isSome = true := by
        rw [currentTag, (hshows i).currentTag, hsome]
        rfl
      have hmem : i ∈ (MessageFieldsSorted.chunkFields F.chunks).filter fun i => (F.currentTag m i).isSome :=
        List.mem_filter.mpr ⟨h.chunkFields_perm.mem_iff.mpr (List.mem_finRange i), hcurrent⟩
      have hperm := MessageFieldsSorted.encodeOrder_perm (F.currentTag m) F.chunks
      exact (List.mem_filter.mp (hperm.mem_iff.mpr hmem)).1

section
variable (hshows : ∀ i, (F.field i).Shows) {m : M}
include hshows

theorem encodeIn_empty {is : List F.Index}
    (h : ∀ i ∈ is, (F.field i).isEmpty (F.get m i) = true) (tw : TagWriter) :
    F.encodeIn m is tw = some ([], tw) := by
  induction is with
  | nil => rfl
  | cons i is ih =>
      rw [encodeIn, (hshows i).encode_empty (h i List.mem_cons_self)]
      simp [ih fun j hj => h j (List.mem_cons_of_mem i hj)]

theorem encodedLenIn_empty {is : List F.Index}
    (h : ∀ i ∈ is, (F.field i).isEmpty (F.get m i) = true) (tm : TagMeasurer) :
    F.encodedLenIn m is tm = some (0, tm) := by
  induction is with
  | nil => rfl
  | cons i is ih =>
      rw [encodedLenIn, (hshows i).encodedLen_empty (h i List.mem_cons_self)]
      simp [ih fun j hj => h j (List.mem_cons_of_mem i hj)]

theorem encodeIn_ne_nil {is : List F.Index} {i : F.Index} (hi : i ∈ is)
    (hsome : (F.field i).isEmpty (F.get m i) = false) {tw tw' : TagWriter} {bytes : Bytes}
    (h : F.encodeIn m is tw = some (bytes, tw')) : bytes ≠ [] := by
  induction is generalizing tw bytes with
  | nil => cases hi
  | cons j is ih =>
      obtain ⟨⟨first, tw₁⟩, hfirst, h⟩ := Option.bind_eq_some_iff.mp h
      obtain ⟨⟨rest, tw₂⟩, hrest, h⟩ := Option.bind_eq_some_iff.mp h
      obtain ⟨rfl, rfl⟩ := Prod.ext_iff.mp (Option.some.inj h)
      rcases List.mem_cons.mp hi with rfl | hi
      · exact List.append_ne_nil_of_left_ne_nil ((hshows _).encode_ne hsome hfirst) _
      · exact List.append_ne_nil_of_right_ne_nil _ (ih hi hrest)

theorem encodedLenIn_pos {is : List F.Index} {i : F.Index} (hi : i ∈ is)
    (hsome : (F.field i).isEmpty (F.get m i) = false) {tm tm' : TagMeasurer} {len : Nat}
    (h : F.encodedLenIn m is tm = some (len, tm')) : 0 < len := by
  induction is generalizing tm len with
  | nil => cases hi
  | cons j is ih =>
      obtain ⟨⟨first, tm₁⟩, hfirst, h⟩ := Option.bind_eq_some_iff.mp h
      obtain ⟨⟨rest, tm₂⟩, hrest, h⟩ := Option.bind_eq_some_iff.mp h
      obtain ⟨rfl, rfl⟩ := Prod.ext_iff.mp (Option.some.inj h)
      rcases List.mem_cons.mp hi with rfl | hi
      · exact Nat.add_pos_left ((hshows _).encodedLen_pos hsome hfirst) _
      · exact Nat.add_pos_right _ (ih hi hrest)

end

theorem exists_not_empty {m : M} (h : (F.message w).isEmpty m = false) :
    ∃ i, (F.field i).isEmpty (F.get m i) = false := by
  obtain ⟨i, -, hi⟩ := List.all_eq_false.mp h
  exact ⟨i, by simpa using hi⟩

theorem isEmpty_get {m : M} (h : (F.message w).isEmpty m = true) (i : F.Index) :
    (F.field i).isEmpty (F.get m i) = true := List.all_eq_true.mp h i (List.mem_finRange i)

theorem shows (h : F.Sound) (hw : w.Standard) (hshows : ∀ i, (F.field i).Shows) :
    (F.message w).Shows where
  empty := by
    apply List.all_eq_true.mpr
    intro i _
    simp only [message, get, Equiv.apply_symm_apply]
    exact (hshows i).empty
  clear m := by
    apply List.all_eq_true.mpr
    intro i _
    simp only [message, get, Equiv.apply_symm_apply]
    exact (hshows i).clear _
  rawEncodedLen m := by
    constructor
    · intro hempty
      simp only [message, encodedLenIn_empty hshows (fun i _ => isEmpty_get hempty i)]
      rfl
    · intro hlen
      cases hempty : (F.message w).isEmpty m with
      | true => rfl
      | false =>
          obtain ⟨i, hi⟩ := exists_not_empty hempty
          obtain ⟨⟨len, tm⟩, hrun, hlen⟩ := Option.bind_eq_some_iff.mp hlen
          have hpos := encodedLenIn_pos hshows (hw.mem_forward h hshows hi) hi hrun
          exact absurd (Option.some.inj hlen) hpos.ne'
  rawEncode m := by
    constructor
    · intro hempty
      simp only [message, encodeIn_empty hshows (fun i _ => isEmpty_get hempty i)]
      rfl
    · intro hbytes
      cases hempty : (F.message w).isEmpty m with
      | true => rfl
      | false =>
          obtain ⟨i, hi⟩ := exists_not_empty hempty
          obtain ⟨⟨bytes, tw⟩, hrun, hbytes⟩ := Option.bind_eq_some_iff.mp hbytes
          have hne := encodeIn_ne_nil hshows (hw.mem_forward h hshows hi) hi hrun
          exact absurd (Option.some.inj hbytes) hne

end Fields

theorem MessageCodec.shows_of_sameTo {M : Type} {codec : MessageCodec M}
    {approx : Nat → MessageCodec M} (hsame : ∀ depth, codec.SameTo depth (approx depth))
    (hwithin : ∀ m, ∃ depth, codec.nestsWithin depth m) (h : ∀ depth, (approx depth).Shows) :
    codec.Shows where
  empty := by
    rw [(hsame 0).isEmpty, (hsame 0).empty]
    exact (h 0).empty
  clear m := by
    rw [(hsame 0).isEmpty, (hsame 0).clear]
    exact (h 0).clear m
  rawEncodedLen m := by
    obtain ⟨depth, hdepth⟩ := hwithin m
    rw [(hsame depth).isEmpty, (hsame depth).rawEncodedLen hdepth]
    exact (h depth).rawEncodedLen m
  rawEncode m := by
    obtain ⟨depth, hdepth⟩ := hwithin m
    rw [(hsame depth).isEmpty, (hsame depth).rawEncode hdepth]
    exact (h depth).rawEncode m

theorem MessageCodec.shows_of_unrolls {M : Type} {codec : MessageCodec M}
    {approx : Nat → MessageCodec M} {within : Nat → M → Prop}
    (hunrolls : codec.Unrolls approx within) (h : ∀ n, (approx n).Shows) : codec.Shows where
  empty := by
    rw [hunrolls.isEmpty 0, hunrolls.empty 0]
    exact (h 0).empty
  clear m := by
    rw [hunrolls.isEmpty 0, hunrolls.clear 0]
    exact (h 0).clear m
  rawEncodedLen m := by
    obtain ⟨n, hn⟩ := hunrolls.reached m
    rw [hunrolls.isEmpty n, hunrolls.rawEncodedLen hn]
    exact (h n).rawEncodedLen m
  rawEncode m := by
    obtain ⟨n, hn⟩ := hunrolls.reached m
    rw [hunrolls.isEmpty n, hunrolls.rawEncode hn]
    exact (h n).rawEncode m

def Part.Shows : Part → Prop
  | .value _ => True
  | .field codec => codec.Shows
  | .messageField fld => fld.Shows
  | .message codec => codec.Shows

/-- Without arrays of length zero, whatever is not empty is written. -/
theorem Built.shows {allowed : Features} (hallowed : ¬allowed.emptyArrays) {part : Part}
    (h : Built allowed part) : part.Shows := by
  induction h with
  | plain _ hempties hcodec _ => exact hempties.shows_plain (hcodec.locks.same.refl false _)
  | optional _ _ => exact ValueCodec.shows_optional
  | unpackedField hcoll _ _ => exact ValueCodec.shows_unpackedField hcoll
  | packedField hcoll _ _ => exact ValueCodec.shows_packedField hcoll
  | unpackedArrayField hn _ hempties hitem _ =>
      exact ValueCodec.shows_unpackedArrayField hempties (hitem.locks.same.refl false _)
        (hn.resolve_right hallowed)
  | packedArrayField _ _ hempties hitem _ =>
      exact ValueCodec.shows_packedArrayField hempties (hitem.locks.same.refl false _)
  | unpackedArrayOptionField hn _ _ =>
      exact ValueCodec.shows_unpackedArrayOptionField (hn.resolve_right hallowed)
  | tagged tag _ hcodec => exact hcodec tag
  | @oneof _ oneof _ _ => exact oneof.shows
  | fields hsound hw _ _ hfields => exact Fields.shows hsound hw hfields
  | recursive approx hsame hwithin _ happrox =>
      exact MessageCodec.shows_of_sameTo hsame hwithin happrox
  | unrolled approx _ hunrolls _ happrox => exact MessageCodec.shows_of_unrolls hunrolls happrox
  | _ => trivial

end Bilrost
