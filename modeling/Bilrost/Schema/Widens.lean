import Bilrost.Schema.Structural
import Bilrost.Schema.Evolution

/-!
Types that widen others. A later version of a schema may give a field another
type if all old values have a value there that is written alike, and may add
fields and variants. `Widens` is what such versions are put together from, with
the value of the new type that corresponds to each one of the old.
-/

namespace Bilrost

/-- The values of a part of a schema. -/
def Part.Carrier : Part → Type
  | @Part.value T _ => T
  | @Part.field T _ => T
  | @Part.messageField T _ => T
  | @Part.message M _ => M

/-- The type `new` has for each value of the type `old` one that is written alike. -/
inductive Widens : (old new : Part) → (old.Carrier → new.Carrier) → Prop
  | same {part : Part} (h : Structural part) : Widens part part id
  | trans {old between new : Part} {f : old.Carrier → between.Carrier}
      {g : between.Carrier → new.Carrier} (h : Widens old between f) (h' : Widens between new g) :
      Widens old new (g ∘ f)
  -- values
  | scalar {T T' : Type} {s : Scalar T} {s' : Scalar T'} {f : T → T'} (h : s.Standard)
      (h' : s'.Standard) (hwire : s'.wireType = s.wireType)
      (hencode : ∀ value, s'.encode (f value) = s.encode value) :
      Widens (.value s.codec) (.value s'.codec) f
  | packed {C C' T T' : Type} {item : ValueCodec T} {item' : ValueCodec T'}
      {coll : Collection C T} {coll' : Collection C' T'} {f : C → C'} {g : T → T'}
      (hcoll : coll.Standard .structural) (hcoll' : coll'.Standard .structural)
      (hiter : ∀ items, coll'.iter (f items) = (coll.iter items).map g)
      (hitem : Widens (.value item) (.value item') g) :
      Widens (.value (item.packed coll)) (.value (item'.packed coll')) f
  | map {C C' K K' V V' : Type} {key : ValueCodec K} {key' : ValueCodec K'} {val : ValueCodec V}
      {val' : ValueCodec V'} {coll : Collection C (K × V)} {coll' : Collection C' (K' × V')}
      {f : C → C'} {g : K → K'} {g' : V → V'} (hcoll : coll.Standard .structural)
      (hcoll' : coll'.Standard .structural)
      (hiter : ∀ items, coll'.iter (f items) = (coll.iter items).map (Prod.map g g'))
      (hkey : Widens (.value key) (.value key') g) (hval : Widens (.value val) (.value val') g') :
      Widens (.value (key.map val coll)) (.value (key'.map val' coll')) f
  | packedArray {C' T T' : Type} {item : ValueCodec T} {item' : ValueCodec T'} {n : Nat}
      {coll' : Collection C' T'} {f : List.Vector T n → C'} {g : T → T'} (hn : 0 < n)
      (hcoll' : coll'.Standard .structural)
      (hiter : ∀ arr, coll'.iter (f arr) = arr.toList.map g)
      (hitem : Widens (.value item) (.value item') g) :
      Widens (.value (item.packedArray n)) (.value (item'.packed coll')) f
  | arrays {T T' : Type} {item : ValueCodec T} {item' : ValueCodec T'} {n : Nat} {f : T → T'}
      (hn : 0 < n) (hitem : Widens (.value item) (.value item') f) :
      Widens (.value (item.packedArray n)) (.value (item'.packedArray n)) (List.Vector.map f)
  | embedded {M M' : Type} {codec : MessageCodec M} {codec' : MessageCodec M'}
      {value : ValueCodec M} {value' : ValueCodec M'} {f : M → M'} (hvalue : codec.Embeds value)
      (hvalue' : codec'.Embeds value') (hcodec : Widens (.message codec) (.message codec') f) :
      Widens (.value value) (.value value') f
  -- fields with one tag
  | plain {T T' : Type} {codec : ValueCodec T} {codec' : ValueCodec T'} {state : EmptyState T}
      {state' : EmptyState T'} {f : T → T'} (hstate : codec.emptyState = some state)
      (hstate' : codec'.emptyState = some state') (hempties : codec.Empties state)
      (hempties' : codec'.Empties state')
      (hempty : ∀ value, state'.isEmpty (f value) = state.isEmpty value)
      (hcodec : Widens (.value codec) (.value codec') f) :
      Widens (.field (codec.plain state)) (.field (codec'.plain state')) f
  | optional {T T' : Type} {codec : ValueCodec T} {codec' : ValueCodec T'} {f : T → T'}
      (hcodec : Widens (.value codec) (.value codec') f) :
      Widens (.field codec.optional) (.field codec'.optional) (Option.map f)
  | unpackedField {C C' T T' : Type} {item : ValueCodec T} {item' : ValueCodec T'}
      {coll : Collection C T} {coll' : Collection C' T'} {f : C → C'} {g : T → T'}
      (hcoll : coll.Standard .structural) (hcoll' : coll'.Standard .structural)
      (hiter : ∀ items, coll'.iter (f items) = (coll.iter items).map g)
      (hitem : Widens (.value item) (.value item') g) :
      Widens (.field (item.unpackedField coll)) (.field (item'.unpackedField coll')) f
  | packedField {C C' T T' : Type} {item : ValueCodec T} {item' : ValueCodec T'}
      {coll : Collection C T} {coll' : Collection C' T'} {f : C → C'} {g : T → T'}
      (hcoll : coll.Standard .structural) (hcoll' : coll'.Standard .structural)
      (hiter : ∀ items, coll'.iter (f items) = (coll.iter items).map g)
      (hitem : Widens (.value item) (.value item') g) :
      Widens (.field (item.packedField coll)) (.field (item'.packedField coll')) f
  | unpackedArrayField {T T' : Type} {item : ValueCodec T} {item' : ValueCodec T'}
      {state : EmptyState T} {state' : EmptyState T'} {n : Nat} {f : T → T'} (hn : 0 < n)
      (hstate : item.emptyState = some state) (hstate' : item'.emptyState = some state')
      (hempties : item.Empties state) (hempties' : item'.Empties state')
      (hempty : ∀ value, state'.isEmpty (f value) = state.isEmpty value)
      (hitem : Widens (.value item) (.value item') f) :
      Widens (.field (item.unpackedArrayField state n)) (.field (item'.unpackedArrayField state' n))
        (List.Vector.map f)
  | packedArrayField {T T' : Type} {item : ValueCodec T} {item' : ValueCodec T'}
      {state : EmptyState T} {state' : EmptyState T'} {n : Nat} {f : T → T'} (hn : 0 < n)
      (hstate : item.emptyState = some state) (hstate' : item'.emptyState = some state')
      (hempties : item.Empties state) (hempties' : item'.Empties state')
      (hempty : ∀ value, state'.isEmpty (f value) = state.isEmpty value)
      (hitem : Widens (.value item) (.value item') f) :
      Widens (.field (item.packedArrayField state n)) (.field (item'.packedArrayField state' n))
        (List.Vector.map f)
  | unpackedArrayOptionField {T T' : Type} {item : ValueCodec T} {item' : ValueCodec T'} {n : Nat}
      {f : T → T'} (hn : 0 < n) (hitem : Widens (.value item) (.value item') f) :
      Widens (.field (item.unpackedArrayOptionField n)) (.field (item'.unpackedArrayOptionField n))
        (Option.map (List.Vector.map f))
  /-- The empty value is not there. -/
  | option {T : Type} {codec : ValueCodec T} {state : EmptyState T}
      (hstate : codec.emptyState = some state) (hempties : codec.Empties state)
      (hcodec : Structural (.value codec)) :
      Widens (.field (codec.plain state)) (.field codec.optional)
        fun value => if state.isEmpty value then none else some value
  | optionItems {T : Type} {codec : ValueCodec T} (hcodec : Structural (.value codec)) :
      Widens (.field codec.optional) (.field (codec.unpackedField (Collection.vec T)))
        Option.toList
  /-- An array of empty items becomes a collection without items. -/
  | arrayItems {T : Type} {item : ValueCodec T} {state : EmptyState T} {n : Nat} (hn : 0 < n)
      (hstate : item.emptyState = some state) (hempties : item.Empties state)
      (hitem : Structural (.value item)) :
      Widens (.field (item.unpackedArrayField state n))
        (.field (item.unpackedField (Collection.vec T)))
        fun arr => if (state.array n).isEmpty arr then [] else arr.toList
  | packedArrayItems {T : Type} {item : ValueCodec T} {state : EmptyState T} {n : Nat}
      (hn : 0 < n) (hstate : item.emptyState = some state) (hempties : item.Empties state)
      (hitem : Structural (.value item)) :
      Widens (.field (item.packedArrayField state n))
        (.field (item.packedField (Collection.vec T)))
        fun arr => if (state.array n).isEmpty arr then [] else arr.toList
  | arrayOptionItems {T : Type} {item : ValueCodec T} {n : Nat} (hn : 0 < n)
      (hitem : Structural (.value item)) :
      Widens (.field (item.unpackedArrayOptionField n))
        (.field (item.unpackedField (Collection.vec T))) fun value => value.elim [] List.Vector.toList
  -- fields of messages
  | tagged {T T' : Type} {codec : FieldCodec T} {codec' : FieldCodec T'} {f : T → T'} (tag : Nat)
      (hcodec : Widens (.field codec) (.field codec') f) :
      Widens (.messageField (codec.tagged tag)) (.messageField (codec'.tagged tag)) f
  /-- There may be further variants. -/
  | oneof {T T' : Type} {oneof : Oneof T} {oneof' : Oneof T'} {f : T → T'}
      {e : Fin oneof.count → Fin oneof'.count} {g : ∀ i, oneof.Ty i → oneof'.Ty (e i)}
      (htag : ∀ i, oneof'.tag (e i) = oneof.tag i)
      (hview : ∀ value, oneof'.view (f value) =
        (oneof.view value).map fun v => ⟨e v.1, g v.1 v.2⟩)
      (hnew : ∀ j, Structural (.value (oneof'.codec j)))
      (hold : ∀ i, Widens (.value (oneof.codec i)) (.value (oneof'.codec (e i))) (g i)) :
      Widens (.messageField oneof.field) (.messageField oneof'.field) f
  -- messages
  /-- There may be further fields, which are empty. -/
  | fields {M M' : Type} {F : Fields M} {F' : Fields M'} {w : F.Writing} {w' : F'.Writing}
      {f : M → M'} {e : F.Index → F'.Index} {g : ∀ i, F.Ty i → F'.Ty (e i)} (hsound : F.Sound)
      (hsound' : F'.Sound) (hw : w.Standard) (hw' : w'.Standard)
      (hignored : Subsingleton F.Ignored) (hignored' : Subsingleton F'.Ignored)
      (hgrows : F.Grows F' e) (hget : ∀ m i, F'.get (f m) (e i) = g i (F.get m i))
      (hempty : ∀ m, Fields.addsNothing e (f m) = true)
      (hnew : ∀ j, Structural (.messageField (F'.field j)))
      (hold : ∀ i, Widens (.messageField (F.field i)) (.messageField (F'.field (e i))) (g i)) :
      Widens (.message (F.message w)) (.message (F'.message w')) f
  | recursive {M M' : Type} {codec : MessageCodec M} {codec' : MessageCodec M'} {f : M → M'}
      (approx : Nat → MessageCodec M) (approx' : Nat → MessageCodec M')
      (hsame : ∀ depth, codec.SameTo depth (approx depth))
      (hsame' : ∀ depth, codec'.SameTo depth (approx' depth))
      (hwithin : ∀ m, ∃ depth, ∀ d, depth ≤ d → codec.nestsWithin d m)
      (hwithin' : ∀ m, ∃ depth, ∀ d, depth ≤ d → codec'.nestsWithin d m)
      (happrox : ∀ depth, Widens (.message (approx depth)) (.message (approx' depth)) f) :
      Widens (.message codec) (.message codec') f

theorem MessageCodec.Embeds.structural {M : Type} {codec : MessageCodec M} {value : ValueCodec M}
    (h : codec.Embeds value) (hcodec : Structural (.message codec)) : Structural (.value value) := by
  cases h with
  | nested => exact .nested hcodec
  | tupled => exact .tupled hcodec
  | inlined => exact .inlined hcodec

/-- Values of two parts of the same kind are written alike. -/
def Part.WritesLike : (old new : Part) → old.Carrier → new.Carrier → Prop
  | .value codec, .value codec', x, y => codec.WritesLike x codec' y
  | .field codec, .field codec', x, y => codec.WritesLike x codec' y
  | .messageField fld, .messageField fld', x, y => fld.WritesLike x fld' y
  | .message codec, .message codec', x, y => codec.WritesLike x codec' y
  | _, _, _, _ => False

theorem Part.WritesLike.refl (part : Part) (x : part.Carrier) : part.WritesLike part x x := by
  cases part with
  | value => exact ⟨rfl, rfl⟩
  | field => exact ⟨fun _ _ => rfl, fun _ _ _ => rfl, fun _ _ => rfl, rfl⟩
  | messageField => exact ⟨fun _ => rfl, fun _ _ => rfl, fun _ => rfl, rfl, rfl⟩
  | message => exact ⟨rfl, rfl⟩

theorem Part.WritesLike.trans {old between new : Part} {x : old.Carrier} {y : between.Carrier}
    {z : new.Carrier} (h : old.WritesLike between x y) (h' : between.WritesLike new y z) :
    old.WritesLike new x z := by
  cases old with
  | value =>
      cases between with
      | value =>
          cases new with
          | value => exact ValueCodec.WritesLike.trans h h'
          | _ => exact h'.elim
      | _ => exact h.elim
  | field =>
      cases between with
      | field =>
          cases new with
          | field => exact FieldCodec.WritesLike.trans h h'
          | _ => exact h'.elim
      | _ => exact h.elim
  | messageField =>
      cases between with
      | messageField =>
          cases new with
          | messageField => exact MessageField.WritesLike.trans h h'
          | _ => exact h'.elim
      | _ => exact h.elim
  | message =>
      cases between with
      | message =>
          cases new with
          | message => exact MessageCodec.WritesLike.trans h h'
          | _ => exact h'.elim
      | _ => exact h.elim

namespace ValueCodec

variable {T T' : Type} {item : ValueCodec T} {item' : ValueCodec T'} {f : T → T'}

/-- Items that correspond are encoded alike. -/
theorem map_encodeValue_of_eq_map (h : ∀ value, item.WritesLike value item' (f value))
    {values : List T} {values' : List T'} (hvalues : values' = values.map f) :
    values'.map item'.encodeValue = values.map item.encodeValue := by
  rw [hvalues, List.map_map]
  exact List.map_congr_left fun value _ => (h value).encodeValue

theorem isEmpty_of_iter_eq_map {C C' : Type} {coll : Collection C T} {coll' : Collection C' T'}
    (hcoll : coll.Standard .structural) (hcoll' : coll'.Standard .structural) {items : C}
    {items' : C'} (h : coll'.iter items' = (coll.iter items).map f) :
    coll'.isEmpty items' = coll.isEmpty items := by
  rw [hcoll'.isEmpty_iter, hcoll.isEmpty_iter, h, List.isEmpty_map]

/-- An entry is encoded alike if its key and its value are. -/
theorem encodeValue_entry_map {K K' V V' : Type} {key : ValueCodec K} {key' : ValueCodec K'}
    {val : ValueCodec V} {val' : ValueCodec V'} {g : K → K'} {g' : V → V'}
    (hkey : ∀ value, key.WritesLike value key' (g value))
    (hval : ∀ value, val.WritesLike value val' (g' value)) (e : K × V) :
    (key'.entry val').encodeValue (Prod.map g g' e) = (key.entry val).encodeValue e := by
  simp only [entry, Prod.map_fst, Prod.map_snd, (hkey e.1).encodeValue, (hval e.2).encodeValue]

theorem isEmpty_array_map {state : EmptyState T} {state' : EmptyState T'}
    (hempty : ∀ value, state'.isEmpty (f value) = state.isEmpty value) {n : Nat}
    (arr : List.Vector T n) : (state'.array n).isEmpty (arr.map f) = (state.array n).isEmpty arr := by
  simp only [EmptyState.array, List.Vector.toList_map, List.all_map]
  exact congrArg (arr.toList.all ·) (funext hempty)

/-- The items of an array that is not empty. -/
theorem items_array_map {state : EmptyState T} {state' : EmptyState T'}
    (hempty : ∀ value, state'.isEmpty (f value) = state.isEmpty value) {n : Nat}
    (arr : List.Vector T n) :
    (if (state'.array n).isEmpty (arr.map f) then [] else (arr.map f).toList) =
      (if (state.array n).isEmpty arr then [] else arr.toList).map f := by
  rw [isEmpty_array_map hempty, List.Vector.toList_map]
  split_ifs <;> rfl

section
variable {ordered : Prop} (h : item.Writes ordered) (hordered : ordered) (state : EmptyState T)
include h hordered

/-- A value that is not empty is written like an optional one that is there. -/
theorem Writes.plain_writesLike_optional (value : T) :
    (item.plain state).WritesLike value item.optional
      (if state.isEmpty value then none else some value) := by
  refine (h.writesAll_plain state value).writesLike hordered (h.writesAll_optional _) rfl ?_
  split_ifs <;> rfl

theorem Writes.packedArrayField_writesLike_packedField {n : Nat} (hn : 0 < n)
    (arr : List.Vector T n) :
    (item.packedArrayField state n).WritesLike arr (item.packedField (Collection.vec T))
      (if (state.array n).isEmpty arr then [] else arr.toList) := by
  have hvec : (Collection.vec T).Standard .structural := .vec T
  apply (guards_packedArrayField item state n).writesLike hordered
    (guards_packedField item (Collection.vec T)) (h.packedArray n)
    (writes_packedItems h.toPuts fun _ => hvec.reversed_iter not_false) _ rfl
  · intro hisEmpty
    have hisEmpty : (state.array n).isEmpty arr = false := hisEmpty
    rw [if_neg (by simp [hisEmpty])]
    exact (delimits_packedArray arr).writesLike (delimits_packedItems _) h.toPuts h.toPuts rfl
  · change List.isEmpty (if (state.array n).isEmpty arr then [] else arr.toList) =
      (state.array n).isEmpty arr
    split_ifs with hisEmpty
    · exact hisEmpty.symm
    · have hne : arr.toList ≠ [] := by
        rw [← List.length_pos_iff, List.Vector.toList_length]
        exact hn
      rw [List.isEmpty_eq_false_iff.mpr hne, Bool.eq_false_iff.mpr hisEmpty]

end

end ValueCodec

namespace Widens

variable {old new : Part} {f : old.Carrier → new.Carrier}

/-- Both types are known by their encodings. -/
theorem structural (h : Widens old new f) : Structural old ∧ Structural new := by
  induction h with
  | same h => exact ⟨h, h⟩
  | trans _ _ ih ih' => exact ⟨ih.1, ih'.2⟩
  | scalar h h' => exact ⟨.scalar h, .scalar h'⟩
  | packed hcoll hcoll' _ _ ih => exact ⟨.packed hcoll ih.1, .packed hcoll' ih.2⟩
  | map hcoll hcoll' _ _ _ ihkey ihval =>
      exact ⟨.map hcoll ihkey.1 ihval.1, .map hcoll' ihkey.2 ihval.2⟩
  | packedArray hn hcoll' _ _ ih => exact ⟨.packedArray hn ih.1, .packed hcoll' ih.2⟩
  | arrays hn _ ih => exact ⟨.packedArray hn ih.1, .packedArray hn ih.2⟩
  | embedded hvalue hvalue' _ ih => exact ⟨hvalue.structural ih.1, hvalue'.structural ih.2⟩
  | plain hstate hstate' hempties hempties' _ _ ih =>
      exact ⟨.plain hstate hempties ih.1, .plain hstate' hempties' ih.2⟩
  | optional _ ih => exact ⟨.optional ih.1, .optional ih.2⟩
  | unpackedField hcoll hcoll' _ _ ih =>
      exact ⟨.unpackedField hcoll ih.1, .unpackedField hcoll' ih.2⟩
  | packedField hcoll hcoll' _ _ ih => exact ⟨.packedField hcoll ih.1, .packedField hcoll' ih.2⟩
  | unpackedArrayField hn hstate hstate' hempties hempties' _ _ ih =>
      exact ⟨.unpackedArrayField hn hstate hempties ih.1,
        .unpackedArrayField hn hstate' hempties' ih.2⟩
  | packedArrayField hn hstate hstate' hempties hempties' _ _ ih =>
      exact ⟨.packedArrayField hn hstate hempties ih.1,
        .packedArrayField hn hstate' hempties' ih.2⟩
  | unpackedArrayOptionField hn _ ih =>
      exact ⟨.unpackedArrayOptionField hn ih.1, .unpackedArrayOptionField hn ih.2⟩
  | option hstate hempties hcodec => exact ⟨.plain hstate hempties hcodec, .optional hcodec⟩
  | optionItems hcodec => exact ⟨.optional hcodec, .unpackedField (.vec _) hcodec⟩
  | arrayItems hn hstate hempties hitem =>
      exact ⟨.unpackedArrayField hn hstate hempties hitem, .unpackedField (.vec _) hitem⟩
  | packedArrayItems hn hstate hempties hitem =>
      exact ⟨.packedArrayField hn hstate hempties hitem, .packedField (.vec _) hitem⟩
  | arrayOptionItems hn hitem =>
      exact ⟨.unpackedArrayOptionField hn hitem, .unpackedField (.vec _) hitem⟩
  | tagged tag _ ih => exact ⟨.tagged tag ih.1, .tagged tag ih.2⟩
  | oneof _ _ hnew _ ih => exact ⟨.oneof fun i => (ih i).1, .oneof hnew⟩
  | fields hsound hsound' hw hw' hignored hignored' _ _ _ hnew _ ih =>
      exact ⟨.fields hsound hw hignored fun i => (ih i).1, .fields hsound' hw' hignored' hnew⟩
  | recursive approx approx' hsame hsame' hwithin hwithin' _ ih =>
      exact ⟨.recursive approx hsame hwithin fun depth => (ih depth).1,
        .recursive approx' hsame' hwithin' fun depth => (ih depth).2⟩

theorem writes (h : Widens old new f) :
    old.Writes (¬Features.structural.hashed) ∧ new.Writes (¬Features.structural.hashed) :=
  ⟨h.structural.1.built.writes not_false, h.structural.2.built.writes not_false⟩

/-- Values that correspond are written alike. -/
theorem writesLike (h : Widens old new f) (x : old.Carrier) : old.WritesLike new x (f x) := by
  induction h with
  | same h => exact .refl _ x
  | trans _ _ ih ih' => exact (ih x).trans (ih' _)
  | scalar _ _ hwire hencode => exact ValueCodec.writesLike_scalar hwire (hencode x)
  | packed _ _ hiter hitem ih =>
      have hvalues := ValueCodec.map_encodeValue_of_eq_map ih (hiter x)
      exact (ValueCodec.delimits_packedItems x).writesLike (ValueCodec.delimits_packedItems _)
        hitem.writes.1.toPuts hitem.writes.2.toPuts hvalues
  | @map _ _ _ _ _ _ key key' val val' coll coll' f g g' _ _ hiter hkey hval ihkey ihval =>
      have hitems : coll'.iter (f x) = (coll.iter x).map (Prod.map g g') := hiter x
      apply (ValueCodec.delimits_packedItems x).writesLike (ValueCodec.delimits_packedItems (f x))
        (hkey.writes.1.puts_entry hval.writes.1) (hkey.writes.2.puts_entry hval.writes.2)
      rw [hitems, List.map_map]
      exact List.map_congr_left fun e _ => ValueCodec.encodeValue_entry_map ihkey ihval e
  | packedArray _ _ hiter hitem ih =>
      have hvalues := ValueCodec.map_encodeValue_of_eq_map ih (hiter x)
      exact (ValueCodec.delimits_packedArray x).writesLike (ValueCodec.delimits_packedItems _)
        hitem.writes.1.toPuts hitem.writes.2.toPuts hvalues
  | arrays _ hitem ih =>
      have hvalues := ValueCodec.map_encodeValue_of_eq_map ih (List.Vector.toList_map x _)
      exact (ValueCodec.delimits_packedArray x).writesLike (ValueCodec.delimits_packedArray _)
        hitem.writes.1.toPuts hitem.writes.2.toPuts hvalues
  | embedded hvalue hvalue' _ ih => exact MessageCodec.WritesLike.value (ih x) hvalue hvalue'
  | plain _ _ _ _ hempty hcodec ih =>
      exact (ValueCodec.guards_plain _ _).writesLike not_false (ValueCodec.guards_plain _ _)
        hcodec.writes.1 hcodec.writes.2 (hempty x) (ih x).wireType fun _ => ih x
  | @optional _ _ codec codec' f hcodec ih =>
      have hvalues := ValueCodec.map_encodeValue_of_eq_map ih (Option.toList_map (o := x) (f := f))
      exact (hcodec.writes.1.writesAll_optional x).writesLike not_false
        (hcodec.writes.2.writesAll_optional _) (ih codec.forOverwrite).wireType hvalues
  | @unpackedField _ _ _ _ item _ _ _ _ _ hcoll hcoll' hiter hitem ih =>
      have hvalues := ValueCodec.map_encodeValue_of_eq_map ih (hiter x)
      exact (hitem.writes.1.writesAll_unpackedField hcoll hcoll.reversed_iter x).writesLike not_false
        (hitem.writes.2.writesAll_unpackedField hcoll' hcoll'.reversed_iter _)
        (ih item.forOverwrite).wireType hvalues
  | packedField hcoll hcoll' hiter hitem ih =>
      have hvalues := ValueCodec.map_encodeValue_of_eq_map ih (hiter x)
      apply (ValueCodec.guards_packedField _ _).writesLike not_false
        (ValueCodec.guards_packedField _ _)
        (ValueCodec.writes_packedItems hitem.writes.1.toPuts hcoll.reversed_iter)
        (ValueCodec.writes_packedItems hitem.writes.2.toPuts hcoll'.reversed_iter)
        (ValueCodec.isEmpty_of_iter_eq_map hcoll hcoll' (hiter x)) rfl fun _ => ?_
      exact (ValueCodec.delimits_packedItems x).writesLike (ValueCodec.delimits_packedItems _)
        hitem.writes.1.toPuts hitem.writes.2.toPuts hvalues
  | @unpackedArrayField _ _ item _ state state' _ _ _ _ _ _ _ hempty hitem ih =>
      have hitems := ValueCodec.items_array_map hempty x
      exact (hitem.writes.1.writesAll_unpackedArrayField state x).writesLike not_false
        (hitem.writes.2.writesAll_unpackedArrayField state' _) (ih item.forOverwrite).wireType
        (ValueCodec.map_encodeValue_of_eq_map ih hitems)
  | packedArrayField _ _ _ _ _ hempty hitem ih =>
      have hvalues := ValueCodec.map_encodeValue_of_eq_map ih (List.Vector.toList_map x _)
      apply (ValueCodec.guards_packedArrayField _ _ _).writesLike not_false
        (ValueCodec.guards_packedArrayField _ _ _) (hitem.writes.1.packedArray _)
        (hitem.writes.2.packedArray _) (ValueCodec.isEmpty_array_map hempty x) rfl fun _ => ?_
      exact (ValueCodec.delimits_packedArray x).writesLike (ValueCodec.delimits_packedArray _)
        hitem.writes.1.toPuts hitem.writes.2.toPuts hvalues
  | @unpackedArrayOptionField _ _ item _ n f hn hitem ih =>
      have hitems (value : Option (List.Vector _ n)) :
          (value.map (List.Vector.map f)).elim [] List.Vector.toList =
            (value.elim [] List.Vector.toList).map f := by
        cases value with
        | none => rfl
        | some arr => exact List.Vector.toList_map arr f
      exact (hitem.writes.1.writesAll_unpackedArrayOptionField hn x).writesLike not_false
        (hitem.writes.2.writesAll_unpackedArrayOptionField hn _) (ih item.forOverwrite).wireType
        (ValueCodec.map_encodeValue_of_eq_map ih (hitems x))
  | @option _ codec state _ _ hcodec =>
      have hwrites : codec.Writes _ := hcodec.built.writes not_false
      exact hwrites.plain_writesLike_optional not_false state x
  | @optionItems _ codec hcodec =>
      have hwrites : codec.Writes _ := hcodec.built.writes not_false
      exact (hwrites.writesAll_optional x).writesLike not_false
        (hwrites.writesAll_vec _) rfl rfl
  | @arrayItems _ item state n _ _ _ hitem =>
      have hwrites : item.Writes _ := hitem.built.writes not_false
      exact (hwrites.writesAll_unpackedArrayField state x).writesLike not_false
        (hwrites.writesAll_vec _) rfl rfl
  | @packedArrayItems _ item state n hn _ _ hitem =>
      have hwrites : item.Writes _ := hitem.built.writes not_false
      exact hwrites.packedArrayField_writesLike_packedField not_false state hn x
  | @arrayOptionItems _ item n hn hitem =>
      have hwrites : item.Writes _ := hitem.built.writes not_false
      exact (hwrites.writesAll_unpackedArrayOptionField hn x).writesLike not_false
        (hwrites.writesAll_vec _) rfl rfl
  | tagged tag _ ih => exact FieldCodec.WritesLike.tagged (ih x) tag
  | @oneof _ _ oneof oneof' f e g htag hview hnew hold ih =>
      have hview' := hview x
      have hwrites (i : Fin oneof.count) := (hold i).writes.1
      have hwrites' (j : Fin oneof'.count) : (oneof'.codec j).Writes _ :=
        (hnew j).built.writes not_false
      cases hvariant : oneof.view x with
      | none =>
          rw [hvariant] at hview'
          exact Oneof.writesLike_none not_false hvariant hview'
      | some v =>
          rw [hvariant] at hview'
          exact Oneof.writesLike_some not_false hwrites hwrites' hvariant hview' (htag v.1)
            (ih v.1 v.2)
  | @fields _ _ F F' _ _ f e g hsound hsound' hw hw' _ _ hgrows hget hempty hnew hold ih =>
      have hlike (m : _) (i : F.Index) :
          (F.field i).WritesLike (F.get m i) (F'.field (e i)) (F'.get (f m) (e i)) := by
        rw [hget]
        exact ih i (F.get m i)
      exact hgrows.writesLike hsound hsound' hw hw' (fun i => (hold i).writes.1)
        (fun j => (hnew j).built.writes not_false)
        (fun i => (hold i).structural.1.built.shows not_false)
        (fun j => (hnew j).built.shows not_false) (hlike x) (hempty x)
  | @recursive _ _ codec codec' f approx approx' hsame hsame' hwithin hwithin' _ ih =>
      obtain ⟨d, hd⟩ := hwithin x
      obtain ⟨d', hd'⟩ := hwithin' (f x)
      have hnests := hd (max d d') (le_max_left d d')
      have hnests' := hd' (max d d') (le_max_right d d')
      have hlike : (approx _).WritesLike x (approx' _) (f x) := ih (max d d') x
      constructor
      · rw [(hsame _).rawEncode hnests, (hsame' _).rawEncode hnests', hlike.rawEncode]
      · rw [(hsame _).rawEncodedLen hnests, (hsame' _).rawEncodedLen hnests', hlike.rawEncodedLen]

end Widens

end Bilrost
