import Bilrost.Schema.Extends
import Bilrost.Schema.Walks

/-!
What remains of some bytes without the fields that the schema does not know.
They are left out at every depth of nesting, as far as the bytes are looked at,
with the keys that follow and the lengths around them written anew. A message
that is the plain value of a field and of which nothing remains goes with its
field, if there was something in it.
-/

namespace Bilrost

/-- The second remains of the first, where it is decoded with room for some
levels of nesting. A recursive message is taken for another one that is the same
to that depth, or as far as there are bytes. -/
inductive Remains : Nat → (part : Part) → part.Wire → part.Wire → Prop
  -- values
  | scalar {depth : Nat} {T : Type} {s : Scalar T} (payload : Bytes) :
      Remains depth (.value s.codec) payload payload
  | packedItems {depth : Nat} {C T : Type} {item : ValueCodec T} {coll : Collection C T}
      {fixedSize : Option Nat} {payloads payloads' : List Bytes}
      (hlength : payloads.length = payloads'.length)
      (hitems : ∀ {payload payload'}, (payload, payload') ∈ payloads.zip payloads' →
        Remains depth (.value item) payload payload') :
      Remains depth (.value (ValueCodec.packedItems fixedSize item coll))
        (regionBytes payloads.flatten) (regionBytes payloads'.flatten)
  | entry {depth : Nat} {K V : Type} {key : ValueCodec K} {val : ValueCodec V}
      {keyBytes keyBytes' valBytes valBytes' : Bytes}
      (hkey : Remains depth (.value key) keyBytes keyBytes')
      (hval : Remains depth (.value val) valBytes valBytes') :
      Remains depth (.value (key.entry val)) (keyBytes ++ valBytes) (keyBytes' ++ valBytes')
  | packedArray {depth : Nat} {T : Type} {item : ValueCodec T} {n : Nat}
      {payloads payloads' : List Bytes} (hlength : payloads.length = payloads'.length)
      (hitems : ∀ {payload payload'}, (payload, payload') ∈ payloads.zip payloads' →
        Remains depth (.value item) payload payload') :
      Remains depth (.value (item.packedArray n)) (regionBytes payloads.flatten)
        (regionBytes payloads'.flatten)
  | proxied {depth : Nat} {T P : Type} {codec : ValueCodec P} {payload payload' : Bytes}
      (proxy : Proxy T P) (forOverwrite : T) (emptyState : Option (EmptyState T))
      (hpayload : Remains depth (.value codec) payload payload') :
      Remains depth (.value (codec.proxied proxy forOverwrite emptyState)) payload payload'
  | nested {depth : Nat} {M : Type} {codec : MessageCodec M} {content content' : Bytes}
      (hcontent : Remains depth (.message codec) content content') :
      Remains (depth + 1) (.value codec.nested) (regionBytes content) (regionBytes content')
  | tupled {depth : Nat} {M : Type} {codec : MessageCodec M} {content content' : Bytes}
      (hcontent : Remains depth (.message codec) content content') :
      Remains (depth + 1) (.value codec.tupled) (regionBytes content) (regionBytes content')
  | inlined {depth : Nat} {M : Type} {codec : MessageCodec M} {content content' : Bytes}
      (hcontent : Remains depth (.message codec) content content') :
      Remains depth (.value codec.inlined) (regionBytes content) (regionBytes content')
  -- fields with one tag
  | payloads {depth : Nat} {T T' : Type} {codec : FieldCodec T} {item : ValueCodec T'}
      {payloads payloads' : List Bytes} (hcodec : codec.Carries item)
      (hlength : payloads.length = payloads'.length)
      (hitems : ∀ {payload payload'}, (payload, payload') ∈ payloads.zip payloads' →
        Remains depth (.value item) payload payload') :
      Remains depth (.field codec) payloads payloads'
  /-- Nothing but fields that are not known. -/
  | emptied {depth : Nat} {T : Type} {codec : ValueCodec T} {state : EmptyState T}
      {payload : Bytes} (hchecks : codec.checksEmpty = true) (hne : payload ≠ regionBytes [])
      (hpayload : Remains depth (.value codec) payload (regionBytes [])) :
      Remains depth (.field (codec.plain state)) [payload] []
  -- fields of messages
  | tagged {depth : Nat} {T : Type} {codec : FieldCodec T} {payloads payloads' : List Bytes}
      (tag : Nat) (wireType : WireType) (hpayloads : Remains depth (.field codec) payloads payloads') :
      Remains depth (.messageField (codec.tagged tag)) (payloads.map (Record.mk tag wireType))
        (payloads'.map (Record.mk tag wireType))
  | variant {depth : Nat} {T : Type} {oneof : Oneof T} {payload payload' : Bytes}
      (i : Fin oneof.count) (hpayload : Remains depth (.value (oneof.codec i)) payload payload') :
      Remains depth (.messageField oneof.field)
        [⟨oneof.tag i, (oneof.codec i).wireType, payload⟩]
        [⟨oneof.tag i, (oneof.codec i).wireType, payload'⟩]
  -- messages
  | fields {depth : Nat} {M : Type} {F : Fields M} {w : F.Writing} (stretches : List (Stretch F))
      (hknown : ∀ s ∈ stretches, ∀ i, s.field = some i →
        Remains depth (.messageField (F.field i)) s.records s.remaining)
      (hunknown : ∀ s ∈ stretches, s.field = none →
        s.remaining = [] ∧ ∀ r ∈ s.records, F.fieldOf r.tag = none) :
      Remains depth (.message (F.message w)) (wireRecords 0 (stretches.flatMap Stretch.records))
        (wireRecords 0 (stretches.flatMap Stretch.remaining))
  | recursive {depth : Nat} {M : Type} {codec codec' : MessageCodec M} {bytes bytes' : Bytes}
      (hsame : codec.SameTo depth codec') (hbytes : Remains depth (.message codec') bytes bytes') :
      Remains depth (.message codec) bytes bytes'
  | unrolled {depth : Nat} {M : Type} {codec : MessageCodec M} {bytes bytes' : Bytes}
      {approx : Nat → MessageCodec M} {within : Nat → M → Prop}
      (hunrolls : codec.Unrolls approx within)
      (hbytes : Remains depth (.message (approx bytes.length)) bytes bytes') :
      Remains depth (.message codec) bytes bytes'

/-- Nothing gets longer. -/
def Part.Shrinks : (part : Part) → part.Wire → part.Wire → Prop
  | .value _, payload, payload' => payload'.length ≤ payload.length
  | .field _, payloads, payloads' =>
      payloads' = [] ∨ List.Forall₂ (fun p p' : Bytes => p'.length ≤ p.length) payloads payloads'
  | .messageField _, (records : List Record), (records' : List Record) => ∀ last rest,
      (wireRecords last (records' ++ rest)).length ≤ (wireRecords last (records ++ rest)).length
  | .message _, bytes, bytes' => bytes'.length ≤ bytes.length

theorem varint_length_le_of_le {u v : Nat} (h : u ≤ v) : (varint u).length ≤ (varint v).length := by
  by_cases hle : (varint v).length ≤ 8
  · rw [varint_length_le_iff _ hle]
    have hv := (varint_length_le_iff v hle).mp le_rfl
    omega
  · have hnine := varint_length_le u
    omega

theorem regionBytes_length_le {content content' : Bytes} (h : content'.length ≤ content.length) :
    (regionBytes content').length ≤ (regionBytes content).length := by
  have hprefix := varint_length_le_of_le h
  simp only [regionBytes, List.length_append]
  omega

theorem flatten_length_le {payloads payloads' : List Bytes}
    (h : List.Forall₂ (fun p p' : Bytes => p'.length ≤ p.length) payloads payloads') :
    payloads'.flatten.length ≤ payloads.flatten.length := by
  induction h with
  | nil => exact le_rfl
  | cons hle _ ih =>
      simp only [List.flatten_cons, List.length_append]
      omega

/-- The key behind a record that is left out makes up for no more than that of
the record. -/
theorem wireRecords_length_le_cons (last : Nat) (r : Record) (rest : List Record) :
    (wireRecords last rest).length ≤ (wireRecords last (r :: rest)).length := by
  cases rest with
  | nil => exact Nat.zero_le _
  | cons r' rest =>
      have hdelta : 4 * (r'.tag - last) ≤ 4 * (r.tag - last) + 4 * (r'.tag - r.tag) := by omega
      have hkey := (varint_length_le_of_le hdelta).trans (varint_length_add_le _ _)
      simp only [wireRecords, List.length_append, keyBytes_length]
      omega

theorem wireRecords_length_le_append (last : Nat) (records rest : List Record) :
    (wireRecords last rest).length ≤ (wireRecords last (records ++ rest)).length := by
  induction records generalizing last with
  | nil => exact le_rfl
  | cons r records ih =>
      apply (wireRecords_length_le_cons last r rest).trans
      have hle := ih r.tag
      simp only [List.cons_append, wireRecords, List.length_append]
      omega

theorem wireRecords_length_le_of_payloads (tag : Nat) (wireType : WireType)
    {payloads payloads' : List Bytes}
    (h : List.Forall₂ (fun p p' : Bytes => p'.length ≤ p.length) payloads payloads') (last : Nat)
    (rest : List Record) :
    (wireRecords last (payloads'.map (Record.mk tag wireType) ++ rest)).length ≤
      (wireRecords last (payloads.map (Record.mk tag wireType) ++ rest)).length := by
  induction h generalizing last with
  | nil => exact le_rfl
  | cons hle _ ih =>
      have hmore := ih tag
      simp only [List.map_cons, List.cons_append, wireRecords, List.length_append]
      omega

theorem wireRecords_length_le_of_stretches {M : Type} {F : Fields M} {stretches : List (Stretch F)}
    (h : ∀ s ∈ stretches, ∀ last rest, (wireRecords last (s.remaining ++ rest)).length ≤
      (wireRecords last (s.records ++ rest)).length) (last : Nat) :
    (wireRecords last (stretches.flatMap Stretch.remaining)).length ≤
      (wireRecords last (stretches.flatMap Stretch.records)).length := by
  induction stretches generalizing last with
  | nil => exact le_rfl
  | cons s stretches ih =>
      have hmore := ih fun s' hs' => h s' (List.mem_cons_of_mem s hs')
      rw [List.flatMap_cons, List.flatMap_cons]
      apply (h s List.mem_cons_self last _).trans
      rw [wireRecords_append, wireRecords_append, List.length_append, List.length_append]
      exact Nat.add_le_add_left (hmore _) _

theorem Remains.shrinks {depth : Nat} {part : Part} {x x' : part.Wire}
    (h : Remains depth part x x') : part.Shrinks x x' := by
  induction h with
  | scalar payload => exact le_refl payload.length
  | packedItems hlength _ ih =>
      exact regionBytes_length_le (flatten_length_le (List.forall₂_iff_zip.mpr ⟨hlength, ih⟩))
  | packedArray hlength _ ih =>
      exact regionBytes_length_le (flatten_length_le (List.forall₂_iff_zip.mpr ⟨hlength, ih⟩))
  | @entry _ _ _ _ _ keyBytes keyBytes' valBytes valBytes' _ _ ihkey ihval =>
      change (keyBytes' ++ valBytes').length ≤ (keyBytes ++ valBytes).length
      rw [List.length_append, List.length_append]
      exact Nat.add_le_add ihkey ihval
  | proxied _ _ _ _ ih => exact ih
  | nested _ ih => exact regionBytes_length_le ih
  | tupled _ ih => exact regionBytes_length_le ih
  | inlined _ ih => exact regionBytes_length_le ih
  | payloads _ hlength _ ih => exact .inr (List.forall₂_iff_zip.mpr ⟨hlength, ih⟩)
  | emptied => exact .inl rfl
  | tagged tag wireType _ ih =>
      intro last rest
      rcases ih with rfl | hpayloads
      · exact wireRecords_length_le_append last _ rest
      · exact wireRecords_length_le_of_payloads tag wireType hpayloads last rest
  | variant i _ ih =>
      intro last rest
      exact wireRecords_length_le_of_payloads _ _ (.cons ih .nil) last rest
  | @fields _ _ F _ stretches _ hunknown ih =>
      apply wireRecords_length_le_of_stretches
      intro s hs last rest
      cases hfield : s.field with
      | some i => exact ih s hs i hfield last rest
      | none =>
          rw [(hunknown s hs hfield).1]
          exact wireRecords_length_le_append last _ rest
  | recursive _ _ ih => exact ih
  | unrolled _ _ ih => exact ih

/-- What remains of some payloads one by one. -/
abbrev RemainsEach (depth : Nat) {T : Type} (item : ValueCodec T) :
    List Bytes → List Bytes → Prop :=
  List.Forall₂ fun payload payload' : Bytes => Remains depth (.value item) payload payload'

namespace Remains

variable {depth : Nat} {T C : Type} {item : ValueCodec T} {payloads payloads' : List Bytes}

theorem packedItems_of_each {coll : Collection C T} {fixedSize : Option Nat}
    (h : RemainsEach depth item payloads payloads') :
    Remains depth (.value (ValueCodec.packedItems fixedSize item coll))
      (regionBytes payloads.flatten) (regionBytes payloads'.flatten) := by
  obtain ⟨hlength, hitems⟩ := List.forall₂_iff_zip.mp h
  exact .packedItems hlength hitems

theorem packedArray_of_each {n : Nat} (h : RemainsEach depth item payloads payloads') :
    Remains depth (.value (item.packedArray n)) (regionBytes payloads.flatten)
      (regionBytes payloads'.flatten) := by
  obtain ⟨hlength, hitems⟩ := List.forall₂_iff_zip.mp h
  exact .packedArray hlength hitems

theorem payloads_of_each {codec : FieldCodec C} (hcodec : codec.Carries item)
    (h : RemainsEach depth item payloads payloads') :
    Remains depth (.field codec) payloads payloads' := by
  obtain ⟨hlength, hitems⟩ := List.forall₂_iff_zip.mp h
  exact .payloads hcodec hlength hitems

theorem flatten_length_le (h : RemainsEach depth item payloads payloads') :
    payloads'.flatten.length ≤ payloads.flatten.length :=
  Bilrost.flatten_length_le (h.imp fun _ _ hpayload => hpayload.shrinks)

end Remains

end Bilrost
