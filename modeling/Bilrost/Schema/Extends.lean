import Bilrost.Schema.Unknown
import Bilrost.Schema.WritesLike

/-!
What is written with extensions. Some bytes extend others if these are what
remains of them without the fields that are not known, at any depth of nesting.
A message that is the plain value of a field goes with its field when nothing
remains of it.

How much has to go is told by the canonicity that would be reported, and where
that is the highest nothing may.
-/

namespace Bilrost

/-- What a part of a schema is written as. A field with one tag has a number of
payloads, and a field of a message has records. -/
def Part.Wire : Part → Type
  | .value _ => Bytes
  | .field _ => List Bytes
  | .messageField _ => List Record
  | .message _ => Bytes

/-- The bytes of a region. -/
def regionBytes (content : Bytes) : Bytes := varint content.length ++ content

/-- The encoding that the payloads of a field are in. -/
inductive FieldCodec.Carries : {T T' : Type} → FieldCodec T → ValueCodec T' → Prop
  | plain {T : Type} (codec : ValueCodec T) (state : EmptyState T) :
      Carries (codec.plain state) codec
  | optional {T : Type} (codec : ValueCodec T) : Carries codec.optional codec
  | unpackedField {C T : Type} (item : ValueCodec T) (coll : Collection C T) :
      Carries (item.unpackedField coll) item
  | packedField {C T : Type} (item : ValueCodec T) (coll : Collection C T) :
      Carries (item.packedField coll) (item.packed coll)
  | unpackedArrayField {T : Type} (item : ValueCodec T) (state : EmptyState T) (n : Nat) :
      Carries (item.unpackedArrayField state n) item
  | packedArrayField {T : Type} (item : ValueCodec T) (state : EmptyState T) (n : Nat) :
      Carries (item.packedArrayField state n) (item.packedArray n)
  | unpackedArrayOptionField {T : Type} (item : ValueCodec T) (n : Nat) :
      Carries (item.unpackedArrayOptionField n) item

/-- A stretch of the records of a message: those of one of its fields, or some
that it does not know, and what remains of them. -/
structure Stretch {M : Type} (F : Fields M) where
  field : Option F.Index
  records : List Record
  remaining : List Record

/-- The first is the second with fields in it that the schema does not know. -/
inductive Extends (least : Canonicity) : (part : Part) → part.Wire → part.Wire → Prop
  | same {part : Part} (x : part.Wire) : Extends least part x x
  -- values
  | packedItems {C T : Type} {item : ValueCodec T} {coll : Collection C T}
      {fixedSize : Option Nat} {payloads payloads' : List Bytes}
      (hlength : payloads.length = payloads'.length)
      (hitems : ∀ {payload payload'}, (payload, payload') ∈ payloads.zip payloads' →
        Extends least (.value item) payload payload') :
      Extends least (.value (ValueCodec.packedItems fixedSize item coll))
        (regionBytes payloads.flatten) (regionBytes payloads'.flatten)
  | entry {K V : Type} {key : ValueCodec K} {val : ValueCodec V}
      {keyBytes keyBytes' valBytes valBytes' : Bytes}
      (hkey : Extends least (.value key) keyBytes keyBytes')
      (hval : Extends least (.value val) valBytes valBytes') :
      Extends least (.value (key.entry val)) (keyBytes ++ valBytes) (keyBytes' ++ valBytes')
  | packedArray {T : Type} {item : ValueCodec T} {n : Nat} {payloads payloads' : List Bytes}
      (hlength : payloads.length = payloads'.length)
      (hitems : ∀ {payload payload'}, (payload, payload') ∈ payloads.zip payloads' →
        Extends least (.value item) payload payload') :
      Extends least (.value (item.packedArray n)) (regionBytes payloads.flatten)
        (regionBytes payloads'.flatten)
  | embedded {M : Type} {codec : MessageCodec M} {value : ValueCodec M} {content content' : Bytes}
      (hvalue : codec.Embeds value) (hcontent : Extends least (.message codec) content content') :
      Extends least (.value value) (regionBytes content) (regionBytes content')
  -- fields with one tag
  | payloads {T T' : Type} {codec : FieldCodec T} {item : ValueCodec T'}
      {payloads payloads' : List Bytes} (hcodec : codec.Carries item)
      (hlength : payloads.length = payloads'.length)
      (hitems : ∀ {payload payload'}, (payload, payload') ∈ payloads.zip payloads' →
        Extends least (.value item) payload payload') :
      Extends least (.field codec) payloads payloads'
  /-- Nothing but extensions: what remains is an empty value. -/
  | emptied {T : Type} {codec : ValueCodec T} {state : EmptyState T} {payload empty : Bytes}
      (hleast : least ≤ .hasExtensions) (hchecks : codec.checksEmpty = true)
      (hempty : codec.encodeValue codec.forOverwrite = some empty) (hne : payload ≠ empty)
      (hpayload : Extends least (.value codec) payload empty) :
      Extends least (.field (codec.plain state)) [payload] []
  -- fields of messages
  | tagged {T : Type} {codec : FieldCodec T} {payloads payloads' : List Bytes} (tag : Nat)
      (wireType : WireType) (hpayloads : Extends least (.field codec) payloads payloads') :
      Extends least (.messageField (codec.tagged tag)) (payloads.map (Record.mk tag wireType))
        (payloads'.map (Record.mk tag wireType))
  | variant {T : Type} {oneof : Oneof T} {payload payload' : Bytes} (i : Fin oneof.count)
      (hpayload : Extends least (.value (oneof.codec i)) payload payload') :
      Extends least (.messageField oneof.field)
        [⟨oneof.tag i, (oneof.codec i).wireType, payload⟩]
        [⟨oneof.tag i, (oneof.codec i).wireType, payload'⟩]
  -- messages
  | fields {M : Type} {F : Fields M} {w : F.Writing} (stretches : List (Stretch F))
      (hknown : ∀ s ∈ stretches, ∀ i, s.field = some i →
        Extends least (.messageField (F.field i)) s.records s.remaining)
      (hunknown : ∀ s ∈ stretches, s.field = none → least ≤ .hasExtensions ∧ s.remaining = [] ∧
        ∀ r ∈ s.records, F.fieldOf r.tag = none) :
      Extends least (.message (F.message w)) (wireRecords 0 (stretches.flatMap Stretch.records))
        (wireRecords 0 (stretches.flatMap Stretch.remaining))
  | recursive {M : Type} {codec : MessageCodec M} {bytes bytes' : Bytes}
      {approx : Nat → MessageCodec M} (hsame : ∀ depth, codec.SameTo depth (approx depth))
      (depth : Nat)
      (happrox : ∀ d, depth ≤ d → Extends least (.message (approx d)) bytes bytes') :
      Extends least (.message codec) bytes bytes'
  | unrolled {M : Type} {codec : MessageCodec M} {bytes bytes' : Bytes}
      {approx : Nat → MessageCodec M} {within : Nat → M → Prop}
      (hunrolls : codec.Unrolls approx within) (n : Nat)
      (happrox : ∀ n', n ≤ n' → Extends least (.message (approx n')) bytes bytes') :
      Extends least (.message codec) bytes bytes'

/-- The payloads of some items that are extended one by one. -/
abbrev ExtendsEach (least : Canonicity) {T : Type} (item : ValueCodec T) :
    List Bytes → List Bytes → Prop :=
  List.Forall₂ fun payload payload' : Bytes => Extends least (.value item) payload payload'

namespace Extends

variable {least : Canonicity} {T C : Type} {item : ValueCodec T} {payloads payloads' : List Bytes}

theorem packedItems_of_each {coll : Collection C T} {fixedSize : Option Nat}
    (h : ExtendsEach least item payloads payloads') :
    Extends least (.value (ValueCodec.packedItems fixedSize item coll))
      (regionBytes payloads.flatten) (regionBytes payloads'.flatten) := by
  obtain ⟨hlength, hitems⟩ := List.forall₂_iff_zip.mp h
  exact .packedItems hlength hitems

theorem packedArray_of_each {n : Nat} (h : ExtendsEach least item payloads payloads') :
    Extends least (.value (item.packedArray n)) (regionBytes payloads.flatten)
      (regionBytes payloads'.flatten) := by
  obtain ⟨hlength, hitems⟩ := List.forall₂_iff_zip.mp h
  exact .packedArray hlength hitems

theorem payloads_of_each {codec : FieldCodec C} (hcodec : codec.Carries item)
    (h : ExtendsEach least item payloads payloads') :
    Extends least (.field codec) payloads payloads' := by
  obtain ⟨hlength, hitems⟩ := List.forall₂_iff_zip.mp h
  exact .payloads hcodec hlength hitems

theorem payloads_eq (hlength : payloads.length = payloads'.length)
    (h : ∀ {payload payload'}, (payload, payload') ∈ payloads.zip payloads' → payload = payload') :
    payloads = payloads' :=
  List.forall₂_eq_eq_eq ▸ List.forall₂_iff_zip.mpr ⟨hlength, h⟩

/-- Without a canonicity to spare nothing is left out. -/
theorem eq_of_canonical {part : Part} {x x' : part.Wire} (h : Extends .canonical part x x') :
    x = x' := by
  have hnone : ¬Canonicity.canonical ≤ .hasExtensions := by decide
  induction h with
  | same => rfl
  | packedItems hlength _ ih => exact congrArg (fun ps => regionBytes ps.flatten) (payloads_eq hlength ih)
  | entry _ _ ihkey ihval => exact congrArg₂ (fun k v : Bytes => k ++ v) ihkey ihval
  | packedArray hlength _ ih => exact congrArg (fun ps => regionBytes ps.flatten) (payloads_eq hlength ih)
  | embedded _ _ ih => exact congrArg regionBytes ih
  | payloads _ hlength _ ih => exact payloads_eq hlength ih
  | emptied hleast => exact absurd hleast hnone
  | tagged tag wireType _ ih => exact congrArg (List.map (Record.mk tag wireType)) ih
  | variant i _ ih => exact congrArg (fun payload => [Record.mk _ _ payload]) ih
  | fields stretches _ hunknown ih =>
      have hrecords : ∀ s ∈ stretches, s.records = s.remaining := by
        intro s hs
        cases hfield : s.field with
        | none => exact absurd (hunknown s hs hfield).1 hnone
        | some i => exact ih s hs i hfield
      exact congrArg (wireRecords 0) (List.flatMap_congr hrecords)
  | recursive _ depth _ ih => exact ih depth le_rfl
  | unrolled _ n _ ih => exact ih n le_rfl

end Extends

end Bilrost
