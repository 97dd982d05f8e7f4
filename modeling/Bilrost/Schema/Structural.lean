import Bilrost.Schema.MessageWrites
import Bilrost.Schema.Single
import Mathlib.Data.Countable.Basic

/-!
The schemas whose values are known by their encodings. They leave out whatever
makes two values look alike on the wire: ignored fields, types that are encoded
as another one, arrays without items, and collections without an order.

A type that contains itself needs something to begin with, below the last level
of nesting that is looked at. Any message type with the same values will do.
-/

namespace Bilrost

/-- Values that are the same are equal. -/
def Part.Discerns : Part → Prop
  | .value codec => ∀ b x y, codec.same b x y → x = y
  | .field codec => ∀ b x y, codec.same b x y → x = y
  | .messageField fld => ∀ b x y, fld.same b x y → x = y
  | .message codec => ∀ b x y, codec.same b x y → x = y

theorem eq_of_forall₂_same {T : Type} {n : Nat} {same : T → T → Prop}
    (h : ∀ x y, same x y → x = y) {a a' : List.Vector T n}
    (hsame : List.Forall₂ same a.toList a'.toList) : a = a' := by
  apply List.Vector.toList_injective
  rw [← List.forall₂_eq_eq_eq]
  exact hsame.imp h

/-- Without ignored fields, `same` is equality. -/
theorem Built.discerns {allowed : Features} {part : Part} (h : Built allowed part)
    (hignored : ¬ allowed.ignored) : part.Discerns := by
  induction h with
  | packedArray _ _ ih => exact fun b a a' hsame => eq_of_forall₂_same (ih b) hsame
  | unpackedArrayField _ _ _ _ ih => exact fun b a a' hsame => eq_of_forall₂_same (ih b) hsame
  | packedArrayField _ _ _ _ ih => exact fun b a a' hsame => eq_of_forall₂_same (ih b) hsame
  | nested _ ih => exact ih
  | tupled _ ih => exact ih
  | inlined _ ih => exact ih
  | plain _ _ _ ih => exact ih
  | tagged _ _ ih => exact ih
  | @fields _ F w _ _ hnone _ ih =>
    intro b m m' hsame
    cases b with
    | true => exact hsame
    | false =>
      have hempty : Subsingleton F.Ignored := hnone.resolve_left hignored
      apply F.view.injective
      apply Prod.ext
      · exact funext fun i => ih i false _ _ (hsame i)
      · exact hempty.elim _ _
  | recursive approx hsame _ _ ih =>
    intro b m m' hm
    rw [(hsame 0).same] at hm
    exact ih 0 b m m' hm
  | unrolled approx _ hunrolls _ ih =>
    intro b m m' hm
    rw [hunrolls.same 0] at hm
    exact ih 0 b m m' hm
  | scalar | packed | localProxy | map | proxied | optional | unpackedField | packedField
  | unpackedArrayOptionField | oneof => exact fun _ _ _ => id

/-- Schemas without anything that two values could look alike for. A recursive
type reaches a depth from which on it nests within, and one that contains itself
in a message variant goes on within the approximations that follow. -/
inductive Structural : Part → Prop
  -- values
  | scalar {T : Type} {s : Scalar T} (h : s.Standard) : Structural (.value s.codec)
  | packed {C T : Type} {item : ValueCodec T} {coll : Collection C T}
      (hcoll : coll.Standard .structural) (hitem : Structural (.value item)) :
      Structural (.value (item.packed coll))
  | map {C K V : Type} {key : ValueCodec K} {val : ValueCodec V} {coll : Collection C (K × V)}
      (hcoll : coll.Standard .structural) (hkey : Structural (.value key))
      (hval : Structural (.value val)) : Structural (.value (key.map val coll))
  | packedArray {T : Type} {item : ValueCodec T} {n : Nat} (hn : 0 < n)
      (hitem : Structural (.value item)) : Structural (.value (item.packedArray n))
  | nested {M : Type} {codec : MessageCodec M} (hcodec : Structural (.message codec)) :
      Structural (.value codec.nested)
  | tupled {M : Type} {codec : MessageCodec M} (hcodec : Structural (.message codec)) :
      Structural (.value codec.tupled)
  | inlined {M : Type} {codec : MessageCodec M} (hcodec : Structural (.message codec)) :
      Structural (.value codec.inlined)
  -- fields with one tag
  | plain {T : Type} {codec : ValueCodec T} {state : EmptyState T}
      (hstate : codec.emptyState = some state) (hempties : codec.Empties state)
      (hcodec : Structural (.value codec)) : Structural (.field (codec.plain state))
  | optional {T : Type} {codec : ValueCodec T} (hcodec : Structural (.value codec)) :
      Structural (.field codec.optional)
  | unpackedField {C T : Type} {item : ValueCodec T} {coll : Collection C T}
      (hcoll : coll.Standard .structural) (hitem : Structural (.value item)) :
      Structural (.field (item.unpackedField coll))
  | packedField {C T : Type} {item : ValueCodec T} {coll : Collection C T}
      (hcoll : coll.Standard .structural) (hitem : Structural (.value item)) :
      Structural (.field (item.packedField coll))
  | unpackedArrayField {T : Type} {item : ValueCodec T} {state : EmptyState T} {n : Nat}
      (hn : 0 < n) (hstate : item.emptyState = some state) (hempties : item.Empties state)
      (hitem : Structural (.value item)) : Structural (.field (item.unpackedArrayField state n))
  | packedArrayField {T : Type} {item : ValueCodec T} {state : EmptyState T} {n : Nat}
      (hn : 0 < n) (hstate : item.emptyState = some state) (hempties : item.Empties state)
      (hitem : Structural (.value item)) : Structural (.field (item.packedArrayField state n))
  | unpackedArrayOptionField {T : Type} {item : ValueCodec T} {n : Nat} (hn : 0 < n)
      (hitem : Structural (.value item)) : Structural (.field (item.unpackedArrayOptionField n))
  -- fields of messages
  | tagged {T : Type} {codec : FieldCodec T} (tag : Nat) (hcodec : Structural (.field codec)) :
      Structural (.messageField (codec.tagged tag))
  | oneof {T : Type} {oneof : Oneof T}
      (hvariants : ∀ i, Structural (.value (oneof.codec i))) :
      Structural (.messageField oneof.field)
  -- messages
  | fields {M : Type} {F : Fields M} {w : F.Writing} (hsound : F.Sound) (hw : w.Standard)
      (hignored : Subsingleton F.Ignored)
      (hfields : ∀ i, Structural (.messageField (F.field i))) :
      Structural (.message (F.message w))
  | recursive {M : Type} {codec : MessageCodec M} (approx : Nat → MessageCodec M)
      (hsame : ∀ depth, codec.SameTo depth (approx depth))
      (hwithin : ∀ m, ∃ depth, ∀ d, depth ≤ d → codec.nestsWithin d m)
      (happrox : ∀ depth, Structural (.message (approx depth))) : Structural (.message codec)
  | unrolled {M : Type} {codec : MessageCodec M} (approx : Nat → MessageCodec M)
      (within : Nat → M → Prop) (hunrolls : codec.Unrolls approx within)
      (hgrows : ∀ {n n' m}, n ≤ n' → within n m → within n' m)
      (happrox : ∀ n, Structural (.message (approx n))) : Structural (.message codec)

theorem Structural.built {part : Part} (h : Structural part) : Built .structural part := by
  induction h with
  | scalar h => exact .scalar h
  | packed hcoll _ hitem => exact .packed hcoll hitem
  | map hcoll _ _ hkey hval => exact .map hcoll hkey hval
  | packedArray hn _ hitem => exact .packedArray (.inl hn) hitem
  | nested _ hcodec => exact .nested hcodec
  | tupled _ hcodec => exact .tupled hcodec
  | inlined _ hcodec => exact .inlined hcodec
  | plain hstate hempties _ hcodec => exact .plain hstate hempties hcodec
  | optional _ hcodec => exact .optional hcodec
  | unpackedField hcoll _ hitem => exact .unpackedField hcoll hitem
  | packedField hcoll _ hitem => exact .packedField hcoll hitem
  | unpackedArrayField hn hstate hempties _ hitem =>
    exact .unpackedArrayField (.inl hn) hstate hempties hitem
  | packedArrayField hn hstate hempties _ hitem =>
    exact .packedArrayField (.inl hn) hstate hempties hitem
  | unpackedArrayOptionField hn _ hitem => exact .unpackedArrayOptionField (.inl hn) hitem
  | tagged tag _ hcodec => exact .tagged tag hcodec
  | oneof _ hvariants => exact .oneof hvariants
  | fields hsound hw hignored _ hfields => exact .fields hsound hw (.inr hignored) hfields
  | recursive approx hsame hwithin _ happrox =>
    exact .recursive approx hsame (fun m => (hwithin m).imp fun depth h => h depth le_rfl) happrox
  | unrolled approx within hunrolls _ _ happrox => exact .unrolled approx within hunrolls happrox

theorem Structural.derived {T : Type} {codec : FieldCodec T} {tag : Nat} (htag : tag < 2 ^ 32)
    (h : Structural (.field codec)) : Structural (.message (codec.derived tag)) :=
  .fields (Fields.singleBy_sound htag) .derived (inferInstanceAs (Subsingleton Unit)) fun _ =>
    .tagged tag h

end Bilrost
