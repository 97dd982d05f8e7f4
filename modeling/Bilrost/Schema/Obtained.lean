import Bilrost.Schema.DecodedOnce
import Bilrost.Schema.Walks

/-!
What relaxed decoding obtains from the payloads of a field. It does not matter
which encoding they were written by, so two types that write the same payloads
are compared by what each of them obtains.
-/

namespace Bilrost

open Program

theorem noRepeat_nil : NoRepeat [] := by
  rintro key ⟨⟩

namespace ValueCodec

variable {C T : Type} {item codec : ValueCodec T} {coll : Collection C T} {mode : DecodingMode}
  {depth n : Nat} {payload : Bytes} {payloads : List Bytes}

/-- What a payload is read as in the relaxed way. -/
def Reads (item : ValueCodec T) (mode : DecodingMode) (depth : Nat) (payload : Bytes) (value : T) :
    Prop :=
  item.Means .relaxed mode depth payload (value, .canonical)

theorem reads_iff {dest : T} {allowEmpty : Bool} {x : T × Canonicity} :
    (item.decodeBy .relaxed mode allowEmpty depth dest).Parses payload x [] ↔
      (item.decodeBy .relaxed mode true depth dest).Parses payload (x.1, .canonical) [] ∧
        x.2 = .canonical := by
  simp only [decodeBy, parses_asCanonical, and_true]

/-- An array takes as many items as it has. -/
theorem fills_replicate {x : List.Vector T n × Canonicity} :
    Fills (item.Replaces .relaxed mode depth) (List.Vector.replicate n item.forOverwrite) payloads x ↔
      List.Forall₂ (item.Reads mode depth) payloads x.1.toList ∧ x.2 = .canonical := by
  induction n generalizing payloads with
  | zero =>
      obtain ⟨arr, canon⟩ := x
      obtain rfl := arr.eq_nil
      rw [Fills, List.Vector.toList_nil, List.forall₂_nil_right_iff, Prod.mk.injEq]
      exact and_congr_right fun _ => and_iff_right (List.Vector.eq_nil _).symm
  | succ n ih =>
      rw [List.Vector.replicate_succ]
      cases payloads with
      | nil =>
          obtain ⟨value, values, harr⟩ := x.1.exists_eq_cons
          simp [Fills, harr]
      | cons payload payloads =>
          constructor
          · rintro ⟨⟨first, own⟩, ⟨rest, more⟩, hfirst, hrest, rfl⟩
            obtain ⟨hreads, rfl⟩ := reads_iff.mp hfirst
            obtain ⟨hall, rfl⟩ := ih.mp hrest
            rw [List.Vector.toList_cons]
            exact ⟨.cons hreads hall, rfl⟩
          · obtain ⟨arr, canon⟩ := x
            obtain ⟨value, values, rfl⟩ := arr.exists_eq_cons
            rw [List.Vector.toList_cons, List.forall₂_cons]
            rintro ⟨⟨hreads, hall⟩, rfl⟩
            exact ⟨(value, .canonical), (values, .canonical), hreads, ih.mpr ⟨hall, rfl⟩, rfl⟩

/-- The fields in which a value stands as one payload, or does not stand. -/
inductive StandsIn : {T : Type} → ValueCodec T → FieldCodec T → Prop
  | plain {T : Type} (codec : ValueCodec T) (state : EmptyState T) : StandsIn codec (codec.plain state)
  | packed {C T : Type} (item : ValueCodec T) (coll : Collection C T) :
      StandsIn (item.packed coll) (item.packedField coll)

namespace StandsIn

variable {field : FieldCodec T} {value : T}

theorem guards (h : codec.StandsIn field) : codec.Guards field := by
  cases h with
  | plain => exact guards_plain _ _
  | packed => exact guards_packedField _ _

end StandsIn

end ValueCodec

namespace Form

variable {T : Type} {item : ValueCodec T} {state : EmptyState T} {mode : DecodingMode}
  {depth n : Nat} {payloads : List Bytes}

/-- The payloads of the fields that some items stand in. -/
def spread : Form → List Bytes → List Bytes
  | packed, payloads => [varint payloads.flatten.length ++ payloads.flatten]
  | unpacked, payloads => payloads

/-- The encoding of optional arrays whose own form it is. -/
def arrayOptionField (item : ValueCodec T) (n : Nat) :
    Form → FieldCodec (Option (List.Vector T n))
  | packed => (item.packedArray n).optional
  | unpacked => item.unpackedArrayOptionField n

section
variable {form : Form} (h : form.Fits item.wireType payloads []) (hitem : item.Cuts)
include h hitem

end

end Form

end Bilrost
