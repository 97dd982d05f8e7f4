import Bilrost.Schema.Basic
import Bilrost.Codec.ScalarTypes

/-!
Messages and tuples with a single field, from which examples of schemas are put
together.
-/

namespace Bilrost

namespace Fields

/-- A message that is seen as its only field. -/
def singleBy {M T : Type} (view : M ≃ T) (field : MessageField T) : Fields M where
  count := 1
  Ty _ := T
  field _ := field
  Ignored := Unit
  ignoredDefault := ()
  view :=
    { toFun := fun m => (fun _ => view m, ())
      invFun := fun values => view.symm (values.1 0)
      left_inv := fun m => view.symm_apply_apply m
      right_inv := fun values => by
        refine Prod.ext (funext fun i => ?_) rfl
        rw [Subsingleton.elim i 0]
        exact view.apply_symm_apply _ }

/-- A message that is nothing but its only field. -/
def single {T : Type} (field : MessageField T) : Fields T := singleBy (Equiv.refl T) field

theorem singleBy_sound {M T : Type} {view : M ≃ T} {codec : FieldCodec T} {tag : Nat}
    (htag : tag < 2 ^ 32) : (singleBy view (codec.tagged tag)).Sound where
  tagged _ := List.cons_ne_nil _ _
  nodup _ := List.nodup_singleton tag
  disjoint := List.pairwise_singleton _ _
  lt _ _ hmem := (List.mem_singleton.mp hmem) ▸ htag

end Fields

/-- A derived message with one field. -/
def FieldCodec.derived {T : Type} (codec : FieldCodec T) (tag : Nat) : MessageCodec T :=
  (Fields.single (codec.tagged tag)).message (Fields.single (codec.tagged tag)).derived

/-- A tuple of one. Its field has the tag zero. -/
def FieldCodec.asTuple {T : Type} (codec : FieldCodec T) : MessageCodec T :=
  (Fields.single (codec.tagged 0)).message ((Fields.single (codec.tagged 0)).listed .trivial)

theorem Built.derived {allowed : Features} {T : Type} {codec : FieldCodec T} {tag : Nat}
    (htag : tag < 2 ^ 32) (h : Built allowed (.field codec)) :
    Built allowed (.message (codec.derived tag)) :=
  .fields (Fields.singleBy_sound htag) .derived (.inr (inferInstanceAs (Subsingleton Unit)))
    fun _ => .tagged tag h

theorem Built.asTuple {allowed : Features} {T : Type} {codec : FieldCodec T}
    (h : Built allowed (.field codec)) : Built allowed (.message codec.asTuple) :=
  .fields (Fields.singleBy_sound (by decide))
    (.listed _ (List.pairwise_singleton _ _)
      (.inr ⟨rfl, fun _ _ hmem => (List.mem_singleton.mp hmem) ▸ by decide⟩))
    (.inr (inferInstanceAs (Subsingleton Unit))) fun _ => .tagged 0 h

/-- An empty value of a scalar is the one that is decoded into. -/
theorem Scalar.empties_single {T : Type} [DecidableEq T] (s : Scalar T) :
    s.codec.Empties (EmptyState.single s.forOverwrite) where
  isEmpty _ := decide_eq_true_iff
  clear _ := rfl

/-- A field of type `u32`. -/
def u32Field : FieldCodec (BitVec 32) :=
  VarintScalar.u32.scalar.codec.plain (EmptyState.single 0)

theorem built_u32Field (allowed : Features) : Built allowed (.field u32Field) :=
  .plain rfl (Scalar.empties_single _) (.scalar (.varint (VarintScalar.lawful_unsigned (by decide))))

end Bilrost
