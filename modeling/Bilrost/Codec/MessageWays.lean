import Bilrost.Codec.Ways

/-!
The two ways to decode messages and their fields, as one.
-/

namespace Bilrost

open Program

section
variable {σ τ : Type} {f : σ → τ} {decode : Nat → WireType → Bool → σ → Program σ}
  {decode' : Nat → WireType → Bool → τ → Program τ}

/-- The loop over fields with a state that is seen as one of another type. -/
theorem fieldsFrom_map
    (h : ∀ tag wireType dup s,
      decode' tag wireType dup (f s) = (decode tag wireType dup s).bind fun s => .done (f s))
    (last : Nat) (lastTag : Option Nat) (s : σ) :
    fieldsFrom decode' last lastTag (f s) =
      (fieldsFrom decode last lastTag s).bind fun s => .done (f s) := by
  have hround (state : TagReader × Option Nat × σ) :
      readField decode' (state.1, state.2.1, f state.2.2) =
        (readField decode state).bind fun state => .done (state.1, state.2.1, f state.2.2) := by
    obtain ⟨tr, lastTag, s⟩ := state
    simp only [readField, Program.bind_eq, bind_assoc, h, done_bind]
  have hloop := whileRemaining_map (f := fun state : TagReader × Option Nat × σ =>
    (state.1, state.2.1, f state.2.2)) hround (⟨last⟩, lastTag, s)
  rw [fieldsFrom, fieldsFrom, hloop]
  simp only [bind_assoc, done_bind]

end

/-- A field that the message does not know. -/
def Way.skipUnknown {M : Type} (way : Way) (wireType : WireType) (m : M) :
    Program (M × Canonicity) :=
  match way with
  | relaxed => (skipField wireType).bind fun _ => .done (m, .canonical)
  | distinguished =>
      .check .hasExtensions ((skipField wireType).bind fun _ => .done (m, .hasExtensions))

namespace MessageField

variable {T : Type} (field : MessageField T)

def decodeBy (way : Way) (mode : DecodingMode) (depth tag : Nat) (wireType : WireType)
    (duplicated : Bool) (value : T) : Program (T × Canonicity) :=
  match way with
  | .relaxed => asCanonical (field.decode mode depth tag wireType duplicated value)
  | .distinguished => field.decodeDistinguished mode depth tag wireType duplicated value

end MessageField

theorem FieldCodec.tagged_decodeBy {T : Type} (codec : FieldCodec T) (tag : Nat) (way : Way)
    (mode : DecodingMode) (depth tag' : Nat) (wireType : WireType) (duplicated : Bool) (value : T) :
    (codec.tagged tag).decodeBy way mode depth tag' wireType duplicated value =
      if duplicated then error .unexpectedlyRepeated
      else codec.decodeBy way mode depth wireType value := by
  cases way with
  | relaxed =>
    simp only [MessageField.decodeBy, FieldCodec.tagged, FieldCodec.decodeBy]
    split_ifs <;> rfl
  | distinguished => rfl

theorem Oneof.field_decodeBy {T : Type} (oneof : Oneof T) (way : Way) (mode : DecodingMode)
    (depth tag : Nat) (wireType : WireType) (duplicated : Bool) (value : T) :
    oneof.field.decodeBy way mode depth tag wireType duplicated value =
      match oneof.currentTag value, oneof.variant tag with
      | some current, _ =>
          error (if current = tag then .unexpectedlyRepeated else .conflictingFields)
      | none, some i =>
          ((oneof.codec i).decodeFieldBy way mode true depth wireType
            (oneof.codec i).forOverwrite).bind fun decoded =>
              .done (oneof.construct i decoded.1, decoded.2)
      | none, none => error .other := by
  cases way with
  | relaxed =>
    simp only [MessageField.decodeBy, Oneof.field, Oneof.decodeField]
    cases oneof.currentTag value with
    | some current => rfl
    | none =>
      cases oneof.variant tag with
      | some i =>
        simp only [asCanonical, Program.bind_eq, Program.bind_assoc, done_bind,
          ValueCodec.decodeFieldBy, ValueCodec.decodeBy, ValueCodec.decodeField]
      | none => rfl
  | distinguished => rfl

namespace MessageCodec

variable {M : Type} (codec : MessageCodec M)

def fieldBy (way : Way) (mode : DecodingMode) (depth tag : Nat) (wireType : WireType) (dup : Bool)
    (m : M) : Program (M × Canonicity) :=
  match way with
  | .relaxed => asCanonical (codec.rawDecodeField mode depth tag wireType dup m)
  | .distinguished => codec.rawDecodeFieldDistinguished mode depth tag wireType dup m

/-- The field as it updates the message and its canonicity. -/
def stepBy (way : Way) (mode : DecodingMode) (depth tag : Nat) (wireType : WireType) (dup : Bool)
    (state : M × Canonicity) : Program (M × Canonicity) :=
  (codec.fieldBy way mode depth tag wireType dup state.1).bind fun decoded =>
    .done (decoded.1, state.2.update decoded.2)

/-- `merge` and `merge_distinguished`. -/
def mergeBy (way : Way) (mode : DecodingMode) (depth : Nat) (value : M) :
    Program (M × Canonicity) :=
  fieldsFrom (codec.stepBy way mode depth) 0 none (value, .canonical)

theorem asCanonical_merge (mode : DecodingMode) (depth : Nat) (value : M) :
    asCanonical (codec.merge mode depth value) = codec.mergeBy .relaxed mode depth value := by
  rw [merge_eq, mergeBy]
  refine (fieldsFrom_map (f := fun m : M => (m, Canonicity.canonical)) ?_ 0 none value).symm
  intro tag wireType dup m
  simp only [stepBy, fieldBy, asCanonical, bind_assoc, done_bind, Canonicity.update_canonical]

theorem mergeDistinguished_eq_mergeBy (mode : DecodingMode) (depth : Nat) (value : M) :
    codec.mergeDistinguished mode depth value = codec.mergeBy .distinguished mode depth value :=
  codec.mergeDistinguished_eq mode depth value

/-- The contents of a message value, once it is entered. -/
def contentsBy (note : Note) (way : Way) (mode : DecodingMode) (depth : Nat) (value : M) :
    Program (M × Canonicity) :=
  .op (.note note) fun _ => codec.mergeBy way mode depth value

/-- What the distinguished way returns where it stops early. -/
def refused (value : M) : Program (M × Canonicity) :=
  .check .notCanonical (.done (value, .notCanonical))

theorem nested_decodeBy (way : Way) (mode : DecodingMode) (allowEmpty : Bool) (depth : Nat)
    (value : M) :
    Same (codec.nested.decodeBy way mode allowEmpty depth value)
      ((limitReached depth).bind fun _ => delimited fun len =>
        if way.shortcut allowEmpty len then .op (.note (.enters depth)) fun _ => refused value
        else codec.contentsBy (.enters depth) way mode (depth - 1) value) := by
  cases way with
  | distinguished =>
    have hinner (len : Nat) :
        (if Way.distinguished.shortcut allowEmpty len then
          .op (.note (.enters depth)) fun _ => refused value
        else codec.contentsBy (.enters depth) .distinguished mode (depth - 1) value) =
        ((noted (.enters depth)).bind fun _ =>
          if !allowEmpty && len == 0 then
            (checked .notCanonical).bind fun canon => .done (value, canon)
          else codec.mergeDistinguished mode (depth - 1) value) := by
      simp only [Way.shortcut, decide_true, Bool.true_and, mergeDistinguished_eq_mergeBy]
      split_ifs <;> rfl
    simp only [hinner]
    exact Same.refl _
  | relaxed =>
    rw [ValueCodec.decodeBy, nested]
    simp only [Program.bind_eq, asCanonical_bind]
    refine Same.bind_right _ fun _ => ?_
    have hinner : (fun len : Nat =>
        if Way.relaxed.shortcut allowEmpty len then
          .op (.note (.enters depth)) fun _ => refused value
        else codec.contentsBy (.enters depth) .relaxed mode (depth - 1) value) =
        fun _ => asCanonical ((noted (.enters depth)).bind fun _ =>
          codec.merge mode (depth - 1) value) := by
      funext len
      simp only [Way.shortcut_relaxed, Bool.false_eq_true, ↓reduceIte, asCanonical_bind,
        asCanonical_merge]
      rfl
    rw [hinner]
    exact same_asCanonical_delimited _

theorem tupled_decodeBy (way : Way) (mode : DecodingMode) (allowEmpty : Bool) (depth : Nat)
    (value : M) :
    Same (codec.tupled.decodeBy way mode allowEmpty depth value)
      (delimited fun len =>
        if way.shortcut allowEmpty len then
          .op (.note (.skipsEmpty depth)) fun _ => refused value
        else (limitReached depth).bind fun _ =>
          codec.contentsBy (.enters depth) way mode (depth - 1) value) := by
  cases way with
  | distinguished =>
    have hinner (len : Nat) :
        (if Way.distinguished.shortcut allowEmpty len then
          .op (.note (.skipsEmpty depth)) fun _ => refused value
        else (limitReached depth).bind fun _ =>
          codec.contentsBy (.enters depth) .distinguished mode (depth - 1) value) =
        if !allowEmpty && len == 0 then
          (noted (.skipsEmpty depth)).bind fun _ =>
            (checked .notCanonical).bind fun canon => .done (value, canon)
        else (limitReached depth).bind fun _ => (noted (.enters depth)).bind fun _ =>
          codec.mergeDistinguished mode (depth - 1) value := by
      simp only [Way.shortcut, decide_true, Bool.true_and, mergeDistinguished_eq_mergeBy]
      split_ifs <;> rfl
    simp only [hinner]
    exact Same.refl _
  | relaxed =>
    have hinner : (fun len : Nat =>
        if Way.relaxed.shortcut allowEmpty len then
          .op (.note (.skipsEmpty depth)) fun _ => refused value
        else (limitReached depth).bind fun _ =>
          codec.contentsBy (.enters depth) .relaxed mode (depth - 1) value) =
        fun _ => asCanonical ((limitReached depth).bind fun _ =>
          (noted (.enters depth)).bind fun _ => codec.merge mode (depth - 1) value) := by
      funext len
      simp only [Way.shortcut_relaxed, Bool.false_eq_true, ↓reduceIte, asCanonical_bind,
        asCanonical_merge]
      rfl
    rw [hinner]
    exact same_asCanonical_delimited _

theorem inlined_decodeBy (way : Way) (mode : DecodingMode) (allowEmpty : Bool) (depth : Nat)
    (value : M) :
    Same (codec.inlined.decodeBy way mode allowEmpty depth value)
      (delimited fun _ => codec.contentsBy .entersVariant way mode depth value) := by
  cases way with
  | distinguished =>
    simp only [contentsBy, ← mergeDistinguished_eq_mergeBy]
    exact Same.refl _
  | relaxed =>
    simp only [contentsBy, ← asCanonical_merge]
    exact same_asCanonical_delimited _

end MessageCodec

theorem Fields.message_fieldBy {M : Type} (F : Fields M) (w : F.Writing) (way : Way)
    (mode : DecodingMode) (depth tag : Nat) (wireType : WireType) (duplicated : Bool) (m : M) :
    (F.message w).fieldBy way mode depth tag wireType duplicated m =
      match F.fieldOf tag with
      | some i =>
          ((F.field i).decodeBy way mode depth tag wireType duplicated (F.get m i)).bind
            fun decoded => .done (F.set m i decoded.1, decoded.2)
      | none => way.skipUnknown wireType m := by
  cases way with
  | relaxed =>
    simp only [MessageCodec.fieldBy, Fields.message]
    cases F.fieldOf tag with
    | some i =>
      simp only [MessageField.decodeBy, asCanonical, Program.bind_eq, bind_assoc, done_bind]
    | none => simp only [Way.skipUnknown, asCanonical, Program.bind_eq, bind_assoc, done_bind]
  | distinguished => rfl

end Bilrost
