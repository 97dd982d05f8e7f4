import Bilrost.Schema.Regular
import Bilrost.Schema.Single

/-!
Message types that contain themselves. `Chain` does so in a nested message, and
what it does is decided by the depth that is left. `Deep` does so in a message
variant of a oneof, and what it does with some bytes is decided by how many
there are.
-/

namespace Bilrost

namespace Program

/-- Two programs that do the same with at most `len` bytes. -/
def AgreeTo {α : Type} (len : Nat) (p q : Program α) : Prop :=
  ∀ bytes : Bytes, bytes.length ≤ len → p.parse bytes = q.parse bytes

section
variable {α δ γ σ : Type} {len : Nat} {p q : Program α}

theorem AgreeTo.refl (len : Nat) (p : Program α) : AgreeTo len p p := fun _ _ => rfl

theorem AgreeTo.of_same {p' q' : Program α} (h : AgreeTo len p' q') (hp : Same p p')
    (hq : Same q q') : AgreeTo len p q := fun bytes hbytes => by
  rw [hp.parse, hq.parse]
  exact h bytes hbytes

theorem AgreeTo.bind (hp : AgreeTo len p q) (hseals : p.SealsRegions) {f g : α → Program δ}
    (hfg : ∀ x, AgreeTo len (f x) (g x)) : AgreeTo len (p.bind f) (q.bind g) := by
  intro bytes hbytes
  rw [parse_bind, parse_bind, ← hp bytes hbytes]
  cases hparse : p.parse bytes with
  | error fault => rfl
  | ok parsed =>
    have hrest := (parse_length_le hseals hparse).trans hbytes
    simp only [hfg parsed.value parsed.rest hrest]

theorem AgreeTo.check {canon : Canonicity} (h : AgreeTo len p q) :
    AgreeTo len (.check canon p) (.check canon q) :=
  AgreeTo.bind (AgreeTo.refl len (.check canon (.done ()))) trivial (f := fun _ => p)
    (g := fun _ => q) fun _ => h

theorem AgreeTo.op (o : Op γ) {f g : γ → Program α} (h : ∀ x, AgreeTo len (f x) (g x)) :
    AgreeTo len (.op o f) (.op o g) :=
  (AgreeTo.refl len (read o)).bind (regular_read o).seals h

/-- A region holds fewer bytes than there are with its length. -/
theorem AgreeTo.delimited {f g : Nat → Program γ} (h : ∀ m < len, AgreeTo m (f m) (g m)) :
    AgreeTo len (Program.delimited f) (Program.delimited g) := by
  intro bytes hbytes
  simp only [Program.delimited, parse]
  cases hregion : parseDelimited bytes with
  | none => rfl
  | some taken =>
    obtain ⟨-, hsplit⟩ := parseDelimited_eq_some hregion
    have hlength := congrArg List.length hsplit
    have hpos := List.length_pos_iff.mpr (varint_ne_nil taken.1.length)
    simp only [List.length_append] at hlength
    simp only [h taken.1.length (by omega) taken.1 le_rfl]

theorem AgreeTo.whileRemaining {f g : σ → Program σ} (h : ∀ s, AgreeTo len (f s) (g s))
    (hseals : ∀ s, (f s).SealsRegions) (s : σ) :
    AgreeTo len (whileRemaining f s) (whileRemaining g s) := by
  have inRounds (rounds : Nat) (s : σ) :
      AgreeTo len (whileRemainingIn f rounds s) (whileRemainingIn g rounds s) := by
    induction rounds generalizing s with
    | zero => exact AgreeTo.refl len _
    | succ rounds ih =>
      refine AgreeTo.op _ fun more => ?_
      split_ifs
      · exact (h s).bind (hseals s) ih
      · exact AgreeTo.refl len _
  exact AgreeTo.op _ fun _ => inRounds _ s

theorem AgreeTo.fieldsFrom {f g : Nat → WireType → Bool → σ → Program σ}
    (h : ∀ tag wireType dup s, AgreeTo len (f tag wireType dup s) (g tag wireType dup s))
    (hregular : ∀ tag wireType dup s, (f tag wireType dup s).Regular) (last : Nat)
    (lastTag : Option Nat) (s : σ) :
    AgreeTo len (fieldsFrom f last lastTag s) (fieldsFrom g last lastTag s) := by
  have hround (state : TagReader × Option Nat × σ) :
      AgreeTo len (readField f state) (readField g state) :=
    (AgreeTo.refl len _).bind (TagReader.regular_decodeKey _).seals fun _ =>
      (h _ _ _ _).bind (hregular _ _ _ _).seals fun _ => AgreeTo.refl len _
  have hseals (state : TagReader × Option Nat × σ) : (readField f state).SealsRegions :=
    (regular_readField hregular state).seals
  exact (AgreeTo.whileRemaining hround hseals _).bind
    (Regular.whileRemaining (regular_readField hregular) (advances_readField f) _).seals
    fun _ => AgreeTo.refl len _

end

end Program

open Program

/-- Decoders of fields that agree make up merges that do. -/
theorem MessageCodec.agreeTo_mergeBy {M : Type} {codec codec' : MessageCodec M} {len : Nat}
    (hregular : codec.Regular) {way : Way} {mode : DecodingMode} {depth : Nat}
    (h : ∀ tag wireType dup m, AgreeTo len (codec.fieldBy way mode depth tag wireType dup m)
      (codec'.fieldBy way mode depth tag wireType dup m)) (m : M) :
    AgreeTo len (codec.mergeBy way mode depth m) (codec'.mergeBy way mode depth m) := by
  have hfield := MessageCodec.regular_iff.mp hregular
  have hstep (tag : Nat) (wireType : WireType) (dup : Bool) (state : M × Canonicity) :
      AgreeTo len (codec.stepBy way mode depth tag wireType dup state)
        (codec'.stepBy way mode depth tag wireType dup state) :=
    (h tag wireType dup state.1).bind (hfield _ _ _ _ _ _ _).seals fun _ => AgreeTo.refl len _
  exact AgreeTo.fieldsFrom hstep (fun tag wireType dup state => (hfield _ _ _ _ _ _ _).map _) 0
    none _

/-- A message without fields, all of which the encoding ignores. -/
def ignoring (M : Type) (default : M) : MessageCodec M :=
  let F : Fields M :=
    { count := 0
      Ty := fun _ => Unit
      field := fun i => i.elim0
      Ignored := M
      ignoredDefault := default
      view :=
        { toFun := fun m => (fun i => i.elim0, m)
          invFun := Prod.snd
          left_inv := fun _ => rfl
          right_inv := fun _ => Prod.ext (funext fun i => i.elim0) rfl } }
  F.message F.derived

theorem built_ignoring {allowed : Features} (h : allowed.ignored) {M : Type} (default : M) :
    Built allowed (.message (ignoring M default)) :=
  .fields ⟨fun i => i.elim0, fun i => i.elim0, List.Pairwise.nil, fun i => i.elim0⟩ .derived (.inl h)
    fun i => i.elim0

/-- Messages whose only field is written are written alike if their fields are. -/
theorem written_singleBy {M T : Type} {view : M ≃ T} {field field' : MessageField T} {m : M}
    {w : (Fields.singleBy view field).Writing} {w' : (Fields.singleBy view field').Writing}
    (hforward : w.forward m = [(0 : Fin 1)] ∧ w'.forward m = [(0 : Fin 1)])
    (hbackward : w.backward m = [(0 : Fin 1)] ∧ w'.backward m = [(0 : Fin 1)])
    (hmeasurer : w.measurer = w'.measurer)
    (hencode : ∀ tw, field.encode (view m) tw = field'.encode (view m) tw)
    (hprepend : ∀ buf tw, field.prependEncode (view m) buf tw = field'.prependEncode (view m) buf tw)
    (hlen : ∀ tm, field.encodedLen (view m) tm = field'.encodedLen (view m) tm) :
    let codec := (Fields.singleBy view field).message w
    let codec' := (Fields.singleBy view field').message w'
    codec.rawEncode m = codec'.rawEncode m ∧ codec.rawPrepend m = codec'.rawPrepend m ∧
      codec.rawEncodedLen m = codec'.rawEncodedLen m := by
  refine ⟨?_, funext fun buf => ?_, ?_⟩
  · simp only [Fields.message, hforward.1, hforward.2]
    exact congrArg (fun field => (field.bind fun field =>
      (some ([], field.2)).bind fun rest => some (field.1 ++ rest.1, rest.2)).bind
        fun written => some written.1) (hencode TagWriter.new)
  · simp only [Fields.message, hbackward.1, hbackward.2]
    exact congrArg (fun field => (field.bind fun field => some (field.1, field.2)).bind
      fun written => some (written.2.finalize written.1)) (hprepend buf TagRevWriter.new)
  · simp only [Fields.message, hforward.1, hforward.2, hmeasurer]
    exact congrArg (fun field => (field.bind fun field =>
      (some (0, field.2)).bind fun rest => some (field.1 + rest.1, rest.2)).bind
        fun measured => some measured.1) (hlen w'.measurer)

/-- The field of a message in another one is written as that message is. -/
theorem written_nested {M : Type} {codec codec' : MessageCodec M} {m : M}
    (hencode : codec.rawEncode m = codec'.rawEncode m)
    (hprepend : codec.rawPrepend m = codec'.rawPrepend m)
    (hlen : codec.rawEncodedLen m = codec'.rawEncodedLen m) (tag : Nat) :
    (∀ tw, codec.nested.encodeField tag m tw = codec'.nested.encodeField tag m tw) ∧
      (∀ buf tw, codec.nested.prependField tag m buf tw =
        codec'.nested.prependField tag m buf tw) ∧
      ∀ tm, codec.nested.fieldEncodedLen tag m tm = codec'.nested.fieldEncodedLen tag m tm := by
  refine ⟨fun tw => ?_, fun buf tw => ?_, fun tm => ?_⟩
  · simp only [ValueCodec.encodeField, MessageCodec.nested, hencode, hlen]
  · simp only [ValueCodec.prependField, MessageCodec.nested, hprepend]
  · simp only [ValueCodec.fieldEncodedLen, MessageCodec.nested, hlen]

/-- The values of a message whose only field is the message again, boxed, or
nothing: how long the chain is. -/
abbrev Chain : Type := Nat

namespace Chain

/-- A chain is empty or another one with a link before it. -/
def next : Chain ≃ Option Chain where
  toFun
    | 0 => none
    | n + 1 => some n
  invFun
    | none => 0
    | some n => n + 1
  left_inv
    | 0 => rfl
    | _ + 1 => rfl
  right_inv
    | none => rfl
    | some _ => rfl

def fields (inner : MessageCodec Chain) : Fields Chain :=
  Fields.singleBy next (inner.nested.optional.tagged 1)

def linked (inner : MessageCodec Chain) : MessageCodec Chain :=
  (fields inner).message (fields inner).derived

/-- The message to so many levels of nesting. -/
def approx : Nat → MessageCodec Chain
  | 0 => linked (ignoring Chain 0)
  | n + 1 => linked (approx n)

def codec : MessageCodec Chain where
  empty := (0 : Nat)
  isEmpty m := (approx 0).isEmpty m
  clear m := (approx 0).clear m
  rawEncode m := (approx m).rawEncode m
  rawPrepend m := (approx m).rawPrepend m
  rawEncodedLen m := (approx m).rawEncodedLen m
  rawDecodeField mode depth := (approx depth).rawDecodeField mode depth
  rawDecodeFieldDistinguished mode depth := (approx depth).rawDecodeFieldDistinguished mode depth
  same := (approx 0).same
  nestsWithin depth m := m ≤ depth

theorem built_linked {allowed : Features} {inner : MessageCodec Chain}
    (h : Built allowed (.message inner)) : Built allowed (.message (linked inner)) :=
  .fields (Fields.singleBy_sound (by decide)) .derived (.inr (inferInstanceAs (Subsingleton Unit)))
    fun _ => .tagged 1 (.optional (.nested h))

theorem built_approx {allowed : Features} (h : allowed.ignored) (n : Nat) :
    Built allowed (.message (approx n)) := by
  induction n with
  | zero => exact built_linked (built_ignoring h _)
  | succ n ih => exact built_linked ih

theorem empty_approx (n : Nat) : (approx n).empty = (0 : Nat) := by
  cases n <;> rfl

theorem fieldOf_fields (inner : MessageCodec Chain) (tag : Nat) :
    (fields inner).fieldOf tag = if tag = 1 then some (0 : Fin 1) else none := by
  split_ifs with htag
  · subst htag
    rfl
  · have hmem : ¬ tag ∈ [1] := by simpa using htag
    have hfind : [(0 : Fin 1)].find? (fun _ => decide (tag ∈ [1])) = none := by simp [hmem]
    exact hfind

section
variable {inner inner' : MessageCodec Chain} (hempty : inner.empty = inner'.empty)
  {mode : DecodingMode} {depth : Nat}
include hempty

/-- With no depth left, nothing is asked of the message that is contained. -/
theorem decodeField_linked
    (h : 0 < depth → inner.rawDecodeField mode (depth - 1) = inner'.rawDecodeField mode (depth - 1)) :
    (linked inner).rawDecodeField mode depth = (linked inner').rawDecodeField mode depth := by
  have hnested : inner.nested.decodeValue mode depth = inner'.nested.decodeValue mode depth := by
    rcases Nat.eq_zero_or_pos depth with rfl | hdepth
    · rfl
    · funext value
      simp only [MessageCodec.nested, MessageCodec.merge_eq, h hdepth]
  have hover : inner.nested.forOverwrite = inner'.nested.forOverwrite := hempty
  have hfield (tag : Nat) (wireType : WireType) (dup : Bool) (value : Option Chain) :
      (inner.nested.optional.tagged 1).decode mode depth tag wireType dup value =
        (inner'.nested.optional.tagged 1).decode mode depth tag wireType dup value := by
    simp only [FieldCodec.tagged, ValueCodec.optional, ValueCodec.decodeField, hnested, hover]
    rfl
  funext tag wireType dup m
  simp only [linked, Fields.message, fieldOf_fields]
  by_cases htag : tag = 1
  · simp only [htag, if_true]
    exact congrArg (fun p => p.bind fun value => Program.done (next.symm value))
      (hfield 1 wireType dup (next m))
  · simp only [htag, if_false]

theorem decodeFieldDistinguished_linked
    (h : 0 < depth → inner.rawDecodeFieldDistinguished mode (depth - 1) =
      inner'.rawDecodeFieldDistinguished mode (depth - 1)) :
    (linked inner).rawDecodeFieldDistinguished mode depth =
      (linked inner').rawDecodeFieldDistinguished mode depth := by
  have hnested (allowEmpty : Bool) :
      inner.nested.decodeValueDistinguished mode allowEmpty depth =
        inner'.nested.decodeValueDistinguished mode allowEmpty depth := by
    rcases Nat.eq_zero_or_pos depth with rfl | hdepth
    · rfl
    · have hmerge (value : Chain) : inner.mergeDistinguished mode (depth - 1) value =
          inner'.mergeDistinguished mode (depth - 1) value := by
        rw [MessageCodec.mergeDistinguished_eq, MessageCodec.mergeDistinguished_eq]
        congr 1
        funext tag wireType dup state
        simp only [MessageCodec.fieldDistinguished, h hdepth]
      funext value
      simp only [MessageCodec.nested, hmerge]
  have hover : inner.nested.forOverwrite = inner'.nested.forOverwrite := hempty
  have hfield (tag : Nat) (wireType : WireType) (dup : Bool) (value : Option Chain) :
      (inner.nested.optional.tagged 1).decodeDistinguished mode depth tag wireType dup value =
        (inner'.nested.optional.tagged 1).decodeDistinguished mode depth tag wireType dup value := by
    simp only [FieldCodec.tagged, ValueCodec.optional, ValueCodec.decodeFieldDistinguished, hnested,
      hover]
    rfl
  funext tag wireType dup m
  simp only [linked, Fields.message, fieldOf_fields]
  by_cases htag : tag = 1
  · simp only [htag, if_true]
    exact congrArg (fun p => p.bind fun decoded => Program.done (next.symm decoded.1, decoded.2))
      (hfield 1 wireType dup (next m))
  · simp only [htag, if_false]

omit hempty in
/-- How a message is written depends on what it contains. -/
theorem written_linked {n : Nat} (hencode : inner.rawEncode n = inner'.rawEncode n)
    (hprepend : inner.rawPrepend n = inner'.rawPrepend n)
    (hlen : inner.rawEncodedLen n = inner'.rawEncodedLen n) :
    (linked inner).rawEncode (n + 1) = (linked inner').rawEncode (n + 1) ∧
      (linked inner).rawPrepend (n + 1) = (linked inner').rawPrepend (n + 1) ∧
      (linked inner).rawEncodedLen (n + 1) = (linked inner').rawEncodedLen (n + 1) := by
  obtain ⟨hfield, hfieldBack, hfieldLen⟩ := written_nested hencode hprepend hlen 1
  exact written_singleBy ⟨rfl, rfl⟩ ⟨rfl, rfl⟩ rfl hfield hfieldBack hfieldLen

end

section
variable {d n : Nat} (h : d ≤ n) (mode : DecodingMode)
include h

theorem decodeField_approx :
    (approx d).rawDecodeField mode d = (approx n).rawDecodeField mode d := by
  induction d generalizing n with
  | zero =>
    cases n with
    | zero => rfl
    | succ n => exact decodeField_linked (empty_approx n).symm fun hd => absurd hd (lt_irrefl 0)
  | succ d ih =>
    obtain ⟨n, rfl⟩ : ∃ n', n = n' + 1 := Nat.exists_eq_succ_of_ne_zero (by omega)
    exact decodeField_linked ((empty_approx d).trans (empty_approx n).symm) fun _ =>
      ih (Nat.le_of_succ_le_succ h)

theorem decodeFieldDistinguished_approx :
    (approx d).rawDecodeFieldDistinguished mode d =
      (approx n).rawDecodeFieldDistinguished mode d := by
  induction d generalizing n with
  | zero =>
    cases n with
    | zero => rfl
    | succ n =>
      exact decodeFieldDistinguished_linked (empty_approx n).symm fun hd => absurd hd (lt_irrefl 0)
  | succ d ih =>
    obtain ⟨n, rfl⟩ : ∃ n', n = n' + 1 := Nat.exists_eq_succ_of_ne_zero (by omega)
    exact decodeFieldDistinguished_linked ((empty_approx d).trans (empty_approx n).symm) fun _ =>
      ih (Nat.le_of_succ_le_succ h)

theorem written_approx :
    (approx d).rawEncode d = (approx n).rawEncode d ∧
      (approx d).rawPrepend d = (approx n).rawPrepend d ∧
      (approx d).rawEncodedLen d = (approx n).rawEncodedLen d := by
  induction d generalizing n with
  | zero => cases n <;> exact ⟨rfl, rfl, rfl⟩
  | succ d ih =>
    obtain ⟨n, rfl⟩ : ∃ n', n = n' + 1 := Nat.exists_eq_succ_of_ne_zero (by omega)
    obtain ⟨hencode, hprepend, hlen⟩ := ih (Nat.le_of_succ_le_succ h)
    exact written_linked hencode hprepend hlen

end

theorem nestsWithin_approx (depth : Nat) (m : Chain) :
    (approx depth).nestsWithin depth m ↔ m ≤ depth := by
  induction depth generalizing m with
  | zero =>
    cases m with
    | zero => exact iff_of_true (fun _ _ h => by cases h) le_rfl
    | succ m =>
      refine iff_of_false (fun h => ?_) (Nat.not_succ_le_zero m)
      obtain ⟨inner, hdepth, -⟩ := h (0 : Fin 1) m rfl
      exact Nat.succ_ne_zero inner hdepth.symm
  | succ depth ih =>
    cases m with
    | zero => exact iff_of_true (fun _ _ h => by cases h) (Nat.zero_le _)
    | succ m =>
      rw [Nat.succ_le_succ_iff, ← ih m]
      constructor
      · intro h
        obtain ⟨inner, hdepth, hnests⟩ := h (0 : Fin 1) m rfl
        obtain rfl := Nat.succ.inj hdepth
        exact hnests
      · rintro h _ v hv
        obtain rfl : m = v := Option.some.inj hv
        exact ⟨depth, rfl, h⟩

theorem sameTo (depth : Nat) : codec.SameTo depth (approx depth) where
  empty := (empty_approx depth).symm
  isEmpty := by cases depth <;> rfl
  clear := by cases depth <;> rfl
  same := by cases depth <;> rfl
  nestsWithin := funext fun m => propext (nestsWithin_approx depth m).symm
  rawEncode h := (written_approx h).1
  rawPrepend h := (written_approx h).2.1
  rawEncodedLen h := (written_approx h).2.2
  rawDecodeField mode _ h := decodeField_approx h mode
  rawDecodeFieldDistinguished mode _ h := decodeFieldDistinguished_approx h mode

theorem built {allowed : Features} (h : allowed.ignored) : Built allowed (.message codec) :=
  .recursive approx sameTo (fun m => ⟨m, le_rfl⟩) (built_approx h)

end Chain

/-- The values of a oneof that is empty or has a message variant with the oneof
in it again, boxed: how often it does. The bounds that are derived for such a
oneof do not end, so its impls have to be written out. -/
abbrev Deep : Type := Nat

namespace Deep

/-- The oneof with one message variant, with the tag one. -/
def variant (inner : MessageCodec Deep) : Oneof Deep where
  count := 1
  Ty _ := Deep
  tag _ := 1
  codec _ := inner.inlined
  view :=
    { toFun := fun
        | 0 => none
        | n + 1 => some ⟨⟨0, Nat.one_pos⟩, n⟩
      invFun := fun
        | none => 0
        | some v => v.2 + 1
      left_inv := fun
        | 0 => rfl
        | _ + 1 => rfl
      right_inv := fun
        | none => rfl
        | some ⟨0, _⟩ => rfl }

/-- A message with the oneof as its only field, which is also what the contents
of the variant are. -/
def holding (inner : MessageCodec Deep) : MessageCodec Deep :=
  (Fields.single (variant inner).field).message (Fields.single (variant inner).field).derived

/-- The message, unrolled so many times. -/
def approx : Nat → MessageCodec Deep
  | 0 => holding (ignoring Deep 0)
  | n + 1 => holding (approx n)

/-- The message with the oneof that contains itself. -/
def codec : MessageCodec Deep where
  empty := (0 : Nat)
  isEmpty m := (approx 0).isEmpty m
  clear m := (approx 0).clear m
  rawEncode m := (approx m).rawEncode m
  rawPrepend m := (approx m).rawPrepend m
  rawEncodedLen m := (approx m).rawEncodedLen m
  rawDecodeField mode depth tag wireType dup m :=
    .op .remainingBeforeCap fun len => (approx len).rawDecodeField mode depth tag wireType dup m
  rawDecodeFieldDistinguished mode depth tag wireType dup m :=
    .op .remainingBeforeCap fun len =>
      (approx len).rawDecodeFieldDistinguished mode depth tag wireType dup m
  same := (approx 0).same

theorem built_holding {allowed : Features} {inner : MessageCodec Deep}
    (h : Built allowed (.message inner)) : Built allowed (.message (holding inner)) := by
  refine .fields ⟨fun _ => List.cons_ne_nil _ _, fun _ => List.nodup_singleton 1,
    List.pairwise_singleton _ _, fun _ _ hmem => ?_⟩ .derived
    (.inr (inferInstanceAs (Subsingleton Unit))) fun _ => .oneof fun _ => .inlined h
  rw [List.mem_singleton.mp hmem]
  exact (by decide : 1 < 2 ^ 32)

theorem built_approx {allowed : Features} (h : allowed.ignored) (n : Nat) :
    Built allowed (.message (approx n)) := by
  induction n with
  | zero => exact built_holding (built_ignoring h _)
  | succ n ih => exact built_holding ih

/-- With no bytes for a length, nothing is asked of what the variant contains. -/
theorem agreeTo_holding {inner inner' : MessageCodec Deep} (hregular : inner.Regular)
    (hempty : inner'.empty = inner.empty) {len : Nat}
    {way : Way} {mode : DecodingMode} {depth : Nat}
    (h : ∀ m < len, ∀ tag wireType dup value,
      AgreeTo m (inner.fieldBy way mode depth tag wireType dup value)
        (inner'.fieldBy way mode depth tag wireType dup value))
    (tag : Nat) (wireType : WireType) (dup : Bool) (value : Deep) :
    AgreeTo len ((holding inner).fieldBy way mode depth tag wireType dup value)
      ((holding inner').fieldBy way mode depth tag wireType dup value) := by
  have hinlined (value : Deep) :
      AgreeTo len (inner.inlined.decodeBy way mode true depth value)
        (inner'.inlined.decodeBy way mode true depth value) := by
    refine AgreeTo.of_same ?_ (inner.inlined_decodeBy ..) (inner'.inlined_decodeBy ..)
    exact AgreeTo.delimited fun m hm => AgreeTo.op _ fun _ =>
      MessageCodec.agreeTo_mergeBy hregular (h m hm) value
  have hfield (wireType : WireType) (dup : Bool) (value : Deep) :
      AgreeTo len ((variant inner).field.decodeBy way mode depth tag wireType dup value)
        ((variant inner').field.decodeBy way mode depth tag wireType dup value) := by
    rw [Oneof.field_decodeBy, Oneof.field_decodeBy]
    have hcurrent : (variant inner).currentTag value = (variant inner').currentTag value := rfl
    have hvariant : (variant inner).variant tag = (variant inner').variant tag := rfl
    rw [hcurrent, hvariant]
    cases (variant inner').currentTag value with
    | some current => exact AgreeTo.refl _ _
    | none =>
      cases (variant inner').variant tag with
      | none => exact AgreeTo.refl _ _
      | some i =>
        have hread : AgreeTo len
            (inner.inlined.decodeFieldBy way mode true depth wireType inner.empty)
            (inner'.inlined.decodeFieldBy way mode true depth wireType inner'.empty) := by
          rw [hempty]
          exact (AgreeTo.refl len _).bind (regular_checkWireType _ _).seals fun _ => hinlined _
        have hseals := (hregular.inlined.decodeFieldBy way mode true depth wireType
          inner.empty).seals
        exact hread.bind hseals fun decoded => AgreeTo.refl len _
  have hregularField (wireType : WireType) (dup : Bool) (value : Deep) :
      ((variant inner).field.decodeBy way mode depth tag wireType dup value).Regular :=
    Oneof.regular (fun _ => hregular.inlined) way mode depth tag wireType dup value
  rw [holding, Fields.message_fieldBy, holding, Fields.message_fieldBy]
  have hfieldOf : (Fields.single (variant inner).field).fieldOf tag =
      (Fields.single (variant inner').field).fieldOf tag := rfl
  rw [hfieldOf]
  cases (Fields.single (variant inner').field).fieldOf tag with
  | none => exact AgreeTo.refl _ _
  | some i => exact (hfield wireType dup _).bind (hregularField _ _ _).seals fun _ => AgreeTo.refl _ _

theorem regular_approx (n : Nat) : (approx n).Regular :=
  have hbuilt : Built .all (.message (approx n)) := built_approx trivial n
  hbuilt.regular

theorem empty_approx (n : Nat) : (approx n).empty = (0 : Nat) := by
  cases n <;> rfl

/-- From the number of bytes on, all approximations do the same. -/
theorem agreeTo_approx {n k : Nat} (h : n ≤ k) (way : Way) (mode : DecodingMode)
    (depth tag : Nat) (wireType : WireType) (dup : Bool) (value : Deep) :
    AgreeTo n ((approx k).fieldBy way mode depth tag wireType dup value)
      ((approx n).fieldBy way mode depth tag wireType dup value) := by
  induction n generalizing k depth tag wireType dup value with
  | zero =>
    cases k with
    | zero => exact AgreeTo.refl _ _
    | succ k =>
      exact agreeTo_holding (regular_approx k) (empty_approx k).symm (fun m hm => absurd hm (Nat.not_lt_zero m)) _ _ _ _
  | succ n ih =>
    obtain ⟨k, rfl⟩ : ∃ k', k = k' + 1 := Nat.exists_eq_succ_of_ne_zero (by omega)
    have hempty : (approx n).empty = (approx k).empty :=
      (empty_approx n).trans (empty_approx k).symm
    refine agreeTo_holding (regular_approx k) hempty
      (fun m hm tag wireType dup value bytes hbytes => ?_) _ _ _ _
    exact ih (Nat.le_of_succ_le_succ h) _ _ _ _ _ bytes (by omega)

/-- How a message is written depends on what its variant contains. -/
theorem written_holding {inner inner' : MessageCodec Deep} {n : Nat}
    (hencode : inner.rawEncode n = inner'.rawEncode n)
    (hprepend : inner.rawPrepend n = inner'.rawPrepend n)
    (hlen : inner.rawEncodedLen n = inner'.rawEncodedLen n) :
    (holding inner).rawEncode (n + 1) = (holding inner').rawEncode (n + 1) ∧
      (holding inner).rawPrepend (n + 1) = (holding inner').rawPrepend (n + 1) ∧
      (holding inner).rawEncodedLen (n + 1) = (holding inner').rawEncodedLen (n + 1) := by
  obtain ⟨hfield, hfieldBack, hfieldLen⟩ := written_nested hencode hprepend hlen 1
  exact written_singleBy ⟨rfl, rfl⟩ ⟨rfl, rfl⟩ rfl hfield hfieldBack hfieldLen

theorem written_approx {m n : Nat} (h : m ≤ n) :
    (approx m).rawEncode m = (approx n).rawEncode m ∧
      (approx m).rawPrepend m = (approx n).rawPrepend m ∧
      (approx m).rawEncodedLen m = (approx n).rawEncodedLen m := by
  induction m generalizing n with
  | zero => cases n <;> exact ⟨rfl, rfl, rfl⟩
  | succ m ih =>
    obtain ⟨n, rfl⟩ : ∃ n', n = n' + 1 := Nat.exists_eq_succ_of_ne_zero (by omega)
    obtain ⟨hencode, hprepend, hlen⟩ := ih (Nat.le_of_succ_le_succ h)
    exact written_holding hencode hprepend hlen

theorem unrolls : codec.Unrolls approx fun n m => m ≤ n where
  empty n := (empty_approx n).symm
  isEmpty n := by cases n <;> rfl
  clear n := by cases n <;> rfl
  same n := by cases n <;> rfl
  reached m := ⟨m, le_rfl⟩
  nestsWithin {n m} _ depth := by
    have hnests (n : Nat) (m : Deep) : (approx n).nestsWithin depth m := by
      induction n generalizing m with
      | zero => exact fun _ _ _ i => i.elim0
      | succ n ih => exact fun _ v _ => ih v.2
    exact iff_of_true trivial (hnests n m)
  rawEncode h := (written_approx h).1
  rawPrepend h := (written_approx h).2.1
  rawEncodedLen h := (written_approx h).2.2
  fieldBy way mode depth tag wireType dup m := by
    cases way <;> rfl
  coherent way mode depth tag wireType dup m n bytes hbytes :=
    agreeTo_approx hbytes way mode depth tag wireType dup m bytes le_rfl

theorem built {allowed : Features} (h : allowed.ignored) : Built allowed (.message codec) :=
  .unrolled approx _ unrolls (built_approx h)

end Deep

end Bilrost
