import Bilrost.Guarantees.Oneofs
import Bilrost.Schema.Alike
import Bilrost.Schema.Deepening

/-!
What the limit on recursion is for, and what it is not. More depth changes
nothing but that a decoder may go on where it stopped at the limit. A variant of
a oneof whose fields are declared in place needs less depth than one that holds
a message with these fields; in everything else the two are the same.
-/

namespace Bilrost

open Program

theorem Program.SameResult.eq {α β : Type} {result result' : Except Stop (α × Capped β)}
    (h : SameResult Eq result result') : result' = result := by
  cases result with
  | error stop =>
      cases result' with
      | error stop' => exact congrArg Except.error h
      | ok b => exact h.elim
  | ok a =>
      cases result' with
      | error stop' => exact h.elim
      | ok b => exact congrArg Except.ok (Prod.ext h.1.symm h.2)

theorem WithinLimit.run_eq {α β : Type} [Buf β] {p q : Program α} (h : WithinLimit p q)
    (minCanonicity : Canonicity) (capped : Capped β) :
    p.run minCanonicity capped = .error limitError ∨
      q.run minCanonicity capped = p.run minCanonicity capped :=
  (Follows.run h minCanonicity capped).imp_right SameResult.eq

/-- The limit only refuses. What a merge does with some depth, it does with any
more: it returns the same message and canonicity and leaves the same bytes, or
stops with the same error, unless it had reached the limit. -/
theorem limit_only_refuses {allowed : Features} {M : Type} {codec : MessageCodec M}
    (h : Built allowed (.message codec)) {depth depth' : Nat} (hdepth : depth ≤ depth')
    (mode : DecodingMode) {β : Type} [Buf β] (minCanonicity : Canonicity) (capped : Capped β)
    (m : M) :
    ((codec.merge mode depth m).run minCanonicity capped = .error limitError ∨
        (codec.merge mode depth' m).run minCanonicity capped =
          (codec.merge mode depth m).run minCanonicity capped) ∧
      ((codec.mergeDistinguished mode depth m).run minCanonicity capped = .error limitError ∨
        (codec.mergeDistinguished mode depth' m).run minCanonicity capped =
          (codec.mergeDistinguished mode depth m).run minCanonicity capped) := by
  have hdeepens : codec.Deepens := h.deepens
  constructor
  · apply WithinLimit.run_eq
    apply WithinLimit.of_asCanonical
    rw [codec.asCanonical_merge, codec.asCanonical_merge]
    exact hdeepens.mergeBy hdepth .relaxed mode m
  · apply WithinLimit.run_eq
    rw [codec.mergeDistinguished_eq_mergeBy, codec.mergeDistinguished_eq_mergeBy]
    exact hdeepens.mergeBy hdepth .distinguished mode m

section
variable {α δ : Type} {stop : Stop} {R : α → δ → Prop}

theorem Program.Follows.result {p : Program α} {q : Program δ} (h : Follows stop R p q)
    (minCanonicity : Canonicity) {β : Type} [Buf β] (capped : Capped β) :
    p.result minCanonicity capped = .error stop ∨
      SameUpTo R (p.result minCanonicity capped) (q.result minCanonicity capped) := by
  rcases h.run minCanonicity capped with hstop | hsame
  · apply Or.inl
    rw [Program.result, hstop]
    rfl
  · exact .inr hsame.values

/-- Calls do what their loops do. -/
theorem MessageCodec.decodeAs_of_follows {codec : MessageCodec α} {codec' : MessageCodec δ}
    {way : Way} {mode : DecodingMode}
    (h : Follows stop (fun x y => y.2 = x.2 ∧ R x.1 y.1)
      (codec.mergeBy way mode recursionLimit codec.empty)
      (codec'.mergeBy way mode recursionLimit codec'.empty))
    (restrictTo : Canonicity) {β : Type} [Buf β] (buf : β) :
    codec.decodeAs way mode restrictTo buf = .error stop ∨
      SameUpTo (fun x y => y.2 = x.2 ∧ R x.1 y.1) (codec.decodeAs way mode restrictTo buf)
        (codec'.decodeAs way mode restrictTo buf) := by
  have hresult (minCanonicity : Canonicity) := h.result minCanonicity (Capped.new buf)
  cases way with
  | relaxed =>
      simp only [decodeAs, decodeCapped_eq]
      rcases hresult .notCanonical with hstop | hsame
      · rw [hstop]
        exact .inl rfl
      · apply Or.inr
        exact (hsame.map fun x y hxy => hxy.2).map fun x y hvalues => ⟨rfl, hvalues⟩
  | distinguished =>
      simp only [decodeAs, decodeRestrictedCapped_eq]
      rcases hresult restrictTo with hstop | hsame
      · rw [hstop]
        exact .inl rfl
      · apply Or.inr
        apply hsame.bind
        rintro x y ⟨hcanon, hvalues⟩
        rw [hcanon]
        cases check restrictTo x.2 with
        | error kind => exact .error _
        | ok canon => exact .ok ⟨rfl, hvalues⟩

end

namespace MessageCodec

variable {M : Type} {codec : MessageCodec M}

/-- A variant with its fields in place does what a variant does that holds a
message of these, with less depth. -/
theorem Deepens.nested_inlined (h : codec.Deepens) (way : Way) (mode : DecodingMode)
    (depth : Nat) (m : M) :
    WithinLimit (codec.nested.decodeBy way mode true depth m)
      (codec.inlined.decodeBy way mode true depth m) := by
  apply Follows.of_same _ (codec.nested_decodeBy ..) (codec.inlined_decodeBy ..)
  apply Follows.note_left
  rcases Nat.eq_zero_or_pos depth with rfl | hpos
  · exact follows_of_stop _ _
  · simp only [if_neg hpos.ne']
    apply Follows.delimited
    intro len
    rw [if_neg (by simp [Way.shortcut])]
    exact h.contentsBy (Nat.sub_le depth 1) _ _ way mode m

end MessageCodec

/-- The oneof with another encoding of one of its variants. -/
abbrev Oneof.withVariant {T : Type} (oneof : Oneof T) (j : Fin oneof.count)
    (codec : ValueCodec (oneof.Ty j)) : Oneof T :=
  { oneof with codec := Function.update oneof.codec j codec }

namespace Fields

variable {M : Type} {F : Fields M} {k : F.Index} {field field' : MessageField (F.Ty k)}

/-- The fields of a message, one of them with another encoding. -/
abbrev withField (F : Fields M) (k : F.Index) (field : MessageField (F.Ty k)) : Fields M :=
  { F with field := Function.update F.field k field }

/-- What holds of the two encodings, and of any and itself, holds of all fields. -/
theorem forall_withField {P : (i : F.Index) → MessageField (F.Ty i) → MessageField (F.Ty i) → Prop}
    (h : P k field field') (hrefl : ∀ i fld, P i fld fld) (i : F.Index) :
    P i (Function.update F.field k field i) (Function.update F.field k field' i) := by
  by_cases hik : i = k
  · subst hik
    rw [Function.update_self, Function.update_self]
    exact h
  · rw [Function.update_of_ne hik, Function.update_of_ne hik]
    exact hrefl i _

theorem fieldOf_withField (h : field.tags = field'.tags) (tag : Nat) :
    (F.withField k field).fieldOf tag = (F.withField k field').fieldOf tag := by
  have htags := forall_withField (P := fun _ fld fld' => fld.tags = fld'.tags) h fun _ _ => rfl
  have hholds (i : F.Index) : decide (tag ∈ (Function.update F.field k field i).tags) =
      decide (tag ∈ (Function.update F.field k field' i).tags) := by
    rw [htags i]
  exact congrArg F.indices.find? (funext hholds)

theorem empty_withField (h : field.empty = field'.empty) {w : (F.withField k field).Writing}
    {w' : (F.withField k field').Writing} :
    ((F.withField k field).message w).empty = ((F.withField k field').message w').empty := by
  have hempty := forall_withField (P := fun _ fld fld' => fld.empty = fld'.empty) h fun _ _ => rfl
  exact congrArg (fun values => F.view.symm (values, F.ignoredDefault)) (funext hempty)

theorem withinLimit_withField (htags : field.tags = field'.tags) {way : Way} {mode : DecodingMode}
    {depth : Nat}
    (h : ∀ tag wireType dup value,
      WithinLimit (field.decodeBy way mode depth tag wireType dup value)
        (field'.decodeBy way mode depth tag wireType dup value))
    {w : (F.withField k field).Writing} {w' : (F.withField k field').Writing} (m : M) :
    WithinLimit (((F.withField k field).message w).mergeBy way mode depth m)
      (((F.withField k field').message w').mergeBy way mode depth m) := by
  have hfields (tag : Nat) (wireType : WireType) (dup : Bool) := forall_withField
    (P := fun _ fld fld' => ∀ value,
      WithinLimit (fld.decodeBy way mode depth tag wireType dup value)
        (fld'.decodeBy way mode depth tag wireType dup value))
    (h tag wireType dup) fun _ _ _ => withinLimit_refl _
  apply withinLimit_fieldsFrom
  intro tag wireType dup state
  apply WithinLimit.then
  rw [message_fieldBy, message_fieldBy, fieldOf_withField htags]
  cases (F.withField k field').fieldOf tag with
  | none => exact withinLimit_refl _
  | some i => exact WithinLimit.then (hfields tag wireType dup i (F.get state.1 i)) _

section
variable (m : M) (is : List F.Index) (h : field.WritesAs (fun _ => True) field')
include h

theorem encodeIn_withField (tw : TagWriter) :
    (F.withField k field).encodeIn m is tw = (F.withField k field').encodeIn m is tw := by
  have hfields (i : F.Index) (tw : TagWriter) :
      ((F.withField k field).field i).encode (F.get m i) tw =
        ((F.withField k field').field i).encode (F.get m i) tw :=
    forall_withField (P := fun i fld fld' => fld.encode (F.get m i) tw = fld'.encode (F.get m i) tw)
      (congrFun (h.encode trivial) tw) (fun _ _ => rfl) i
  induction is generalizing tw with
  | nil => rfl
  | cons i is ih =>
      rw [encodeIn, encodeIn, funext ih]
      exact congrArg (fun o => o >>= _) (hfields i tw)

theorem prependIn_withField (buf : Bytes) (tw : TagRevWriter) :
    (F.withField k field).prependIn m is buf tw = (F.withField k field').prependIn m is buf tw := by
  have hfields (i : F.Index) (buf : Bytes) (tw : TagRevWriter) :
      ((F.withField k field).field i).prependEncode (F.get m i) buf tw =
        ((F.withField k field').field i).prependEncode (F.get m i) buf tw :=
    forall_withField (P := fun i fld fld' =>
        fld.prependEncode (F.get m i) buf tw = fld'.prependEncode (F.get m i) buf tw)
      (congrFun (congrFun (h.prependEncode trivial) buf) tw) (fun _ _ => rfl) i
  induction is generalizing buf tw with
  | nil => rfl
  | cons i is ih =>
      rw [prependIn, prependIn, funext fun buf => funext (ih buf)]
      exact congrArg (fun o => o >>= _) (hfields i buf tw)

theorem encodedLenIn_withField (tm : TagMeasurer) :
    (F.withField k field).encodedLenIn m is tm = (F.withField k field').encodedLenIn m is tm := by
  have hfields (i : F.Index) (tm : TagMeasurer) :
      ((F.withField k field).field i).encodedLen (F.get m i) tm =
        ((F.withField k field').field i).encodedLen (F.get m i) tm :=
    forall_withField
      (P := fun i fld fld' => fld.encodedLen (F.get m i) tm = fld'.encodedLen (F.get m i) tm)
      (congrFun (h.encodedLen trivial) tm) (fun _ _ => rfl) i
  induction is generalizing tm with
  | nil => rfl
  | cons i is ih =>
      rw [encodedLenIn, encodedLenIn, funext ih]
      exact congrArg (fun o => o >>= _) (hfields i tm)

end

/-- Fields are written in an order that depends on their tags alone. -/
theorem derived_withField (htags : field.tags = field'.tags)
    (hcurrent : field.currentTag = field'.currentTag) :
    (F.withField k field).derived.forward = (F.withField k field').derived.forward ∧
      (F.withField k field).derived.backward = (F.withField k field').derived.backward := by
  have htags' := forall_withField (P := fun _ fld fld' => fld.tags = fld'.tags) htags fun _ _ => rfl
  have hcurrent' (m : M) (i : F.Index) := forall_withField
    (P := fun i fld fld' => fld.currentTag (F.get m i) = fld'.currentTag (F.get m i))
    (congrFun hcurrent (F.get m k)) (fun _ _ => rfl) i
  have htagged : (⟨fun i => (Function.update F.field k field i).tags⟩ : Tagged F.Index) =
      ⟨fun i => (Function.update F.field k field' i).tags⟩ := congrArg Tagged.mk (funext htags')
  refine ⟨funext fun m => ?_, funext fun m => ?_⟩
  · exact congrArg₂ (fun (tagged : Tagged F.Index) current => @MessageFieldsSorted.encodeOrder F.Index
      tagged current ((@MessageFieldsSorted.new F.Index tagged F.indices).getD [])) htagged
      (funext (hcurrent' m))
  · exact congrArg₂ (fun (tagged : Tagged F.Index) current => @MessageFieldsSorted.prependOrder F.Index
      tagged current ((@MessageFieldsSorted.new F.Index tagged F.indices).getD [])) htagged
      (funext (hcurrent' m))

theorem writesAs_withField (h : field.WritesAs (fun _ => True) field')
    (htags : field.tags = field'.tags) (hcurrent : field.currentTag = field'.currentTag) :
    ((F.withField k field).message (F.withField k field).derived).WritesAs (fun _ => True)
      ((F.withField k field').message (F.withField k field').derived) := by
  obtain ⟨hforward, hbackward⟩ := derived_withField (F := F) htags hcurrent
  have hmeasurer : (F.withField k field).derived.measurer = (F.withField k field').derived.measurer :=
    rfl
  constructor
  · intro m _
    simp only [message, hforward, encodeIn_withField m _ h]
  · intro m _
    funext buf
    simp only [message, hbackward, prependIn_withField m _ h]
  · intro m _
    simp only [message, hforward, hmeasurer, encodedLenIn_withField m _ h]

end Fields

section
variable {allowed : Features} {M : Type} {F : Fields M} {k : F.Index} {oneof : Oneof (F.Ty k)}
  {j : Fin oneof.count}

/-- The derived message whose oneof has this encoding of a variant. -/
abbrev Fields.messageWithVariant (F : Fields M) (k : F.Index) (oneof : Oneof (F.Ty k))
    (j : Fin oneof.count) (codec : ValueCodec (oneof.Ty j)) : MessageCodec M :=
  (F.withField k (oneof.withVariant j codec).field).message (Fields.derived _)

theorem MessageCodec.decodeAs_of_withinLimit {codec codec' : MessageCodec M}
    (hempty : codec.empty = codec'.empty) {way : Way} {mode : DecodingMode}
    (h : WithinLimit (codec.mergeBy way mode recursionLimit codec.empty)
      (codec'.mergeBy way mode recursionLimit codec.empty))
    (restrictTo : Canonicity) {β : Type} [Buf β] (buf : β) :
    codec.decodeAs way mode restrictTo buf = .error limitError ∨
      codec'.decodeAs way mode restrictTo buf = codec.decodeAs way mode restrictTo buf := by
  have hmerges : Follows limitError (fun x y => y.2 = x.2 ∧ y.1 = x.1)
      (codec.mergeBy way mode recursionLimit codec.empty)
      (codec'.mergeBy way mode recursionLimit codec'.empty) := by
    rw [← hempty]
    exact Follows.mono h fun x y hxy => ⟨congrArg Prod.snd hxy.symm, congrArg Prod.fst hxy.symm⟩
  apply (decodeAs_of_follows (R := fun x y => y = x) hmerges restrictTo buf).imp_right
  intro hsame
  exact (hsame.mono fun x y hxy => Prod.ext hxy.2.symm hxy.1.symm).eq

theorem Oneof.withinLimit_withVariant {T : Type} {oneof : Oneof T} {j : Fin oneof.count}
    {codec codec' : ValueCodec (oneof.Ty j)} {way : Way} {mode : DecodingMode} {depth : Nat}
    (h : ∀ wireType, WithinLimit
      (codec.decodeFieldBy way mode true depth wireType codec.forOverwrite)
      (codec'.decodeFieldBy way mode true depth wireType codec'.forOverwrite))
    (tag : Nat) (wireType : WireType) (dup : Bool) (value : T) :
    WithinLimit ((oneof.withVariant j codec).field.decodeBy way mode depth tag wireType dup value)
      ((oneof.withVariant j codec').field.decodeBy way mode depth tag wireType dup value) := by
  have hcurrent : (oneof.withVariant j codec).currentTag value = oneof.currentTag value := rfl
  have hcurrent' : (oneof.withVariant j codec').currentTag value = oneof.currentTag value := rfl
  have hvariant : (oneof.withVariant j codec).variant tag = oneof.variant tag := rfl
  have hvariant' : (oneof.withVariant j codec').variant tag = oneof.variant tag := rfl
  rw [Oneof.field_decodeBy, Oneof.field_decodeBy, hcurrent, hcurrent', hvariant, hvariant']
  cases oneof.currentTag value with
  | some current => exact withinLimit_refl _
  | none =>
      cases oneof.variant tag with
      | none => exact withinLimit_refl _
      | some i =>
          have hdecoded : WithinLimit
              (((oneof.withVariant j codec).codec i).decodeFieldBy way mode true depth wireType
                ((oneof.withVariant j codec).codec i).forOverwrite)
              (((oneof.withVariant j codec').codec i).decodeFieldBy way mode true depth wireType
                ((oneof.withVariant j codec').codec i).forOverwrite) := by
            by_cases hij : i = j
            · subst hij
              simp only [Function.update_self]
              exact h wireType
            · simp only [Function.update_of_ne hij]
              exact withinLimit_refl _
          exact WithinLimit.then hdecoded _

/-- The same bytes are written for a variant with fields in place and for one
that holds a message. -/
theorem writesAs_messageWithVariant (inner : MessageCodec (oneof.Ty j)) :
    (F.messageWithVariant k oneof j inner.inlined).WritesAs (fun _ => True)
      (F.messageWithVariant k oneof j inner.nested) := by
  have hcodecs (i : Fin oneof.count) : ((oneof.withVariant j inner.inlined).codec i).WritesAs
      (fun _ => True) ((oneof.withVariant j inner.nested).codec i) := by
    by_cases hij : i = j
    · subst hij
      simp only [Function.update_self]
      exact ⟨rfl, fun _ => rfl, fun _ => rfl, fun _ => rfl, fun _ => rfl⟩
    · simp only [Function.update_of_ne hij]
      exact .refl _ _
  have hfield : (oneof.withVariant j inner.inlined).field.WritesAs (fun _ => True)
      (oneof.withVariant j inner.nested).field := by
    have honeof : (oneof.withVariant j inner.inlined).field.WritesAs
        (fun value => ∀ v ∈ oneof.view value, True) (oneof.withVariant j inner.nested).field :=
      Oneof.writesAs hcodecs
    exact ⟨fun _ => honeof.encode fun _ _ => trivial,
      fun _ => honeof.prependEncode fun _ _ => trivial,
      fun _ => honeof.encodedLen fun _ _ => trivial⟩
  exact Fields.writesAs_withField hfield rfl rfl

/-- Any bytes are decoded alike, except where the message needs more depth than
there is. -/
theorem decodeAs_messageWithVariant {inner : MessageCodec (oneof.Ty j)}
    (h : Built allowed (.message inner)) (way : Way) (mode : DecodingMode)
    (restrictTo : Canonicity) {β : Type} [Buf β] (buf : β) :
    (F.messageWithVariant k oneof j inner.nested).decodeAs way mode restrictTo buf =
        .error limitError ∨
      (F.messageWithVariant k oneof j inner.inlined).decodeAs way mode restrictTo buf =
        (F.messageWithVariant k oneof j inner.nested).decodeAs way mode restrictTo buf := by
  have hdeepens : inner.Deepens := h.deepens
  have hvariant (wireType : WireType) : WithinLimit
      (inner.nested.decodeFieldBy way mode true recursionLimit wireType inner.empty)
      (inner.inlined.decodeFieldBy way mode true recursionLimit wireType inner.empty) :=
    withinLimit_after _ fun _ => hdeepens.nested_inlined way mode recursionLimit _
  have htags : (oneof.withVariant j inner.nested).field.tags =
      (oneof.withVariant j inner.inlined).field.tags := rfl
  have hempty : (oneof.withVariant j inner.nested).field.empty =
      (oneof.withVariant j inner.inlined).field.empty := rfl
  apply MessageCodec.decodeAs_of_withinLimit (Fields.empty_withField hempty)
  apply Fields.withinLimit_withField htags
  exact Oneof.withinLimit_withVariant hvariant

/-- It makes no difference whether a variant of a oneof has fields in place or
holds a message with the same fields: the same bytes are written, forwards and
backwards, of the same length, and whatever bytes are decoded, in whatever way,
the result is the same, the canonicity and the kind of the error included,
except where the message needs more depth than there is. -/
theorem inline_variants_interchange {inner : MessageCodec (oneof.Ty j)}
    (h : Built allowed (.message inner)) :
    ((F.messageWithVariant k oneof j inner.inlined).rawEncode =
          (F.messageWithVariant k oneof j inner.nested).rawEncode ∧
        (F.messageWithVariant k oneof j inner.inlined).rawPrepend =
            (F.messageWithVariant k oneof j inner.nested).rawPrepend ∧
          (F.messageWithVariant k oneof j inner.inlined).rawEncodedLen =
            (F.messageWithVariant k oneof j inner.nested).rawEncodedLen) ∧
      ∀ (way : Way) (mode : DecodingMode) (restrictTo : Canonicity) {β : Type} [Buf β] (buf : β),
        (F.messageWithVariant k oneof j inner.nested).decodeAs way mode restrictTo buf =
            .error limitError ∨
          (F.messageWithVariant k oneof j inner.inlined).decodeAs way mode restrictTo buf =
            (F.messageWithVariant k oneof j inner.nested).decodeAs way mode restrictTo buf := by
  have hwrites := writesAs_messageWithVariant (F := F) (k := k) inner
  constructor
  · exact ⟨funext fun _ => hwrites.rawEncode trivial, funext fun _ => hwrites.rawPrepend trivial,
      funext fun _ => hwrites.rawEncodedLen trivial⟩
  · intro way mode restrictTo β _ buf
    exact decodeAs_messageWithVariant h way mode restrictTo buf

/-- A variant that is declared as a message is interchangeable with one that
holds the derived message with the same fields. All values are written as the
same bytes, and where the recursion limit is not reached, all bytes are decoded
to the same value with the same canonicity, or both fail. -/
theorem message_variants_interchange {inner : Fields (oneof.Ty j)}
    (h : Built allowed (.message (inner.message inner.derived))) :
    (∀ m, (F.messageWithVariant k oneof j (inner.message inner.derived).inlined).encodeToVec m =
          (F.messageWithVariant k oneof j (inner.message inner.derived).nested).encodeToVec m ∧
        (F.messageWithVariant k oneof j (inner.message inner.derived).inlined).encodedLen m =
            (F.messageWithVariant k oneof j (inner.message inner.derived).nested).encodedLen m ∧
          ∀ buf, (F.messageWithVariant k oneof j (inner.message inner.derived).inlined).rawPrepend m
              buf =
            (F.messageWithVariant k oneof j (inner.message inner.derived).nested).rawPrepend m
              buf) ∧
      ∀ (way : Way) (mode : DecodingMode) (restrictTo : Canonicity) {β : Type} [Buf β] (buf : β),
        (F.messageWithVariant k oneof j (inner.message inner.derived).nested).decodeAs way mode
            restrictTo buf ≠ .error limitError →
          (F.messageWithVariant k oneof j (inner.message inner.derived).inlined).decodeAs way mode
              restrictTo buf =
            (F.messageWithVariant k oneof j (inner.message inner.derived).nested).decodeAs way mode
              restrictTo buf := by
  have hwrites := writesAs_messageWithVariant (F := F) (k := k) (inner.message inner.derived)
  constructor
  · intro m
    have hlen := hwrites.rawEncodedLen trivial (m := m)
    refine ⟨?_, ?_, fun buf => congrFun (hwrites.rawPrepend trivial) buf⟩
    · simp only [MessageCodec.encodeToVec, MessageCodec.encodedLen, hlen,
        hwrites.rawEncode trivial (m := m)]
    · simp only [MessageCodec.encodedLen, hlen]
  · intro way mode restrictTo β _ buf hlimit
    exact (decodeAs_messageWithVariant h way mode restrictTo buf).resolve_left hlimit

end

/-- A oneof with a message of one number. -/
theorem inline_variants_interchange_number :
    (numberFields.messageWithVariant numberIndex numberOneof ⟨0, Nat.two_pos⟩
        (u32Field.derived 1).inlined).decodeAs .distinguished .owned .notCanonical
          ([5, 2, 4, 9] : Bytes) =
      .ok (some ⟨⟨0, Nat.two_pos⟩, (9 : BitVec 32)⟩, .canonical) := by
  have hbuilt : Built .all (.message (u32Field.derived 1)) :=
    .derived (by decide) (built_u32Field _)
  have hnested : (numberFields.messageWithVariant numberIndex numberOneof ⟨0, Nat.two_pos⟩
      (u32Field.derived 1).nested).decodeAs .distinguished .owned .notCanonical
        ([5, 2, 4, 9] : Bytes) = .ok (some ⟨⟨0, Nat.two_pos⟩, (9 : BitVec 32)⟩, .canonical) := by
    rfl
  rcases (@inline_variants_interchange _ _ numberFields numberIndex numberOneof ⟨0, Nat.two_pos⟩ _
      hbuilt).2 .distinguished .owned .notCanonical ([5, 2, 4, 9] : Bytes) with hlimit | hsame
  · have hresult := hnested.symm.trans hlimit
    cases hresult
  · exact hsame.trans hnested

/-- The same number, written from either variant and read in place. -/
theorem message_variants_interchange_number :
    let inner := Fields.single (u32Field.tagged 1)
    (numberFields.messageWithVariant numberIndex numberOneof ⟨0, Nat.two_pos⟩
          (inner.message inner.derived).inlined).encodeToVec (some ⟨⟨0, Nat.two_pos⟩, 9⟩) =
        some [5, 2, 4, 9] ∧
      (numberFields.messageWithVariant numberIndex numberOneof ⟨0, Nat.two_pos⟩
          (inner.message inner.derived).inlined).decodeAs .distinguished .owned .notCanonical
            ([5, 2, 4, 9] : Bytes) =
        .ok (some ⟨⟨0, Nat.two_pos⟩, (9 : BitVec 32)⟩, .canonical) := by
  intro inner
  have hbuilt : Built .all (.message (inner.message inner.derived)) :=
    .derived (by decide) (built_u32Field _)
  obtain ⟨hwrites, hreads⟩ := @message_variants_interchange _ _ numberFields numberIndex numberOneof
    ⟨0, Nat.two_pos⟩ inner hbuilt
  have hnested : (numberFields.messageWithVariant numberIndex numberOneof ⟨0, Nat.two_pos⟩
      (inner.message inner.derived).nested).decodeAs .distinguished .owned .notCanonical
        ([5, 2, 4, 9] : Bytes) = .ok (some ⟨⟨0, Nat.two_pos⟩, (9 : BitVec 32)⟩, .canonical) := by
    rfl
  constructor
  · exact (hwrites _).1.trans (by decide +kernel)
  · refine (hreads .distinguished .owned .notCanonical _ fun hlimit => ?_).trans hnested
    cases hnested.symm.trans hlimit

/-- A chain that is decoded with the depth it needs. -/
theorem limit_only_refuses_chain :
    (Chain.codec.merge .owned 100 (0 : Nat)).run .notCanonical (Capped.new ([5, 0] : Bytes)) =
      (Chain.codec.merge .owned 1 (0 : Nat)).run .notCanonical (Capped.new ([5, 0] : Bytes)) := by
  have hbuilt : Built .all (.message Chain.codec) := Chain.built trivial
  have hdecodes : ((Chain.codec.merge .owned 1 (0 : Nat)).run .notCanonical
      (Capped.new ([5, 0] : Bytes))).isOk = true := by
    rfl
  rcases (limit_only_refuses hbuilt (by decide : 1 ≤ 100) .owned .notCanonical
      (Capped.new ([5, 0] : Bytes)) (0 : Nat)).1 with hlimit | hsame
  · rw [hlimit] at hdecodes
    cases hdecodes
  · exact hsame

end Bilrost
