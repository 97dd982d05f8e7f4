import Bilrost.Codec.OneofMessages
import Bilrost.Guarantees.Harnesses
import Bilrost.Guarantees.InlineVariants

/-!
Oneofs that are messages. A oneof with an empty variant may be derived as a
message of its own, and then it is the message whose only field it is. It reads
what a message with an optional field for each variant reads, stops with the
same errors, and differs only where it meets a field of a second variant.
-/

namespace Bilrost

open Program

namespace Fields

section
variable {T : Type} (field : MessageField T) (value : T)

/-- The only field. -/
def onlyIndex : (single field).Index := ⟨0, Nat.one_pos⟩

/-- A field on its own needs no sorting. -/
theorem chunks_single : (single field).chunks = [.alwaysOrdered (onlyIndex field)] := by
  have hindices : (single field).indices = [onlyIndex field] := rfl
  rw [chunks, hindices]
  rfl

theorem rawEncode_single : ((single field).message (single field).derived).rawEncode value =
    (field.encode value TagWriter.new).map Prod.fst := by
  have hforward : (single field).derived.forward value = [onlyIndex field] := by
    rw [derived, chunks_single]
    rfl
  have hfield : ((single field).field (onlyIndex field)).encode
      ((single field).get value (onlyIndex field)) = field.encode value := rfl
  simp only [message, hforward, encodeIn, hfield]
  cases field.encode value TagWriter.new with
  | none => rfl
  | some written => simp

theorem rawPrepend_single (buf : Bytes) :
    ((single field).message (single field).derived).rawPrepend value buf =
      (field.prependEncode value buf TagRevWriter.new).map fun written =>
        written.2.finalize written.1 := by
  have hbackward : (single field).derived.backward value = [onlyIndex field] := by
    rw [derived, chunks_single]
    rfl
  have hfield : ((single field).field (onlyIndex field)).prependEncode
      ((single field).get value (onlyIndex field)) = field.prependEncode value := rfl
  simp only [message, hbackward, prependIn, hfield]
  cases field.prependEncode value buf TagRevWriter.new with
  | none => rfl
  | some written => rfl

theorem rawEncodedLen_single : ((single field).message (single field).derived).rawEncodedLen value =
    (field.encodedLen value (tagMeasurer [])).map Prod.fst := by
  have hforward : (single field).derived.forward value = [onlyIndex field] := by
    rw [derived, chunks_single]
    rfl
  have hfield : ((single field).field (onlyIndex field)).encodedLen
      ((single field).get value (onlyIndex field)) = field.encodedLen value := rfl
  have hmeasurer : (single field).derived.measurer = tagMeasurer [] := rfl
  simp only [message, hforward, encodedLenIn, hfield, hmeasurer]
  cases field.encodedLen value (tagMeasurer []) with
  | none => rfl
  | some measured => simp

end

end Fields

/-- A message with one field is written as the field is. -/
theorem FieldCodec.Written.derived {T : Type} {codec : FieldCodec T} {ordered : Prop} {value : T}
    {wireType : WireType} {payloads : List Bytes} {tag : Nat} (htag : tag < 2 ^ 32)
    (hwrites : codec.Writes ordered) (h : codec.Written ordered value wireType payloads) :
    (codec.derived tag).Written ordered value (payloads.map (Record.mk tag wireType)) := by
  have hforward : (Fields.single (codec.tagged tag)).derived.forward value =
      [Fields.onlyIndex (codec.tagged tag)] := by
    rw [Fields.derived, Fields.chunks_single]
    rfl
  have hwritten := Fields.written (F := Fields.single (codec.tagged tag))
    (Fields.singleBy_sound htag) .derived (fun _ => hwrites.tagged tag) fun _ => h.tagged tag
  rw [hforward, List.flatMap_singleton] at hwritten
  exact hwritten

attribute [ext] MessageCodec

namespace Oneof

variable {T : Type} (oneof : Oneof T)

/-- Where all tags are small, the first key is measured as one byte either way. -/
theorem keyLen_tagMeasurer {tags : List Nat} {tag : Nat} (htag : tag ∈ tags) :
    ((tagMeasurer tags).keyLen tag).map Prod.fst = ((tagMeasurer []).keyLen tag).map Prod.fst := by
  cases hmax : tags.max? with
  | none => simp only [tagMeasurer, hmax, List.max?_nil]
  | some maxTag =>
      simp only [tagMeasurer, hmax, List.max?_nil]
      split_ifs with hlt
      · have hsmall : tag < 32 := ((List.max?_eq_some_iff.mp hmax).2 tag htag).trans_lt hlt
        have hkey : (keyBytes (tag - 0) .varint).length = 1 := keyBytes_length_of_lt hsmall _
        rw [keyLen_runtime_of_le (Nat.zero_le tag) .varint, hkey]
        rfl
      · rfl

theorem fst_fieldEncodedLen {U : Type} (codec : ValueCodec U) (tag : Nat) (value : U)
    (tm : TagMeasurer) : (codec.fieldEncodedLen tag value tm).map Prod.fst =
      ((tm.keyLen tag).map Prod.fst).bind fun keyLen =>
        (codec.valueEncodedLen value).map (keyLen + ·) := by
  rw [ValueCodec.fieldEncodedLen]
  cases tm.keyLen tag with
  | none => rfl
  | some key => cases codec.valueEncodedLen value <;> rfl

theorem encodedLen_tagMeasurer (value : T) :
    (oneof.field.encodedLen value (tagMeasurer oneof.tags)).map Prod.fst =
      (oneof.field.encodedLen value (tagMeasurer [])).map Prod.fst := by
  simp only [field]
  cases oneof.view value with
  | none => rfl
  | some v =>
      have hmem : oneof.tag v.1 ∈ oneof.tags := List.mem_map_of_mem (List.mem_finRange v.1)
      simp only [fst_fieldEncodedLen, keyLen_tagMeasurer hmem]

/-- A oneof that is derived as a message is the message whose only field it is. -/
theorem message_eq : oneof.message =
    (Fields.single oneof.field).message (Fields.single oneof.field).derived := by
  apply MessageCodec.ext
  · rfl
  · exact funext fun value => (Bool.and_true _).symm
  · rfl
  · funext value
    rw [Fields.rawEncode_single]
    simp only [message]
    cases oneof.field.encode value TagWriter.new <;> rfl
  · funext value buf
    rw [Fields.rawPrepend_single]
    simp only [message]
    cases oneof.field.prependEncode value buf TagRevWriter.new <;> rfl
  · funext value
    rw [Fields.rawEncodedLen_single, ← encodedLen_tagMeasurer]
    simp only [message]
    cases oneof.field.encodedLen value (tagMeasurer oneof.tags) <;> rfl
  · funext mode depth tag wireType dup value
    rw [Fields.rawDecodeField_single]
    rfl
  · funext mode depth tag wireType dup value
    rw [Fields.rawDecodeFieldDistinguished_single]
    rfl
  · funext distinguished value value'
    cases distinguished with
    | true => rfl
    | false => exact (propext (Fields.same_single oneof.field _ value)).symm
  · funext depth value
    exact (propext (Fields.nestsWithin_single oneof.field _ value)).symm

end Oneof

namespace Fields

section
variable {M M' : Type} {F : Fields M} {k : F.Index} {oneof : Oneof (F.Ty k)}
  {view : M' ≃ ((s : F.Split k oneof) → F.splitTy k oneof s) × F.Ignored} {m : M} {m' : M'}
  {count : Nat} {e : F.Split k oneof ≃ Fin count} {w : F.Writing}
  {w' : (F.split k oneof e view).Writing} {way : Way} {mode : DecodingMode} {depth last tag : Nat}
  {lastTag : Option Nat} {wireType : WireType}

/-- One of the fields is decoded into its place. -/
theorem Sound.split_fieldBy (h : F.Sound) (hk : F.field k = oneof.field) {dup : Bool}
    (s : F.Split k oneof) (hs : tag ∈ (F.splitField k oneof s).tags) :
    ((F.split k oneof e view).message w').fieldBy way mode depth tag wireType dup m' =
      ((F.splitField k oneof s).decodeBy way mode depth tag wireType dup ((view m').1 s)).bind
        fun decoded => .done
          (view.symm (Function.update (view m').1 s decoded.1, (view m').2), decoded.2) := by
  obtain ⟨y, rfl⟩ := e.symm.surjective s
  have hfieldOf : (F.split k oneof e view).fieldOf tag = some y :=
    (h.split hk).fieldOf_eq_some.mpr hs
  have hset (value : F.splitTy k oneof (e.symm y)) : (F.split k oneof e view).set m' y value =
      view.symm (Function.update (view m').1 (e.symm y) value, (view m').2) :=
    view.eq_symm_apply.mpr (view_split_set m' y value)
  rw [message_fieldBy, hfieldOf]
  exact congrArg (Program.bind _) (funext fun decoded =>
    congrArg (fun m => Program.done (m, decoded.2)) (hset decoded.1))

/-- A variant that is not there yet is decoded into its place. -/
theorem Sound.split_fieldBy_variant (h : F.Sound) (hk : F.field k = oneof.field)
    {j : Fin oneof.count} (hnone : (view m').1 (.inr j) = none) :
    ((F.split k oneof e view).message w').fieldBy way mode depth (oneof.tag j) wireType false m' =
      ((oneof.codec j).decodeFieldBy way mode true depth wireType
        (oneof.codec j).forOverwrite).bind fun decoded =>
          .done (view.symm (Function.update (view m').1 (.inr j) (some decoded.1), (view m').2),
            decoded.2) := by
  have hfield : (F.splitField k oneof (.inr j)).decodeBy way mode depth (oneof.tag j) wireType
      false ((view m').1 (.inr j)) = ((oneof.codec j).decodeFieldBy way mode true depth wireType
        (oneof.codec j).forOverwrite).bind fun decoded => .done (some decoded.1, decoded.2) := by
    have hoverwrite : (oneof.codec j).optional.decodeBy way mode depth wireType none =
        ((oneof.codec j).decodeFieldBy way mode true depth wireType
          (oneof.codec j).forOverwrite).bind fun decoded => .done (some decoded.1, decoded.2) :=
      ValueCodec.optional_decodeBy ..
    rw [hnone]
    exact (FieldCodec.tagged_decodeBy ..).trans ((if_neg Bool.false_ne_true).trans hoverwrite)
  rw [h.split_fieldBy hk (.inr j) (List.mem_singleton_self _), hfield]
  exact Program.bind_assoc ..

/-- What the two messages have in common between fields. -/
def Alongside (view : M' ≃ ((s : F.Split k oneof) → F.splitTy k oneof s) × F.Ignored) (last : Nat)
    (lastTag : Option Nat) (x : M × Canonicity) (y : M' × Canonicity) : Prop :=
  y.2 = x.2 ∧ Corresponds view x.1 y.1 ∧ Tracked view last lastTag y.1

/-- Only a second variant makes a difference to one field. -/
theorem Corresponds.follows (hcorr : Corresponds view m m') (h : F.Sound)
    (hk : F.field k = oneof.field) (htracked : Tracked view last lastTag m') (hle : last ≤ tag) :
    Follows (.error .conflictingFields) (Alongside view tag (some tag))
      ((F.message w).fieldBy way mode depth tag wireType (lastTag == some tag) m)
      (((F.split k oneof e view).message w').fieldBy way mode depth tag wireType
        (lastTag == some tag) m') := by
  cases hfieldOf : F.fieldOf tag with
  | none =>
      have hother (j : Fin oneof.count) : oneof.tag j ≠ tag := fun htag =>
        fieldOf_eq_none.mp hfieldOf k (htag ▸ oneof_tag_mem hk j)
      have hnext : Tracked view tag (some tag) m' :=
        htracked.after hle (fun j htag => absurd htag (hother j)) fun _ _ => rfl
      rw [message_fieldBy, message_fieldBy, hfieldOf, (split_fieldOf_eq_none hk).mpr hfieldOf]
      cases way with
      | relaxed =>
          apply Follows.bind_left
          exact fun _ => follows_done ⟨rfl, hcorr, hnext⟩
      | distinguished =>
          apply Follows.check
          apply Follows.bind_left
          exact fun _ => follows_done ⟨rfl, hcorr, hnext⟩
  | some i =>
      have htag := h.fieldOf_eq_some.mp hfieldOf
      rw [message_fieldBy, hfieldOf]
      by_cases hik : i = k
      · subst hik
        have htags := htag
        rw [hk] at htags
        obtain ⟨j, -, rfl⟩ := List.mem_map.mp htags
        have hnodup := h.oneof_tags_nodup hk
        simp only [hk, oneof.field_decodeBy]
        cases hcurrent : oneof.currentTag (F.get m i) with
        | some current =>
            obtain ⟨v, hview, rfl⟩ := Option.map_eq_some_iff.mp hcurrent
            by_cases hsame : oneof.tag v.1 = oneof.tag j
            · -- the same variant again, which both find to be repeated
              obtain rfl := List.inj_on_of_nodup_map hnodup (List.mem_finRange v.1)
                (List.mem_finRange j) hsame
              have hthere : variantValue view m' v.1 ≠ none := by
                rw [(hcorr.variant v.1 v.2).mpr hview]
                exact Option.some_ne_none v.2
              rw [htracked.duplicated hthere hle]
              have hrepeated : (F.splitField i oneof (.inr v.1)).decodeBy way mode depth
                  (oneof.tag v.1) wireType true ((view m').1 (.inr v.1)) =
                    error .unexpectedlyRepeated :=
                (FieldCodec.tagged_decodeBy ..).trans (if_pos rfl)
              rw [h.split_fieldBy hk (.inr v.1) (List.mem_singleton_self _), hrepeated]
              dsimp only
              rw [if_pos rfl]
              exact follows_error _ _
            · dsimp only
              rw [if_neg hsame]
              exact follows_of_stop _ _
        | none =>
            have hnone := hcorr.currentTag_eq_none.mp hcurrent
            have hdup : (lastTag == some (oneof.tag j)) = false := by
              by_contra hdup
              rw [Bool.not_eq_false, beq_iff_eq] at hdup
              exact (htracked j).2 hdup (hnone j)
            rw [hdup, h.split_fieldBy_variant hk (hnone j), Oneof.variant_tag hnodup]
            dsimp only
            rw [Program.bind_assoc]
            apply Follows.bind_left
            intro decoded
            apply follows_done
            have hvalues : (view (view.symm (Function.update (view m').1 (.inr j)
                (some decoded.1), (view m').2))) =
                  (Function.update (view m').1 (.inr j) (some decoded.1), (view m').2) :=
              view.apply_symm_apply _
            obtain ⟨hvalues, hignored⟩ := Prod.ext_iff.mp hvalues
            exact ⟨rfl, hcorr.set_variant hnone hvalues hignored,
              htracked.set_variant hnodup hle hvalues⟩
      · rw [h.split_fieldBy hk (.inl ⟨i, hik⟩) htag]
        have hkept : (view m').1 (.inl ⟨i, hik⟩) = F.get m i := hcorr.kept ⟨i, hik⟩
        rw [hkept]
        apply Follows.bind_left
        intro decoded
        apply follows_done
        have hvalues : (view (view.symm (Function.update (view m').1 (.inl ⟨i, hik⟩) decoded.1,
            (view m').2))) = (Function.update (view m').1 (.inl ⟨i, hik⟩) decoded.1, (view m').2) :=
          view.apply_symm_apply _
        obtain ⟨hvalues, hignored⟩ := Prod.ext_iff.mp hvalues
        obtain ⟨hset, hvariant⟩ := hcorr.set_kept hik hvalues hignored
        refine ⟨rfl, hset, htracked.after hle (fun j heq => ?_) fun j _ => hvariant j⟩
        exact absurd (h.eq_of_mem htag (heq ▸ oneof_tag_mem hk j)) hik

/-- The two loops, with the key that both have read. -/
def Abreast (view : M' ≃ ((s : F.Split k oneof) → F.splitTy k oneof s) × F.Ignored)
    (x : TagReader × Option Nat × M × Canonicity) (y : TagReader × Option Nat × M' × Canonicity) :
    Prop :=
  y.1 = x.1 ∧ y.2.1 = x.2.1 ∧ Alongside view x.1.lastTag x.2.1 x.2.2 y.2.2

theorem follows_decodeKey {stop : Stop} (tr : TagReader) :
    Follows stop (fun x y => y = x ∧ ∃ tag wireType, x = ((tag, wireType), ⟨tag⟩) ∧
      tr.lastTag ≤ tag) tr.decodeKey tr.decodeKey := by
  apply Follows.op
  intro key
  cases hread : tr.readKey key with
  | error kind => exact follows_error _ kind
  | ok result =>
      obtain ⟨⟨tag, wireType⟩, tr'⟩ := result
      obtain ⟨rfl, hle, -, -⟩ := TagReader.readKey_eq_ok hread
      exact follows_done ⟨rfl, tag, wireType, rfl, hle⟩

/-- One round of the loops. -/
theorem Corresponds.follows_readField (hcorr : Corresponds view m m') (h : F.Sound)
    (hk : F.field k = oneof.field) {tr : TagReader}
    (htracked : Tracked view tr.lastTag lastTag m') (canon : Canonicity) :
    Follows (.error .conflictingFields) (Abreast view)
      (readField ((F.message w).stepBy way mode depth) (tr, lastTag, m, canon))
      (readField (((F.split k oneof e view).message w').stepBy way mode depth)
        (tr, lastTag, m', canon)) := by
  apply Follows.bind (follows_decodeKey tr)
  rintro _ _ ⟨rfl, tag, wireType, rfl, hle⟩
  have hfield : Follows (.error .conflictingFields) (Alongside view tag (some tag))
      ((F.message w).fieldBy way mode depth tag wireType (lastTag == some tag) m)
      (((F.split k oneof e view).message w').fieldBy way mode depth tag wireType
        (lastTag == some tag) m') := hcorr.follows h hk htracked hle
  apply Follows.bind (R := Alongside view tag (some tag))
  · apply Follows.bind hfield
    rintro decoded decoded' ⟨hcanon, hcorr, htracked⟩
    exact follows_done ⟨congrArg canon.update hcanon, hcorr, htracked⟩
  · exact fun state state' halongside => follows_done ⟨rfl, rfl, halongside⟩

/-- The two messages, from the beginning to the end. -/
theorem Sound.follows_mergeBy (h : F.Sound) (hk : F.field k = oneof.field) :
    Follows (.error .conflictingFields)
      (fun x y => y.2 = x.2 ∧ Corresponds view x.1 y.1)
      ((F.message w).mergeBy way mode depth (F.message w).empty)
      (((F.split k oneof e view).message w').mergeBy way mode depth
        ((F.split k oneof e view).message w').empty) := by
  have hbeside : Beside view ⟨0, none, ((F.message w).empty, .canonical), []⟩
      ⟨0, none, (((F.split k oneof e view).message w').empty, .canonical), []⟩ :=
    beside_empty hk .canonical []
  obtain ⟨-, -, -, -, hcorr, htracked⟩ := hbeside
  have hround (x : TagReader × Option Nat × M × Canonicity)
      (y : TagReader × Option Nat × M' × Canonicity) (hxy : Abreast view x y) :
      Follows (.error .conflictingFields) (Abreast view)
        (readField ((F.message w).stepBy way mode depth) x)
        (readField (((F.split k oneof e view).message w').stepBy way mode depth) y) := by
    obtain ⟨tr, lastTag, m, canon⟩ := x
    obtain ⟨tr', lastTag', m', canon'⟩ := y
    obtain ⟨htr, hlastTag, hcanon, hcorr, htracked⟩ := hxy
    dsimp only at htr hlastTag hcanon
    subst htr hlastTag hcanon
    exact hcorr.follows_readField h hk htracked _
  apply (Follows.whileRemaining hround ⟨rfl, rfl, rfl, hcorr, htracked⟩).bind
  rintro state state' ⟨-, -, hcanon, hcorr, -⟩
  exact follows_done ⟨hcanon, hcorr⟩

/-- The calls that decode whole buffers, with any restriction. -/
theorem Sound.sameUpTo (h : F.Sound) (hk : F.field k = oneof.field) (way : Way)
    (mode : DecodingMode) (restrictTo : Canonicity) {β : Type} [Buf β] (buf : β) :
    (F.message w).decodeAs way mode restrictTo buf = .error (.error .conflictingFields) ∨
      SameUpTo (fun x y => y.2 = x.2 ∧ Corresponds view x.1 y.1)
        ((F.message w).decodeAs way mode restrictTo buf)
        (((F.split k oneof e view).message w').decodeAs way mode restrictTo buf) :=
  MessageCodec.decodeAs_of_follows (h.follows_mergeBy hk) restrictTo buf

end

end Fields

section
variable {T M' : Type} (oneof : Oneof T)

/-- The fields that a message has for the variants of a oneof, in place of it. -/
abbrev Oneof.Options : Type := (Fields.single oneof.field).Split (Fields.onlyIndex oneof.field) oneof

/-- What a message holds that has these fields. -/
abbrev Oneof.OptionsView (M' : Type) : Type :=
  M' ≃ ((s : oneof.Options) →
      (Fields.single oneof.field).splitTy (Fields.onlyIndex oneof.field) oneof s) × Unit

/-- The message with an optional field for each of the variants. -/
abbrev Oneof.options {count : Nat} (e : oneof.Options ≃ Fin count) (view : oneof.OptionsView M') :
    Fields M' :=
  (Fields.single oneof.field).split (Fields.onlyIndex oneof.field) oneof e view

/-- What the field for a variant holds. -/
abbrev Oneof.optionValue (view : oneof.OptionsView M') (m' : M') (j : Fin oneof.count) :
    Option (oneof.Ty j) :=
  @Fields.variantValue T M' (Fields.single oneof.field) (Fields.onlyIndex oneof.field) oneof view m' j

/-- The oneof has a variant with a value where the field of this variant has the
value and all other fields are not set. -/
abbrev Oneof.CorrespondsTo (view : oneof.OptionsView M') (value : T) (m' : M') : Prop :=
  @Fields.Corresponds T M' (Fields.single oneof.field) (Fields.onlyIndex oneof.field) oneof view
    value m'

variable {oneof}

theorem Oneof.sound_single (hempty : oneof.tags ≠ []) (hnodup : oneof.tags.Nodup)
    (hlt : ∀ tag ∈ oneof.tags, tag < 2 ^ 32) : (Fields.single oneof.field).Sound where
  tagged _ := hempty
  nodup _ := hnodup
  disjoint := List.pairwise_singleton _ _
  lt _ := hlt

theorem Oneof.built_message {allowed : Features} (hempty : oneof.tags ≠ [])
    (hnodup : oneof.tags.Nodup) (hlt : ∀ tag ∈ oneof.tags, tag < 2 ^ 32)
    (hvariants : ∀ j, Built allowed (.value (oneof.codec j))) :
    Built allowed (.message oneof.message) := by
  rw [oneof.message_eq]
  exact .fields (Oneof.sound_single hempty hnodup hlt) .derived
    (.inr (inferInstanceAs (Subsingleton Unit))) fun _ => .oneof hvariants

theorem Oneof.built_options {allowed : Features} (hempty : oneof.tags ≠ [])
    (hnodup : oneof.tags.Nodup) (hlt : ∀ tag ∈ oneof.tags, tag < 2 ^ 32)
    (hvariants : ∀ j, Built allowed (.value (oneof.codec j))) {count : Nat}
    (e : oneof.Options ≃ Fin count) (view : oneof.OptionsView M') :
    Built allowed (.message ((oneof.options e view).message (Fields.derived _))) := by
  have hfield (s : oneof.Options) : Built allowed (.messageField
      ((Fields.single oneof.field).splitField (Fields.onlyIndex oneof.field) oneof s)) := by
    cases s with
    | inl i => exact .oneof hvariants
    | inr j => exact .tagged _ (.optional (hvariants j))
  exact .fields ((Oneof.sound_single hempty hnodup hlt).split rfl) .derived
    (.inr (inferInstanceAs (Subsingleton Unit))) fun x => hfield (e.symm x)

/-- A oneof that is derived as a message decodes what the message with an
optional field for each variant decodes. Whatever the bytes, it stops because of
two variants, or both return corresponding messages with the same canonicity, or
both stop with an error of the same kind. -/
theorem oneof_message_decodes_as_options (hempty : oneof.tags ≠ []) (hnodup : oneof.tags.Nodup)
    (hlt : ∀ tag ∈ oneof.tags, tag < 2 ^ 32) {count : Nat} (e : oneof.Options ≃ Fin count)
    (view : oneof.OptionsView M') (w : (oneof.options e view).Writing) (way : Way)
    (mode : DecodingMode) (restrictTo : Canonicity) {β : Type} [Buf β] (buf : β) :
    oneof.message.decodeAs way mode restrictTo buf = .error (.error .conflictingFields) ∨
      SameUpTo (fun x y => y.2 = x.2 ∧ oneof.CorrespondsTo view x.1 y.1)
        (oneof.message.decodeAs way mode restrictTo buf)
        (((oneof.options e view).message w).decodeAs way mode restrictTo buf) := by
  rw [oneof.message_eq]
  exact (Oneof.sound_single hempty hnodup hlt).sameUpTo rfl way mode restrictTo buf

/-- Corresponding messages are encoded, and as the same bytes. -/
theorem Oneof.encodeToVec_of_correspondsTo {allowed : Features} (hempty : oneof.tags ≠ [])
    (hnodup : oneof.tags.Nodup) (hlt : ∀ tag ∈ oneof.tags, tag < 2 ^ 32)
    (hallowed : ¬allowed.emptyArrays) (hvariants : ∀ j, Built allowed (.value (oneof.codec j)))
    {count : Nat} (e : oneof.Options ≃ Fin count) {view : oneof.OptionsView M'} {value : T}
    {m' : M'} (hcorr : oneof.CorrespondsTo view value m') :
    ∃ buf, oneof.message.encodeToVec value = some buf ∧
      ((oneof.options e view).message (Fields.derived _)).encodeToVec m' = some buf := by
  have hsame : oneof.message.rawEncode value =
      ((oneof.options e view).message (Fields.derived _)).rawEncode m' := by
    rw [oneof.message_eq]
    exact hcorr.rawEncode (Oneof.sound_single hempty hnodup hlt) rfl .derived .derived
      fun _ => oneof.speaks
  have hwrites : oneof.message.Writes (¬allowed.hashed) :=
    (Oneof.built_message hempty hnodup hlt hvariants).writes hallowed
  have hwrites' : ((oneof.options e view).message (Fields.derived _)).Writes (¬allowed.hashed) :=
    (Oneof.built_options hempty hnodup hlt hvariants e view).writes hallowed
  obtain ⟨records, hwritten⟩ := hwrites value
  refine ⟨_, (hwrites.encodeToVec_eq value).trans hwritten.encode, ?_⟩
  exact (hwrites'.encodeToVec_eq m').trans (hsame.symm.trans hwritten.encode)

end

/-- What is known of relaxed decoding is known of the call that borrows. -/
theorem sameUpTo_decodeBorrowed {M M' : Type} {codec : MessageCodec M} {codec' : MessageCodec M'}
    {stop : Stop} {R : M → M' → Prop} {data : Bytes}
    (h : codec.decodeAs .relaxed .borrowed .notCanonical data = .error stop ∨
      SameUpTo (fun x y => y.2 = x.2 ∧ R x.1 y.1)
        (codec.decodeAs .relaxed .borrowed .notCanonical data)
        (codec'.decodeAs .relaxed .borrowed .notCanonical data)) :
    codec.decodeBorrowed data = .error stop ∨
      SameUpTo R (codec.decodeBorrowed data) (codec'.decodeBorrowed data) := by
  apply h.imp
  · intro hstop
    change (codec.decodeBorrowed data).map _ = .error stop at hstop
    cases hdecode : codec.decodeBorrowed data with
    | error stop' =>
        rw [hdecode] at hstop
        exact congrArg Except.error (Except.error.inj hstop)
    | ok m =>
        rw [hdecode] at hstop
        cases hstop
  · exact fun hsame => (SameUpTo.of_map hsame).mono fun x y hxy => hxy.2

namespace Fuzz

/-- `assert!` -/
def ensure (condition : Bool) : Option Unit := if condition then some () else none

/-- "make sure at most one field is set in the mock struct" -/
def ensureAtMostOne (areSet : List Bool) : Option Unit :=
  ensure ((areSet.filter fun isSet => isSet).length ≤ 1)

section
variable {T M' : Type} (oneof : Oneof T) (mock : MessageCodec M') (areSet : M' → List Bool)

/-- What remains to be asserted where the oneof was not decoded. -/
def ensureSameError {α : Type} (stop : Stop) (mocked : Except Stop α) : Option Unit :=
  if stop = .error .conflictingFields then some ()
  else
    match mocked with
    | .error stop' => ensure (stop' = stop)
    | .ok _ => none

/-- `test_message_via_oneof`. `none` is an assertion that fails, or an encoder
that panics. -/
def testMessageViaOneof (data : Bytes) : Option Unit :=
  match oneof.message.decodeBorrowed data with
  | .error stop => ensureSameError stop (mock.decodeBorrowed data)
  | .ok value =>
      match mock.decodeBorrowed data with
      -- "oneof decoded but mock didn't"
      | .error _ => none
      | .ok mocked => do
          ensureAtMostOne (areSet mocked)
          let buf ← oneof.message.encodeToVec value
          let mockBuf ← mock.encodeToVec mocked
          ensure (buf = mockBuf)
          match oneof.message.decodeDistinguishedBorrowed data with
          | .error stop => ensureSameError stop (mock.decodeDistinguishedBorrowed data)
          | .ok (_, canon) =>
              match mock.decodeDistinguishedBorrowed data with
              -- "oneof decoded distinguished but mock didn't"
              | .error _ => none
              | .ok (mocked, mockCanon) => do
                  ensure (canon = mockCanon)
                  ensureAtMostOne (areSet mocked)

end

theorem ensureSameError_refl {α : Type} (stop : Stop) :
    ensureSameError stop (.error stop : Except Stop α) = some () := by
  simp [ensureSameError, ensure]

theorem ensureSameError_conflict {α : Type} {stop : Stop}
    (h : stop = .error .conflictingFields) (mocked : Except Stop α) :
    ensureSameError stop mocked = some () :=
  if_pos h

/-- Where results are the same up to a conflict, an error needs no more to be
said of it. -/
theorem ensureSameError_or {α δ : Type} {R : α → δ → Prop} {result : Except Stop α}
    {result' : Except Stop δ}
    (h : result = .error (.error .conflictingFields) ∨ SameUpTo R result result') :
    (∃ stop, result = .error stop ∧ ensureSameError stop result' = some ()) ∨
      ∃ x y, result = .ok x ∧ result' = .ok y ∧ R x y := by
  rcases h with hconflict | hsame
  · exact .inl ⟨_, hconflict, ensureSameError_conflict rfl _⟩
  · cases hsame with
    | ok h => exact .inr ⟨_, _, rfl, rfl, h⟩
    | error stop => exact .inl ⟨stop, rfl, ensureSameError_refl stop⟩

/-- Where one of a list is set at most, no more than one is counted. -/
theorem ensureAtMostOne_map {n : Nat} {isSet : Fin n → Bool}
    (h : ∀ j j', isSet j = true → isSet j' = true → j = j') :
    ensureAtMostOne ((List.finRange n).map isSet) = some () := by
  have hnodup : ((List.finRange n).filter isSet).Nodup := (List.nodup_finRange n).filter _
  have hcount : ((List.finRange n).filter isSet).length ≤ 1 := by
    rw [← List.toFinset_card_of_nodup hnodup, Finset.card_le_one]
    intro j hj j' hj'
    rw [List.mem_toFinset, List.mem_filter] at hj hj'
    exact h j j' hj.2 hj'.2
  have hlength : (((List.finRange n).map isSet).filter fun isSet => isSet).length ≤ 1 := by
    rw [List.filter_map, List.length_map]
    exact hcount
  simp [ensureAtMostOne, ensure, hlength]

section
variable {allowed : Features} {T M' : Type} {oneof : Oneof T} {count : Nat}
  {e : oneof.Options ≃ Fin count} {view : oneof.OptionsView M'}

/-- Which of the fields of the mock are set. -/
def areSet (view : oneof.OptionsView M') (m' : M') : List Bool :=
  (List.finRange oneof.count).map fun j => (oneof.optionValue view m' j).isSome

theorem ensureAtMostOne_areSet {value : T} {mocked : M'}
    (hcorr : oneof.CorrespondsTo view value mocked) :
    ensureAtMostOne (areSet view mocked) = some () := by
  apply ensureAtMostOne_map
  intro j j' hj hj'
  exact hcorr.atMostOne j j' (Option.isSome_iff_ne_none.mp hj) (Option.isSome_iff_ne_none.mp hj')

/-- The test of messages that are oneofs never fails, whatever the data: the
message and its mock agree on what is decoded, on errors, on canonicity and on
the encoding, unless there are two variants in the data. -/
theorem message_via_oneof_is_silent (hempty : oneof.tags ≠ []) (hnodup : oneof.tags.Nodup)
    (hlt : ∀ tag ∈ oneof.tags, tag < 2 ^ 32) (hallowed : ¬allowed.emptyArrays)
    (hvariants : ∀ j, Built allowed (.value (oneof.codec j))) (e : oneof.Options ≃ Fin count)
    (view : oneof.OptionsView M') (data : Bytes) :
    testMessageViaOneof oneof ((oneof.options e view).message (Fields.derived _)) (areSet view)
      data = some () := by
  have hcalls (way : Way) :
      oneof.message.decodeAs way .borrowed .notCanonical data =
          .error (.error .conflictingFields) ∨
        SameUpTo (fun x y => y.2 = x.2 ∧ oneof.CorrespondsTo view x.1 y.1)
          (oneof.message.decodeAs way .borrowed .notCanonical data)
          (((oneof.options e view).message (Fields.derived _)).decodeAs way .borrowed .notCanonical
            data) := by
    rw [oneof.message_eq]
    exact (Oneof.sound_single hempty hnodup hlt).sameUpTo rfl way .borrowed .notCanonical data
  unfold testMessageViaOneof
  rcases ensureSameError_or (sameUpTo_decodeBorrowed (hcalls .relaxed)) with
    ⟨stop, hstop, hensure⟩ | ⟨value, mocked, hvalue, hmocked, hcorr⟩
  · rw [hstop]
    exact hensure
  · obtain ⟨buf, hbuf, hbuf'⟩ :=
      Oneof.encodeToVec_of_correspondsTo hempty hnodup hlt hallowed hvariants e hcorr
    rcases ensureSameError_or (hcalls .distinguished) with ⟨stop, hstop, hensure⟩ |
      ⟨⟨value', canon⟩, ⟨mocked', canon'⟩, hvalue', hmocked', rfl, hcorr'⟩
    · change oneof.message.decodeDistinguishedBorrowed data = .error stop at hstop
      simp only [hvalue, hmocked, hbuf, hbuf', hstop, ensureAtMostOne_areSet hcorr, decide_true,
        ensure, if_true, Option.bind_eq_bind, Option.bind_some]
      exact hensure
    · change oneof.message.decodeDistinguishedBorrowed data = _ at hvalue'
      change ((oneof.options e view).message _).decodeDistinguishedBorrowed data = _ at hmocked'
      simp only [hvalue, hmocked, hbuf, hbuf', hvalue', hmocked', ensureAtMostOne_areSet hcorr,
        ensureAtMostOne_areSet hcorr', decide_true, ensure, if_true, Option.bind_eq_bind,
        Option.bind_some]

end

end Fuzz

theorem numberOneof_tags_lt {tag : Nat} (h : tag ∈ numberOneof.tags) : tag < 2 ^ 32 := by
  have hmem : tag = 1 ∨ tag = 2 := List.mem_pair.mp h
  omega

theorem oneof_message_decodes_as_options_number :
    ∃ m' : NumberOptions,
      ((numberOneof.options numberSplit (Equiv.refl NumberOptions)).message
        (Fields.derived _)).decodeAs .distinguished .owned .canonical ([8, 5] : Bytes) =
          .ok (m', .canonical) := by
  have hdecode : numberOneof.message.decodeAs .distinguished .owned .canonical ([8, 5] : Bytes) =
      .ok (some ⟨1, 5⟩, .canonical) := rfl
  have hempty : numberOneof.tags ≠ [] := List.cons_ne_nil 1 [2]
  have hcalls := oneof_message_decodes_as_options hempty (by decide : [1, 2].Nodup)
    (fun _ => numberOneof_tags_lt) numberSplit (Equiv.refl NumberOptions) (Fields.derived _)
    .distinguished .owned .canonical ([8, 5] : Bytes)
  rw [hdecode] at hcalls
  rcases hcalls with hconflict | hsame
  · cases hconflict
  · cases hmock : ((numberOneof.options numberSplit (Equiv.refl NumberOptions)).message
        (Fields.derived _)).decodeAs .distinguished .owned .canonical ([8, 5] : Bytes) with
    | error stop =>
        rw [hmock] at hsame
        cases hsame
    | ok y =>
        rw [hmock] at hsame
        cases hsame with
        | ok h => exact ⟨y.1, congrArg Except.ok (Prod.ext rfl h.1)⟩

theorem Fuzz.message_via_oneof_is_silent_number :
    testMessageViaOneof numberOneof
      ((numberOneof.options numberSplit (Equiv.refl NumberOptions)).message (Fields.derived _))
      (areSet (Equiv.refl NumberOptions)) [4, 5, 4, 6] = some () := by
  have hvariants : ∀ j, Built .structural (.value (numberOneof.codec j)) :=
    fun _ => .scalar (.varint (VarintScalar.lawful_unsigned (by decide)))
  have hempty : numberOneof.tags ≠ [] := List.cons_ne_nil 1 [2]
  exact message_via_oneof_is_silent hempty (by decide : [1, 2].Nodup)
    (fun _ => numberOneof_tags_lt) not_false hvariants numberSplit (Equiv.refl NumberOptions)
    [4, 5, 4, 6]

end Bilrost
