import Bilrost.Schema.Items

/-!
The two forms of a collection on the wire, and what the decoders of either
encoding make of them. The form that is not the encoding's own is read in the
relaxed way and is not canonical.
-/

namespace Bilrost

open Program

namespace Way

/-- What the canonicity of a value in the other form is said to be. -/
def demoted : Way → Canonicity
  | relaxed => .canonical
  | distinguished => .notCanonical

theorem parses_demote {T : Type} {way : Way} {p : Program T} {bytes rest : Bytes}
    {x : T × Canonicity} :
    (way.demote p).Parses bytes x rest ↔ p.Parses bytes x.1 rest ∧ x.2 = way.demoted := by
  cases way with
  | relaxed => exact parses_asCanonical
  | distinguished =>
      simp only [demote, parses_check, parses_bind, parses_done, demoted]
      constructor
      · rintro ⟨value, mid, hvalue, rfl, rfl⟩
        exact ⟨hvalue, rfl⟩
      · rintro ⟨hvalue, hcanon⟩
        exact ⟨x.1, rest, hvalue, Prod.ext rfl hcanon.symm, rfl⟩

theorem parses_refuseEmpty {T : Type} {way : Way} {isEmpty : Bool} {decoded x : T × Canonicity}
    {bytes rest : Bytes} :
    (way.refuseEmpty isEmpty decoded).Parses bytes x rest ↔
      x = (decoded.1, if isEmpty then decoded.2.update way.demoted else decoded.2) ∧
        bytes = rest := by
  cases way <;> cases isEmpty <;> simp [refuseEmpty, demoted, eq_comm]

end Way

/-- How the items of a collection are put on the wire. -/
inductive Form where
  | packed
  | unpacked
  deriving DecidableEq, Repr

/-- Complete payloads are cut off in one way only. -/
theorem WireType.Complete.append_inj {wireType : WireType} {payload payload' rest rest' : Bytes}
    (h : wireType.Complete payload) (h' : wireType.Complete payload')
    (heq : payload ++ rest = payload' ++ rest') : payload = payload' ∧ rest = rest' := by
  have hcut := h.takePayload rest
  rw [heq, h'.takePayload rest'] at hcut
  simpa [eq_comm] using hcut

/-- Payloads that are cut off in one way only can stand one after the other. -/
theorem flatten_inj {P : Bytes → Prop} (hne : ∀ {payload}, P payload → payload ≠ [])
    (hcut : ∀ {payload payload' rest rest'}, P payload → P payload' →
      payload ++ rest = payload' ++ rest' → payload = payload' ∧ rest = rest')
    {payloads payloads' : List Bytes} (h : ∀ payload ∈ payloads, P payload)
    (h' : ∀ payload ∈ payloads', P payload) (heq : payloads.flatten = payloads'.flatten) :
    payloads = payloads' := by
  induction payloads generalizing payloads' with
  | nil =>
      cases payloads' with
      | nil => rfl
      | cons payload' payloads' =>
          have hnil := (List.append_eq_nil_iff.mp heq.symm).1
          exact absurd hnil (hne (h' payload' List.mem_cons_self))
  | cons payload payloads ih =>
      cases payloads' with
      | nil =>
          have hnil := (List.append_eq_nil_iff.mp heq).1
          exact absurd hnil (hne (h payload List.mem_cons_self))
      | cons payload' payloads' =>
          obtain ⟨rfl, hrest⟩ :=
            hcut (h payload List.mem_cons_self) (h' payload' List.mem_cons_self) heq
          rw [ih (fun p hp => h p (List.mem_cons_of_mem _ hp))
            (fun p hp => h' p (List.mem_cons_of_mem _ hp)) hrest]

theorem not_noRepeat_key (wireType : WireType) (bytes : Bytes) :
    ¬NoRepeat (keyBytes 0 wireType ++ bytes) := by
  rw [keyBytes_zero]
  intro h
  have hkey : 4 ≤ (UInt8.ofNat wireType.toU64).toNat := h _ rfl
  revert hkey
  cases wireType <;> decide

/-- Fields under one tag are found in one way only. -/
theorem unpackedPayloads_inj {wireType : WireType} {payloads payloads' : List Bytes}
    {rest rest' : Bytes} (h : ∀ payload ∈ payloads, wireType.Complete payload)
    (h' : ∀ payload ∈ payloads', wireType.Complete payload) (hrest : NoRepeat rest)
    (hrest' : NoRepeat rest')
    (heq : ValueCodec.unpackedPayloads wireType payloads ++ rest =
      ValueCodec.unpackedPayloads wireType payloads' ++ rest') :
    payloads = payloads' ∧ rest = rest' := by
  induction payloads generalizing payloads' with
  | nil =>
      cases payloads' with
      | nil => exact ⟨rfl, heq⟩
      | cons payload' payloads' =>
          have heq : rest = ValueCodec.unpackedPayloads wireType (payload' :: payloads') ++ rest' := heq
          rw [heq, ValueCodec.unpackedPayloads, List.flatMap_cons, List.append_assoc,
            List.append_assoc] at hrest
          exact absurd hrest (not_noRepeat_key _ _)
  | cons payload payloads ih =>
      cases payloads' with
      | nil =>
          have heq : ValueCodec.unpackedPayloads wireType (payload :: payloads) ++ rest = rest' := heq
          rw [← heq, ValueCodec.unpackedPayloads, List.flatMap_cons, List.append_assoc,
            List.append_assoc] at hrest'
          exact absurd hrest' (not_noRepeat_key _ _)
      | cons payload' payloads' =>
          simp only [ValueCodec.unpackedPayloads, List.flatMap_cons, List.append_assoc,
            List.append_cancel_left_eq] at heq
          obtain ⟨rfl, hmore⟩ :=
            (h payload List.mem_cons_self).append_inj (h' payload' List.mem_cons_self) heq
          obtain ⟨rfl, rfl⟩ := ih (fun p hp => h p (List.mem_cons_of_mem _ hp))
            (fun p hp => h' p (List.mem_cons_of_mem _ hp)) hmore
          exact ⟨rfl, rfl⟩

namespace Form

variable {T C : Type}

/-- The wire type in the keys of the form. -/
def wireType (item : WireType) : Form → WireType
  | packed => .lengthDelimited
  | unpacked => item

/-- The bytes of some payloads behind the first key. -/
def bytes (item : WireType) : Form → List Bytes → Bytes
  | packed, payloads => varint payloads.flatten.length ++ payloads.flatten
  | unpacked, [] => []
  | unpacked, payload :: payloads => payload ++ ValueCodec.unpackedPayloads item payloads

/-- The encoding whose own form it is. -/
def field (item : ValueCodec T) (coll : Collection C T) : Form → FieldCodec C
  | packed => item.packedField coll
  | unpacked => item.unpackedField coll

/-- What can be put on the wire in the form, and be told from what follows. In
the unpacked form there is no field without an item. -/
structure Fits (form : Form) (item : WireType) (payloads : List Bytes) (next : Bytes) : Prop where
  complete : ∀ payload ∈ payloads, item.Complete payload
  length_lt : form = packed → payloads.flatten.length < 2 ^ 64
  ne_nil : form = unpacked → payloads ≠ []
  next : form = unpacked → NoRepeat next

section
variable {item : ValueCodec T} {coll : Collection C T} {way : Way} {mode : DecodingMode}
  {depth : Nat} {payloads : List Bytes} {next rest : Bytes} {value : C} {x : C × Canonicity}

theorem Fits.parses_packed (h : Fits .packed item.wireType payloads next) (hitem : item.Cuts)
    {allowEmpty : Bool} :
    ((item.packed coll).decodeBy way mode allowEmpty depth value).Parses
        (bytes item.wireType .packed payloads ++ next) x rest ↔
      rest = next ∧ Rounds (item.Takes coll way mode depth) (value, .canonical) payloads x := by
  rw [hitem.parses_packed, bytes, List.append_assoc]
  constructor
  · rintro ⟨payloads', hlt, heq, hrounds⟩
    have hdelimited := parseDelimited_append hlt rest
    rw [← heq, parseDelimited_append (h.length_lt rfl) next] at hdelimited
    obtain ⟨hflat, rfl⟩ : payloads.flatten = payloads'.flatten ∧ next = rest := by
      simpa using hdelimited
    obtain rfl := flatten_inj WireType.Complete.ne_nil WireType.Complete.append_inj h.complete
      (hitem.complete_of_rounds hrounds) hflat
    exact ⟨rfl, hrounds⟩
  · rintro ⟨rfl, hrounds⟩
    exact ⟨payloads, h.length_lt rfl, rfl, hrounds⟩

theorem Fits.parses_unpacked (h : Fits .unpacked item.wireType payloads next) (hitem : item.Cuts) :
    (item.decodeUnpackedBy coll way mode depth item.wireType value).Parses
        (bytes item.wireType .unpacked payloads ++ next) x rest ↔
      rest = next ∧ Rounds (item.Takes coll way mode depth) (value, .canonical) payloads x := by
  obtain ⟨payload, payloads, rfl⟩ := List.exists_cons_of_ne_nil (h.ne_nil rfl)
  rw [hitem.parses_decodeUnpackedBy, bytes, List.append_assoc]
  constructor
  · rintro ⟨-, hstop, payload', payloads', heq, hrounds⟩
    have hcomplete := hitem.complete_of_rounds hrounds
    obtain ⟨rfl, hmore⟩ := (h.complete payload List.mem_cons_self).append_inj
      (hcomplete payload' List.mem_cons_self) heq
    obtain ⟨rfl, rfl⟩ := unpackedPayloads_inj
      (fun p hp => h.complete p (List.mem_cons_of_mem _ hp))
      (fun p hp => hcomplete p (List.mem_cons_of_mem _ hp)) (h.next rfl) hstop hmore
    exact ⟨rfl, hrounds⟩
  · rintro ⟨rfl, hrounds⟩
    exact ⟨rfl, h.next rfl, payload, payloads, rfl, hrounds⟩

/-- In its own form a collection is decoded item by item. Packed and without
items it is not canonical. -/
theorem Fits.parses_own {form : Form} (h : form.Fits item.wireType payloads next)
    (hitem : item.Cuts) :
    ((form.field item coll).decodeBy way mode depth (form.wireType item.wireType) value).Parses
        (form.bytes item.wireType payloads ++ next) x rest ↔
      rest = next ∧ ∃ decoded,
        Rounds (item.Takes coll way mode depth) (value, .canonical) payloads decoded ∧
        x = (decoded.1, if form = packed ∧ coll.isEmpty decoded.1 then
          decoded.2.update way.demoted else decoded.2) := by
  cases form with
  | packed =>
      simp only [field, wireType, ValueCodec.packedField_decodeBy, ↓reduceIte, parses_bind,
        h.parses_packed hitem, Way.parses_refuseEmpty, true_and]
      constructor
      · rintro ⟨decoded, mid, ⟨rfl, hrounds⟩, rfl, rfl⟩
        exact ⟨rfl, decoded, hrounds, rfl⟩
      · rintro ⟨rfl, decoded, hrounds, rfl⟩
        exact ⟨decoded, rest, ⟨rfl, hrounds⟩, rfl, rfl⟩
  | unpacked =>
      have hcomes : item.comesPacked item.wireType = false := by
        simp [ValueCodec.comesPacked]
      simp only [field, wireType, ValueCodec.unpackedField_decodeBy, hcomes, Bool.false_eq_true,
        ↓reduceIte, h.parses_unpacked hitem, reduceCtorEq, false_and, exists_eq_right', Prod.mk.eta]

/-- In the other form it is decoded in the relaxed way. -/
theorem Fits.parses_other {own form : Form} (h : form.Fits item.wireType payloads next)
    (hitem : item.Cuts) (hne : form ≠ own) (hwire : item.wireType ≠ .lengthDelimited) :
    ((own.field item coll).decodeBy way mode depth (form.wireType item.wireType) value).Parses
        (form.bytes item.wireType payloads ++ next) x rest ↔
      rest = next ∧ x.2 = way.demoted ∧
        Rounds (item.Takes coll .relaxed mode depth) (value, .canonical) payloads (x.1, .canonical) := by
  cases own with
  | packed =>
      cases form with
      | packed => exact absurd rfl hne
      | unpacked =>
          have hrelaxed {bytes rest : Bytes} {v : C} :
              (item.decodeUnpacked coll mode depth item.wireType value).Parses bytes v rest ↔
                (item.decodeUnpackedBy coll .relaxed mode depth item.wireType value).Parses bytes
                  (v, .canonical) rest := by
            simp [ValueCodec.decodeUnpackedBy_relaxed]
          simp only [field, wireType, ValueCodec.packedField_decodeBy, if_neg hwire,
            Way.parses_demote, hrelaxed, h.parses_unpacked hitem]
          tauto
  | unpacked =>
      cases form with
      | unpacked => exact absurd rfl hne
      | packed =>
          have hcomes : item.comesPacked .lengthDelimited = true := by
            simp [ValueCodec.comesPacked, hwire]
          have hrelaxed {bytes rest : Bytes} {v : C} :
              ((item.packed coll).decodeValue mode depth value).Parses bytes v rest ↔
                ((item.packed coll).decodeBy .relaxed mode true depth value).Parses bytes
                  (v, .canonical) rest := by
            simp [ValueCodec.decodeBy]
          simp only [field, wireType, ValueCodec.unpackedField_decodeBy, hcomes, ↓reduceIte,
            Way.parses_demote, hrelaxed, h.parses_packed hitem]
          tauto

end

end Form

end Bilrost
