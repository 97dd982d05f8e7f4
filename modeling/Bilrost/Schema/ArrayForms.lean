import Bilrost.Schema.Forms

/-!
What arrays are decoded from. In either form there are as many payloads as
there are items, and each of them is decoded in the place of its item.
-/

namespace Bilrost

open Program

namespace ValueCodec

variable {T : Type}

/-- Payloads that are decoded into the items of an array, one each. -/
def Fills (means : T → Bytes → T × Canonicity → Prop) :
    {n : Nat} → List.Vector T n → List Bytes → List.Vector T n × Canonicity → Prop
  | 0, arr, payloads, x => payloads = [] ∧ x = (arr, .canonical)
  | _ + 1, _, [], _ => False
  | _ + 1, arr, payload :: payloads, x => ∃ item rest, means arr.head payload item ∧
      Fills means arr.tail payloads rest ∧ x = (item.1 ::ᵥ rest.1, item.2.update rest.2)

theorem Fills.length {means : T → Bytes → T × Canonicity → Prop} {n : Nat}
    {arr : List.Vector T n} {payloads : List Bytes} {x : List.Vector T n × Canonicity}
    (h : Fills means arr payloads x) : payloads.length = n := by
  induction n generalizing payloads with
  | zero =>
      obtain ⟨rfl, -⟩ := h
      rfl
  | succ n ih =>
      cases payloads with
      | nil => exact h.elim
      | cons payload payloads =>
          obtain ⟨item, rest, -, hrest, -⟩ := h
          rw [List.length_cons, ih hrest]

theorem Fills.forall_mem {means : T → Bytes → T × Canonicity → Prop} {P : Bytes → Prop} {n : Nat}
    {arr : List.Vector T n} {payloads : List Bytes} {x : List.Vector T n × Canonicity}
    (h : Fills means arr payloads x) (hP : ∀ {dest payload item}, means dest payload item → P payload) :
    ∀ payload ∈ payloads, P payload := by
  induction n generalizing payloads with
  | zero =>
      obtain ⟨rfl, -⟩ := h
      simp
  | succ n ih =>
      cases payloads with
      | nil => exact h.elim
      | cons payload payloads =>
          obtain ⟨item, rest, hitem, hrest, -⟩ := h
          rw [List.forall_mem_cons]
          exact ⟨hP hitem, ih hrest⟩

/-- Items that each take a payload, which may have something in front. -/
theorem parses_decodeEach {decode : T → Program (T × Canonicity)} {frame : Bytes → Bytes}
    {means : T → Bytes → T × Canonicity → Prop}
    (hdecode : ∀ dest bytes x rest, (decode dest).Parses bytes x rest ↔
      ∃ payload, bytes = frame payload ++ rest ∧ means dest payload x)
    {n : Nat} {arr : List.Vector T n} {bytes rest : Bytes} {x : List.Vector T n × Canonicity} :
    (decodeEachDistinguished decode arr).Parses bytes x rest ↔
      ∃ payloads : List Bytes, bytes = payloads.flatMap frame ++ rest ∧ Fills means arr payloads x := by
  induction n generalizing bytes rest with
  | zero =>
      rw [decodeEachDistinguished, parses_done]
      constructor
      · rintro ⟨rfl, rfl⟩
        exact ⟨[], rfl, rfl, rfl⟩
      · rintro ⟨payloads, hbytes, rfl, rfl⟩
        exact ⟨rfl, hbytes⟩
  | succ n ih =>
      simp only [decodeEachDistinguished, Program.bind_eq, parses_bind, parses_done, hdecode, ih]
      constructor
      · rintro ⟨item, mid, ⟨payload, rfl, hitem⟩, items, left, ⟨payloads, rfl, hitems⟩, rfl, rfl⟩
        refine ⟨payload :: payloads, ?_, item, items, hitem, hitems, rfl⟩
        rw [List.flatMap_cons, List.append_assoc]
      · rintro ⟨payloads, rfl, hfills⟩
        cases payloads with
        | nil => exact hfills.elim
        | cons payload payloads =>
            obtain ⟨item, items, hitem, hitems, rfl⟩ := hfills
            refine ⟨item, _, ⟨payload, ?_, hitem⟩, items, rest, ⟨payloads, rfl, hitems⟩, rfl, rfl⟩
            rw [List.flatMap_cons, List.append_assoc]

variable {item : ValueCodec T} {way : Way} {mode : DecodingMode} {depth : Nat}

/-- What a payload makes of an item. -/
def Replaces (item : ValueCodec T) (way : Way) (mode : DecodingMode) (depth : Nat) (dest : T)
    (payload : Bytes) (x : T × Canonicity) : Prop :=
  (item.decodeBy way mode true depth dest).Parses payload x []

theorem parses_anotherItem {bytes rest : Bytes} {x : Unit} :
    item.anotherItem.Parses bytes x rest ↔
      (item.wireType.fixedSize = none → bytes ≠ []) ∧ bytes = rest := by
  rw [anotherItem]
  cases hsize : item.wireType.fixedSize with
  | none =>
      simp only [Option.isNone_none, ↓reduceIte, parses_op, Op.parse, Option.some.injEq,
        Prod.mk.injEq, forall_const]
      constructor
      · rintro ⟨more, mid, ⟨rfl, rfl⟩, hnext⟩
        by_cases hnil : bytes = []
        · simp [hnil] at hnext
        · exact ⟨hnil, by simpa [hnil] using hnext⟩
      · rintro ⟨hne, rfl⟩
        exact ⟨true, bytes, ⟨by simp [hne], rfl⟩, by simp⟩
  | some size => simp

theorem parses_noMoreItems {bytes rest : Bytes} {x : Unit} :
    item.noMoreItems.Parses bytes x rest ↔
      (item.wireType.fixedSize = none → bytes = []) ∧ bytes = rest := by
  rw [noMoreItems]
  cases hsize : item.wireType.fixedSize with
  | none =>
      simp only [Option.isNone_none, ↓reduceIte, parses_op, Op.parse, Option.some.injEq,
        Prod.mk.injEq, forall_const]
      constructor
      · rintro ⟨more, mid, ⟨rfl, rfl⟩, hnext⟩
        by_cases hnil : bytes = []
        · exact ⟨hnil, by simpa [hnil] using hnext⟩
        · simp [hnil] at hnext
      · rintro ⟨hnil, rfl⟩
        exact ⟨false, bytes, ⟨by simp [hnil], rfl⟩, by simp⟩
  | some size => simp

theorem parses_noMoreFields {bytes rest : Bytes} {x : Unit} :
    noMoreFields.Parses bytes x rest ↔ NoRepeat bytes ∧ bytes = rest := by
  rw [noMoreFields]
  cases bytes with
  | nil =>
      simp [Op.parse, NoRepeat]
  | cons key bytes =>
      by_cases hkey : 4 ≤ key.toNat
      · simp [Op.parse, NoRepeat, hkey]
      · simp [Op.parse, NoRepeat, hkey]

theorem parses_nextField {bytes rest : Bytes} {x : Unit} :
    item.nextField.Parses bytes x rest ↔ bytes = keyBytes 0 item.wireType ++ rest := by
  have hlt := item.wireType.toU64_lt
  have hkey : (UInt8.ofNat item.wireType.toU64).toNat = item.wireType.toU64 := by
    cases item.wireType <;> rfl
  rw [nextField, keyBytes_zero]
  cases bytes with
  | nil => simp [Op.parse]
  | cons key bytes =>
      by_cases hrepeat : 4 ≤ key.toNat
      · simp only [parses_op, Op.parse, if_pos hrepeat, Option.some.injEq, Prod.mk.injEq,
          List.singleton_append, List.cons.injEq]
        constructor
        · rintro ⟨next, mid, ⟨rfl, -⟩, herror⟩
          exact (parses_error.mp herror).elim
        · rintro ⟨rfl, -⟩
          omega
      · have hbyte : item.wireType = WireType.fromU8 key.toNat ↔
            key = UInt8.ofNat item.wireType.toU64 := by
          constructor
          · intro hwire
            apply UInt8.toNat_inj.mp
            rw [hkey, hwire, WireType.toU64_fromU8]
            omega
          · rintro rfl
            rw [hkey, WireType.fromU8_toU64]
        simp only [parses_op, Op.parse, if_neg hrepeat, Option.some.injEq, Prod.mk.injEq,
          List.singleton_append, List.cons.injEq, ← hbyte]
        constructor
        · rintro ⟨next, mid, ⟨rfl, rfl⟩, hnext⟩
          exact parses_checkWireType.mp hnext
        · rintro ⟨hwire, rfl⟩
          exact ⟨_, bytes, ⟨rfl, rfl⟩, parses_checkWireType.mpr ⟨hwire, rfl⟩⟩

/-- The items of an array in a region. -/
theorem Cuts.parses_eachPacked (h : item.Cuts) {n : Nat} {arr : List.Vector T n}
    {bytes rest : Bytes} {x : List.Vector T n × Canonicity} :
    (decodeEachDistinguished (fun dest => item.anotherItem.bind fun _ =>
        item.decodeBy way mode true depth dest) arr).Parses bytes x rest ↔
      ∃ payloads : List Bytes, bytes = payloads.flatten ++ rest ∧
        Fills (item.Replaces way mode depth) arr payloads x := by
  have hflatten (payloads : List Bytes) : payloads.flatten = payloads.flatMap id := by simp
  simp only [hflatten]
  apply parses_decodeEach
  intro dest bytes x rest
  have hlocal := h.isLocal way mode true depth dest
  simp only [parses_bind, parses_anotherItem, id]
  constructor
  · rintro ⟨u, mid, ⟨-, rfl⟩, hitem⟩
    exact hlocal.iff.mp hitem
  · rintro ⟨payload, rfl, hpayload⟩
    refine ⟨(), _, ⟨fun _ hnil => ?_, rfl⟩, hlocal.append hpayload rest⟩
    exact (h.complete hpayload).ne_nil (List.append_eq_nil_iff.mp hnil).1

/-- The items of an array that have keys of their own. -/
theorem Cuts.parses_eachUnpacked (h : item.Cuts) {n : Nat} {arr : List.Vector T n}
    {bytes rest : Bytes} {x : List.Vector T n × Canonicity} :
    (decodeEachDistinguished (fun dest => item.nextField.bind fun _ =>
        item.decodeBy way mode true depth dest) arr).Parses bytes x rest ↔
      ∃ payloads : List Bytes, bytes = unpackedPayloads item.wireType payloads ++ rest ∧
        Fills (item.Replaces way mode depth) arr payloads x := by
  apply parses_decodeEach
  intro dest bytes x rest
  have hlocal := h.isLocal way mode true depth dest
  simp only [parses_bind, parses_nextField]
  constructor
  · rintro ⟨u, mid, rfl, hitem⟩
    obtain ⟨payload, rfl, hpayload⟩ := hlocal.iff.mp hitem
    exact ⟨payload, (List.append_assoc ..).symm, hpayload⟩
  · rintro ⟨payload, rfl, hpayload⟩
    exact ⟨(), payload ++ rest, List.append_assoc .., hlocal.append hpayload rest⟩

theorem Cuts.complete_of_fills (h : item.Cuts) {n : Nat} {arr : List.Vector T n}
    {payloads : List Bytes} {x : List.Vector T n × Canonicity}
    (hfills : Fills (item.Replaces way mode depth) arr payloads x) :
    ∀ payload ∈ payloads, item.wireType.Complete payload :=
  hfills.forall_mem h.complete

theorem fills_relaxed {n : Nat} {arr : List.Vector T n} {payloads : List Bytes}
    {x : List.Vector T n × Canonicity}
    (hfills : Fills (item.Replaces .relaxed mode depth) arr payloads x) : x.2 = .canonical := by
  induction n generalizing payloads with
  | zero =>
      obtain ⟨-, rfl⟩ := hfills
      rfl
  | succ n ih =>
      cases payloads with
      | nil => exact hfills.elim
      | cons payload payloads =>
          obtain ⟨first, rest, hfirst, hrest, rfl⟩ := hfills
          rw [Replaces, decodeBy, parses_asCanonical] at hfirst
          simp [hfirst.2, ih hrest]

/-- Items of a fixed size have the size of a region. -/
theorem Cuts.missizes_fills (h : item.Cuts) {n : Nat} {arr : List.Vector T n}
    {payloads : List Bytes} {x : List.Vector T n × Canonicity}
    (hfills : Fills (item.Replaces way mode depth) arr payloads x) :
    item.missizes n payloads.flatten.length = false := by
  unfold missizes
  cases hsize : item.wireType.fixedSize with
  | none => rfl
  | some size =>
      have hlength := flatten_length fun payload hpayload =>
        (h.complete_of_fills hfills payload hpayload).length hsize
      simp [hlength, hfills.length, Nat.mul_comm]

/-- A packed array. -/
theorem Cuts.parses_packedArray (h : item.Cuts) {n : Nat} {allowEmpty : Bool}
    {arr : List.Vector T n} {bytes rest : Bytes} {x : List.Vector T n × Canonicity} :
    ((item.packedArray n).decodeBy way mode allowEmpty depth arr).Parses bytes x rest ↔
      ∃ payloads : List Bytes, payloads.flatten.length < 2 ^ 64 ∧
        bytes = varint payloads.flatten.length ++ (payloads.flatten ++ rest) ∧
        Fills (item.Replaces way mode depth) arr payloads x := by
  rw [(item.packedArray_decodeBy way mode allowEmpty depth arr).parses, parses_delimited]
  constructor
  · rintro ⟨content, hlt, rfl, hinner⟩
    split_ifs at hinner
    · exact (parses_error.mp hinner).elim
    · simp only [parses_bind, h.parses_eachPacked, parses_noMoreItems, parses_done] at hinner
      obtain ⟨decoded, mid, ⟨payloads, rfl, hfills⟩, u, left, ⟨-, rfl⟩, rfl, rfl⟩ := hinner
      simp only [List.append_nil] at hlt ⊢
      exact ⟨payloads, hlt, rfl, hfills⟩
  · rintro ⟨payloads, hlt, rfl, hfills⟩
    refine ⟨payloads.flatten, hlt, rfl, ?_⟩
    rw [h.missizes_fills hfills]
    simp only [Bool.false_eq_true, ↓reduceIte, parses_bind, h.parses_eachPacked, parses_noMoreItems,
      parses_done]
    exact ⟨x, [], ⟨payloads, (List.append_nil _).symm, hfills⟩, (), [], ⟨fun _ => rfl, rfl⟩, rfl, rfl⟩

/-- The fields of an array with items, after the first key. -/
theorem Cuts.parses_decodeArrayUnpackedOnlyBy (h : item.Cuts) {n : Nat} {wireType : WireType}
    {arr : List.Vector T (n + 1)} {bytes rest : Bytes} {x : List.Vector T (n + 1) × Canonicity} :
    (item.decodeArrayUnpackedOnlyBy way mode depth wireType arr).Parses bytes x rest ↔
      item.wireType = wireType ∧ NoRepeat rest ∧ ∃ payload payloads,
        bytes = payload ++ (unpackedPayloads item.wireType payloads ++ rest) ∧
        Fills (item.Replaces way mode depth) arr (payload :: payloads) x := by
  simp only [decodeArrayUnpackedOnlyBy, decodeArrayFieldsBy, decodeArrayFieldsDistinguished,
    Program.bind_eq, parses_bind, parses_checkWireType, h.parses_eachUnpacked, parses_done,
    parses_noMoreFields]
  have hlocal := h.isLocal way mode true depth arr.head
  constructor
  · rintro ⟨u, mid, ⟨hwire, rfl⟩, decoded, left, ⟨first, mid', hfirst, items, left',
      ⟨payloads, rfl, hitems⟩, rfl, rfl⟩, u', left'', ⟨hstop, rfl⟩, rfl, rfl⟩
    obtain ⟨payload, rfl, hpayload⟩ := hlocal.iff.mp hfirst
    exact ⟨hwire, hstop, payload, payloads, rfl, first, items, hpayload, hitems, rfl⟩
  · rintro ⟨hwire, hstop, payload, payloads, rfl, first, items, hpayload, hitems, rfl⟩
    exact ⟨(), _, ⟨hwire, rfl⟩, _, rest, ⟨first, _, hlocal.append hpayload _, items, rest,
      ⟨payloads, rfl, hitems⟩, rfl, rfl⟩, (), rest, ⟨hstop, rfl⟩, rfl, rfl⟩

/-- Without items nothing is taken behind the key. -/
theorem parses_decodeArrayUnpackedOnlyBy_zero {arr : List.Vector T 0} :
    (item.decodeArrayUnpackedOnlyBy way mode depth item.wireType arr).Parses []
      (arr, .canonical) [] := by
  simp only [decodeArrayUnpackedOnlyBy, decodeArrayFieldsBy, decodeArrayFieldsDistinguished,
    parses_bind, parses_checkWireType, parses_done, parses_noMoreFields]
  have hstop : NoRepeat [] := by
    rintro key ⟨⟩
  exact ⟨(), [], ⟨trivial, rfl⟩, _, [], ⟨rfl, rfl⟩, (), [], ⟨hstop, rfl⟩, rfl, rfl⟩

theorem comesPacked_wireType (item : ValueCodec T) : item.comesPacked item.wireType = false := by
  simp [comesPacked]

theorem parses_decodeArrayEitherReprBy_zero {arr : List.Vector T 0} :
    (item.decodeArrayEitherReprBy way mode depth item.wireType arr).Parses []
      (arr, .canonical) [] := by
  rw [decodeArrayEitherReprBy, comesPacked_wireType, if_neg Bool.false_ne_true]
  exact parses_decodeArrayUnpackedOnlyBy_zero

end ValueCodec

namespace Form

variable {T : Type} {item : ValueCodec T} {state : EmptyState T} {way : Way} {mode : DecodingMode}
  {depth n : Nat} {payloads : List Bytes} {next rest : Bytes}

/-- The encoding of arrays whose own form it is. -/
def arrayField (item : ValueCodec T) (state : EmptyState T) (n : Nat) :
    Form → FieldCodec (List.Vector T n)
  | packed => item.packedArrayField state n
  | unpacked => item.unpackedArrayField state n

theorem Fits.parses_packedArray (h : Fits .packed item.wireType payloads next) (hitem : item.Cuts)
    {allowEmpty : Bool} {arr : List.Vector T n} {x : List.Vector T n × Canonicity} :
    ((item.packedArray n).decodeBy way mode allowEmpty depth arr).Parses
        (bytes item.wireType .packed payloads ++ next) x rest ↔
      rest = next ∧ ValueCodec.Fills (item.Replaces way mode depth) arr payloads x := by
  rw [hitem.parses_packedArray, bytes, List.append_assoc]
  constructor
  · rintro ⟨payloads', hlt, heq, hfills⟩
    have hdelimited := parseDelimited_append hlt rest
    rw [← heq, parseDelimited_append (h.length_lt rfl) next] at hdelimited
    obtain ⟨hflat, rfl⟩ : payloads.flatten = payloads'.flatten ∧ next = rest := by
      simpa using hdelimited
    obtain rfl := flatten_inj WireType.Complete.ne_nil WireType.Complete.append_inj h.complete
      (hitem.complete_of_fills hfills) hflat
    exact ⟨rfl, hfills⟩
  · rintro ⟨rfl, hfills⟩
    exact ⟨payloads, h.length_lt rfl, rfl, hfills⟩

theorem Fits.parses_unpackedArray (h : Fits .unpacked item.wireType payloads next)
    (hitem : item.Cuts) {arr : List.Vector T (n + 1)} {x : List.Vector T (n + 1) × Canonicity} :
    (item.decodeArrayUnpackedOnlyBy way mode depth item.wireType arr).Parses
        (bytes item.wireType .unpacked payloads ++ next) x rest ↔
      rest = next ∧ ValueCodec.Fills (item.Replaces way mode depth) arr payloads x := by
  obtain ⟨payload, payloads, rfl⟩ := List.exists_cons_of_ne_nil (h.ne_nil rfl)
  rw [hitem.parses_decodeArrayUnpackedOnlyBy, bytes, List.append_assoc]
  constructor
  · rintro ⟨-, hstop, payload', payloads', heq, hfills⟩
    have hcomplete := hitem.complete_of_fills hfills
    obtain ⟨rfl, hmore⟩ := (h.complete payload List.mem_cons_self).append_inj
      (hcomplete payload' List.mem_cons_self) heq
    obtain ⟨rfl, rfl⟩ := unpackedPayloads_inj
      (fun p hp => h.complete p (List.mem_cons_of_mem _ hp))
      (fun p hp => hcomplete p (List.mem_cons_of_mem _ hp)) (h.next rfl) hstop hmore
    exact ⟨rfl, hfills⟩
  · rintro ⟨rfl, hfills⟩
    exact ⟨rfl, h.next rfl, payload, payloads, rfl, hfills⟩

/-- An array in its own form. One whose items are all empty is not canonical. -/
theorem Fits.parses_ownArray {form : Form} (h : form.Fits item.wireType payloads next)
    (hitem : item.Cuts) {arr : List.Vector T (n + 1)} {x : List.Vector T (n + 1) × Canonicity} :
    ((form.arrayField item state (n + 1)).decodeBy way mode depth (form.wireType item.wireType)
        arr).Parses (form.bytes item.wireType payloads ++ next) x rest ↔
      rest = next ∧ ∃ decoded,
        ValueCodec.Fills (item.Replaces way mode depth) arr payloads decoded ∧
        x = (decoded.1, if (state.array (n + 1)).isEmpty decoded.1 then
          decoded.2.update way.demoted else decoded.2) := by
  cases form with
  | packed =>
      simp only [arrayField, wireType, ValueCodec.packedArrayField_decodeBy, ↓reduceIte,
        parses_bind, h.parses_packedArray hitem, Way.parses_refuseEmpty]
      constructor
      · rintro ⟨decoded, mid, ⟨rfl, hfills⟩, rfl, rfl⟩
        exact ⟨rfl, decoded, hfills, rfl⟩
      · rintro ⟨rfl, decoded, hfills, rfl⟩
        exact ⟨decoded, rest, ⟨rfl, hfills⟩, rfl, rfl⟩
  | unpacked =>
      simp only [arrayField, wireType, ValueCodec.unpackedArrayField_decodeBy,
        ValueCodec.decodeArrayEitherReprBy, ValueCodec.comesPacked_wireType, Bool.false_eq_true,
        ↓reduceIte, parses_bind, h.parses_unpackedArray hitem, Way.parses_refuseEmpty]
      constructor
      · rintro ⟨decoded, mid, ⟨rfl, hfills⟩, rfl, rfl⟩
        exact ⟨rfl, decoded, hfills, rfl⟩
      · rintro ⟨rfl, decoded, hfills, rfl⟩
        exact ⟨decoded, rest, ⟨rfl, hfills⟩, rfl, rfl⟩

/-- In the other form it is decoded in the relaxed way. -/
theorem Fits.parses_otherArray {own form : Form} (h : form.Fits item.wireType payloads next)
    (hitem : item.Cuts) (hne : form ≠ own) (hwire : item.wireType ≠ .lengthDelimited)
    {arr : List.Vector T (n + 1)} {x : List.Vector T (n + 1) × Canonicity} :
    ((own.arrayField item state (n + 1)).decodeBy way mode depth (form.wireType item.wireType)
        arr).Parses (form.bytes item.wireType payloads ++ next) x rest ↔
      rest = next ∧ x.2 = way.demoted ∧
        ValueCodec.Fills (item.Replaces .relaxed mode depth) arr payloads (x.1, .canonical) := by
  cases own with
  | packed =>
      cases form with
      | packed => exact absurd rfl hne
      | unpacked =>
          have hrelaxed {bytes rest : Bytes} {v : List.Vector T (n + 1)} :
              (item.decodeArrayUnpackedOnly mode depth item.wireType arr).Parses bytes v rest ↔
                (item.decodeArrayUnpackedOnlyBy .relaxed mode depth item.wireType arr).Parses bytes
                  (v, .canonical) rest := by
            simp [ValueCodec.decodeArrayUnpackedOnlyBy_relaxed]
          simp only [arrayField, wireType, ValueCodec.packedArrayField_decodeBy, if_neg hwire,
            Way.parses_demote, hrelaxed, h.parses_unpackedArray hitem]
          tauto
  | unpacked =>
      cases form with
      | unpacked => exact absurd rfl hne
      | packed =>
          have hcomes : item.comesPacked .lengthDelimited = true := by
            simp [ValueCodec.comesPacked, hwire]
          have hrelaxed {bytes rest : Bytes} {v : List.Vector T (n + 1)} :
              ((item.packedArray (n + 1)).decodeValue mode depth arr).Parses bytes v rest ↔
                ((item.packedArray (n + 1)).decodeBy .relaxed mode true depth arr).Parses bytes
                  (v, .canonical) rest := by
            simp [ValueCodec.decodeBy]
          simp only [arrayField, wireType, ValueCodec.unpackedArrayField_decodeBy,
            ValueCodec.decodeArrayEitherReprBy, hcomes, ↓reduceIte, parses_bind,
            Way.parses_demote, hrelaxed, h.parses_packedArray hitem, Way.parses_refuseEmpty]
          constructor
          · rintro ⟨decoded, mid, ⟨⟨rfl, hfills⟩, hcanon⟩, rfl, rfl⟩
            refine ⟨rfl, ?_, hfills⟩
            simp only [hcanon]
            cases way <;> simp [Way.demoted]
          · rintro ⟨rfl, hcanon, hfills⟩
            refine ⟨x, rest, ⟨⟨rfl, hfills⟩, hcanon⟩, ?_, rfl⟩
            refine Prod.ext rfl ?_
            simp only [hcanon]
            cases way <;> simp [Way.demoted]

end Form

end Bilrost
