import Bilrost.Guarantees.Interchange

/-!
Unpacked arrays take as many fields as they have items. An array without items
takes none at all, though its field has been found, and what is measured of it
is not what is written.
-/

namespace Bilrost

open Program

section
variable {T : Type}

/-- A run of fields under one tag, seen from behind the first key, with the
values that they hold. -/
structure ArrayRun (item : ValueCodec T) (way : Way) (mode : DecodingMode) (depth : Nat)
    (payloads : List Bytes) (values : List T) (bytes rest : Bytes) : Prop where
  bytes_eq : bytes = Form.unpacked.bytes item.wireType payloads ++ rest
  ne_nil : payloads ≠ []
  noRepeat : NoRepeat rest
  means : List.Forall₂ (fun payload value => ∃ canon,
    item.Means way mode depth payload (value, canon)) payloads values

/-- The values of a field: those of a run, or those in the region of the packed
form. -/
inductive ArrayValues (item : ValueCodec T) (way : Way) (mode : DecodingMode) (depth : Nat)
    (wireType : WireType) (values : List T) (bytes rest : Bytes) : Prop
  | run {payloads : List Bytes} (hwire : item.wireType = wireType)
      (hrun : ArrayRun item way mode depth payloads values bytes rest)
  | packed {payloads : List Bytes} (hcomes : item.comesPacked wireType = true)
      (hbytes : bytes = Form.packed.bytes item.wireType payloads ++ rest)
      (hlt : payloads.flatten.length < 2 ^ 64)
      (hmeans : List.Forall₂ (fun payload value => ∃ canon,
        item.Means .relaxed mode depth payload (value, canon)) payloads values)

/-- What is promised of the fields of unpacked arrays with `n` items. -/
structure ArraysExact (item : ValueCodec T) (state : EmptyState T) (n : Nat) : Prop where
  decodes (way : Way) (mode : DecodingMode) (depth : Nat) (wireType : WireType) {β : Type} [Buf β]
    (buf : β) (decoded : List.Vector T n) (rest : Bytes) :
    (∃ canon, ((item.unpackedArrayField state n).decodeBy way mode depth wireType
        (List.Vector.replicate n item.forOverwrite)).Leaves buf (decoded, canon) rest) ↔
      ArrayValues item way mode depth wireType decoded.toList (Buf.bytes buf) rest
  decodesOption (way : Way) (mode : DecodingMode) (depth : Nat) (wireType : WireType) {β : Type}
    [Buf β] (buf : β) (decoded : Option (List.Vector T n)) (rest : Bytes) :
    (∃ canon, ((item.unpackedArrayOptionField n).decodeBy way mode depth wireType
        none).Leaves buf (decoded, canon) rest) ↔
      ∃ arr, decoded = some arr ∧
        ArrayValues item way mode depth wireType arr.toList (Buf.bytes buf) rest
  encodedLen (tag last : Nat) (hle : last ≤ tag) (value : List.Vector T n) :
    ∃ bytes tw tm, (item.unpackedArrayField state n).encode tag value ⟨last⟩ = some (bytes, tw) ∧
      (item.unpackedArrayField state n).encodedLen tag value (.runtime last) =
        some (bytes.length, tm)
  encodedLenOption (tag last : Nat) (hle : last ≤ tag) (value : Option (List.Vector T n)) :
    ∃ bytes tw tm, (item.unpackedArrayOptionField n).encode tag value ⟨last⟩ = some (bytes, tw) ∧
      (item.unpackedArrayOptionField n).encodedLen tag value (.runtime last) =
        some (bytes.length, tm)
  /-- There is a field for each item, and one at least, so that what is decoded
  from these fields is there too. -/
  emits (tag last : Nat) (hle : last ≤ tag) (arr : List.Vector T n) :
    ∃ payloads ≠ [], arr.toList.map item.encodeValue = payloads.map some ∧
      (item.unpackedArrayOptionField n).encode tag (some arr) ⟨last⟩ =
        some (keyBytes (tag - last) item.wireType ++ Form.unpacked.bytes item.wireType payloads,
          ⟨tag⟩)

variable {item : ValueCodec T} {way : Way} {mode : DecodingMode} {depth : Nat}

/-- A new array is filled with what the payloads mean. -/
theorem fills_replicate {n : Nat} {payloads : List Bytes} {decoded : List.Vector T n} :
    (∃ canon, ValueCodec.Fills (item.Replaces way mode depth)
        (List.Vector.replicate n item.forOverwrite) payloads (decoded, canon)) ↔
      List.Forall₂ (fun payload value => ∃ canon,
        item.Means way mode depth payload (value, canon)) payloads decoded.toList := by
  induction n generalizing payloads with
  | zero =>
      obtain rfl : decoded = List.Vector.nil := List.Vector.eq_nil decoded
      constructor
      · rintro ⟨canon, rfl, -⟩
        exact .nil
      · intro h
        obtain rfl : payloads = [] := List.forall₂_nil_right_iff.mp h
        exact ⟨.canonical, rfl, rfl⟩
  | succ n ih =>
      obtain ⟨v, vs, rfl⟩ := decoded.exists_eq_cons
      rw [List.Vector.toList_cons]
      cases payloads with
      | nil =>
          constructor
          · rintro ⟨canon, h⟩
            exact h.elim
          · rintro ⟨⟩
      | cons payload payloads =>
          rw [List.forall₂_cons, ← ih]
          constructor
          · rintro ⟨canon, first, rest, hfirst, hrest, heq⟩
            have hcons := congrArg Prod.fst heq
            obtain rfl : v = first.1 := congrArg List.Vector.head hcons
            obtain rfl : vs = rest.1 := congrArg List.Vector.tail hcons
            exact ⟨⟨first.2, hfirst⟩, rest.2, hrest⟩
          · rintro ⟨⟨canon, hfirst⟩, canon', hrest⟩
            exact ⟨_, (v, canon), (vs, canon'), hfirst, hrest, rfl⟩

/-- An array with items is decoded from as many values, in either form. -/
theorem ValueCodec.Cuts.parses_arrayValues (h : item.Cuts) {n : Nat} {wireType : WireType}
    {decoded : List.Vector T (n + 1)} {bytes rest : Bytes} :
    (∃ canon, (item.decodeArrayEitherReprBy way mode depth wireType
        (List.Vector.replicate (n + 1) item.forOverwrite)).Parses bytes (decoded, canon) rest) ↔
      ArrayValues item way mode depth wireType decoded.toList bytes rest := by
  rw [ValueCodec.decodeArrayEitherReprBy]
  cases hcomes : item.comesPacked wireType with
  | true =>
      obtain ⟨rfl, hwire⟩ : wireType = .lengthDelimited ∧ item.wireType ≠ .lengthDelimited := by
        simpa [ValueCodec.comesPacked] using hcomes
      have hrelaxed {bytes rest : Bytes} {v arr : List.Vector T (n + 1)} :
          ((item.packedArray (n + 1)).decodeValue mode depth arr).Parses bytes v rest ↔
            ((item.packedArray (n + 1)).decodeBy .relaxed mode true depth arr).Parses bytes
              (v, .canonical) rest := by
        simp [ValueCodec.decodeBy]
      simp only [↓reduceIte, Way.parses_demote, hrelaxed, h.parses_packedArray]
      constructor
      · rintro ⟨canon, ⟨payloads, hlt, rfl, hfills⟩, -⟩
        refine .packed hcomes ?_ hlt (fills_replicate.mp ⟨_, hfills⟩)
        rw [Form.bytes, List.append_assoc]
      · intro hvalues
        cases hvalues with
        | run hrun => exact absurd hrun hwire
        | @packed payloads _ hbytes hlt hmeans =>
            obtain ⟨canon, hfills⟩ := fills_replicate.mpr hmeans
            obtain rfl : canon = .canonical := ValueCodec.fills_relaxed hfills
            rw [Form.bytes, List.append_assoc] at hbytes
            exact ⟨_, ⟨payloads, hlt, hbytes, hfills⟩, rfl⟩
  | false =>
      simp only [Bool.false_eq_true, ↓reduceIte, h.parses_decodeArrayUnpackedOnlyBy]
      constructor
      · rintro ⟨canon, rfl, hstop, payload, payloads, rfl, hfills⟩
        refine .run rfl
          ⟨?_, List.cons_ne_nil payload payloads, hstop, fills_replicate.mp ⟨canon, hfills⟩⟩
        rw [Form.bytes, List.append_assoc]
      · intro hvalues
        cases hvalues with
        | @run payloads hwire hrun =>
            obtain ⟨canon, hfills⟩ := fills_replicate.mpr hrun.means
            obtain ⟨payload, payloads, rfl⟩ := List.exists_cons_of_ne_nil hrun.ne_nil
            have hbytes := hrun.bytes_eq
            rw [Form.bytes, List.append_assoc] at hbytes
            exact ⟨canon, hwire, hrun.noRepeat, payload, payloads, hbytes, hfills⟩
        | packed hpacked => simp [hpacked] at hcomes

/-- What is written under one tag is measured exactly. -/
theorem encodedLen_of_writes {C : Type} {ordered : Prop} {field : FieldCodec C}
    (h : field.Writes ordered) {tag last : Nat} (hle : last ≤ tag) (value : C) :
    ∃ bytes tw tm, field.encode tag value ⟨last⟩ = some (bytes, tw) ∧
      field.encodedLen tag value (.runtime last) = some (bytes.length, tm) := by
  obtain ⟨wireType, payloads, hwritten⟩ := h value
  have hasc : Ascending last (payloads.map (Record.mk tag wireType)) := by
    apply ascending_of_pairwise
    · intro r hr
      obtain ⟨payload, -, rfl⟩ := List.mem_map.mp hr
      exact hle
    · rw [List.pairwise_map]
      exact List.pairwise_of_forall fun _ _ => le_rfl
  exact ⟨_, _, _, (hwritten.encode tag _).trans (encodeRecords_of_ascending hasc),
    (hwritten.encodedLen tag _).trans (recordsLen_of_ascending hasc)⟩

variable {state : EmptyState T} {n : Nat}

/-- With items all of it holds. -/
theorem arraysExact_of_pos {allowed : Features} (hitem : Built allowed (.value item))
    {ordered : Prop} (hwrites : item.Writes ordered) (hn : 0 < n) : ArraysExact item state n := by
  have hcuts : item.Cuts := hitem.cuts
  have hregular : item.Regular := hitem.regular
  obtain ⟨n, rfl⟩ := Nat.exists_eq_add_one_of_ne_zero hn.ne'
  constructor
  · intro way mode depth wireType β _ buf decoded rest
    have hfield := hregular.unpackedArrayField state (n + 1) way mode depth wireType
      (List.Vector.replicate (n + 1) item.forOverwrite)
    simp only [leaves_iff hfield]
    rw [← hcuts.parses_arrayValues]
    simp only [ValueCodec.unpackedArrayField_decodeBy, parses_bind, Way.parses_refuseEmpty]
    constructor
    · rintro ⟨canon, x, mid, hparse, heq, rfl⟩
      obtain ⟨rfl, -⟩ := Prod.ext_iff.mp heq
      exact ⟨x.2, hparse⟩
    · rintro ⟨canon, hparse⟩
      exact ⟨_, (decoded, canon), rest, hparse, rfl, rfl⟩
  · intro way mode depth wireType β _ buf decoded rest
    have hfield := hregular.unpackedArrayOptionField (n + 1) way mode depth wireType none
    simp only [leaves_iff hfield]
    simp only [ValueCodec.unpackedArrayOptionField_decodeBy, parses_bind, parses_done,
      Option.getD_none]
    constructor
    · rintro ⟨canon, x, mid, hparse, heq, rfl⟩
      obtain ⟨rfl, -⟩ := Prod.ext_iff.mp heq
      exact ⟨x.1, rfl, hcuts.parses_arrayValues.mp ⟨x.2, hparse⟩⟩
    · rintro ⟨arr, rfl, hvalues⟩
      obtain ⟨canon, hparse⟩ := hcuts.parses_arrayValues.mpr hvalues
      exact ⟨canon, (arr, canon), rest, hparse, rfl, rfl⟩
  · exact fun tag last hle => encodedLen_of_writes hwrites.unpackedArrayField hle
  · exact fun tag last hle => encodedLen_of_writes (hwrites.unpackedArrayOptionField hn) hle
  · intro tag last hle arr
    obtain ⟨payloads, hmap, -⟩ := hwrites.exists_encodeAll arr.toList
    cases payloads with
    | nil =>
        have hnil := congrArg List.length hmap
        simp at hnil
    | cons payload payloads =>
        refine ⟨payload :: payloads, List.cons_ne_nil _ _, hmap, ?_⟩
        have hfields : (item.unpackedArrayOptionField (n + 1)).encode tag (some arr) ⟨last⟩ =
            TagWriter.encodeRecords ⟨last⟩ ((payload :: payloads).map (Record.mk tag item.wireType)) :=
          ValueCodec.encodeFields_eq hmap _
        rw [hfields, List.map_cons, TagWriter.encodeRecords, encodeKey_of_le hle]
        simp [encodeRecords_repeated, Form.bytes]

/-- The key is not followed by a field that is taken. -/
theorem not_arraysExact_zero (item : ValueCodec T) (hregular : item.Regular)
    (state : EmptyState T) : ¬ArraysExact item state 0 := by
  intro h
  have hfield := hregular.unpackedArrayField state 0 .relaxed .owned 0 item.wireType
    (List.Vector.replicate 0 item.forOverwrite)
  have hparse : (∃ canon, ((item.unpackedArrayField state 0).decodeBy .relaxed .owned 0
      item.wireType (List.Vector.replicate 0 item.forOverwrite)).Leaves ([] : Bytes)
        (List.Vector.nil, canon) []) := by
    refine ⟨.canonical, (leaves_iff hfield).mpr ?_⟩
    rw [ValueCodec.unpackedArrayField_decodeBy, parses_bind]
    exact ⟨(List.Vector.nil, .canonical), [], ValueCodec.parses_decodeArrayEitherReprBy_zero,
      by simp⟩
  have hvalues :=
    (h.decodes .relaxed .owned 0 item.wireType ([] : Bytes) List.Vector.nil []).mp hparse
  cases hvalues with
  | run _ hrun => exact hrun.ne_nil (List.forall₂_nil_right_iff.mp hrun.means)
  | packed hcomes => simp [ValueCodec.comesPacked_wireType] at hcomes

/-- Unpacked arrays of items that are written as what they are measured as are
exact if and only if they have items. -/
theorem arrays_exact_iff {allowed : Features} (hitem : Built allowed (.value item))
    {ordered : Prop} (hwrites : item.Writes ordered) (state : EmptyState T) (n : Nat) :
    ArraysExact item state n ↔ 0 < n := by
  constructor
  · intro h
    by_contra hn
    obtain rfl : n = 0 := by omega
    exact not_arraysExact_zero item hitem.regular state h
  · exact arraysExact_of_pos hitem hwrites

end

/-- An array of three arrays of bytes, which are themselves empty. -/
theorem arrays_exact_three :
    ArraysExact (plainArray 0).codec (EmptyState.single List.Vector.nil) 3 := by
  have hitem : Built .all (.value (plainArray 0).codec) := .scalar (.plainArray 0)
  have hwrites : (plainArray 0).codec.Writes True := (Scalar.Standard.plainArray 0).writes True
  exact (arrays_exact_iff hitem hwrites _ 3).mpr (by decide)

/-- Without items `Some` is measured and not written, so that it comes back as
`None`, and a key on its own is a whole field. -/
theorem arrays_not_exact_zero :
    ¬ArraysExact VarintScalar.bool.scalar.codec (EmptyState.single false) 0 ∧
      ((VarintScalar.bool.scalar.codec.unpackedArrayOptionField 0).derived 32).rawEncode
        (some List.Vector.nil) = some [] ∧
      ((VarintScalar.bool.scalar.codec.unpackedArrayOptionField 0).derived 32).rawEncodedLen
        (some List.Vector.nil) = some 1 ∧
      ((VarintScalar.bool.scalar.codec.unpackedArrayOptionField 0).derived 32).decode
        ([] : Bytes) = .ok none ∧
      ((VarintScalar.bool.scalar.codec.unpackedArrayOptionField 0).derived 1).decode
        ([4] : Bytes) = .ok (some List.Vector.nil) := by
  refine ⟨?_, ?_, ?_, ?_, ?_⟩
  · have hregular : VarintScalar.bool.scalar.codec.Regular :=
      (Scalar.Standard.varint VarintScalar.lawful_bool).regular
    exact not_arraysExact_zero _ hregular _
  · decide +kernel
  · decide +kernel
  · rfl
  · rfl

end Bilrost
