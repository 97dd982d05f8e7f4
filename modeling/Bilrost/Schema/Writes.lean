import Bilrost.Schema.Emptiness
import Bilrost.Decode.Payload
import Bilrost.Wire.Records

/-!
What is written. Every value is encoded as one complete payload and every field
as records, one after the other; what is prepended are the same bytes, and what
is measured is how many there are. Collections without an order are prepended
in another order than they are encoded in, so `ordered` stands for there being
none.
-/

namespace Bilrost

/-- What is encoded of a value, one after the other with other values. -/
structure ValueCodec.Puts {T : Type} (ordered : Prop) (codec : ValueCodec T) : Prop where
  encode (value : T) : ∃ bytes, codec.encodeValue value = some bytes
  prepend {value : T} {bytes : Bytes} : ordered → codec.encodeValue value = some bytes →
    ∀ buf, codec.prependValue value buf = some (bytes ++ buf)
  encodedLen {value : T} {bytes : Bytes} :
    codec.encodeValue value = some bytes → codec.valueEncodedLen value = some bytes.length
  many {values : List T} {bytes : Bytes} : encodeAll codec.encodeValue values = some bytes →
    codec.manyValuesEncodedLen values = some bytes.length

/-- The values are complete payloads, as long as their lengths are numbers. -/
structure ValueCodec.Writes {T : Type} (ordered : Prop) (codec : ValueCodec T) : Prop
    extends codec.Puts ordered where
  complete {value : T} {bytes : Bytes} : codec.encodeValue value = some bytes →
    (codec.wireType = .lengthDelimited → bytes.length < 2 ^ 64) → codec.wireType.Complete bytes

/-- The payloads of a field under one tag. -/
structure FieldCodec.Written {T : Type} (ordered : Prop) (codec : FieldCodec T) (value : T)
    (wireType : WireType) (payloads : List Bytes) : Prop where
  encode (tag : Nat) (tw : TagWriter) :
    codec.encode tag value tw = tw.encodeRecords (payloads.map (Record.mk tag wireType))
  prependEncode (hordered : ordered) (tag : Nat) (buf : Bytes) (tw : TagRevWriter) :
    codec.prependEncode tag value buf tw =
      tw.prependRecords buf (payloads.map (Record.mk tag wireType)).reverse
  encodedLen (tag : Nat) (tm : TagMeasurer) :
    codec.encodedLen tag value tm = tm.recordsLen (payloads.map (Record.mk tag wireType))
  complete : ∀ payload ∈ payloads, (wireType = .lengthDelimited → payload.length < 2 ^ 64) →
    wireType.Complete payload
  isEmpty : codec.emptyState.isEmpty value = true ↔ payloads = []

def FieldCodec.Writes {T : Type} (ordered : Prop) (codec : FieldCodec T) : Prop :=
  ∀ value, ∃ wireType payloads, codec.Written ordered value wireType payloads

/-- The records of a field. -/
structure MessageField.Written {T : Type} (ordered : Prop) (field : MessageField T) (value : T)
    (records : List Record) : Prop where
  encode (tw : TagWriter) : field.encode value tw = tw.encodeRecords records
  prependEncode (hordered : ordered) (buf : Bytes) (tw : TagRevWriter) :
    field.prependEncode value buf tw = tw.prependRecords buf records.reverse
  encodedLen (tm : TagMeasurer) : field.encodedLen value tm = tm.recordsLen records
  currentTag : ∀ r ∈ records, field.currentTag value = some r.tag
  complete : ∀ r ∈ records, (r.wireType = .lengthDelimited → r.payload.length < 2 ^ 64) →
    r.wireType.Complete r.payload
  isEmpty : field.isEmpty value = true ↔ records = []

structure MessageField.Writes {T : Type} (ordered : Prop) (field : MessageField T) : Prop where
  written (value : T) : ∃ records, field.Written ordered value records
  valid {value : T} {tag : Nat} : field.currentTag value = some tag → tag ∈ field.tags

/-- The records of a message, in order. -/
structure MessageCodec.Written {M : Type} (ordered : Prop) (codec : MessageCodec M) (m : M)
    (records : List Record) : Prop where
  encode : codec.rawEncode m = some (wireRecords 0 records)
  prepend (hordered : ordered) (buf : Bytes) :
    codec.rawPrepend m buf = some (wireRecords 0 records ++ buf)
  encodedLen : codec.rawEncodedLen m = some (wireRecords 0 records).length
  ascending : Ascending 0 records
  tag_lt : ∀ r ∈ records, r.tag < 2 ^ 32
  complete : ∀ r ∈ records, (r.wireType = .lengthDelimited → r.payload.length < 2 ^ 64) →
    r.wireType.Complete r.payload

def MessageCodec.Writes {M : Type} (ordered : Prop) (codec : MessageCodec M) : Prop :=
  ∀ m, ∃ records, codec.Written ordered m records

theorem encodeAll_cons_eq_some {T : Type} {encode : T → Option Bytes} {v : T} {vs : List T}
    {bytes : Bytes} : encodeAll encode (v :: vs) = some bytes ↔
      ∃ first rest, encode v = some first ∧ encodeAll encode vs = some rest ∧
        bytes = first ++ rest := by
  simp only [encodeAll, Option.bind_eq_bind, Option.bind_eq_some_iff, Option.some.injEq]
  constructor
  · rintro ⟨first, hfirst, rest, hrest, rfl⟩
    exact ⟨first, rest, hfirst, hrest, rfl⟩
  · rintro ⟨first, rest, hfirst, hrest, rfl⟩
    exact ⟨first, hfirst, rest, hrest, rfl⟩

theorem sumLens_eq {T : Type} {encode : T → Option Bytes} {len : T → Option Nat}
    (h : ∀ v bytes, encode v = some bytes → len v = some bytes.length) {values : List T}
    {bytes : Bytes} (hencode : encodeAll encode values = some bytes) :
    sumLens len values = some bytes.length := by
  induction values generalizing bytes with
  | nil =>
      obtain rfl := Option.some.inj hencode
      rfl
  | cons v vs ih =>
      obtain ⟨first, rest, hfirst, hrest, rfl⟩ := encodeAll_cons_eq_some.mp hencode
      simp [sumLens, h v first hfirst, ih hrest]

theorem length_encodeAll {T : Type} {encode : T → Option Bytes} {size : Nat}
    (h : ∀ v bytes, encode v = some bytes → bytes.length = size) {values : List T} {bytes : Bytes}
    (hencode : encodeAll encode values = some bytes) : bytes.length = values.length * size := by
  induction values generalizing bytes with
  | nil =>
      obtain rfl := Option.some.inj hencode
      exact (Nat.zero_mul size).symm
  | cons v vs ih =>
      obtain ⟨first, rest, hfirst, hrest, rfl⟩ := encodeAll_cons_eq_some.mp hencode
      rw [List.length_append, h v first hfirst, ih hrest, List.length_cons, Nat.succ_mul,
        Nat.add_comm]

namespace ValueCodec

variable {T C K V : Type} {ordered : Prop}

theorem Puts.exists_encodeAll {codec : ValueCodec T} (h : codec.Puts ordered) (values : List T) :
    ∃ payloads : List Bytes, values.map codec.encodeValue = payloads.map some ∧
      encodeAll codec.encodeValue values = some payloads.flatten := by
  induction values with
  | nil => exact ⟨[], rfl, rfl⟩
  | cons v vs ih =>
      obtain ⟨payload, hpayload⟩ := h.encode v
      obtain ⟨payloads, hmap, hall⟩ := ih
      refine ⟨payload :: payloads, by simp [hpayload, hmap], ?_⟩
      exact encodeAll_cons_eq_some.mpr ⟨payload, payloads.flatten, hpayload, hall, rfl⟩

theorem Puts.encodeAll_eq {codec : ValueCodec T} (h : codec.Puts ordered) {values : List T}
    {payloads : List Bytes} (hmap : values.map codec.encodeValue = payloads.map some) :
    encodeAll codec.encodeValue values = some payloads.flatten := by
  obtain ⟨payloads', hmap', hall⟩ := h.exists_encodeAll values
  obtain rfl : payloads = payloads' :=
    List.map_injective_iff.mpr (Option.some_injective _) (hmap.symm.trans hmap')
  exact hall

theorem Puts.prependAll {codec : ValueCodec T} (h : codec.Puts ordered) (hordered : ordered)
    {values : List T} {bytes : Bytes} (hencode : encodeAll codec.encodeValue values = some bytes)
    (buf : Bytes) :
    Bilrost.prependAll codec.prependValue values.reverse buf = some (bytes ++ buf) := by
  have happend (l l' : List T) (buf : Bytes) : Bilrost.prependAll codec.prependValue (l ++ l') buf =
      (Bilrost.prependAll codec.prependValue l buf).bind
        (Bilrost.prependAll codec.prependValue l') := by
    induction l generalizing buf with
    | nil => rfl
    | cons v l ih =>
        simp only [List.cons_append, Bilrost.prependAll]
        cases codec.prependValue v buf with
        | none => rfl
        | some buf => exact ih buf
  induction values generalizing bytes with
  | nil =>
      obtain rfl := Option.some.inj hencode
      rfl
  | cons v vs ih =>
      obtain ⟨first, rest, hfirst, hrest, rfl⟩ := encodeAll_cons_eq_some.mp hencode
      rw [List.reverse_cons, happend, ih hrest, List.append_assoc]
      simp [Bilrost.prependAll, h.prepend hordered hfirst]

/-- Values of a delimited region. -/
theorem writes_of_delimited {codec : ValueCodec T} {len : T → Option Nat}
    {content : T → Option Bytes} {prepend : T → Bytes → Option Bytes}
    (hwire : codec.wireType = .lengthDelimited)
    (hencode : ∀ v, codec.encodeValue v = encodeDelimited (len v) (content v))
    (hprepend : ∀ v, codec.prependValue v = prependDelimited (prepend v))
    (hlen : ∀ v, codec.valueEncodedLen v = delimitedLen (len v))
    (hmany : ∀ values, codec.manyValuesEncodedLen values = sumLens codec.valueEncodedLen values)
    (hcontent : ∀ v, ∃ bytes, content v = some bytes ∧ len v = some bytes.length ∧
      (ordered → ∀ buf, prepend v buf = some (bytes ++ buf))) : codec.Writes ordered := by
  have hvalue {v : T} {bytes : Bytes} (h : codec.encodeValue v = some bytes) :
      ∃ inner, content v = some inner ∧ len v = some inner.length ∧
        bytes = varint inner.length ++ inner := by
    obtain ⟨inner, hinner, hlength, -⟩ := hcontent v
    refine ⟨inner, hinner, hlength, ?_⟩
    simpa [hencode, encodeDelimited, hinner, hlength, encodeVarint_eq, eq_comm] using h
  have hencodedLen {v : T} {bytes : Bytes} (h : codec.encodeValue v = some bytes) :
      codec.valueEncodedLen v = some bytes.length := by
    obtain ⟨inner, -, hlength, rfl⟩ := hvalue h
    simp [hlen, delimitedLen, hlength]
  constructor
  · constructor
    · intro v
      obtain ⟨inner, hinner, hlength, -⟩ := hcontent v
      exact ⟨encodeVarint inner.length ++ inner, by simp [hencode, encodeDelimited, hinner, hlength]⟩
    · intro v bytes hordered h buf
      obtain ⟨inner, hinner, hlength, rfl⟩ := hvalue h
      obtain ⟨inner', hinner', -, hbuf⟩ := hcontent v
      obtain rfl : inner = inner' := Option.some.inj (hinner.symm.trans hinner')
      simp [hprepend, prependDelimited, hbuf hordered]
    · exact hencodedLen
    · intro values bytes h
      rw [hmany]
      exact sumLens_eq (fun v bytes => hencodedLen) h
  · intro v bytes h hlt
    obtain ⟨inner, -, -, rfl⟩ := hvalue h
    have hlt := hlt hwire
    rw [List.length_append] at hlt
    rw [hwire]
    exact ⟨inner, by omega, rfl⟩

theorem Puts.sumLens {codec : ValueCodec T} (h : codec.Puts ordered) {values : List T}
    {bytes : Bytes} (hencode : encodeAll codec.encodeValue values = some bytes) :
    Bilrost.sumLens codec.valueEncodedLen values = some bytes.length :=
  sumLens_eq (fun _ _ => h.encodedLen) hencode

/-- Scalars, of which everything is known. -/
theorem writes_of_scalar {scalar : Scalar T}
    (hprepend : ∀ v buf, scalar.prepend v buf = scalar.encode v ++ buf)
    (hlen : ∀ v, scalar.encodedLen v = (scalar.encode v).length)
    (hmany : ∀ values : List T,
      scalar.manyEncodedLen values = (values.map fun v => (scalar.encode v).length).sum)
    (hcomplete : ∀ v, (scalar.wireType = .lengthDelimited → (scalar.encode v).length < 2 ^ 64) →
      scalar.wireType.Complete (scalar.encode v)) : scalar.codec.Writes ordered := by
  have hencode {v : T} {bytes : Bytes} (h : scalar.codec.encodeValue v = some bytes) :
      bytes = scalar.encode v := (Option.some.inj h).symm
  constructor
  · constructor
    · exact fun v => ⟨_, rfl⟩
    · intro v bytes _ h buf
      rw [hencode h]
      exact congrArg some (hprepend v buf)
    · intro v bytes h
      rw [hencode h]
      exact congrArg some (hlen v)
    · intro values bytes h
      have hall (values : List T) : encodeAll scalar.codec.encodeValue values =
          some (values.flatMap scalar.encode) := by
        induction values with
        | nil => rfl
        | cons v vs ih => exact encodeAll_cons_eq_some.mpr ⟨_, _, rfl, ih, rfl⟩
      obtain rfl := Option.some.inj ((hall values).symm.trans h)
      simp [Scalar.codec, hmany, List.length_flatMap]
  · intro v bytes h hlt
    obtain rfl := hencode h
    exact hcomplete v hlt

/-- The items of a region, encoded and measured. -/
theorem writes_packedItems {fixedSize : Option Nat} {item : ValueCodec T} {coll : Collection C T}
    (hitem : item.Puts ordered)
    (hreversed : ordered → ∀ items, coll.reversed items = (coll.iter items).reverse) :
    (packedItems fixedSize item coll).Writes ordered := by
  apply writes_of_delimited
  · rfl
  · exact fun v => rfl
  · exact fun v => rfl
  · exact fun v => rfl
  · exact fun values => rfl
  · intro items
    obtain ⟨payloads, -, hall⟩ := hitem.exists_encodeAll (coll.iter items)
    refine ⟨payloads.flatten, hall, hitem.many hall, fun hordered buf => ?_⟩
    rw [hreversed hordered]
    exact hitem.prependAll hordered hall buf

theorem Writes.packedArray {item : ValueCodec T} (h : item.Writes ordered) (n : Nat) :
    (item.packedArray n).Writes ordered := by
  apply writes_of_delimited
  · rfl
  · exact fun v => rfl
  · exact fun v => rfl
  · exact fun v => rfl
  · exact fun values => rfl
  · intro arr
    obtain ⟨payloads, -, hall⟩ := h.exists_encodeAll arr.toList
    exact ⟨payloads.flatten, hall, h.many hall, fun hordered => h.prependAll hordered hall⟩

/-- Payloads of a fixed size have that size. -/
theorem Writes.length {codec : ValueCodec T} (h : codec.Writes ordered) {size : Nat}
    (hsize : codec.wireType.fixedSize = some size) (v : T) (bytes : Bytes)
    (hv : codec.encodeValue v = some bytes) : bytes.length = size := by
  cases hwire : codec.wireType with
  | varint => simp [hwire, WireType.fixedSize] at hsize
  | lengthDelimited => simp [hwire, WireType.fixedSize] at hsize
  | thirtyTwoBit =>
      have hcomplete := h.complete hv (by simp [hwire])
      rw [hwire] at hcomplete hsize
      obtain rfl : 4 = size := Option.some.inj hsize
      exact hcomplete
  | sixtyFourBit =>
      have hcomplete := h.complete hv (by simp [hwire])
      rw [hwire] at hcomplete hsize
      obtain rfl : 8 = size := Option.some.inj hsize
      exact hcomplete

theorem encodeValue_entry {key : ValueCodec K} {val : ValueCodec V} {e : K × V} {bytes : Bytes}
    (h : (key.entry val).encodeValue e = some bytes) :
    ∃ keyBytes valBytes, key.encodeValue e.1 = some keyBytes ∧
      val.encodeValue e.2 = some valBytes ∧ bytes = keyBytes ++ valBytes := by
  obtain ⟨keyBytes, hkeyBytes, h⟩ := Option.bind_eq_some_iff.mp h
  obtain ⟨valBytes, hvalBytes, h⟩ := Option.bind_eq_some_iff.mp h
  exact ⟨keyBytes, valBytes, hkeyBytes, hvalBytes, (Option.some.inj h).symm⟩

/-- An entry has a fixed size if its key and its value have. -/
theorem Writes.length_entry {key : ValueCodec K} {val : ValueCodec V} (hkey : key.Writes ordered)
    (hval : val.Writes ordered) (size : Nat)
    (hsize : size ∈ combinedFixedSize key.wireType val.wireType) (e : K × V) (bytes : Bytes)
    (h : (key.entry val).encodeValue e = some bytes) : bytes.length = size := by
  obtain ⟨keyBytes, valBytes, hkeyBytes, hvalBytes, rfl⟩ := encodeValue_entry h
  unfold combinedFixedSize at hsize
  cases hkeySize : key.wireType.fixedSize with
  | none => simp [hkeySize] at hsize
  | some keySize =>
      cases hvalSize : val.wireType.fixedSize with
      | none => simp [hkeySize, hvalSize] at hsize
      | some valSize =>
          obtain rfl : keySize + valSize = size := by simpa [hkeySize, hvalSize] using hsize
          rw [List.length_append, hkey.length hkeySize _ _ hkeyBytes,
            hval.length hvalSize _ _ hvalBytes]

/-- A key and its value are put one after the other. -/
theorem Writes.puts_entry {key : ValueCodec K} {val : ValueCodec V} (hkey : key.Writes ordered)
    (hval : val.Writes ordered) : (key.entry val).Puts ordered := by
  have hlen {e : K × V} {bytes : Bytes} (h : (key.entry val).encodeValue e = some bytes) :
      entry.len key val e = some bytes.length := by
    obtain ⟨keyBytes, valBytes, hkeyBytes, hvalBytes, rfl⟩ := encodeValue_entry h
    simp [entry.len, hkey.encodedLen hkeyBytes, hval.encodedLen hvalBytes]
  constructor
  · intro e
    obtain ⟨keyBytes, hkeyBytes⟩ := hkey.encode e.1
    obtain ⟨valBytes, hvalBytes⟩ := hval.encode e.2
    exact ⟨keyBytes ++ valBytes, by simp [entry, hkeyBytes, hvalBytes]⟩
  · intro e bytes hordered h buf
    obtain ⟨keyBytes, valBytes, hkeyBytes, hvalBytes, rfl⟩ := encodeValue_entry h
    simp [entry, hval.prepend hordered hvalBytes, hkey.prepend hordered hkeyBytes]
  · exact hlen
  · intro entries bytes hall
    have hsum : sumLens (entry.len key val) entries = some bytes.length :=
      sumLens_eq (fun e bytes => hlen) hall
    simp only [entry]
    cases hfixed : combinedFixedSize key.wireType val.wireType with
    | none => exact hsum
    | some size =>
        rw [length_encodeAll (hkey.length_entry hval size hfixed) hall]

theorem Writes.proxied {P : Type} {codec : ValueCodec P} (h : codec.Writes ordered)
    (proxy : Proxy T P) (forOverwrite : T) (emptyState : Option (EmptyState T)) :
    (codec.proxied proxy forOverwrite emptyState).Writes ordered := by
  constructor
  · constructor
    · exact fun v => h.encode _
    · exact fun hordered hv => h.prepend hordered hv
    · exact fun hv => h.encodedLen hv
    · intro values bytes hall
      have hmap (values : List T) : encodeAll codec.encodeValue (values.map proxy.encodeProxy) =
          encodeAll (fun v => codec.encodeValue (proxy.encodeProxy v)) values := by
        induction values with
        | nil => rfl
        | cons v vs ih => simp [encodeAll, ih]
      exact h.many ((hmap values).trans hall)
  · exact fun hv hlt => h.complete hv hlt

theorem writes_nested {M : Type} {codec : MessageCodec M} (h : codec.Writes ordered) :
    codec.nested.Writes ordered := by
  apply writes_of_delimited
  · rfl
  · exact fun v => rfl
  · exact fun v => rfl
  · exact fun v => rfl
  · exact fun values => rfl
  · intro m
    obtain ⟨records, hwritten⟩ := h m
    exact ⟨_, hwritten.encode, hwritten.encodedLen, hwritten.prepend⟩

end ValueCodec

/-- The encoders of message values are all the same. -/
theorem MessageCodec.Writes.tupled {M : Type} {ordered : Prop} {codec : MessageCodec M}
    (h : codec.Writes ordered) : codec.tupled.Writes ordered := by
  have hnested := ValueCodec.writes_nested h
  exact ⟨⟨hnested.encode, hnested.prepend, hnested.encodedLen, hnested.many⟩, hnested.complete⟩

theorem MessageCodec.Writes.inlined {M : Type} {ordered : Prop} {codec : MessageCodec M}
    (h : codec.Writes ordered) : codec.inlined.Writes ordered := by
  have hnested := ValueCodec.writes_nested h
  exact ⟨⟨hnested.encode, hnested.prepend, hnested.encodedLen, hnested.many⟩, hnested.complete⟩

theorem Scalar.Standard.writes {T : Type} {scalar : Scalar T} (ordered : Prop)
    (h : scalar.Standard) : scalar.codec.Writes ordered := by
  have hsum {encode : T → Bytes} {size : Nat} (hsize : ∀ v, (encode v).length = size)
      (values : List T) : (values.map fun v => (encode v).length).sum = values.length * size := by
    simp [hsize]
  cases h with
  | @varint _ s h =>
      apply ValueCodec.writes_of_scalar
      · intro v buf
        simp [VarintScalar.scalar, encodeVarint_eq]
      · intro v
        simp [VarintScalar.scalar, encodeVarint_eq]
      · intro values
        simp [VarintScalar.scalar, Scalar.manyDefault, WireType.fixedSize, encodeVarint_eq]
      · exact fun v _ => ⟨s.toUint64 v, h.lt v, encodeVarint_eq _⟩
  | @fixed _ s h =>
      apply ValueCodec.writes_of_scalar
      · exact fun v buf => rfl
      · exact fun v => (h.length v).symm
      · intro values
        have hsize := hsum h.length values
        simp only [FixedScalar.scalar, Scalar.manyDefault] at hsize ⊢
        rw [hsize]
        cases s.width <;> simp [FixedWidth.wireType, WireType.fixedSize, FixedWidth.size, Nat.mul_comm]
      · intro v _
        have hlength := h.length v
        simp only [FixedScalar.scalar]
        cases hwidth : s.width with
        | four =>
            rw [hwidth] at hlength
            exact hlength
        | eight =>
            rw [hwidth] at hlength
            exact hlength
  | @delimited _ s h =>
      apply ValueCodec.writes_of_scalar
      · intro v buf
        simp [DelimitedScalar.scalar, encodeVarint_eq]
      · intro v
        simp [DelimitedScalar.scalar, encodeVarint_eq]
      · intro values
        simp [DelimitedScalar.scalar, Scalar.manyDefault, WireType.fixedSize, encodeVarint_eq]
      · intro v hlt
        have hlt := hlt rfl
        simp only [DelimitedScalar.scalar, List.length_append] at hlt ⊢
        exact ⟨s.toBytes v, by omega, by rw [encodeVarint_eq]⟩
  | plainArray n =>
      apply ValueCodec.writes_of_scalar
      · exact fun v buf => (List.append_assoc ..).symm
      · intro v
        simp [Bilrost.plainArray]
      · intro values
        simp [Bilrost.plainArray]
      · intro v hlt
        have hlt := hlt rfl
        simp only [Bilrost.plainArray, List.length_append, List.Vector.toList_length] at hlt ⊢
        refine ⟨v.toList, by rw [v.toList_length]; omega, ?_⟩
        rw [v.toList_length, constVarint_eq (by omega)]

end Bilrost
