import Bilrost.Guarantees.Encoders
import Bilrost.Schema.MessageSheds
import Bilrost.Schema.Recursive
import Bilrost.Schema.Tallies
import Mathlib.Order.Filter.AtTopBot.Basic

/-!
Messages and their canonical encodings. Every message of a structural schema is
decoded from what it is encoded as, and is canonical then; and no other bytes
are canonical. So two parties who compare, sign or hash the encodings of
messages compare the messages.
-/

namespace Bilrost

open Filter Program

/-- With enough room, each value nests within it. -/
def Part.Settles : Part → Prop
  | .value codec => ∀ value, ∀ᶠ depth in atTop, codec.nestsWithin depth value
  | .field codec => ∀ value, ∀ᶠ depth in atTop, codec.nestsWithin depth value
  | .messageField fld => ∀ value, ∀ᶠ depth in atTop, fld.nestsWithin depth value
  | .message codec => ∀ m, ∀ᶠ depth in atTop, codec.nestsWithin depth m

/-- What holds of each of some values in the end holds of all of them. -/
theorem eventually_forall_mem {T : Type} {P : Nat → T → Prop}
    (h : ∀ value, ∀ᶠ depth in atTop, P depth value) (values : List T) :
    ∀ᶠ depth in atTop, ∀ value ∈ values, P depth value := by
  induction values with
  | nil => simp
  | cons value values ih =>
      filter_upwards [h value, ih] with depth hvalue hvalues
      exact List.forall_mem_cons.mpr ⟨hvalue, hvalues⟩

theorem eventually_inside {M : Type} {P : Nat → M → Prop} {m : M}
    (h : ∀ᶠ depth in atTop, P depth m) : ∀ᶠ depth in atTop, ∃ inner, depth = inner + 1 ∧ P inner m := by
  obtain ⟨bound, hbound⟩ := eventually_atTop.mp h
  refine eventually_atTop.mpr ⟨bound + 1, fun depth hdepth => ⟨depth - 1, by omega, ?_⟩⟩
  exact hbound (depth - 1) (by omega)

theorem Structural.settles {part : Part} (h : Structural part) : part.Settles := by
  induction h with
  | scalar => exact fun _ => .of_forall fun _ => trivial
  | @packed _ _ _ coll _ _ ih => exact fun items => eventually_forall_mem ih (coll.iter items)
  | @map _ _ _ _ _ coll _ _ _ ihkey ihval =>
      intro items
      apply eventually_forall_mem (fun e => ?_) (coll.iter items)
      exact (ihkey e.1).and (ihval e.2)
  | packedArray _ _ ih => exact fun arr => eventually_forall_mem ih arr.toList
  | nested _ ih => exact fun m => eventually_inside (ih m)
  | tupled _ ih => exact fun m => eventually_inside (ih m)
  | inlined _ ih => exact ih
  | plain _ _ _ ih => exact ih
  | optional _ ih =>
      intro value
      cases value with
      | none => simp [ValueCodec.optional]
      | some value => simpa [ValueCodec.optional] using ih value
  | @unpackedField _ _ _ coll _ _ ih =>
      exact fun items => eventually_forall_mem ih (coll.iter items)
  | @packedField _ _ _ coll _ _ ih =>
      exact fun items => eventually_forall_mem ih (coll.iter items)
  | unpackedArrayField _ _ _ _ ih => exact fun arr => eventually_forall_mem ih arr.toList
  | packedArrayField _ _ _ _ ih => exact fun arr => eventually_forall_mem ih arr.toList
  | unpackedArrayOptionField _ _ ih =>
      intro value
      cases value with
      | none => simp [ValueCodec.unpackedArrayOptionField]
      | some arr =>
          simpa [ValueCodec.unpackedArrayOptionField] using eventually_forall_mem ih arr.toList
  | tagged _ _ ih => exact ih
  | @oneof _ oneof _ ih =>
      intro value
      cases hview : oneof.view value with
      | none => simp [Oneof.field, hview]
      | some v => simpa [Oneof.field, hview] using ih v.1 v.2
  | @fields _ F _ _ _ _ _ ih => exact fun m => eventually_all.mpr fun i => ih i (F.get m i)
  | recursive _ _ hwithin _ _ => exact fun m => eventually_atTop.mpr (hwithin m)
  | unrolled approx within hunrolls _ _ ih =>
      intro m
      obtain ⟨n, hn⟩ := hunrolls.reached m
      filter_upwards [ih n m] with depth hdepth
      exact (hunrolls.nestsWithin hn depth).mpr hdepth

/-- A message is what all calls that decode a whole buffer return for some
bytes, however they are stored, and it is canonical. -/
structure MessageCodec.DecodesTo {M : Type} (codec : MessageCodec M) (bytes : Bytes) (m : M) :
    Prop where
  decode {β : Type} [Buf β] {buf : β} : Buf.bytes buf = bytes → codec.decode buf = .ok m
  decodeDistinguished {β : Type} [Buf β] {buf : β} :
    Buf.bytes buf = bytes → codec.decodeDistinguished buf = .ok (m, .canonical)
  decodeCanonical {β : Type} [Buf β] {buf : β} :
    Buf.bytes buf = bytes → codec.decodeCanonical buf = .ok m
  decodeBorrowed : codec.decodeBorrowed bytes = .ok m
  decodeDistinguishedBorrowed : codec.decodeDistinguishedBorrowed bytes = .ok (m, .canonical)
  decodeCanonicalBorrowed : codec.decodeCanonicalBorrowed bytes = .ok m

section
variable {M : Type} {codec : MessageCodec M} {m : M}

/-- What is canonical meets every restriction. -/
theorem Built.decodeRestrictedCapped_of_parses {allowed : Features}
    (h : Built allowed (.message codec)) {mode : DecodingMode} {β : Type} [Buf β] {buf : β}
    (hparse : (codec.mergeBy .distinguished mode recursionLimit codec.empty).Parses (Buf.bytes buf)
      (m, .canonical) []) (restrictTo : Canonicity) :
    codec.decodeRestrictedCapped mode (Capped.new buf) restrictTo = .ok (m, .canonical) := by
  obtain ⟨lowest, hparse⟩ := hparse
  have htally := h.tallies.mergeBy .distinguished mode recursionLimit codec.empty
  obtain rfl : lowest = .canonical := by simpa using htally _ _ hparse
  rw [MessageCodec.decodeRestrictedCapped_eq_ok h.regular, codec.mergeDistinguished_eq_mergeBy]
  exact ⟨.canonical, [], hparse, restrictTo.le_canonical, restrictTo.le_canonical⟩

theorem Structural.encodeToVec_eq (h : Structural (.message codec)) (m : M) :
    codec.encodeToVec m = codec.rawEncode m :=
  have hwrites : codec.Writes _ := h.built.writes not_false
  hwrites.encodeToVec_eq m

/-- All ways to encode a message come to the same bytes. -/
theorem Structural.encodesAs (h : Structural (.message codec)) (m : M) :
    ∃ bytes, EncodesAs codec m bytes :=
  h.built.encodesAs not_false not_false m

/-- What a message is encoded as is decoded by all of the calls, if it is read
back in either way. -/
theorem Built.decodesTo_of_readsBack {allowed : Features} (h : Built allowed (.message codec))
    (harrays : ¬allowed.emptyArrays)
    (hback : ∀ way mode, codec.ReadsBack way mode recursionLimit m) {bytes : Bytes}
    (hencode : codec.encodeToVec m = some bytes) (hlt : bytes.length < 2 ^ 64) :
    codec.DecodesTo bytes m := by
  have hregular := h.regular
  have hwrites : codec.Writes _ := h.writes harrays
  rw [hwrites.encodeToVec_eq] at hencode
  have hrestricted {β : Type} [Buf β] {buf : β} (hbuf : Buf.bytes buf = bytes)
      (mode : DecodingMode) (restrictTo : Canonicity) :
      codec.decodeRestrictedCapped mode (Capped.new buf) restrictTo = .ok (m, .canonical) := by
    apply h.decodeRestrictedCapped_of_parses
    rw [hbuf]
    exact hback .distinguished mode _ hencode hlt
  constructor
  · intro β _ buf hbuf
    exact (hback .relaxed .owned).decodeCapped hregular hencode hlt hbuf
  · intro β _ buf hbuf
    exact hrestricted hbuf .owned .notCanonical
  · intro β _ buf hbuf
    exact congrArg (Except.map Prod.fst) (hrestricted hbuf .owned .canonical)
  · exact (hback .relaxed .borrowed).decodeCapped hregular hencode hlt rfl
  · exact hrestricted rfl .borrowed .notCanonical
  · exact congrArg (Except.map Prod.fst) (hrestricted rfl .borrowed .canonical)

theorem Structural.decodesTo (h : Structural (.message codec))
    (hnests : codec.nestsWithin recursionLimit m) {bytes : Bytes}
    (hencode : codec.encodeToVec m = some bytes) (hlt : bytes.length < 2 ^ 64) :
    codec.DecodesTo bytes m :=
  have hback (way : Way) (mode : DecodingMode) : codec.ReadsBack way mode recursionLimit m :=
    h.readsBack way mode recursionLimit m hnests
  h.built.decodesTo_of_readsBack not_false hback hencode hlt

/-- What is canonical is what would be written. -/
theorem Structural.encodeToVec_of_canonical (h : Structural (.message codec)) {β : Type} [Buf β]
    {buf : β} (hdecode : codec.decodeDistinguished buf = .ok (m, .canonical)) :
    codec.encodeToVec m = some (Buf.bytes buf) := by
  rw [h.encodeToVec_eq]
  have hparse : (codec.mergeBy .distinguished .owned recursionLimit codec.empty).Parses
      (Buf.bytes buf) (m, .canonical) [] := h.built.regular.decodeAs_eq_ok.mp hdecode
  exact h.exact hparse

/-- No two messages are encoded as the same bytes. -/
theorem Structural.encodeToVec_inj (h : Structural (.message codec)) {m' : M} {bytes : Bytes}
    (hencode : codec.encodeToVec m = some bytes) (hencode' : codec.encodeToVec m' = some bytes)
    (hlt : bytes.length < 2 ^ 64) : m = m' := by
  rw [h.encodeToVec_eq] at hencode hencode'
  obtain ⟨depth, hnests, hnests'⟩ := ((h.settles m).and (h.settles m')).exists
  have hback := h.readsBack .distinguished .owned depth m hnests _ hencode hlt
  have hback' := h.readsBack .distinguished .owned depth m' hnests' _ hencode' hlt
  exact congrArg Prod.fst (hback.unique hback').1

/-- No two values are encoded as the same bytes. -/
theorem Structural.encodeValue_inj {T : Type} {codec : ValueCodec T}
    (h : Structural (.value codec)) {value value' : T} {bytes : Bytes}
    (hencode : codec.encodeValue value = some bytes)
    (hencode' : codec.encodeValue value' = some bytes) (hlt : bytes.length < 2 ^ 64) :
    value = value' := by
  obtain ⟨depth, hnests, hnests'⟩ := ((h.settles value).and (h.settles value')).exists
  have hback := h.readsBack .relaxed .owned true depth value hnests (.inl rfl) _ hencode hlt
  have hback' := h.readsBack .relaxed .owned true depth value' hnests' (.inl rfl) _ hencode' hlt
  exact congrArg Prod.fst (hback.unique hback').1

/-- Decoding what a message is encoded as gives the message back, in each of the
forms that decode a whole buffer, however it is stored, and it is canonical. -/
theorem decodesTo_encoding (h : Structural (.message codec))
    (hnests : codec.nestsWithin recursionLimit m) :
    ∃ bytes, codec.encodeToVec m = some bytes ∧
      (bytes.length < 2 ^ 64 → codec.DecodesTo bytes m) := by
  obtain ⟨bytes, hencodes⟩ := h.encodesAs m
  exact ⟨bytes, hencodes.encodeToVec, h.decodesTo hnests hencodes.encodeToVec⟩

/-- Messages and canonical encodings are in bijection. What a message is encoded
as is decoded to it, however it is stored, and what is canonical is what the
message it is decoded to is encoded as. -/
theorem distinguished_bijection (h : Structural (.message codec)) :
    (∀ m, codec.nestsWithin recursionLimit m → ∃ bytes, codec.encodeToVec m = some bytes ∧
        (bytes.length < 2 ^ 64 → ∀ {β : Type} [Buf β] {buf : β}, Buf.bytes buf = bytes →
          codec.decodeDistinguished buf = .ok (m, .canonical))) ∧
      ∀ {β : Type} [Buf β] {buf : β} {m : M}, codec.decodeDistinguished buf = .ok (m, .canonical) →
        codec.encodeToVec m = some (Buf.bytes buf) := by
  constructor
  · intro m hnests
    obtain ⟨bytes, hencodes⟩ := h.encodesAs m
    exact ⟨bytes, hencodes.encodeToVec, fun hlt β _ buf hbuf =>
      (h.decodesTo hnests hencodes.encodeToVec hlt).decodeDistinguished hbuf⟩
  · intro β _ buf m hdecode
    exact h.encodeToVec_of_canonical hdecode

/-- Whatever distinguished decoding returns for some bytes, it is canonical if
and only if the bytes are those that it is encoded as again. So no two buffers
are canonical for the same message, and what is not canonical is never what
would be written. -/
theorem canonical_iff_encodes (h : Structural (.message codec)) {β : Type} [Buf β] {buf : β}
    {canon : Canonicity} (hdecode : codec.decodeDistinguished buf = .ok (m, canon))
    (hlt : (Buf.bytes buf).length < 2 ^ 64) :
    canon = .canonical ↔ codec.encodeToVec m = some (Buf.bytes buf) := by
  have hregular := h.built.regular
  have hparse : (codec.mergeBy .distinguished .owned recursionLimit codec.empty).Parses
      (Buf.bytes buf) (m, canon) [] := hregular.decodeAs_eq_ok.mp hdecode
  constructor
  · rintro rfl
    exact h.encodeToVec_of_canonical hdecode
  · intro hencode
    rw [h.encodeToVec_eq] at hencode
    -- the message nests within some depth, where both decodings can be compared
    obtain ⟨depth, hnests, hle⟩ := ((h.settles m).and (eventually_ge_atTop recursionLimit)).exists
    have hback := h.readsBack .distinguished .owned depth m hnests _ hencode hlt
    have hdeeper := h.built.locks.parses_deeper hregular hle hparse
    exact congrArg Prod.snd (hdeeper.unique hback).1

end

namespace Chain

/-- The length of a chain, in bytes. -/
def unary : DelimitedScalar Chain where
  forOverwrite := (0 : Nat)
  emptyState := some (EmptyState.single (0 : Nat))
  toBytes n := List.replicate n 0
  fromBytes bytes :=
    if bytes = List.replicate bytes.length 0 then .ok bytes.length else .error .invalidValue
  reads _ := .copied

theorem lawful_unary : unary.Lawful where
  from_to n := by simp [unary]
  to_from {bytes n} h := by
    simp only [unary] at h ⊢
    split_ifs at h with hbytes
    obtain rfl : bytes.length = n := Except.ok.inj h
    exact hbytes.symm
  refuses bytes := by
    simp only [unary]
    split_ifs <;> simp [Refuses]

/-- Chains without chains in them, to begin with. -/
def ground : MessageCodec Chain :=
  (unary.scalar.codec.plain (EmptyState.single (0 : Nat))).derived 1

/-- The chains to so many levels, on this ground. -/
def grounded : Nat → MessageCodec Chain
  | 0 => linked ground
  | n + 1 => linked (grounded n)

theorem structural_ground : Structural (.message ground) := by
  apply Structural.derived (by decide)
  exact .plain rfl (Scalar.empties_single unary.scalar) (.scalar (.delimited lawful_unary))

theorem structural_linked {inner : MessageCodec Chain} (h : Structural (.message inner)) :
    Structural (.message (linked inner)) :=
  .fields (Fields.singleBy_sound (by decide)) .derived (inferInstanceAs (Subsingleton Unit))
    fun _ => .tagged 1 (.optional (.nested h))

theorem structural_grounded (n : Nat) : Structural (.message (grounded n)) := by
  induction n with
  | zero => exact structural_linked structural_ground
  | succ n ih => exact structural_linked ih

theorem empty_ground : (ignoring Chain (0 : Nat)).empty = ground.empty := rfl

theorem empty_grounded (n : Nat) : (grounded n).empty = (0 : Nat) := by
  cases n <;> rfl

section
variable {d n : Nat} (h : d ≤ n)
include h

theorem decodeField_grounded (mode : DecodingMode) :
    (approx d).rawDecodeField mode d = (grounded n).rawDecodeField mode d := by
  induction d generalizing n with
  | zero =>
      cases n with
      | zero => exact decodeField_linked empty_ground fun hd => absurd hd (lt_irrefl 0)
      | succ n => exact decodeField_linked (empty_grounded n).symm fun hd => absurd hd (lt_irrefl 0)
  | succ d ih =>
      obtain ⟨n, rfl⟩ := Nat.exists_eq_succ_of_ne_zero (Nat.ne_of_gt (Nat.zero_lt_of_lt h))
      exact decodeField_linked ((empty_approx d).trans (empty_grounded n).symm) fun _ =>
        ih (Nat.le_of_succ_le_succ h)

theorem decodeFieldDistinguished_grounded (mode : DecodingMode) :
    (approx d).rawDecodeFieldDistinguished mode d =
      (grounded n).rawDecodeFieldDistinguished mode d := by
  induction d generalizing n with
  | zero =>
      cases n with
      | zero =>
          exact decodeFieldDistinguished_linked empty_ground fun hd => absurd hd (lt_irrefl 0)
      | succ n =>
          exact decodeFieldDistinguished_linked (empty_grounded n).symm fun hd =>
            absurd hd (lt_irrefl 0)
  | succ d ih =>
      obtain ⟨n, rfl⟩ := Nat.exists_eq_succ_of_ne_zero (Nat.ne_of_gt (Nat.zero_lt_of_lt h))
      exact decodeFieldDistinguished_linked ((empty_approx d).trans (empty_grounded n).symm)
        fun _ => ih (Nat.le_of_succ_le_succ h)

theorem written_grounded :
    (approx d).rawEncode d = (grounded n).rawEncode d ∧
      (approx d).rawPrepend d = (grounded n).rawPrepend d ∧
      (approx d).rawEncodedLen d = (grounded n).rawEncodedLen d := by
  induction d generalizing n with
  | zero => cases n <;> exact ⟨rfl, rfl, rfl⟩
  | succ d ih =>
      obtain ⟨n, rfl⟩ := Nat.exists_eq_succ_of_ne_zero (Nat.ne_of_gt (Nat.zero_lt_of_lt h))
      obtain ⟨hencode, hprepend, hlen⟩ := ih (Nat.le_of_succ_le_succ h)
      exact written_linked hencode hprepend hlen

end

theorem nestsWithin_linked {inner : MessageCodec Chain} {depth : Nat}
    (h : ∀ d, depth = d + 1 → ∀ m, inner.nestsWithin d m ↔ m ≤ d) (m : Chain) :
    (linked inner).nestsWithin depth m ↔ m ≤ depth := by
  cases m with
  | zero => exact iff_of_true (fun _ _ h => by cases h) (Nat.zero_le _)
  | succ m =>
      constructor
      · intro hnests
        obtain ⟨d, rfl, hinner⟩ := hnests (0 : Fin 1) m rfl
        exact Nat.succ_le_succ ((h d rfl m).mp hinner)
      · intro hle _ v hv
        obtain rfl : m = v := Option.some.inj hv
        obtain ⟨d, rfl⟩ := Nat.exists_eq_succ_of_ne_zero (Nat.ne_of_gt (Nat.zero_lt_of_lt hle))
        exact ⟨d, rfl, (h d rfl m).mpr (Nat.le_of_succ_le_succ hle)⟩

theorem nestsWithin_grounded (depth : Nat) (m : Chain) :
    (grounded depth).nestsWithin depth m ↔ m ≤ depth := by
  induction depth generalizing m with
  | zero => exact nestsWithin_linked (fun d hd => absurd hd.symm d.succ_ne_zero) m
  | succ depth ih =>
      apply nestsWithin_linked
      intro d hd
      obtain rfl := Nat.succ.inj hd
      exact ih

theorem sameTo_grounded (depth : Nat) : codec.SameTo depth (grounded depth) where
  empty := (empty_grounded depth).symm
  isEmpty := by cases depth <;> rfl
  clear := by cases depth <;> rfl
  same := by cases depth <;> rfl
  nestsWithin := funext fun m => propext (nestsWithin_grounded depth m).symm
  rawEncode h := (written_grounded h).1
  rawPrepend h := (written_grounded h).2.1
  rawEncodedLen h := (written_grounded h).2.2
  rawDecodeField mode _ h := decodeField_grounded h mode
  rawDecodeFieldDistinguished mode _ h := decodeFieldDistinguished_grounded h mode

/-- Chains of any length are known by their encodings. -/
theorem structural : Structural (.message codec) :=
  .recursive grounded sameTo_grounded (fun m => ⟨m, fun _ hd => hd⟩) structural_grounded

end Chain

theorem decodesTo_encoding_chain :
    Chain.codec.nestsWithin recursionLimit (100 : Nat) ∧
      ∃ bytes, Chain.codec.encodeToVec (100 : Nat) = some bytes ∧
        (bytes.length < 2 ^ 64 → Chain.codec.DecodesTo bytes (100 : Nat)) := by
  have hnests : Chain.codec.nestsWithin recursionLimit (100 : Nat) := Nat.le_refl 100
  exact ⟨hnests, decodesTo_encoding Chain.structural hnests⟩

theorem Chain.decodeDistinguished_link :
    codec.decodeDistinguished ([5, 0] : Bytes) = .ok ((1 : Nat), .canonical) := by
  change codec.decodeAs .distinguished .owned .notCanonical ([5, 0] : Bytes) = _
  apply structural.built.regular.decodeAs_eq_ok.mpr
  apply structural.readsBack .distinguished .owned recursionLimit (1 : Nat)
  · exact Nat.le_of_ble_eq_true rfl
  · rfl
  · decide

/-- The longest chain within the limit comes back, and two bytes are the only
canonical ones for a chain of one link. -/
theorem distinguished_bijection_chain :
    (∃ bytes, Chain.codec.encodeToVec (100 : Nat) = some bytes ∧
        (bytes.length < 2 ^ 64 →
          Chain.codec.decodeDistinguished bytes = .ok ((100 : Nat), .canonical))) ∧
      Chain.codec.encodeToVec (1 : Nat) = some [5, 0] := by
  obtain ⟨hback, honly⟩ := distinguished_bijection Chain.structural
  constructor
  · obtain ⟨bytes, hencode, hdecode⟩ := hback (100 : Nat) (Nat.le_refl 100)
    exact ⟨bytes, hencode, fun hlt => hdecode hlt rfl⟩
  · exact honly Chain.decodeDistinguished_link

theorem canonical_iff_encodes_chain :
    Chain.codec.decodeDistinguished ([5, 0] : Bytes) = .ok ((1 : Nat), .canonical) ∧
      (Canonicity.canonical = .canonical ↔
        Chain.codec.encodeToVec (1 : Nat) = some (Buf.bytes ([5, 0] : Bytes))) :=
  ⟨Chain.decodeDistinguished_link,
    canonical_iff_encodes Chain.structural Chain.decodeDistinguished_link (by decide)⟩

end Bilrost
