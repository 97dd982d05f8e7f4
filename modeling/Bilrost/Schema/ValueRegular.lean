import Bilrost.Schema.Basic

/-!
The decoders of values are regular: the decoders of regions
stop at the cap and no loop goes on forever. A value takes at least one byte,
and values of a fixed size take that many.
-/

namespace Bilrost

namespace Program

/-- A run that succeeds takes this many bytes. -/
structure Takes {α : Type} (n : Nat) (p : Program α) : Prop where
  remaining {β : Type} [Buf β] {minCanonicity : Canonicity} {capped capped' : Capped β} {x : α}
    (hrun : p.run minCanonicity capped = .ok (x, capped')) :
    capped'.remaining + n = capped.remaining

section
variable {α δ γ : Type}

theorem takes_done (value : α) : Takes 0 (.done value) where
  remaining hrun := by
    obtain ⟨-, rfl⟩ := Prod.mk.inj (Except.ok.inj hrun)
    rfl

theorem takes_error (n : Nat) (kind : DecodeErrorKind) : Takes n (error kind : Program α) :=
  ⟨fun hrun => by cases hrun⟩

theorem takes_ofResult (result : Except DecodeErrorKind α) : Takes 0 (ofResult result) := by
  cases result with
  | ok value => exact takes_done value
  | error kind => exact takes_error 0 kind

theorem Takes.check {n : Nat} {next : Program α} (canon : Canonicity) (h : Takes n next) :
    Takes n (.check canon next) where
  remaining hrun := by
    rw [run] at hrun
    split at hrun
    · exact h.remaining hrun
    · cases hrun

theorem Takes.bind {m n k : Nat} {p : Program α} {f : α → Program δ} (hp : Takes m p)
    (hf : ∀ x, Takes n (f x)) (hk : m + n = k) : Takes k (p.bind f) where
  remaining hrun := by
    rw [run_bind] at hrun
    split at hrun
    · next y mid hmid =>
      have hfirst := hp.remaining hmid
      have hsecond := (hf y).remaining hrun
      omega
    · cases hrun

theorem Takes.map {n : Nat} {p : Program α} (hp : Takes n p) (f : α → δ) :
    Takes n (p.bind fun x => .done (f x)) :=
  hp.bind (fun x => takes_done (f x)) rfl

theorem Takes.advances {n : Nat} {p : Program α} (h : Takes n p) (hn : 0 < n) : p.Advances := by
  intro β _ minCanonicity capped capped' x hrun
  have htakes := h.remaining hrun
  omega

/-- Decoders that are regular stay so without the canonicity behind them. -/
theorem Regular.of_asCanonical {p : Program α} (h : (asCanonical p).Regular) : p.Regular := by
  refine ⟨?_, fun minCanonicity capped hrun => ?_⟩
  · have hseals := sealsRegions_bind_of p (f := .done)
      (g := fun value => .done (value, Canonicity.canonical)) (fun _ _ => trivial) h.seals
    rwa [bind_done] at hseals
  · refine h.inRounds minCanonicity capped ?_
    rw [asCanonical, run_bind, hrun]

theorem regular_demote (way : Way) {p : Program α} (h : p.Regular) : (way.demote p).Regular := by
  cases way with
  | relaxed => exact h.map _
  | distinguished => exact (h.map _).check _

theorem regular_refuseEmpty (way : Way) (empty : Bool) (decoded : α × Canonicity) :
    (way.refuseEmpty empty decoded).Regular := by
  cases way with
  | relaxed =>
    rw [Way.refuseEmpty_relaxed]
    exact regular_done decoded
  | distinguished =>
    cases empty with
    | false => exact regular_done decoded
    | true => exact (regular_done _).check _

end

end Program

open Program

/-- The decoders of values. -/
structure ValueCodec.Regular {T : Type} (codec : ValueCodec T) : Prop where
  regular (way : Way) (mode : DecodingMode) (allowEmpty : Bool) (depth : Nat) (value : T) :
    (codec.decodeBy way mode allowEmpty depth value).Regular
  advances (way : Way) (mode : DecodingMode) (allowEmpty : Bool) (depth : Nat) (value : T) :
    (codec.decodeBy way mode allowEmpty depth value).Advances
  takes {size : Nat} (hsize : codec.wireType.fixedSize = some size) (way : Way)
    (mode : DecodingMode) (allowEmpty : Bool) (depth : Nat) (value : T) :
    Takes size (codec.decodeBy way mode allowEmpty depth value)

namespace ValueCodec

variable {C T K V : Type}

theorem Regular.decodeValue {codec : ValueCodec T} (h : codec.Regular) (mode : DecodingMode)
    (depth : Nat) (value : T) : (codec.decodeValue mode depth value).Regular :=
  (h.regular .relaxed mode true depth value).of_asCanonical

theorem regular_insertBy (coll : Collection C T) (way : Way) (items : C) (item : T) :
    (coll.insertBy way items item).Regular := by
  cases way with
  | relaxed => exact (regular_ofResult _).map _
  | distinguished => exact (regular_ofResult _).bind fun _ => (regular_checked _).map _

/-- A scalar of four or eight bytes takes as many. -/
theorem takes_fixed (s : FixedScalar T) (mode : DecodingMode) :
    Takes s.width.size (s.scalar.decode mode) := by
  refine ⟨fun {β _ minCanonicity capped capped' x} hrun => ?_⟩
  have hdone {mid : Capped β} {bytes : Bytes}
      (h : (ofResult (s.fromBytes bytes)).run minCanonicity mid = .ok (x, capped')) :
      capped'.remaining = mid.remaining := (takes_ofResult _).remaining h
  simp only [FixedScalar.scalar] at hrun
  split_ifs at hrun
  · simp only [run, Op.run, Capped.getBytes, Capped.remainingBeforeCap] at hrun
    by_cases hfit : capped.remaining - capped.extraBytesRemaining < s.width.size
    · simp [hfit] at hrun
    · simp only [hfit, ↓reduceIte] at hrun
      rw [hdone hrun, capped.remaining_copy (by omega)]
      omega
  · simp only [run, Op.run, Capped.copyBytes] at hrun
    by_cases hfit : capped.remaining < s.width.size
    · simp [hfit] at hrun
    · simp only [hfit, ↓reduceIte] at hrun
      rw [hdone hrun, capped.remaining_copy (by omega)]
      omega

end ValueCodec

theorem Scalar.Standard.regular {T : Type} {scalar : Scalar T} (h : scalar.Standard) :
    scalar.codec.Regular := by
  cases h with
  | @varint _ s =>
    refine ⟨fun way mode allowEmpty depth value => ?_, fun way mode allowEmpty depth value => ?_,
      fun hsize => by cases hsize⟩
    · rw [Scalar.decodeBy_eq]
      exact (Regular.op _ fun _ => regular_ofResult _).map _
    · rw [Scalar.decodeBy_eq]
      exact Advances.bind (advances_decodeVarint _) _
  | @fixed _ s =>
    have hpos : 0 < s.width.size := by cases s.width <;> decide
    have htakes (way : Way) (mode : DecodingMode) (allowEmpty : Bool) (depth : Nat) (value : T) :
        Takes s.width.size (s.scalar.codec.decodeBy way mode allowEmpty depth value) := by
      rw [Scalar.decodeBy_eq]
      exact (ValueCodec.takes_fixed s mode).map _
    refine ⟨fun way mode allowEmpty depth value => ?_, fun way mode allowEmpty depth value =>
      (htakes way mode allowEmpty depth value).advances hpos, fun hsize way mode allowEmpty depth
      value => ?_⟩
    · rw [Scalar.decodeBy_eq]
      refine Regular.map ?_ _
      simp only [FixedScalar.scalar]
      split_ifs <;> exact Regular.op _ fun _ => regular_ofResult _
    · obtain rfl : s.width.size = _ := by
        cases hw : s.width <;>
          simpa [Scalar.codec, FixedScalar.scalar, FixedWidth.wireType, FixedWidth.size, hw,
            WireType.fixedSize] using hsize
      exact htakes way mode allowEmpty depth value
  | @delimited _ s =>
    refine ⟨fun way mode allowEmpty depth value => ?_, fun way mode allowEmpty depth value => ?_,
      fun hsize => by cases hsize⟩
    · rw [Scalar.decodeBy_eq]
      exact ((DelimitedRead.regular_bytes _).bind fun _ => regular_ofResult _).map _
    · rw [Scalar.decodeBy_eq]
      exact Advances.bind (Advances.bind (DelimitedRead.advances_bytes _) _) _
  | plainArray n =>
    refine ⟨fun way mode allowEmpty depth value => ?_, fun way mode allowEmpty depth value => ?_,
      fun hsize => by cases hsize⟩
    · rw [Scalar.decodeBy_eq]
      have hread (n : Nat) : Regular (.op (.copyBytes n) fun bytes =>
          if h : bytes.length = n then Program.done (⟨bytes, h⟩ : List.Vector UInt8 n)
          else error .truncated) := by
        refine Regular.op _ fun bytes => ?_
        split_ifs
        · exact regular_done _
        · exact regular_error _
      refine Regular.map (Regular.delimited (fun len => ?_) fun len => ?_) _
      · split_ifs
        · exact regular_error _
        · exact hread n
      · split_ifs with hlen
        · exact EndsAtCap.sealed (endsAtCap_error _) len
        · refine sealed_of_parse (hread n).seals fun bytes hbytes => ?_
          have htake : (bytes.take n).length = n := by
            rw [List.length_take]
            omega
          refine ⟨⟨bytes.take n, htake⟩, .canonical, ?_⟩
          have hdrop : bytes.drop n = [] := List.drop_eq_nil_of_le (by omega)
          simp only [Program.parse, Op.parse]
          rw [if_pos (by omega)]
          simp only [dif_pos htake, Program.parse, hdrop]
    · rw [Scalar.decodeBy_eq]
      exact Advances.bind (advances_region _ _) _

namespace ValueCodec

variable {C T K V : Type}

section
variable {item : ValueCodec T} (hitem : item.Regular) (coll : Collection C T)
include hitem

theorem Regular.decodeItemBy (way : Way) (mode : DecodingMode) (depth : Nat)
    (state : C × Canonicity) : (item.decodeItemBy coll way mode depth state).Regular :=
  (hitem.regular way mode true depth _).bind fun _ => (regular_insertBy coll way _ _).map _

theorem Regular.packedItems (fixedSize : Option Nat) :
    (packedItems fixedSize item coll).Regular where
  regular way mode allowEmpty depth value := by
    refine (packedItems_decodeBy fixedSize item coll way mode allowEmpty depth value).regular
      (Regular.delimited (fun len => ?_) fun len => ?_)
    · split_ifs
      · exact regular_error _
      · exact Regular.whileRemaining (hitem.decodeItemBy coll way mode depth)
          (fun _ => Advances.bind (hitem.advances way mode true depth _) _) _
    · split_ifs
      · exact EndsAtCap.sealed (endsAtCap_error _) len
      · exact EndsAtCap.sealed (endsAtCap_whileRemaining _ _) len
  advances way mode allowEmpty depth value :=
    (packedItems_decodeBy fixedSize item coll way mode allowEmpty depth value).advances
      (advances_region _ _)
  takes hsize := by cases hsize

theorem Regular.packed : (item.packed coll).Regular := hitem.packedItems coll _

end

/-- A key and its value together. As they are never a field, how many bytes they
take is not asked for. -/
theorem Regular.entry {key : ValueCodec K} {val : ValueCodec V} (hkey : key.Regular)
    (hval : val.Regular) : (key.entry val).Regular where
  regular way mode allowEmpty depth e := by
    rw [entry_decodeBy]
    exact (hkey.regular way mode allowEmpty depth e.1).bind fun _ =>
      (hval.regular way mode allowEmpty depth e.2).map _
  advances way mode allowEmpty depth e := by
    rw [entry_decodeBy]
    exact Advances.bind (hkey.advances way mode allowEmpty depth e.1) _
  takes hsize := by cases hsize

section
variable {item : ValueCodec T}

theorem regular_decodeEach {n : Nat} {decode : T → Program (T × Canonicity)}
    (h : ∀ v, (decode v).Regular) (arr : List.Vector T n) :
    (decodeEachDistinguished decode arr).Regular := by
  induction n with
  | zero => exact regular_done _
  | succ n ih => exact (h _).bind fun _ => (ih _).map _

theorem takes_decodeEach {n size : Nat} {decode : T → Program (T × Canonicity)}
    (h : ∀ v, Takes size (decode v)) (arr : List.Vector T n) :
    Takes (size * n) (decodeEachDistinguished decode arr) := by
  induction n with
  | zero => exact takes_done _
  | succ n ih =>
    exact (h _).bind (fun _ => (ih _).map _) (by rw [Nat.mul_succ, Nat.add_comm])

theorem regular_anotherItem (item : ValueCodec T) : item.anotherItem.Regular := by
  rw [anotherItem]
  split_ifs
  · refine Regular.op _ fun more => ?_
    cases more with
    | true => exact regular_done _
    | false => exact regular_error _
  · exact regular_done _

theorem regular_noMoreItems (item : ValueCodec T) : item.noMoreItems.Regular := by
  rw [noMoreItems]
  split_ifs
  · refine Regular.op _ fun more => ?_
    cases more with
    | true => exact regular_error _
    | false => exact regular_done _
  · exact regular_done _

/-- An array fills its region: either its items have a fixed size and the region
has that many times it, or the end of the region is looked for. -/
theorem Regular.sealed_packedArray (hitem : item.Regular) {n len : Nat} (way : Way)
    (mode : DecodingMode) (depth : Nat) (arr : List.Vector T n) (hlen : item.missizes n len = false) :
    Sealed len ((decodeEachDistinguished (fun dest => item.anotherItem.bind fun _ =>
      item.decodeBy way mode true depth dest) arr).bind fun decoded =>
        item.noMoreItems.bind fun _ => .done decoded) := by
  cases hsize : item.wireType.fixedSize with
  | none =>
    refine EndsAtCap.sealed (EndsAtCap.of_bind _ fun decoded => ?_) len
    intro β _ minCanonicity capped capped' x hrun
    simp only [noMoreItems, hsize, Option.isNone_none, ↓reduceIte, op_bind, run, Op.run] at hrun
    cases hmore : capped.hasRemaining with
    | error kind => simp [hmore, Except.map] at hrun
    | ok more =>
      cases more with
      | true => simp [hmore, Except.map, run, error] at hrun
      | false =>
        obtain ⟨-, rfl⟩ : decoded = x ∧ capped = capped' := by
          simpa [hmore, Except.map, run] using hrun
        exact Capped.hasRemaining_eq_false hmore
  | some size =>
    have hanother : item.anotherItem = .done () := by simp [anotherItem, hsize]
    have hmore : item.noMoreItems = .done () := by simp [noMoreItems, hsize]
    obtain rfl : len = size * n := by simpa [missizes, hsize] using hlen
    rw [hanother, hmore]
    intro β _ capped hover hbefore minCanonicity x capped' hrun
    have htakes := ((takes_decodeEach (hitem.takes hsize way mode true depth) arr).map id).remaining
      hrun
    have hextra := (run_shrinks _ hrun).extra
    rw [Capped.Over] at hover
    rw [Capped.remainingBeforeCap] at hbefore
    omega

theorem Regular.packedArray (hitem : item.Regular) (n : Nat) : (item.packedArray n).Regular where
  regular way mode allowEmpty depth value := by
    refine (packedArray_decodeBy item way mode allowEmpty depth value).regular
      (Regular.delimited (fun len => ?_) fun len => ?_)
    · split_ifs
      · exact regular_error _
      · refine (regular_decodeEach (fun v => ?_) _).bind fun _ => (regular_noMoreItems item).map _
        exact (regular_anotherItem item).bind fun _ => hitem.regular way mode true depth v
    · split_ifs with hlen
      · exact EndsAtCap.sealed (endsAtCap_error _) len
      · exact hitem.sealed_packedArray way mode depth value (by simpa using hlen)
  advances way mode allowEmpty depth value :=
    (packedArray_decodeBy item way mode allowEmpty depth value).advances (advances_region _ _)
  takes hsize := by cases hsize

end

theorem Regular.proxied {P : Type} {codec : ValueCodec P} (hcodec : codec.Regular)
    (proxy : Proxy T P) (forOverwrite : T) (emptyState : Option (EmptyState T)) :
    (codec.proxied proxy forOverwrite emptyState).Regular where
  regular way mode allowEmpty depth value := by
    rw [proxied_decodeBy]
    refine (hcodec.regular way mode allowEmpty depth _).bind fun _ => ?_
    cases way with
    | relaxed => exact (regular_ofResult _).map _
    | distinguished => exact (regular_ofResult _).bind fun _ => (regular_done _).check _
  advances way mode allowEmpty depth value := by
    rw [proxied_decodeBy]
    exact Advances.bind (hcodec.advances way mode allowEmpty depth _) _
  takes hsize way mode allowEmpty depth value := by
    rw [proxied_decodeBy]
    refine (hcodec.takes hsize way mode allowEmpty depth _).bind (fun _ => ?_) (Nat.add_zero _)
    cases way with
    | relaxed => exact (takes_ofResult _).map _
    | distinguished => exact (takes_ofResult _).bind (fun _ => (takes_done _).check _) rfl

end ValueCodec

end Bilrost
