import Bilrost.Codec.TimeSpans
import Bilrost.Schema.MessageWrites
import Bilrost.Schema.Single

/-!
Signed spans of time have one encoding each. A pair from the wire is accepted if
its parts have the same sign, it has less than a second of nanoseconds, and its
span is in range; then it is the pair that the span is encoded to. Both ways of
decoding accept the same pairs, and the bytes are those of a `Duration`.
-/

namespace Bilrost

open Program Bilrost.Types

section messages

theorem SecondsAndNanos.field_tags (i : Fin 2) : (SecondsAndNanos.field i).tags = [i.val + 1] := by
  fin_cases i <;> rfl

theorem SecondsAndNanos.sound {M : Type} (view : M ≃ I64 × I32) :
    (SecondsAndNanos.fields view).Sound :=
  Fields.sound_of_tags (F := SecondsAndNanos.fields view) 1 field_tags (by decide : 2 + 1 ≤ 2 ^ 32)

theorem SecondsAndNanos.built_field (allowed : Features) (i : Fin 2) :
    Built allowed (.messageField (SecondsAndNanos.field i)) := by
  have hsecs : Built allowed (.field (VarintScalar.i64.scalar.codec.plain
      (EmptyState.single (0 : BitVec 64)))) :=
    .plain rfl (Scalar.empties_single _)
      (.scalar (.varint (VarintScalar.lawful_signed (by decide))))
  have hnanos : Built allowed (.field (FixedScalar.i32.scalar.codec.plain
      (EmptyState.single (0 : BitVec 32)))) :=
    .plain rfl (Scalar.empties_single _) (.scalar (.fixed (FixedScalar.lawful_ofBits .four)))
  fin_cases i
  · exact .tagged 1 hsecs
  · exact .tagged 2 hnanos

theorem built_duration (allowed : Features) : Built allowed (.message Duration.message) :=
  .fields (SecondsAndNanos.sound _) .derived (.inr (inferInstanceAs (Subsingleton Unit)))
    (SecondsAndNanos.built_field allowed)

theorem TimeDeltaProxy.standard :
    (TimeDeltaProxy.fields.listed (.runtime 0)).Standard :=
  .listed _ (Fields.ascending_of_tags (F := TimeDeltaProxy.fields) 1 SecondsAndNanos.field_tags)
    (.inl rfl)

theorem built_timeDeltaProxy (allowed : Features) :
    Built allowed (.message TimeDeltaProxy.message) :=
  .fields (SecondsAndNanos.sound _) TimeDeltaProxy.standard
    (.inr (inferInstanceAs (Subsingleton Unit))) (SecondsAndNanos.built_field allowed)

/-- However a value is encoded, it is encoded as these bytes. -/
structure ValueCodec.Gives {T : Type} (codec : ValueCodec T) (value : T) (bytes : Bytes) :
    Prop where
  encode : codec.encodeValue value = some bytes
  prepend (buf : Bytes) : codec.prependValue value buf = some (bytes ++ buf)
  encodedLen : codec.valueEncodedLen value = some bytes.length

/-- The handwritten message and the derived one are written as the same records. -/
theorem TimeDeltaProxy.written (p : TimeDeltaProxy) : ∃ records,
    message.Written True p records ∧ Duration.message.Written True p.duration records := by
  have hfields (i : Fin 2) : (SecondsAndNanos.field i).Writes True := by
    have hwrites := (SecondsAndNanos.built_field .structural i).writes id
    simpa only [Part.Writes, Features.structural, not_false_eq_true] using hwrites
  choose emit hemit using fun i => (hfields i).written (fields.get p i)
  exact ⟨_, Fields.written (SecondsAndNanos.sound _) TimeDeltaProxy.standard hfields hemit,
    Fields.written (SecondsAndNanos.sound _) .derived hfields hemit⟩

theorem TimeDeltaProxy.gives (p : TimeDeltaProxy) : ∃ bytes,
    message.tupled.Gives p bytes ∧ Duration.message.nested.Gives p.duration bytes := by
  have hwrites {M : Type} {codec : MessageCodec M} (h : Built .structural (.message codec)) :
      codec.Writes True := by
    have hwrites := h.writes id
    simpa only [Part.Writes, Features.structural, not_false_eq_true] using hwrites
  have htupled := (hwrites (built_timeDeltaProxy _)).tupled
  have hnested := ValueCodec.writes_nested (hwrites (built_duration _))
  obtain ⟨records, hproxy, hduration⟩ := p.written
  have hsame : Duration.message.nested.encodeValue p.duration = message.tupled.encodeValue p := by
    change encodeDelimited _ _ = encodeDelimited _ _
    rw [hproxy.encode, hproxy.encodedLen, hduration.encode, hduration.encodedLen]
  obtain ⟨bytes, hbytes⟩ := htupled.encode p
  refine ⟨bytes, ⟨hbytes, htupled.prepend trivial hbytes, htupled.encodedLen hbytes⟩, ?_⟩
  have hbytes := hsame.trans hbytes
  exact ⟨hbytes, hnested.prepend trivial hbytes, hnested.encodedLen hbytes⟩

/-- The message is empty if both parts are zero. -/
theorem TimeDeltaProxy.isEmpty_duration (p : TimeDeltaProxy) :
    Duration.message.isEmpty p.duration = true ↔ p.secs.val = 0 ∧ p.nanos.val = 0 := by
  have hsecs : I64.bits p.secs = 0 ↔ p.secs.val = 0 := by
    rw [show (0 : BitVec 64) = I64.bits 0 from rfl, I64.bits.injective.eq_iff,
      Ranged.ext_iff, Ranged.val_zero]
  have hnanos : I32.bits p.nanos = 0 ↔ p.nanos.val = 0 := by
    rw [show (0 : BitVec 32) = I32.bits 0 from rfl, I32.bits.injective.eq_iff,
      Ranged.ext_iff, Ranged.val_zero]
  have hall : Duration.message.isEmpty p.duration =
      (decide (I64.bits p.secs = 0) && (decide (I32.bits p.nanos = 0) && true)) := rfl
  rw [hall, Bool.and_true, Bool.and_eq_true, decide_eq_true_iff, decide_eq_true_iff, hsecs, hnanos]

end messages

namespace TimeDeltaProxy

/-- Neither part is below zero with the other above it. -/
def SameSigns (p : TimeDeltaProxy) : Prop :=
  ¬(p.secs.val < 0 ∧ 0 < p.nanos.val) ∧ ¬(0 < p.secs.val ∧ p.nanos.val < 0)

/-- A pair of parts that belong together. -/
def Proper (p : TimeDeltaProxy) : Prop := p.SameSigns ∧ |p.nanos.val| < nanosPerSecond

variable {p : TimeDeltaProxy}

theorem proper_iff : p.Proper ↔
    p.secs.val ≤ 0 ∧ -999999999 ≤ p.nanos.val ∧ p.nanos.val ≤ 0 ∨
      0 ≤ p.secs.val ∧ 0 ≤ p.nanos.val ∧ p.nanos.val ≤ 999999999 := by
  unfold Proper SameSigns nanosPerSecond
  rw [abs_lt]
  omega

theorem sign_mul_sign : p.secs.val.sign * p.nanos.val.sign = -1 ↔ ¬p.SameSigns := by
  rw [← Int.sign_mul, Int.sign_eq_neg_one_iff_neg, mul_neg_iff]
  unfold SameSigns
  tauto

/-- Dividing toward zero takes a span apart into the proper pair with its total,
which is the only one. -/
theorem proper_total_iff {n : Int} : p.Proper ∧ p.total = n ↔
    p.secs.val = n.tdiv nanosPerSecond ∧ p.nanos.val = n.tmod nanosPerSecond := by
  obtain ⟨hsum, hnonneg, hnonpos⟩ := tdiv_tmod_spec n (by decide : 0 < nanosPerSecond)
  rw [proper_iff]
  unfold total
  unfold nanosPerSecond at *
  omega

theorem Proper.canonical (h : p.Proper) : p.duration.Canonical := by
  rw [proper_iff] at h
  unfold Duration.Canonical nanosMax nanosPerSecond duration
  dsimp only
  omega

end TimeDeltaProxy

namespace SpanSupport

variable {T : Type} {support : SpanSupport T} {total : T → Int} {least greatest : Int}
  {p : TimeDeltaProxy}

/-- A type of spans from `least` to `greatest` whose proxies are taken apart
toward zero, and put together again if they are proper. -/
structure Truncates (support : SpanSupport T) (total : T → Int) (least greatest : Int) :
    Prop where
  injective : Function.Injective total
  range (t : T) : least ≤ total t ∧ total t ≤ greatest
  default : total support.default = 0
  secs (t : T) : (support.encodeProxy t).secs.val = (total t).tdiv nanosPerSecond
  nanos (t : T) : (support.encodeProxy t).nanos.val = (total t).tmod nanosPerSecond
  accepts {p : TimeDeltaProxy} : p.Proper → least ≤ p.total → p.total ≤ greatest →
    ∃ t, support.decodeProxy p = .ok (.ok t) ∧ total t = p.total
  refuses {p : TimeDeltaProxy} : ¬(p.Proper ∧ least ≤ p.total ∧ p.total ≤ greatest) →
    ∃ kind, support.decodeProxy p = .ok (.error kind) ∧ kind ≠ .recursionLimitReached
  signs {p : TimeDeltaProxy} : ¬p.SameSigns → support.decodeProxy p = .ok (.error .invalidValue)

theorem Truncates.encodeProxy (h : support.Truncates total least greatest) (t : T) :
    (support.encodeProxy t).Proper ∧ (support.encodeProxy t).total = total t :=
  TimeDeltaProxy.proper_total_iff.mpr ⟨h.secs t, h.nanos t⟩

theorem Truncates.eq_ok_iff (h : support.Truncates total least greatest) {t : T} :
    support.decodeProxy p = .ok (.ok t) ↔ support.encodeProxy t = p := by
  have hencode := h.encodeProxy t
  constructor
  · intro hdecode
    by_cases hproper : p.Proper ∧ least ≤ p.total ∧ p.total ≤ greatest
    · obtain ⟨t', hdecode', htotal⟩ := h.accepts hproper.1 hproper.2.1 hproper.2.2
      obtain rfl : t' = t := Except.ok.inj (Except.ok.inj (hdecode'.symm.trans hdecode))
      obtain ⟨hsecs, hnanos⟩ := TimeDeltaProxy.proper_total_iff.mp ⟨hproper.1, htotal.symm⟩
      exact TimeDeltaProxy.ext (Ranged.ext ((h.secs t').trans hsecs.symm))
        (Ranged.ext ((h.nanos t').trans hnanos.symm))
    · obtain ⟨kind, hrefused, -⟩ := h.refuses hproper
      cases hrefused.symm.trans hdecode
  · rintro rfl
    obtain ⟨hle, hge⟩ := h.range t
    obtain ⟨t', hdecode, htotal⟩ := h.accepts hencode.1 (hencode.2.symm ▸ hle)
      (hencode.2.symm ▸ hge)
    obtain rfl : t' = t := h.injective (htotal.trans hencode.2)
    exact hdecode

theorem Truncates.accepts_iff (h : support.Truncates total least greatest) :
    (∃ t, support.decodeProxy p = .ok (.ok t)) ↔
      p.Proper ∧ least ≤ p.total ∧ p.total ≤ greatest := by
  constructor
  · rintro ⟨t, hdecode⟩
    by_contra hnot
    obtain ⟨kind, hrefused, -⟩ := h.refuses hnot
    cases hrefused.symm.trans hdecode
  · rintro ⟨hproper, hle, hge⟩
    obtain ⟨t, hdecode, -⟩ := h.accepts hproper hle hge
    exact ⟨t, hdecode⟩

theorem Truncates.returns (h : support.Truncates total least greatest) (p : TimeDeltaProxy) :
    ∃ decoded, support.decodeProxy p = .ok decoded := by
  by_cases hproper : p.Proper ∧ least ≤ p.total ∧ p.total ≤ greatest
  · obtain ⟨t, hdecode, -⟩ := h.accepts hproper.1 hproper.2.1 hproper.2.2
    exact ⟨_, hdecode⟩
  · obtain ⟨kind, hrefused, -⟩ := h.refuses hproper
    exact ⟨_, hrefused⟩

theorem Truncates.proxy_decodeProxy (h : support.Truncates total least greatest) :
    .ok (support.proxy.decodeProxy p) = support.decodeProxy p := by
  obtain ⟨decoded, hdecode⟩ := h.returns p
  simp only [proxy, hdecode]

theorem Truncates.proxy_distinguished (h : support.Truncates total least greatest) :
    support.proxy.decodeProxyDistinguished p =
      (support.proxy.decodeProxy p).map fun t => (t, .canonical) := by
  obtain ⟨decoded, hdecode⟩ := h.returns p
  simp only [proxy, decodeProxyDistinguished, hdecode, Attempt.ok_bind]

/-- What relaxed decoding of the proxy finds out from the signs, the proxy would
refuse for the same reason. -/
theorem Truncates.codec_eq [DecidableEq T] (h : support.Truncates total least greatest) :
    support.codec = TimeDeltaProxy.message.tupled.proxied support.proxy support.default
      (some (EmptyState.single support.default)) := by
  have hsigns (mode : DecodingMode) (depth : Nat) :
      (do
        let decoded ← TimeDeltaProxy.codec.decodeValue mode depth TimeDeltaProxy.codec.forOverwrite
        ofResult (support.proxy.decodeProxy decoded)) =
      (do
        let decoded ← TimeDeltaProxy.message.tupled.decodeValue mode depth
          TimeDeltaProxy.message.tupled.forOverwrite
        ofResult (support.proxy.decodeProxy decoded)) := by
    simp only [TimeDeltaProxy.codec, Program.bind_eq, bind_assoc]
    congr 1
    funext p
    split_ifs with hmixed
    · have hrefused := h.signs (TimeDeltaProxy.sign_mul_sign.mp hmixed)
      simp only [proxy, hrefused]
      rfl
    · rfl
  unfold codec ValueCodec.proxied
  simp only [hsigns]
  rfl

theorem Truncates.lawful (h : support.Truncates total least greatest) : support.proxy.Lawful where
  distinguished p := by
    rw [h.proxy_distinguished]
    cases support.proxy.decodeProxy p <;> rfl
  refuses p hlimit := by
    by_cases hproper : p.Proper ∧ least ≤ p.total ∧ p.total ≤ greatest
    · obtain ⟨t, hdecode, -⟩ := h.accepts hproper.1 hproper.2.1 hproper.2.2
      rw [← h.proxy_decodeProxy, hlimit] at hdecode
      cases hdecode
    · obtain ⟨kind, hrefused, hne⟩ := h.refuses hproper
      rw [← h.proxy_decodeProxy, hlimit] at hrefused
      exact hne (Except.error.inj (Except.ok.inj hrefused)).symm

/-- Spans are among the values that messages are built from. -/
theorem Truncates.built [DecidableEq T] (h : support.Truncates total least greatest)
    {allowed : Features} (hallowed : allowed.proxies) : Built allowed (.value support.codec) := by
  rw [h.codec_eq]
  exact .proxied _ _ hallowed h.lawful (.tupled (built_timeDeltaProxy allowed))

/-- Decoding a span is decoding the message of its proxy, and then the proxy. -/
theorem Truncates.run_decodeBy [DecidableEq T] (h : support.Truncates total least greatest)
    {β : Type} [Buf β] (way : Way) (mode : DecodingMode) (allowEmpty : Bool) (depth : Nat)
    (value : T) (minCanonicity : Canonicity) {capped rest : Capped β} {canon : Canonicity}
    (hrun : (TimeDeltaProxy.message.tupled.decodeBy way mode allowEmpty depth
      TimeDeltaProxy.message.empty).run minCanonicity capped = .ok ((p, canon), rest))
    {result : (T × Canonicity) × Capped β} :
    (support.codec.decodeBy way mode allowEmpty depth value).run minCanonicity capped =
        .ok result ↔
      ∃ t, support.decodeProxy p = .ok (.ok t) ∧ result = ((t, canon), rest) := by
  have hempty : TimeDeltaProxy.message.tupled.forOverwrite = TimeDeltaProxy.message.empty := rfl
  rw [h.codec_eq, ValueCodec.proxied_decodeBy, hempty, run_bind, hrun, ← h.proxy_decodeProxy]
  cases way with
  | relaxed =>
      have hcanon : canon = .canonical := by
        rw [ValueCodec.decodeBy, asCanonical, run_bind] at hrun
        split at hrun
        · exact congrArg (fun x => x.1.2) (Except.ok.inj hrun).symm
        · cases hrun
      change (asCanonical (ofResult (support.proxy.decodeProxy p))).run minCanonicity rest = _ ↔ _
      rw [hcanon]
      cases support.proxy.decodeProxy p with
      | error kind => simp [asCanonical, ofResult, Program.error, Program.run]
      | ok t => simp [asCanonical, ofResult, Program.run, eq_comm]
  | distinguished =>
      change ((ofResult (support.proxy.decodeProxyDistinguished p)).bind fun value =>
        .check value.2 (.done (value.1, canon.update value.2))).run minCanonicity rest = _ ↔ _
      rw [h.proxy_distinguished]
      cases support.proxy.decodeProxy p with
      | error kind => simp [Except.map, ofResult, Program.error, Program.run]
      | ok t =>
          simp only [Except.map, ofResult, done_bind, Program.run,
            check_of_le (Canonicity.le_canonical minCanonicity), Canonicity.update_canonical]
          simp [eq_comm]

end SpanSupport

namespace ChronoTimeDelta

variable {p : TimeDeltaProxy}

theorem splitProxy_of_proper (hproper : p.Proper)
    (hle : -9223372036854775808 * nanosPerSecond ≤ p.total) :
    ∃ secs nanos, splitProxy p = .ok (.ok (secs, nanos)) ∧ 0 ≤ nanos.val ∧
      nanos.val < nanosPerSecond ∧ secs.val * nanosPerSecond + nanos.val = p.total := by
  rw [TimeDeltaProxy.proper_iff] at hproper
  have hsecs := p.secs.val_le
  unfold TimeDeltaProxy.total at *
  unfold nanosPerSecond at *
  unfold splitProxy
  split_ifs with hbelow hplain
  · have hsecs' : -9223372036854775808 ≤ p.secs.val - 1 := by omega
    have hsecs'' : p.secs.val - 1 ≤ 9223372036854775807 := by omega
    have hnanos : -2147483648 ≤ p.nanos.val + 1000000000 := by omega
    have hnanos' : p.nanos.val + 1000000000 ≤ 2147483647 := by omega
    rw [Ranged.fit_of_mem hsecs' hsecs'', Attempt.ok_bind, Ranged.fit_of_mem hnanos hnanos',
      Attempt.ok_bind]
    refine ⟨_, _, rfl, ?_⟩
    dsimp only
    omega
  · refine ⟨_, _, rfl, ?_⟩
    omega
  · omega

theorem splitProxy_of_not_proper
    (hnot : ¬(p.Proper ∧ -9223372036854775808 * nanosPerSecond ≤ p.total)) :
    splitProxy p = .ok (.error .invalidValue) := by
  rw [TimeDeltaProxy.proper_iff] at hnot
  have hsecs := p.secs.le_val
  unfold TimeDeltaProxy.total at *
  unfold nanosPerSecond at *
  unfold splitProxy
  rw [if_neg (by omega), if_neg (by omega)]

variable {TimeDelta : Type} {chrono : ChronoTimeDelta TimeDelta} {total : TimeDelta → Int}

theorem Documented.truncates (h : chrono.Documented total) :
    chrono.support.Truncates total leastTotal greatestTotal where
  injective := h.injective
  range t := ⟨h.least_le t, h.le_greatest t⟩
  default := h.default
  secs := h.numSeconds
  nanos := h.subsecNanos
  accepts {p} hproper hle hge := by
    have hfloor : -9223372036854775808 * nanosPerSecond ≤ p.total := by
      unfold leastTotal at hle
      unfold nanosPerSecond
      omega
    obtain ⟨secs, nanos, hsplit, hnonneg, hlt, htotal⟩ := splitProxy_of_proper hproper hfloor
    have hcast : (.wrap nanos.val : U32).val = nanos.val :=
      Ranged.val_wrap hnonneg (by have := nanos.val_le; omega)
    have hsome : (chrono.new secs (.wrap nanos.val)).isSome := by
      rw [h.new_isSome, hcast, htotal]
      exact ⟨hlt, hle, hge⟩
    obtain ⟨t, ht⟩ := Option.isSome_iff_exists.mp hsome
    refine ⟨t, ?_, ?_⟩
    · change chrono.decodeProxy p = _
      rw [decodeProxy, hsplit, Attempt.ok_bind]
      simp only [ht]
    · rw [h.new_eq_some ht, hcast, htotal]
  refuses {p} hnot := by
    change ∃ kind, chrono.decodeProxy p = _ ∧ _
    by_cases hproper : p.Proper ∧ -9223372036854775808 * nanosPerSecond ≤ p.total
    · obtain ⟨secs, nanos, hsplit, hnonneg, hlt, htotal⟩ :=
        splitProxy_of_proper hproper.1 hproper.2
      have hcast : (.wrap nanos.val : U32).val = nanos.val :=
        Ranged.val_wrap hnonneg (by have := nanos.val_le; omega)
      have hnone : chrono.new secs (.wrap nanos.val) = none := by
        rw [← Option.not_isSome_iff_eq_none, h.new_isSome, hcast, htotal]
        exact fun hin => hnot ⟨hproper.1, hin.2⟩
      refine ⟨.outOfDomainValue, ?_, by decide⟩
      rw [decodeProxy, hsplit, Attempt.ok_bind]
      simp only [hnone]
    · refine ⟨.invalidValue, ?_, by decide⟩
      rw [decodeProxy, splitProxy_of_not_proper hproper]
      rfl
  signs {p} hsigns := by
    change chrono.decodeProxy p = _
    rw [decodeProxy, splitProxy_of_not_proper fun hproper => hsigns hproper.1.1]
    rfl

end ChronoTimeDelta

namespace TimeDuration

variable {p : TimeDeltaProxy} {Duration : Type} {time : TimeDuration Duration}
  {total : Duration → Int}

/-- Every proper pair is in range. -/
theorem total_mem (hproper : p.Proper) : leastTotal ≤ p.total ∧ p.total ≤ greatestTotal := by
  rw [TimeDeltaProxy.proper_iff] at hproper
  have hle := p.secs.le_val
  have hge := p.secs.val_le
  unfold TimeDeltaProxy.total leastTotal greatestTotal nanosPerSecond
  omega

theorem decodeProxy_of_not_proper (hnot : ¬p.Proper) :
    time.decodeProxy p = .ok (.error .invalidValue) := by
  rw [TimeDeltaProxy.proper_iff] at hnot
  exact if_neg hnot

theorem Documented.truncates (h : time.Documented total) :
    time.support.Truncates total leastTotal greatestTotal where
  injective := h.injective
  range t := ⟨h.least_le t, h.le_greatest t⟩
  default := h.default
  secs := h.wholeSeconds
  nanos := h.subsecNanoseconds
  accepts {p} hproper hle hge := by
    obtain ⟨t, ht⟩ := h.new_returns hle hge
    refine ⟨t, ?_, h.new_eq_ok ht⟩
    change time.decodeProxy p = _
    rw [decodeProxy, if_pos (TimeDeltaProxy.proper_iff.mp hproper), ht]
    rfl
  refuses {p} hnot :=
    have hproper : ¬p.Proper := fun hproper => hnot ⟨hproper, total_mem hproper⟩
    ⟨.invalidValue, decodeProxy_of_not_proper hproper, by decide⟩
  signs hsigns := decodeProxy_of_not_proper fun hproper => hsigns hproper.1

end TimeDuration

/-- What is expected of spans from `least` to `greatest`: the pairs that are
accepted are their encodings, and each span has exactly one; both ways of
decoding accept the pairs that they read alike, without a panic; and the bytes
are those of the canonical `Duration` with the same parts, which is left out of a
message if the span is. -/
structure SpanSupport.Bijective {T : Type} [DecidableEq T] (support : SpanSupport T)
    (total : T → Int) (least greatest : Int) : Prop where
  returns (p : TimeDeltaProxy) : ∃ decoded, support.decodeProxy p = .ok decoded
  accepts (p : TimeDeltaProxy) : (∃ t, support.decodeProxy p = .ok (.ok t)) ↔
    p.SameSigns ∧ |p.nanos.val| < nanosPerSecond ∧ least ≤ p.total ∧ p.total ≤ greatest
  exact {p : TimeDeltaProxy} {t : T} : support.decodeProxy p = .ok (.ok t) →
    total t = p.total ∧ support.encodeProxy t = p
  onto (t : T) : support.decodeProxy (support.encodeProxy t) = .ok (.ok t)
  decodes {β : Type} [Buf β] (way : Way) (mode : DecodingMode) (allowEmpty : Bool) (depth : Nat)
    (value : T) (minCanonicity : Canonicity) {capped rest : Capped β} {p : TimeDeltaProxy}
    {canon : Canonicity} {result : (T × Canonicity) × Capped β} :
    (TimeDeltaProxy.message.tupled.decodeBy way mode allowEmpty depth
        TimeDeltaProxy.message.empty).run minCanonicity capped = .ok ((p, canon), rest) →
      ((support.codec.decodeBy way mode allowEmpty depth value).run minCanonicity capped =
          .ok result ↔
        ∃ t, support.decodeProxy p = .ok (.ok t) ∧ result = ((t, canon), rest))
  canonical (t : T) : (support.encodeProxy t).duration.Canonical
  encodes (t : T) : ∃ bytes, support.codec.Gives t bytes ∧
    Duration.message.nested.Gives (support.encodeProxy t).duration bytes
  isEmpty (t : T) : t = support.default ↔
    Duration.message.isEmpty (support.encodeProxy t).duration = true

theorem SpanSupport.Truncates.bijective {T : Type} [DecidableEq T] {support : SpanSupport T}
    {total : T → Int} {least greatest : Int} (h : support.Truncates total least greatest) :
    support.Bijective total least greatest where
  returns := h.returns
  accepts p := h.accepts_iff.trans and_assoc
  exact {p t} hdecode := by
    obtain rfl := h.eq_ok_iff.mp hdecode
    exact ⟨(h.encodeProxy t).2.symm, rfl⟩
  onto t := h.eq_ok_iff.mpr rfl
  decodes := by
    intro β _ way mode allowEmpty depth value minCanonicity capped rest p canon result hrun
    exact h.run_decodeBy way mode allowEmpty depth value minCanonicity hrun
  canonical t := (h.encodeProxy t).1.canonical
  encodes t := by
    obtain ⟨bytes, hproxy, hduration⟩ := (support.encodeProxy t).gives
    exact ⟨bytes, ⟨hproxy.encode, hproxy.prepend, hproxy.encodedLen⟩, hduration⟩
  isEmpty t := by
    obtain ⟨hproper, htotal⟩ := h.encodeProxy t
    rw [TimeDeltaProxy.isEmpty_duration, ← h.injective.eq_iff, h.default, ← htotal]
    rw [TimeDeltaProxy.proper_iff] at hproper
    unfold TimeDeltaProxy.total nanosPerSecond
    omega

/-- Assuming what the two crates say about their spans, both have one encoding for
each of them, which is that of `Duration`. -/
theorem time_spans_are_bijective {TimeDelta Duration : Type} [DecidableEq TimeDelta]
    [DecidableEq Duration] {chrono : ChronoTimeDelta TimeDelta} {time : TimeDuration Duration}
    {chronoTotal : TimeDelta → Int} {timeTotal : Duration → Int}
    (hchrono : chrono.Documented chronoTotal) (htime : time.Documented timeTotal) :
    chrono.support.Bijective chronoTotal ChronoTimeDelta.leastTotal
        ChronoTimeDelta.greatestTotal ∧
      time.support.Bijective timeTotal TimeDuration.leastTotal TimeDuration.greatestTotal :=
  ⟨hchrono.truncates.bijective, htime.truncates.bijective⟩

/-- Spans that are nothing but their nanoseconds, for `chrono`. -/
def ChronoTimeDelta.ofNanoseconds : ChronoTimeDelta (Ranged leastTotal greatestTotal) where
  default := .lit 0
  new secs nanos :=
    if nanos.val < nanosPerSecond then Ranged.fit? (secs.val * nanosPerSecond + nanos.val)
    else none
  numSeconds t := .wrap (t.val.tdiv nanosPerSecond)
  subsecNanos t := .wrap (t.val.tmod nanosPerSecond)

/-- Spans that are nothing but their nanoseconds, for `time`. -/
def TimeDuration.ofNanoseconds : TimeDuration (Ranged leastTotal greatestTotal) where
  default := .lit 0
  new secs nanos := Ranged.fit (secs.val * nanosPerSecond + nanos.val)
  wholeSeconds t := .wrap (t.val.tdiv nanosPerSecond)
  subsecNanoseconds t := .wrap (t.val.tmod nanosPerSecond)

/-- The parts of a span whose seconds are in range. -/
theorem val_wrap_parts {n : Int} (hle : TimeDuration.leastTotal ≤ n)
    (hge : n ≤ TimeDuration.greatestTotal) :
    (.wrap (n.tdiv nanosPerSecond) : I64).val = n.tdiv nanosPerSecond ∧
      (.wrap (n.tmod nanosPerSecond) : I32).val = n.tmod nanosPerSecond := by
  obtain ⟨hsum, hnonneg, hnonpos⟩ := tdiv_tmod_spec n (by decide : 0 < nanosPerSecond)
  unfold TimeDuration.leastTotal at hle
  unfold TimeDuration.greatestTotal at hge
  unfold nanosPerSecond at *
  constructor
  · exact Ranged.val_wrap (by omega) (by omega)
  · exact Ranged.val_wrap (by omega) (by omega)

theorem ChronoTimeDelta.documented_ofNanoseconds :
    ofNanoseconds.Documented fun t => t.val where
  injective _ _ := Ranged.ext
  least_le t := t.le_val
  le_greatest t := t.val_le
  default := rfl
  new_eq_some {secs nanos t} hnew := by
    unfold ofNanoseconds at hnew
    dsimp only at hnew
    split_ifs at hnew
    exact Ranged.fit?_eq_some.mp hnew
  new_isSome {secs nanos} := by
    unfold ofNanoseconds
    dsimp only
    split_ifs with hlt
    · rw [Option.isSome_iff_ne_none, ne_eq, Ranged.fit?_eq_none, not_not]
      exact (and_iff_right hlt).symm
    · simp [hlt]
  numSeconds t := by
    have hle := t.le_val
    have hge := t.val_le
    unfold leastTotal at hle
    unfold greatestTotal at hge
    exact (val_wrap_parts (by unfold TimeDuration.leastTotal; omega)
      (by unfold TimeDuration.greatestTotal; omega)).1
  subsecNanos t := by
    have hle := t.le_val
    have hge := t.val_le
    unfold leastTotal at hle
    unfold greatestTotal at hge
    exact (val_wrap_parts (by unfold TimeDuration.leastTotal; omega)
      (by unfold TimeDuration.greatestTotal; omega)).2

theorem TimeDuration.documented_ofNanoseconds :
    ofNanoseconds.Documented fun t => t.val where
  injective _ _ := Ranged.ext
  least_le t := t.le_val
  le_greatest t := t.val_le
  default := rfl
  new_eq_ok hnew := Ranged.fit_eq_ok.mp hnew
  new_returns hle hge := ⟨_, Ranged.fit_of_mem hle hge⟩
  wholeSeconds t := (val_wrap_parts t.le_val t.val_le).1
  subsecNanoseconds t := (val_wrap_parts t.le_val t.val_le).2

/-- Spans of either kind that are nothing but their nanoseconds. -/
theorem time_spans_are_bijective_ofNanoseconds :
    ChronoTimeDelta.ofNanoseconds.support.Bijective (fun t => t.val)
        ChronoTimeDelta.leastTotal ChronoTimeDelta.greatestTotal ∧
      TimeDuration.ofNanoseconds.support.Bijective (fun t => t.val)
        TimeDuration.leastTotal TimeDuration.greatestTotal :=
  time_spans_are_bijective ChronoTimeDelta.documented_ofNanoseconds
    TimeDuration.documented_ofNanoseconds

end Bilrost
