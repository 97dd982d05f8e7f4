import Bilrost.Decode.Payload
import Bilrost.Decode.Trace

/-!
What programs make of bytes, as a relation: from which bytes which value is
parsed, and what is left. Canonicities that are checked on the way are not
looked at. There is a rule for each way to build a program, so that what a
decoder accepts is found by rewriting with them.

A program is local if what it makes of the front of some bytes does not depend
on the bytes behind. The decoders of values are local; those of repeated fields
are not, as they look for another field.
-/

namespace Bilrost

namespace Program

/-- The program returns `x` and leaves `rest`. -/
def Parses {α : Type} (p : Program α) (bytes : Bytes) (x : α) (rest : Bytes) : Prop :=
  ∃ lowest, p.parse bytes = .ok ⟨x, lowest, rest⟩

section
variable {α δ γ σ : Type} {bytes rest : Bytes} {x : α}

theorem Parses.unique {p : Program α} {y : α} {rest' : Bytes} (h : p.Parses bytes x rest)
    (h' : p.Parses bytes y rest') : x = y ∧ rest = rest' := by
  obtain ⟨lowest, h⟩ := h
  obtain ⟨lowest', h'⟩ := h'
  rw [h] at h'
  simpa using ⟨congrArg Parsed.value (Except.ok.inj h'), congrArg Parsed.rest (Except.ok.inj h')⟩

theorem Same.parses {p q : Program α} (h : Same p q) : p.Parses bytes x rest ↔ q.Parses bytes x rest := by
  unfold Parses
  rw [h.parse]

@[simp] theorem parses_done {value : α} :
    (done value).Parses bytes x rest ↔ value = x ∧ bytes = rest := by
  simp [Parses, parse]

@[simp] theorem parses_fail {stop : Stop} : (fail stop : Program α).Parses bytes x rest ↔ False := by
  simp [Parses, parse]

@[simp] theorem parses_error {kind : DecodeErrorKind} :
    (error kind : Program α).Parses bytes x rest ↔ False := parses_fail

theorem parses_lower {canon : Canonicity} {outcome : Except Fault (Parsed α)} :
    (∃ lowest, outcome.map (Parsed.lower canon) = .ok ⟨x, lowest, rest⟩) ↔
      ∃ lowest, outcome = .ok ⟨x, lowest, rest⟩ := by
  cases outcome with
  | error fault => simp [Except.map]
  | ok parsed =>
      obtain ⟨y, lowest, left⟩ := parsed
      simp [Except.map, Parsed.lower]

@[simp] theorem parses_check {canon : Canonicity} {next : Program α} :
    (check canon next).Parses bytes x rest ↔ next.Parses bytes x rest := parses_lower

@[simp] theorem parses_op {o : Op γ} {next : γ → Program α} :
    (op o next).Parses bytes x rest ↔
      ∃ y mid, o.parse bytes = some (y, mid) ∧ (next y).Parses mid x rest := by
  unfold Parses
  rw [parse]
  cases o.parse bytes with
  | none => simp
  | some taken => simp [Prod.ext_iff]

@[simp] theorem parses_note {note : Note} {next : Unit → Program α} :
    (op (.note note) next).Parses bytes x rest ↔ (next ()).Parses bytes x rest := by
  rw [parses_op]
  constructor
  · rintro ⟨y, mid, hread, hnext⟩
    obtain ⟨-, rfl⟩ : () = y ∧ bytes = mid := by simpa [Op.parse] using hread
    exact hnext
  · intro hnext
    exact ⟨(), bytes, rfl, hnext⟩

@[simp] theorem parses_bind {p : Program α} {f : α → Program δ} {y : δ} :
    (p.bind f).Parses bytes y rest ↔
      ∃ x mid, p.Parses bytes x mid ∧ (f x).Parses mid y rest := by
  unfold Parses
  rw [parse_bind]
  cases p.parse bytes with
  | error fault => simp
  | ok parsed =>
      obtain ⟨x, lowest, mid⟩ := parsed
      simp only [parses_lower]
      constructor
      · rintro hnext
        exact ⟨x, mid, ⟨lowest, rfl⟩, hnext⟩
      · rintro ⟨x', mid', ⟨lowest', hx⟩, hnext⟩
        obtain ⟨rfl, rfl, rfl⟩ : x = x' ∧ lowest = lowest' ∧ mid = mid' := by simpa using hx
        exact hnext

@[simp] theorem parses_ofResult {result : Except DecodeErrorKind α} :
    (ofResult result).Parses bytes x rest ↔ result = .ok x ∧ bytes = rest := by
  cases result <;> simp [ofResult]

theorem parses_region {inner : Nat → Program γ} {next : γ → Program α} :
    (region inner next).Parses bytes x rest ↔
      ∃ content left y, parseDelimited bytes = some (content, left) ∧
        (inner content.length).Parses content y [] ∧ (next y).Parses left x rest := by
  unfold Parses
  rw [parse]
  cases parseDelimited bytes with
  | none => simp
  | some taken =>
      obtain ⟨content, left⟩ := taken
      simp only
      cases hinner : (inner content.length).parse content with
      | error fault => simp [hinner]
      | ok parsed =>
          obtain ⟨y, lowest, leftover⟩ := parsed
          cases leftover with
          | cons b leftover => simp [hinner]
          | nil =>
              simp only [parses_lower]
              constructor
              · intro hnext
                exact ⟨content, left, y, rfl, ⟨lowest, hinner⟩, hnext⟩
              · rintro ⟨content', left', y', htaken, ⟨lowest', hy⟩, hnext⟩
                obtain ⟨rfl, rfl⟩ : content = content' ∧ left = left' := by simpa using htaken
                obtain ⟨rfl, -⟩ : y = y' ∧ lowest = lowest' := by simpa [hinner] using hy
                exact hnext

theorem parseDelimited_eq_some_iff {content left : Bytes} :
    parseDelimited bytes = some (content, left) ↔
      content.length < 2 ^ 64 ∧ bytes = varint content.length ++ (content ++ left) := by
  constructor
  · exact parseDelimited_eq_some
  · rintro ⟨hlt, rfl⟩
    exact parseDelimited_append hlt left

@[simp] theorem parses_delimited {inner : Nat → Program α} :
    (delimited inner).Parses bytes x rest ↔
      ∃ content : Bytes, content.length < 2 ^ 64 ∧
        bytes = varint content.length ++ (content ++ rest) ∧
          (inner content.length).Parses content x [] := by
  rw [delimited, parses_region]
  simp only [parseDelimited_eq_some_iff, parses_done]
  constructor
  · rintro ⟨content, left, y, ⟨hlt, hbytes⟩, hinner, rfl, rfl⟩
    exact ⟨content, hlt, hbytes, hinner⟩
  · rintro ⟨content, hlt, hbytes, hinner⟩
    exact ⟨content, rest, x, ⟨hlt, hbytes⟩, hinner, rfl, rfl⟩

theorem parses_decodeVarint {n : Nat} :
    Op.decodeVarint.parse bytes = some (n, rest) ↔ n < 2 ^ 64 ∧ bytes = varint n ++ rest := by
  rw [Op.parse]
  constructor
  · intro h
    cases hparse : parseVarint bytes with
    | error e => simp [hparse, Except.toOption] at h
    | ok taken =>
        obtain rfl : taken = (n, rest) := by simpa [hparse, Except.toOption] using h
        exact parseVarint_eq_ok hparse
  · rintro ⟨hlt, rfl⟩
    rw [parseVarint_varint hlt]
    rfl

end

/-- What is made of the front of some bytes does not depend on the others. -/
structure Local {α : Type} (p : Program α) : Prop where
  iff {bytes rest : Bytes} {x : α} :
    p.Parses bytes x rest ↔ ∃ payload, bytes = payload ++ rest ∧ p.Parses payload x []

section
variable {α δ γ : Type}

theorem Local.append {p : Program α} (h : p.Local) {payload : Bytes} {x : α}
    (hpayload : p.Parses payload x []) (rest : Bytes) : p.Parses (payload ++ rest) x rest :=
  h.iff.mpr ⟨payload, rfl, hpayload⟩

theorem local_done (value : α) : (done value).Local := by
  constructor
  intro bytes rest x
  simp only [parses_done]
  constructor
  · rintro ⟨rfl, rfl⟩
    exact ⟨[], rfl, rfl, rfl⟩
  · rintro ⟨payload, rfl, rfl, rfl⟩
    exact ⟨rfl, rfl⟩

theorem local_error (kind : DecodeErrorKind) : (error kind : Program α).Local := by
  constructor
  intro bytes rest x
  simp

theorem local_ofResult (result : Except DecodeErrorKind α) : (ofResult result).Local := by
  cases result with
  | ok value => exact local_done value
  | error kind => exact local_error kind

theorem Local.check {next : Program α} (canon : Canonicity) (h : next.Local) :
    (Program.check canon next).Local := by
  constructor
  intro bytes rest x
  simpa only [parses_check] using h.iff

theorem Local.note {next : Unit → Program α} (note : Note) (h : (next ()).Local) :
    (op (.note note) next).Local := by
  constructor
  intro bytes rest x
  simpa only [parses_note] using h.iff

theorem Local.bind {p : Program α} {f : α → Program δ} (hp : p.Local) (hf : ∀ x, (f x).Local) :
    (p.bind f).Local := by
  constructor
  intro bytes rest y
  simp only [parses_bind]
  constructor
  · rintro ⟨x, mid, hx, hy⟩
    obtain ⟨front, rfl, hfront⟩ := hp.iff.mp hx
    obtain ⟨back, rfl, hback⟩ := (hf x).iff.mp hy
    exact ⟨front ++ back, (List.append_assoc ..).symm, x, back, hp.append hfront back, hback⟩
  · rintro ⟨payload, rfl, x, mid, hx, hy⟩
    obtain ⟨front, rfl, hfront⟩ := hp.iff.mp hx
    refine ⟨x, mid ++ rest, ?_, (hf x).append hy rest⟩
    rw [List.append_assoc]
    exact hp.append hfront (mid ++ rest)

theorem local_delimited (inner : Nat → Program α) : (delimited inner).Local := by
  constructor
  intro bytes rest x
  simp only [parses_delimited]
  constructor
  · rintro ⟨content, hlt, rfl, hinner⟩
    exact ⟨varint content.length ++ content, by simp, content, hlt, by simp, hinner⟩
  · rintro ⟨payload, rfl, content, hlt, rfl, hinner⟩
    exact ⟨content, hlt, by simp, hinner⟩

theorem local_decodeVarint (next : Nat → Except DecodeErrorKind α) :
    (op .decodeVarint fun n => ofResult (next n)).Local := by
  constructor
  intro bytes rest x
  simp only [parses_op, parses_decodeVarint, parses_ofResult]
  constructor
  · rintro ⟨n, mid, ⟨hlt, rfl⟩, hnext, rfl⟩
    exact ⟨varint n, rfl, n, [], ⟨hlt, by simp⟩, hnext, rfl⟩
  · rintro ⟨payload, rfl, n, mid, ⟨hlt, rfl⟩, hnext, rfl⟩
    exact ⟨n, rest, ⟨hlt, by simp⟩, hnext, rfl⟩

end

theorem parse_bytes_iff {n : Nat} {bytes rest x : Bytes} :
    (if n ≤ bytes.length then some (bytes.take n, bytes.drop n) else none) = some (x, rest) ↔
      x.length = n ∧ bytes = x ++ rest := by
  constructor
  · intro h
    split_ifs at h with hle
    obtain ⟨rfl, rfl⟩ : bytes.take n = x ∧ bytes.drop n = rest := by simpa using h
    exact ⟨List.length_take_of_le hle, (List.take_append_drop n bytes).symm⟩
  · rintro ⟨rfl, rfl⟩
    simp

/-- A read of a fixed number of bytes. -/
theorem local_fixed {α : Type} {o : Op Bytes} {n : Nat} (ho : o = .getBytes n ∨ o = .copyBytes n)
    (next : Bytes → Except DecodeErrorKind α) : (op o fun bytes => ofResult (next bytes)).Local := by
  have hread {bytes rest x : Bytes} :
      o.parse bytes = some (x, rest) ↔ x.length = n ∧ bytes = x ++ rest := by
    rcases ho with rfl | rfl <;> exact parse_bytes_iff
  constructor
  intro bytes rest x
  simp only [parses_op, hread, parses_ofResult]
  constructor
  · rintro ⟨taken, mid, ⟨hlen, rfl⟩, hnext, rfl⟩
    exact ⟨taken, rfl, taken, [], ⟨hlen, by simp⟩, hnext, rfl⟩
  · rintro ⟨payload, rfl, taken, mid, ⟨hlen, rfl⟩, hnext, rfl⟩
    exact ⟨taken, rest, ⟨hlen, by simp⟩, hnext, rfl⟩

/-- Steps that each take a payload. -/
inductive Rounds {σ : Type} (step : σ → Bytes → σ → Prop) : σ → List Bytes → σ → Prop
  | nil {s : σ} : Rounds step s [] s
  | cons {s s' s'' : σ} {payload : Bytes} {payloads : List Bytes} (hstep : step s payload s')
      (hrest : Rounds step s' payloads s'') : Rounds step s (payload :: payloads) s''

section
variable {σ : Type} {body : σ → Program σ}

/-- A body that takes something of its own each time. -/
structure Takers (body : σ → Program σ) : Prop where
  isLocal (s : σ) : (body s).Local
  takes {s s' : σ} : ¬(body s).Parses [] s' []

namespace Takers

variable {s x : σ} {bytes rest : Bytes}

theorem length_lt (h : Takers body) (hparse : (body s).Parses bytes x rest) :
    rest.length < bytes.length := by
  obtain ⟨payload, rfl, hpayload⟩ := (h.isLocal s).iff.mp hparse
  have hpos : 0 < payload.length := by
    rw [List.length_pos_iff]
    rintro rfl
    exact h.takes hpayload
  rw [List.length_append]
  omega

theorem parses_whileRemaining_of_ne (h : Takers body) (hne : bytes ≠ []) :
    (whileRemaining body s).Parses bytes x rest ↔
      ∃ s' mid, (body s).Parses bytes s' mid ∧ (whileRemaining body s').Parses mid x rest := by
  have hlt : ∀ s bytes parsed, (body s).parse bytes = .ok parsed →
      parsed.rest.length < bytes.length := fun s bytes parsed hparse =>
    h.length_lt ⟨parsed.lowest, hparse⟩
  have hsame : (whileRemaining body s).parse bytes =
      ((body s).bind (whileRemaining body)).parse bytes :=
    (parse_whileRemaining hlt s hne).trans (parse_bind ..).symm
  rw [← parses_bind, Parses, Parses, hsame]

/-- A loop to the end of a region takes the payloads one after the other. -/
theorem parses_whileRemaining (h : Takers body) :
    (whileRemaining body s).Parses bytes x rest ↔ rest = [] ∧ ∃ payloads : List Bytes,
      bytes = payloads.flatten ∧
        Rounds (fun s payload s' => (body s).Parses payload s' []) s payloads x := by
  constructor
  · intro hloop
    induction hn : bytes.length using Nat.strongRecOn generalizing s bytes with
    | ind n ih =>
        by_cases hne : bytes = []
        · subst hne
          obtain ⟨lowest, hparse⟩ := hloop
          rw [parse_whileRemaining_nil] at hparse
          obtain ⟨rfl, -, rfl⟩ : s = x ∧ .canonical = lowest ∧ [] = rest := by simpa using hparse
          exact ⟨rfl, [], rfl, .nil⟩
        · obtain ⟨s', mid, hfirst, hmore⟩ := (h.parses_whileRemaining_of_ne hne).mp hloop
          have hlt := h.length_lt hfirst
          obtain ⟨payload, rfl, hpayload⟩ := (h.isLocal s).iff.mp hfirst
          obtain ⟨rfl, payloads, rfl, hrounds⟩ := ih mid.length (by omega) hmore rfl
          exact ⟨rfl, payload :: payloads, rfl, .cons hpayload hrounds⟩
  · rintro ⟨rfl, payloads, rfl, hrounds⟩
    induction hrounds with
    | nil => exact ⟨_, parse_whileRemaining_nil _ _⟩
    | @cons s s' s'' payload payloads hstep _ ih =>
        have hne : (payload :: payloads).flatten ≠ [] := by
          intro hnil
          obtain ⟨rfl, -⟩ := List.append_eq_nil_iff.mp hnil
          exact h.takes hstep
        rw [h.parses_whileRemaining_of_ne hne]
        exact ⟨s', payloads.flatten, (h.isLocal s).append hstep _, ih⟩

/-- Further fields under the same tag. -/
theorem parses_whileRepeated (h : Takers body) {wireType : WireType}
    {field : WireType → σ → Program σ}
    (hfield : ∀ actual s, field actual s = (checkWireType wireType actual).bind fun _ => body s) :
    (whileRepeated field s).Parses bytes x rest ↔ NoRepeat rest ∧ ∃ payloads : List Bytes,
      bytes = (payloads.flatMap fun payload => keyBytes 0 wireType ++ payload) ++ rest ∧
        Rounds (fun s payload s' => (body s).Parses payload s' []) s payloads x := by
  have hcheck {actual : WireType} {s s' : σ} {bytes rest : Bytes} :
      (field actual s).Parses bytes s' rest ↔ wireType = actual ∧ (body s).Parses bytes s' rest := by
    rw [hfield, checkWireType]
    split_ifs with hne <;> simp [hne]
    tauto
  have hle : ∀ actual s bytes parsed, (field actual s).parse bytes = .ok parsed →
      parsed.rest.length ≤ bytes.length := fun actual s bytes parsed hparse =>
    (h.length_lt (hcheck.mp ⟨parsed.lowest, hparse⟩).2).le
  have hcons {s x : σ} {key : UInt8} {bytes rest : Bytes} (hkey : key.toNat < 4) :
      (whileRepeated field s).Parses (key :: bytes) x rest ↔
        ∃ s' mid, (field (WireType.fromU8 key.toNat) s).Parses bytes s' mid ∧
          (whileRepeated field s').Parses mid x rest := by
    have hsame : (whileRepeated field s).parse (key :: bytes) =
        ((field (WireType.fromU8 key.toNat) s).bind (whileRepeated field)).parse bytes :=
      (parse_whileRepeated_cons hle s hkey).trans (parse_bind ..).symm
    rw [← parses_bind, Parses, Parses, hsame]
  have hkey : (UInt8.ofNat wireType.toU64).toNat = wireType.toU64 := by
    cases wireType <;> rfl
  constructor
  · intro hloop
    induction hn : bytes.length using Nat.strongRecOn generalizing s bytes with
    | ind n ih =>
        by_cases hstop : NoRepeat bytes
        · obtain ⟨lowest, hparse⟩ := hloop
          rw [parse_whileRepeated_stop field s hstop] at hparse
          obtain ⟨rfl, -, rfl⟩ : s = x ∧ .canonical = lowest ∧ bytes = rest := by simpa using hparse
          exact ⟨hstop, [], rfl, .nil⟩
        · obtain ⟨key, left, rfl, hlt⟩ : ∃ key left, bytes = key :: left ∧ key.toNat < 4 := by
            cases bytes with
            | nil => exact absurd (fun _ h => by cases h) hstop
            | cons key left => exact ⟨key, left, rfl, by simpa [NoRepeat] using hstop⟩
          obtain ⟨s', mid, hfirst, hmore⟩ := (hcons hlt).mp hloop
          obtain ⟨hwire, hfirst⟩ := hcheck.mp hfirst
          obtain ⟨payload, rfl, hpayload⟩ := (h.isLocal s).iff.mp hfirst
          obtain ⟨hend, payloads, rfl, hrounds⟩ := ih mid.length
            (by rw [← hn, List.length_cons, List.length_append]; omega) hmore rfl
          refine ⟨hend, payload :: payloads, ?_, .cons hpayload hrounds⟩
          have hbyte : key = UInt8.ofNat wireType.toU64 := by
            apply UInt8.toNat_inj.mp
            rw [hkey, hwire, WireType.toU64_fromU8]
            omega
          rw [keyBytes_zero, hbyte]
          simp
  · rintro ⟨hstop, payloads, rfl, hrounds⟩
    induction hrounds with
    | nil => exact ⟨_, parse_whileRepeated_stop field _ hstop⟩
    | @cons s s' s'' payload payloads hstep _ ih =>
        rw [keyBytes_zero] at ih ⊢
        rw [List.flatMap_cons, List.singleton_append, List.cons_append, List.cons_append,
          hcons (by rw [hkey]; exact wireType.toU64_lt), hkey, WireType.fromU8_toU64]
        refine ⟨s', _, hcheck.mpr ⟨rfl, ?_⟩, ih⟩
        rw [List.append_assoc]
        exact (h.isLocal s).append hstep _

end Takers

end

/-- A program that is run on a whole buffer, however it is stored, returns a
value and leaves some bytes. -/
def Leaves {α β : Type} [Buf β] (p : Program α) (buf : β) (x : α) (rest : Bytes) : Prop :=
  ∃ capped, p.run .notCanonical (Capped.new buf) = .ok (x, capped) ∧ capped.Holds rest []

/-- Running is parsing. -/
theorem leaves_iff {α β : Type} [Buf β] {p : Program α} (h : p.Regular) {buf : β} {x : α}
    {rest : Bytes} : p.Leaves buf x rest ↔ p.Parses (Buf.bytes buf) x rest := by
  have hrefines := run_refines .notCanonical p h.seals (holds_new buf)
  constructor
  · rintro ⟨capped, hrun, hholds⟩
    have hnew := run_new h .notCanonical buf
    rw [hrun, outcome] at hnew
    cases hparse : p.parse (Buf.bytes buf) with
    | error fault => simp [hparse, Except.toOption] at hnew
    | ok parsed =>
        rw [hparse] at hrefines
        obtain ⟨capped', hrun', hholds'⟩ := hrefines.1 (Canonicity.notCanonical_le _)
        rw [hrun] at hrun'
        obtain ⟨rfl, rfl⟩ : x = parsed.value ∧ capped = capped' := by simpa using hrun'
        obtain rfl : rest = parsed.rest := by
          simpa using hholds.bytes.symm.trans hholds'.bytes
        exact ⟨parsed.lowest, hparse⟩
  · rintro ⟨lowest, hparse⟩
    rw [hparse] at hrefines
    exact hrefines.1 (Canonicity.notCanonical_le _)

end Program

end Bilrost
