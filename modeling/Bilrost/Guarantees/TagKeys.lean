import Bilrost.Decode.Fields
import Bilrost.Wire.Records

/-!
The keys of a message on their own. The forward writer, the backward writer, the
measurers and the reader each keep what they need of the keys before, and come
to the same bytes.
-/

namespace Bilrost

open Program

/-- A tag and the wire type of its value. -/
abbrev Key := Nat × WireType

/-- Writes keys one after the other. -/
def TagWriter.encodeKeys (tw : TagWriter) : List Key → Option (Bytes × TagWriter)
  | [] => some ([], tw)
  | (tag, wireType) :: keys => do
      let (key, tw) ← tw.encodeKey tag wireType
      let (rest, tw) ← tw.encodeKeys keys
      some (key ++ rest, tw)

/-- Begins a field for each key. -/
def TagRevWriter.beginFields (tw : TagRevWriter) (buf : Bytes) :
    List Key → Option (Bytes × TagRevWriter)
  | [] => some (buf, tw)
  | (tag, wireType) :: keys => do
      let (buf, tw) ← tw.beginField tag wireType buf
      tw.beginFields buf keys

/-- Adds up the lengths of keys, of which only the tags are given. -/
def TagMeasurer.keysLen (tm : TagMeasurer) : List Nat → Option (Nat × TagMeasurer)
  | [] => some (0, tm)
  | tag :: tags => do
      let (keyLen, tm) ← tm.keyLen tag
      let (rest, tm) ← tm.keysLen tags
      some (keyLen + rest, tm)

/-- Reads as many keys. -/
def TagReader.decodeKeys (tr : TagReader) : Nat → Program (List Key × TagReader)
  | 0 => .done ([], tr)
  | count + 1 => do
      let (key, tr) ← tr.decodeKey
      let (keys, tr) ← tr.decodeKeys count
      .done (key :: keys, tr)

/-- A key is a record without a payload. -/
def Record.ofKey (key : Key) : Record := ⟨key.1, key.2, []⟩

theorem encodeKeys_eq (tw : TagWriter) (keys : List Key) :
    tw.encodeKeys keys = tw.encodeRecords (keys.map .ofKey) := by
  induction keys generalizing tw with
  | nil => rfl
  | cons key keys ih =>
      simp only [TagWriter.encodeKeys, List.map_cons, TagWriter.encodeRecords, Record.ofKey, ih,
        List.append_nil]

theorem beginFields_eq (tw : TagRevWriter) (buf : Bytes) (keys : List Key) :
    tw.beginFields buf keys = tw.prependRecords buf (keys.map .ofKey) := by
  induction keys generalizing tw buf with
  | nil => rfl
  | cons key keys ih =>
      simp only [TagRevWriter.beginFields, List.map_cons, TagRevWriter.prependRecords,
        Record.ofKey, ih, List.nil_append]

theorem keysLen_eq (tm : TagMeasurer) (keys : List Key) :
    tm.keysLen (keys.map Prod.fst) = tm.recordsLen (keys.map .ofKey) := by
  induction keys generalizing tm with
  | nil => rfl
  | cons key keys ih =>
      simp only [TagMeasurer.keysLen, List.map_cons, TagMeasurer.recordsLen, Record.ofKey, ih,
        List.length_nil, Nat.add_zero]

theorem wireRecords_ofKey_cons (last : Nat) (key : Key) (keys : List Key) :
    wireRecords last ((key :: keys).map .ofKey) =
      keyBytes (key.1 - last) key.2 ++ wireRecords key.1 (keys.map .ofKey) := by
  rw [List.map_cons, wireRecords, Record.ofKey, List.append_nil]

section
variable {β : Type} [Buf β] {capped : Capped β} {minCanonicity : Canonicity}

/-- Reading a varint looks at the bytes of the buffer, also behind the cap. -/
theorem Capped.decodeVarint_of_parse {value : Nat} {rest : Bytes}
    (h : parseVarint (Buf.bytes capped.buf) = .ok (value, rest)) :
    ∃ capped', capped.decodeVarint = .ok (value, capped') ∧ Buf.bytes capped'.buf = rest := by
  have hspec := decodeVarint_spec capped.buf
  rw [VarintResult, h] at hspec
  obtain ⟨hvalue, hbytes⟩ := hspec
  refine ⟨{ capped with buf := (Bilrost.decodeVarint capped.buf).2 }, ?_, hbytes⟩
  rw [Capped.decodeVarint]
  split
  · next v buf hrun =>
      rw [hrun] at hvalue
      obtain rfl := Except.ok.inj hvalue
      rw [hrun]
  · next err buf hrun =>
      rw [hrun] at hvalue
      cases hvalue

/-- A varint that cannot be read is malformed or cut off. -/
theorem Capped.decodeVarint_of_parse_error {err : DecodeErrorKind}
    (h : parseVarint (Buf.bytes capped.buf) = .error err) :
    capped.decodeVarint = .error .truncated ∨ capped.decodeVarint = .error .invalidVarint := by
  have hspec := decodeVarint_spec capped.buf
  rw [VarintResult, h] at hspec
  have herr : err = .truncated ∨ err = .invalidVarint := by
    rw [parseVarint] at h
    split at h
    · exact .inl (Except.error.inj h).symm
    · split_ifs at h
      exact .inr (Except.error.inj h).symm
  rw [Capped.decodeVarint]
  split
  · next v buf hrun =>
      rw [hrun] at hspec
      cases hspec.1
  · next err' buf hrun =>
      rw [hrun] at hspec
      obtain rfl := Except.error.inj hspec.1
      rcases herr with rfl | rfl
      · simp
      · split_ifs <;> simp

namespace TagReader

/-- The first of several keys. -/
theorem run_decodeKeys_succ {value : Nat} {rest : Bytes}
    (h : parseVarint (Buf.bytes capped.buf) = .ok (value, rest)) (minCanonicity : Canonicity)
    (tr : TagReader) (count : Nat) :
    ∃ capped', Buf.bytes capped'.buf = rest ∧
      (tr.decodeKeys (count + 1)).run minCanonicity capped =
        match tr.readKey value with
        | .ok (key, tr') =>
            ((tr'.decodeKeys count).bind fun read => .done (key :: read.1, read.2)).run
              minCanonicity capped'
        | .error kind => .error (.error kind) := by
  obtain ⟨capped', hvarint, hbytes⟩ := Capped.decodeVarint_of_parse h
  refine ⟨capped', hbytes, ?_⟩
  simp only [decodeKeys, decodeKey, bind_eq, op_bind, run, Op.run, hvarint]
  cases tr.readKey value with
  | error kind => rfl
  | ok read => rfl

theorem readKey_eq_error {last key : Nat} (hlast : last < 2 ^ 32) :
    readKey ⟨last⟩ key = .error .tagOverflowed ↔ 2 ^ 32 ≤ last + key / 4 := by
  simp only [readKey, Nat.shiftRight_eq_div_pow]
  split_ifs with hdelta htag
  · simp only [true_iff]
    omega
  · simp only [true_iff]
    omega
  · simp only [false_iff]
    omega

theorem readKey_eq_ok_of_lt {last key : Nat} (hlt : last + key / 4 < 2 ^ 32) :
    readKey ⟨last⟩ key = .ok ((last + key / 4, WireType.fromU8 key), ⟨last + key / 4⟩) := by
  simp only [readKey, Nat.shiftRight_eq_div_pow]
  rw [if_neg (by omega), if_neg (by omega)]

/-- Keys that were written are read again. -/
theorem run_decodeKeys {last : Nat} {keys : List Key} {rest : Bytes}
    (hascending : Ascending last (keys.map .ofKey)) (hlt : ∀ key ∈ keys, key.1 < 2 ^ 32)
    (hbytes : Buf.bytes capped.buf = wireRecords last (keys.map .ofKey) ++ rest) :
    ∃ tr capped', (decodeKeys ⟨last⟩ keys.length).run minCanonicity capped =
      .ok ((keys, tr), capped') ∧ Buf.bytes capped'.buf = rest := by
  induction keys generalizing last capped with
  | nil => exact ⟨_, _, rfl, hbytes⟩
  | cons key keys ih =>
      obtain ⟨tag, wireType⟩ := key
      have hle : last ≤ tag := hascending.1
      have htag : tag < 2 ^ 32 := hlt _ List.mem_cons_self
      have htype := wireType.toU64_lt
      rw [wireRecords_ofKey_cons, List.append_assoc, keyBytes] at hbytes
      have hvarint : parseVarint (Buf.bytes capped.buf) =
          .ok (4 * (tag - last) + wireType.toU64, wireRecords tag (keys.map .ofKey) ++ rest) := by
        rw [hbytes]
        exact parseVarint_varint (show 4 * (tag - last) + wireType.toU64 < 2 ^ 64 by omega) _
      obtain ⟨capped₁, hbytes₁, hrun⟩ :=
        run_decodeKeys_succ hvarint minCanonicity ⟨last⟩ keys.length
      rw [readKey_of_le hle htag] at hrun
      obtain ⟨tr, capped', hrest, hafter⟩ : ∃ tr capped',
          (decodeKeys ⟨tag⟩ keys.length).run minCanonicity capped₁ = .ok ((keys, tr), capped') ∧
            Buf.bytes capped'.buf = rest :=
        ih hascending.2 (fun k hk => hlt k (List.mem_cons_of_mem _ hk)) hbytes₁
      refine ⟨tr, capped', ?_, hafter⟩
      rw [List.length_cons, hrun]
      simp only [run_bind, hrest, run]

theorem run_bind_eq_overflow {α δ : Type} {p : Program α} {f : α → δ} :
    (p.bind fun x => .done (f x)).run minCanonicity capped = .error (.error .tagOverflowed) ↔
      p.run minCanonicity capped = .error (.error .tagOverflowed) := by
  rw [run_bind]
  cases p.run minCanonicity capped with
  | error stop => simp
  | ok result => exact iff_of_false (by rintro ⟨⟩) (by rintro ⟨⟩)

/-- Reading keys fails for the tag exactly if the distances add up to too much. -/
theorem run_decodeKeys_eq_overflow {last : Nat} (hlast : last < 2 ^ 32) (count : Nat) :
    (decodeKeys ⟨last⟩ count).run minCanonicity capped = .error (.error .tagOverflowed) ↔
      ∃ (keys : List Nat) (rest : Bytes), keys.length ≤ count ∧ (∀ key ∈ keys, key < 2 ^ 64) ∧
        Buf.bytes capped.buf = (keys.map varint).flatten ++ rest ∧
        2 ^ 32 ≤ last + (keys.map (· / 4)).sum := by
  induction count generalizing last capped with
  | zero =>
      constructor
      · rintro ⟨⟩
      · rintro ⟨keys, rest, hlength, -, -, hsum⟩
        obtain rfl : keys = [] := List.eq_nil_of_length_eq_zero (by omega)
        simp only [List.map_nil, List.sum_nil] at hsum
        omega
  | succ count ih =>
      cases hvarint : parseVarint (Buf.bytes capped.buf) with
      | error err =>
          constructor
          · intro hrun
            simp only [decodeKeys, decodeKey, bind_eq, op_bind, run, Op.run] at hrun
            rcases Capped.decodeVarint_of_parse_error hvarint with herr | herr
            · rw [herr] at hrun
              cases hrun
            · rw [herr] at hrun
              cases hrun
          · rintro ⟨keys, rest, -, hlt, hbytes, hsum⟩
            cases keys with
            | nil =>
                simp only [List.map_nil, List.sum_nil] at hsum
                omega
            | cons key keys =>
                rw [hbytes, List.map_cons, List.flatten_cons, List.append_assoc,
                  parseVarint_varint (hlt key List.mem_cons_self)] at hvarint
                cases hvarint
      | ok read =>
          obtain ⟨key, left⟩ := read
          obtain ⟨hkey, hbytes⟩ := parseVarint_eq_ok hvarint
          obtain ⟨capped₁, hbytes₁, hrun⟩ :=
            run_decodeKeys_succ hvarint minCanonicity ⟨last⟩ count
          rw [hrun]
          rcases Nat.lt_or_ge (last + key / 4) (2 ^ 32) with hlt | hge
          · rw [readKey_eq_ok_of_lt hlt]
            have hnext : (decodeKeys ⟨last + key / 4⟩ count).run minCanonicity capped₁ =
                .error (.error .tagOverflowed) ↔ _ := ih hlt
            dsimp only
            rw [run_bind_eq_overflow, hnext]
            constructor
            · rintro ⟨keys, rest, hlength, hkeys, hrest, hsum⟩
              refine ⟨key :: keys, rest, ?_, ?_, ?_, ?_⟩
              · simpa using hlength
              · simpa using ⟨hkey, hkeys⟩
              · simp [hbytes, ← hbytes₁, hrest]
              · simp only [List.map_cons, List.sum_cons]
                omega
            · rintro ⟨keys, rest, hlength, hkeys, hrest, hsum⟩
              cases keys with
              | nil =>
                  simp only [List.map_nil, List.sum_nil] at hsum
                  omega
              | cons key' keys =>
                  have hkey' := hkeys key' List.mem_cons_self
                  rw [hrest, List.map_cons, List.flatten_cons, List.append_assoc,
                    parseVarint_varint hkey'] at hvarint
                  obtain ⟨rfl, rfl⟩ : key' = key ∧ _ = left := by simpa using hvarint
                  refine ⟨keys, rest, ?_, fun k hk => hkeys k (List.mem_cons_of_mem _ hk),
                    hbytes₁, ?_⟩
                  · simpa using hlength
                  · simp only [List.map_cons, List.sum_cons] at hsum
                    omega
          · rw [(readKey_eq_error hlast).mpr hge]
            refine iff_of_true rfl ⟨[key], left, by simp, by simpa using hkey, by simpa, ?_⟩
            simpa using hge

end TagReader

end

/-- Keys in the order of their tags are read back as they were written, whichever
writer wrote them, and their lengths can be told from the tags. Whatever the
bytes are, reading keys stops at the tag exactly where it would be too large. -/
theorem tag_keys_round_trip {keys : List Key} (hsorted : keys.Pairwise fun k k' => k.1 ≤ k'.1)
    (hlt : ∀ key ∈ keys, key.1 < 2 ^ 32) :
    (∃ bytes tw, TagWriter.new.encodeKeys keys = some (bytes, tw) ∧
      (∀ {β : Type} [Buf β] (minCanonicity : Canonicity) (capped : Capped β) (rest : Bytes),
        Buf.bytes capped.buf = bytes ++ rest → ∃ tr capped',
          (TagReader.new.decodeKeys keys.length).run minCanonicity capped =
            .ok ((keys, tr), capped') ∧ Buf.bytes capped'.buf = rest) ∧
      (∀ base, ∃ buf tw', TagRevWriter.new.beginFields base keys.reverse = some (buf, tw') ∧
        tw'.finalize buf = bytes ++ base) ∧
      (∃ tm, (TagMeasurer.runtime 0).keysLen (keys.map Prod.fst) = some (bytes.length, tm)) ∧
      ((∀ key ∈ keys, key.1 < 32) →
        TagMeasurer.trivial.keysLen (keys.map Prod.fst) = some (bytes.length, .trivial))) ∧
    ∀ {β : Type} [Buf β] (minCanonicity : Canonicity) (capped : Capped β) (count : Nat),
      (TagReader.new.decodeKeys count).run minCanonicity capped =
          .error (.error .tagOverflowed) ↔
        ∃ (read : List Nat) (rest : Bytes), read.length ≤ count ∧ (∀ key ∈ read, key < 2 ^ 64) ∧
          Buf.bytes capped.buf = (read.map varint).flatten ++ rest ∧
          2 ^ 32 ≤ (read.map (· / 4)).sum := by
  have hpairwise : (keys.map Record.ofKey).Pairwise fun r r' => r.tag ≤ r'.tag :=
    List.pairwise_map.mpr hsorted
  have hascending : Ascending 0 (keys.map .ofKey) :=
    ascending_of_pairwise (fun _ _ => Nat.zero_le _) hpairwise
  constructor
  · have hwritten := (encodeKeys_eq TagWriter.new keys).trans
      (encodeRecords_of_ascending hascending)
    refine ⟨_, _, hwritten, ?_, ?_, ?_, ?_⟩
    · intro β _ minCanonicity capped rest hbytes
      exact TagReader.run_decodeKeys hascending hlt hbytes
    · intro base
      have hnone : RevWritten [] base base TagRevWriter.new := ⟨rfl, rfl⟩
      obtain ⟨buf, tw', hrun, hwritten⟩ := hnone.prependRecords (keys.map .ofKey)
        (by rwa [List.append_nil])
      refine ⟨buf, tw', ?_, ?_⟩
      · rw [beginFields_eq, List.map_reverse]
        exact hrun
      · rw [hwritten.finalize, List.append_nil]
    · exact ⟨_, (keysLen_eq _ keys).trans (recordsLen_of_ascending hascending)⟩
    · intro hsmall
      rw [keysLen_eq]
      apply recordsLen_trivial hascending
      rintro _ hmem
      obtain ⟨key, hkey, rfl⟩ := List.mem_map.mp hmem
      exact hsmall key hkey
  · intro β _ minCanonicity capped count
    rw [TagReader.new, TagReader.run_decodeKeys_eq_overflow (by decide) count]
    simp only [Nat.zero_add]

theorem tag_keys_round_trip_two :
    (∃ bytes tw, TagWriter.new.encodeKeys [(1, .varint), (4294967295, .lengthDelimited)] =
        some (bytes, tw) ∧
      (∀ {β : Type} [Buf β] (minCanonicity : Canonicity) (capped : Capped β) (rest : Bytes),
        Buf.bytes capped.buf = bytes ++ rest → ∃ tr capped',
          (TagReader.new.decodeKeys 2).run minCanonicity capped =
            .ok (([(1, .varint), (4294967295, .lengthDelimited)], tr), capped') ∧
              Buf.bytes capped'.buf = rest) ∧
      (∀ base, ∃ buf tw', TagRevWriter.new.beginFields base
          [(4294967295, .lengthDelimited), (1, .varint)] = some (buf, tw') ∧
        tw'.finalize buf = bytes ++ base) ∧
      (∃ tm, (TagMeasurer.runtime 0).keysLen [1, 4294967295] = some (bytes.length, tm)) ∧
      ((∀ key ∈ ([(1, .varint), (4294967295, .lengthDelimited)] : List Key), key.1 < 32) →
        TagMeasurer.trivial.keysLen [1, 4294967295] = some (bytes.length, .trivial))) ∧
    ∀ {β : Type} [Buf β] (minCanonicity : Canonicity) (capped : Capped β) (count : Nat),
      (TagReader.new.decodeKeys count).run minCanonicity capped =
          .error (.error .tagOverflowed) ↔
        ∃ (read : List Nat) (rest : Bytes), read.length ≤ count ∧ (∀ key ∈ read, key < 2 ^ 64) ∧
          Buf.bytes capped.buf = (read.map varint).flatten ++ rest ∧
          2 ^ 32 ≤ (read.map (· / 4)).sum :=
  tag_keys_round_trip (by decide) (by decide)

end Bilrost
