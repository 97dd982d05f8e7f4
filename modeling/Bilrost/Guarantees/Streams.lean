import Bilrost.Codec.Streams
import Bilrost.Guarantees.Agreement
import Bilrost.Guarantees.Encoders
import Bilrost.Guarantees.SoftCaps

/-!
Streams of delimited messages. What is written one after the other is read one
after the other, and what is behind is left where it is.
-/

namespace Bilrost

open Program

namespace MessageCodec

variable {allowed : Features} {M : Type} {codec : MessageCodec M}

/-- What holds of the items of two lists and those of a third one. -/
theorem forall₂_along {α γ δ : Type} {R : α → δ → Prop} {S T : γ → δ → Prop} {xs : List α}
    {ys : List γ} {zs : List δ} (hR : List.Forall₂ R xs zs) (hS : List.Forall₂ S ys zs)
    (h : ∀ x y z, R x z → S y z → T y z) : List.Forall₂ T ys zs := by
  induction hR generalizing ys with
  | nil =>
    cases hS
    exact .nil
  | cons hx _ ih =>
    cases hS with
    | cons hy hys => exact .cons (h _ _ _ hx hy) (ih hys)

/-- A message that comes back when it is encoded and decoded. An array of length
zero is the only reason for announcing another length than that of the bytes. -/
structure RoundTrips (codec : MessageCodec M) (allowed : Features) (m : M) (bytes : Bytes) :
    Prop where
  encode : codec.encodeToVec m = some bytes
  announces : allowed.emptyArrays → codec.encodedLen m = some bytes.length
  length_lt : bytes.length < 2 ^ 64
  decode : codec.decode bytes = .ok m

/-- What `encode_length_delimited` writes wherever there is room for it. -/
def FramedAs (codec : MessageCodec M) (m : M) (frame : Bytes) : Prop :=
  ∀ remaining, frame.length ≤ remaining →
    codec.encodeLengthDelimited m remaining = some (.ok frame)

theorem RoundTrips.rawEncode {m : M} {bytes : Bytes} (h : codec.RoundTrips allowed m bytes) :
    codec.rawEncode m = some bytes := by
  have hencode := h.encode
  rw [encodeToVec, encodedLen] at hencode
  cases hlen : codec.rawEncodedLen m with
  | none => simp [hlen] at hencode
  | some len => simpa [hlen] using hencode

theorem RoundTrips.rawEncodedLen {m : M} {bytes : Bytes} (h : codec.RoundTrips allowed m bytes)
    (hbuilt : Built allowed (.message codec)) : codec.rawEncodedLen m = some bytes.length := by
  by_cases harrays : allowed.emptyArrays
  · exact h.announces harrays
  · have hwrites : codec.Writes (¬allowed.hashed) := hbuilt.writes harrays
    obtain ⟨records, hwritten⟩ := hwrites m
    obtain rfl := Option.some.inj (hwritten.encode.symm.trans h.rawEncode)
    exact hwritten.encodedLen

theorem RoundTrips.framedAs {m : M} {bytes : Bytes} (h : codec.RoundTrips allowed m bytes)
    (hbuilt : Built allowed (.message codec)) :
    codec.FramedAs m (varint bytes.length ++ bytes) := by
  intro remaining hroom
  rw [encodeLengthDelimited_of_raw h.rawEncode (h.rawEncodedLen hbuilt), if_neg]
  rw [List.length_append] at hroom
  omega

/-- What is read from a region of its own is read from the front of a buffer,
which is left behind it. -/
theorem run_in_place {α : Type} {p : Program α} {region : Bytes} (hseals : p.SealsRegions)
    (hsealed : Sealed region.length p) {minCanonicity : Canonicity} {x : α}
    {alone : Capped Bytes} (hrun : p.run minCanonicity (Capped.new region) = .ok (x, alone))
    {β : Type} [Buf β] {capped : Capped β} {after : Bytes} (hholds : capped.Holds region after) :
    ∃ left, p.run minCanonicity capped = .ok (x, left) ∧ left.Holds [] after := by
  have hparse := (Sealed.run_iff hseals hsealed (holds_new region)).mp ⟨alone, hrun⟩
  obtain ⟨left, hleft⟩ := (Sealed.run_iff hseals hsealed hholds).mpr hparse
  exact ⟨left, hleft, (Sealed.holds_after hseals hsealed hholds hleft).1⟩

section
variable {m : M} {bytes : Bytes} (hlt : bytes.length < 2 ^ 64) {β : Type} [Buf β]

include hlt in
theorem newLengthDelimited_of_bytes {buf : β} {rest : Bytes}
    (hbuf : Buf.bytes buf = varint bytes.length ++ bytes ++ rest) :
    ∃ capped, Capped.newLengthDelimited buf = .ok capped ∧ capped.Holds bytes rest := by
  have hdelimited := newLengthDelimited_bytes buf
  rw [hbuf, List.append_assoc, parseDelimited_append hlt] at hdelimited
  exact hdelimited

include hlt in
theorem streamsAs_readLengthDelimited (hbuilt : Built allowed (.message codec))
    (hdecode : codec.decode bytes = .ok m) :
    StreamsAs (β := β) codec.readLengthDelimited m (varint bytes.length ++ bytes) := by
  intro buf rest hbuf
  obtain ⟨capped, hcapped, hholds⟩ := newLengthDelimited_of_bytes hlt hbuf
  rw [decode, decodeCapped] at hdecode
  cases hrun : (codec.merge .owned recursionLimit codec.empty).run .notCanonical
      (Capped.new bytes) with
  | error stop => simp [hrun, Bind.bind, Except.bind] at hdecode
  | ok result =>
    obtain ⟨value, alone⟩ := result
    obtain rfl : value = m := by simpa [hrun, Bind.bind, Except.bind] using hdecode
    obtain ⟨left, hleft, hrest⟩ := run_in_place
      (hbuilt.regular.merge .owned recursionLimit codec.empty).seals
      (EndsAtCap.sealed (codec.endsAtCap_merge .owned recursionLimit codec.empty) bytes.length)
      hrun hholds
    refine ⟨left.buf, ?_, hrest.bytes⟩
    simp only [readLengthDelimited, hcapped, Except.mapError, Bind.bind, Except.bind, hleft]

include hlt in
theorem streamsAs_readRestrictedLengthDelimited (hbuilt : Built allowed (.message codec))
    {restrictTo canon : Canonicity}
    (hdecode : codec.decodeRestricted bytes restrictTo = .ok (m, canon)) :
    StreamsAs (β := β) (codec.readRestrictedLengthDelimited restrictTo) (m, canon)
      (varint bytes.length ++ bytes) := by
  intro buf rest hbuf
  obtain ⟨capped, hcapped, hholds⟩ := newLengthDelimited_of_bytes hlt hbuf
  rw [decodeRestricted, decodeRestrictedCapped] at hdecode
  cases hrun : (codec.mergeDistinguished .owned recursionLimit codec.empty).run restrictTo
      (Capped.new bytes) with
  | error stop => simp [hrun, Bind.bind, Except.bind] at hdecode
  | ok result =>
    obtain ⟨⟨value, found⟩, alone⟩ := result
    obtain ⟨left, hleft, hrest⟩ := run_in_place
      (hbuilt.regular.mergeDistinguished .owned recursionLimit codec.empty).seals
      (EndsAtCap.sealed (codec.endsAtCap_mergeDistinguished .owned recursionLimit codec.empty)
        bytes.length)
      hrun hholds
    refine ⟨left.buf, ?_, hrest.bytes⟩
    simp only [hrun, Bind.bind, Except.bind] at hdecode
    simp only [readRestrictedLengthDelimited, hcapped, Bind.bind, Except.bind]
    cases hcheck : check restrictTo found with
    | error kind => simp [hcheck, Except.mapError] at hdecode
    | ok checked =>
      obtain ⟨rfl, rfl⟩ : value = m ∧ checked = canon := by
        simpa [hcheck, Except.mapError] using hdecode
      simp only [Except.mapError, hleft, hcheck]

end

/-- The borrowing calls split the slice, whatever becomes of the message. -/
theorem splitBorrowed_of_delimited (codec : MessageCodec M) {buf content rest : Bytes}
    (h : parseDelimited buf = some (content, rest)) :
    codec.splitBorrowedLengthDelimited buf = .ok (codec.decodeBorrowed content, rest) ∧
      ∀ restrictTo, codec.splitRestrictedBorrowedLengthDelimited restrictTo buf =
        .ok (codec.decodeRestrictedBorrowed content restrictTo, rest) := by
  have htake := takeBorrowedLengthDelimited_bytes buf
  rw [h] at htake
  constructor
  · rw [splitBorrowedLengthDelimited, htake]
    rfl
  · intro restrictTo
    rw [splitRestrictedBorrowedLengthDelimited, htake]
    rfl

theorem streamsAs_readBorrowedLengthDelimited {m : M} {bytes : Bytes}
    (hlt : bytes.length < 2 ^ 64) (hdecode : codec.decodeBorrowed bytes = .ok m) :
    StreamsAs codec.readBorrowedLengthDelimited m (varint bytes.length ++ bytes) := by
  intro buf rest hbuf
  have hsplit := codec.splitBorrowed_of_delimited (parseDelimited_append hlt rest)
  refine ⟨rest, ?_, rfl⟩
  rw [Buf.bytes_slice, List.append_assoc] at hbuf
  rw [hbuf, readBorrowedLengthDelimited, hsplit.1, hdecode]
  rfl

theorem RoundTrips.decodeBorrowed {m : M} {bytes : Bytes} (h : codec.RoundTrips allowed m bytes)
    (hbuilt : Built allowed (.message codec)) : codec.decodeBorrowed bytes = .ok m := by
  have hmodes := hbuilt.locks.faulted_modes .relaxed .borrowed .owned (Capped.new bytes)
  have hdecode := h.decode
  rw [← faulted_eq_ok, MessageCodec.decode, decodeCapped_eq, faulted_map, ← hmodes, ← faulted_map,
    ← decodeCapped_eq, faulted_eq_ok] at hdecode
  exact hdecode

end MessageCodec

section
variable {allowed : Features} {M : Type} {codec : MessageCodec M}

/-- Messages that are written with their lengths one after the other are read
one after the other, from any buffer, and what is behind them is left. When
delimited messages are borrowed from a slice, it is left behind the message
whether or not that can be decoded. -/
theorem streams_are_lossless (h : Built allowed (.message codec)) {ms : List M}
    {encodings : List Bytes} (hround : List.Forall₂ (codec.RoundTrips allowed) ms encodings) :
    (∃ frames, List.Forall₂ codec.FramedAs ms frames ∧
        (∀ (β : Type) [Buf β] (buf : β) (rest : Bytes), Buf.bytes buf = frames.flatten ++ rest →
          ∃ left, readStream codec.readLengthDelimited ms.length buf = .ok (ms, left) ∧
            Buf.bytes left = rest) ∧
        (∀ restrictTo decoded,
          List.Forall₂ (fun d bytes => codec.decodeRestricted bytes restrictTo = .ok d) decoded
            encodings →
          ∀ (β : Type) [Buf β] (buf : β) (rest : Bytes), Buf.bytes buf = frames.flatten ++ rest →
            ∃ left, readStream (codec.readRestrictedLengthDelimited restrictTo) ms.length buf =
              .ok (decoded, left) ∧ Buf.bytes left = rest) ∧
        ∀ rest, readStream codec.readBorrowedLengthDelimited ms.length (frames.flatten ++ rest) =
          .ok (ms, rest)) ∧
      ∀ buf content rest, parseDelimited buf = some (content, rest) →
        codec.splitBorrowedLengthDelimited buf = .ok (codec.decodeBorrowed content, rest) ∧
          ∀ restrictTo, codec.splitRestrictedBorrowedLengthDelimited restrictTo buf =
            .ok (codec.decodeRestrictedBorrowed content restrictTo, rest) := by
  constructor
  · let frame (bytes : Bytes) : Bytes := varint bytes.length ++ bytes
    have hframes {R : M → Bytes → Prop}
        (hR : ∀ m bytes, codec.RoundTrips allowed m bytes → R m (frame bytes)) :
        List.Forall₂ R ms (encodings.map frame) :=
      List.forall₂_map_right_iff.mpr (hround.imp hR)
    refine ⟨encodings.map frame, hframes fun m bytes hm => hm.framedAs h, ?_, ?_, ?_⟩
    · intro β _ buf rest hbuf
      refine readStream_of_streamsAs (hframes fun m bytes hm => ?_) hbuf
      exact MessageCodec.streamsAs_readLengthDelimited hm.length_lt h hm.decode
    · intro restrictTo decoded hdecoded β _ buf rest hbuf
      have hreads : List.Forall₂
          (StreamsAs (β := β) (codec.readRestrictedLengthDelimited restrictTo)) decoded
          (encodings.map frame) := by
        apply List.forall₂_map_right_iff.mpr
        apply MessageCodec.forall₂_along hround hdecoded
        intro m d bytes hm hd
        exact MessageCodec.streamsAs_readRestrictedLengthDelimited hm.length_lt h hd
      have hlength : ms.length = decoded.length := hround.length_eq.trans hdecoded.length_eq.symm
      rw [hlength]
      exact readStream_of_streamsAs hreads hbuf
    · intro rest
      have hreads : List.Forall₂ (StreamsAs codec.readBorrowedLengthDelimited) ms
          (encodings.map frame) := hframes fun m bytes hm =>
        MessageCodec.streamsAs_readBorrowedLengthDelimited hm.length_lt (hm.decodeBorrowed h)
      obtain ⟨left, hread, hleft⟩ := readStream_of_streamsAs hreads (Buf.bytes_slice _)
      rw [hread, ← hleft, Buf.bytes_slice]
  · intro buf content rest hdelimited
    exact codec.splitBorrowed_of_delimited hdelimited

theorem streams_are_lossless_u32 :
    ∃ frames, List.Forall₂ (u32Field.derived 1).FramedAs [300, 0] frames ∧
      readStream (u32Field.derived 1).readBorrowedLengthDelimited 2 (frames.flatten ++ [7]) =
        .ok ([300, 0], [7]) := by
  have hbuilt : Built .all (.message (u32Field.derived 1)) :=
    .derived (by decide) (built_u32Field _)
  have hfull : (u32Field.derived 1).RoundTrips .all 300 [4, 172, 1] :=
    ⟨by decide +kernel, fun _ => by decide +kernel, by decide, by decide +kernel⟩
  have hempty : (u32Field.derived 1).RoundTrips .all 0 [] :=
    ⟨by decide +kernel, fun _ => by decide +kernel, by decide, by decide +kernel⟩
  obtain ⟨frames, hframed, -, -, hborrowed⟩ :=
    (streams_are_lossless hbuilt (.cons hfull (.cons hempty .nil))).1
  exact ⟨frames, hframed, hborrowed [7]⟩

end

end Bilrost
