import ExecutionFabric.Model.Protocol

/-!
# Frames read back as they were written

The decoder accepts exactly the encodings of well-formed frames. A channel that reads
a concatenation of such encodings, in whatever pieces it arrives, returns the frames
one after the other and stops at the byte behind the last.
-/
namespace ExecutionFabric

open Lib

/-- The frames the protocol allows. -/
structure Frame.WellFormed (f : Frame) : Prop where
  version : f.version = protocolVersion
  type : f.type.Known
  flags : f.flags = 0
  payload : f.payload.length ≤ maxFramePayload

section Encoded

variable (f : Frame)

theorem length_frameFields : (frameFields f).length = 24 := by
  simp [frameFields]

theorem length_frameHeader : (frameHeader f).length = 28 := by
  rw [frameHeader, List.length_append, length_frameFields, length_leBytes]

theorem length_encodeFrame : (encodeFrame f).length = 28 + f.payload.length + 8 := by
  rw [encodeFrame, List.length_append, List.length_append, length_frameHeader, length_checksum]

/-- The header split into its words, with any continuation. -/
theorem frameHeader_append (rest : Bytes) :
    frameHeader f ++ rest = leBytes 4 frameMagic ++ (leBytes 2 f.version.toNat ++
      (leBytes 2 f.type.value.toNat ++ (leBytes 8 f.request.value.toNat ++
        (leBytes 4 f.payload.length ++ (leBytes 4 f.flags.toNat ++
          (leBytes 4 (headerChecksum (frameFields f)) ++ rest)))))) := by
  simp only [frameHeader, frameFields, List.append_assoc]

theorem slice_frameFields (rest : Bytes) : slice (frameHeader f ++ rest) 0 24 = frameFields f := by
  rw [frameHeader, List.append_assoc, slice_append_left _ (by rw [length_frameFields]),
    ← length_frameFields f, slice_full]

theorem readLe_payloadSize {f : Frame} (h : f.WellFormed) (rest : Bytes) :
    readLe (frameHeader f ++ rest) 16 4 = f.payload.length := by
  have hpayload : f.payload.length < 256 ^ 4 := by
    have := h.payload
    rw [maxFramePayload] at this
    omega
  rw [frameHeader_append, ← List.append_assoc, ← List.append_assoc, ← List.append_assoc]
  exact readLe_middle _ _ (by simp) hpayload

/-- What the header decoder makes of a header, wherever the buffer ends. -/
theorem decodeFrameHeader_frameHeader {f : Frame} (h : f.WellFormed) (rest : Bytes) :
    decodeFrameHeader (frameHeader f ++ rest) = .ok { f with payload := [] } := by
  have hchecksum : headerChecksum (frameFields f) < 256 ^ 4 := by
    rw [headerChecksum]
    omega
  have hlength : ¬ (frameHeader f ++ rest).length < frameHeaderSize := by
    rw [List.length_append, length_frameHeader, frameHeaderSize]
    omega
  have hmagic : readLe (frameHeader f ++ rest) 0 4 = frameMagic := by
    rw [frameHeader_append]
    exact readLe_first _ (by decide)
  have hversion : readLe (frameHeader f ++ rest) 4 2 = f.version.toNat := by
    rw [frameHeader_append]
    exact readLe_middle _ _ (length_leBytes _ _) f.version.toNat_lt
  have htype : readLe (frameHeader f ++ rest) 6 2 = f.type.value.toNat := by
    rw [frameHeader_append, ← List.append_assoc (leBytes 4 _)]
    exact readLe_middle _ _ (by simp) f.type.value.toNat_lt
  have hrequest : readLe (frameHeader f ++ rest) 8 8 = f.request.value.toNat := by
    rw [frameHeader_append, ← List.append_assoc, ← List.append_assoc]
    exact readLe_middle _ _ (by simp) f.request.value.toNat_lt
  have hsize := readLe_payloadSize h rest
  have hflags : readLe (frameHeader f ++ rest) 20 4 = f.flags.toNat := by
    rw [frameHeader_append, ← List.append_assoc, ← List.append_assoc, ← List.append_assoc,
      ← List.append_assoc]
    exact readLe_middle _ _ (by simp) f.flags.toNat_lt
  have hcrc : readLe (frameHeader f ++ rest) 24 4 = headerChecksum (frameFields f) := by
    rw [frameHeader_append, ← List.append_assoc, ← List.append_assoc, ← List.append_assoc,
      ← List.append_assoc, ← List.append_assoc]
    exact readLe_middle _ _ (by simp) hchecksum
  have hparse : parseMessageType (UInt16.ofNat f.type.value.toNat) = some f.type := by
    rw [UInt16.ofNat_toNat, parseMessageType_eq_some_iff]
    exact ⟨rfl, h.type⟩
  rw [decodeFrameHeader, if_neg hlength, hmagic, if_neg (by simp), hversion, h.version,
    if_neg (by simp), htype, hparse]
  have hbound : ¬ f.payload.length > maxFramePayload := Nat.not_lt.mpr h.payload
  simp only [hflags, h.flags, hcrc, slice_frameFields, hsize, hrequest]
  rw [if_neg (by simp), if_neg (by simp), if_neg hbound, UInt16.ofNat_toNat, UInt64.ofNat_toNat,
    UInt32.ofNat_toNat]

/-- A well-formed frame reads back. -/
theorem decodeFrame_encodeFrame {f : Frame} (h : f.WellFormed) :
    decodeFrame (encodeFrame f) = .ok f := by
  have hsplit : encodeFrame f =
      frameHeader f ++ (f.payload ++ checksum (frameHeader f ++ f.payload)) := by
    rw [encodeFrame, List.append_assoc]
  have hlength := length_encodeFrame f
  have hheader : decodeFrameHeader (encodeFrame f) = .ok { f with payload := [] } := by
    rw [hsplit]
    exact decodeFrameHeader_frameHeader h _
  have hsize : readLe (encodeFrame f) 16 4 = f.payload.length := by
    rw [hsplit]
    exact readLe_payloadSize h _
  have hpayload : slice (encodeFrame f) 28 f.payload.length = f.payload := by
    rw [hsplit]
    exact slice_middle _ _ _ (length_frameHeader f) rfl
  have hbody : (frameHeader f ++ f.payload).length = 28 + f.payload.length := by
    rw [List.length_append, length_frameHeader]
  have hchecksum : checksumAt (encodeFrame f) (28 + f.payload.length) 0
      (28 + f.payload.length) = true := by
    have hwhole : encodeFrame f = (frameHeader f ++ f.payload) ++
        (checksum (frameHeader f ++ f.payload) ++ []) := by
      rw [List.append_nil]
      rfl
    rw [hwhole]
    apply checksumAt_middle
    · rw [slice_append_left _ (by omega), ← hbody, slice_full]
    · exact hbody
  rw [decodeFrame, if_neg (by rw [hlength, frameHeaderSize, frameTrailerSize]; omega), hheader]
  simp only [hsize, frameHeaderSize, frameTrailerSize]
  rw [if_neg (not_not.mpr hlength), hchecksum, if_neg (by simp), hpayload]

end Encoded

/-! ## What is accepted -/

/-- The header decoder accepts only what the encoder writes in front of a well-formed frame. -/
theorem decodeFrameHeader_sound {b : Bytes} {f : Frame} (h : decodeFrameHeader b = .ok f) :
    28 ≤ b.length ∧ readLe b 0 4 = frameMagic ∧ readLe b 4 2 = f.version.toNat ∧
      readLe b 6 2 = f.type.value.toNat ∧ readLe b 8 8 = f.request.value.toNat ∧
      readLe b 20 4 = f.flags.toNat ∧ readLe b 24 4 = headerChecksum (slice b 0 24) ∧
      readLe b 16 4 ≤ maxFramePayload ∧ f.version = protocolVersion ∧ f.type.Known ∧
      f.flags = 0 ∧ f.payload = [] := by
  unfold decodeFrameHeader at h
  split at h
  next => cases h
  next hlength =>
  split at h
  next => cases h
  next hmagic =>
  split at h
  next => cases h
  next hversion =>
  split at h
  next => cases h
  next type hparse =>
  split at h
  next => cases h
  next hflags =>
  split at h
  next => cases h
  next hchecksum =>
  split at h
  next => cases h
  next hsize =>
  obtain ⟨rfl, hknown⟩ := (parseMessageType_eq_some_iff _ _).mp hparse
  cases h
  rw [not_not] at hmagic hversion hflags hchecksum
  have htype : readLe b 6 2 < 2 ^ 16 := readLe_lt b 6 2
  have hrequest : readLe b 8 8 < 2 ^ 64 := readLe_lt b 8 8
  refine ⟨Nat.not_lt.mp hlength, hmagic, ?_, ?_, ?_, ?_, hchecksum, Nat.not_lt.mp hsize, ?_,
    hknown, ?_, rfl⟩
  · rw [hversion]
    rfl
  · exact (UInt16.toNat_ofNat_of_lt' htype).symm
  · exact (UInt64.toNat_ofNat_of_lt' hrequest).symm
  · rw [hflags]
    rfl
  · simp only [hversion, UInt16.ofNat_toNat]
  · simp only [hflags]
    rfl

/-- The decoder accepts exactly the encodings of well-formed frames. -/
theorem decodeFrame_iff (b : Bytes) (f : Frame) :
    decodeFrame b = .ok f ↔ f.WellFormed ∧ b = encodeFrame f := by
  constructor
  · intro h
    unfold decodeFrame at h
    split at h
    next => cases h
    next hshort =>
    split at h
    next => cases h
    next g hheader =>
    simp only at h
    split at h
    next => cases h
    next hlength =>
    split at h
    next => cases h
    next hchecksum =>
    rw [not_not] at hlength hchecksum
    obtain ⟨-, hmagic, hversion, htype, hrequest, hflags, hcrc, hsize, hv, ht, hf, -⟩ :=
      decodeFrameHeader_sound hheader
    simp only [frameHeaderSize, frameTrailerSize] at hlength hchecksum h
    have hpayload : f.payload = slice b 28 (readLe b 16 4) := by cases h; rfl
    have hpayloadLength : f.payload.length = readLe b 16 4 := by
      rw [hpayload, length_slice_of_le (by omega)]
    have hfields : frameFields f = slice b 0 24 := by
      have hsplit : slice b 0 24 = slice b 0 4 ++ slice b 4 2 ++ slice b 6 2 ++ slice b 8 8 ++
          slice b 16 4 ++ slice b 20 4 := by
        rw [show (24 : Nat) = 4 + 2 + 2 + 8 + 4 + 4 from rfl, slice_add, slice_add, slice_add,
          slice_add, slice_add]
      rw [hsplit, slice_word (by omega), slice_word (by omega), slice_word (by omega),
        slice_word (by omega), slice_word (by omega), slice_word (by omega), hmagic, hversion,
        htype, hrequest, hflags, ← hpayloadLength, frameFields]
      cases h
      rfl
    have hheader : frameHeader f = slice b 0 28 := by
      have hword : slice b 24 4 = leBytes 4 (headerChecksum (slice b 0 24)) := by
        rw [slice_word (by omega), hcrc]
      rw [show (28 : Nat) = 24 + 4 from rfl, slice_add, Nat.zero_add, hword, ← hfields]
      rfl
    have hbody : frameHeader f ++ f.payload = slice b 0 (28 + readLe b 16 4) := by
      rw [slice_add, ← hheader, ← hpayload]
    have htrailer : checksum (frameHeader f ++ f.payload) =
        slice b (28 + readLe b 16 4) 8 := by
      rw [slice_word (by omega), checksum, hbody]
      rw [checksumAt, decide_eq_true_eq] at hchecksum
      rw [hchecksum]
    refine ⟨?_, ?_⟩
    · cases h
      exact ⟨hv, ht, hf, hpayloadLength.trans_le hsize⟩
    · have hwhole := slice_add b 0 (28 + readLe b 16 4) 8
      rw [Nat.zero_add, ← hlength, slice_full] at hwhole
      rw [encodeFrame, htrailer, hbody]
      exact hwhole
  · rintro ⟨hf, rfl⟩
    exact decodeFrame_encodeFrame hf

/-! ## The stream -/

namespace Socket

/-- As long as enough has arrived, a read returns the next bytes, in whatever pieces they came. -/
theorem recvExact_eq {s : Socket} {data rest : Bytes} (h : s.bytes = data ++ rest) :
    ∃ s', s.recvExact data.length = .ok (data, s') ∧ s'.bytes = rest := by
  induction hn : data.length using Nat.strongRecOn generalizing s data with
  | _ n ih =>
    subst hn
    rw [recvExact]
    by_cases hempty : data = []
    · subst hempty
      exact ⟨s, by simp, by simpa using h⟩
    · have hlength := List.length_pos_iff.mpr hempty
      have hbytes : s.bytes ≠ [] := by
        rw [h]
        simp [hempty]
      have hgot := recvSome_ne_nil (Nat.ne_of_gt hlength) hbytes
      have hpos := List.length_pos_iff.mpr hgot
      have hle := s.length_recvSome_le data.length
      have hsplit := s.bytes_recvSome data.length
      rw [h] at hsplit
      -- the piece read is a prefix of `data`, so the rest of `data` is still to come
      obtain ⟨more, hmore, hleft⟩ : ∃ more, data = (s.recvSome data.length).1 ++ more ∧
          (s.recvSome data.length).2.bytes = more ++ rest := by
        rcases List.append_eq_append_iff.mp hsplit with ⟨more, hdata, hrest⟩ | ⟨extra, hread, hrest⟩
        · exact ⟨more, hdata, hrest⟩
        · have hextra : extra = [] := by
            rw [hread, List.length_append] at hle
            exact List.length_eq_zero_iff.mp (by omega)
          subst hextra
          rw [List.append_nil] at hread
          exact ⟨[], by rw [List.append_nil, hread], hrest.symm⟩
      have hmoreLength : data.length - (s.recvSome data.length).1.length = more.length := by
        have := congrArg List.length hmore
        rw [List.length_append] at this
        omega
      obtain ⟨s', hs', hbytes'⟩ := ih more.length (by omega) hleft rfl
      refine ⟨s', ?_, hbytes'⟩
      rw [dif_neg (Nat.ne_of_gt hlength), dif_neg hgot, hmoreLength, hs']
      simp only
      rw [← hmore]

end Socket

/-- One receive takes one frame off the stream. -/
theorem receive_eq {s : Socket} {f : Frame} {rest : Bytes} (hf : f.WellFormed)
    (h : s.bytes = encodeFrame f ++ rest) : ∃ s', receive s = .ok (f, s') ∧ s'.bytes = rest := by
  have hparts : s.bytes =
      frameHeader f ++ (f.payload ++ (checksum (frameHeader f ++ f.payload) ++ rest)) := by
    rw [h, encodeFrame]
    simp only [List.append_assoc]
  obtain ⟨s₁, hs₁, hbytes₁⟩ := Socket.recvExact_eq hparts
  obtain ⟨s₂, hs₂, hbytes₂⟩ := Socket.recvExact_eq hbytes₁
  obtain ⟨s₃, hs₃, hbytes₃⟩ := Socket.recvExact_eq hbytes₂
  rw [length_frameHeader] at hs₁
  rw [length_checksum] at hs₃
  refine ⟨s₃, ?_, hbytes₃⟩
  have hheader := decodeFrameHeader_frameHeader hf []
  have hsize := readLe_payloadSize hf []
  rw [List.append_nil] at hheader hsize
  have hread : (if f.payload.length > 0 then s₁.recvExact f.payload.length else .ok ([], s₁)) =
      .ok (f.payload, s₂) := by
    split
    next => exact hs₂
    next hzero =>
      have hnil : f.payload = [] := List.length_eq_zero_iff.mp (by omega)
      rw [hnil] at hs₂ ⊢
      rw [← hs₂, Socket.recvExact]
      simp
  have hdecode : decodeFrame (frameHeader f ++ f.payload ++
      checksum (frameHeader f ++ f.payload)) = .ok f := decodeFrame_encodeFrame hf
  simp only [receive, frameHeaderSize, frameTrailerSize, hs₁, hheader, hsize, hread, hs₃, hdecode]

/-- Receives a given number of frames. -/
def receiveMany : Nat → Socket → Except Status (List Frame × Socket)
  | 0, s => .ok ([], s)
  | n + 1, s =>
    match receive s with
    | .error e => .error e
    | .ok (f, s) =>
      match receiveMany n s with
      | .error e => .error e
      | .ok (fs, s) => .ok (f :: fs, s)

theorem receiveMany_eq {s : Socket} {fs : List Frame} {rest : Bytes}
    (hfs : ∀ f ∈ fs, f.WellFormed) (h : s.bytes = fs.flatMap encodeFrame ++ rest) :
    ∃ s', receiveMany fs.length s = .ok (fs, s') ∧ s'.bytes = rest := by
  induction fs generalizing s with
  | nil => exact ⟨s, rfl, h⟩
  | cons f fs ih =>
    rw [List.flatMap_cons, List.append_assoc] at h
    obtain ⟨s₁, hs₁, hbytes₁⟩ := receive_eq (hfs f List.mem_cons_self) h
    obtain ⟨s', hs', hbytes'⟩ := ih (fun g hg => hfs g (List.mem_cons_of_mem _ hg)) hbytes₁
    refine ⟨s', ?_, hbytes'⟩
    rw [List.length_cons, receiveMany, hs₁]
    simp only [hs']

/-- The grammar and the stream: a buffer is accepted exactly when it is the encoding of a
well-formed frame, and a stream of encodings, however it was cut into pieces, is received as
the frames that were sent, to its last byte. -/
theorem frame_protocol_exact :
    (∀ b f, decodeFrame b = .ok f ↔ f.WellFormed ∧ b = encodeFrame f) ∧
      ∀ (fs : List Frame) (s : Socket), (∀ f ∈ fs, f.WellFormed) →
        s.bytes = fs.flatMap encodeFrame →
        ∃ s', receiveMany fs.length s = .ok (fs, s') ∧ s'.bytes = [] := by
  refine ⟨decodeFrame_iff, ?_⟩
  intro fs s hfs hbytes
  apply receiveMany_eq hfs
  rw [List.append_nil]
  exact hbytes

/-- A stream that arrives byte by byte. -/
def Socket.trickle (data : Bytes) : Socket :=
  ⟨data.map fun b => [b], by
    intro piece hpiece
    obtain ⟨b, -, rfl⟩ := List.mem_map.mp hpiece
    exact List.cons_ne_nil _ _⟩

theorem frame_protocol_exact_trickle :
    let sent : List Frame := [{ type := .query, request := ⟨7⟩, payload := [42, 0] },
      { type := MessageType.query.reply, request := ⟨7⟩ }]
    ∃ s', receiveMany 2 (Socket.trickle (sent.flatMap encodeFrame)) = .ok (sent, s') ∧
      s'.bytes = [] := by
  intro sent
  have hsent : ∀ f ∈ sent, f.WellFormed := by
    intro f hf
    simp only [sent, List.mem_cons, List.not_mem_nil, or_false] at hf
    rcases hf with rfl | rfl <;> exact ⟨by decide, by decide, by decide, by decide⟩
  refine frame_protocol_exact.2 sent _ hsent ?_
  have htrickle : ∀ data : Bytes, (Socket.trickle data).bytes = data := by
    intro data
    show (data.map fun b => [b]).flatten = data
    induction data with
    | nil => rfl
    | cons b rest ih => rw [List.map_cons, List.flatten_cons, ih, List.singleton_append]
  exact htrickle _

/-! ## Damaged frames -/

/-- Equal checksums in a byte string are checksums of equal value. -/
theorem checksum_inj {a b : Bytes} (h : checksum a = checksum b) : crc64Ecma a = crc64Ecma b := by
  have hword := congrArg leWord h
  rw [checksum, checksum, leWord_leBytes 8 _ (crc64_lt a), leWord_leBytes 8 _ (crc64_lt b)] at hword
  exact UInt64.toNat_inj.mp hword

/-- A byte string that carries its own checksum and the same string with one byte substituted do
not both carry the right checksum. -/
theorem set_sealed_ne {a b : Bytes} {i : Nat} {v : UInt8} (hlength : b.length = a.length)
    (hi : i < (a ++ checksum a).length) (hne : (a ++ checksum a)[i] ≠ v) :
    (a ++ checksum a).set i v ≠ b ++ checksum b := by
  intro h
  by_cases hbody : i < a.length
  · rw [List.set_append_left _ _ hbody] at h
    obtain ⟨hset, hsum⟩ := List.append_inj h (by rw [List.length_set, hlength])
    rw [List.getElem_append_left hbody] at hne
    refine crc64Ecma_set_ne hbody hne ?_
    rw [hset]
    exact (checksum_inj hsum).symm
  · rw [List.set_append_right _ _ (Nat.le_of_not_lt hbody)] at h
    obtain ⟨rfl, hsum⟩ := List.append_inj h hlength.symm
    rw [List.getElem_append_right (Nat.le_of_not_lt hbody)] at hne
    have hinside : i - a.length < (checksum a).length := by
      rw [List.length_append] at hi
      omega
    have hget := List.getElem_set_self (l := checksum a) (i := i - a.length) (a := v)
      (by rw [List.length_set]; exact hinside)
    simp only [hsum] at hget
    exact hne hget

/-- A frame with one substituted byte is refused, wherever the byte stands. -/
theorem substituted_byte_refused (f : Frame) (i : Nat) (v : UInt8) (hi : i < (encodeFrame f).length)
    (hne : (encodeFrame f)[i] ≠ v) :
    ∃ reason, decodeFrame ((encodeFrame f).set i v) = .error reason := by
  cases hdecode : decodeFrame ((encodeFrame f).set i v) with
  | error reason => exact ⟨reason, rfl⟩
  | ok g =>
    obtain ⟨-, hencoded⟩ := (decodeFrame_iff _ g).mp hdecode
    have hlength : g.payload.length = f.payload.length := by
      have h := congrArg List.length hencoded
      rw [List.length_set, length_encodeFrame, length_encodeFrame] at h
      omega
    refine absurd hencoded (set_sealed_ne ?_ hi hne)
    rw [List.length_append, List.length_append, length_frameHeader, length_frameHeader, hlength]

theorem substituted_byte_refused_version :
    ∃ reason, decodeFrame ((encodeFrame { request := ⟨7⟩, payload := [1, 2] }).set 4 2) =
      .error reason :=
  substituted_byte_refused _ 4 2 (by decide +kernel) (by decide +kernel)

end ExecutionFabric
