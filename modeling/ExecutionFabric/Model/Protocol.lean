import ExecutionFabric.Model.Checksum
import ExecutionFabric.Model.Lifecycle

/-!
# Frames and the channel that carries them

A frame is a fixed header, a bounded payload and a checksum over both. The decoder
takes a complete buffer; the channel reads the header first, learns the payload
length from it and then reads the rest.
-/
namespace ExecutionFabric

open Lib

/-! ## Message types -/

def protocolVersion : UInt16 := 1
def replyBit : UInt16 := 0x8000
def maxMessageType : UInt16 := 53

/-- A message type as it travels; the names below are the requests a coordinator answers. -/
structure MessageType where
  value : UInt16
  deriving DecidableEq, Repr

namespace MessageType

def hello : MessageType := ⟨1⟩
def ping : MessageType := ⟨2⟩
def shutdown : MessageType := ⟨3⟩
def createExecution : MessageType := ⟨10⟩
def bindWorker : MessageType := ⟨11⟩
def start : MessageType := ⟨12⟩
def beginAction : MessageType := ⟨13⟩
def completeAction : MessageType := ⟨14⟩
def failAction : MessageType := ⟨15⟩
def reportSideEffect : MessageType := ⟨16⟩
def registerCheckpoint : MessageType := ⟨17⟩
def suspendBegin : MessageType := ⟨18⟩
def suspendCommit : MessageType := ⟨19⟩
def resume : MessageType := ⟨20⟩
def fence : MessageType := ⟨30⟩
def cancel : MessageType := ⟨31⟩
def retire : MessageType := ⟨32⟩
def drain : MessageType := ⟨33⟩
def completeExecution : MessageType := ⟨34⟩
def advanceGeneration : MessageType := ⟨35⟩
def updatePolicy : MessageType := ⟨36⟩
def classify : MessageType := ⟨37⟩
def recover : MessageType := ⟨38⟩
def resolveAmbiguity : MessageType := ⟨39⟩
def revalidateContinuation : MessageType := ⟨40⟩
def query : MessageType := ⟨50⟩
def listExecutions : MessageType := ⟨51⟩
def snapshot : MessageType := ⟨52⟩
def audit : MessageType := ⟨53⟩

/-- The type without the reply bit. -/
def base (t : MessageType) : MessageType := ⟨t.value &&& ~~~replyBit⟩

def isReply (t : MessageType) : Bool := t.value &&& replyBit ≠ 0

/-- The type with the reply bit. -/
def reply (t : MessageType) : MessageType := ⟨t.value ||| replyBit⟩

/-- The base of the type is in range; not every number in range has a name. -/
def Known (t : MessageType) : Prop := 1 ≤ t.base.value ∧ t.base.value ≤ maxMessageType

instance (t : MessageType) : Decidable t.Known := inferInstanceAs (Decidable (_ ∧ _))

end MessageType

def parseMessageType (raw : UInt16) : Option MessageType :=
  let base := raw &&& ~~~replyBit
  if base < 1 ∨ base > maxMessageType then none else some ⟨raw⟩

theorem parseMessageType_eq_some_iff (raw : UInt16) (t : MessageType) :
    parseMessageType raw = some t ↔ t = ⟨raw⟩ ∧ t.Known := by
  unfold parseMessageType
  simp only
  split
  next h =>
    refine ⟨fun h' => (by cases h'), ?_⟩
    rintro ⟨rfl, hlow, hhigh⟩
    rcases h with h | h
    · exact absurd hlow (UInt16.not_le.mpr h)
    · exact absurd hhigh (UInt16.not_le.mpr h)
  next h =>
    rw [not_or, UInt16.not_lt, UInt16.not_lt] at h
    constructor
    · rintro h'
      cases h'
      exact ⟨rfl, h⟩
    · rintro ⟨rfl, -⟩
      rfl

/-! ## Frames -/

def frameHeaderSize : Nat := 28
def frameTrailerSize : Nat := 8
def frameMagic : Nat := 0x50464550
def maxFramePayload : Nat := 1024 * 1024

structure Frame where
  version : UInt16 := protocolVersion
  type : MessageType := .ping
  request : RequestId := .nil
  flags : UInt32 := 0
  payload : Bytes := []
  deriving DecidableEq, Repr

/-- The header bytes the header checksum covers. -/
def frameFields (f : Frame) : Bytes :=
  leBytes 4 frameMagic ++ leBytes 2 f.version.toNat ++ leBytes 2 f.type.value.toNat ++
    leBytes 8 f.request.value.toNat ++ leBytes 4 f.payload.length ++ leBytes 4 f.flags.toNat

/-- The low 32 bits of a checksum. -/
def headerChecksum (data : Bytes) : Nat := (crc64Ecma data).toNat % 2 ^ 32

def frameHeader (f : Frame) : Bytes := frameFields f ++ leBytes 4 (headerChecksum (frameFields f))

/-- A complete frame in one buffer. -/
def encodeFrame (f : Frame) : Bytes :=
  frameHeader f ++ f.payload ++ checksum (frameHeader f ++ f.payload)

/-- Decodes the header alone; the payload is left empty. -/
def decodeFrameHeader (header : Bytes) : Except String Frame :=
  if header.length < frameHeaderSize then
    .error "frame header is shorter than the fixed header size"
  else if readLe header 0 4 ≠ frameMagic then .error "frame magic mismatch"
  else if readLe header 4 2 ≠ protocolVersion.toNat then .error "unsupported protocol version"
  else
    match parseMessageType (UInt16.ofNat (readLe header 6 2)) with
    | none => .error "unknown message type"
    | some type =>
      if readLe header 20 4 ≠ 0 then .error "frame carries non-zero reserved flags"
      else if readLe header 24 4 ≠ headerChecksum (slice header 0 24) then
        .error "frame header checksum mismatch"
      else if readLe header 16 4 > maxFramePayload then
        .error "frame payload exceeds the protocol limit"
      else
        .ok {
          version := UInt16.ofNat (readLe header 4 2)
          type := type
          request := ⟨UInt64.ofNat (readLe header 8 8)⟩
          flags := UInt32.ofNat (readLe header 20 4) }

/-- Decodes a frame from a complete buffer. -/
def decodeFrame (bytes : Bytes) : Except String Frame :=
  if bytes.length < frameHeaderSize + frameTrailerSize then
    .error "frame is shorter than the minimum frame size"
  else
    match decodeFrameHeader bytes with
    | .error reason => .error reason
    | .ok f =>
      let payloadSize := readLe bytes 16 4
      if bytes.length ≠ frameHeaderSize + payloadSize + frameTrailerSize then
        .error "frame length does not match the declared payload length"
      else if ¬ checksumAt bytes (frameHeaderSize + payloadSize) 0
          (frameHeaderSize + payloadSize) then
        .error "frame checksum mismatch"
      else .ok { f with payload := slice bytes frameHeaderSize payloadSize }

/-! ## Sockets and channels -/

/-- The receiving end of a connection: what the network delivered before it closed, in the pieces
it came in. -/
structure Socket where
  arrived : List Bytes
  nonempty : ∀ piece ∈ arrived, piece ≠ []

namespace Socket

/-- Everything still to be read. -/
def bytes (s : Socket) : Bytes := s.arrived.flatten

/-- The most one `recv` is asked for. -/
def maxChunk : Nat := 1024 * 1024

/-- Puts the unread rest of a piece back in front. -/
def putBack (rest : Bytes) (s : Socket) : Socket :=
  if h : rest = [] then s
  else ⟨rest :: s.arrived, by
    intro piece hpiece
    rcases List.mem_cons.mp hpiece with rfl | hpiece
    · exact h
    · exact s.nonempty piece hpiece⟩

/-- At most `size` bytes of what arrived first; nothing once the peer has closed. -/
def recvSome (s : Socket) (size : Nat) : Bytes × Socket :=
  match s with
  | ⟨[], h⟩ => ([], ⟨[], h⟩)
  | ⟨piece :: rest, h⟩ =>
    let chunk := min size maxChunk
    (piece.take chunk, putBack (piece.drop chunk)
      ⟨rest, fun p hp => h p (List.mem_cons_of_mem _ hp)⟩)

theorem bytes_putBack (rest : Bytes) (s : Socket) : (s.putBack rest).bytes = rest ++ s.bytes := by
  unfold putBack
  split
  next h => rw [h, List.nil_append]
  next h => rfl

/-- What is read and what is left make up what there was. -/
theorem bytes_recvSome (s : Socket) (size : Nat) :
    (s.recvSome size).1 ++ (s.recvSome size).2.bytes = s.bytes := by
  obtain ⟨arrived, h⟩ := s
  cases arrived with
  | nil => rfl
  | cons piece rest =>
    rw [recvSome]
    simp only
    rw [bytes_putBack, ← List.append_assoc, List.take_append_drop]
    rfl

theorem length_recvSome_le (s : Socket) (size : Nat) : (s.recvSome size).1.length ≤ size := by
  obtain ⟨arrived, h⟩ := s
  cases arrived with
  | nil => exact Nat.zero_le _
  | cons piece rest =>
    rw [recvSome]
    simp only [List.length_take]
    omega

/-- A read that asks for something gets something while there is anything left. -/
theorem recvSome_ne_nil {s : Socket} {size : Nat} (hsize : size ≠ 0) (h : s.bytes ≠ []) :
    (s.recvSome size).1 ≠ [] := by
  obtain ⟨arrived, hnonempty⟩ := s
  cases arrived with
  | nil => exact absurd rfl h
  | cons piece rest =>
    have hpiece := List.length_pos_iff.mpr (hnonempty piece List.mem_cons_self)
    rw [recvSome]
    simp only
    rw [← List.length_pos_iff, List.length_take, maxChunk]
    omega

/-- Reads exactly `size` bytes, in as many reads as it takes. -/
def recvExact (s : Socket) (size : Nat) : Except Status (Bytes × Socket) :=
  if _hsize : size = 0 then .ok ([], s)
  else if _hgot : (s.recvSome size).1 = [] then
    .error (err .transportFailure "connection closed while reading a frame")
  else
    match recvExact (s.recvSome size).2 (size - (s.recvSome size).1.length) with
    | .error e => .error e
    | .ok (more, s') => .ok ((s.recvSome size).1 ++ more, s')
termination_by size
decreasing_by
  have hpos := List.length_pos_iff.mpr _hgot
  omega

end Socket

/-- `FrameChannel::receive`: one frame off the socket. -/
def receive (s : Socket) : Except Status (Frame × Socket) :=
  match s.recvExact frameHeaderSize with
  | .error e => .error e
  | .ok (header, s) =>
    match decodeFrameHeader header with
    | .error reason => .error (err .protocolViolation reason)
    | .ok _ =>
      let payloadSize := readLe header 16 4
      match if payloadSize > 0 then s.recvExact payloadSize else .ok ([], s) with
      | .error e => .error e
      | .ok (payload, s) =>
        match s.recvExact frameTrailerSize with
        | .error e => .error e
        | .ok (trailer, s) =>
          match decodeFrame (header ++ payload ++ trailer) with
          | .error reason => .error (err .protocolViolation reason)
          | .ok f => .ok (f, s)

end ExecutionFabric
