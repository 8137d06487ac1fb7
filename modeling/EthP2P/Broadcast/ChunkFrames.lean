/-
# EthP2P.Broadcast.ChunkFrames — the two frames of a CHUNK stream

A chunk travels as a HEADER frame, which announces the length of the payload, and a DATA frame, behind which the
stream ends (`doSendChunk` of `broadcast/peer_ctrl.go`, `readFrame` and `readChunkData` of `broadcast/wire.go`).
The announced length has 32 bits.
-/
import EthP2P.Broadcast.CtrlOut
import EthP2P.Broadcast.Strategy
import EthP2P.Wire.Frame

namespace EthP2P.Broadcast.ChunkFrames

open Lib Wire

def headerFrame : UInt64 := 0
def dataFrame : UInt64 := 1
def maxBroadcastFrame : Nat := 1 <<< 20

/-- `bcastpb.Chunk_Header` with its field types: `data_length` has 32 bits. -/
structure ChunkHeader where
  channel : ChannelID := ""
  objectId : MessageID := ""
  chunkId : Bytes := []
  dataLength : UInt32 := 0
  deriving DecidableEq

/-- `proto.Marshal` and `proto.Unmarshal` of headers. -/
structure HeaderCodec where
  marshal : ChunkHeader → Option Bytes
  unmarshal : Bytes → Option ChunkHeader
  roundTrips : ∀ header raw, marshal header = some raw → unmarshal raw = some header

inductive FrameError where
  | unexpectedFrame
  | unmarshal
  | read (e : ReadError)
  deriving DecidableEq

/-- What `doSendChunk` reads of a `peerSendChunk`, whose context is part of `SendOutcome`. -/
structure ChunkSend where
  channelID : ChannelID := ""
  messageID : MessageID := ""
  chunkID : Bytes := []
  payload : Bytes

/-- The length wraps, as the conversion `uint32(len(e.payload))` does. -/
def ChunkSend.header (e : ChunkSend) : ChunkHeader :=
  { channel := e.channelID, objectId := e.messageID, chunkId := e.chunkID, dataLength := .ofNat e.payload.length }

/-- How the context and the calls on the stream turn out. -/
structure SendOutcome where
  cancelled : Bool := false
  opens : Bool := true
  writesHead : Bool := true
  writesPayload : Bool := true
  closes : Bool := true

namespace HeaderCodec

variable (codec : HeaderCodec)

/-- The size it returns, and what the stream carries in front of its FIN. -/
def doSendChunk (o : SendOutcome) (e : ChunkSend) : Except SendError (Nat × Bytes) :=
  if o.cancelled then .error .cancelled
  else if !o.opens then .error .writeFail
  else
    match codec.marshal e.header with
    | none => .error .writeFail
    | some header =>
      let head := appendFrameHead (appendFrame [] headerFrame header) dataFrame e.payload.length
      if !o.writesHead then .error .writeFail
      else if !o.writesPayload then .error .writeFail
      else if !o.closes then .error .writeFail
      else .ok (e.payload.length, head ++ e.payload)

def readFrame (input : Bytes) (want : UInt64) : Except FrameError ChunkHeader × Bytes :=
  match Wire.readFrame input maxBroadcastFrame with
  | (.error e, rest) => (.error (.read e), rest)
  | (.ok (typ, data), rest) =>
    if typ ≠ want then (.error .unexpectedFrame, rest)
    else
      match codec.unmarshal data with
      | none => (.error .unmarshal, rest)
      | some header => (.ok header, rest)

/-- A codec that knows one header. -/
def only (header : ChunkHeader) (raw : Bytes) : HeaderCodec where
  marshal h := if h = header then some raw else none
  unmarshal b := if b = raw then some header else none
  roundTrips h b hb := by
    split at hb
    · rename_i hh
      rw [if_pos (Option.some.inj hb).symm, hh]
    · cases hb

end HeaderCodec

def readChunkData (input : Bytes) (dataLen : UInt32) : Except FrameError Bytes :=
  match Wire.readFrame input dataLen.toNat with
  -- FIN where DATA belongs, or a frame longer than announced
  | (.error .eof, _) | (.error .frameTooLarge, _) => .error .unexpectedFrame
  | (.error e, _) => .error (.read e)
  | (.ok (typ, data), rest) =>
    if typ ≠ dataFrame ∨ data.length ≠ dataLen.toNat then .error .unexpectedFrame
    else
      match rest with
      | [] => .ok data
      | _ :: _ => .error .unexpectedFrame

section Data

variable {n : UInt32} {p rest : Bytes}

theorem readChunkData_frame (typ : UInt64) (hp : p.length ≤ n.toNat) :
    readChunkData (appendFrame [] typ p ++ rest) n =
      if typ = dataFrame ∧ p.length = n.toNat ∧ rest = [] then .ok p else .error .unexpectedFrame := by
  have hn := n.toNat_lt
  simp only [readChunkData, readFrame_appendFrame typ p rest hp (by omega)]
  cases rest with
  | nil => by_cases htyp : typ = dataFrame <;> by_cases hlen : p.length = n.toNat <;> simp [htyp, hlen]
  | cons b rest => simp

theorem readChunkData_head (typ : UInt64) {length : Nat} (hn : n.toNat < length) (hlt : length < 2 ^ 64) :
    readChunkData (appendFrameHead [] typ length ++ rest) n = .error .unexpectedFrame := by
  simp only [readChunkData, readFrame_head typ hlt, if_pos hn]

theorem readChunkData_ok {b : Bytes} :
    readChunkData b n = .ok p ↔ b = appendFrame [] dataFrame p ∧ p.length = n.toNat := by
  constructor
  · intro h
    unfold readChunkData at h
    split at h
    case h_1 | h_2 | h_3 => cases h
    rename_i typ data rest hread
    split at h
    · cases h
    rename_i hframe
    rw [not_or, not_not, not_not] at hframe
    split at h
    · obtain ⟨rfl, -⟩ := readFrame_ok hread
      cases h
      exact ⟨by rw [hframe.1, List.append_nil], hframe.2⟩
    · cases h
  · rintro ⟨rfl, hlen⟩
    have h : readChunkData (appendFrame [] dataFrame p ++ []) n = _ := readChunkData_frame dataFrame hlen.le
    rw [List.append_nil] at h
    rw [h, if_pos ⟨rfl, hlen, rfl⟩]

end Data

variable {codec : HeaderCodec} {o : SendOutcome} {e : ChunkSend} {size : Nat} {b : Bytes}

/-- What is sent is two frames, of the header and of the payload. -/
theorem doSendChunk_ok (h : codec.doSendChunk o e = .ok (size, b)) :
    ∃ raw, codec.marshal e.header = some raw ∧
      b = appendFrame [] headerFrame raw ++ appendFrame [] dataFrame e.payload := by
  unfold HeaderCodec.doSendChunk at h
  split at h
  · cases h
  split at h
  · cases h
  split at h
  · cases h
  rename_i raw hraw
  dsimp only at h
  repeat' split at h
  case isFalse =>
    obtain ⟨-, rfl⟩ := Prod.mk.inj (Except.ok.inj h)
    exact ⟨raw, hraw, by simp [appendFrame, appendFrameHead]⟩
  all_goals cases h

/-- The receiver gets the header back and has the DATA frame in front of it. -/
theorem readFrame_sent (h : codec.doSendChunk o e = .ok (size, b))
    (hfits : ∀ raw, codec.marshal e.header = some raw → raw.length ≤ maxBroadcastFrame) :
    codec.readFrame b headerFrame = (.ok e.header, appendFrame [] dataFrame e.payload) := by
  obtain ⟨raw, hraw, rfl⟩ := doSendChunk_ok h
  unfold HeaderCodec.readFrame
  simp [readFrame_appendFrame headerFrame raw _ (hfits raw hraw) (by decide), codec.roundTrips _ _ hraw]

/-- **A chunk is received as it was sent exactly when its length fits into 32 bits**, and `readChunkData` accepts one
DATA frame of the announced length, with nothing behind it, and nothing else. -/
theorem chunk_frames_round_trip (codec : HeaderCodec) (o : SendOutcome) (e : ChunkSend) (n : UInt32) :
    (∀ (size : Nat) (b : Bytes), codec.doSendChunk o e = .ok (size, b) →
      (∀ raw, codec.marshal e.header = some raw → raw.length ≤ maxBroadcastFrame) →
      ((∃ header rest, codec.readFrame b headerFrame = (.ok header, rest) ∧ header.channel = e.channelID ∧
        header.objectId = e.messageID ∧ header.chunkId = e.chunkID ∧
        readChunkData rest header.dataLength = .ok e.payload) ↔ e.payload.length < 2 ^ 32)) ∧
    (∀ b p : Bytes, readChunkData b n = .ok p ↔ b = appendFrame [] dataFrame p ∧ p.length = n.toNat) ∧
    readChunkData [] n = .error .unexpectedFrame ∧
    (∀ (typ : UInt64) (p rest : Bytes), p.length < 2 ^ 63 → typ ≠ dataFrame ∨ p.length < n.toNat →
      readChunkData (appendFrame [] typ p ++ rest) n = .error .unexpectedFrame) ∧
    (∀ (typ : UInt64) (length : Nat) (rest : Bytes), n.toNat < length → length < 2 ^ 64 →
      readChunkData (appendFrameHead [] typ length ++ rest) n = .error .unexpectedFrame) ∧
    (∀ p rest : Bytes, p.length = n.toNat → rest ≠ [] →
      readChunkData (appendFrame [] dataFrame p ++ rest) n = .error .unexpectedFrame) ∧
    ∀ (typ : UInt64) (p cut missing : Bytes), p.length ≤ n.toNat → cut ++ missing = appendFrame [] typ p →
      cut ≠ [] → missing ≠ [] → readChunkData cut n = .error (.read .unexpectedEOF) := by
  refine ⟨fun size b hsent hfits => ⟨?_, fun hlen => ?_⟩, fun _ _ => readChunkData_ok, rfl, ?_,
    fun typ length rest => readChunkData_head typ, ?_, ?_⟩
  · -- what is read has the announced length, which has 32 bits
    rintro ⟨header, rest, -, -, -, -, hdata⟩
    rw [(readChunkData_ok.mp hdata).2]
    exact header.dataLength.toNat_lt
  · refine ⟨_, _, readFrame_sent hsent hfits, rfl, rfl, rfl, readChunkData_ok.mpr ⟨rfl, ?_⟩⟩
    exact (UInt32.toNat_ofNat_of_lt' hlen).symm
  · intro typ p rest hsize hother
    by_cases hle : p.length ≤ n.toNat
    · rw [readChunkData_frame typ hle, if_neg]
      rintro ⟨htyp, hlen, -⟩
      exact hother.elim (fun h => h htyp) fun h => h.ne hlen
    · rw [appendFrame, List.append_assoc]
      exact readChunkData_head typ (by omega) (by omega)
  · intro p rest hlen hrest
    rw [readChunkData_frame dataFrame hlen.le, if_neg fun h => hrest h.2.2]
  · intro typ p cut missing hlen hframe hcut hmissing
    have hn := n.toNat_lt
    simp only [readChunkData, readFrame_cut hlen (by omega) hframe hmissing, if_neg hcut]

/-- A chunk of one byte, with the header as protobuf encodes it. -/
theorem chunk_frames_round_trip_one :
    let e : ChunkSend := { channelID := "c", messageID := "m", chunkID := [7], payload := [9] }
    let raw : Bytes := [10, 1, 99, 18, 1, 109, 26, 1, 7, 32, 1]
    let codec := HeaderCodec.only e.header raw
    codec.doSendChunk {} e = .ok (1, [0, 11] ++ raw ++ [1, 1, 9]) ∧
      ∃ header rest, codec.readFrame ([0, 11] ++ raw ++ [1, 1, 9]) headerFrame = (.ok header, rest) ∧
        header.chunkId = [7] ∧ readChunkData rest header.dataLength = .ok [9] := by
  intro e raw codec
  have hsent : codec.doSendChunk {} e = .ok (1, [0, 11] ++ raw ++ [1, 1, 9]) := by decide
  refine ⟨hsent, ?_⟩
  obtain ⟨header, rest, hread, -, -, hchunk, hdata⟩ :=
    ((chunk_frames_round_trip codec {} e 1).1 _ _ hsent (by simp [codec, HeaderCodec.only, raw, maxBroadcastFrame])).2
      (by decide)
  exact ⟨header, rest, hread, hchunk, hdata⟩

/-- A payload of 2³² bytes is announced as empty and refused, with the header in which every field has its default and
whose encoding is empty. -/
theorem long_payload_refused :
    let codec := HeaderCodec.only {} []
    let e : ChunkSend := { payload := List.replicate (2 ^ 32) 0 }
    ∃ size b, codec.doSendChunk {} e = .ok (size, b) ∧
      (∀ raw, codec.marshal e.header = some raw → raw.length ≤ maxBroadcastFrame) ∧
      ∃ header rest, codec.readFrame b headerFrame = (.ok header, rest) ∧
        readChunkData rest header.dataLength = .error .unexpectedFrame := by
  intro codec e
  have hlen : e.payload.length = 2 ^ 32 := List.length_replicate
  have hheader : e.header = {} := by
    simp only [ChunkSend.header, hlen]
    rfl
  have hraw : codec.marshal e.header = some [] := by simp [codec, HeaderCodec.only, hheader]
  have hfits : ∀ raw, codec.marshal e.header = some raw → raw.length ≤ maxBroadcastFrame := by
    intro raw h
    cases hraw.symm.trans h
    exact Nat.zero_le _
  obtain ⟨b, hsent⟩ : ∃ b, codec.doSendChunk {} e = .ok (e.payload.length, b) := by
    simp [HeaderCodec.doSendChunk, hraw]
  refine ⟨_, _, hsent, hfits, _, _, readFrame_sent hsent hfits, ?_⟩
  have hzero : e.header.dataLength = 0 := by rw [hheader]
  rw [hzero, appendFrame, hlen]
  exact readChunkData_head dataFrame (by decide) (by decide)

end EthP2P.Broadcast.ChunkFrames
