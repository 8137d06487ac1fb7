/-
# EthP2P.Rs.Strategy — the Reed-Solomon strategy

The per-session strategy of the Reed-Solomon code (`strategy.go`): an origin holds all chunks of its
message, a relay collects them until it has as many as there are data chunks, and both forward what they
hold to the peers that need it.

A chunk that is not held is `none`.  Slices handed to `TakeChunk` come from `readChunkData`, which
allocates them, so they are never nil.  The random seed of a relay and the iteration order of
`PollChunks` are arguments.
-/
import EthP2P.Broadcast.Strategy
import EthP2P.Rs.Bitmap
import EthP2P.Rs.Planner
import EthP2P.Rs.Types

namespace EthP2P.Rs

open Lib Wire Broadcast

/-- The outside functions the package calls. -/
structure Env where
  reedSolomon : ReedSolomon
  sha256 : Bytes → Bytes

structure PeerState where
  bitmap : Bitmap
  /-- The number of sends in flight, per chunk. -/
  inflight : List Int
  completed : Bool := false

/-- The state of a strategy; `have_` is the source's `have`. -/
structure State where
  config : Config
  preamble : Preamble
  isOrigin : Bool
  totalChunks : Int
  chunks : List (Option Bytes)
  emitPlanner : EmitPlanner := {}
  peers : Map PeerID PeerState := ∅
  routingDirty : Bool := false
  seed : UInt64 := 0
  have_ : Bitmap
  complete : Bool := false

/-! ## Construction -/

/-- `slices.Clone`, `slices.Grow` by `parityLen` and a reslice to `totalLen`: the payload followed by
zeros.  A negative growth, a negative length and one beyond what can be allocated are panics. -/
def padded (payload : Bytes) (totalLen parityLen : Int) : Except Failure Bytes :=
  if parityLen < 0 ∨ totalLen < 0 ∨ totalLen > maxAlloc then .error .panicked
  else .ok (payload ++ List.replicate parityLen.toNat 0)

/-- `slices.Collect(slices.Chunk(msg, chunkLen))`, which panics for a length below one. -/
def chunked (msg : Bytes) (chunkLen : Int) : Except Failure (List Bytes) :=
  if chunkLen < 1 then .error .panicked else .ok (blocks chunkLen.toNat msg)

def newOriginStrategy (env : Env) (config : Config) (payload : Bytes) : Except Failure State := do
  let msgLen : Int := payload.length
  let (preamble, chunkLen) ← initPreamble config msgLen
  if env.reedSolomon.new preamble.dataChunks preamble.parityChunks = false then throw .encoder
  let totalLen := int64 (chunkLen * preamble.totalChunks)
  let parityLen := int64 (totalLen - msgLen)
  let msg ← padded payload totalLen parityLen
  let shards ← chunked msg chunkLen
  match env.reedSolomon.encode preamble.dataChunks.toNat preamble.parityChunks.toNat shards with
  | none => throw .encode
  | some shards =>
    let preamble := { preamble with
      chunkHashes := shards.map env.sha256
      messageHash := env.sha256 payload }
    return {
      config := config
      preamble := preamble
      isOrigin := true
      totalChunks := preamble.totalChunks
      chunks := shards.map some
      emitPlanner := (List.range shards.length).foldl (fun h (i : Nat) => h.Insert { idx := i }) {}
      have_ := .allOnes preamble.totalChunks.toNat
      routingDirty := true }

def newRelayStrategy (config : Config) (seed : UInt64) (preamble : Option Preamble) : Except Failure State :=
  match preamble with
  | none => .error .nilPreamble
  | some preamble =>
    if preamble.dataChunks ≤ 0 ∨ preamble.parityChunks < 0 ∨
        (preamble.chunkHashes.length : Int) ≠ preamble.totalChunks then
      .error .malformedPreamble
    else
      .ok {
        config := config.forRelay
        preamble := preamble
        isOrigin := false
        totalChunks := preamble.totalChunks
        chunks := List.replicate preamble.totalChunks.toNat none
        seed := seed
        have_ := .new preamble.totalChunks.toNat }

namespace State

/-! ## Receiving -/

variable (s : State)

/-- The index names no chunk of the message. -/
def outOfRange (index : Int) : Bool := index < 0 || index ≥ s.totalChunks

def HaveChunk (chunkID : ChunkIdent) : Bool :=
  s.outOfRange chunkID.index || s.have_.get chunkID.index.toNat

/-- The index as a big-endian 32-bit word. -/
def DedupKey (chunkID : ChunkIdent) : Bytes :=
  let x := (chunkID.index % 2 ^ 32).toNat
  [.ofNat (x / 2 ^ 24), .ofNat (x / 2 ^ 16), .ofNat (x / 2 ^ 8), .ofNat x]

def AttachPeer (peer : PeerID) : State :=
  let ps : PeerState :=
    { bitmap := .new s.totalChunks.toNat, inflight := List.replicate s.totalChunks.toNat 0 }
  { s with peers := s.peers.set peer ps }

def DetachPeer (peer : PeerID) (completed : Bool) : State :=
  match s.peers.get peer with
  | none => s
  | some ps =>
    if completed then { s with peers := s.peers.set peer { ps with completed := true } }
    else { s with peers := s.peers.del peer }

def verifyChunk (env : Env) (s : State) (index : Int) (data : Bytes) : Verdict :=
  if index < 0 then .invalid
  else
    match s.preamble.chunkHashes[index.toNat]? with
    | none => .invalid
    | some hash => if env.sha256 data = hash then .accepted else .invalid

def VerifyChunk (env : Env) (s : State) (_peer : PeerID) (chunkID : ChunkIdent) (data : Bytes) : Verdict :=
  if s.outOfRange chunkID.index then .invalid else s.verifyChunk env chunkID.index data

/-- Fibonacci hashing of the index with the relay's seed. -/
def chunkPriority (idx : Nat) : UInt32 :=
  ((s.seed ^^^ (UInt64.ofNat idx * 0x9E3779B97F4A7C15)) >>> 32).toUInt32

/-- Apply `f` to a peer's state, if it is attached. -/
def onPeer (peer : PeerID) (f : PeerState → PeerState) : State :=
  match s.peers.get peer with
  | none => s
  | some ps => { s with peers := s.peers.set peer (f ps) }

/-- A chunk that was not held is put in its place, planned for sending, and marked as held by its
sender. -/
def place (peer : PeerID) (idx : Nat) (data : Bytes) : State :=
  let s := { s with
    chunks := s.chunks.set idx (some data)
    have_ := s.have_.set idx
    routingDirty := true
    emitPlanner := s.emitPlanner.Insert { idx := idx, priority := s.chunkPriority idx } }
  s.onPeer peer fun ps => { ps with bitmap := ps.bitmap.set idx }

/-- Enough chunks are held. -/
def enough : Bool := decide ((s.have_.onesCount : Int) ≥ s.preamble.dataChunks)

def store (peer : PeerID) (idx : Nat) (data : Bytes) : State :=
  let s := s.place peer idx data
  if !s.complete && s.enough then { s with complete := true } else s

def TakeChunk (peer : PeerID) (chunkID : ChunkIdent) (data : Bytes) : TakeResult State :=
  if s.outOfRange chunkID.index then
    { state := s, verdict := .invalid, complete := false, cancelsGroup := false }
  else if s.complete then
    -- a running `Decode` reads the chunks, so nothing more is stored
    { state := s, verdict := .redundant, complete := false, cancelsGroup := false }
  else if (s.chunks.getD chunkID.index.toNat none).isSome then
    { state := s, verdict := .redundant, complete := false, cancelsGroup := false }
  else
    let s := s.store peer chunkID.index.toNat data
    { state := s, verdict := .accepted, complete := s.complete, cancelsGroup := true }

/-! ## Decoding -/

/-- The first `d` shards joined.  An index beyond the end is a panic; a missing shard is an empty one. -/
def joined (shards : List (Option Bytes)) (d : Int) : Except Failure Bytes :=
  if (shards.length : Int) < d then .error .panicked
  else .ok ((shards.take d.toNat).map fun o => o.getD []).flatten

/-- `tryDecode`. -/
def Decode (env : Env) (s : State) : Except Failure Bytes :=
  let d := s.preamble.dataChunks
  if env.reedSolomon.new d s.preamble.parityChunks = false then .error .encoder
  else
    match env.reedSolomon.reconstructData d.toNat s.preamble.parityChunks.toNat s.chunks with
    | none => .error .reconstruct
    | some shards =>
      match shards.head? with
      | none => .error .panicked
      | some first =>
        let dataLen := int64 (d * ((first.getD []).length : Int))
        if dataLen < 0 ∨ dataLen > maxAlloc then .error .panicked
        else
          match joined shards d with
          | .error e => .error e
          | .ok data =>
            if s.preamble.messageLength ≤ 0 ∨ s.preamble.messageLength > data.length then
              .error .messageLength
            else
              let data := data.take s.preamble.messageLength.toNat
              if env.sha256 data ≠ s.preamble.messageHash then .error .messageHash else .ok data

def Progress : Int × Int := (s.have_.onesCount, s.preamble.dataChunks)

/-! ## Sending -/

/-- Merge a peer's inventory; the handles of the sends it makes needless. -/
def RoutingUpdate (peer : PeerID) (update : Option Bitmap) : State × List ChunkHandle :=
  match s.peers.get peer with
  | none => (s, [])
  | some ps =>
    let ps := match update with
      | some update => { ps with bitmap := ps.bitmap.or update }
      | none => ps
    let cancel := (List.range ps.inflight.length).filter fun idx =>
      decide (ps.inflight.getD idx 0 > 0) && ps.bitmap.get idx
    ({ s with peers := s.peers.set peer ps }, cancel)

/-- The planner's first entry may not go to the peer. -/
def ineligible (ps : PeerState) (ec : EmitEntry) : Bool :=
  ps.bitmap.get ec.idx.toNat || decide (ps.inflight.getD ec.idx.toNat 0 > 0) ||
    (!s.isOrigin && decide (ec.sent ≥ s.config.forwardMultiplier))

/-- The search of `allocate`: pop entries until one may go to the peer. -/
def search (s : State) (ps : PeerState) : Nat → EmitPlanner → List EmitEntry →
    Option EmitEntry × EmitPlanner × List EmitEntry
  | 0, h, skipped => (none, h, skipped)
  | fuel + 1, h, skipped =>
    match h.Top with
    | none => (none, h, skipped)
    | some ec =>
      if s.ineligible ps ec then
        match h.PopFront with
        | none => (none, h, skipped)
        | some (ec, h) => s.search ps fuel h (skipped ++ [ec])
      else (some ec, h, skipped)

def allocate (peer : PeerID) (ps : PeerState) : State × Option (ChunkIdent × Option Bytes) :=
  let (found, h, skipped) := s.search ps (s.emitPlanner.len + 1) s.emitPlanner []
  let h := skipped.foldl EmitPlanner.Insert h
  match found with
  | none => ({ s with emitPlanner := h }, none)
  | some ec =>
    let idx := ec.idx.toNat
    ({ s with
        emitPlanner := h.Increment ec.idx
        peers := s.peers.set peer { ps with inflight := ps.inflight.modify idx (· + 1) } },
      some (⟨ec.idx⟩, s.chunks.getD idx none))

/-- One peer's turn in `PollChunks`. -/
def poll (acc : List (ChunkDispatch ChunkIdent) × State) (peer : PeerID) : List (ChunkDispatch ChunkIdent) × State :=
  match acc.2.peers.get peer with
  | none => acc
  | some ps =>
    if ps.completed then acc
    else
      match acc.2.allocate peer ps with
      | (s, none) => (acc.1, s)
      | (s, some (chunkID, data)) => (acc.1 ++ [⟨peer, chunkID, data.getD []⟩], s)

def PollChunks (o : Order PeerID) (s : State) : List (ChunkDispatch ChunkIdent) × State :=
  (s.peers.range o).foldl poll ([], s)

/-- Whether the inventory is worth sending. -/
def shouldEmitRouting : Bool :=
  if s.config.disableBitmap then false
  else if s.config.bitmapThreshold ≤ 0 then true
  else ((s.have_.onesCount : Int) * 100).tdiv s.totalChunks ≥ s.config.bitmapThreshold

def PollRouting (force : Bool) : Option Bitmap × State :=
  if (s.routingDirty || force) && s.shouldEmitRouting then
    (some s.have_, { s with routingDirty := false })
  else (none, s)

def ChunkSent (peer : PeerID) (handle : ChunkHandle) (err : Option SendError) : State :=
  match s.peers.get peer with
  | none => s
  | some ps =>
    let idx := int64 handle
    if s.outOfRange idx then s
    else if ps.inflight.getD idx.toNat 0 ≤ 0 then s
    else
      let ps := { ps with inflight := ps.inflight.modify idx.toNat (· - 1) }
      match err with
      | none =>
        { s with
          peers := s.peers.set peer { ps with bitmap := ps.bitmap.set idx.toNat }
          emitPlanner := if s.isOrigin then s.emitPlanner else s.emitPlanner.AddSent idx 1 }
      | some _ =>
        { s with
          peers := s.peers.set peer { ps with bitmap := ps.bitmap.unset idx.toNat }
          emitPlanner := s.emitPlanner.Decrement idx }

end State

/-! ## The interface -/

/-- `ChunkIdent.Handle`. -/
def ChunkIdent.handle (ci : ChunkIdent) : ChunkHandle := (ci.index % 2 ^ 64).toNat

/-- The strategy as the session sees it. -/
def methods (env : Env) : Strategy State ChunkIdent Bitmap where
  haveChunk := State.HaveChunk
  dedupKey _ chunkID := some (State.DedupKey chunkID)
  attachPeer := State.AttachPeer
  detachPeer := State.DetachPeer
  verifyChunk s peer chunkID data := (s.VerifyChunk env peer chunkID data, s)
  takeChunk := State.TakeChunk
  routingUpdate s peer update :=
    let r := s.RoutingUpdate peer (some update)
    (r.1, r.2, false)
  pollChunks := State.PollChunks
  pollRouting := State.PollRouting
  chunkSent := State.ChunkSent
  progress := State.Progress
  decode s := (s.Decode env).toOption

/-- `NewScheme`. -/
def scheme (env : Env) (ident : ProtoCodec Int) (preamble : ProtoCodec PbPreamble)
    (config : Config) : Scheme State ChunkIdent Bitmap Preamble where
  methods := methods env
  newOrigin payload :=
    (newOriginStrategy env config payload).toOption.map fun s => (s, s.preamble)
  newRelay seed p := (newRelayStrategy config seed (some p)).toOption
  handle := ChunkIdent.handle
  chunkIdent :=
    { marshal := fun ci => ident.marshal (int32 ci.index)
      unmarshal := fun data => (ident.unmarshal data).map ChunkIdent.mk }
  routing := { marshal := some, unmarshal := some }
  preamble := { marshal := Preamble.marshal preamble, unmarshal := Preamble.unmarshal preamble }

end EthP2P.Rs
