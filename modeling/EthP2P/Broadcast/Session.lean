/-
# EthP2P.Broadcast.Session — one session and what its methods reach

A session (`broadcast/session.go`) is the state of one message on one channel.  Its methods run on the
channel's goroutine, but they reach far: they call the control states of the attached peers, put chunks
into outboxes that data loops empty, start the goroutines that read chunk payloads and decode, and cancel
contexts.  All of that is one record here, the `World`; a method takes a `Scope`, the session together with
the world, and returns the next one.

* **Identities.**  A pointer the source compares or holds on to (session, outbox, context, reader) is a
  number drawn from one counter.
* **Queues.**  The outboxes of all peers are one list, `queued`, oldest chunk first; the outbox with a
  given number is the sublist that carries it.  `hands` holds the chunks data loops are sending.
* **Contexts.**  `sessDone` and `cancelled` record which session contexts and which contexts below them
  have been cancelled, with the stream code their cause stands for.
* **Unspecified choices.**  The order of a `range` over a map, the random seed of a relay, and whether a
  data loop emptied a full outbox while the method ran are drawn from an oracle, `Chance`, one draw after
  the other.
* **History.**  `life` and `sends` record, per session, what happened to it and to its dispatches.  No
  function reads them.
-/
import Mathlib.Algebra.Group.Nat.Defs
import EthP2P.Broadcast.PeerLoops
import EthP2P.Broadcast.Strategy

namespace EthP2P.Broadcast

open Lib Wire

def maxConcurrentReads : Nat := 64
def maxChunkDataSize : Nat := 2 ^ 20

/-- The payload of a DATA frame whose announced length a session admitted. -/
abbrev ChunkPayload := { payload : Bytes // payload.length ≤ maxChunkDataSize }
/-- The capacity of a chunk outbox. -/
def chunkOutboxCap : Nat := 16

/-- The identity of a `*session`, and of its context. -/
abbrev SessionRef := Nat
/-- The identity of a context below a session's context. -/
abbrev CtxRef := Nat
/-- An inbound CHUNK stream. -/
abbrev InStream := Nat

/-! ## Stages -/

/-- `sessionStage`; the source compares stages as numbers. -/
inductive Stage where
  | consuming
  | decoding
  | reconstructed
  | origin
  deriving DecidableEq, Repr

namespace Stage

def rank : Stage → Nat
  | .consuming => 0
  | .decoding => 1
  | .reconstructed => 2
  | .origin => 3

instance : LT Stage := ⟨fun a b => a.rank < b.rank⟩
instance : LE Stage := ⟨fun a b => a.rank ≤ b.rank⟩
instance (a b : Stage) : Decidable (a < b) := inferInstanceAs (Decidable (a.rank < b.rank))
instance (a b : Stage) : Decidable (a ≤ b) := inferInstanceAs (Decidable (a.rank ≤ b.rank))

theorem lt_reconstructed {a : Stage} : a < .reconstructed ↔ a = .consuming ∨ a = .decoding := by
  cases a <;> decide

end Stage

/-! ## Events of the channel's inbox -/

/-- `channelChunkStream`: the header of a CHUNK stream, and the stream with the unread payload. -/
structure ChunkStream where
  peerID : PeerID
  objectId : MessageID
  chunkId : Bytes
  dataLength : Nat
  stream : InStream
  deriving DecidableEq, Repr

/-- `Sess_Open`, the first frame of a SESS stream. -/
structure SessOpen where
  objectId : MessageID
  preamble : Bytes
  initialUpdate : Bytes
  deriving DecidableEq, Repr

/-- `channelEvent`.  The last argument of `chunkSent` and of `decoded` is history only: the session that
made the dispatch or started the decode, with the number of the dispatch. -/
inductive Event (S : Type) where
  | expiry
  | readDone (messageID : MessageID)
  | chunkStream (e : ChunkStream)
  | chunkData (messageID : MessageID) (peerID : PeerID) (chunkID : Bytes) (payload : ChunkPayload)
  | sessionOpen (peerID : PeerID) (msg : SessOpen)
  | peerChange (e : ChannelPeerChange)
  | publish (messageID : MessageID) (strategy : S) (preambleData : Bytes)
  | chunkSent (messageID : MessageID) (peerID : PeerID) (handle : ChunkHandle)
      (err : Option SendError) (size : Nat) (sender : SessionRef × CtxRef)
  | routingUpdate (peerID : PeerID) (messageID : MessageID) (data : Bytes)
  | peerReconstructed (messageID : MessageID) (peerID : PeerID)
  | peerSessionEnded (messageID : MessageID) (peerID : PeerID) (peer : ConnRef)
  | verifyResult (messageID : MessageID) (peerID : PeerID) (chunkID payload : Bytes) (verdict : Verdict)
  | decoded (messageID : MessageID) (payload : Option Bytes) (sender : SessionRef)

/-! ## Background work -/

/-- `peerSendChunk`.  `ctx` is the context of this send, and the number of its dispatch; the result goes to
the channel of `session`. -/
structure PeerSendChunk where
  peerID : PeerID
  messageID : MessageID
  handle : ChunkHandle
  chunkID : Bytes
  payload : Bytes
  ctx : CtxRef
  session : SessionRef
  deriving DecidableEq, Repr

/-- A chunk in an outbox of a connection. -/
structure Queued where
  conn : ConnRef
  outbox : OutboxRef
  chunk : PeerSendChunk
  deriving DecidableEq, Repr

/-- A chunk a data loop is sending; the outcome is known once `doSendChunk` has returned. -/
structure Hand where
  conn : ConnRef
  chunk : PeerSendChunk
  outcome : Option (Option SendError) := none
  deriving DecidableEq, Repr

/-- Where a reader goroutine of a session is. -/
inductive ReaderPhase where
  | reading
  /-- The payload is read; it has to be handed to the channel. -/
  | read (payload : ChunkPayload)
  /-- About to free its slot of `readSem`. -/
  | closing
  /-- The slot is free; the channel has to be told. -/
  | released
  deriving DecidableEq, Repr

/-- A goroutine of `handleChunkStream`.  Its context is that of `group`, or the session's. -/
structure Reader where
  ref : Nat
  session : SessionRef
  messageID : MessageID
  peer : PeerID
  chunkID : Bytes
  dataLen : Nat
  stream : InStream
  group : Option CtxRef
  phase : ReaderPhase := .reading
  /-- The announced length was admitted. -/
  admitted : dataLen ≤ maxChunkDataSize := by decide
  deriving DecidableEq, Repr

/-- The goroutine of `acceptChunk` that decodes.  From completeness on the strategy keeps what `Decode`
reads, so the result is fixed when the goroutine starts. -/
structure Decoder where
  session : SessionRef
  messageID : MessageID
  result : Option Bytes
  deriving DecidableEq, Repr

/-! ## Observations -/

/-- What the `Err` of a `ChunkProcessError` reports. -/
inductive ProcessError where
  | unmarshalChunkID
  | dataLength (dataLen : Nat)
  | takeChunk
  | unmarshalRouting
  | routingUpdate
  | unmarshalPreamble
  | newRelay
  | decode
  deriving DecidableEq, Repr

/-- Why a session is disposed. -/
inductive Reason where
  | allPeersDone
  | replaced
  | ttlExpired
  deriving DecidableEq, Repr

/-- The text the observer is given. -/
def Reason.text : Reason → String
  | .allPeersDone => "all_peers_done"
  | .replaced => "replaced"
  | .ttlExpired => "ttl_expired"

/-- The observer calls of a channel and its sessions.  A decode error names no peer. -/
inductive Observation where
  | chunkError (peer : Option PeerID) (messageID : MessageID) (err : ProcessError)
  | chunkRcvd (peer : PeerID) (messageID : MessageID) (verdict : Verdict)
  | strategyProgress (messageID : MessageID) (have_ need : Int)
  | routingUpdate (peer : PeerID) (messageID : MessageID)
  | chunkSent (peer : PeerID) (messageID : MessageID) (bytesSent : Nat)
  | sessionStarted (messageID : MessageID) (origin : Bool)
  | sessionDecoded (messageID : MessageID)
  | sessionDisposed (messageID : MessageID) (reason : String)
  deriving DecidableEq, Repr

/-! ## History -/

/-- The life of one session: the stage it started in, each assignment to its stage, the result of each
decode it started, whether an own `channelDecoded` was handled, the payloads it passed to `deliverMessage`,
and why it was disposed. -/
structure Life where
  start : Option Stage := none
  moves : List (Stage × Stage) := []
  decodes : List (Option Bytes) := []
  handled : Bool := false
  delivered : List Bytes := []
  removed : Option Reason := none
  deriving DecidableEq, Repr

/-- The dispatches of one session: those `PollChunks` returned, those reported by `ChunkSent`. -/
structure Sends where
  dispatched : List CtxRef := []
  reported : List CtxRef := []
  deriving DecidableEq, Repr

/-! ## The world -/

/-- One outcome of the choices the language or the schedule leaves open. -/
structure Chance where
  peers : Order PeerID
  messages : Order MessageID
  /-- A data loop took a chunk out of a full outbox in time. -/
  room : Bool
  seed : UInt64

/-- What the goroutines of one channel share. -/
structure World (S : Type) where
  channelID : ChannelID
  conns : ConnRef → Conn
  /-- The channel's context has ended, and with it every context below. -/
  ctxDone : Bool := false
  now : Nat := 0
  inbox : List (Event S) := []
  queued : List Queued := []
  hands : List Hand := []
  readers : List Reader := []
  decoders : List Decoder := []
  sessDone : Map SessionRef Code := ∅
  cancelled : Map CtxRef Code := ∅
  /-- Deadlines of the expiry timers that have not fired. -/
  timers : List Nat := []
  /-- `CancelRead` calls on inbound CHUNK streams. -/
  cancelReads : List (InStream × Code) := []
  observed : List Observation := []
  fresh : Nat := 0
  tick : Nat := 0
  life : SessionRef → Life := fun _ => {}
  sends : SessionRef → Sends := fun _ => {}

namespace World

variable {S : Type}

def observe (o : Observation) (w : World S) : World S := { w with observed := w.observed ++ [o] }

def cancelRead (stream : InStream) (code : Code) (w : World S) : World S :=
  { w with cancelReads := w.cancelReads ++ [(stream, code)] }

/-- Cancel a context below a session's; the first cause stands. -/
def cancelCtx (ctx : CtxRef) (code : Code) (w : World S) : World S :=
  if (w.cancelled.get ctx).isSome then w else { w with cancelled := w.cancelled.set ctx code }

def updConn (c : ConnRef) (f : Conn → Conn) (w : World S) : World S :=
  { w with conns := Function.update w.conns c (f (w.conns c)) }

/-- A session calls the control state of a connection. -/
def request (c : ConnRef) (call : CtrlOutState.SessionCall) (w : World S) : World S :=
  w.updConn c (Conn.request call)

def updLife (r : SessionRef) (f : Life → Life) (w : World S) : World S :=
  { w with life := Function.update w.life r (f (w.life r)) }

def updSends (r : SessionRef) (f : Sends → Sends) (w : World S) : World S :=
  { w with sends := Function.update w.sends r (f (w.sends r)) }

/-- One unspecified choice has been made. -/
def turn (w : World S) : World S := { w with tick := w.tick + 1 }

/-- The session's context has ended. -/
def ended (w : World S) (r : SessionRef) : Bool := w.ctxDone || (w.sessDone.get r).isSome

/-- `len(s.readSem)`. -/
def reading (w : World S) (r : SessionRef) : Nat :=
  w.readers.countP fun rd => rd.session == r && rd.phase != .released

/-- The number of chunks in an outbox. -/
def outboxLen (w : World S) (c : ConnRef) (outbox : OutboxRef) : Nat :=
  w.queued.countP fun q => q.conn == c && q.outbox == outbox

end World

/-! ## The session -/

structure SessionPeer where
  conn : ConnRef
  chunkOutbox : OutboxRef
  completed : Bool := false
  deriving DecidableEq, Repr

structure PendingChunkRead where
  peer : PeerID
  chunkID : Bytes
  dataLen : Nat
  stream : InStream
  deriving DecidableEq, Repr

/-- `session`.  The slots of `readSem` are held by the readers of the world. -/
structure Session (S : Type) where
  ref : SessionRef
  messageID : MessageID
  preamble : Bytes
  stage : Stage
  strategy : S
  createdAt : Nat
  everHadPeers : Bool := false
  peers : Map PeerID SessionPeer := ∅
  outboundCancels : Map (PeerID × ChunkHandle) CtxRef := ∅
  readQueue : List PendingChunkRead := []
  dedupGroups : Map Bytes CtxRef := ∅

/-- `idle`: no work is left. -/
def Session.idle {S : Type} (s : Session S) : Bool :=
  if !s.everHadPeers then false
  else if s.stage < .reconstructed then s.peers.keys.isEmpty
  else s.peers.entries.all (·.2.completed)

/-- A session and what its methods reach. -/
structure Scope (S : Type) where
  sess : Session S
  world : World S

namespace Scope

variable {S C R P : Type} (sch : Scheme S C R P) (luck : Nat → Chance)

variable (x : Scope S)

def key : SessionKey := ⟨x.world.channelID, x.sess.messageID⟩

def onWorld (f : World S → World S) (x : Scope S) : Scope S := { x with world := f x.world }

def setStrategy (strategy : S) (x : Scope S) : Scope S :=
  { x with sess := { x.sess with strategy := strategy } }

def observe (o : Observation) (x : Scope S) : Scope S := x.onWorld (·.observe o)

/-- The body of a loop over peers, for those of `pids` in turn. -/
def eachPeer (peers : Map PeerID SessionPeer) (body : PeerID → SessionPeer → World S → World S)
    (pids : List PeerID) (w : World S) : World S :=
  pids.foldl (fun w pid => match peers.get pid with
    | some sp => body pid sp w
    | none => w) w

/-- `for pid, sp := range s.peers { body }`, for a body that leaves the session alone. -/
def forPeers (body : PeerID → SessionPeer → World S → World S) (x : Scope S) : Scope S :=
  { x with world :=
      eachPeer x.sess.peers body (x.sess.peers.range (luck x.world.tick).peers) x.world.turn }

/-! ### Sending -/

/-- Hand a routing update to one peer; completed peers need none. -/
def routeTo (messageID : MessageID) (data : Bytes) (pid : PeerID) (sp : SessionPeer) (w : World S) : World S :=
  if sp.completed then w
  else if ((w.conns sp.conn).ctrlState.setRouting ⟨w.channelID, messageID, data⟩).1 then
    (w.request sp.conn (.setRouting ⟨w.channelID, messageID, data⟩)).observe (.routingUpdate pid messageID)
  else w.request sp.conn (.setRouting ⟨w.channelID, messageID, data⟩)

def broadcastRouting (update : R) (x : Scope S) : Scope S :=
  match sch.routing.marshal update with
  | none => x
  | some data => x.forPeers luck (routeTo x.sess.messageID data)

/-- `s.strategy.ChunkSent`, for the dispatch with the number `d`. -/
def report (d : CtxRef) (peer : PeerID) (handle : ChunkHandle) (err : Option SendError) (x : Scope S) : Scope S :=
  { sess := { x.sess with strategy := sch.methods.chunkSent x.sess.strategy peer handle err }
    world := x.world.updSends x.sess.ref fun s => { s with reported := s.reported ++ [d] } }

/-- A dispatch gets its number, which is also that of its context. -/
def dispatch : Scope S :=
  x.onWorld fun w =>
    { w.updSends x.sess.ref fun s => { s with dispatched := s.dispatched ++ [w.fresh] } with
      fresh := w.fresh + 1 }

/-- The chunk goes into the peer's outbox and the data loop is woken. -/
def enqueue (d : CtxRef) (sp : SessionPeer) (chunk : PeerSendChunk) (x : Scope S) : Scope S :=
  { sess := { x.sess with
      outboundCancels := x.sess.outboundCancels.set (chunk.peerID, chunk.handle) d }
    world := ({ x.world with
      queued := x.world.queued ++ [⟨sp.conn, sp.chunkOutbox, chunk⟩] } : World S).updConn sp.conn Conn.wake }

/-- What `sendChunk` does with the dispatch numbered `d`. -/
def offer (room : Bool) (d : CtxRef) (c : ChunkDispatch C) (x : Scope S) : Scope S :=
  match sch.chunkIdent.marshal c.chunkID with
  | none => x.report sch d c.peer (sch.handle c.chunkID) (some .marshal)
  | some chunkIDBytes =>
    match x.sess.peers.get c.peer with
    | none => x.report sch d c.peer (sch.handle c.chunkID) (some .peerGone)
    | some sp =>
      if x.world.outboxLen sp.conn sp.chunkOutbox < chunkOutboxCap || room then
        x.enqueue d sp
          { peerID := c.peer
            messageID := x.sess.messageID
            handle := sch.handle c.chunkID
            chunkID := chunkIDBytes
            payload := c.data
            ctx := d
            session := x.sess.ref }
      else x.report sch d c.peer (sch.handle c.chunkID) (some .slotFull)

def sendChunk (c : ChunkDispatch C) : Scope S :=
  (x.dispatch.onWorld World.turn).offer sch (luck x.world.tick).room x.world.fresh c

/-- The first half of `drainPolls`. -/
def emitRouting : Scope S :=
  match sch.methods.pollRouting x.sess.strategy false with
  | (some routing, strategy) => (x.setStrategy strategy).broadcastRouting sch luck routing
  | (none, strategy) => x.setStrategy strategy

/-- The second half of `drainPolls`: every chunk `PollChunks` returns is sent. -/
def emitChunks : Scope S :=
  let polled := sch.methods.pollChunks (luck x.world.tick).peers x.sess.strategy
  polled.1.foldl (sendChunk sch luck) ((x.setStrategy polled.2).onWorld World.turn)

/-- `drainPolls`: routing first, so that peers know our state before they receive chunks. -/
def drainPolls : Scope S := (x.emitRouting sch luck).emitChunks sch luck

/-- Cancel one outbound send, if it is still known. -/
def cancelSend (k : PeerID × ChunkHandle) : Scope S :=
  match x.sess.outboundCancels.get k with
  | none => x
  | some ctx =>
    { sess := { x.sess with outboundCancels := x.sess.outboundCancels.del k }
      world := x.world.cancelCtx ctx .unspecified }

def cancelOutbound (peer : PeerID) (x : Scope S) : Scope S :=
  (x.sess.outboundCancels.keys.filter (·.1 == peer)).foldl cancelSend x

/-- An observer call made only on a condition. -/
def observeIf (b : Bool) (o : Observation) (x : Scope S) : Scope S := if b then x.observe o else x

def handleSendComplete (peer : PeerID) (handle : ChunkHandle) (err : Option SendError) (size : Nat)
    (d : CtxRef) (x : Scope S) : Scope S :=
  (((x.cancelSend (peer, handle)).report sch d peer handle err).observeIf err.isNone
    (.chunkSent peer x.sess.messageID size)).drainPolls sch luck

/-- `handleRoutingUpdate` up to its polls. -/
def applyRouting (peer : PeerID) (update : R) (x : Scope S) : Scope S :=
  let r := sch.methods.routingUpdate x.sess.strategy peer update
  let x := (x.setStrategy r.1).observeIf r.2.2
    (.chunkError (some peer) x.sess.messageID .routingUpdate)
  (r.2.1.map fun handle => (peer, handle)).foldl cancelSend (x.observe (.routingUpdate peer x.sess.messageID))

def handleRoutingUpdate (peer : PeerID) (data : Bytes) (x : Scope S) : Scope S :=
  match sch.routing.unmarshal data with
  | none => x.observe (.chunkError (some peer) x.sess.messageID .unmarshalRouting)
  | some update => (x.applyRouting sch peer update).drainPolls sch luck

/-! ### Receiving -/

/-- A stage's verdict on a chunk that is not needed. -/
def unneeded (stage : Stage) : Verdict :=
  if .reconstructed ≤ stage then .surplus
  else if stage = .decoding then .decoding
  else .redundant

/-- The context under which a chunk is read: the dedup group of its key, made if there is none. -/
def readGroup (dedupKey : Option Bytes) (x : Scope S) : Option CtxRef × Scope S :=
  match dedupKey with
  | none => (none, x)
  | some key =>
    match x.sess.dedupGroups.get key with
    | some grp => (some grp, x)
    | none =>
      (some x.world.fresh,
        { sess := { x.sess with dedupGroups := x.sess.dedupGroups.set key x.world.fresh }
          world := { x.world with fresh := x.world.fresh + 1 } })

def handleChunkStream (peer : PeerID) (chunkID : Bytes) (dataLen : Nat) (stream : InStream) (x : Scope S) : Scope S :=
  match sch.chunkIdent.unmarshal chunkID with
  | none =>
    (x.observe (.chunkError (some peer) x.sess.messageID .unmarshalChunkID)).onWorld (·.cancelRead stream .unspecified)
  | some chunk =>
    if hlen : dataLen > maxChunkDataSize then
      (x.observe (.chunkError (some peer) x.sess.messageID (.dataLength dataLen))).onWorld
        (·.cancelRead stream .unspecified)
    else if .decoding ≤ x.sess.stage || sch.methods.haveChunk x.sess.strategy chunk then
      (x.observe (.chunkRcvd peer x.sess.messageID (unneeded x.sess.stage))).onWorld (·.cancelRead stream .redundant)
    else if x.world.reading x.sess.ref < maxConcurrentReads then
      let g := x.readGroup (sch.methods.dedupKey x.sess.strategy chunk)
      g.2.onWorld fun w =>
        { w with
          fresh := w.fresh + 1
          readers := w.readers ++ [{
            ref := w.fresh, session := x.sess.ref, messageID := x.sess.messageID, peer := peer
            chunkID := chunkID, dataLen := dataLen, stream := stream, group := g.1
            admitted := Nat.le_of_not_gt hlen }] }
    else
      { x with sess := { x.sess with
          readQueue := x.sess.readQueue ++ [⟨peer, chunkID, dataLen, stream⟩] } }

/-- The loop of `drainReads`.  A round takes one read off the queue, and with a slot free none is put
back, so the length of the queue is enough fuel. -/
def drainReadsLoop : Nat → Scope S → Scope S
  | 0, x => x
  | fuel + 1, x =>
    match x.sess.readQueue with
    | [] => x
    | pending :: rest =>
      if x.world.reading x.sess.ref < maxConcurrentReads then
        let x := { x with sess := { x.sess with readQueue := rest } }
        drainReadsLoop fuel (x.handleChunkStream sch pending.peer pending.chunkID pending.dataLen pending.stream)
      else x

def drainReads : Scope S := x.drainReadsLoop sch x.sess.readQueue.length

def notifyPeersComplete : Scope S :=
  x.forPeers luck fun _ sp w => w.request sp.conn (.closeSessionStream x.key)

/-- The session is complete: it enters the decoding stage, tells its peers, and decodes in the
background. -/
def startDecode : Scope S :=
  let result := sch.methods.decode x.sess.strategy
  let y := (Scope.mk { x.sess with stage := .decoding } x.world).notifyPeersComplete luck
  y.onWorld fun w =>
    { w.updLife x.sess.ref fun l =>
        { l with
          moves := l.moves ++ [(x.sess.stage, .decoding)]
          decodes := l.decodes ++ [result] } with
      decoders := w.decoders ++ [⟨x.sess.ref, x.sess.messageID, result⟩] }

/-- `DedupCancel.Cancel`, if the strategy called it and there is a group. -/
def cancelGroup (dedupKey : Option Bytes) (x : Scope S) : Scope S :=
  match dedupKey with
  | none => x
  | some key =>
    match x.sess.dedupGroups.get key with
    | none => x
    | some grp =>
      { sess := { x.sess with dedupGroups := x.sess.dedupGroups.del key }
        world := x.world.cancelCtx grp .redundant }

/-- `acceptChunk` up to the question whether the message is complete. -/
def takeChunk (peer : PeerID) (chunk : C) (payload : Bytes) (x : Scope S) : Scope S :=
  let r := sch.methods.takeChunk x.sess.strategy peer chunk payload
  let y := x.setStrategy r.state
  let y := if r.cancelsGroup then y.cancelGroup (sch.methods.dedupKey x.sess.strategy chunk) else y
  let y := y.observeIf r.failed (.chunkError (some peer) x.sess.messageID .takeChunk)
  let y := y.observe (.chunkRcvd peer x.sess.messageID r.verdict)
  let progress := sch.methods.progress y.sess.strategy
  y.observeIf (r.verdict = .accepted) (.strategyProgress x.sess.messageID progress.1 progress.2)

def acceptChunk (peer : PeerID) (chunk : C) (payload : Bytes) (x : Scope S) : Scope S :=
  let r := sch.methods.takeChunk x.sess.strategy peer chunk payload
  let y := x.takeChunk sch peer chunk payload
  if r.verdict = .accepted ∧ r.complete ∧ y.sess.stage = .consuming then
    (y.startDecode sch luck).drainPolls sch luck
  else y.drainPolls sch luck

def handleChunkData (peer : PeerID) (chunkID payload : Bytes) (x : Scope S) : Scope S :=
  match sch.chunkIdent.unmarshal chunkID with
  | none => x.observe (.chunkError (some peer) x.sess.messageID .unmarshalChunkID)
  | some chunk =>
    if sch.methods.haveChunk x.sess.strategy chunk then
      x.observe (.chunkRcvd peer x.sess.messageID (unneeded x.sess.stage))
    else
      let v := sch.methods.verifyChunk x.sess.strategy peer chunk payload
      let x := x.setStrategy v.2
      match v.1 with
      | .accepted => x.acceptChunk sch luck peer chunk payload
      | .pending => x
      | verdict => x.observe (.chunkRcvd peer x.sess.messageID verdict)

def handleVerifyResult (peer : PeerID) (chunkID payload : Bytes) (verdict : Verdict) (x : Scope S) : Scope S :=
  match sch.chunkIdent.unmarshal chunkID with
  | none => x
  | some chunk =>
    if verdict = .accepted then x.acceptChunk sch luck peer chunk payload
    else x.observe (.chunkRcvd peer x.sess.messageID verdict)

/-! ### Peers -/

/-- The part of `handlePeerAttached` before its polls: the peer gets an outbox, and its control state an
open that carries our routing. -/
def join (c : ConnRef) (x : Scope S) : Scope S :=
  let pid := (x.world.conns c).id
  let routing := sch.methods.pollRouting (sch.methods.attachPeer x.sess.strategy pid) true
  let y : Scope S :=
    { sess := { x.sess with
        everHadPeers := true
        peers := x.sess.peers.set pid { conn := c, chunkOutbox := x.world.fresh }
        strategy := routing.2 }
      world := { x.world with fresh := x.world.fresh + 1 } }
  (y.observeIf routing.1.isSome (.routingUpdate pid x.sess.messageID)).onWorld
    (·.request c (.openSession ⟨x.world.channelID, x.sess.messageID, x.sess.preamble,
      (routing.1.bind sch.routing.marshal).getD [], x.world.fresh⟩))

def handlePeerAttached (c : ConnRef) (x : Scope S) : Scope S :=
  if (x.sess.peers.get (x.world.conns c).id).isSome then x
  else (x.join sch c).drainPolls sch luck

/-- The reads that wait for a payload of `peer` are refused. -/
def dropReads (peer : PeerID) (x : Scope S) : Scope S :=
  { sess := { x.sess with readQueue := x.sess.readQueue.filter (·.peer != peer) }
    world := (x.sess.readQueue.filter (·.peer == peer)).foldl
      (fun w pending => w.cancelRead pending.stream .unspecified) x.world }

/-- The control state of an attached peer is told that the session is over for it. -/
def farewell (peer : PeerID) (x : Scope S) : Scope S :=
  match x.sess.peers.get peer with
  | some sp => x.onWorld (·.request sp.conn (.closeSession x.key))
  | none => x

def handlePeerDropped (peer : PeerID) (x : Scope S) : Scope S :=
  let y := (x.farewell peer).dropReads peer
  let y := (Scope.mk { y.sess with peers := y.sess.peers.del peer } y.world).cancelOutbound peer
  y.setStrategy (sch.methods.detachPeer y.sess.strategy peer false)

def handlePeerCompleted (peer : PeerID) (x : Scope S) : Scope S :=
  match x.sess.peers.get peer with
  | none => x
  | some sp =>
    if sp.completed then x
    else
      let peers := x.sess.peers.set peer { sp with completed := true }
      let y := (Scope.mk { x.sess with peers := peers } x.world).cancelOutbound peer
      y.setStrategy (sch.methods.detachPeer y.sess.strategy peer true)

/-! ### The end -/

def notifyPeersSessionDone : Scope S :=
  x.forPeers luck fun _ sp w => w.request sp.conn (.closeSession x.key)

/-- The stream code of the cause with which the session's context is cancelled. -/
def closeCause (code : Code) : Code :=
  if code = .redundant then .redundant else if code = .refused then .refused else .unspecified

/-- `closeWithCode`.  The wait for the session's goroutines is a condition on the next event
(`EthP2P.Broadcast.Channel`); closing the strategy has no effect the session sees. -/
def closeWithCode (code : Code) (x : Scope S) : Scope S :=
  let y := x.notifyPeersSessionDone luck
  let w := { y.world with sessDone := y.world.sessDone.set x.sess.ref (closeCause code) }
  { sess := { x.sess with readQueue := [] }
    world := x.sess.readQueue.foldl (fun w pending => w.cancelRead pending.stream code) w }

def Close : Scope S := x.closeWithCode luck .unspecified

end Scope

end EthP2P.Broadcast
