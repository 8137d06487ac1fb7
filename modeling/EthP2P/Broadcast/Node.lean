/-
# EthP2P.Broadcast.Node — the engine, its connections and its channels together

`EngineSystem` runs the engine actor and `Channel` one channel actor.  A node runs both, with what lies
between them:

* The engine's sends into channel inboxes.  The engine actor waits for each of them, so they complete one
  after the other and in order, and the actor does nothing else until the last is done.  A channel whose
  actor has exited (`done`) receives nothing.
* The CHUNK side of a `PeerConn` (`broadcast/peer.go`, `broadcast/peer_in.go`): the FIFO that
  `enqueueStream` fills, the accept loop that takes streams out of it, and the goroutines of `processChunk`
  that read a header, look up the channel and send the stream there.
* The SESS readers, up to the OPEN: they look up the channel and send the OPEN there.

The rest of what reaches a channel (later frames of a SESS stream, publications, timers, sessions, control
and data loops) comes from the channel's own system.  `given`, `cancelled`, `read` and `refused` are history.
-/
import EthP2P.Broadcast.Channel
import EthP2P.Broadcast.Routing

namespace EthP2P.Broadcast

open Lib Wire Function

def maxInboundChunkStreams : Nat := 5

/-- `Chunk_Header`, the first frame of a CHUNK stream. -/
structure ChunkHeader where
  channel : ChannelID
  objectId : MessageID
  chunkId : Bytes
  dataLength : Nat
  deriving DecidableEq, Repr

/-- Where a goroutine of `processChunk` is. -/
inductive ChunkPhase where
  /-- It reads the header. -/
  | header
  /-- It holds a channel's handle and sends the stream there. -/
  | routed (t : ChannelRef) (e : ChunkStream)
  /-- The send is done; the channel's context has still to be looked at. -/
  | sent (t : ChannelRef)
  deriving DecidableEq, Repr

/-- A goroutine of `processChunk`. -/
structure ChunkReader where
  stream : InStream
  phase : ChunkPhase := .header
  deriving DecidableEq, Repr

/-- The CHUNK side of a `PeerConn`. -/
structure Intake where
  /-- `chunkIn`. -/
  queue : List InStream := []
  /-- `chunkIn` is closed: `Close` has disposed of it. -/
  closed : Bool := false
  /-- `runChunkAcceptLoop` is running. -/
  looping : Bool := false
  /-- The stream for which the accept loop waits for a slot of `chunkSem`. -/
  accepting : Option InStream := none
  /-- The readers; each holds a slot of `chunkSem`. -/
  readers : List ChunkReader := []

namespace Intake

def setReader (rd : ChunkReader) (phase : ChunkPhase) (i : Intake) : Intake :=
  { i with readers := i.readers.map fun rd' => if rd' = rd then { rd with phase := phase } else rd' }

def endReader (rd : ChunkReader) (i : Intake) : Intake := { i with readers := i.readers.erase rd }

end Intake

/-- What the CHUNK side of a connection does next. -/
inductive ChunkStep where
  /-- `Run` starts the accept loop. -/
  | start
  | pop
  /-- A slot of `chunkSem` is free. -/
  | acquire
  | refuse
  | endLoop
  /-- `Close` disposes of the streams that are still queued. -/
  | close
  /-- The header cannot be read, or the connection's context has ended. -/
  | fail (rd : ChunkReader) (code : Code)
  | route (rd : ChunkReader) (frame : ChunkHeader)
  | send (rd : ChunkReader)
  | giveUp (rd : ChunkReader)
  | recheck (rd : ChunkReader)

structure Node (S : Type) where
  sys : EngineSystem := {}
  /-- How many of the engine's sends have completed. -/
  sent : Nat := 0
  /-- The handles `addChannel` has been called for. -/
  added : List ChannelRef := []
  channels : ChannelRef → Channel S
  intake : ConnRef → Intake := fun _ => {}
  /-- The SESS readers that have an OPEN to send to a channel. -/
  opens : List (ConnRef × ChannelRef × SessOpen) := []
  given : List (ConnRef × InStream) := []
  cancelled : List (InStream × Code) := []
  read : List InStream := []
  refused : List (ConnRef × ChannelID × SessOpen) := []

inductive NodeOp (S : Type) where
  | engine (op : EngineOp)
  /-- The engine's next send completes. -/
  | deliver
  | enqueueStream (c : ConnRef) (s : InStream)
  | chunk (c : ConnRef) (st : ChunkStep)
  /-- A SESS reader has read the OPEN and looks up the channel. -/
  | sessOpen (c : ConnRef) (channel : ChannelID) (msg : SessOpen)
  | sessSend (c : ConnRef) (t : ChannelRef) (msg : SessOpen)
  | sessQuit (c : ConnRef) (t : ChannelRef) (msg : SessOpen)
  | channel (t : ChannelRef) (op : Channel.Op S)

/-- The operations that the engine actor itself performs. -/
def EngineOp.ofActor : EngineOp → Bool
  | .cancel _ | .runExit _ | .call _ _ | .next _ _ _ => false
  | _ => true

/-- The handle an operation brings to the engine. -/
def EngineOp.handles : EngineOp → List ChannelRef
  | .addChannel _ _ h => [h]
  | _ => []

namespace Node

variable {S C R P : Type} (sch : ChannelRef → Scheme S C R P) (luck : ChannelRef → Nat → Chance)
  (names : ChannelRef → ChannelID) (ids : ConnRef → PeerID)

variable (n : Node S)

/-- The engine actor is between two events. -/
def engineFree : Bool := n.sent == n.sys.engine.posted.length

/-- The connection's context has ended. -/
def connEnded (c : ConnRef) : Bool := (n.sys.engine.links c).all (·.ctxDone)

def onIntake (c : ConnRef) (f : Intake → Intake) (n : Node S) : Node S :=
  { n with intake := update n.intake c (f (n.intake c)) }

def onChannel (t : ChannelRef) (f : Channel S → Channel S) (n : Node S) : Node S :=
  { n with channels := update n.channels t (f (n.channels t)) }

theorem onIntake_self (c : ConnRef) (f : Intake → Intake) (n : Node S) :
    (n.onIntake c f).intake c = f (n.intake c) := update_self ..

theorem onIntake_of_ne {c k : ConnRef} (h : k ≠ c) (f : Intake → Intake) (n : Node S) :
    (n.onIntake c f).intake k = n.intake k := update_of_ne h ..

theorem onChannel_self (t : ChannelRef) (f : Channel S → Channel S) (n : Node S) :
    (n.onChannel t f).channels t = f (n.channels t) := update_self ..

theorem onChannel_of_ne {t t' : ChannelRef} (h : t' ≠ t) (f : Channel S → Channel S) (n : Node S) :
    (n.onChannel t f).channels t' = n.channels t' := update_of_ne h ..

/-- A goroutine of a connection calls `CancelRead`. -/
def cancelRead (s : InStream) (code : Code) (n : Node S) : Node S :=
  { n with cancelled := n.cancelled ++ [(s, code)] }

/-- `addChannel` is called once for each handle, with the channel's own ID; the IDs of connections are
theirs for good. -/
def allows : EngineOp → Bool
  | .addChannel _ id h => id == names h && !n.added.contains h
  | .peerUp _ _ id _ => id == ids n.sys.engine.nextConn
  | _ => true

def engine (op : EngineOp) (n : Node S) : Node S :=
  if n.allows names ids op && (!op.ofActor || n.engineFree) then
    { n with
      sys := n.sys.step op
      added := n.added ++ op.handles }
  else n

/-- The engine's send: the channel takes it, or its actor has exited; else the engine waits. -/
def deliver : Node S :=
  match n.sys.engine.posted.drop n.sent with
  | [] => n
  | (t, change) :: _ =>
    if (n.channels t).phase = .stopped then { n with sent := n.sent + 1 }
    else if (n.channels t).world.inbox.length < channelInboxCap then
      { n.onChannel t (·.post (.peerChange change)) with sent := n.sent + 1 }
    else n

def enqueueStream (c : ConnRef) (s : InStream) (n : Node S) : Node S :=
  if n.given.any (·.2 == s) || (n.sys.engine.links c).isNone || !n.engineFree then n
  else
    let n := { n with given := n.given ++ [(c, s)] }
    if n.connEnded c || (n.intake c).closed then n.cancelRead s .unspecified
    else n.onIntake c fun i => { i with queue := i.queue ++ [s] }

/-- The lookup of `processChunk` and what follows it. -/
def route (c : ConnRef) (rd : ChunkReader) (frame : ChunkHeader) (n : Node S) : Node S :=
  match n.sys.engine.links c, n.sys.engine.channelInboxFor c frame.channel with
  | some l, some t =>
    n.onIntake c (·.setReader rd (.routed t ⟨l.id, frame.objectId, frame.chunkId, frame.dataLength, rd.stream⟩))
  | _, _ => (n.cancelRead rd.stream .refused).onIntake c (·.endReader rd)

/-- A step of a goroutine of `processChunk`. -/
def readerStep (c : ConnRef) (st : ChunkStep) (rd : ChunkReader) (n : Node S) : Node S :=
  match rd.phase, st with
  | .header, .fail _ code => (n.cancelRead rd.stream code).onIntake c (·.endReader rd)
  | .header, .route _ frame => if n.connEnded c then n else n.route c rd frame
  | .routed t e, .send _ =>
    if (n.channels t).world.inbox.length < channelInboxCap then
      (n.onChannel t (·.post (.chunkStream e))).onIntake c (·.setReader rd (.sent t))
    else n
  | .routed t _, .giveUp _ =>
    if (n.channels t).world.ctxDone || n.connEnded c then
      (n.cancelRead rd.stream .unspecified).onIntake c (·.endReader rd)
    else n
  | .sent t, .recheck _ =>
    if (n.channels t).world.ctxDone then
      (n.cancelRead rd.stream .unspecified).onIntake c (·.endReader rd)
    else n.onIntake c (·.endReader rd)
  | _, _ => n

def chunk (c : ConnRef) (st : ChunkStep) (n : Node S) : Node S :=
  let i := n.intake c
  match st with
  | .start =>
    if (n.sys.engine.links c).any (fun l => l.handshakeDone && !l.ctxDone) && !i.closed then
      n.onIntake c fun i => { i with looping := true }
    else n
  | .pop =>
    match i.queue with
    | [] => n
    | s :: rest =>
      if i.looping && i.accepting.isNone && !n.connEnded c then
        n.onIntake c fun i => { i with queue := rest, accepting := some s }
      else n
  | .acquire =>
    match i.accepting with
    | none => n
    | some s =>
      if i.readers.length < maxInboundChunkStreams then
        n.onIntake c fun i => { i with accepting := none, readers := i.readers ++ [{ stream := s }] }
      else n
  | .refuse =>
    match i.accepting with
    | none => n
    | some s =>
      if n.connEnded c then
        (n.cancelRead s .unspecified).onIntake c fun i => { i with accepting := none }
      else n
  | .endLoop =>
    if i.looping && i.accepting.isNone && n.connEnded c then
      n.onIntake c fun i => { i with looping := false }
    else n
  | .close =>
    if n.connEnded c && !i.looping && i.accepting.isNone && i.readers.isEmpty then
      (i.queue.foldl (fun n s => n.cancelRead s .unspecified) n).onIntake c fun i =>
        { i with queue := [], closed := true }
    else n
  | .fail rd _ | .route rd _ | .send rd | .giveUp rd | .recheck rd =>
    if rd ∈ i.readers then n.readerStep c st rd else n

/-- The lookup of `runInboundSession`. -/
def sessOpen (c : ConnRef) (channel : ChannelID) (msg : SessOpen) (n : Node S) : Node S :=
  match n.sys.engine.channelInboxFor c channel with
  | none => { n with refused := n.refused ++ [(c, channel, msg)] }
  | some t => { n with opens := n.opens ++ [(c, t, msg)] }

def sessSend (c : ConnRef) (t : ChannelRef) (msg : SessOpen) (n : Node S) : Node S :=
  if (c, t, msg) ∈ n.opens ∧ (n.channels t).world.inbox.length < channelInboxCap then
    { n.onChannel t (·.post (.sessionOpen (ids c) msg)) with opens := n.opens.erase (c, t, msg) }
  else n

def sessQuit (c : ConnRef) (t : ChannelRef) (msg : SessOpen) (n : Node S) : Node S :=
  if (n.channels t).world.ctxDone || n.connEnded c then
    { n with opens := n.opens.erase (c, t, msg) }
  else n

/-- The events that reach a channel through the parts of the node above. -/
def routed : Event S → Bool
  | .chunkStream _ | .peerChange _ | .sessionOpen _ _ => true
  | _ => false

/-- The streams whose DATA frame a step reads to its end. -/
def reads (x : Channel S) : Channel.Op S → List InStream
  | .reader rd (.got payload) =>
    if rd ∈ x.world.readers ∧ rd.phase = .reading ∧ payload.length = rd.dataLen then [rd.stream] else []
  | _ => []

/-- The steps of a channel's own system that the node takes over. -/
def replaced : Channel.Op S → Bool
  | .post evt => routed evt
  | _ => false

/-- A step of the system of one channel. -/
def channel (t : ChannelRef) (op : Channel.Op S) (n : Node S) : Node S :=
  if replaced op then n
  else
    { n.onChannel t (·.step (sch t) (luck t) op) with read := n.read ++ reads (n.channels t) op }

/-- One step of the node. -/
def step : NodeOp S → Node S
  | .engine op => n.engine names ids op
  | .deliver => n.deliver
  | .enqueueStream c s => n.enqueueStream c s
  | .chunk c st => n.chunk c st
  | .sessOpen c channel msg => n.sessOpen c channel msg
  | .sessSend c t msg => n.sessSend ids c t msg
  | .sessQuit c t msg => n.sessQuit c t msg
  | .channel t op => n.channel sch luck t op

/-- No peer is known and no channel is registered; the actors of the channels run. -/
def init (subs : ChannelRef → Option Subscription) : Node S :=
  { channels := fun t => .init (names t) ids (subs t) }

end Node

end EthP2P.Broadcast
