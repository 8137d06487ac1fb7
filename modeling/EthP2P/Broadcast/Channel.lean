/-
# EthP2P.Broadcast.Channel — the channel actor and the goroutines around it

A `Channel` (`broadcast/channel.go`) is an actor: its sessions, members and parked chunks belong to one
goroutine, which takes one event after the other out of a bounded inbox.  Peers, the engine, timers and
the goroutines of the sessions put events in.

`Channel.step` is one step of the whole: the actor handles an event, or one of the goroutines around it
moves.  A handler is one step.  What other goroutines do meanwhile commutes with it, up to the choices the
oracle `luck` makes, and except for the wait at the end of a session: `wg.Wait` lets the session's readers
and its decoder finish before the actor goes on.  That wait is the condition `quiet` of the next event.

Left to the environment are the events of peers and of the engine: any of them may be posted at any time,
in any order, as long as a peer change names the connection's own ID.
-/
import EthP2P.Broadcast.Session

namespace EthP2P.Broadcast

open Lib Wire Scope

def channelInboxCap : Nat := 1024
def maxParkedChunks : Nat := 32
/-- Five minutes, in nanoseconds. -/
def activeSessionTTL : Nat := 5 * 60 * 1000000000

structure ParkedGroup where
  at_ : Nat
  streams : List ChunkStream

structure FullMessage where
  channelID : ChannelID
  messageID : MessageID
  data : Bytes
  deriving DecidableEq, Repr

/-- The subscriber's buffered channel. -/
structure Subscription where
  cap : Nat
  buffer : List FullMessage := []

/-- Where the actor is: in its loop, in `shutdown` after closing the sessions, or gone. -/
inductive ChannelPhase where
  | running
  | closing
  | stopped
  deriving DecidableEq, Repr

structure Channel (S : Type) where
  world : World S
  members : Map PeerID ConnRef := ∅
  sessions : Map MessageID (Session S) := ∅
  parked : Map MessageID ParkedGroup := ∅
  subCh : Option Subscription := none
  phase : ChannelPhase := .running

namespace Channel

variable {S C R P : Type} (sch : Scheme S C R P) (luck : Nat → Chance)

def onWorld (f : World S → World S) (x : Channel S) : Channel S := { x with world := f x.world }

def observe (o : Observation) (x : Channel S) : Channel S := x.onWorld (·.observe o)

/-- The session of `m` and the world as a method left them. -/
def put (x : Channel S) (m : MessageID) (y : Scope S) : Channel S :=
  { x with sessions := x.sessions.set m y.sess, world := y.world }

/-- `if sess := tr.sessions[m]; sess != nil { f(sess) }`. -/
def onSession (m : MessageID) (f : Scope S → Scope S) (x : Channel S) : Channel S :=
  match x.sessions.get m with
  | none => x
  | some sess => x.put m (f ⟨sess, x.world⟩)

def scheduleExpiry (deadline : Nat) (x : Channel S) : Channel S :=
  x.onWorld fun w => { w with timers := w.timers ++ [deadline] }

/-- A new session; `x.begin …` schedules its expiry. -/
def newSession (messageID : MessageID) (preamble : Bytes) (isOrigin : Bool) (strategy : S)
    (x : Channel S) : Session S :=
  { ref := x.world.fresh
    messageID := messageID
    preamble := preamble
    stage := if isOrigin then .origin else .consuming
    strategy := strategy
    createdAt := x.world.now }

/-- `tr.sessions[sess.messageID] = sess` for a new session. -/
def begin (sess : Session S) (x : Channel S) : Channel S :=
  let x := x.scheduleExpiry (sess.createdAt + activeSessionTTL)
  let w := x.world.updLife sess.ref fun l => { l with start := some sess.stage }
  x.put sess.messageID ⟨sess, { w with fresh := w.fresh + 1 }⟩

def deliverMessage (messageID : MessageID) (payload : Bytes) (x : Channel S) : Channel S :=
  let x := match x.subCh with
    | none => x
    | some sub =>
      if sub.buffer.length < sub.cap then
        let msg : FullMessage := ⟨x.world.channelID, messageID, payload⟩
        { x with subCh := some { sub with buffer := sub.buffer ++ [msg] } }
      else x
  x.observe (.sessionDecoded messageID)

/-! ## Disposal -/

/-- The code with which a session's streams end. -/
def disposeCode (stage : Stage) (reason : Reason) : Code :=
  if .decoding ≤ stage then .redundant
  else if reason = .ttlExpired then .refused
  else .unspecified

def cancelStreams (streams : List ChunkStream) (code : Code) (x : Channel S) : Channel S :=
  x.onWorld fun w => streams.foldl (fun w c => w.cancelRead c.stream code) w

/-- The chunks parked for a message are cancelled. -/
def dropGroup (messageID : MessageID) (code : Code) (x : Channel S) : Channel S :=
  match x.parked.get messageID with
  | some group => { x.cancelStreams group.streams code with parked := x.parked.del messageID }
  | none => x

def disposeSession (messageID : MessageID) (reason : Reason) (x : Channel S) : Channel S :=
  match x.sessions.get messageID with
  | none => x
  | some sess =>
    let code := disposeCode sess.stage reason
    let x := { x with sessions := x.sessions.del messageID }.dropGroup messageID code
    let y := (Scope.mk sess x.world).closeWithCode luck code
    { x with world :=
        (y.world.observe (.sessionDisposed messageID reason.text)).updLife sess.ref fun l =>
          { l with removed := some reason } }

def disposeIfIdle (messageID : MessageID) (x : Channel S) : Channel S :=
  match x.sessions.get messageID with
  | none => x
  | some sess => if sess.idle then x.disposeSession luck messageID .allPeersDone else x

/-! ## Handlers -/

def handleChunk (e : ChunkStream) (x : Channel S) : Channel S :=
  match x.sessions.get e.objectId with
  | some _ =>
    x.onSession e.objectId fun y =>
      (y.drainReads sch).handleChunkStream sch e.peerID e.chunkId e.dataLength e.stream
  | none =>
    match x.parked.get e.objectId with
    | some group =>
      if group.streams.length ≥ maxParkedChunks then
        x.onWorld (·.cancelRead e.stream .unspecified)
      else
        let group := { group with streams := group.streams ++ [e] }
        { x with parked := x.parked.set e.objectId group }
    | none =>
      let group : ParkedGroup := { at_ := x.world.now, streams := [e] }
      let x := { x with parked := x.parked.set e.objectId group }
      x.scheduleExpiry (x.world.now + activeSessionTTL)

/-- `for _, peer := range tr.members { sess.handlePeerAttached(peer) }`. -/
def attachMembers (messageID : MessageID) (x : Channel S) : Channel S :=
  (x.members.range (luck x.world.tick).peers).foldl
    (fun x pid => match x.members.get pid with
      | some c => x.onSession messageID (handlePeerAttached sch luck c)
      | none => x)
    (x.onWorld World.turn)

/-- The chunks that waited for the session are read. -/
def flushParked (messageID : MessageID) (x : Channel S) : Channel S :=
  match x.parked.get messageID with
  | none => x
  | some group =>
    let x := group.streams.foldl (fun x c => x.onSession messageID
      (handleChunkStream sch c.peerID c.chunkId c.dataLength c.stream)) x
    { x with parked := x.parked.del messageID }

def createRelaySession (messageID : MessageID) (preambleBytes : Bytes) (initialPeer : PeerID)
    (initialRouting : Bytes) (x : Channel S) : Except ProcessError (Channel S) :=
  match sch.preamble.unmarshal preambleBytes with
  | none => .error .unmarshalPreamble
  | some p =>
    match sch.newRelay (luck x.world.tick).seed p with
    | none => .error .newRelay
    | some strat =>
      let x := x.onWorld World.turn
      let x := x.begin (x.newSession messageID preambleBytes false strat)
      let x := x.attachMembers sch luck messageID
      let x := if initialRouting.isEmpty then x
        else x.onSession messageID (handleRoutingUpdate sch luck initialPeer initialRouting)
      let x := x.flushParked sch messageID
      .ok (x.observe (.sessionStarted messageID false))

def handleSessionOpen (peerID : PeerID) (msg : SessOpen) (x : Channel S) : Channel S :=
  match x.sessions.get msg.objectId with
  | some _ =>
    if msg.initialUpdate.isEmpty then x
    else x.onSession msg.objectId (handleRoutingUpdate sch luck peerID msg.initialUpdate)
  | none =>
    match x.createRelaySession sch luck msg.objectId msg.preamble peerID msg.initialUpdate with
    | .ok x => x
    | .error err => x.observe (.chunkError (some peerID) msg.objectId err)

/-- `for _, sess := range tr.sessions { body }`. -/
def forSessions (body : MessageID → Channel S → Channel S) (x : Channel S) : Channel S :=
  (x.sessions.range (luck x.world.tick).messages).foldl (fun x m => body m x) (x.onWorld World.turn)

def handlePeerBound (peerID : PeerID) (c : ConnRef) (x : Channel S) : Channel S :=
  if x.members.get peerID = some c then x
  else
    let x := { x with members := x.members.set peerID c }
    x.forSessions luck fun m x => x.onSession m (handlePeerAttached sch luck c)

/-- The peer leaves one session, which is disposed if that leaves nothing to do. -/
def leave (messageID : MessageID) (peerID : PeerID) (x : Channel S) : Channel S :=
  (x.onSession messageID (Scope.handlePeerDropped sch peerID)).disposeIfIdle luck messageID

/-- `for m, group := range tr.parked { body }`. -/
def forParked (body : MessageID → ParkedGroup → Channel S → Channel S) (x : Channel S) : Channel S :=
  (x.parked.range (luck x.world.tick).messages).foldl
    (fun x m => ((x.parked.get m).map fun group => body m group x).getD x)
    (x.onWorld World.turn)

/-- Parked chunks of `peerID` are refused, and groups that held no others are gone. -/
def dropParked (peerID : PeerID) (x : Channel S) : Channel S :=
  x.forParked luck fun m group x =>
    let x := x.cancelStreams (group.streams.filter (·.peerID == peerID)) .unspecified
    let kept := group.streams.filter (·.peerID != peerID)
    if kept.isEmpty then { x with parked := x.parked.del m }
    else { x with parked := x.parked.set m { group with streams := kept } }

def handlePeerUnbound (peerID : PeerID) (x : Channel S) : Channel S :=
  let x := { x with members := x.members.del peerID }
  (x.dropParked luck peerID).forSessions luck fun m x => x.leave sch luck m peerID

def handlePublish (messageID : MessageID) (strategy : S) (preambleData : Bytes) (x : Channel S) : Channel S :=
  let x := x.disposeSession luck messageID .replaced
  let x := x.begin (x.newSession messageID preambleData true strategy)
  let x := x.attachMembers sch luck messageID
  let x := x.onSession messageID (Scope.drainPolls sch luck)
  x.observe (.sessionStarted messageID true)

def expireSession (m : MessageID) (x : Channel S) : Channel S :=
  match x.sessions.get m with
  | none => x
  | some sess =>
    if x.world.now - sess.createdAt ≥ activeSessionTTL then x.disposeSession luck m .ttlExpired
    else x

def expireParked (x : Channel S) : Channel S :=
  x.forParked luck fun m group x =>
    if x.world.now - group.at_ ≥ activeSessionTTL then
      { x.cancelStreams group.streams .refused with parked := x.parked.del m }
    else x

def expireDue (x : Channel S) : Channel S :=
  (x.forSessions luck (expireSession luck)).expireParked luck

/-- The session takes the result of a successful decode. -/
def reconstruct (messageID : MessageID) (payload : Bytes) (sess : Session S) (x : Channel S) : Channel S :=
  let x := x.deliverMessage messageID payload
  let w := x.world.updLife sess.ref fun l =>
    { l with
      moves := l.moves ++ [(sess.stage, .reconstructed)]
      delivered := l.delivered ++ [payload] }
  (x.put messageID ⟨{ sess with stage := .reconstructed }, w⟩).disposeIfIdle luck messageID

/-- The session of the message, whichever it is by now, takes the result. -/
def takeResult (messageID : MessageID) (payload : Option Bytes) (x : Channel S) : Channel S :=
  match x.sessions.get messageID with
  | none => x
  | some sess =>
    if sess.stage < .reconstructed then
      match payload with
      | none => x.observe (.chunkError none messageID .decode)
      | some payload => x.reconstruct luck messageID payload sess
    else x

def handleDecoded (messageID : MessageID) (payload : Option Bytes) (sender : SessionRef)
    (x : Channel S) : Channel S :=
  let x := x.onWorld fun w => w.updLife sender fun l => { l with handled := true }
  x.takeResult luck messageID payload

def handle (evt : Event S) (x : Channel S) : Channel S :=
  match evt with
  | .expiry => x.expireDue luck
  | .readDone m => x.onSession m (drainReads sch)
  | .chunkStream e => x.handleChunk sch e
  | .chunkData m peerID chunkID payload =>
    x.onSession m (handleChunkData sch luck peerID chunkID payload)
  | .sessionOpen peerID msg => x.handleSessionOpen sch luck peerID msg
  | .peerChange e =>
    match e.peerRef with
    | some c => x.handlePeerBound sch luck e.peerID c
    | none => x.handlePeerUnbound sch luck e.peerID
  | .publish m strategy preambleData => x.handlePublish sch luck m strategy preambleData
  | .chunkSent m peerID handle err size sender =>
    x.onSession m (Scope.handleSendComplete sch luck peerID handle err size sender.2)
  | .routingUpdate peerID m data =>
    x.onSession m (handleRoutingUpdate sch luck peerID data)
  | .peerReconstructed m peerID =>
    (x.onSession m (Scope.handlePeerCompleted sch peerID)).disposeIfIdle luck m
  | .peerSessionEnded m peerID peer =>
    -- a stale event of a replaced connection is ignored
    if x.members.get peerID ≠ some peer then x else x.leave sch luck m peerID
  | .verifyResult m peerID chunkID payload verdict =>
    x.onSession m (Scope.handleVerifyResult sch luck peerID chunkID payload verdict)
  | .decoded m payload sender => x.handleDecoded luck m payload sender

/-! ## The loop and its end -/

/-- The goroutines of closed sessions have ended: `wg.Wait` has returned. -/
def quiet (x : Channel S) : Bool :=
  x.world.readers.all (fun rd => (x.world.sessDone.get rd.session).isNone) &&
    x.world.decoders.all (fun d => (x.world.sessDone.get d.session).isNone)

/-- One round of `run`: the oldest event is handled. -/
def next (x : Channel S) : Channel S :=
  match x.world.inbox with
  | [] => x
  | evt :: rest =>
    if x.phase = .running && x.quiet then
      (x.onWorld fun w => { w with inbox := rest }).handle sch luck evt
    else x

/-- The first part of `shutdown`, once `run` has seen that the context ended. -/
def closeAll (x : Channel S) : Channel S :=
  if x.phase = .running && x.quiet && x.world.ctxDone then
    let x := x.forSessions luck fun m x => x.onSession m (Close luck)
    let x := x.forParked luck fun _ group x => x.cancelStreams group.streams .unspecified
    { x with phase := .closing }
  else x

/-- The rest of `shutdown`: the inbox is drained and the subscriber's channel closed. -/
def finish (x : Channel S) : Channel S :=
  if x.phase = .closing && x.quiet then
    let streams := x.world.inbox.filterMap fun e => match e with
      | .chunkStream c => some c
      | _ => none
    let x := (x.cancelStreams streams .unspecified).onWorld fun w => { w with inbox := [] }
    { x with phase := .stopped }
  else x

/-! ## The goroutines around the actor -/

/-- A send on the inbox; the sender waits while it is full. -/
def post (evt : Event S) (x : Channel S) : Channel S :=
  if x.world.inbox.length < channelInboxCap then
    x.onWorld fun w => { w with inbox := w.inbox ++ [evt] }
  else x

/-- The events of peers, of the engine and of the strategies' verification workers. -/
def external (x : Channel S) : Event S → Bool
  | .chunkStream _ | .sessionOpen _ _ | .routingUpdate _ _ _ | .peerReconstructed _ _
  | .peerSessionEnded _ _ _ | .verifyResult _ _ _ _ _ => true
  | .peerChange e => e.peerRef.all fun c => (x.world.conns c).id == e.peerID
  | .expiry | .readDone _ | .chunkData _ _ _ _ | .publish _ _ _ | .chunkSent _ _ _ _ _ _
  | .decoded _ _ _ => false

/-- `Publish`: the encoding runs on the caller's goroutine. -/
def publish (messageID : MessageID) (payload : Bytes) (x : Channel S) : Channel S :=
  match sch.newOrigin payload with
  | none => x
  | some (strat, preamble) =>
    match sch.preamble.marshal preamble with
    | none => x
    | some preambleBytes => x.post (.publish messageID strat preambleBytes)

/-- A timer fires. -/
def fire (deadline : Nat) (x : Channel S) : Channel S :=
  if deadline ∈ x.world.timers ∧ deadline ≤ x.world.now ∧
      x.world.inbox.length < channelInboxCap then
    (x.post .expiry).onWorld fun w => { w with timers := w.timers.erase deadline }
  else x

/-- The decoder of a session hands its result to the channel. -/
def decodePost (d : Decoder) (x : Channel S) : Channel S :=
  if d ∈ x.world.decoders ∧ x.world.inbox.length < channelInboxCap then
    (x.post (.decoded d.messageID d.result d.session)).onWorld fun w =>
      { w with decoders := w.decoders.erase d }
  else x

/-- The decoder gives up because its session's context has ended. -/
def decodeQuit (d : Decoder) (x : Channel S) : Channel S :=
  if d ∈ x.world.decoders ∧ x.world.ended d.session then
    x.onWorld fun w => { w with decoders := w.decoders.erase d }
  else x

/-- What a reader goroutine does next. -/
inductive ReaderStep where
  /-- The payload has arrived. -/
  | got (payload : Bytes)
  /-- The read failed, or its context ended; the stream is cancelled with the code of the error. -/
  | failed (code : Code)
  /-- The payload goes to the channel. -/
  | hand
  /-- The read's context ended before the channel took the payload. -/
  | drop
  | release
  | announce
  /-- The session's context ended before the channel took the notice. -/
  | quit
  deriving DecidableEq, Repr

/-- The context of a read has ended. -/
def readEnded (w : World S) (rd : Reader) : Bool :=
  w.ended rd.session || rd.group.any fun g => (w.cancelled.get g).isSome

/-- The reader goes on in another phase. -/
def setReader (rd : Reader) (phase : ReaderPhase) (x : Channel S) : Channel S :=
  x.onWorld fun w => { w with
    readers := w.readers.map fun rd' => if rd' = rd then { rd with phase := phase } else rd' }

def endReader (rd : Reader) (x : Channel S) : Channel S :=
  x.onWorld fun w => { w with readers := w.readers.erase rd }

def readerStep (rd : Reader) (step : ReaderStep) (x : Channel S) : Channel S :=
  if rd ∈ x.world.readers then
    match rd.phase, step with
    | .reading, .got payload =>
      if h : payload.length = rd.dataLen then x.setReader rd (.read ⟨payload, h ▸ rd.admitted⟩) else x
    | .reading, .failed code =>
      (x.onWorld (·.cancelRead rd.stream code)).setReader rd .closing
    | .read payload, .hand =>
      if x.world.inbox.length < channelInboxCap then
        (x.post (.chunkData rd.messageID rd.peer rd.chunkID payload)).setReader rd .closing
      else x
    | .read _, .drop => if readEnded x.world rd then x.setReader rd .closing else x
    | .closing, .release => x.setReader rd .released
    | .released, .announce =>
      if x.world.inbox.length < channelInboxCap then
        (x.post (.readDone rd.messageID)).endReader rd
      else x
    | .released, .quit => if x.world.ended rd.session then x.endReader rd else x
    | _, _ => x
  else x

/-- The data loop of `c` visits the next slot: it takes the oldest chunk of its outbox, if there is
one. -/
def dataLook (c : ConnRef) (w : World S) : World S :=
  match (w.conns c).data with
  | .scanning [] => w.updConn c fun conn => { conn with data := .waiting }
  | .scanning (k :: ks) =>
    let here : Queued → Bool := fun q =>
      q.conn == c && (w.conns c).slots.get k == some q.outbox
    match w.queued.find? here with
    | none => w.updConn c fun conn => { conn with data := .scanning ks }
    | some q =>
      ({ w with
        queued := w.queued.eraseP here
        hands := w.hands ++ [{ conn := c, chunk := q.chunk }] } : World S).updConn c
          fun conn => { conn with data := .sending }
  | _ => w

/-- The context of a send has ended. -/
def sendEnded (w : World S) (chunk : PeerSendChunk) : Bool :=
  w.ended chunk.session || (w.cancelled.get chunk.ctx).isSome

/-- `doSendChunk`: a cancelled chunk is not written; a write succeeds or fails. -/
def dataSend (c : ConnRef) (ok : Bool) (w : World S) : World S :=
  { w with hands := w.hands.map fun h =>
      if h.conn = c ∧ h.outcome = none then
        { h with outcome := some (if sendEnded w h.chunk then some .cancelled
            else if ok then none else some .writeFail) }
      else h }

/-- The hand of the data loop is empty again. -/
def dataDone (h : Hand) (w : World S) : World S :=
  ({ w with hands := w.hands.erase h } : World S).updConn h.conn fun conn => { conn with data := .draining }

/-- The result of a send goes to the channel. -/
def dataPost (c : ConnRef) (x : Channel S) : Channel S :=
  match x.world.hands.find? (·.conn == c) with
  | none => x
  | some h =>
    match h.outcome with
    | none => x
    | some err =>
      if x.world.inbox.length < channelInboxCap then
        let size := if err.isNone then h.chunk.payload.length else 0
        (x.post (.chunkSent h.chunk.messageID h.chunk.peerID h.chunk.handle err size
          (h.chunk.session, h.chunk.ctx))).onWorld (dataDone h)
      else x

/-- The result of a send is dropped, because the session or the connection has ended. -/
def dataQuit (c : ConnRef) (x : Channel S) : Channel S :=
  match x.world.hands.find? (·.conn == c) with
  | none => x
  | some h =>
    if h.outcome.isSome && (x.world.ended h.chunk.session || (x.world.conns c).ctxDone) then
      x.onWorld (dataDone h)
    else x

/-- What a connection does next. -/
inductive ConnStep where
  | ctrlNext (o₁ o₂ : Order ChannelID) (f : Faults)
  | ctrlWake
  | ctrlPush
  | ctrlAbandon
  | dataApply
  | dataScan (o : Order SessionKey)
  | dataWake
  | dataStop
  | cancel
  | stop
  | announce (id : ChannelID) (present : Bool)

def ConnStep.run : ConnStep → Conn → Conn
  | .ctrlNext o₁ o₂ f, c => c.ctrlNext o₁ o₂ f
  | .ctrlWake, c => c.ctrlWake
  | .ctrlPush, c => c.ctrlPush
  | .ctrlAbandon, c => c.ctrlAbandon
  | .dataApply, c => c.dataApply
  | .dataScan o, c => c.dataScan o
  | .dataWake, c => c.dataWake
  | .dataStop, c => c.dataStop
  | .cancel, c => c.cancel
  | .stop, c => c.stop
  | .announce id present, c => c.announce id present

/-- A session of another channel calls the control state of a connection it shares with ours. -/
def foreignCall (c : ConnRef) (call : CtrlOutState.SessionCall) (w : World S) : World S :=
  match call with
  | .openSession e =>
    if e.channelID = w.channelID then w
    else
      { w.request c (.openSession { e with chunkOutbox := w.fresh }) with fresh := w.fresh + 1 }
  | .closeSession key | .closeSessionStream key =>
    if key.channelID = w.channelID then w else w.request c call
  | .setRouting e => if e.channelID = w.channelID then w else w.request c call

/-! ## The system -/

inductive Op (S : Type) where
  /-- The actor. -/
  | next
  | closeAll
  | finish
  /-- Its environment. -/
  | post (evt : Event S)
  | publish (messageID : MessageID) (payload : Bytes)
  | stop
  | tick (elapsed : Nat)
  | fire (deadline : Nat)
  | receive
  /-- The sessions' goroutines. -/
  | decodePost (d : Decoder)
  | decodeQuit (d : Decoder)
  | reader (rd : Reader) (step : ReaderStep)
  /-- The connections. -/
  | conn (c : ConnRef) (step : ConnStep)
  | foreign (c : ConnRef) (call : CtrlOutState.SessionCall)
  | dataLook (c : ConnRef)
  | dataSend (c : ConnRef) (ok : Bool)
  | dataPost (c : ConnRef)
  | dataQuit (c : ConnRef)

/-- One step of the channel and its surroundings. -/
def step (x : Channel S) : Op S → Channel S
  | .next => x.next sch luck
  | .closeAll => x.closeAll luck
  | .finish => x.finish
  | .post evt => if x.external evt then x.post evt else x
  | .publish m payload => x.publish sch m payload
  | .stop => x.onWorld fun w => { w with ctxDone := true }
  | .tick elapsed => x.onWorld fun w => { w with now := w.now + elapsed }
  | .fire deadline => x.fire deadline
  | .receive =>
    { x with subCh := x.subCh.map fun sub => { sub with buffer := sub.buffer.tail } }
  | .decodePost d => x.decodePost d
  | .decodeQuit d => x.decodeQuit d
  | .reader rd st => x.readerStep rd st
  | .conn c st => x.onWorld (·.updConn c st.run)
  | .foreign c call => x.onWorld (foreignCall c call)
  | .dataLook c => x.onWorld (dataLook c)
  | .dataSend c ok => x.onWorld (dataSend c ok)
  | .dataPost c => x.dataPost c
  | .dataQuit c => x.dataQuit c

/-- A channel just attached, among connections with these peer IDs. -/
def init (channelID : ChannelID) (ids : ConnRef → PeerID) (sub : Option Subscription) : Channel S :=
  { world := { channelID := channelID, conns := fun c => { id := ids c } }, subCh := sub }

end Channel

end EthP2P.Broadcast
