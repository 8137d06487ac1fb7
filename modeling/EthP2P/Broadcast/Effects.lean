/-
# EthP2P.Broadcast.Effects — what the methods of a session can do

Most of what a session does leaves its standing alone: its stage, its peers, its place among the sessions
(`Stays`), and mostly its reads too (`Quiet`).  The methods that change the standing do it with one of the named parts `join`, `startDecode`,
`handlePeerDropped`, `handlePeerCompleted` and `closeWithCode`, and for each of these one lemma says what it
does.

With that no later proof looks into a method.
-/
import Mathlib.Logic.Relation
import EthP2P.Lib.Loops
import EthP2P.Broadcast.Session

namespace EthP2P.Broadcast

open Lib Wire World Nat

variable {S C R P : Type}

/-- What is left of a session without its bookkeeping of reads and cancellations. -/
def Session.core (s : Session S) : Session S :=
  { s with outboundCancels := ∅, readQueue := [], dedupGroups := ∅ }

/-- What is left of the world without readers, contexts below sessions, timers and observations. -/
def World.core (w : World S) : World S :=
  { w with
    readers := [], cancelled := ∅, cancelReads := [], observed := [], timers := [], fresh := 0
    tick := 0 }

/-- Only bookkeeping changes. -/
structure Background (x y : Scope S) : Prop where
  sess : y.sess.core = x.sess.core
  world : y.world.core = x.world.core
  fresh : x.world.fresh ≤ y.world.fresh

namespace Background

theorem refl (x : Scope S) : Background x x := ⟨rfl, rfl, le_rfl⟩

theorem trans {x y z : Scope S} (h : Background x y) (h' : Background y z) : Background x z :=
  ⟨h'.sess.trans h.sess, h'.world.trans h.world, le_trans h.fresh h'.fresh⟩

end Background

/-- The reads of a session: those that wait, and the readers and cancelled streams of the world. -/
def Scope.reads (x : Scope S) : List PendingChunkRead × List Reader × List (InStream × Code) :=
  (x.sess.readQueue, x.world.readers, x.world.cancelReads)

/-- Only bookkeeping changes, and not that of the reads. -/
structure Books (x y : Scope S) : Prop extends Background x y where
  reads : y.reads = x.reads

namespace Books

theorem refl (x : Scope S) : Books x x := ⟨.refl x, rfl⟩

theorem trans {x y z : Scope S} (h : Books x y) (h' : Books y z) : Books x z :=
  ⟨h.toBackground.trans h'.toBackground, h'.reads.trans h.reads⟩

theorem foldl {A : Type*} {f : Scope S → A → Scope S} (hf : ∀ x a, Books x (f x a))
    (l : List A) (x : Scope S) : Books x (l.foldl f x) :=
  foldl_rel (r := Books) refl trans hf l x

end Books

theorem World.core_cancelReads {A : Type*} (f : A → InStream × Code) (l : List A) (w : World S) :
    (l.foldl (fun w a => w.cancelRead (f a).1 (f a).2) w).core = w.core ∧
      (l.foldl (fun w a => w.cancelRead (f a).1 (f a).2) w).fresh = w.fresh := by
  induction l generalizing w with
  | nil => exact ⟨rfl, rfl⟩
  | cons a l ih => exact ih (w.cancelRead (f a).1 (f a).2)

/-! ## The standing of a session -/

/-- The world without what a session may touch: outboxes, dispatches, control states. -/
def World.still (w : World S) : World S :=
  { w.core with queued := [], sends := fun _ => {}, conns := fun _ => { id := "" } }

/-- The standing of a session, and of the world around it. -/
structure Stays (x y : Scope S) : Prop where
  ref : y.sess.ref = x.sess.ref
  messageID : y.sess.messageID = x.sess.messageID
  stage : y.sess.stage = x.sess.stage
  everHadPeers : y.sess.everHadPeers = x.sess.everHadPeers
  peers : y.sess.peers = x.sess.peers
  world : y.world.still = x.world.still
  fresh : x.world.fresh ≤ y.world.fresh
  id : ∀ c, (y.world.conns c).id = (x.world.conns c).id
  ctxDone : ∀ c, (y.world.conns c).ctxDone = (x.world.conns c).ctxDone

namespace Stays

variable {x y z : Scope S}

theorem refl (x : Scope S) : Stays x x :=
  ⟨rfl, rfl, rfl, rfl, rfl, rfl, le_refl _, fun _ => rfl, fun _ => rfl⟩

theorem trans (h : Stays x y) (h' : Stays y z) : Stays x z :=
  ⟨h'.ref.trans h.ref, h'.messageID.trans h.messageID, h'.stage.trans h.stage,
    h'.everHadPeers.trans h.everHadPeers, h'.peers.trans h.peers, h'.world.trans h.world,
    le_trans h.fresh h'.fresh, fun c => (h'.id c).trans (h.id c),
    fun c => (h'.ctxDone c).trans (h.ctxDone c)⟩

theorem of_background (h : Background x y) : Stays x y := by
  obtain ⟨hsess, hworld, hfresh⟩ := h
  have hconns : y.world.conns = x.world.conns := by
    have hcore := congrArg conns hworld
    exact hcore
  refine ⟨?_, ?_, ?_, ?_, ?_, ?_, hfresh, fun c => by rw [hconns], fun c => by rw [hconns]⟩
  · have hcore := congrArg Session.ref hsess
    exact hcore
  · have hcore := congrArg Session.messageID hsess
    exact hcore
  · have hcore := congrArg Session.stage hsess
    exact hcore
  · have hcore := congrArg Session.everHadPeers hsess
    exact hcore
  · have hcore := congrArg Session.peers hsess
    exact hcore
  · unfold still
    rw [hworld]

/-- One connection changes, but neither whose it is nor whether it lives. -/
theorem of_conn {c : ConnRef} {f : Conn → Conn} (sess : Session S) (w : World S)
    (hid : (f (w.conns c)).id = (w.conns c).id) (hdone : (f (w.conns c)).ctxDone = (w.conns c).ctxDone) :
    Stays ⟨sess, w⟩ ⟨sess, w.updConn c f⟩ := by
  have hconns : ∀ k, (w.updConn c f).conns k = if k = c then f (w.conns c) else w.conns k := by
    intro k
    simp [updConn, Function.update_apply]
  refine ⟨rfl, rfl, rfl, rfl, rfl, rfl, le_refl _, fun k => ?_, fun k => ?_⟩
  · show ((w.updConn c f).conns k).id = _
    rw [hconns]
    split
    · rename_i hk
      rw [hk, hid]
    · rfl
  show ((w.updConn c f).conns k).ctxDone = _
  rw [hconns]
  split
  · rename_i hk
    rw [hk, hdone]
  · rfl

end Stays

/-- The standing of a session and its reads are as they were. -/
structure Quiet (x y : Scope S) : Prop extends Stays x y where
  reads : y.reads = x.reads

namespace Quiet

variable {x y z : Scope S}

theorem refl (x : Scope S) : Quiet x x := ⟨.refl x, rfl⟩

theorem trans (h : Quiet x y) (h' : Quiet y z) : Quiet x z :=
  ⟨h.toStays.trans h'.toStays, h'.reads.trans h.reads⟩

theorem of_books (h : Books x y) : Quiet x y := ⟨.of_background h.toBackground, h.reads⟩

theorem foldl {A : Type*} {f : Scope S → A → Scope S} (hf : ∀ x a, Quiet x (f x a)) (l : List A)
    (x : Scope S) : Quiet x (l.foldl f x) :=
  foldl_rel (r := Quiet) refl trans hf l x

/-- A call to the control state of one connection. -/
theorem request (sess : Session S) (w : World S) (c : ConnRef) (call : CtrlOutState.SessionCall) :
    Quiet ⟨sess, w⟩ ⟨sess, w.request c call⟩ := ⟨.of_conn sess w rfl rfl, rfl⟩

end Quiet

/-! ## The methods -/

namespace Scope

variable (sch : Scheme S C R P) (luck : Nat → Chance)

theorem books_observe (o : Observation) (x : Scope S) : Books x (x.observe o) := ⟨⟨rfl, rfl, le_refl _⟩, rfl⟩

theorem books_observeIf (b : Bool) (o : Observation) (x : Scope S) : Books x (x.observeIf b o) := by
  unfold observeIf
  split
  · exact books_observe o x
  · exact .refl x

@[simp] theorem observeIf_sess (b : Bool) (o : Observation) (x : Scope S) : (x.observeIf b o).sess = x.sess := by
  unfold observeIf
  split <;> rfl

variable (x : Scope S)

theorem books_turn : Books x (x.onWorld turn) := ⟨⟨rfl, rfl, le_refl _⟩, rfl⟩

theorem background_refuse (o : Observation) (stream : InStream) (code : Code) (x : Scope S) :
    Background x ((x.observe o).onWorld (·.cancelRead stream code)) :=
  ⟨rfl, rfl, le_refl _⟩

theorem books_cancelSend (k : PeerID × ChunkHandle) : Books x (x.cancelSend k) := by
  unfold cancelSend cancelCtx
  split
  · exact .refl x
  · dsimp only
    split <;> exact ⟨⟨rfl, rfl, le_refl _⟩, rfl⟩

variable (peer : PeerID)

theorem books_cancelOutbound (x : Scope S) : Books x (x.cancelOutbound peer) :=
  .foldl books_cancelSend _ x

/-! ### Sending -/

/-- A loop over the peers leaves the session alone if its body does. -/
theorem quiet_forPeers {body : PeerID → SessionPeer → World S → World S}
    (hbody : ∀ pid sp w, Quiet ⟨x.sess, w⟩ ⟨x.sess, body pid sp w⟩) : Quiet x (x.forPeers luck body) := by
  refine (Quiet.of_books (books_turn x)).trans (foldl_rel
    (r := fun w w' => Quiet ⟨x.sess, w⟩ ⟨x.sess, w'⟩) (fun _ => .refl _) (fun h h' => h.trans h')
    (fun w pid => ?_) _ x.world.turn)
  split
  · exact hbody pid _ w
  · exact .refl _

theorem quiet_broadcastRouting (update : R) (x : Scope S) : Quiet x (x.broadcastRouting sch luck update) := by
  unfold broadcastRouting
  split
  · exact .refl x
  apply quiet_forPeers
  intro pid sp w
  unfold routeTo
  split
  · exact .refl _
  split
  · exact (Quiet.request x.sess w _ _).trans (.of_books (books_observe _ ⟨x.sess, _⟩))
  · exact .request x.sess w _ _

theorem quiet_setStrategy (s : S) (x : Scope S) : Quiet x (x.setStrategy s) :=
  ⟨⟨rfl, rfl, rfl, rfl, rfl, rfl, le_refl _, fun _ => rfl, fun _ => rfl⟩, rfl⟩

theorem quiet_report (d : CtxRef) (peer : PeerID) (handle : ChunkHandle) (err : Option SendError)
    (x : Scope S) : Quiet x (x.report sch d peer handle err) :=
  ⟨⟨rfl, rfl, rfl, rfl, rfl, rfl, le_refl _, fun _ => rfl, fun _ => rfl⟩, rfl⟩

theorem quiet_enqueue (d : CtxRef) (sp : SessionPeer) (chunk : PeerSendChunk) (x : Scope S) :
    Quiet x (x.enqueue d sp chunk) := by
  have hplace : Stays x ⟨{ x.sess with
        outboundCancels := x.sess.outboundCancels.set (chunk.peerID, chunk.handle) d },
      { x.world with queued := x.world.queued ++ [⟨sp.conn, sp.chunkOutbox, chunk⟩] }⟩ :=
    ⟨rfl, rfl, rfl, rfl, rfl, rfl, le_refl _, fun _ => rfl, fun _ => rfl⟩
  exact ⟨hplace.trans (.of_conn _ _ rfl rfl), rfl⟩

/-- A dispatch is reported at once, or goes into an outbox. -/
theorem quiet_sendChunk (c : ChunkDispatch C) : Quiet x (x.sendChunk sch luck c) := by
  have hdispatch : Quiet x (x.dispatch.onWorld turn) :=
    ⟨⟨rfl, rfl, rfl, rfl, rfl, rfl, le_succ _, fun _ => rfl, fun _ => rfl⟩, rfl⟩
  refine hdispatch.trans ?_
  unfold sendChunk offer
  split
  · exact quiet_report sch _ _ _ _ _
  split
  · exact quiet_report sch _ _ _ _ _
  split
  · exact quiet_enqueue _ _ _ _
  · exact quiet_report sch _ _ _ _ _

theorem quiet_emitRouting : Quiet x (x.emitRouting sch luck) := by
  unfold emitRouting
  split
  · exact (quiet_setStrategy _ x).trans (quiet_broadcastRouting sch luck _ _)
  · exact quiet_setStrategy _ x

theorem quiet_emitChunks : Quiet x (x.emitChunks sch luck) :=
  ((quiet_setStrategy _ x).trans (.of_books (books_turn _))).trans (.foldl (quiet_sendChunk sch luck) _ _)

/-- A poll is quiet. -/
theorem quiet_drainPolls : Quiet x (x.drainPolls sch luck) :=
  (quiet_emitRouting sch luck x).trans (quiet_emitChunks sch luck _)

theorem books_applyRouting (update : R) (x : Scope S) :
    Books (x.setStrategy (sch.methods.routingUpdate x.sess.strategy peer update).1)
      (x.applyRouting sch peer update) :=
  ((books_observeIf _ _ _).trans (books_observe _ _)).trans (.foldl books_cancelSend _ _)

theorem quiet_handleRoutingUpdate (data : Bytes) (x : Scope S) :
    Quiet x (x.handleRoutingUpdate sch luck peer data) := by
  unfold handleRoutingUpdate
  split
  · exact .of_books (books_observe _ x)
  rename_i update _
  exact ((quiet_setStrategy _ x).trans (.of_books (books_applyRouting sch peer update x))).trans
    (quiet_drainPolls sch luck _)

/-! ### Receiving -/

variable (dedupKey : Option Bytes)

theorem books_readGroup (x : Scope S) : Books x (x.readGroup dedupKey).2 := by
  unfold readGroup
  split
  · exact .refl x
  split
  · exact .refl x
  · exact ⟨⟨rfl, rfl, le_succ _⟩, rfl⟩

/-- The stream is refused, read or left waiting. -/
theorem background_handleChunkStream (chunkID : Bytes) (dataLen : Nat) (stream : InStream) (x : Scope S) :
    Background x (x.handleChunkStream sch peer chunkID dataLen stream) := by
  unfold handleChunkStream
  split
  · exact background_refuse _ _ _ x
  rename_i chunk _
  split
  · exact background_refuse _ _ _ x
  split
  · exact background_refuse _ _ _ x
  split
  · exact (books_readGroup _ x).toBackground.trans ⟨rfl, rfl, le_succ _⟩
  · exact ⟨rfl, rfl, le_refl _⟩

theorem background_drainReadsLoop (fuel : Nat) (x : Scope S) : Background x (x.drainReadsLoop sch fuel) := by
  induction fuel generalizing x with
  | zero => exact .refl x
  | succ fuel ih =>
    unfold drainReadsLoop
    split
    · exact .refl x
    split
    · rename_i pending rest _ _
      have hpop : Background x { x with sess := { x.sess with readQueue := rest } } :=
        ⟨rfl, rfl, le_refl _⟩
      exact (hpop.trans (background_handleChunkStream sch _ _ _ _ _)).trans (ih _)
    · exact .refl x

theorem background_drainReads : Background x (x.drainReads sch) :=
  background_drainReadsLoop sch _ x

theorem books_cancelGroup (x : Scope S) : Books x (x.cancelGroup dedupKey) := by
  unfold cancelGroup cancelCtx
  split
  · exact .refl x
  split
  · exact .refl x
  · dsimp only
    split <;> exact ⟨⟨rfl, rfl, le_refl _⟩, rfl⟩

theorem books_takeChunk (chunk : C) (payload : Bytes) (x : Scope S) :
    Books (x.setStrategy (sch.methods.takeChunk x.sess.strategy peer chunk payload).state)
      (x.takeChunk sch peer chunk payload) := by
  unfold takeChunk
  refine Books.trans ?_ (books_observeIf _ _ _)
  refine Books.trans ?_ (books_observe _ _)
  refine Books.trans ?_ (books_observeIf _ _ _)
  split
  · exact books_cancelGroup _ _
  · exact .refl _

theorem quiet_takeChunk (chunk : C) (payload : Bytes) (x : Scope S) : Quiet x (x.takeChunk sch peer chunk payload) :=
  (quiet_setStrategy _ x).trans (.of_books (books_takeChunk sch peer chunk payload x))

/-- The outcome of a received chunk: the standing is the same, but for at most one start of a decode, in the
consuming stage. -/
inductive Receives (sch : Scheme S C R P) (luck : Nat → Chance) (x y : Scope S) : Prop
  | more (h : Quiet x y)
  | complete (z : Scope S) (h : Quiet x z) (hstage : z.sess.stage = .consuming) (h' : Quiet (z.startDecode sch luck) y)

/-- The last chunk starts a decode. -/
theorem receives_acceptChunk (chunk : C) (payload : Bytes) (x : Scope S) :
    Receives sch luck x (x.acceptChunk sch luck peer chunk payload) := by
  have htake := quiet_takeChunk sch peer chunk payload x
  unfold acceptChunk
  dsimp only
  split
  · rename_i hdone
    exact .complete _ htake hdone.2.2 (quiet_drainPolls sch luck _)
  · exact .more (htake.trans (quiet_drainPolls sch luck _))

theorem Receives.of_quiet {x y z : Scope S} (h : Quiet x y) (h' : Receives sch luck y z) : Receives sch luck x z := by
  cases h' with
  | more hrest => exact .more (h.trans hrest)
  | complete u hbefore hstage hrest => exact .complete u (h.trans hbefore) hstage hrest

theorem receives_handleChunkData (chunkID payload : Bytes) (x : Scope S) :
    Receives sch luck x (x.handleChunkData sch luck peer chunkID payload) := by
  unfold handleChunkData
  split
  · exact .more (.of_books (books_observe _ x))
  split
  · exact .more (.of_books (books_observe _ x))
  apply Receives.of_quiet sch luck (quiet_setStrategy _ x)
  dsimp only
  split
  · exact receives_acceptChunk sch luck peer _ payload _
  · exact .more (.refl _)
  · exact .more (.of_books (books_observe _ _))

theorem receives_handleVerifyResult (chunkID payload : Bytes) (verdict : Verdict) (x : Scope S) :
    Receives sch luck x (x.handleVerifyResult sch luck peer chunkID payload verdict) := by
  unfold handleVerifyResult
  split
  · exact .more (.refl x)
  split
  · exact receives_acceptChunk sch luck peer _ payload x
  · exact .more (.of_books (books_observe _ x))

/-- A report, and what the session does with it. -/
theorem quiet_handleSendComplete (handle : ChunkHandle) (err : Option SendError) (size : Nat) (d : CtxRef)
    (x : Scope S) : Quiet x (x.handleSendComplete sch luck peer handle err size d) := by
  have hcancel := Quiet.of_books (books_cancelSend x (peer, handle))
  exact ((hcancel.trans (quiet_report sch d peer handle err _)).trans
    (.of_books (books_observeIf _ _ _))).trans (quiet_drainPolls sch luck _)

/-! ### Peers -/

/-- The peers' connection, outbox and flag that `join` records. -/
theorem join_sess (c : ConnRef) (x : Scope S) :
    (x.join sch c).sess =
      let pid := (x.world.conns c).id
      { x.sess with
        everHadPeers := true
        peers := x.sess.peers.set pid { conn := c, chunkOutbox := x.world.fresh }
        strategy := (sch.methods.pollRouting (sch.methods.attachPeer x.sess.strategy pid) true).2 } := by
  unfold join
  exact observeIf_sess _ _ _

/-- What `join` does to the world: one open on the peer's connection. -/
theorem join_world (c : ConnRef) (x : Scope S) :
    ∃ (routing : Bytes) (obs : List Observation), (x.join sch c).world =
      { x.world with fresh := x.world.fresh + 1, observed := obs }.request c
        (.openSession ⟨x.world.channelID, x.sess.messageID, x.sess.preamble, routing, x.world.fresh⟩) := by
  unfold join observeIf
  dsimp only
  split
  · exact ⟨_, _, rfl⟩
  · exact ⟨_, x.world.observed, rfl⟩

theorem background_dropReads (x : Scope S) : Background x (x.dropReads peer) := by
  obtain ⟨hcore, hfresh⟩ := core_cancelReads
    (fun p : PendingChunkRead => (p.stream, Code.unspecified))
    (x.sess.readQueue.filter (·.peer == peer)) x.world
  exact ⟨rfl, hcore, le_of_eq hfresh.symm⟩

theorem farewell_sess (x : Scope S) : (x.farewell peer).sess = x.sess := by
  unfold farewell
  split <;> rfl

/-- A dropped peer is told, and the session and the strategy forget it. -/
theorem handlePeerDropped_spec (x : Scope S) :
    (x.handlePeerDropped sch peer).sess.core =
      { x.sess.core with
        peers := x.sess.peers.del peer
        strategy := sch.methods.detachPeer x.sess.strategy peer false } ∧
    (x.handlePeerDropped sch peer).world.core = (x.farewell peer).world.core ∧
    (x.farewell peer).world.fresh ≤ (x.handlePeerDropped sch peer).world.fresh := by
  have hreads := background_dropReads peer (x.farewell peer)
  let y := (x.farewell peer).dropReads peer
  have hcancel := books_cancelOutbound peer ⟨{ y.sess with peers := y.sess.peers.del peer }, y.world⟩
  have hreads' : y.sess.core = x.sess.core := by
    rw [← farewell_sess peer x]
    exact hreads.sess
  have hcore : ((Scope.mk { y.sess with peers := y.sess.peers.del peer } y.world).cancelOutbound
      peer).sess.core = { x.sess.core with peers := x.sess.peers.del peer } := by
    rw [hcancel.sess]
    show ({ y.sess.core with peers := y.sess.core.peers.del peer } : Session S) = _
    rw [hreads']
    rfl
  refine ⟨?_, hcancel.world.trans hreads.world, le_trans hreads.fresh hcancel.fresh⟩
  have hstrategy := congrArg Session.strategy hcore
  show ({ ((Scope.mk { y.sess with peers := y.sess.peers.del peer } y.world).cancelOutbound
    peer).sess.core with strategy := sch.methods.detachPeer _ peer false } : Session S) = _
  rw [hcore]
  show ({ x.sess.core with
    peers := x.sess.peers.del peer
    strategy := sch.methods.detachPeer ((Scope.mk { y.sess with peers := y.sess.peers.del peer }
      y.world).cancelOutbound peer).sess.core.strategy peer false } : Session S) = _
  rw [hstrategy]
  rfl

/-- A completed peer is marked, once. -/
theorem handlePeerCompleted_spec (x : Scope S) :
    x.handlePeerCompleted sch peer = x ∨
    ∃ sp, x.sess.peers.get peer = some sp ∧
      (x.handlePeerCompleted sch peer).sess.core =
        { x.sess.core with
          peers := x.sess.peers.set peer { sp with completed := true }
          strategy := sch.methods.detachPeer x.sess.strategy peer true } ∧
      (x.handlePeerCompleted sch peer).world.core = x.world.core ∧
      x.world.fresh ≤ (x.handlePeerCompleted sch peer).world.fresh := by
  cases hget : x.sess.peers.get peer with
  | none =>
    left
    simp only [handlePeerCompleted, hget]
  | some sp =>
    cases hcompleted : sp.completed with
    | true =>
      left
      simp only [handlePeerCompleted, hget, hcompleted, if_true]
    | false =>
      right
      have hcancel := books_cancelOutbound peer
        ⟨{ x.sess with peers := x.sess.peers.set peer { sp with completed := true } }, x.world⟩
      have hstrategy := congrArg Session.strategy hcancel.sess
      simp only [handlePeerCompleted, hget, hcompleted, Bool.false_eq_true, if_false]
      refine ⟨sp, rfl, ?_, hcancel.world, hcancel.fresh⟩
      show ({ ((Scope.mk { x.sess with
          peers := x.sess.peers.set peer { sp with completed := true } } x.world).cancelOutbound
        peer).sess.core with strategy := sch.methods.detachPeer _ peer true } : Session S) = _
      rw [hcancel.sess]
      show ({ x.sess.core with
        peers := x.sess.peers.set peer { sp with completed := true }
        strategy := sch.methods.detachPeer ((Scope.mk { x.sess with
            peers := x.sess.peers.set peer { sp with completed := true } } x.world).cancelOutbound
          peer).sess.core.strategy peer true } : Session S) = _
      rw [hstrategy]
      rfl

/-! ### Calls to all peers -/

/-- `w'` is `w` after calls to the control states of some connections. -/
structure Called (w w' : World S) : Prop where
  world : w'.core = { w.core with conns := w'.conns }
  fresh : w'.fresh = w.fresh
  id : ∀ c, (w'.conns c).id = (w.conns c).id
  ctxDone : ∀ c, (w'.conns c).ctxDone = (w.conns c).ctxDone

theorem Called.trans {u v w : World S} (h : Called u v) (h' : Called v w) : Called u w :=
  ⟨by rw [h'.world, h.world], h'.fresh.trans h.fresh, fun c => (h'.id c).trans (h.id c),
    fun c => (h'.ctxDone c).trans (h.ctxDone c)⟩

/-- A call to all attached peers. -/
theorem called_forPeers (call : CtrlOutState.SessionCall) (x : Scope S) :
    Called x.world (x.forPeers luck fun _ sp w => w.request sp.conn call).world := by
  have hrefl : ∀ w : World S, Called w w := fun w => ⟨rfl, rfl, fun _ => rfl, fun _ => rfl⟩
  have hturn : Called x.world x.world.turn := ⟨rfl, rfl, fun _ => rfl, fun _ => rfl⟩
  refine hturn.trans (foldl_rel (r := Called) hrefl Called.trans (fun w pid => ?_) _ x.world.turn)
  split
  · rename_i sp _
    have hconns : ∀ c, (w.request sp.conn call).conns c =
        if c = sp.conn then (w.conns c).request call else w.conns c := by
      intro c
      by_cases hc : c = sp.conn
      · subst hc
        simp [request, updConn]
      · simp [request, updConn, hc]
    refine ⟨rfl, rfl, fun c => ?_, fun c => ?_⟩
    · rw [hconns]
      split <;> rfl
    · rw [hconns]
      split <;> rfl
  · exact hrefl w

/-- The start of a decode: the peers are told, and the decoder runs. -/
theorem startDecode_spec :
    ∃ w, Called x.world w ∧
      x.startDecode sch luck = ⟨{ x.sess with stage := .decoding }, { w.updLife x.sess.ref fun l =>
            { l with
              moves := l.moves ++ [(x.sess.stage, .decoding)]
              decodes := l.decodes ++ [sch.methods.decode x.sess.strategy] } with
          decoders := w.decoders ++ [⟨x.sess.ref, x.sess.messageID, sch.methods.decode x.sess.strategy⟩] }⟩ :=
  ⟨_, called_forPeers luck (.closeSessionStream x.key) ⟨{ x.sess with stage := .decoding }, x.world⟩, rfl⟩

theorem reads_startDecode : (x.startDecode sch luck).reads = x.reads :=
  (quiet_forPeers luck ⟨{ x.sess with stage := .decoding }, x.world⟩ fun _ _ w => .request _ w _ _).reads

theorem Receives.reads {x y : Scope S} (h : Receives sch luck x y) : y.reads = x.reads := by
  cases h with
  | more h => exact h.reads
  | complete z h _ h' => exact h'.reads.trans ((reads_startDecode sch luck z).trans h.reads)

/-- The end of a session: its peers are told, and its context ends. -/
theorem closeWithCode_world (code : Code) (x : Scope S) :
    ∃ w, Called x.world w ∧
      (x.closeWithCode luck code).world.core =
        { w with sessDone := w.sessDone.set x.sess.ref (closeCause code) }.core ∧
      (x.closeWithCode luck code).world.fresh = x.world.fresh := by
  have hcalled := called_forPeers luck (.closeSession x.key) x
  refine ⟨_, hcalled, ?_⟩
  obtain ⟨hcore, hfresh⟩ := core_cancelReads
    (fun p : PendingChunkRead => (p.stream, code)) x.sess.readQueue
    { (x.notifyPeersSessionDone luck).world with
      sessDone := (x.notifyPeersSessionDone luck).world.sessDone.set x.sess.ref (closeCause code) }
  exact ⟨hcore, hfresh.trans hcalled.fresh⟩

end Scope

end EthP2P.Broadcast
