/-
# EthP2P.Broadcast.Ancestry — how every session came to be what it is

A session is made with a new strategy and no peers, and then changes by its own methods only.
`Session.Turn` lists those changes, each with the one call to the strategy it makes, and `Session.Arises`
closes the new sessions under them.  In every reachable state of a channel every session arises in this way
(`lineage_run`), so what a strategy keeps through its calls holds of every session, and no later proof about
a strategy looks at the channel.

Two calls come with what the session has checked before.  A chunk is stored after its length was admitted
and its verification accepted it, unless the strategy has verification workers that vouch for chunks
(`vouched`).  A dispatch is reported as refused right after the poll that made it.
-/
import EthP2P.Broadcast.Inbox
import EthP2P.Broadcast.Lifecycle

namespace EthP2P.Broadcast

open Lib Wire Scope List

variable {S C R P : Type}

/-- The strategy after these dispatches were reported as refused. -/
def reportAll (sch : Scheme S C R P) (s : S) (refused : List (ChunkDispatch C × SendError)) : S :=
  refused.foldl (fun s r => sch.methods.chunkSent s r.1.peer (sch.handle r.1.chunkID) (some r.2)) s

namespace Session

/-- One change in the course of `drainPolls`. -/
inductive Poll (sch : Scheme S C R P) (s : Session S) : Session S → Prop
  /-- Reads, read groups and outbound sends. -/
  | books {t : Session S} (h : t.core = s.core) : Poll sch s t
  | routing (force : Bool) : Poll sch s { s with strategy := (sch.methods.pollRouting s.strategy force).2 }
  /-- A poll for chunks, some of which find no room. -/
  | chunks (o : Order PeerID) {refused : List (ChunkDispatch C × SendError)}
      (h : ∀ r ∈ refused, r.1 ∈ (sch.methods.pollChunks o s.strategy).1) :
      Poll sch s { s with strategy := reportAll sch (sch.methods.pollChunks o s.strategy).2 refused }

abbrev Polls (sch : Scheme S C R P) : Session S → Session S → Prop := Relation.ReflTransGen (Poll sch)

/-- **One change of a session.** -/
inductive Turn (sch : Scheme S C R P) (vouched : Prop) (s : Session S) : Session S → Prop
  | poll {t : Session S} (h : Poll sch s t) : Turn sch vouched s t
  | verify (peer : PeerID) (chunk : C) (data : Bytes) :
      Turn sch vouched s { s with strategy := (sch.methods.verifyChunk s.strategy peer chunk data).2 }
  | take {peer : PeerID} {chunk : C} {data : Bytes}
      (h : vouched ∨ data.length ≤ maxChunkDataSize ∧
        ∃ before, sch.methods.verifyChunk before peer chunk data = (.accepted, s.strategy)) :
      Turn sch vouched s { s with strategy := (sch.methods.takeChunk s.strategy peer chunk data).state }
  | routing (peer : PeerID) (update : R) :
      Turn sch vouched s { s with strategy := (sch.methods.routingUpdate s.strategy peer update).1 }
  | sent (peer : PeerID) (handle : ChunkHandle) (err : Option SendError) :
      Turn sch vouched s { s with strategy := sch.methods.chunkSent s.strategy peer handle err }
  | stage {stage : Stage} (h : s.stage ≠ .origin) (h' : stage ≠ .origin) : Turn sch vouched s { s with stage := stage }
  | join {pid : PeerID} (sp : SessionPeer) (h : s.peers.get pid = none) :
      Turn sch vouched s { s with
        everHadPeers := true
        peers := s.peers.set pid sp
        strategy := sch.methods.attachPeer s.strategy pid }
  | drop (pid : PeerID) :
      Turn sch vouched s { s with
        peers := s.peers.del pid
        strategy := sch.methods.detachPeer s.strategy pid false }
  | complete {pid : PeerID} {sp : SessionPeer} (h : s.peers.get pid = some sp) :
      Turn sch vouched s { s with
        peers := s.peers.set pid { sp with completed := true }
        strategy := sch.methods.detachPeer s.strategy pid true }

abbrev Turns (sch : Scheme S C R P) (vouched : Prop) : Session S → Session S → Prop :=
  Relation.ReflTransGen (Turn sch vouched)

/-- The sessions that can come about. -/
inductive Arises (sch : Scheme S C R P) (vouched : Prop) : Session S → Prop
  | relay {s : Session S} {seed : UInt64} {p : P} (hpreamble : sch.preamble.unmarshal s.preamble = some p)
      (hnew : sch.newRelay seed p = some s.strategy) (hstage : s.stage = .consuming)
      (hpeers : s.peers = ∅) : Arises sch vouched s
  | origin {s : Session S} {payload : Bytes} {p : P} (hnew : sch.newOrigin payload = some (s.strategy, p))
      (hstage : s.stage = .origin) (hpeers : s.peers = ∅) : Arises sch vouched s
  | turn {s t : Session S} (h : Arises sch vouched s) (hturn : Turn sch vouched s t) : Arises sch vouched t

variable {sch : Scheme S C R P} {vouched : Prop} {s t u : Session S}

/-- A session that arises does so after any number of changes. -/
theorem Arises.turns (h : Arises sch vouched s) (hturns : Turns sch vouched s t) : Arises sch vouched t := by
  induction hturns with
  | refl => exact h
  | tail _ hturn ih => exact ih.turn hturn

theorem Polls.of_core (h : t.core = s.core) : Polls sch s t := .single (.books h)

theorem Polls.turns (vouched : Prop) (h : Polls sch s t) : Turns sch vouched s t :=
  h.lift id fun _ _ => .poll

theorem Turns.of_core (h : t.core = s.core) : Turns sch vouched s t := .single (.poll (.books h))

theorem Turns.then_core (h : Turns sch vouched s t) (hcore : u.core = t.core) : Turns sch vouched s u :=
  h.tail (.poll (.books hcore))

end Session

/-! ## The methods of a session -/

namespace Scope

open Session (Turns Polls)

variable (sch : Scheme S C R P) (luck : Nat → Chance) (vouched : Prop)

theorem turns_background {x y : Scope S} (h : Background x y) : Turns sch vouched x.sess y.sess :=
  .of_core h.sess

variable (x : Scope S)

/-- `emitRouting` makes one poll for routing. -/
theorem polls_emitRouting : Polls sch x.sess (x.emitRouting sch luck).sess := by
  have hpoll : Polls sch x.sess
      { x.sess with strategy := (sch.methods.pollRouting x.sess.strategy false).2 } :=
    .single (.routing false)
  unfold emitRouting
  split
  · rename_i routing strategy heq
    rw [heq] at hpoll
    have hsame : ((x.setStrategy strategy).broadcastRouting sch luck routing).sess =
        { x.sess with strategy := strategy } := by
      unfold broadcastRouting
      split <;> rfl
    rw [hsame]
    exact hpoll
  · rename_i strategy heq
    rw [heq] at hpoll
    exact hpoll

/-- A chunk goes into an outbox, or is reported at once. -/
theorem sendChunk_core (c : ChunkDispatch C) :
    ∃ refused : List (ChunkDispatch C × SendError), (∀ r ∈ refused, r.1 = c) ∧
      (x.sendChunk sch luck c).sess.core =
        { x.sess.core with strategy := reportAll sch x.sess.strategy refused } := by
  have hrefused : ∀ err : SendError, ∀ r ∈ [(c, err)], r.1 = c := by
    intro err r hr
    rw [mem_singleton.mp hr]
  unfold sendChunk offer
  split
  · exact ⟨[(c, .marshal)], hrefused _, rfl⟩
  split
  · exact ⟨[(c, .peerGone)], hrefused _, rfl⟩
  split
  · exact ⟨[], fun r hr => absurd hr not_mem_nil, rfl⟩
  · exact ⟨[(c, .slotFull)], hrefused _, rfl⟩

/-- `emitChunks` makes one poll for chunks, and reports those that find no room. -/
theorem polls_emitChunks : Polls sch x.sess (x.emitChunks sch luck).sess := by
  generalize hpolled : sch.methods.pollChunks (luck x.world.tick).peers x.sess.strategy = polled
  generalize hstart : (x.setStrategy polled.2).onWorld World.turn = y
  have hcore : y.sess.core = { x.sess.core with strategy := polled.2 } := by
    rw [← hstart]
    rfl
  -- the reports so far are of dispatches that were looked at
  have hloop := foldl_seen (f := sendChunk sch luck)
    (I := fun seen (z : Scope S) => ∃ refused : List (ChunkDispatch C × SendError),
      (∀ r ∈ refused, r.1 ∈ seen) ∧ z.sess.core = { x.sess.core with strategy := reportAll sch polled.2 refused })
    (fun seen z c hz => ?_) polled.1
    (show ∃ refused : List (ChunkDispatch C × SendError), (∀ r ∈ refused, r.1 ∈ []) ∧
      y.sess.core = { x.sess.core with strategy := reportAll sch polled.2 refused } from ⟨[], fun r hr => absurd hr not_mem_nil, hcore⟩)
  · obtain ⟨refused, hmem, hfinal⟩ := hloop
    have hmem' : ∀ r ∈ refused, r.1 ∈ (sch.methods.pollChunks (luck x.world.tick).peers x.sess.strategy).1 := by
      rw [hpolled]
      exact hmem
    have hemit : Polls sch x.sess { x.sess with
        strategy := reportAll sch (sch.methods.pollChunks (luck x.world.tick).peers x.sess.strategy).2
          refused } := .single (.chunks _ hmem')
    rw [hpolled] at hemit
    refine hemit.tail (.books ?_)
    unfold emitChunks
    simp only [hpolled, hstart]
    exact hfinal
  · obtain ⟨refused, hmem, hz⟩ := hz
    obtain ⟨more, hmore, hsend⟩ := sendChunk_core sch luck z c
    refine ⟨refused ++ more, fun r hr => ?_, ?_⟩
    · rcases mem_append.mp hr with hr | hr
      · exact mem_append_left _ (hmem r hr)
      · rw [hmore r hr]
        exact mem_append_right _ (mem_singleton.mpr rfl)
    · have hstrategy : z.sess.strategy = reportAll sch polled.2 refused := congrArg Session.strategy hz
      rw [hsend, hz, hstrategy]
      simp only [reportAll, foldl_append]

theorem polls_drainPolls : Polls sch x.sess (x.drainPolls sch luck).sess :=
  (polls_emitRouting sch luck x).trans (polls_emitChunks sch luck _)

theorem turns_drainPolls : Turns sch vouched x.sess (x.drainPolls sch luck).sess :=
  (polls_drainPolls sch luck x).turns vouched

variable (peer : PeerID)

/-- The strategy merges the update; the sends it makes needless are cancelled. -/
theorem applyRouting_core (update : R) (x : Scope S) :
    (x.applyRouting sch peer update).sess.core =
      { x.sess with strategy := (sch.methods.routingUpdate x.sess.strategy peer update).1 }.core :=
  (books_applyRouting sch peer update x).sess

theorem turns_handleRoutingUpdate (data : Bytes) (x : Scope S) :
    Turns sch vouched x.sess (x.handleRoutingUpdate sch luck peer data).sess := by
  unfold handleRoutingUpdate
  split
  · exact .refl
  rename_i update _
  have hcall : Turns sch vouched x.sess
      { x.sess with strategy := (sch.methods.routingUpdate x.sess.strategy peer update).1 } :=
    .single (.routing peer update)
  exact (hcall.then_core (applyRouting_core sch peer update x)).trans (turns_drainPolls sch luck vouched _)

theorem turns_takeChunk {peer : PeerID} {chunk : C} {data : Bytes} {x : Scope S}
    (h : vouched ∨ data.length ≤ maxChunkDataSize ∧
      ∃ before, sch.methods.verifyChunk before peer chunk data = (.accepted, x.sess.strategy)) :
    Turns sch vouched x.sess (x.takeChunk sch peer chunk data).sess := by
  have hcall : Turns sch vouched x.sess
      { x.sess with strategy := (sch.methods.takeChunk x.sess.strategy peer chunk data).state } :=
    .single (.take h)
  exact hcall.then_core (books_takeChunk sch peer chunk data x).sess

/-- A chunk is stored, and with the last one the session starts to decode. -/
theorem turns_acceptChunk {peer : PeerID} {chunk : C} {data : Bytes} {x : Scope S}
    (h : vouched ∨ data.length ≤ maxChunkDataSize ∧
      ∃ before, sch.methods.verifyChunk before peer chunk data = (.accepted, x.sess.strategy)) :
    Turns sch vouched x.sess (x.acceptChunk sch luck peer chunk data).sess := by
  have htake := turns_takeChunk sch vouched h
  unfold acceptChunk
  dsimp only
  split
  · rename_i hdone
    obtain ⟨w, _, hstart⟩ := startDecode_spec sch luck (x.takeChunk sch peer chunk data)
    have hstage : Turns sch vouched (x.takeChunk sch peer chunk data).sess
        ((x.takeChunk sch peer chunk data).startDecode sch luck).sess := by
      rw [hstart]
      refine .single (.stage ?_ ?_)
      · rw [hdone.2.2]
        nofun
      · nofun
    exact (htake.trans hstage).trans (turns_drainPolls sch luck vouched _)
  · exact htake.trans (turns_drainPolls sch luck vouched _)

theorem turns_handleChunkData (chunkID : Bytes) (data : ChunkPayload) (x : Scope S) :
    Turns sch vouched x.sess (x.handleChunkData sch luck peer chunkID data).sess := by
  unfold handleChunkData
  split
  · exact .refl
  rename_i chunk _
  split
  · exact .refl
  dsimp only
  have hverify : Turns sch vouched x.sess
      { x.sess with strategy := (sch.methods.verifyChunk x.sess.strategy peer chunk data.1).2 } :=
    .single (.verify peer chunk data.1)
  split
  · rename_i haccepted
    have hbefore : ∃ before, sch.methods.verifyChunk before peer chunk data =
        (.accepted, (sch.methods.verifyChunk x.sess.strategy peer chunk data).2) :=
      ⟨x.sess.strategy, Prod.ext haccepted rfl⟩
    exact hverify.trans (turns_acceptChunk sch luck vouched
      (x := x.setStrategy (sch.methods.verifyChunk x.sess.strategy peer chunk data).2) (.inr ⟨data.2, hbefore⟩))
  · exact hverify
  · exact hverify

theorem turns_handleVerifyResult (chunkID data : Bytes) {verdict : Verdict} (x : Scope S)
    (h : verdict = .accepted → vouched) :
    Turns sch vouched x.sess (x.handleVerifyResult sch luck peer chunkID data verdict).sess := by
  unfold handleVerifyResult
  split
  · exact .refl
  split
  · rename_i haccepted
    exact turns_acceptChunk sch luck vouched (.inl (h haccepted))
  · exact .refl

theorem turns_handleSendComplete (handle : ChunkHandle) (err : Option SendError) (size : Nat) (d : CtxRef)
    (x : Scope S) : Turns sch vouched x.sess (x.handleSendComplete sch luck peer handle err size d).sess := by
  have hcancel := turns_background sch vouched (books_cancelSend x (peer, handle)).toBackground
  have hreport : Turns sch vouched (x.cancelSend (peer, handle)).sess
      ((x.cancelSend (peer, handle)).report sch d peer handle err).sess := .single (.sent peer handle err)
  refine ((hcancel.trans hreport).trans ?_).trans (turns_drainPolls sch luck vouched _)
  exact turns_background sch vouched (books_observeIf _ _ _).toBackground

/-- A new peer joins, and is sent the whole routing state. -/
theorem turns_handlePeerAttached (c : ConnRef) (x : Scope S) :
    Turns sch vouched x.sess (x.handlePeerAttached sch luck c).sess := by
  unfold handlePeerAttached
  split
  · exact .refl
  rename_i hpeer
  have hnone : x.sess.peers.get (x.world.conns c).id = none := by simpa using hpeer
  have hjoin : Turns sch vouched x.sess (x.join sch c).sess := by
    rw [join_sess]
    exact .tail (.single (.join { conn := c, chunkOutbox := x.world.fresh } hnone)) (.poll (.routing true))
  exact hjoin.trans (turns_drainPolls sch luck vouched _)

theorem turns_handlePeerDropped (x : Scope S) : Turns sch vouched x.sess (x.handlePeerDropped sch peer).sess := by
  have hdrop : Turns sch vouched x.sess { x.sess with
      peers := x.sess.peers.del peer
      strategy := sch.methods.detachPeer x.sess.strategy peer false } := .single (.drop peer)
  exact hdrop.then_core (handlePeerDropped_spec sch peer x).1

theorem turns_handlePeerCompleted (x : Scope S) : Turns sch vouched x.sess (x.handlePeerCompleted sch peer).sess := by
  rcases handlePeerCompleted_spec sch peer x with hsame | ⟨sp, hget, hcore, _⟩
  · rw [hsame]
  have hcomplete : Turns sch vouched x.sess { x.sess with
      peers := x.sess.peers.set peer { sp with completed := true }
      strategy := sch.methods.detachPeer x.sess.strategy peer true } := .single (.complete hget)
  exact hcomplete.then_core hcore

theorem turns_closeWithCode (code : Code) (x : Scope S) :
    Turns sch vouched x.sess (x.closeWithCode luck code).sess := .of_core rfl

end Scope

/-! ## The sessions of a channel -/

namespace Channel

open Session (Turns Arises)

variable {sch : Scheme S C R P} {luck : Nat → Chance} {vouched : Prop} {x y : Channel S}

/-- Every session arises. -/
def Lineage (sch : Scheme S C R P) (vouched : Prop) (x : Channel S) : Prop :=
  ∀ m sess, x.sessions.get m = some sess → sess.Arises sch vouched

section

variable (hx : x.Lineage sch vouched)
include hx

theorem Lineage.of_sub
    (h : ∀ m sess, y.sessions.get m = some sess → x.sessions.get m = some sess) : y.Lineage sch vouched :=
  fun m sess hget => hx m sess (h m sess hget)

theorem Lineage.of_same (h : y.sessions = x.sessions) : y.Lineage sch vouched := hx.of_sub fun _ _ hget => h ▸ hget

theorem Lineage.put {m : MessageID} {z : Scope S}
    (hz : z.sess.Arises sch vouched) : (x.put m z).Lineage sch vouched := by
  intro k sess hget
  rw [put_sessions] at hget
  split at hget
  · cases hget
    exact hz
  · exact hx k sess hget

/-- A method that makes turns keeps the lineage. -/
theorem Lineage.onSession {m : MessageID} {f : Scope S → Scope S}
    (hf : ∀ y : Scope S, Turns sch vouched y.sess (f y).sess) : (x.onSession m f).Lineage sch vouched := by
  unfold Channel.onSession
  split
  · exact hx
  · rename_i sess hget
    exact hx.put ((hx m sess hget).turns (hf ⟨sess, x.world⟩))

theorem Lineage.disposeSession (luck : Nat → Chance) (m : MessageID) (reason : Reason) :
    (x.disposeSession luck m reason).Lineage sch vouched :=
  hx.of_sub fun _ _ hget => (get_of_disposeSession hget).2

theorem Lineage.disposeIfIdle (luck : Nat → Chance) (m : MessageID) :
    (x.disposeIfIdle luck m).Lineage sch vouched := hx.of_sub fun _ _ => get_of_disposeIfIdle

end

theorem Lineage.foldl {A : Type*} {f : Channel S → A → Channel S}
    (hf : ∀ x a, x.Lineage sch vouched → (f x a).Lineage sch vouched) (l : List A)
    (hx : x.Lineage sch vouched) : (l.foldl f x).Lineage sch vouched :=
  foldl_rel (r := fun x y : Channel S => x.Lineage sch vouched → y.Lineage sch vouched) (fun _ h => h)
    (fun h h' hx => h' (h hx)) hf l x hx

section

variable (hx : x.Lineage sch vouched)
include hx

theorem Lineage.forSessions {body : MessageID → Channel S → Channel S}
    (luck : Nat → Chance) (hbody : ∀ m x, x.Lineage sch vouched → (body m x).Lineage sch vouched) :
    (x.forSessions luck body).Lineage sch vouched :=
  Lineage.foldl (fun x m hx => hbody m x hx) _ (hx.of_same rfl)

theorem Lineage.begin {sess : Session S} (hsess : sess.Arises sch vouched) : (x.begin sess).Lineage sch vouched := by
  intro k sess' hget
  rw [begin_sessions] at hget
  split at hget
  · cases hget
    exact hsess
  · exact hx k sess' hget

theorem Lineage.attachMembers (luck : Nat → Chance) (m : MessageID) :
    (x.attachMembers sch luck m).Lineage sch vouched := by
  refine Lineage.foldl (fun x pid hx => ?_) _ (hx.of_same rfl)
  split
  · rename_i c _
    exact hx.onSession (turns_handlePeerAttached sch luck vouched c)
  · exact hx

theorem Lineage.flushParked (m : MessageID) : (x.flushParked sch m).Lineage sch vouched := by
  unfold Channel.flushParked
  split
  · exact hx
  refine Lineage.of_same (Lineage.foldl (fun x c hx => ?_) _ hx) rfl
  exact hx.onSession fun y => turns_background sch vouched (background_handleChunkStream sch _ _ _ _ y)

/-- A relay session starts from its preamble. -/
theorem lineage_createRelaySession {m : MessageID} {preamble : Bytes} {peer : PeerID} {routing : Bytes}
    (h : x.createRelaySession sch luck m preamble peer routing = .ok y) : y.Lineage sch vouched := by
  unfold createRelaySession at h
  split at h
  · cases h
  rename_i p hp
  split at h
  · cases h
  rename_i strat hstrat
  cases h
  have hbegin : ((x.onWorld World.turn).begin
      ((x.onWorld World.turn).newSession m preamble false strat)).Lineage sch vouched :=
    Lineage.begin (hx.of_same rfl) (.relay hp hstrat rfl rfl)
  have hattached := hbegin.attachMembers luck m
  refine Lineage.of_same (Lineage.flushParked ?_ m) rfl
  split
  · exact hattached
  · exact hattached.onSession (turns_handleRoutingUpdate sch luck vouched peer routing)

end

/-- What an event must bring for the sessions to go on arising: a publication brings a new strategy, and
only verification workers vouch for chunks. -/
def Vouches (sch : Scheme S C R P) (vouched : Prop) : Event S → Prop
  | .publish _ strategy _ => ∃ payload p, sch.newOrigin payload = some (strategy, p)
  | .verifyResult _ _ _ _ verdict => verdict = .accepted → vouched
  | _ => True

/-- Every handler makes, turns and removes sessions, and nothing else. -/
theorem lineage_handle (hx : x.Lineage sch vouched) {evt : Event S} (hevt : Vouches sch vouched evt) :
    (x.handle sch luck evt).Lineage sch vouched := by
  have hleave : ∀ (x : Channel S) (m : MessageID) (p : PeerID), x.Lineage sch vouched →
      (x.leave sch luck m p).Lineage sch vouched := by
    intro x m p hx
    have hdropped := hx.onSession (m := m) (turns_handlePeerDropped sch vouched p)
    exact hdropped.disposeIfIdle luck m
  cases evt with
  | expiry =>
    refine Lineage.of_same (hx.forSessions luck fun m x hx => ?_) (aside_expireParked _).sessions
    exact expireSession_keeps m x hx (hx.disposeSession luck m .ttlExpired)
  | readDone m =>
    exact hx.onSession fun y => turns_background sch vouched (background_drainReads sch y)
  | chunkStream e =>
    show (x.handleChunk sch e).Lineage sch vouched
    unfold handleChunk
    split
    · refine hx.onSession fun y => turns_background sch vouched ?_
      exact (background_drainReads sch y).trans (background_handleChunkStream sch _ _ _ _ _)
    split
    · split <;> exact hx.of_same rfl
    · exact hx.of_same rfl
  | chunkData m peer chunkID data =>
    exact hx.onSession (turns_handleChunkData sch luck vouched peer chunkID data)
  | sessionOpen peer msg =>
    show (x.handleSessionOpen sch luck peer msg).Lineage sch vouched
    unfold handleSessionOpen
    split
    · split
      · exact hx
      · exact hx.onSession (turns_handleRoutingUpdate sch luck vouched peer msg.initialUpdate)
    split
    · rename_i y hy
      exact lineage_createRelaySession hx hy
    · exact hx.of_same rfl
  | peerChange e =>
    obtain ⟨p, ref⟩ := e
    cases ref with
    | some c =>
      show (x.handlePeerBound sch luck p c).Lineage sch vouched
      unfold handlePeerBound
      split
      · exact hx
      have hmember : ({ x with members := x.members.set p c } : Channel S).Lineage sch vouched :=
        hx.of_same rfl
      refine hmember.forSessions luck fun m x hx => ?_
      exact hx.onSession (turns_handlePeerAttached sch luck vouched c)
    | none =>
      show (x.handlePeerUnbound sch luck p).Lineage sch vouched
      have hparked : (Channel.dropParked luck p
          { x with members := x.members.del p }).Lineage sch vouched :=
        hx.of_same (aside_dropParked luck p { x with members := x.members.del p }).sessions
      exact hparked.forSessions luck fun m x hx => hleave x m p hx
  | publish m strategy preamble =>
    obtain ⟨payload, p, hnew⟩ := hevt
    show (x.handlePublish sch luck m strategy preamble).Lineage sch vouched
    unfold handlePublish
    have hdisposed := hx.disposeSession luck m .replaced
    have hbegin : ((x.disposeSession luck m .replaced).begin
        ((x.disposeSession luck m .replaced).newSession m preamble true strategy)).Lineage sch vouched :=
      hdisposed.begin (.origin hnew rfl rfl)
    have hattached := hbegin.attachMembers luck m
    exact Lineage.of_same (hattached.onSession (turns_drainPolls sch luck vouched)) rfl
  | chunkSent m peer handle err size sender =>
    exact hx.onSession (turns_handleSendComplete sch luck vouched peer handle err size sender.2)
  | routingUpdate peer m data =>
    exact hx.onSession (turns_handleRoutingUpdate sch luck vouched peer data)
  | peerReconstructed m peer =>
    have hcompleted := hx.onSession (m := m) (turns_handlePeerCompleted sch vouched peer)
    exact hcompleted.disposeIfIdle luck m
  | peerSessionEnded m peer c =>
    show (if x.members.get peer ≠ some c then x else x.leave sch luck m peer).Lineage sch vouched
    split
    · exact hx
    · exact hleave x m peer hx
  | verifyResult m peer chunkID data verdict =>
    exact hx.onSession fun y => turns_handleVerifyResult sch luck vouched peer chunkID data y hevt
  | decoded m payload sender =>
    show (Channel.takeResult luck m payload _).Lineage sch vouched
    unfold takeResult
    split
    · exact hx.of_same rfl
    rename_i sess hget
    split
    · rename_i hstage
      split
      · exact hx.of_same rfl
      rename_i bytes
      have hsessions : (deliverMessage m bytes
          (x.onWorld fun w => w.updLife sender fun l => { l with handled := true })).sessions =
          x.sessions := (deliverMessage_spec m bytes _).1
      have hdelivered := hx.of_same hsessions
      refine Lineage.disposeIfIdle (hdelivered.put ((hx m sess hget).turn (.stage ?_ ?_))) luck m
      · intro horigin
        rw [horigin] at hstage
        exact absurd hstage (by decide)
      · simp
    · exact hx.of_same rfl

/-! ## Whole runs -/

/-- The sessions arise, and so will those that the inbox brings. -/
structure Descends (sch : Scheme S C R P) (vouched : Prop) (x : Channel S) : Prop where
  lineage : x.Lineage sch vouched
  inbox : ∀ e ∈ x.world.inbox, Vouches sch vouched e

/-- Without verification workers nobody vouches. -/
def Unwatched (vouched : Prop) : Op S → Prop
  | .post (.verifyResult _ _ _ _ verdict) => verdict = .accepted → vouched
  | _ => True

theorem unwatched_true (op : Op S) : Unwatched True op := by
  unfold Unwatched
  split
  · exact fun _ => trivial
  · trivial

theorem lineage_closeAll (hx : x.Lineage sch vouched) : (x.closeAll luck).Lineage sch vouched := by
  unfold closeAll
  split
  · dsimp only
    have hclosed : (x.forSessions luck fun m x => x.onSession m (Close luck)).Lineage sch vouched :=
      hx.forSessions luck fun m x hx => hx.onSession (turns_closeWithCode sch luck vouched .unspecified)
    refine Lineage.of_same hclosed ?_
    exact (aside_forParked luck (fun m group x => aside_cancelStreams group.streams .unspecified x) _).sessions
  · exact hx

/-- One step of the channel. -/
theorem descends_step (hx : x.Descends sch vouched) {op : Op S} (hop : Unwatched vouched op) :
    (x.step sch luck op).Descends sch vouched := by
  by_cases hnext : op = .next
  · subst hnext
    show (x.next sch luck).Descends sch vouched
    cases hdue : x.due with
    | none =>
      rw [next_of_none hdue]
      exact hx
    | some evt =>
      obtain ⟨rest, hinbox, _, hhandle⟩ := next_of_some sch luck hdue
      rw [hhandle]
      have hevt : Vouches sch vouched evt := hx.inbox evt (hinbox ▸ mem_cons_self)
      have hpop : (x.onWorld fun w => { w with inbox := rest }).Lineage sch vouched :=
        hx.lineage.of_same rfl
      refine ⟨lineage_handle hpop hevt, fun e he => ?_⟩
      rw [inbox_handle] at he
      exact hx.inbox e (hinbox ▸ mem_cons_of_mem _ he)
  by_cases hclose : op = .closeAll
  · subst hclose
    refine ⟨lineage_closeAll hx.lineage, ?_⟩
    show ∀ e ∈ (x.closeAll luck).world.inbox, _
    rw [inbox_closeAll]
    exact hx.inbox
  have hout := outside_step sch luck op hnext hclose x
  refine ⟨hx.lineage.of_same hout.sessions, ?_⟩
  by_cases hfinish : op = .finish
  · subst hfinish
    show ∀ e ∈ x.finish.world.inbox, _
    unfold finish
    split
    · exact fun e he => absurd he not_mem_nil
    · exact hx.inbox
  obtain ⟨new, hkind, happends⟩ := posts_step sch luck hnext hclose hfinish x
  rw [happends.inbox]
  intro e he
  rcases mem_append.mp he with he | he
  · exact hx.inbox e he
  rcases hkind e he with ⟨rfl, hexternal⟩ | hinternal
  · cases e with
    | publish m strategy preamble => cases hexternal
    | verifyResult m peer chunkID data verdict => exact hop
    | _ => trivial
  cases e with
  | publish m strategy preamble => exact hinternal
  | verifyResult m peer chunkID data verdict => exact absurd hinternal id
  | _ => trivial

/-- **Every session of every reachable state arises.** -/
theorem lineage_run (sch : Scheme S C R P) (luck : Nat → Chance) (vouched : Prop) (channelID : ChannelID)
    (ids : ConnRef → PeerID) (sub : Option Subscription) {ops : List (Op S)}
    (hops : ∀ op ∈ ops, Unwatched vouched op) :
    (exec (step sch luck) (init channelID ids sub) ops).Lineage sch vouched := by
  have hrun : ∀ (ops : List (Op S)) (x : Channel S), (∀ op ∈ ops, Unwatched vouched op) →
      x.Descends sch vouched → (exec (step sch luck) x ops).Descends sch vouched := by
    intro ops
    induction ops with
    | nil => exact fun x _ hx => hx
    | cons op ops ih =>
      intro x hops hx
      exact ih _ (fun op' h => hops op' (mem_cons_of_mem _ h)) (descends_step hx (hops op mem_cons_self))
  refine (hrun ops _ hops ⟨fun m sess hget => ?_, fun e he => absurd he not_mem_nil⟩).lineage
  cases hget

end Channel

end EthP2P.Broadcast
