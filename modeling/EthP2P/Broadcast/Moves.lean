/-
# EthP2P.Broadcast.Moves — what handling an event can do to a channel

`Micro` is one elementary move of a channel: an effect of a session method, a peer that is attached or
leaves, a decode that starts, a session that begins or ends.  Handling an event is a sequence of moves
(`micros_handle`), so an invariant of the channel is checked move by move, and no later proof looks into a
handler.  A move carries the event that causes it, where it matters which one.
-/
import EthP2P.Broadcast.Channel
import EthP2P.Broadcast.Effects

namespace EthP2P.Broadcast

open Lib Wire Scope World Nat

variable {S C R P : Type}

/-! ## The moves of a channel -/

/-- Neither the sessions nor the members change, and of the world only bookkeeping. -/
structure Aside (x y : Channel S) : Prop where
  sessions : y.sessions = x.sessions
  members : y.members = x.members
  phase : y.phase = x.phase
  world : y.world.core = x.world.core
  fresh : x.world.fresh ≤ y.world.fresh

theorem Aside.refl (x : Channel S) : Aside x x := ⟨rfl, rfl, rfl, rfl, le_refl _⟩

theorem Aside.trans {x y z : Channel S} (h : Aside x y) (h' : Aside y z) : Aside x z :=
  ⟨h'.sessions.trans h.sessions, h'.members.trans h.members, h'.phase.trans h.phase,
    h'.world.trans h.world, le_trans h.fresh h'.fresh⟩

/-- The events that bring a session a chunk. -/
def Event.IsChunk : Event S → Prop
  | .chunkData _ _ _ _ | .verifyResult _ _ _ _ _ => True
  | _ => False

/-- **One move of the channel** on the way of handling `evt`. -/
inductive Micro (sch : Scheme S C R P) (luck : Nat → Chance) (evt : Event S) (x : Channel S) :
    Channel S → Prop
  | aside {y : Channel S} (h : Aside x y) : Micro sch luck evt x y
  | member {p : PeerID} {c : ConnRef} (hevt : evt = .peerChange ⟨p, some c⟩) :
      Micro sch luck evt x { x with members := x.members.set p c }
  | unmember {p : PeerID} (hevt : evt = .peerChange ⟨p, none⟩) :
      Micro sch luck evt x { x with members := x.members.del p }
  /-- What a session does without a change of its standing. -/
  | act {m : MessageID} {sess : Session S} {z : Scope S} (hget : x.sessions.get m = some sess)
      (h : Stays ⟨sess, x.world⟩ z) : Micro sch luck evt x (x.put m z)
  /-- A session that was consuming is complete. -/
  | start {m : MessageID} {sess : Session S} (hget : x.sessions.get m = some sess)
      (hstage : sess.stage = .consuming) (hevt : evt.IsChunk) :
      Micro sch luck evt x (x.put m (startDecode sch luck ⟨sess, x.world⟩))
  /-- A peer is attached: a peer that joins the channel to any session, a member to a new one. -/
  | join {m : MessageID} {sess : Session S} {c : ConnRef} (hget : x.sessions.get m = some sess)
      (hpeer : sess.peers.get (x.world.conns c).id = none) (hmember : ∃ p, x.members.get p = some c)
      (hevt : (∃ p, evt = .peerChange ⟨p, some c⟩) ∨ sess.stage = .consuming ∨ sess.stage = .origin) :
      Micro sch luck evt x (x.put m (join sch c ⟨sess, x.world⟩))
  /-- A peer leaves a session, by the end of its stream or because it left the channel. -/
  | leave {m : MessageID} {sess : Session S} {p : PeerID} (hget : x.sessions.get m = some sess)
      (hevt : evt = .peerChange ⟨p, none⟩ ∨ ∃ c, evt = .peerSessionEnded m p c ∧
        x.members.get p = some c) : Micro sch luck evt x (x.leave sch luck m p)
  | complete {m : MessageID} {sess : Session S} {p : PeerID} (hget : x.sessions.get m = some sess)
      (hevt : evt = .peerReconstructed m p) :
      Micro sch luck evt x ((x.put m (handlePeerCompleted sch p ⟨sess, x.world⟩)).disposeIfIdle luck m)
  /-- A session is replaced or expires. -/
  | dispose {m : MessageID} {sess : Session S} {reason : Reason}
      (hget : x.sessions.get m = some sess) (hreason : reason ≠ .allPeersDone) :
      Micro sch luck evt x (x.disposeSession luck m reason)
  | begin {m : MessageID} {preamble : Bytes} {origin : Bool} {strategy : S}
      (hget : x.sessions.get m = none)
      (hnew : (origin = false ∧ ∃ seed p, sch.newRelay seed p = some strategy) ∨
        (origin = true ∧ evt = .publish m strategy preamble)) :
      Micro sch luck evt x (x.begin (x.newSession m preamble origin strategy))

abbrev Micros (sch : Scheme S C R P) (luck : Nat → Chance) (evt : Event S) :
    Channel S → Channel S → Prop := Relation.ReflTransGen (Micro sch luck evt)

namespace Channel

variable {sch : Scheme S C R P} {luck : Nat → Chance} {evt : Event S} {x y : Channel S}

@[simp] theorem put_put (x : Channel S) (m : MessageID) (y z : Scope S) : (x.put m y).put m z = x.put m z := by
  simp [put]

@[simp] theorem put_sessions (x : Channel S) (m k : MessageID) (z : Scope S) :
    (x.put m z).sessions.get k = if k = m then some z.sess else x.sessions.get k := by
  simp [put]

@[simp] theorem begin_sessions (sess : Session S) (x : Channel S) (k : MessageID) :
    (x.begin sess).sessions.get k = if k = sess.messageID then some sess else x.sessions.get k := by
  simp only [begin, put_sessions]
  rfl

variable {I : Channel S → Prop}

/-- A loop whose rounds are moves, and keep what they rely on, is a sequence of moves. -/
theorem micros_foldl {A : Type*} {f : Channel S → A → Channel S}
    (hf : ∀ x a, I x → Micros sch luck evt x (f x a) ∧ I (f x a)) (l : List A) (x : Channel S) (hx : I x) :
    Micros sch luck evt x (l.foldl f x) ∧ I (l.foldl f x) := by
  induction l generalizing x with
  | nil => exact ⟨.refl, hx⟩
  | cons a l ih =>
    obtain ⟨hstep, hi⟩ := hf x a hx
    obtain ⟨hrest, hi'⟩ := ih (f x a) hi
    exact ⟨hstep.trans hrest, hi'⟩

variable {m : MessageID}

theorem micro_put_put {y z : Scope S} (h : Stays y z) : Micro sch luck evt (x.put m y) (x.put m z) := by
  have hmove : Micro sch luck evt (x.put m y) ((x.put m y).put m z) := .act (by simp) h
  rwa [put_put] at hmove

variable {f : Scope S → Scope S}

theorem micros_onSession (m : MessageID) (hf : ∀ x, Stays x (f x)) (x : Channel S) :
    Micros sch luck evt x (x.onSession m f) := by
  unfold onSession
  split
  · exact .refl
  · rename_i sess hget
    exact .single (.act hget (hf _))

/-- A chunk comes to a session, which may be complete by it. -/
theorem micros_receives (m : MessageID) (hf : ∀ x, Receives sch luck x (f x)) (hevt : evt.IsChunk) (x : Channel S) :
    Micros sch luck evt x (x.onSession m f) := by
  unfold onSession
  split
  · exact .refl
  rename_i sess hget
  cases hf ⟨sess, x.world⟩ with
  | more h => exact .single (.act hget h.toStays)
  | complete z h hstage h' =>
    have hstart : Micro sch luck evt (x.put m z) ((x.put m z).put m (z.startDecode sch luck)) :=
      .start (by simp) hstage hevt
    rw [put_put] at hstart
    exact .head (.act hget h.toStays) (.head hstart (.single (micro_put_put h'.toStays)))

theorem aside_turn (x : Channel S) : Aside x (x.onWorld turn) :=
  ⟨rfl, rfl, rfl, rfl, le_refl _⟩

theorem aside_observe (o : Observation) (x : Channel S) : Aside x (x.observe o) :=
  ⟨rfl, rfl, rfl, rfl, le_refl _⟩

theorem aside_cancelStreams (streams : List ChunkStream) (code : Code) (x : Channel S) :
    Aside x (x.cancelStreams streams code) := by
  obtain ⟨hcore, hfresh⟩ := core_cancelReads (fun c : ChunkStream => (c.stream, code)) streams x.world
  exact ⟨rfl, rfl, rfl, hcore, le_of_eq hfresh.symm⟩

/-- `finish` waits for the shutdown, or cancels the streams still in the inbox and stops. -/
theorem finish_cases (x : Channel S) : x.finish = x ∨
    x.phase = .closing ∧ x.quiet = true ∧ ∃ streams : List ChunkStream,
      (∀ c, .chunkStream c ∈ x.world.inbox → c ∈ streams) ∧
      x.finish = { (x.cancelStreams streams .unspecified).onWorld fun w => { w with inbox := [] } with
        phase := .stopped } := by
  unfold finish
  split
  · rename_i hready
    rw [Bool.and_eq_true] at hready
    refine .inr ⟨of_decide_eq_true hready.1, hready.2, _, fun c hc => ?_, rfl⟩
    exact List.mem_filterMap.mpr ⟨.chunkStream c, hc, rfl⟩
  · exact .inl rfl

/-- A loop over the parked groups that leaves sessions and members alone. -/
theorem aside_forParked (luck : Nat → Chance)
    {body : MessageID → ParkedGroup → Channel S → Channel S} (hbody : ∀ m group x, Aside x (body m group x)) (x : Channel S) :
    Aside x (x.forParked luck body) := by
  refine Aside.trans (aside_turn x) (foldl_rel (r := Aside) Aside.refl Aside.trans (fun x m => ?_) _ _)
  cases x.parked.get m with
  | none => exact .refl x
  | some group => exact hbody m group x

variable {body : MessageID → Channel S → Channel S}

/-- A loop over the sessions, whose rounds also keep `I`. -/
theorem micros_forSessions_of (hbody : ∀ m x, I x → Micros sch luck evt x (body m x) ∧ I (body m x))
    (hx : I (x.onWorld turn)) : Micros sch luck evt x (x.forSessions luck body) := by
  refine .head (.aside (aside_turn x)) ?_
  exact (micros_foldl (fun x m hx => hbody m x hx) _ _ hx).1

theorem micros_forSessions (hbody : ∀ m x, Micros sch luck evt x (body m x)) (x : Channel S) :
    Micros sch luck evt x (x.forSessions luck body) :=
  micros_forSessions_of (I := fun _ => True) (fun m x _ => ⟨hbody m x, trivial⟩) trivial

/-! ### Attaching -/

/-- The session of `m` is in stage `st`. -/
def StageIs (m : MessageID) (st : Stage) (x : Channel S) : Prop :=
  ∃ sess, x.sessions.get m = some sess ∧ sess.stage = st

theorem join_stage (c : ConnRef) (y : Scope S) : (y.join sch c).sess.stage = y.sess.stage := by
  rw [join_sess]

theorem micros_attach {sess : Session S} {c : ConnRef}
    (hget : x.sessions.get m = some sess) (hmember : ∃ p, x.members.get p = some c)
    (hevt : (∃ p, evt = .peerChange ⟨p, some c⟩) ∨ sess.stage = .consuming ∨ sess.stage = .origin) :
    Micros sch luck evt x (x.put m (handlePeerAttached sch luck c ⟨sess, x.world⟩)) ∧
      (handlePeerAttached sch luck c ⟨sess, x.world⟩).sess.stage = sess.stage := by
  unfold handlePeerAttached
  split
  · exact ⟨.single (.act hget (.refl _)), rfl⟩
  rename_i hpeer
  have hpeer' : sess.peers.get (x.world.conns c).id = none := by simpa using hpeer
  have hstays := (quiet_drainPolls sch luck (join sch c ⟨sess, x.world⟩)).toStays
  refine ⟨.head (.join hget hpeer' hmember hevt) (.single (micro_put_put hstays)), ?_⟩
  rw [hstays.stage, join_stage]

/-- One round of the loop over the members. -/
def attachMember (sch : Scheme S C R P) (luck : Nat → Chance) (m : MessageID) (x : Channel S)
    (pid : PeerID) : Channel S :=
  match x.members.get pid with
  | some c => x.onSession m (handlePeerAttached sch luck c)
  | none => x

/-- The members are attached to a session that is new. -/
theorem micros_attachMembers {st : Stage} (hst : st = .consuming ∨ st = .origin) (hx : StageIs m st x) :
    Micros sch luck evt x (x.attachMembers sch luck m) ∧ StageIs m st (x.attachMembers sch luck m) := by
  have hround : ∀ x pid, StageIs m st x →
      Micros sch luck evt x (attachMember sch luck m x pid) ∧ StageIs m st (attachMember sch luck m x pid) := by
    rintro x pid ⟨sess, hget, hstage⟩
    unfold attachMember
    split
    · rename_i c hmember
      have hattach : Micros sch luck evt x
          (x.put m (handlePeerAttached sch luck c ⟨sess, x.world⟩)) ∧ _ :=
        micros_attach hget ⟨pid, hmember⟩ (.inr (hstage ▸ hst))
      simp only [onSession, hget]
      exact ⟨hattach.1, _, by simp, hattach.2.trans hstage⟩
    · exact ⟨.refl, sess, hget, hstage⟩
  have hloop := micros_foldl hround (x.members.range (luck x.world.tick).peers) (x.onWorld turn) hx
  exact ⟨.head (.aside (aside_turn x)) hloop.1, hloop.2⟩

/-! ### The handlers -/

theorem micros_flushParked (m : MessageID) (x : Channel S) : Micros sch luck evt x (x.flushParked sch m) := by
  unfold flushParked
  split
  · exact .refl
  rename_i group _
  have hloop : Micros sch luck evt x (group.streams.foldl (fun x c => x.onSession m
      (handleChunkStream sch c.peerID c.chunkId c.dataLength c.stream)) x) :=
    (micros_foldl (I := fun _ => True) (fun x c _ => ⟨micros_onSession m
      (fun y => Stays.of_background (background_handleChunkStream sch _ _ _ _ y)) x,
      trivial⟩) _ x trivial).1
  exact hloop.tail (.aside ⟨rfl, rfl, rfl, rfl, le_refl _⟩)

theorem stage_begin (m : MessageID) (preamble : Bytes) (origin : Bool) (strategy : S) (x : Channel S) :
    StageIs m (if origin then .origin else .consuming) (x.begin (x.newSession m preamble origin strategy)) :=
  ⟨x.newSession m preamble origin strategy, by simp [begin, newSession], rfl⟩

theorem micros_createRelaySession {preambleBytes : Bytes} {peer : PeerID}
    {routing : Bytes} (hget : x.sessions.get m = none)
    (h : x.createRelaySession sch luck m preambleBytes peer routing = .ok y) : Micros sch luck evt x y := by
  unfold createRelaySession at h
  split at h
  · cases h
  rename_i p _
  split at h
  · cases h
  rename_i strat hstrat
  cases h
  have hbegin : Micro sch luck evt (x.onWorld turn)
      ((x.onWorld turn).begin ((x.onWorld turn).newSession m preambleBytes false strat)) :=
    .begin hget (.inl ⟨rfl, _, _, hstrat⟩)
  refine .head (.aside (aside_turn x)) (.head hbegin ?_)
  refine (micros_attachMembers (.inl rfl) (stage_begin m preambleBytes false strat _)).1.trans ?_
  refine Relation.ReflTransGen.trans ?_ (.single (.aside (aside_observe _ _)))
  refine Relation.ReflTransGen.trans ?_ (micros_flushParked m _)
  split
  · exact .refl
  · exact micros_onSession m (fun y => (quiet_handleRoutingUpdate sch luck peer routing y).toStays) _

theorem micros_handleSessionOpen (peer : PeerID) (msg : SessOpen) (x : Channel S) :
    Micros sch luck evt x (x.handleSessionOpen sch luck peer msg) := by
  unfold handleSessionOpen
  split
  · split
    · exact .refl
    · exact micros_onSession _ (fun y => (quiet_handleRoutingUpdate sch luck peer _ y).toStays) x
  rename_i hget
  split
  · rename_i y hy
    exact micros_createRelaySession hget hy
  · exact .single (.aside (aside_observe _ x))

theorem micros_handleChunk (e : ChunkStream) (x : Channel S) : Micros sch luck evt x (x.handleChunk sch e) := by
  unfold handleChunk
  split
  · refine micros_onSession _ (fun y => Stays.of_background ?_) x
    exact (background_drainReads sch y).trans (background_handleChunkStream sch _ _ _ _ _)
  split
  · split <;> exact .single (.aside ⟨rfl, rfl, rfl, rfl, le_refl _⟩)
  · exact .single (.aside ⟨rfl, rfl, rfl, rfl, le_refl _⟩)

theorem micros_handlePeerBound (p : PeerID) (c : ConnRef) (x : Channel S) :
    Micros sch luck (.peerChange ⟨p, some c⟩) x (x.handlePeerBound sch luck p c) := by
  unfold handlePeerBound
  split
  · exact .refl
  refine .head (.member rfl) (micros_forSessions_of (I := fun x => x.members.get p = some c)
    (fun m x hmember => ?_) (by simp [onWorld]))
  unfold onSession
  split
  · exact ⟨.refl, hmember⟩
  · rename_i sess hget
    exact ⟨(micros_attach hget ⟨p, hmember⟩ (.inl ⟨p, rfl⟩)).1, hmember⟩

theorem leave_of_none {p : PeerID} (hget : x.sessions.get m = none) : x.leave sch luck m p = x := by
  simp [leave, onSession, disposeIfIdle, hget]

theorem aside_dropParked (luck : Nat → Chance) (p : PeerID) (x : Channel S) : Aside x (x.dropParked luck p) := by
  apply aside_forParked
  intro m group x
  refine Aside.trans (aside_cancelStreams (group.streams.filter (·.peerID == p)) .unspecified x) ?_
  dsimp only
  split <;> exact ⟨rfl, rfl, rfl, rfl, le_refl _⟩

/-- A peer that leaves the channel leaves every session. -/
theorem micros_handlePeerUnbound (p : PeerID) (x : Channel S) :
    Micros sch luck (.peerChange ⟨p, none⟩) x (x.handlePeerUnbound sch luck p) := by
  refine .head (.unmember rfl) (.head (.aside (aside_dropParked luck p _)) ?_)
  refine micros_forSessions (fun m x => ?_) _
  cases hget : x.sessions.get m with
  | none =>
    rw [leave_of_none hget]
  | some sess => exact .single (.leave hget (.inl rfl))

theorem disposeSession_of_none (hget : x.sessions.get m = none) (reason : Reason)
    (luck : Nat → Chance) : x.disposeSession luck m reason = x := by
  simp only [disposeSession, hget]

/-- `disposeIfIdle` disposes of the session or does nothing. -/
theorem disposeIfIdle_keeps {P : Channel S → Prop} (m : MessageID) (x : Channel S) (hx : P x)
    (hdisposed : P (x.disposeSession luck m .allPeersDone)) : P (x.disposeIfIdle luck m) := by
  unfold disposeIfIdle
  split
  · exact hx
  split
  · exact hdisposed
  · exact hx

theorem micros_disposeSession (m : MessageID) (reason : Reason) (hreason : reason ≠ .allPeersDone)
    (x : Channel S) : Micros sch luck evt x (x.disposeSession luck m reason) := by
  cases hget : x.sessions.get m with
  | none => rw [disposeSession_of_none hget]
  | some sess => exact .single (.dispose hget hreason)

/-- What disposing a session does: it leaves the map, its peers are told, its context ends. -/
theorem disposeSession_spec {sess : Session S} (hget : x.sessions.get m = some sess)
    (reason : Reason) (luck : Nat → Chance) :
    (x.disposeSession luck m reason).sessions = x.sessions.del m ∧
    (x.disposeSession luck m reason).members = x.members ∧
    (x.disposeSession luck m reason).phase = x.phase ∧
    ∃ w code, Called x.world w ∧
      (x.disposeSession luck m reason).world.core =
        { w with
          sessDone := w.sessDone.set sess.ref code
          life := Function.update w.life sess.ref
            { w.life sess.ref with removed := some reason } }.core ∧
      (x.disposeSession luck m reason).world.fresh = x.world.fresh := by
  let code := disposeCode sess.stage reason
  let u := { x with sessions := x.sessions.del m }.dropGroup m code
  have hu : u.sessions = x.sessions.del m ∧ u.members = x.members ∧ u.phase = x.phase ∧
      u.world.core = x.world.core ∧ u.world.fresh = x.world.fresh := by
    show (dropGroup m code _).sessions = _ ∧ (dropGroup m code _).members = _ ∧
      (dropGroup m code _).phase = _ ∧ (dropGroup m code _).world.core = _ ∧
      (dropGroup m code _).world.fresh = _
    unfold dropGroup
    split
    · rename_i group _
      obtain ⟨hcore, hfresh⟩ := core_cancelReads (fun c : ChunkStream => (c.stream, code)) group.streams x.world
      exact ⟨rfl, rfl, rfl, hcore, hfresh⟩
    · exact ⟨rfl, rfl, rfl, rfl, rfl⟩
  obtain ⟨hsessions, hmembers, hphase, hcore, hfresh⟩ := hu
  have hconns : u.world.conns = x.world.conns := by
    have h := congrArg conns hcore
    exact h
  obtain ⟨w, hcalled, hclose, hcfresh⟩ := closeWithCode_world luck code ⟨sess, u.world⟩
  have hdispose : x.disposeSession luck m reason =
      { u with world :=
        (((Scope.mk sess u.world).closeWithCode luck code).world.observe
          (.sessionDisposed m reason.text)).updLife sess.ref fun l =>
            { l with removed := some reason } } := by
    unfold disposeSession
    rw [hget]
  rw [hdispose]
  refine ⟨hsessions, hmembers, hphase, w, closeCause code, ?_, ?_, hcfresh.trans hfresh⟩
  · obtain ⟨hworld, hwfresh, hid, hdone⟩ := hcalled
    rw [hconns] at hid hdone
    exact ⟨by rw [hworld, hcore], hwfresh.trans hfresh, hid, hdone⟩
  have hlife : ((Scope.mk sess u.world).closeWithCode luck code).world.life = w.life := by
    have h := congrArg life hclose
    exact h
  show ({ ((Scope.mk sess u.world).closeWithCode luck code).world.core with
    life := Function.update ((Scope.mk sess u.world).closeWithCode luck code).world.life sess.ref
      { ((Scope.mk sess u.world).closeWithCode luck code).world.life sess.ref with
        removed := some reason } } : World S) = _
  rw [hclose, hlife]
  rfl

theorem get_disposeSession (luck : Nat → Chance) (m k : MessageID) (reason : Reason) (x : Channel S) :
    (x.disposeSession luck m reason).sessions.get k = if k = m then none else x.sessions.get k := by
  cases hget : x.sessions.get m with
  | none =>
    rw [disposeSession_of_none hget]
    split
    · rename_i hk
      rw [hk, hget]
    · rfl
  | some sess => rw [(disposeSession_spec hget reason luck).1, Map.get_del]

/-- A session that is left after one was disposed of was there before. -/
theorem get_of_disposeSession {luck : Nat → Chance} {m k : MessageID} {reason : Reason} {x : Channel S}
    {sess : Session S} (h : (x.disposeSession luck m reason).sessions.get k = some sess) :
    k ≠ m ∧ x.sessions.get k = some sess := by
  rw [get_disposeSession] at h
  split at h
  · cases h
  · rename_i hk
    exact ⟨hk, h⟩

theorem get_of_disposeIfIdle {luck : Nat → Chance} {m k : MessageID} {x : Channel S} {sess : Session S} :
    (x.disposeIfIdle luck m).sessions.get k = some sess → x.sessions.get k = some sess :=
  disposeIfIdle_keeps (P := fun y => y.sessions.get k = some sess → _) m x id fun h => (get_of_disposeSession h).2

/-- A session after a method of one of them is that one, or was there before. -/
theorem get_of_onSession {m k : MessageID} {f : Scope S → Scope S} {x : Channel S} {sess : Session S}
    (h : (x.onSession m f).sessions.get k = some sess) :
    (k = m ∧ ∃ old, x.sessions.get m = some old ∧ (f ⟨old, x.world⟩).sess = sess) ∨
      k ≠ m ∧ x.sessions.get k = some sess := by
  unfold onSession at h
  split at h
  · rename_i hnone
    refine .inr ⟨?_, h⟩
    rintro rfl
    cases hnone.symm.trans h
  rename_i old hold
  rw [put_sessions] at h
  split at h
  · rename_i hk
    exact .inl ⟨hk, old, hold, Option.some.inj h⟩
  · rename_i hk
    exact .inr ⟨hk, h⟩

theorem micros_handlePublish (m : MessageID) (strategy : S) (preamble : Bytes) (x : Channel S) :
    Micros sch luck (.publish m strategy preamble) x (x.handlePublish sch luck m strategy preamble) := by
  refine (micros_disposeSession m .replaced (by decide) x).trans ?_
  have hnone : (x.disposeSession luck m .replaced).sessions.get m = none := by
    rw [get_disposeSession, if_pos rfl]
  refine .head (.begin hnone (.inr ⟨rfl, rfl⟩)) ?_
  refine (micros_attachMembers (.inr rfl) (stage_begin m preamble true strategy _)).1.trans ?_
  refine (micros_onSession m (fun y => (quiet_drainPolls sch luck y).toStays) _).trans ?_
  exact .single (.aside (aside_observe _ _))

theorem expireSession_keeps {P : Channel S → Prop} (m : MessageID) (x : Channel S) (hx : P x)
    (hdisposed : P (x.disposeSession luck m .ttlExpired)) : P (x.expireSession luck m) := by
  unfold expireSession
  split
  · exact hx
  split
  · exact hdisposed
  · exact hx

theorem aside_expireParked (x : Channel S) : Aside x (x.expireParked luck) := by
  refine aside_forParked luck (fun m group x => ?_) x
  split
  · exact Aside.trans (aside_cancelStreams group.streams .refused x) ⟨rfl, rfl, rfl, rfl, le_refl _⟩
  · exact ⟨rfl, rfl, rfl, rfl, le_refl _⟩

theorem micros_expireDue (x : Channel S) : Micros sch luck evt x (x.expireDue luck) := by
  refine (micros_forSessions (fun m x => ?_) x).tail (.aside (aside_expireParked _))
  exact expireSession_keeps m x .refl (micros_disposeSession m .ttlExpired (by decide) x)

/-- The two events whose handling an invariant has to look at as a whole: the result of a send and the
result of a decode leave the inbox with it. -/
def IsResult : Event S → Bool
  | .chunkSent _ _ _ _ _ _ | .decoded _ _ _ => true
  | _ => false

/-- **Handling an event is a sequence of moves.** -/
theorem micros_handle (h : IsResult evt = false) (x : Channel S) : Micros sch luck evt x (x.handle sch luck evt) := by
  cases evt with
  | expiry => exact micros_expireDue x
  | readDone m =>
    exact micros_onSession m (fun y => Stays.of_background (background_drainReads sch y)) x
  | chunkStream e => exact micros_handleChunk e x
  | chunkData m peer chunkID payload =>
    exact micros_receives m (receives_handleChunkData sch luck peer chunkID payload) (by exact trivial) x
  | sessionOpen peer msg => exact micros_handleSessionOpen peer msg x
  | peerChange e =>
    obtain ⟨p, ref⟩ := e
    cases ref with
    | some c => exact micros_handlePeerBound p c x
    | none => exact micros_handlePeerUnbound p x
  | publish m strategy preamble => exact micros_handlePublish m strategy preamble x
  | chunkSent m peer handle err size sender | decoded m payload sender => cases h
  | routingUpdate peer m data =>
    exact micros_onSession m (fun y => (quiet_handleRoutingUpdate sch luck peer data y).toStays) x
  | peerReconstructed m p =>
    show Micros sch luck _ x ((x.onSession m _).disposeIfIdle luck m)
    cases hget : x.sessions.get m with
    | none =>
      simp only [onSession, disposeIfIdle, hget]
      exact .refl
    | some sess =>
      simp only [onSession, hget]
      exact .single (.complete hget rfl)
  | peerSessionEnded m p c =>
    show Micros sch luck _ x (if x.members.get p ≠ some c then x else x.leave sch luck m p)
    split
    · exact .refl
    rename_i hmember
    cases hget : x.sessions.get m with
    | none => rw [leave_of_none hget]
    | some sess => exact .single (.leave hget (.inr ⟨c, rfl, by simpa using hmember⟩))
  | verifyResult m peer chunkID payload verdict =>
    exact micros_receives m (receives_handleVerifyResult sch luck peer chunkID payload verdict) (by exact trivial) x

/-! ## The event that is due -/

/-- The event the actor handles next, if it is in its loop and waits for no session. -/
def due (x : Channel S) : Option (Event S) :=
  if x.phase = .running && x.quiet then x.world.inbox.head? else none

/-- A test of the event that a step takes from the inbox, passed if it takes none. -/
def onDue (x : Channel S) (test : Event S → Bool) : Op S → Bool
  | .next => x.due.all test
  | _ => true

theorem next_of_none (h : x.due = none) : x.next sch luck = x := by
  unfold next
  split
  · rfl
  rename_i evt rest hinbox
  split
  · rename_i hready
    rw [due, if_pos hready, hinbox] at h
    cases h
  · rfl

theorem next_of_some (sch : Scheme S C R P) (luck : Nat → Chance) (h : x.due = some evt) :
    ∃ rest, x.world.inbox = evt :: rest ∧ x.phase = .running ∧
      x.next sch luck = (x.onWorld fun w => { w with inbox := rest }).handle sch luck evt := by
  unfold due at h
  split at h
  · rename_i hready
    obtain ⟨rest, hinbox⟩ := List.head?_eq_some_iff.mp h
    refine ⟨rest, hinbox, ?_, ?_⟩
    · rw [Bool.and_eq_true] at hready
      exact of_decide_eq_true hready.1
    unfold next
    rw [hinbox]
    exact if_pos hready
  · cases h

end Channel

/-! ## The other goroutines -/

/-- The events the channel, its publishers and the goroutines of its sessions and connections make
themselves. -/
def Event.Internal (sch : Scheme S C R P) : Event S → Prop
  | .expiry | .readDone _ | .chunkData _ _ _ _ | .chunkSent _ _ _ _ _ _ | .decoded _ _ _ => True
  | .publish _ strategy _ => ∃ payload p, sch.newOrigin payload = some (strategy, p)
  | _ => False

namespace Channel

/-- **One step of a reader.** -/
inductive ReaderMove (x : Channel S) (rd : Reader) : ReaderStep → Channel S → Prop
  | rest {st : ReaderStep} : ReaderMove x rd st x
  | got {payload : Bytes} {kept : ChunkPayload} (hmem : rd ∈ x.world.readers) (hphase : rd.phase = .reading)
      (hlen : payload.length = rd.dataLen) : ReaderMove x rd (.got payload) (x.setReader rd (.read kept))
  | failed {code : Code} (hmem : rd ∈ x.world.readers) (hphase : rd.phase = .reading) :
      ReaderMove x rd (.failed code) ((x.onWorld (·.cancelRead rd.stream code)).setReader rd .closing)
  | hand {payload : ChunkPayload} (hmem : rd ∈ x.world.readers) (hphase : rd.phase = .read payload) :
      ReaderMove x rd .hand ((x.onWorld fun w => { w with
        inbox := w.inbox ++ [.chunkData rd.messageID rd.peer rd.chunkID payload] }).setReader rd .closing)
  | drop {payload : ChunkPayload} (hmem : rd ∈ x.world.readers) (hphase : rd.phase = .read payload) :
      ReaderMove x rd .drop (x.setReader rd .closing)
  | release (hmem : rd ∈ x.world.readers) (hphase : rd.phase = .closing) :
      ReaderMove x rd .release (x.setReader rd .released)
  | announce (hmem : rd ∈ x.world.readers) (hphase : rd.phase = .released) :
      ReaderMove x rd .announce
        ((x.onWorld fun w => { w with inbox := w.inbox ++ [.readDone rd.messageID] }).endReader rd)
  | quit (hmem : rd ∈ x.world.readers) (hphase : rd.phase = .released)
      (hended : x.world.ended rd.session = true) : ReaderMove x rd .quit (x.endReader rd)

theorem post_eq {x : Channel S} (h : x.world.inbox.length < channelInboxCap) (evt : Event S) :
    x.post evt = x.onWorld fun w => { w with inbox := w.inbox ++ [evt] } := if_pos h

/-- A step of a reader is one of its moves. -/
theorem readerMove (x : Channel S) (rd : Reader) (st : ReaderStep) : ReaderMove x rd st (x.readerStep rd st) := by
  unfold readerStep
  split
  · rename_i hmem
    split
    · rename_i payload hphase
      split
      · rename_i hlen
        exact .got hmem hphase hlen
      · exact .rest
    · rename_i code hphase
      exact .failed hmem hphase
    · rename_i payload hphase
      split
      · rename_i hroom
        rw [post_eq hroom]
        exact .hand hmem hphase
      · exact .rest
    · rename_i payload hphase
      split
      · exact .drop hmem hphase
      · exact .rest
    · rename_i hphase
      exact .release hmem hphase
    · rename_i hphase
      split
      · rename_i hroom
        rw [post_eq hroom]
        exact .announce hmem hphase
      · exact .rest
    · rename_i hphase
      split
      · rename_i hended
        exact .quit hmem hphase hended
      · exact .rest
    · exact .rest
  · exact .rest

/-- **One step of the goroutines around the actor.** -/
inductive Beat (sch : Scheme S C R P) (x : Channel S) (op : Op S) : Channel S → Prop
  | rest : Beat sch x op x
  | clock {ctx : Bool} {now : Nat} {sub : Option Subscription}
      (hctx : x.world.ctxDone = true → ctx = true) :
      Beat sch x op { x with subCh := sub, world := { x.world with ctxDone := ctx, now := now } }
  /-- An event is sent; a timer, or the hand of a data loop, is done with. -/
  | post {evt : Event S} {timers : List Nat} {conns : ConnRef → Conn} {hands : List Hand}
      (hevt : (op = .post evt ∧ x.external evt = true) ∨ evt.Internal sch)
      (hresult : ∀ m payload sender, evt ≠ .decoded m payload sender)
      (hids : ∀ c, (conns c).id = (x.world.conns c).id) :
      Beat sch x op (x.onWorld fun w =>
        { w with inbox := w.inbox ++ [evt], timers := timers, conns := conns, hands := hands })
  | decoded {d : Decoder} (hd : d ∈ x.world.decoders) :
      Beat sch x op (x.onWorld fun w => { w with
        inbox := w.inbox ++ [.decoded d.messageID d.result d.session]
        decoders := w.decoders.erase d })
  | quit {d : Decoder} (hd : d ∈ x.world.decoders) (hended : x.world.ended d.session = true) :
      Beat sch x op (x.onWorld fun w => { w with decoders := w.decoders.erase d })
  | reader {rd : Reader} {st : ReaderStep} {y : Channel S} (hop : op = .reader rd st)
      (h : ReaderMove x rd st y) : Beat sch x op y
  | conns {conns : ConnRef → Conn} {queued : List Queued} {hands : List Hand} {fresh : Nat}
      (hids : ∀ c, (conns c).id = (x.world.conns c).id) (hfresh : x.world.fresh ≤ fresh) :
      Beat sch x op (x.onWorld fun w =>
        { w with conns := conns, queued := queued, hands := hands, fresh := fresh })

theorem ConnStep.run_id (st : ConnStep) (c : Conn) : (st.run c).id = c.id := by
  cases st <;> simp only [ConnStep.run, Conn.ctrlNext, Conn.ctrlWake, Conn.ctrlPush, Conn.ctrlAbandon,
    Conn.dataApply, Conn.dataScan, Conn.dataWake, Conn.dataStop, Conn.cancel, Conn.stop, Conn.announce]
  all_goals (repeat' split) <;> rfl

theorem ids_updConn {f : Conn → Conn} (hf : ∀ c, (f c).id = c.id) (c : ConnRef) (w : World S)
    (d : ConnRef) : ((w.updConn c f).conns d).id = (w.conns d).id := by
  by_cases hd : d = c
  · subst hd
    simp [updConn, hf]
  · simp [updConn, hd]

theorem ids_setData (phase : DataPhase) (c : ConnRef) (w : World S) (d : ConnRef) :
    ((w.updConn c fun conn => { conn with data := phase }).conns d).id = (w.conns d).id :=
  ids_updConn (f := fun conn => { conn with data := phase }) (fun _ => rfl) c w d

theorem beat_post {sch : Scheme S C R P} {x : Channel S} {op : Op S} {evt : Event S}
    (hevt : (op = .post evt ∧ x.external evt = true) ∨ evt.Internal sch)
    (hresult : ∀ m payload sender, evt ≠ .decoded m payload sender) : Beat sch x op (x.post evt) := by
  unfold post
  split
  · exact .post hevt hresult fun _ => rfl
  · exact .rest

/-- What is not a step of the actor is a beat. -/
theorem beat_step (sch : Scheme S C R P) (luck : Nat → Chance) {op : Op S} (hnext : op ≠ .next)
    (hclose : op ≠ .closeAll) (hfinish : op ≠ .finish) (x : Channel S) : Beat sch x op (x.step sch luck op) := by
  cases op with
  | next => exact absurd rfl hnext
  | closeAll => exact absurd rfl hclose
  | finish => exact absurd rfl hfinish
  | post evt =>
    show Beat sch x _ (if x.external evt then x.post evt else x)
    split
    · rename_i hexternal
      refine beat_post (.inl ⟨rfl, hexternal⟩) ?_
      rintro m payload sender rfl
      cases hexternal
    · exact .rest
  | publish m payload =>
    show Beat sch x _ (x.publish sch m payload)
    unfold publish
    split
    · exact .rest
    rename_i strat preamble hnew
    split
    · exact .rest
    · exact beat_post (.inr ⟨payload, preamble, hnew⟩) nofun
  | stop => exact .clock fun _ => rfl
  | tick elapsed | receive => exact .clock id
  | fire deadline =>
    show Beat sch x _ (x.fire deadline)
    unfold fire
    split
    · rename_i hdue
      rw [post_eq hdue.2.2]
      exact .post (.inr trivial) nofun fun _ => rfl
    · exact .rest
  | decodePost d =>
    show Beat sch x _ (x.decodePost d)
    unfold decodePost
    split
    · rename_i hd
      rw [post_eq hd.2]
      exact .decoded hd.1
    · exact .rest
  | decodeQuit d =>
    show Beat sch x _ (x.decodeQuit d)
    unfold decodeQuit
    split
    · rename_i hd
      exact .quit hd.1 hd.2
    · exact .rest
  | reader rd st => exact .reader rfl (readerMove x rd st)
  | conn c st => exact .conns (ids_updConn st.run_id c x.world) (le_refl _)
  | foreign c call =>
    have hrequest : ∀ (call : CtrlOutState.SessionCall) d,
        ((x.world.request c call).conns d).id = (x.world.conns d).id := fun call =>
      ids_updConn (f := Conn.request call) (fun _ => rfl) c x.world
    show Beat sch x _ (x.onWorld (foreignCall c call))
    unfold foreignCall onWorld
    dsimp only
    split <;> split
    · exact .rest
    · exact .conns (hrequest _) (le_succ _)
    all_goals first | exact .rest | exact .conns (hrequest _) (le_refl _)
  | dataLook c =>
    show Beat sch x _ (x.onWorld (dataLook c))
    unfold dataLook onWorld
    dsimp only
    split
    · exact .conns (ids_setData _ c x.world) (le_refl _)
    · split <;> exact .conns (ids_setData _ c x.world) (le_refl _)
    · exact .rest
  | dataSend c ok => exact .conns (fun _ => rfl) (le_refl _)
  | dataPost c =>
    show Beat sch x _ (x.dataPost c)
    unfold dataPost
    split
    · exact .rest
    rename_i h _
    split
    · exact .rest
    split
    · rename_i hroom
      dsimp only
      rw [post_eq hroom]
      exact .post (.inr trivial) nofun (ids_setData .draining h.conn x.world)
    · exact .rest
  | dataQuit c =>
    show Beat sch x _ (x.dataQuit c)
    unfold dataQuit
    split
    · exact .rest
    rename_i h _
    split
    · exact .conns (ids_setData .draining h.conn x.world) (le_refl _)
    · exact .rest

end Channel

/-- What belongs to the actor alone is untouched. -/
structure Outside (x y : Channel S) : Prop where
  sessions : y.sessions = x.sessions
  members : y.members = x.members
  parked : y.parked = x.parked
  channelID : y.world.channelID = x.world.channelID
  sessDone : y.world.sessDone = x.world.sessDone
  life : y.world.life = x.world.life
  sends : y.world.sends = x.world.sends
  fresh : x.world.fresh ≤ y.world.fresh

namespace Channel

/-- **No other goroutine touches what belongs to the actor.** -/
theorem outside_step (sch : Scheme S C R P) (luck : Nat → Chance) (op : Op S) (hnext : op ≠ .next)
    (hclose : op ≠ .closeAll) (x : Channel S) : Outside x (x.step sch luck op) := by
  by_cases hfinish : op = .finish
  · subst hfinish
    show Outside x x.finish
    obtain heq | ⟨_, _, streams, _, heq⟩ := x.finish_cases
    · rw [heq]
      exact ⟨rfl, rfl, rfl, rfl, rfl, rfl, rfl, le_refl _⟩
    have haside := aside_cancelStreams streams .unspecified x
    have hchannel := congrArg channelID haside.world
    have hdone := congrArg sessDone haside.world
    have hlife := congrArg life haside.world
    have hsends := congrArg sends haside.world
    rw [heq]
    exact ⟨rfl, rfl, rfl, hchannel, hdone, hlife, hsends, haside.fresh⟩
  · have hbeat := beat_step sch luck hnext hclose hfinish x
    generalize x.step sch luck op = y at hbeat ⊢
    cases hbeat with
    | reader _ h => cases h <;> exact ⟨rfl, rfl, rfl, rfl, rfl, rfl, rfl, le_refl _⟩
    | conns _ hfresh => exact ⟨rfl, rfl, rfl, rfl, rfl, rfl, rfl, hfresh⟩
    | _ => exact ⟨rfl, rfl, rfl, rfl, rfl, rfl, rfl, le_refl _⟩

end Channel

end EthP2P.Broadcast
