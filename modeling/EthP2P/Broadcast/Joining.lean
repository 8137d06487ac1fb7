/-
# EthP2P.Broadcast.Joining — the members of a channel are attached to its sessions

The members of a channel and the peers of a session are separate maps.  The handler of an OPEN relies on
their agreement: for a session that exists it only applies the routing of the opener, which a strategy ignores
for a peer it was not told of.

A new session is attached to all members, and a new member to all sessions, so a member is missing in a
session only after its SESS stream for that message ended while the session went on (`Lasts` excludes this).
`joinInv_step` is the invariant, and `open_merges` what it gives to the handler of an OPEN.
-/
import EthP2P.Broadcast.Ancestry
import EthP2P.Broadcast.Attachment

namespace EthP2P.Broadcast

open Lib Wire Scope Channel World

variable {S C R P : Type}

/-! ## The methods of a session -/

namespace Scope

variable (sch : Scheme S C R P) (luck : Nat → Chance) {p : PeerID} {x y z : Scope S}

/-- If `p` is attached, it stays so. -/
def Retains (p : PeerID) (x y : Scope S) : Prop :=
  (x.sess.peers.get p).isSome = true → (y.sess.peers.get p).isSome = true

theorem Retains.trans (h : Retains p x y) (h' : Retains p y z) : Retains p x z := fun hx => h' (h hx)

theorem Retains.of_peers (h : y.sess.peers = x.sess.peers) : Retains p x y := by
  intro hx
  rw [h]
  exact hx

theorem Retains.of_quiet (h : Quiet x y) : Retains p x y := .of_peers h.peers

theorem Retains.of_background (h : Background x y) : Retains p x y := .of_peers (Stays.of_background h).peers

theorem Retains.of_set {q : PeerID} {sp : SessionPeer} (h : y.sess.peers = x.sess.peers.set q sp) :
    Retains p x y := by
  intro hx
  rw [h, Map.get_set]
  split
  · rfl
  · exact hx

/-- Receiving a chunk keeps the peers of a session. -/
theorem Retains.of_receives (h : Receives sch luck x y) : Retains p x y := by
  cases h with
  | more h => exact .of_quiet h
  | complete z h _ h' =>
    obtain ⟨w, _, hstart⟩ := startDecode_spec sch luck z
    have hpeers : (z.startDecode sch luck).sess.peers = z.sess.peers := by rw [hstart]
    exact ((Retains.of_quiet h).trans (.of_peers hpeers)).trans (.of_quiet h')

theorem retains_handlePeerAttached (c : ConnRef) (x : Scope S) : Retains p x (x.handlePeerAttached sch luck c) := by
  unfold handlePeerAttached
  split
  · exact .of_peers rfl
  · have hjoin : Retains p x (x.join sch c) := .of_set (by rw [join_sess])
    exact hjoin.trans (.of_quiet (quiet_drainPolls sch luck _))

/-- The peer of the connection is attached. -/
theorem attached_handlePeerAttached (c : ConnRef) (x : Scope S) :
    ((x.handlePeerAttached sch luck c).sess.peers.get (x.world.conns c).id).isSome = true := by
  unfold handlePeerAttached
  split
  · rename_i hpeer
    simpa using hpeer
  · rw [(quiet_drainPolls sch luck (x.join sch c)).peers, join_sess]
    simp

theorem ids_handlePeerAttached (c d : ConnRef) (x : Scope S) :
    ((x.handlePeerAttached sch luck c).world.conns d).id = (x.world.conns d).id := by
  unfold handlePeerAttached
  split
  · rfl
  rw [(quiet_drainPolls sch luck (x.join sch c)).id]
  obtain ⟨routing, obs, hworld⟩ := join_world sch c x
  rw [hworld]
  exact ids_updConn (f := Conn.request _) (fun _ => rfl) c _ d

theorem retains_handlePeerCompleted (q : PeerID) (x : Scope S) : Retains p x (x.handlePeerCompleted sch q) := by
  rcases handlePeerCompleted_spec sch q x with hsame | ⟨sp, _, hcore, _⟩
  · rw [hsame]
    exact .of_peers rfl
  · have hpeers := congrArg Session.peers hcore
    exact .of_set hpeers

/-- Dropping another peer keeps `p`. -/
theorem retains_handlePeerDropped {q : PeerID} (hq : p ≠ q) (x : Scope S) :
    Retains p x (x.handlePeerDropped sch q) := by
  have hpeers : (x.handlePeerDropped sch q).sess.peers = x.sess.peers.del q := by
    have hcore := congrArg Session.peers (handlePeerDropped_spec sch q x).1
    exact hcore
  intro hx
  rw [hpeers, Map.get_del, if_neg hq]
  exact hx

end Scope

/-! ## The handlers -/

namespace Channel

variable {sch : Scheme S C R P} {luck : Nat → Chance} {x y : Channel S} {m k : MessageID} {p : PeerID}

/-- If there is a session of `m`, then `p` is attached to it. -/
def Includes (x : Channel S) (m : MessageID) (p : PeerID) : Prop :=
  ∀ sess, x.sessions.get m = some sess → (sess.peers.get p).isSome = true

theorem Includes.of_get (hx : x.Includes m p)
    (h : ∀ sess, y.sessions.get m = some sess → x.sessions.get m = some sess) : y.Includes m p :=
  fun sess hget => hx sess (h sess hget)

theorem Includes.of_same (hx : x.Includes m p) (h : y.sessions = x.sessions) : y.Includes m p :=
  hx.of_get fun _ hget => h ▸ hget

theorem Includes.put {z : Scope S} (hx : k ≠ m → x.Includes m p)
    (hz : k = m → (z.sess.peers.get p).isSome = true) : (x.put k z).Includes m p := by
  intro sess hget
  rw [put_sessions] at hget
  split at hget
  · rename_i hk
    cases hget
    exact hz hk.symm
  · rename_i hk
    exact hx (fun h => hk h.symm) sess hget

section

variable (hx : x.Includes m p)
include hx

/-- A method that retains the peer keeps it included. -/
theorem Includes.onSession {f : Scope S → Scope S} (k : MessageID)
    (hf : k = m → ∀ y, Retains p y (f y)) : (x.onSession k f).Includes m p := by
  unfold Channel.onSession
  split
  · exact hx
  rename_i sess hget
  refine Includes.put (fun _ => hx) fun hk => hf hk _ ?_
  subst hk
  exact hx sess hget

theorem Includes.disposeSession (luck : Nat → Chance) (k : MessageID) (reason : Reason) :
    (x.disposeSession luck k reason).Includes m p := hx.of_get fun _ hget => (get_of_disposeSession hget).2

theorem Includes.disposeIfIdle (luck : Nat → Chance) (k : MessageID) : (x.disposeIfIdle luck k).Includes m p :=
  hx.of_get fun _ => get_of_disposeIfIdle

theorem Includes.leave {q : PeerID} (h : k = m → p ≠ q) : (x.leave sch luck k q).Includes m p := by
  have hdropped := hx.onSession k fun hk => retains_handlePeerDropped sch (h hk)
  exact hdropped.disposeIfIdle luck k

end

/-- Without `p` the session of `m` has no work left. -/
def Ends (x : Channel S) (m : MessageID) (p : PeerID) : Prop :=
  ∀ sess ∈ x.sessions.get m, Session.idle { sess with peers := sess.peers.del p } = true

instance (x : Channel S) (m : MessageID) (p : PeerID) : Decidable (x.Ends m p) :=
  inferInstanceAs (Decidable (∀ sess ∈ x.sessions.get m, _))

/-- The peer's leaving ends the session. -/
theorem Ends.leave (h : x.Ends m p) : (x.leave sch luck m p).sessions.get m = none := by
  cases hget : x.sessions.get m with
  | none => rw [leave_of_none hget, hget]
  | some sess =>
    have hidle : (handlePeerDropped sch p ⟨sess, x.world⟩).sess.idle = true := by
      have hcore := congrArg Session.idle (handlePeerDropped_spec sch p ⟨sess, x.world⟩).1
      exact hcore.trans (h sess hget)
    have hdropped : (x.onSession m (handlePeerDropped sch p)).sessions.get m =
        some (handlePeerDropped sch p ⟨sess, x.world⟩).sess := by
      unfold onSession
      rw [hget]
      simp
    unfold Channel.leave disposeIfIdle
    simp only [hdropped, hidle, if_true]
    rw [get_disposeSession, if_pos rfl]

theorem Includes.foldl {A : Type*} {f : Channel S → A → Channel S}
    (hf : ∀ x a, x.Includes m p → (f x a).Includes m p) (l : List A) (hx : x.Includes m p) :
    (l.foldl f x).Includes m p :=
  foldl_rel (r := fun x y : Channel S => x.Includes m p → y.Includes m p) (fun _ h => h)
    (fun h h' hx => h' (h hx)) hf l x hx

theorem Includes.forSessions {body : MessageID → Channel S → Channel S} (hx : x.Includes m p)
    (luck : Nat → Chance) (hbody : ∀ k x, x.Includes m p → (body k x).Includes m p) :
    (x.forSessions luck body).Includes m p :=
  Includes.foldl (fun x k hx => hbody k x hx) _ (hx.of_same rfl)

theorem includes_attachMember (k : MessageID) (q : PeerID) (hx : x.Includes m p) :
    (attachMember sch luck k x q).Includes m p := by
  unfold attachMember
  split
  · rename_i c _
    exact hx.onSession k fun _ => retains_handlePeerAttached sch luck c
  · exact hx

theorem attachMembers_eq (k : MessageID) (x : Channel S) : x.attachMembers sch luck k =
    (x.members.range (luck x.world.tick).peers).foldl (attachMember sch luck k) (x.onWorld turn) := rfl

theorem Includes.attachMembers (hx : x.Includes m p) (luck : Nat → Chance) (k : MessageID) :
    (x.attachMembers sch luck k).Includes m p := by
  rw [attachMembers_eq]
  exact Includes.foldl (fun x q hx => includes_attachMember k q hx) _ (hx.of_same rfl)

theorem attachMember_frame (sch : Scheme S C R P) (luck : Nat → Chance) (k : MessageID) (q : PeerID) (x : Channel S) :
    (attachMember sch luck k x q).members = x.members ∧
      ∀ d, ((attachMember sch luck k x q).world.conns d).id = (x.world.conns d).id := by
  unfold attachMember
  split
  · rename_i c _
    refine ⟨members_onSession _ x, fun d => ?_⟩
    unfold onSession
    split
    · rfl
    · exact ids_handlePeerAttached sch luck c d _
  · exact ⟨rfl, fun _ => rfl⟩

variable {c : ConnRef}

/-- **Every member is attached to a new session.** -/
theorem includes_attachMembers (hmember : x.members.get p = some c)
    (hid : (x.world.conns c).id = p) (luck : Nat → Chance) (m : MessageID) :
    (x.attachMembers sch luck m).Includes m p := by
  rw [attachMembers_eq]
  generalize hl : x.members.range (luck x.world.tick).peers = l
  have hp : p ∈ l := by
    rw [← hl, Map.mem_range]
    exact Map.mem_keys_of_get hmember
  -- members and IDs are the same in every round
  have hframe := foldl_rel (f := attachMember sch luck m)
    (r := fun x y : Channel S => y.members = x.members ∧ ∀ d, (y.world.conns d).id = (x.world.conns d).id)
    (fun _ => ⟨rfl, fun _ => rfl⟩) (fun h h' => ⟨h'.1.trans h.1, fun d => (h'.2 d).trans (h.2 d)⟩)
    (fun x q => attachMember_frame sch luck m q x) l (x.onWorld turn)
  have hvisit := foldl_visits (f := attachMember sch luck m)
    (p := fun q (y : Channel S) => ∀ c, y.members.get q = some c → (y.world.conns c).id = q → y.Includes m q)
    (fun y q c hc hq => ?_) (fun y q r hy c hc hr => ?_) hp (x.onWorld turn)
  · refine hvisit c ?_ ?_
    · rw [hframe.1]
      exact hmember
    · rw [hframe.2]
      exact hid
  · obtain ⟨hmembers, hids⟩ := attachMember_frame sch luck m q y
    rw [hmembers] at hc
    rw [hids] at hq
    unfold attachMember
    rw [hc]
    dsimp only
    unfold onSession
    split
    · rename_i hnone
      intro sess hget
      rw [hnone] at hget
      cases hget
    rename_i sess _
    refine Includes.put (fun h => absurd rfl h) fun _ => ?_
    have hattached := attached_handlePeerAttached sch luck c ⟨sess, y.world⟩
    rw [hq] at hattached
    exact hattached
  · obtain ⟨hmembers, hids⟩ := attachMember_frame sch luck m q y
    rw [hmembers] at hc
    rw [hids] at hr
    exact includes_attachMember m q (hy c hc hr)

section

variable (hx : x.Includes m p)
include hx

theorem Includes.flushParked (k : MessageID) : (x.flushParked sch k).Includes m p := by
  unfold Channel.flushParked
  split
  · exact hx
  · refine Includes.of_same (Includes.foldl (fun x c hx => ?_) _ hx) rfl
    exact hx.onSession k fun _ y => .of_background (background_handleChunkStream sch _ _ _ _ y)

theorem Includes.begin {sess : Session S} (h : sess.messageID ≠ m) : (x.begin sess).Includes m p := by
  refine hx.of_get fun sess' hget => ?_
  rw [begin_sessions, if_neg fun hm => h hm.symm] at hget
  exact hget

theorem Includes.handleChunk (e : ChunkStream) : (x.handleChunk sch e).Includes m p := by
  unfold Channel.handleChunk
  split
  · refine hx.onSession _ fun _ y => .of_background ?_
    exact (background_drainReads sch y).trans (background_handleChunkStream sch _ _ _ _ _)
  split
  · split <;> exact hx.of_same rfl
  · exact hx.of_same rfl

theorem Includes.handlePeerBound (q : PeerID) (d : ConnRef) : (x.handlePeerBound sch luck q d).Includes m p := by
  unfold Channel.handlePeerBound
  split
  · exact hx
  have hset : ({ x with members := x.members.set q d } : Channel S).Includes m p := hx.of_same rfl
  exact hset.forSessions luck fun k x hx => hx.onSession k fun _ => retains_handlePeerAttached sch luck d

theorem Includes.handlePeerUnbound {q : PeerID} (hq : p ≠ q) : (x.handlePeerUnbound sch luck q).Includes m p := by
  have hparked : (dropParked luck q { x with members := x.members.del q }).Includes m p :=
    hx.of_same (aside_dropParked luck q { x with members := x.members.del q }).sessions
  exact hparked.forSessions luck fun k x hx => hx.leave fun _ => hq

theorem Includes.takeResult (k : MessageID) (payload : Option Bytes) (sender : SessionRef) :
    ((x.onWorld fun w => w.updLife sender fun l => { l with handled := true }).takeResult luck k payload).Includes
      m p := by
  unfold Channel.takeResult
  split
  · exact hx.of_same rfl
  rename_i sess hget
  split
  · split
    · exact hx.of_same rfl
    rename_i bytes
    have hsessions : (deliverMessage k bytes
        (x.onWorld fun w => w.updLife sender fun l => { l with handled := true })).sessions =
        x.sessions := (deliverMessage_spec k bytes _).1
    refine Includes.disposeIfIdle (Includes.put (fun _ => hx.of_same hsessions) fun hk => ?_) luck k
    subst hk
    exact hx sess hget
  · exact hx.of_same rfl

variable {c : ConnRef} (hmember : x.members.get p = some c) (hid : (x.world.conns c).id = p)
include hmember hid

/-- A session that is begun and attached to the members includes each of them. -/
theorem Includes.begin_attach (sess : Session S) (luck : Nat → Chance) :
    ((x.begin sess).attachMembers sch luck sess.messageID).Includes m p := by
  by_cases hm : sess.messageID = m
  · rw [hm]
    have hmember' : (x.begin sess).members.get p = some c := hmember
    exact includes_attachMembers hmember' hid luck m
  · exact (hx.begin hm).attachMembers luck _

/-- A new session has the members of the channel. -/
theorem includes_createRelaySession {preamble : Bytes} {q : PeerID} {routing : Bytes}
    (h : x.createRelaySession sch luck k preamble q routing = .ok y) : y.Includes m p := by
  unfold createRelaySession at h
  split at h
  · cases h
  split at h
  · cases h
  rename_i strat _
  cases h
  have hturn : (x.onWorld turn).Includes m p := hx.of_same rfl
  have hattached : (((x.onWorld turn).begin
      ((x.onWorld turn).newSession k preamble false strat)).attachMembers sch luck k).Includes m p :=
    hturn.begin_attach hmember hid ((x.onWorld turn).newSession k preamble false strat) luck
  refine Includes.of_same (Includes.flushParked ?_ k) rfl
  split
  · exact hattached
  · exact hattached.onSession k fun _ y => .of_quiet (quiet_handleRoutingUpdate sch luck q routing y)

theorem includes_handleSessionOpen (q : PeerID) (msg : SessOpen) :
    (x.handleSessionOpen sch luck q msg).Includes m p := by
  unfold handleSessionOpen
  split
  · split
    · exact hx
    · exact hx.onSession _ fun _ y => .of_quiet (quiet_handleRoutingUpdate sch luck q _ y)
  split
  · rename_i y hy
    exact includes_createRelaySession hx hmember hid hy
  · exact hx.of_same rfl

/-- The session that a new one replaces is disposed first. -/
theorem includes_handlePublish (k : MessageID) (strategy : S) (preamble : Bytes) :
    (x.handlePublish sch luck k strategy preamble).Includes m p := by
  have hdisposed := hx.disposeSession luck k .replaced
  have hmembers : (x.disposeSession luck k .replaced).members.get p = some c := by
    cases hget : x.sessions.get k with
    | none =>
      rw [disposeSession_of_none hget]
      exact hmember
    | some sess =>
      rw [(disposeSession_spec hget .replaced luck).2.1]
      exact hmember
  have hids : ((x.disposeSession luck k .replaced).world.conns c).id = p := by
    rw [ids_of_shell (shell_disposeSession .replaced x)]
    exact hid
  unfold handlePublish
  generalize x.disposeSession luck k .replaced = y at hdisposed hmembers hids ⊢
  have hattached : ((y.begin (y.newSession k preamble true strategy)).attachMembers sch luck k).Includes m p :=
    hdisposed.begin_attach hmembers hids (y.newSession k preamble true strategy) luck
  exact Includes.of_same (hattached.onSession k fun _ y => .of_quiet (quiet_drainPolls sch luck y)) rfl

/-- **A member stays attached**, whatever is handled, unless it is unbound or the end of its SESS stream takes
it out of the session. -/
theorem includes_handle {evt : Event S} (hbound : evt ≠ .peerChange ⟨p, none⟩)
    (hended : evt = .peerSessionEnded m p c → x.Ends m p) :
    (x.handle sch luck evt).Includes m p := by
  cases evt with
  | expiry =>
    refine Includes.of_same (hx.forSessions luck fun k x hx => ?_) (aside_expireParked _).sessions
    exact expireSession_keeps (P := (Includes · m p)) k x hx (hx.disposeSession luck k .ttlExpired)
  | readDone k => exact hx.onSession k fun _ y => .of_background (background_drainReads sch y)
  | chunkStream e => exact hx.handleChunk e
  | chunkData k q chunkID data =>
    exact hx.onSession k fun _ y => .of_receives sch luck (receives_handleChunkData sch luck q _ _ y)
  | sessionOpen q msg => exact includes_handleSessionOpen hx hmember hid q msg
  | peerChange e =>
    obtain ⟨q, ref⟩ := e
    cases ref with
    | some d => exact hx.handlePeerBound q d
    | none => exact hx.handlePeerUnbound fun h => hbound (h ▸ rfl)
  | publish k strategy preamble => exact includes_handlePublish hx hmember hid k strategy preamble
  | chunkSent k q handle err size sender =>
    exact hx.onSession k fun _ y =>
      .of_peers (quiet_handleSendComplete sch luck q handle err size sender.2 y).peers
  | routingUpdate q k data =>
    exact hx.onSession k fun _ y => .of_quiet (quiet_handleRoutingUpdate sch luck q data y)
  | peerReconstructed k q =>
    have hcompleted := hx.onSession k fun _ => retains_handlePeerCompleted sch q
    exact hcompleted.disposeIfIdle luck k
  | peerSessionEnded k q d =>
    show (if x.members.get q ≠ some d then x else x.leave sch luck k q).Includes m p
    split
    · exact hx
    rename_i hcurrent
    by_cases hown : k = m ∧ q = p
    · obtain ⟨rfl, rfl⟩ := hown
      rw [hmember, not_not] at hcurrent
      cases hcurrent
      intro sess hget
      rw [(hended rfl).leave] at hget
      cases hget
    · exact hx.leave fun hk hq => hown ⟨hk, hq.symm⟩
  | verifyResult k q chunkID data verdict =>
    exact hx.onSession k fun _ y =>
      .of_receives sch luck (receives_handleVerifyResult sch luck q _ _ verdict y)
  | decoded k payload sender => exact hx.takeResult k payload sender

end

/-- **A new member is attached to every session.** -/
theorem includes_bound (hid : (x.world.conns c).id = p) (hnew : x.members.get p ≠ some c)
    (m : MessageID) : (x.handlePeerBound sch luck p c).Includes m p := by
  unfold handlePeerBound
  rw [if_neg hnew]
  dsimp only
  generalize hx₁ : ({ x with members := x.members.set p c } : Channel S) = x₁
  have hid₁ : (x₁.world.conns c).id = p := by
    rw [← hx₁]
    exact hid
  unfold forSessions
  generalize hl : x₁.sessions.range (luck x₁.world.tick).messages = l
  have hframe : ∀ (y : Channel S) (k : MessageID),
      ((y.onSession k (handlePeerAttached sch luck c)).world.conns c).id = (y.world.conns c).id := by
    intro y k
    unfold onSession
    split
    · rfl
    · exact ids_handlePeerAttached sch luck c c _
  have hids := foldl_same (f := fun (y : Channel S) k => y.onSession k (handlePeerAttached sch luck c))
    (fun y => (y.world.conns c).id) hframe l (x₁.onWorld turn)
  by_cases hm : m ∈ l
  · have hvisit := foldl_visits (f := fun (y : Channel S) k => y.onSession k (handlePeerAttached sch luck c))
      (p := fun k (y : Channel S) => (y.world.conns c).id = p → y.Includes k p)
      (fun y k hy => ?_) (fun y k j hj hy => ?_) hm (x₁.onWorld turn)
    · exact hvisit (hids.trans hid₁)
    · rw [hframe] at hy
      unfold onSession
      split
      · rename_i hnone
        intro sess hget
        rw [hnone] at hget
        cases hget
      rename_i sess _
      refine Includes.put (fun h => absurd rfl h) fun _ => ?_
      have hattached := attached_handlePeerAttached sch luck c ⟨sess, y.world⟩
      rw [hy] at hattached
      exact hattached
    · rw [hframe] at hy
      exact (hj hy).onSession k fun _ => retains_handlePeerAttached sch luck c
  -- there is no session of `m`, and the loop makes none
  have hnone : x₁.sessions.get m = none := by
    by_contra hsome
    obtain ⟨sess, hget⟩ := Option.ne_none_iff_exists'.mp hsome
    refine hm ?_
    rw [← hl, Map.mem_range]
    exact Map.mem_keys_of_get hget
  have hstill := foldl_rel (f := fun (y : Channel S) k => y.onSession k (handlePeerAttached sch luck c))
    (r := fun y z : Channel S => y.sessions.get m = none → z.sessions.get m = none) (fun _ h => h)
    (fun h h' hy => h' (h hy)) (fun y k hy => ?_) l (x₁.onWorld turn) hnone
  · intro sess hget
    rw [hstill] at hget
    cases hget
  unfold onSession
  split
  · exact hy
  rename_i sess hget
  rw [put_sessions]
  split
  · rename_i hk
    rw [hk, hget] at hy
    cases hy
  · exact hy

/-! ## Whole runs -/

/-- Peer `p` is known by its ID, and attached to the session of `m` whenever it is a member. -/
structure JoinInv (x : Channel S) (m : MessageID) (p : PeerID) : Prop where
  named : ∀ c, x.members.get p = some c → (x.world.conns c).id = p
  joined : ∀ c, x.members.get p = some c → x.Includes m p
  inbox : ∀ c, Event.peerChange ⟨p, some c⟩ ∈ x.world.inbox → (x.world.conns c).id = p

/-- When the SESS stream of `p` for `m` ends on the connection that is a member, the session of `m` ends
too. -/
def Lasts (m : MessageID) (p : PeerID) (x : Channel S) (op : Op S) : Prop :=
  x.onDue (fun
    | .peerSessionEnded k q c => decide (k = m → q = p → x.members.get p = some c → x.Ends m p)
    | _ => true) op = true

instance (m : MessageID) (p : PeerID) (x : Channel S) (op : Op S) : Decidable (Lasts m p x op) :=
  inferInstanceAs (Decidable (_ = true))

theorem Lasts.ends (h : Lasts m p x .next) (hdue : x.due = some (.peerSessionEnded m p c))
    (hmember : x.members.get p = some c) : x.Ends m p := by
  simp only [Lasts, onDue, hdue, Option.all_some, decide_eq_true_eq] at h
  exact h trivial trivial hmember

theorem joinInv_init (m : MessageID) (p : PeerID) (channelID : ChannelID) (ids : ConnRef → PeerID)
    (sub : Option Subscription) : (init channelID ids sub : Channel S).JoinInv m p := by
  refine ⟨fun c h => ?_, fun c h => ?_, fun c h => absurd h List.not_mem_nil⟩
  · cases h
  · cases h

/-- The actor handles an event that does not end the peer's part in the session. -/
theorem joinInv_next (hx : x.JoinInv m p) (hlasts : Lasts m p x .next) : (x.next sch luck).JoinInv m p := by
  cases hdue : x.due with
  | none =>
    rw [next_of_none hdue]
    exact hx
  | some evt =>
    obtain ⟨rest, hinbox, _, hhandle⟩ := next_of_some sch luck hdue
    rw [hhandle]
    generalize hy : (x.onWorld fun w => { w with inbox := rest }) = y
    have hids : ∀ d, (y.world.conns d).id = (x.world.conns d).id := by
      rw [← hy]
      exact fun _ => rfl
    have hmembers : y.members = x.members := by rw [← hy]; rfl
    have hnamed : ∀ c, (y.handle sch luck evt).members.get p = some c →
        ((y.handle sch luck evt).world.conns c).id = p := by
      intro c hc
      rw [ids_handle, hids]
      rw [members_handle, hmembers] at hc
      cases hchange : changes evt with
      | nil =>
        rw [hchange] at hc
        exact hx.named c hc
      | cons e es =>
        cases evt with
        | peerChange e' =>
          cases hchange
          have hc : applyChange x.members.get e p = some c := hc
          unfold applyChange at hc
          rw [Function.update_apply] at hc
          split at hc
          · rename_i hp
            refine hx.inbox c (hinbox ▸ ?_)
            rw [hp, ← hc]
            exact List.mem_cons_self
          · exact hx.named c hc
        | _ => cases hchange
    refine ⟨hnamed, fun c hc => ?_, fun c hc => ?_⟩
    · by_cases hbound : ∃ d, evt = .peerChange ⟨p, some d⟩ ∧ y.members.get p ≠ some d
      · obtain ⟨d, rfl, hnew⟩ := hbound
        refine includes_bound ?_ hnew m
        rw [hids]
        exact hx.inbox d (hinbox ▸ List.mem_cons_self)
      -- the peer was a member before, on some connection
      obtain ⟨d, hd⟩ : ∃ d, y.members.get p = some d := by
        by_contra hnone
        rw [members_handle] at hc
        cases hchange : changes evt with
        | nil =>
          rw [hchange] at hc
          exact hnone ⟨c, hc⟩
        | cons e es =>
          cases evt with
          | peerChange e' =>
            cases hchange
            have hc : applyChange y.members.get e p = some c := hc
            unfold applyChange at hc
            rw [Function.update_apply] at hc
            split at hc
            · rename_i hp
              refine hbound ⟨c, ?_, fun h => hnone ⟨c, h⟩⟩
              rw [hp, ← hc]
            · exact hnone ⟨c, hc⟩
          | _ => cases hchange
      have hincludes : y.Includes m p := by
        refine (hx.joined d (hmembers ▸ hd)).of_same ?_
        rw [← hy]
        rfl
      have hid : (y.world.conns d).id = p := by
        rw [hids]
        exact hx.named d (hmembers ▸ hd)
      refine includes_handle hincludes hd hid ?_ fun he => ?_
      · rintro rfl
        have hgone := members_handle sch luck (.peerChange ⟨p, none⟩) y
        rw [hgone] at hc
        have hc : applyChange y.members.get ⟨p, none⟩ p = some c := hc
        simp [applyChange] at hc
      · have hends := hlasts.ends (c := d) (he ▸ hdue) (hmembers ▸ hd)
        rw [← hy]
        exact hends
    · rw [inbox_handle, ← hy] at hc
      rw [ids_handle, hids]
      exact hx.inbox c (hinbox ▸ List.mem_cons_of_mem _ hc)

theorem joinInv_step (op : Op S) (hx : x.JoinInv m p) (hlasts : Lasts m p x op) :
    (x.step sch luck op).JoinInv m p := by
  by_cases hnext : op = .next
  · subst hnext
    exact joinInv_next hx hlasts
  obtain ⟨_, hmembers, hids⟩ := step_frame sch luck hnext x
  have hnamed : ∀ c, (x.step sch luck op).members.get p = some c →
      ((x.step sch luck op).world.conns c).id = p := by
    intro c hc
    rw [hids]
    exact hx.named c (hmembers ▸ hc)
  by_cases hclose : op = .closeAll
  · subst hclose
    refine ⟨hnamed, fun c hc => ?_, fun c hc => ?_⟩
    · have hincludes := hx.joined c (hmembers ▸ hc)
      show (x.closeAll luck).Includes m p
      unfold closeAll
      split
      · dsimp only
        have hclosed : (x.forSessions luck fun k x => x.onSession k (Close luck)).Includes m p :=
          hincludes.forSessions luck fun k x hx => hx.onSession k fun _ _ => .of_peers rfl
        refine Includes.of_same hclosed ?_
        exact (aside_forParked luck (fun k group x => aside_cancelStreams group.streams .unspecified x) _).sessions
      · exact hincludes
    · have hc : Event.peerChange ⟨p, some c⟩ ∈ (x.closeAll luck).world.inbox := hc
      rw [inbox_closeAll] at hc
      rw [hids]
      exact hx.inbox c hc
  have hout := outside_step sch luck op hnext hclose x
  refine ⟨hnamed, fun c hc => (hx.joined c (hmembers ▸ hc)).of_same hout.sessions, fun c hc => ?_⟩
  rw [hids]
  by_cases hfinish : op = .finish
  · subst hfinish
    have hc : Event.peerChange ⟨p, some c⟩ ∈ x.finish.world.inbox := hc
    unfold finish at hc
    split at hc
    · cases hc
    · exact hx.inbox c hc
  obtain ⟨new, hkind, happends⟩ := posts_step sch luck hnext hclose hfinish x
  rw [happends.inbox] at hc
  rcases List.mem_append.mp hc with hc | hc
  · exact hx.inbox c hc
  rcases hkind _ hc with ⟨_, hexternal⟩ | hinternal
  · simpa [external] using hexternal
  · exact absurd hinternal id

theorem joinInv_run (sch : Scheme S C R P) (luck : Nat → Chance) (m : MessageID) (p : PeerID)
    (channelID : ChannelID) (ids : ConnRef → PeerID) (sub : Option Subscription) {ops : List (Op S)}
    (hops : Along (step sch luck) (Lasts m p) (init channelID ids sub) ops) :
    (exec (step sch luck) (init channelID ids sub) ops).JoinInv m p :=
  hops.invariant (I := fun x : Channel S => x.JoinInv m p) (fun _ op hx hok => joinInv_step op hx hok) (joinInv_init m p channelID ids sub)

/-! ## The OPEN of a member -/

end Channel

/-- The strategy was given the update `data` of `p` while `p` was attached, and only polled since. -/
def Session.Merged (sch : Scheme S C R P) (p : PeerID) (data : Bytes) (sess : Session S) : Prop :=
  ∃ (s : Session S) (update : R), s.Arises sch True ∧ (s.peers.get p).isSome = true ∧
    sch.routing.unmarshal data = some update ∧
    Session.Polls sch { s with strategy := (sch.methods.routingUpdate s.strategy p update).1 } sess

theorem Session.Merged.polls {sch : Scheme S C R P} {p : PeerID} {data : Bytes} {s t : Session S}
    (h : s.Merged sch p data) (hpolls : Session.Polls sch s t) : t.Merged sch p data := by
  obtain ⟨s₀, update, harises, hpeer, hupdate, hmerged⟩ := h
  exact ⟨s₀, update, harises, hpeer, hupdate, hmerged.trans hpolls⟩

theorem Scope.merged_handleRoutingUpdate (sch : Scheme S C R P) (luck : Nat → Chance) {p : PeerID}
    {data : Bytes} {update : R} {x : Scope S} (harises : x.sess.Arises sch True)
    (hpeer : (x.sess.peers.get p).isSome = true) (hupdate : sch.routing.unmarshal data = some update) :
    (x.handleRoutingUpdate sch luck p data).sess.Merged sch p data := by
  refine ⟨x.sess, update, harises, hpeer, hupdate, ?_⟩
  unfold handleRoutingUpdate
  rw [hupdate]
  exact .head (.books (applyRouting_core sch p update x)) (polls_drainPolls sch luck _)

namespace Channel

variable {sch : Scheme S C R P} {luck : Nat → Chance} {x y : Channel S} {m : MessageID} {p : PeerID}

/-- `p` is attached to the session of `m`, and its update `data` was merged there, if there is anything in
it. -/
def Merges (sch : Scheme S C R P) (x : Channel S) (m : MessageID) (p : PeerID) (data : Bytes) : Prop :=
  ∃ sess, x.sessions.get m = some sess ∧ (sess.peers.get p).isSome = true ∧
    (data ≠ [] → ∀ update, sch.routing.unmarshal data = some update → sess.Merged sch p data)

theorem Merges.onSession {data : Bytes} (hx : x.Merges sch m p data) {f : Scope S → Scope S}
    (hf : ∀ y, Background y (f y)) : (x.onSession m f).Merges sch m p data := by
  obtain ⟨sess, hget, hpeer, hmerged⟩ := hx
  have hback := hf ⟨sess, x.world⟩
  refine ⟨(f ⟨sess, x.world⟩).sess, ?_, Retains.of_background hback hpeer, fun hne update hu => ?_⟩
  · unfold Channel.onSession
    rw [hget]
    simp
  · exact (hmerged hne update hu).polls (.of_core hback.sess)

theorem Merges.flushParked {data : Bytes} (hx : x.Merges sch m p data) :
    (x.flushParked sch m).Merges sch m p data := by
  unfold Channel.flushParked
  split
  · exact hx
  rename_i group _
  have hloop := foldl_rel (f := fun (x : Channel S) (c : ChunkStream) => x.onSession m
      (handleChunkStream sch c.peerID c.chunkId c.dataLength c.stream))
    (r := fun x y : Channel S => x.Merges sch m p data → y.Merges sch m p data) (fun _ h => h)
    (fun h h' hx => h' (h hx))
    (fun x c hx => hx.onSession fun y => background_handleChunkStream sch _ _ _ _ y)
    group.streams x hx
  exact hloop

/-- The opener's routing is applied to a session it is attached to. -/
theorem merges_routing {sess : Session S} (hget : x.sessions.get m = some sess)
    (harises : sess.Arises sch True) (hpeer : (sess.peers.get p).isSome = true) (data : Bytes) :
    (x.onSession m (handleRoutingUpdate sch luck p data)).Merges sch m p data := by
  refine ⟨(handleRoutingUpdate sch luck p data ⟨sess, x.world⟩).sess, ?_, ?_, fun _ update hu => ?_⟩
  · unfold onSession
    rw [hget]
    simp
  · exact Retains.of_quiet (quiet_handleRoutingUpdate sch luck p data ⟨sess, x.world⟩) hpeer
  · exact merged_handleRoutingUpdate sch luck harises hpeer hu

/-- There is a session of the message, or the OPEN brings a preamble for a new one. -/
def Accepts (sch : Scheme S C R P) (luck : Nat → Chance) (x : Channel S) (msg : SessOpen) : Prop :=
  x.sessions.get msg.objectId ≠ none ∨
    ∃ pre strategy, sch.preamble.unmarshal msg.preamble = some pre ∧
      sch.newRelay (luck x.world.tick).seed pre = some strategy

/-- **After the OPEN of a member** the opener is attached to a session of the message, and its routing is
merged there. -/
theorem open_merges (hlineage : x.Lineage sch True) {msg : SessOpen} (hincludes : x.Includes msg.objectId p)
    {c : ConnRef} (hmember : x.members.get p = some c) (hid : (x.world.conns c).id = p)
    (haccepts : x.Accepts sch luck msg) :
    (x.handle sch luck (.sessionOpen p msg)).Merges sch msg.objectId p msg.initialUpdate := by
  show (x.handleSessionOpen sch luck p msg).Merges sch msg.objectId p msg.initialUpdate
  unfold handleSessionOpen
  split
  · rename_i sess hget
    have hpeer := hincludes sess hget
    split
    · rename_i hempty
      exact ⟨sess, hget, hpeer, fun hne => absurd (List.isEmpty_iff.mp hempty) hne⟩
    · exact merges_routing hget (hlineage _ sess hget) hpeer msg.initialUpdate
  rename_i hnone
  obtain ⟨pre, strategy, hpre, hnew⟩ := haccepts.resolve_left fun h => h hnone
  unfold createRelaySession
  simp only [hpre, hnew]
  generalize hx₁ : (x.onWorld turn) = x₁
  have hlineage₁ : x₁.Lineage sch True := hx₁ ▸ hlineage.of_same rfl
  have hincludes₁ : x₁.Includes msg.objectId p := hx₁ ▸ hincludes.of_same rfl
  have hmember₁ : x₁.members.get p = some c := hx₁ ▸ hmember
  have hid₁ : (x₁.world.conns c).id = p := hx₁ ▸ hid
  generalize hsess : x₁.newSession msg.objectId msg.preamble false strategy = sess
  have harises : sess.Arises sch True := by
    rw [← hsess]
    exact .relay hpre hnew rfl rfl
  have hmsg : sess.messageID = msg.objectId := by
    rw [← hsess]
    rfl
  have hattached : ((x₁.begin sess).attachMembers sch luck sess.messageID).Includes msg.objectId p :=
    hincludes₁.begin_attach hmember₁ hid₁ sess luck
  have hdescends := (hlineage₁.begin harises).attachMembers luck msg.objectId
  rw [hmsg] at hattached
  generalize hx₂ : (x₁.begin sess).attachMembers sch luck msg.objectId = x₂ at hattached hdescends
  obtain ⟨sess₂, hget₂⟩ : ∃ sess₂, x₂.sessions.get msg.objectId = some sess₂ := by
    have hbegin : StageIs msg.objectId .consuming (x₁.begin sess) := by
      rw [← hsess]
      exact stage_begin msg.objectId msg.preamble false strategy x₁
    have hmicros : Micros sch luck (.expiry : Event S) (x₁.begin sess) _ ∧ _ :=
      micros_attachMembers (.inl rfl) hbegin
    obtain ⟨sess₂, hget₂, _⟩ := hmicros.2
    exact ⟨sess₂, hx₂ ▸ hget₂⟩
  have hpeer := hattached sess₂ hget₂
  have hmerges : (if msg.initialUpdate.isEmpty = true then x₂
      else x₂.onSession msg.objectId (handleRoutingUpdate sch luck p msg.initialUpdate)).Merges sch
        msg.objectId p msg.initialUpdate := by
    split
    · rename_i hempty
      exact ⟨sess₂, hget₂, hpeer, fun hne => absurd (List.isEmpty_iff.mp hempty) hne⟩
    · exact merges_routing hget₂ (hdescends _ sess₂ hget₂) hpeer msg.initialUpdate
  exact hmerges.flushParked

end Channel

end EthP2P.Broadcast
