/-
# EthP2P.Broadcast.Routing — three views of who is on a channel

Who is on a channel is recorded three times.  A connection holds the channels its remote subscribed to
(`subs`) and, for its readers, the inboxes of those that are registered here (`channelInboxes`).  The channel
holds its members, which it learns from the changes the engine posts to its inbox.

`Routes` is the pointwise reading of all that: who is a peer, who subscribes to what, which inbox a reader
finds, what was posted.  Each function of the engine acts on it (`routes_*`), and `Routes.Agree` says that
the three views are one.  `Engine.membersOf` is what a channel makes of all that was posted to it; that the
channel actor really gets there is shown where the two actors run together.
-/
import EthP2P.Lib.Logs
import EthP2P.Lib.Loops
import EthP2P.Broadcast.EngineView

namespace EthP2P.Broadcast

open Lib Function Engine PeerConn Map PeerLink

/-! ## What a sequence of peer changes makes of the members -/

def applyChange (members : PeerID → Option ConnRef) (change : ChannelPeerChange) : PeerID → Option ConnRef :=
  update members change.peerID change.peerRef

/-- A peer is unbound before another connection of it is bound. -/
def Orderly (members : PeerID → Option ConnRef) (change : ChannelPeerChange) : Prop :=
  ∀ c, change.peerRef = some c → members change.peerID = none ∨ members change.peerID = some c

/-- The members of the channel `t` once it has handled all these posts. -/
def membersAfter (posted : List (ChannelRef × ChannelPeerChange)) (t : ChannelRef) : PeerID → Option ConnRef :=
  exec applyChange (fun _ => none) (logOf t posted)

theorem membersAfter_append_one (posted : List (ChannelRef × ChannelPeerChange)) (t t' : ChannelRef)
    (change : ChannelPeerChange) (pid : PeerID) :
    membersAfter (posted ++ [(t', change)]) t pid =
      if t' = t ∧ pid = change.peerID then change.peerRef else membersAfter posted t pid := by
  unfold membersAfter
  rw [logOf_append, logOf_singleton, exec_append]
  by_cases ht : t' = t
  · simp [ht, applyChange, update_apply]
  · simp [ht]

/-- What was posted to each channel comes in order, and a binding names the peer of its connection. -/
structure Posts (idOf : ConnRef → Option PeerID) (posted : List (ChannelRef × ChannelPeerChange)) : Prop where
  inOrder : ∀ t, Along applyChange Orderly (fun _ => none) (logOf t posted)
  named : ∀ q ∈ posted, ∀ c, q.2.peerRef = some c → idOf c = some q.2.peerID

section

variable {idOf : ConnRef → Option PeerID} {posted : List (ChannelRef × ChannelPeerChange)} {t : ChannelRef}
  {c : ConnRef} {pid : PeerID}

theorem Posts.append_one {change : ChannelPeerChange} (h : Posts idOf posted)
    (hone : Orderly (membersAfter posted t) change)
    (hnamed : ∀ c, change.peerRef = some c → idOf c = some change.peerID) :
    Posts idOf (posted ++ [(t, change)]) := by
  refine ⟨fun t' => ?_, fun q hq c hc => ?_⟩
  · rw [logOf_append, logOf_singleton]
    by_cases ht : t = t'
    · subst ht
      rw [if_pos rfl, Along.append_iff]
      exact ⟨h.inOrder t, hone, trivial⟩
    · rw [if_neg ht, List.append_nil]
      exact h.inOrder t'
  · rcases List.mem_append.mp hq with hq | hq
    · exact h.named q hq c hc
    · rw [List.mem_singleton.mp hq] at hc ⊢
      exact hnamed c hc

/-- An unbinding is always in order. -/
theorem Posts.unbind (h : Posts idOf posted) : Posts idOf (posted ++ [(t, ⟨pid, none⟩)]) := by
  refine h.append_one (fun c hc => ?_) fun c hc => ?_ <;> cases hc

theorem Posts.bind (h : Posts idOf posted) (hid : idOf c = some pid)
    (hfree : membersAfter posted t pid = none ∨ membersAfter posted t pid = some c) :
    Posts idOf (posted ++ [(t, ⟨pid, some c⟩)]) := by
  refine h.append_one (fun d hd => ?_) fun d hd => ?_ <;> cases hd
  · exact hfree
  · exact hid

end

/-! ## The pointwise view -/

@[ext] structure Routes where
  channels : ChannelID → Option ChannelRef
  peers : PeerID → Option ConnRef
  /-- The peer ID of a connection. -/
  idOf : ConnRef → Option PeerID
  /-- The connection completed its handshake. -/
  greeted : ConnRef → Bool
  /-- The remote of the connection subscribed to the channel. -/
  subs : ConnRef → ChannelID → Bool
  /-- Where the readers of the connection send what is for the channel. -/
  inbox : ConnRef → ChannelID → Option ChannelRef
  /-- A family handle is bound to the connection. -/
  bound : ConnRef → Prop
  posted : List (ChannelRef × ChannelPeerChange)

namespace Engine

def subscribes (e : Engine) (c : ConnRef) (id : ChannelID) : Bool :=
  (e.conns.get c).any fun p => (p.subs.get id).isSome

/-- `PeerConn.channelInboxFor`. -/
def channelInboxFor (e : Engine) (c : ConnRef) (id : ChannelID) : Option ChannelRef :=
  (e.conns.get c).bind (·.channelInboxes.get id)

def routes (e : Engine) : Routes where
  channels := e.channels.get
  peers := e.peers.get
  idOf c := (e.conns.get c).map (·.id)
  greeted c := (e.conns.get c).any (·.handshakeDone)
  subs := e.subscribes
  inbox := e.channelInboxFor
  bound c := ∃ peer, e.bindings.get peer = some c
  posted := e.posted

end Engine

namespace Routes

/-- `BindChannel`, or `UnbindChannel` with no inbox. -/
def setInbox (r : Routes) (c : ConnRef) (id : ChannelID) (t : Option ChannelRef) : Routes :=
  { r with inbox := fun k i => if k = c ∧ i = id then t else r.inbox k i }

def post (r : Routes) (t : ChannelRef) (change : ChannelPeerChange) : Routes :=
  { r with posted := r.posted ++ [(t, change)] }

def enrolPeerToChannel (r : Routes) (c : ConnRef) (id : ChannelID) : Routes :=
  match r.channels id, r.idOf c with
  | some t, some pid => (r.setInbox c id (some t)).post t ⟨pid, some c⟩
  | _, _ => r

def unenrolPeerFromChannel (r : Routes) (c : ConnRef) (id : ChannelID) : Routes :=
  match r.channels id, r.idOf c with
  | some t, some pid => (r.setInbox c id none).post t ⟨pid, none⟩
  | _, _ => r.setInbox c id none

def joinPeer (id : ChannelID) (r : Routes) (c : ConnRef) : Routes :=
  if r.subs c id then r.enrolPeerToChannel c id else r

def leavePeer (id : ChannelID) (r : Routes) (c : ConnRef) : Routes := r.setInbox c id none

def forPeers (r : Routes) (pids : List PeerID) (body : Routes → ConnRef → Routes) : Routes :=
  pids.foldl (fun r pid => ((r.peers pid).map (body r)).getD r) r

end Routes

namespace Engine

/-! ## The engine's functions on the view -/

variable (e : Engine) (c : ConnRef) (f : PeerConn → PeerConn)

theorem conns_updConn (k : ConnRef) :
    (e.updConn c f).conns.get k = if k = c then (e.conns.get k).map f else e.conns.get k := by
  unfold updConn
  cases hc : e.conns.get c with
  | none | some p =>
    by_cases hk : k = c
    · simp [hk, hc]
    · simp [hk]

theorem maps_updConn :
    (e.updConn c f).channels = e.channels ∧ (e.updConn c f).peers = e.peers ∧
    (e.updConn c f).bindings = e.bindings ∧ (e.updConn c f).posted = e.posted := by
  unfold updConn
  split <;> exact ⟨rfl, rfl, rfl, rfl⟩

/-- Any reading of a connection, after one of them changed. -/
theorem read_updConn {B : Type*} (read : Option PeerConn → B) (e : Engine) (c : ConnRef)
    (f : PeerConn → PeerConn) (k : ConnRef) :
    read ((e.updConn c f).conns.get k) = if k = c then read ((e.conns.get k).map f) else read (e.conns.get k) := by
  rw [conns_updConn]
  split <;> rfl

variable {f : PeerConn → PeerConn}

/-- A reading that the change keeps. -/
theorem read_kept {B : Type*} (read : Option PeerConn → B) (e : Engine) (c : ConnRef)
    (hkept : ∀ p, read (some (f p)) = read (some p)) (k : ConnRef) :
    (if k = c then read ((e.conns.get k).map f) else read (e.conns.get k)) = read (e.conns.get k) := by
  split
  · cases e.conns.get k with
    | none => rfl
    | some p => exact hkept p
  · rfl

/-- What a change of one connection does to the view. -/
theorem routes_updConn (f : PeerConn → PeerConn) (hid : ∀ p, (f p).id = p.id) :
    (e.updConn c f).routes =
      { e.routes with
        greeted := fun k => if k = c then ((e.conns.get k).map f).any (·.handshakeDone) else e.routes.greeted k
        subs := fun k i => if k = c then ((e.conns.get k).map f).any fun p => (p.subs.get i).isSome
          else e.routes.subs k i
        inbox := fun k i => if k = c then ((e.conns.get k).map f).bind (·.channelInboxes.get i)
          else e.routes.inbox k i } := by
  obtain ⟨hchannels, hpeers, hbindings, hposted⟩ := maps_updConn e c f
  ext1
  · exact congrArg get hchannels
  · exact congrArg get hpeers
  · funext k
    refine (read_updConn (Option.map (·.id)) e c f k).trans ?_
    exact read_kept (Option.map (·.id)) e c (fun p => congrArg some (hid p)) k
  · exact funext fun k => read_updConn (Option.any (·.handshakeDone)) e c f k
  · exact funext fun k => funext fun i =>
      read_updConn (Option.any fun p => (p.subs.get i).isSome) e c f k
  · exact funext fun k => funext fun i =>
      read_updConn (Option.bind · (·.channelInboxes.get i)) e c f k
  · show (fun k => ∃ peer, (e.updConn c f).bindings.get peer = some k) = _
    rw [hbindings]
    rfl
  · exact hposted

/-- A change that keeps the ID, the handshake and the subscriptions of the connection. -/
theorem routes_updConn_inbox (hid : ∀ p, (f p).id = p.id) (hdone : ∀ p, (f p).handshakeDone = p.handshakeDone)
    (hsubs : ∀ p, (f p).subs = p.subs) :
    (e.updConn c f).routes =
      { e.routes with
        inbox := fun k i => if k = c then ((e.conns.get k).map f).bind (·.channelInboxes.get i)
          else e.routes.inbox k i } := by
  rw [routes_updConn e c f hid]
  refine Routes.ext rfl rfl rfl (funext fun k => ?_) (funext fun k => funext fun i => ?_) rfl rfl rfl
  · exact read_kept (Option.any (·.handshakeDone)) e c hdone k
  · refine read_kept (Option.any fun p => (p.subs.get i).isSome) e c (fun p => ?_) k
    simp [hsubs]

/-- A change of the link alone. -/
theorem routes_onLink {f : PeerLink → PeerLink} (hid : ∀ l, (f l).id = l.id)
    (hdone : ∀ l, (f l).handshakeDone = l.handshakeDone) : (e.updConn c (onLink f)).routes = e.routes := by
  rw [routes_updConn_inbox e c (f := onLink f) (fun p => hid p.toPeerLink) (fun p => hdone p.toPeerLink) fun _ => rfl]
  refine Routes.ext rfl rfl rfl rfl rfl (funext fun k => funext fun i => ?_) rfl rfl
  refine read_kept (Option.bind · (·.channelInboxes.get i)) e c (fun _ => ?_) k
  rfl

theorem routes_observe (o : EngineObservation) : (e.observe o).routes = e.routes := rfl

theorem routes_post (t : ChannelRef) (change : ChannelPeerChange) :
    (e.post t change).routes = e.routes.post t change := rfl

theorem routes_setInbox {e : Engine} {c : ConnRef} {id : ChannelID}
    {t : Option ChannelRef} (hlink : ∀ p, (f p).toPeerLink = p.toPeerLink) (hsubs : ∀ p, (f p).subs = p.subs)
    (hinbox : ∀ p i, (f p).channelInboxes.get i = if i = id then t else p.channelInboxes.get i)
    (hconn : e.conns.get c = none → t = none) : (e.updConn c f).routes = e.routes.setInbox c id t := by
  rw [routes_updConn_inbox e c (fun p => congrArg PeerLink.id (hlink p))
    (fun p => congrArg handshakeDone (hlink p)) hsubs]
  refine Routes.ext rfl rfl rfl rfl rfl (funext fun k => funext fun i => ?_) rfl rfl
  show _ = if k = c ∧ i = id then t else e.routes.inbox k i
  by_cases hk : k = c
  · subst hk
    show _ = if k = k ∧ i = id then t else (e.conns.get k).bind (·.channelInboxes.get i)
    cases hp : e.conns.get k with
    | none => simp [hp, hconn hp]
    | some p => simp [hp, hinbox]
  · simp [hk]

variable (id : ChannelID)

theorem routes_enrol : (e.enrolPeerToChannel c id).routes = e.routes.enrolPeerToChannel c id := by
  unfold enrolPeerToChannel Routes.enrolPeerToChannel
  show _ = match e.channels.get id, (e.conns.get c).map (·.id) with
    | some t, some pid => (e.routes.setInbox c id (some t)).post t ⟨pid, some c⟩
    | _, _ => e.routes
  cases ht : e.channels.get id with
  | none => rfl
  | some t =>
    cases hp : e.conns.get c with
    | none => rfl
    | some p =>
      show ((e.updConn c (BindChannel id t)).post t _).routes = _
      have hbind : (e.updConn c (BindChannel id t)).routes =
          e.routes.setInbox c id (some t) :=
        routes_setInbox (fun _ => rfl) (fun _ => rfl) (fun _ _ => get_set _ _ _ _)
          fun hnone => by rw [hp] at hnone; cases hnone
      rw [routes_post, hbind]
      rfl

theorem routes_unenrol : (e.unenrolPeerFromChannel c id).routes = e.routes.unenrolPeerFromChannel c id := by
  have hunbind : (e.updConn c (UnbindChannel id)).routes = e.routes.setInbox c id none :=
    routes_setInbox (fun _ => rfl) (fun _ => rfl) (fun p i => get_del _ _ _) fun _ => rfl
  unfold unenrolPeerFromChannel Routes.unenrolPeerFromChannel
  show _ = match e.channels.get id, (e.conns.get c).map (·.id) with
    | some t, some pid => (e.routes.setInbox c id none).post t ⟨pid, none⟩
    | _, _ => e.routes.setInbox c id none
  cases ht : e.channels.get id with
  | none => exact hunbind
  | some t =>
    cases hp : e.conns.get c with
    | none => exact hunbind
    | some p =>
      show ((e.updConn c (UnbindChannel id)).post t _).routes = _
      rw [routes_post, hunbind]
      rfl

theorem routes_joinPeer (e : Engine) (c : ConnRef) : (joinPeer id e c).routes = e.routes.joinPeer id c := by
  unfold joinPeer Routes.joinPeer
  rw [routes_onLink]
  · show _ = if e.subscribes c id then _ else _
    unfold subscribes
    cases hp : e.conns.get c with
    | none => rfl
    | some p =>
      show (if (p.subs.get id).isSome = true then _ else e).routes = if (p.subs.get id).isSome = true then _ else _
      split
      · exact routes_enrol e c id
      · rfl
  · intro l
    rfl
  · intro l
    rfl

theorem routes_leavePeer (e : Engine) (c : ConnRef) : (leavePeer id e c).routes = e.routes.leavePeer id c := by
  unfold leavePeer
  rw [routes_onLink _ c (f := (·.announce id false)) (fun _ => rfl) fun _ => rfl]
  exact routes_setInbox (fun _ => rfl) (fun _ => rfl) (fun p i => get_del _ _ _) fun _ => rfl

theorem routes_forPeers {body : Engine → ConnRef → Engine} {body' : Routes → ConnRef → Routes}
    (hbody : ∀ e c, (body e c).routes = body' e.routes c) (e : Engine) (o : Order PeerID) :
    (e.forPeers o body).routes = e.routes.forPeers (e.peers.range o) body' := by
  unfold forPeers Routes.forPeers
  generalize e.peers.range o = pids
  induction pids generalizing e with
  | nil => rfl
  | cons pid pids ih =>
    rw [List.foldl_cons, List.foldl_cons, ih]
    congr 1
    show _ = ((e.peers.get pid).map (body' e.routes)).getD e.routes
    cases e.peers.get pid with
    | none => rfl
    | some c => exact hbody e c

end Engine

/-! ## The views agree -/

namespace Routes

/-- The three views are one, and the posts that bring them together are in order. -/
structure Agree (r : Routes) : Prop extends Posts r.idOf r.posted where
  routed : ∀ pid c, r.peers pid = some c → ∀ id, r.inbox c id = if r.subs c id then r.channels id else none
  members : ∀ id t, r.channels id = some t → ∀ pid, membersAfter r.posted t pid = (r.peers pid).filter (r.subs · id)
  distinct : ∀ id id' t, r.channels id = some t → r.channels id' = some t → id = id'
  bound : ∀ pid c, r.peers pid = some c → r.bound c
  untouched : ∀ c, r.greeted c = false → ∀ id, r.inbox c id = none

/-- A peer is a connection with that ID that completed its handshake. -/
def Ready (r : Routes) : Prop :=
  ∀ pid c, r.peers pid = some c → r.idOf c = some pid ∧ r.greeted c = true

/-- Only routing tables and posts differ. -/
structure SameBase (r r' : Routes) : Prop where
  channels : r'.channels = r.channels
  peers : r'.peers = r.peers
  idOf : r'.idOf = r.idOf
  greeted : r'.greeted = r.greeted
  subs : r'.subs = r.subs
  bound : r'.bound = r.bound

theorem SameBase.refl (r : Routes) : SameBase r r := ⟨rfl, rfl, rfl, rfl, rfl, rfl⟩

variable {c : ConnRef} {pid : PeerID} {t : ChannelRef} {i : ChannelID} {present : Bool}
  {bound : ConnRef → Prop}

theorem enrol_eq {r : Routes} {id : ChannelID} (ht : r.channels id = some t) (hc : r.idOf c = some pid) :
    r.enrolPeerToChannel c id = (r.setInbox c id (some t)).post t ⟨pid, some c⟩ := by
  simp [enrolPeerToChannel, ht, hc]

/-! ### A channel is registered -/

/-- Some of the peers have been told that the channel `h` is registered as `id`. -/
structure Joined (r : Routes) (id : ChannelID) (h : ChannelRef) (seen : List PeerID) (r' : Routes) :
    Prop extends SameBase r r', Posts r'.idOf r'.posted where
  inbox : ∀ c i, r'.inbox c i =
    if i = id ∧ r.subs c id = true ∧ ∃ pid ∈ seen, r.peers pid = some c then some h else r.inbox c i
  members : ∀ t pid, membersAfter r'.posted t pid =
    if t = h ∧ pid ∈ seen then (r.peers pid).filter (r.subs · id) else membersAfter r.posted t pid

variable {r r' : Routes} {id : ChannelID} {h : ChannelRef} {seen : List PeerID}

/-- A peer that does not subscribe to the channel needs nothing. -/
theorem Joined.skip (hj : Joined r id h seen r') (hfresh : ∀ q, membersAfter r.posted h q = none)
    (hnone : (r.peers pid).filter (r.subs · id) = none) : Joined r id h (seen ++ [pid]) r' := by
  refine { hj with inbox := fun c i => ?_, members := fun t q => ?_ }
  · rw [hj.inbox]
    congr 1
    simp only [List.mem_append, List.mem_singleton, eq_iff_iff, and_congr_right_iff]
    intro _ hsub
    constructor
    · rintro ⟨q, hq, hc⟩
      exact ⟨q, .inl hq, hc⟩
    rintro ⟨q, hq | rfl, hc⟩
    · exact ⟨q, hq, hc⟩
    · simp [hc, hsub] at hnone
  · rw [hj.members]
    by_cases hq : q = pid
    · subst hq
      rw [hnone]
      by_cases ht : t = h
      · subst ht
        simp [hfresh]
      · simp [ht]
    · simp [hq]

/-- A subscriber's readers find the channel, and the channel learns of the subscriber. -/
theorem Joined.enrol (hj : Joined r id h seen r') (hready : r.Ready)
    (hid : r.channels id = some h) (hfresh : ∀ q, membersAfter r.posted h q = none)
    (hc : r.peers pid = some c) (hsub : r.subs c id = true) :
    Joined r id h (seen ++ [pid]) (r'.enrolPeerToChannel c id) := by
  have hpid : r'.idOf c = some pid := by
    rw [hj.idOf]
    exact (hready pid c hc).1
  have ht : r'.channels id = some h := by rw [hj.channels, hid]
  rw [enrol_eq ht hpid]
  refine ⟨{ hj with }, hj.toPosts.bind hpid ?_, fun k i => ?_, fun t q => ?_⟩
  · rw [hj.members, hfresh, hc]
    by_cases hseen : pid ∈ seen
    · exact .inr (by simp [hseen, hsub])
    · exact .inl (by simp [hseen])
  · show (if k = c ∧ i = id then some h else r'.inbox k i) = _
    rw [hj.inbox]
    by_cases hk : k = c ∧ i = id
    · obtain ⟨rfl, rfl⟩ := hk
      rw [if_pos ⟨rfl, rfl⟩, if_pos ⟨rfl, hsub, pid, by simp, hc⟩]
    rw [if_neg hk]
    congr 1
    simp only [List.mem_append, List.mem_singleton, eq_iff_iff]
    constructor
    · rintro ⟨hi, hs, q, hq, hk'⟩
      exact ⟨hi, hs, q, .inl hq, hk'⟩
    rintro ⟨hi, hs, q, hq | rfl, hk'⟩
    · exact ⟨hi, hs, q, hq, hk'⟩
    rw [hc] at hk'
    cases hk'
    exact absurd ⟨rfl, hi⟩ hk
  · show membersAfter (r'.posted ++ [(h, ⟨pid, some c⟩)]) t q = _
    rw [membersAfter_append_one, hj.members]
    by_cases hq : q = pid
    · subst hq
      by_cases ht : t = h
      · subst ht
        simp [hc, hsub, Option.filter]
      · have ht' : h ≠ t := fun heq => ht heq.symm
        simp [ht, ht']
    · simp [hq]

theorem joined_forPeers (hready : r.Ready) (hid : r.channels id = some h)
    (hfresh : ∀ q, membersAfter r.posted h q = none) (hposts : Posts r.idOf r.posted) (pids : List PeerID) : Joined r id h pids (r.forPeers pids (joinPeer id)) := by
  have hstart : Joined r id h [] r := by
    refine ⟨.refl r, hposts, fun c i => ?_, fun t q => ?_⟩
    · simp
    · simp
  refine foldl_seen (I := Joined r id h) (fun seen r' pid hj => ?_) pids hstart
  rw [hj.peers]
  cases hc : r.peers pid with
  | none => exact hj.skip hfresh (by simp [hc])
  | some c =>
    show Joined r id h (seen ++ [pid]) (joinPeer id r' c)
    unfold joinPeer
    rw [hj.subs]
    by_cases hsub : r.subs c id = true
    · rw [if_pos hsub]
      exact hj.enrol hready hid hfresh hc hsub
    · rw [if_neg hsub]
      exact hj.skip hfresh (by simp [hc, hsub])

/-- The handle was never registered or posted to. -/
def Fresh (r : Routes) (h : ChannelRef) : Prop :=
  (∀ q ∈ r.posted, q.1 ≠ h) ∧ ∀ id, r.channels id ≠ some h

theorem Fresh.members (hfresh : r.Fresh h) (pid : PeerID) : membersAfter r.posted h pid = none := by
  have hlog : logOf h r.posted = [] := by
    rw [List.eq_nil_iff_forall_not_mem]
    intro change hmem
    exact hfresh.1 _ (mem_logOf.mp hmem) rfl
  rw [membersAfter, hlog]
  rfl

/-- `addChannel` of a handle that is accepted. -/
theorem Agree.addChannel (hr : r.Agree) (hready : r.Ready) (hnone : r.channels id = none)
    (hfresh : r.Fresh h) {pids : List PeerID} (hall : ∀ pid c, r.peers pid = some c → pid ∈ pids) :
    (forPeers { r with channels := update r.channels id (some h) } pids (joinPeer id)).Agree := by
  have hj : Joined { r with channels := update r.channels id (some h) } id h pids _ :=
    joined_forPeers (r := { r with channels := update r.channels id (some h) }) hready
      (update_self ..) hfresh.members hr.toPosts pids
  refine ⟨hj.toPosts, fun pid c hc i => ?_, fun i t ht pid => ?_, ?_, ?_, fun c hc i => ?_⟩
  · rw [hj.peers] at hc
    rw [hj.inbox, hj.subs, hj.channels]
    show (if i = id ∧ r.subs c id = true ∧ ∃ pid ∈ pids, r.peers pid = some c then some h
      else r.inbox c i) = if r.subs c i then update r.channels id (some h) i else none
    have hrouted := hr.routed pid c hc i
    by_cases hi : i = id
    · subst hi
      cases hsub : r.subs c i with
      | false => simpa [hsub] using hrouted
      | true =>
        rw [if_pos ⟨rfl, rfl, pid, hall pid c hc, hc⟩]
        simp
    · rw [if_neg fun hand => hi hand.1, update_of_ne hi]
      exact hrouted
  · rw [hj.channels] at ht
    rw [hj.members, hj.peers, hj.subs]
    show (if t = h ∧ pid ∈ pids then (r.peers pid).filter (r.subs · id)
      else membersAfter r.posted t pid) = (r.peers pid).filter (r.subs · i)
    by_cases hi : i = id
    · subst hi
      have hth : t = h := by simpa using ht.symm
      subst hth
      by_cases hpid : pid ∈ pids
      · rw [if_pos ⟨rfl, hpid⟩]
      have hpeer : r.peers pid = none := by
        rw [Option.eq_none_iff_forall_not_mem]
        exact fun c hc => hpid (hall pid c hc)
      rw [if_neg fun hand => hpid hand.2, hfresh.members, hpeer]
      rfl
    · have hreg : r.channels i = some t := (update_of_ne hi _ _).symm.trans ht
      have hth : t ≠ h := by
        rintro rfl
        exact hfresh.2 i hreg
      rw [if_neg fun hand => hth hand.1]
      exact hr.members i t hreg pid
  · rw [hj.channels]
    intro i i' t hi hi'
    simp only [update_apply] at hi hi'
    split at hi <;> split at hi'
    · rename_i h₁ h₂
      rw [h₁, h₂]
    · cases hi
      exact absurd hi' (hfresh.2 i')
    · cases hi'
      exact absurd hi (hfresh.2 i)
    · exact hr.distinct i i' t hi hi'
  · rw [hj.peers, hj.bound]
    exact hr.bound
  · rw [hj.greeted] at hc
    rw [hj.inbox, if_neg]
    · exact hr.untouched c hc i
    rintro ⟨_, _, pid, _, hpeer⟩
    have hdone := (hready pid c hpeer).2
    rw [hc] at hdone
    cases hdone

/-! ### A channel is dropped -/

theorem forPeers_leave (r : Routes) (id : ChannelID) (pids : List PeerID) :
    r.forPeers pids (leavePeer id) = { r with
      inbox := fun c i => if i = id ∧ ∃ pid ∈ pids, r.peers pid = some c then none else r.inbox c i } := by
  unfold forPeers
  induction pids generalizing r with
  | nil => simp
  | cons pid pids ih =>
    rw [List.foldl_cons, ih]
    cases hc : r.peers pid with
    | none => simp [hc]
    | some d =>
      refine Routes.ext rfl rfl rfl rfl rfl (funext fun c => funext fun i => ?_) rfl rfl
      show (if i = id ∧ ∃ q ∈ pids, r.peers q = some c then none else if c = d ∧ i = id then none else r.inbox c i) = _
      by_cases hi : i = id
      · by_cases hcd : c = d
        · simp [hi, hcd, hc]
        · have hdc : d ≠ c := fun heq => hcd heq.symm
          simp [hi, hcd, hdc, hc]
      · simp [hi]

/-- `removeChannel` of a registered channel. -/
theorem Agree.removeChannel (hr : r.Agree) {pids : List PeerID}
    (hall : ∀ pid c, r.peers pid = some c → pid ∈ pids) :
    Agree { r.forPeers pids (leavePeer id) with
      channels := update r.channels id none } := by
  rw [forPeers_leave]
  refine ⟨hr.toPosts, fun pid c hc i => ?_, fun i t ht pid => ?_, fun i i' t hi hi' => ?_, hr.bound, fun c hc i => ?_⟩
  · show (if i = id ∧ ∃ q ∈ pids, r.peers q = some c then none else r.inbox c i) =
      if r.subs c i then update r.channels id none i else none
    by_cases hi : i = id
    · rw [if_pos ⟨hi, pid, hall pid c hc, hc⟩, hi, update_self, ite_self]
    · rw [if_neg fun hand => hi hand.1, update_of_ne hi]
      exact hr.routed pid c hc i
  · have hi : i ≠ id := by
      rintro rfl
      simp at ht
    exact hr.members i t (by simpa [update_of_ne hi] using ht) pid
  · simp only [update_apply] at hi hi'
    split at hi
    · cases hi
    split at hi'
    · cases hi'
    · exact hr.distinct i i' t hi hi'
  · show (if i = id ∧ ∃ q ∈ pids, r.peers q = some c then none else r.inbox c i) = none
    rw [hr.untouched c hc i, ite_self]

/-! ### A subscription changes -/

def setSubs (r : Routes) (c : ConnRef) (subs : ChannelID → Bool) : Routes :=
  { r with subs := update r.subs c subs }

theorem setSubs_other {k : ConnRef} (hne : ¬ (k = c ∧ i = id)) :
    (r.setSubs c (update (r.subs c) id present)).subs k i = r.subs k i := by
  show update r.subs c (update (r.subs c) id present) k i = r.subs k i
  by_cases hk : k = c
  · rw [hk, update_self, update_of_ne fun hi => hne ⟨hk, hi⟩]
  · rw [update_of_ne hk]

section

variable (hr : r.Agree)
include hr

/-- The readers of another connection, and other channels, see no difference. -/
theorem Agree.setSubs_routed {k : ConnRef} (hk : r.peers pid = some k) (hne : ¬ (k = c ∧ i = id)) :
    r.inbox k i = if (r.setSubs c (update (r.subs c) id present)).subs k i then r.channels i else none := by
  rw [setSubs_other hne]
  exact hr.routed pid k hk i

theorem Agree.setSubs_members (hready : r.Ready) {q : PeerID} (hc : r.peers pid = some c)
    (ht : r.channels i = some t) (hne : ¬ (q = pid ∧ i = id)) :
    membersAfter r.posted t q = (r.peers q).filter ((r.setSubs c (update (r.subs c) id present)).subs · i) := by
  rw [hr.members i t ht q]
  cases hk : r.peers q with
  | none => rfl
  | some k =>
    have hother : ¬ (k = c ∧ i = id) := by
      rintro ⟨rfl, hi⟩
      have hq := (hready q k hk).1.symm.trans (hready pid k hc).1
      exact hne ⟨Option.some.inj hq, hi⟩
    simp only [Option.filter, setSubs_other hother]

/-- A channel that is not registered here has no members and no inbox. -/
theorem Agree.setSubs_unregistered (hready : r.Ready) (hc : r.peers pid = some c)
    (ht : r.channels id = none) (present : Bool) : (r.setSubs c (update (r.subs c) id present)).Agree := by
  refine { hr with routed := fun q k hk i => ?_, members := fun i t hi q => ?_ }
  · by_cases hne : k = c ∧ i = id
    · obtain ⟨rfl, rfl⟩ := hne
      show r.inbox k i = if _ then r.channels i else none
      rw [hr.routed q k hk i, ht, ite_self, ite_self]
    · exact hr.setSubs_routed hk hne
  · refine hr.setSubs_members hready hc hi fun hand => ?_
    have hi : r.channels i = some t := hi
    rw [hand.2, ht] at hi
    cases hi

/-- The readers and the channel learn of the change together. -/
theorem Agree.setSubs_registered (hready : r.Ready) (hc : r.peers pid = some c)
    (ht : r.channels id = some t) (present : Bool) (hnew : present = true → r.subs c id = false) :
    Agree (((r.setSubs c (update (r.subs c) id present)).setInbox c id
      (if present then some t else none)).post t ⟨pid, if present then some c else none⟩) := by
  have hposts : Posts r.idOf (r.posted ++ [(t, ⟨pid, if present then some c else none⟩)]) := by
    cases present with
    | false => exact hr.toPosts.unbind
    | true =>
      refine hr.toPosts.bind (hready pid c hc).1 (.inl ?_)
      rw [hr.members id t ht pid, hc]
      simp [hnew rfl]
  refine ⟨hposts, fun q k hk i => ?_, fun i t' hi q => ?_, hr.distinct, hr.bound, fun k hk i => ?_⟩
  · show (if k = c ∧ i = id then if present then some t else none else r.inbox k i) = _
    by_cases hne : k = c ∧ i = id
    · obtain ⟨rfl, rfl⟩ := hne
      simp [setInbox, post, setSubs, ht]
    · rw [if_neg hne]
      exact hr.setSubs_routed hk hne
  · show membersAfter (r.posted ++ [(t, ⟨pid, if present then some c else none⟩)]) t' q = _
    rw [membersAfter_append_one]
    by_cases hne : q = pid ∧ i = id
    · obtain ⟨rfl, rfl⟩ := hne
      have htt : t = t' := Option.some.inj (ht.symm.trans hi)
      simp [htt, setInbox, post, setSubs, hc, Option.filter]
    rw [if_neg]
    · exact hr.setSubs_members hready hc hi hne
    · rintro ⟨rfl, hq⟩
      exact hne ⟨hq, hr.distinct i id t hi ht⟩
  · show (if k = c ∧ i = id then _ else r.inbox k i) = none
    rw [if_neg]
    · exact hr.untouched k hk i
    rintro ⟨rfl, _⟩
    have hk : r.greeted k = false := hk
    rw [(hready pid k hc).2] at hk
    cases hk

/-- `peerSubscribed` of a current connection. -/
theorem Agree.subscribe (hready : r.Ready) (hc : r.peers pid = some c) (hsub : r.subs c id = false) :
    ((r.setSubs c (update (r.subs c) id true)).enrolPeerToChannel c id).Agree := by
  cases ht : r.channels id with
  | none =>
    have henrol : (r.setSubs c (update (r.subs c) id true)).enrolPeerToChannel c id =
        r.setSubs c (update (r.subs c) id true) := by
      simp [enrolPeerToChannel, setSubs, ht]
    rw [henrol]
    exact hr.setSubs_unregistered hready hc ht true
  | some t =>
    have henrol := enrol_eq (r := r.setSubs c (update (r.subs c) id true)) ht (hready pid c hc).1
    rw [henrol]
    exact hr.setSubs_registered hready hc ht true fun _ => hsub

/-- `peerUnsubscribed` of a current connection. -/
theorem Agree.unsubscribe (hready : r.Ready) (hc : r.peers pid = some c) :
    ((r.setSubs c (update (r.subs c) id false)).unenrolPeerFromChannel c id).Agree := by
  have hpid := (hready pid c hc).1
  cases ht : r.channels id with
  | none =>
    have hun : (r.setSubs c (update (r.subs c) id false)).unenrolPeerFromChannel c id =
        r.setSubs c (update (r.subs c) id false) := by
      have hinbox : r.inbox c id = none := by
        rw [hr.routed pid c hc id, ht, ite_self]
      simp only [unenrolPeerFromChannel, setSubs, ht, setInbox]
      refine Routes.ext rfl rfl rfl rfl rfl (funext fun k => funext fun i => ?_) rfl rfl
      show (if k = c ∧ i = id then none else r.inbox k i) = r.inbox k i
      split
      · rename_i hki
        rw [hki.1, hki.2, hinbox]
      · rfl
    rw [hun]
    exact hr.setSubs_unregistered hready hc ht false
  | some t =>
    have hun : (r.setSubs c (update (r.subs c) id false)).unenrolPeerFromChannel c id =
        ((r.setSubs c (update (r.subs c) id false)).setInbox c id none).post t ⟨pid, none⟩ := by
      simp [unenrolPeerFromChannel, setSubs, ht, hpid]
    rw [hun]
    exact hr.setSubs_registered hready hc ht false (by simp)

end

/-! ### A peer comes and goes -/

/-- The connection `c` of `pid` has left some of its channels. -/
structure Left (r : Routes) (c : ConnRef) (pid : PeerID) (seen : List ChannelID) (r' : Routes) : Prop
    extends SameBase r r', Posts r'.idOf r'.posted where
  inbox : ∀ k, k ≠ c → ∀ i, r'.inbox k i = r.inbox k i
  members : ∀ t q, membersAfter r'.posted t q =
    if q = pid ∧ ∃ i ∈ seen, r.channels i = some t then none else membersAfter r.posted t q

theorem Left.unenrol {seen : List ChannelID}
    (hl : Left r c pid seen r') (hpid : r.idOf c = some pid) (i : ChannelID) :
    Left r c pid (seen ++ [i]) (r'.unenrolPeerFromChannel c i) := by
  have hinbox : ∀ k, k ≠ c → ∀ j, (r'.setInbox c i none).inbox k j = r.inbox k j := by
    intro k hk j
    show (if k = c ∧ j = i then none else r'.inbox k j) = r.inbox k j
    rw [if_neg fun hand => hk hand.1]
    exact hl.inbox k hk j
  unfold unenrolPeerFromChannel
  rw [hl.channels, hl.idOf, hpid]
  cases ht : r.channels i with
  | none =>
    refine ⟨{ hl with }, hl.toPosts, hinbox, fun t q => ?_⟩
    show membersAfter r'.posted t q = _
    rw [hl.members]
    simp [or_and_right, exists_or, ht]
  | some t' =>
    refine ⟨{ hl with }, hl.toPosts.unbind, hinbox, fun t q => ?_⟩
    show membersAfter (r'.posted ++ [(t', ⟨pid, none⟩)]) t q = _
    rw [membersAfter_append_one, hl.members]
    by_cases hq : q = pid
    · by_cases htt : t' = t
      · simp [hq, htt, or_and_right, exists_or, ht]
      · simp [hq, htt, or_and_right, exists_or, ht]
    · simp [hq]

theorem left_foldl (hpid : r.idOf c = some pid) (hposts : Posts r.idOf r.posted) (ids : List ChannelID) :
    Left r c pid ids (ids.foldl (fun r' i => r'.unenrolPeerFromChannel c i) r) := by
  have hstart : Left r c pid [] r := by
    refine ⟨.refl r, hposts, fun _ _ _ => rfl, fun t q => ?_⟩
    simp
  exact foldl_seen (I := Left r c pid) (fun _ _ i hl => hl.unenrol hpid i) ids hstart

/-- `removePeer` of a current connection; its handle may go with it. -/
theorem Agree.removePeer (hr : r.Agree) (hready : r.Ready)
    (hc : r.peers pid = some c) {ids : List ChannelID} (hall : ∀ i, r.subs c i = true → i ∈ ids)
    (hbound : ∀ k, k ≠ c → r.bound k → bound k) :
    (ids.foldl (fun (r' : Routes) i => r'.unenrolPeerFromChannel c i)
      { r with peers := update r.peers pid none, bound := bound }).Agree := by
  have hl : Left { r with peers := update r.peers pid none, bound := bound } c pid ids _ :=
    left_foldl (r := { r with peers := update r.peers pid none, bound := bound })
      (hready pid c hc).1 hr.toPosts ids
  have hpeers : ∀ q k, update r.peers pid none q = some k → q ≠ pid ∧ r.peers q = some k := by
    intro q k hk
    by_cases hq : q = pid
    · rw [hq, update_self] at hk
      cases hk
    · rw [update_of_ne hq] at hk
      exact ⟨hq, hk⟩
  have hother : ∀ q k, q ≠ pid → r.peers q = some k → k ≠ c := by
    rintro q k hq hk rfl
    exact hq (Option.some.inj ((hready q k hk).1.symm.trans (hready pid k hc).1))
  refine ⟨hl.toPosts, fun q k hk i => ?_, fun i t ht q => ?_, ?_, fun q k hk => ?_, fun k hk i => ?_⟩
  · rw [hl.peers] at hk
    obtain ⟨hq, hk⟩ := hpeers q k hk
    rw [hl.inbox k (hother q k hq hk), hl.subs, hl.channels]
    exact hr.routed q k hk i
  · rw [hl.channels] at ht
    rw [hl.members, hl.peers, hl.subs]
    show (if q = pid ∧ ∃ i ∈ ids, r.channels i = some t then none else membersAfter r.posted t q) =
      (update r.peers pid none q).filter (r.subs · i)
    by_cases hq : q = pid
    · subst hq
      rw [update_self, hr.members i t ht q, hc]
      split
      · rfl
      rename_i hnone
      have hsub : r.subs c i = false := by
        rw [Bool.eq_false_iff]
        exact fun hsub => hnone ⟨rfl, i, hall i hsub, ht⟩
      simp [hsub]
    · rw [if_neg fun hand => hq hand.1, update_of_ne hq]
      exact hr.members i t ht q
  · rw [hl.channels]
    exact hr.distinct
  · rw [hl.peers] at hk
    rw [hl.bound]
    obtain ⟨hq, hk⟩ := hpeers q k hk
    exact hbound k (hother q k hq hk) (hr.bound q k hk)
  · rw [hl.greeted] at hk
    have hkc : k ≠ c := by
      rintro rfl
      have hk : r.greeted k = false := hk
      rw [(hready pid k hc).2] at hk
      cases hk
    rw [hl.inbox k hkc]
    exact hr.untouched k hk i

def enrolAll (r : Routes) (c : ConnRef) (channels : List ChannelID) : Routes × Map ChannelID Unit :=
  channels.foldl (fun acc id =>
    if (acc.2.get id).isSome then acc
    else (acc.1.enrolPeerToChannel c id, acc.2.set id ())) (r, ∅)

/-- The connection `c` of `pid` has been enrolled to the channels of `acc.2`. -/
structure Enrolled (r : Routes) (c : ConnRef) (pid : PeerID) (acc : Routes × Map ChannelID Unit) :
    Prop extends SameBase r acc.1, Posts acc.1.idOf acc.1.posted where
  inbox : ∀ k i, acc.1.inbox k i = if k = c ∧ (acc.2.get i).isSome = true then r.channels i else r.inbox k i
  others : ∀ t q, q ≠ pid → membersAfter acc.1.posted t q = membersAfter r.posted t q
  members : ∀ i t, r.channels i = some t →
    membersAfter acc.1.posted t pid = if (acc.2.get i).isSome then some c else none

theorem Enrolled.enrol {acc : Routes × Map ChannelID Unit}
    (he : Enrolled r c pid acc) (hpid : r.idOf c = some pid)
    (hdistinct : ∀ id id' t, r.channels id = some t → r.channels id' = some t → id = id')
    (hempty : ∀ i, r.inbox c i = none) (i : ChannelID) :
    Enrolled r c pid (acc.1.enrolPeerToChannel c i, acc.2.set i ()) := by
  obtain ⟨r', subs⟩ := acc
  cases ht : r.channels i with
  | none =>
    have hreg : r'.channels i = none := (congrFun he.channels i).trans ht
    have henrol : r'.enrolPeerToChannel c i = r' := by simp [enrolPeerToChannel, hreg]
    rw [henrol]
    refine { he with inbox := fun k j => ?_, members := fun j t hj => ?_ }
    · rw [he.inbox]
      by_cases hj : j = i
      · subst hj
        by_cases hk : k = c
        · simp [hk, ht, hempty]
        · simp [hk]
      · simp [hj]
    · have hji : j ≠ i := by
        rintro rfl
        rw [ht] at hj
        cases hj
      rw [he.members j t hj]
      simp [hji]
  | some t =>
    have hreg : r'.channels i = some t := (congrFun he.channels i).trans ht
    have hid : r'.idOf c = some pid := (congrFun he.idOf c).trans hpid
    rw [enrol_eq hreg hid]
    refine ⟨{ he with }, he.toPosts.bind hid ?_, fun k j => ?_, fun t' q hq => ?_, fun j t' hj => ?_⟩
    · rw [he.members i t ht]
      split
      · exact .inr rfl
      · exact .inl rfl
    · show (if k = c ∧ j = i then some t else r'.inbox k j) = _
      rw [he.inbox]
      by_cases hj : j = i
      · subst hj
        by_cases hk : k = c
        · simp [hk, ht]
        · simp [hk]
      · simp [hj]
    · show membersAfter (r'.posted ++ [(t, ⟨pid, some c⟩)]) t' q = _
      rw [membersAfter_append_one, if_neg fun hand => hq hand.2]
      exact he.others t' q hq
    · show membersAfter (r'.posted ++ [(t, ⟨pid, some c⟩)]) t' pid = _
      rw [membersAfter_append_one, he.members j t' hj]
      by_cases hji : j = i
      · subst hji
        have htt : t = t' := Option.some.inj (ht.symm.trans hj)
        simp [htt]
      have htt : t ≠ t' := by
        rintro rfl
        exact hji (hdistinct j i t hj ht)
      simp [hji, htt]

theorem enrolled_enrolAll (hpid : r.idOf c = some pid)
    (hdistinct : ∀ id id' t, r.channels id = some t → r.channels id' = some t → id = id')
    (hempty : ∀ i, r.inbox c i = none)
    (hmembers : ∀ i t, r.channels i = some t → membersAfter r.posted t pid = none)
    (hposts : Posts r.idOf r.posted) (channels : List ChannelID) : Enrolled r c pid (r.enrolAll c channels) := by
  have hstart : Enrolled r c pid (r, ∅) := by
    refine ⟨.refl r, hposts, fun k i => ?_, fun _ _ _ => rfl, fun i t ht => ?_⟩
    · simp
    · simpa using hmembers i t ht
  unfold enrolAll
  refine foldl_rel (r := fun acc acc' => Enrolled r c pid acc → Enrolled r c pid acc')
    (fun _ h => h) (fun h h' hx => h' (h hx)) (fun acc i he => ?_) channels (r, ∅) hstart
  split
  · exact he
  · exact he.enrol hpid hdistinct hempty i

/-- `handlePeerHandshake` of a connection whose ID has no current connection. -/
theorem Agree.handshake (hr : r.Agree) (hpid : r.idOf c = some pid)
    (hready : r.Ready) (hnew : r.greeted c = false) (hfree : r.peers pid = none) (hbound : r.bound c)
    (channels : List ChannelID) (acc : Routes × Map ChannelID Unit)
    (hacc : acc = enrolAll { r with peers := update r.peers pid (some c) } c channels) :
    Agree { acc.1 with
      subs := update acc.1.subs c fun i => (acc.2.get i).isSome
      greeted := update acc.1.greeted c true } := by
  have he : Enrolled { r with peers := update r.peers pid (some c) } c pid acc := by
    rw [hacc]
    refine enrolled_enrolAll (r := { r with peers := update r.peers pid (some c) }) hpid
      hr.distinct (hr.untouched c hnew) (fun i t ht => ?_) hr.toPosts channels
    show membersAfter r.posted t pid = none
    rw [hr.members i t ht, hfree]
    rfl
  rw [he.subs, he.greeted]
  have hother : ∀ q k, q ≠ pid → r.peers q = some k → k ≠ c := by
    rintro q k hq hk rfl
    have hdone := (hready q k hk).2
    rw [hnew] at hdone
    cases hdone
  have hpeers : ∀ q k, update r.peers pid (some c) q = some k →
      q = pid ∧ k = c ∨ q ≠ pid ∧ k ≠ c ∧ r.peers q = some k := by
    intro q k hk
    by_cases hq : q = pid
    · rw [hq, update_self] at hk
      exact .inl ⟨hq, (Option.some.inj hk).symm⟩
    · rw [update_of_ne hq] at hk
      exact .inr ⟨hq, hother q k hq hk, hk⟩
  refine ⟨he.toPosts, fun q k hk i => ?_, fun i t ht q => ?_, ?_, fun q k hk => ?_, fun k hk i => ?_⟩
  · show acc.1.inbox k i = if update r.subs c (fun i => (acc.2.get i).isSome) k i then
      acc.1.channels i else none
    rw [he.inbox, he.channels]
    have hk : update r.peers pid (some c) q = some k := (congrFun he.peers q).symm.trans hk
    rcases hpeers q k hk with ⟨rfl, rfl⟩ | ⟨_, hkc, hk⟩
    · rw [update_self]
      by_cases hsub : (acc.2.get i).isSome = true
      · rw [if_pos ⟨rfl, hsub⟩, if_pos hsub]
      · rw [if_neg fun hand => hsub hand.2, if_neg hsub]
        exact hr.untouched k hnew i
    · rw [if_neg fun hand => hkc hand.1, update_of_ne hkc]
      exact hr.routed q k hk i
  · have ht : r.channels i = some t := (congrFun he.channels i).symm.trans ht
    show membersAfter acc.1.posted t q = (acc.1.peers q).filter (update r.subs c (fun i => (acc.2.get i).isSome) · i)
    rw [he.peers]
    show _ = (update r.peers pid (some c) q).filter _
    by_cases hq : q = pid
    · rw [hq, he.members i t ht, update_self]
      simp [Option.filter]
    rw [he.others t q hq, update_of_ne hq]
    show membersAfter r.posted t q = _
    rw [hr.members i t ht q]
    cases hk : r.peers q with
    | none => rfl
    | some k => simp [Option.filter, update_of_ne (hother q k hq hk)]
  · show ∀ i i' t, acc.1.channels i = some t → acc.1.channels i' = some t → i = i'
    rw [he.channels]
    exact hr.distinct
  · show acc.1.bound k
    rw [he.bound]
    have hk : update r.peers pid (some c) q = some k := (congrFun he.peers q).symm.trans hk
    rcases hpeers q k hk with ⟨rfl, rfl⟩ | ⟨_, _, hk⟩
    · exact hbound
    · exact hr.bound q k hk
  · have hkc : k ≠ c := by
      rintro rfl
      simp at hk
    have hk : r.greeted k = false := (update_of_ne hkc _ _).symm.trans hk
    show acc.1.inbox k i = none
    rw [he.inbox, if_neg fun hand => hkc hand.1]
    exact hr.untouched k hk i

/-- A handle of no current connection goes. -/
theorem Agree.unbind (hr : r.Agree) (hc : ∀ pid, r.peers pid ≠ some c)
    (hbound : ∀ k, k ≠ c → r.bound k → bound k) : Agree { r with bound := bound } := by
  refine { hr with bound := fun pid k hk => hbound k ?_ (hr.bound pid k hk) }
  rintro rfl
  exact hc pid hk

/-- A new connection is bound to its handle. -/
theorem Agree.bind (hr : r.Agree) (hnew : r.idOf c = none) (pid : PeerID) (hbound : ∀ k, r.bound k → bound k) :
    Agree { r with idOf := update r.idOf c (some pid), bound := bound } := by
  refine { hr with named := fun q hq d hd => ?_, bound := fun q k hk => hbound k (hr.bound q k hk) }
  have hidOf := hr.named q hq d hd
  have hdc : d ≠ c := by
    rintro rfl
    rw [hnew] at hidOf
    cases hidOf
  exact (update_of_ne hdc _ _).trans hidOf

end Routes

/-! ## Every run of the engine -/

namespace Engine

variable {c : ConnRef} {e : Engine} {p : PeerConn}

section

variable (hp : e.conns.get c = some p)
include hp

theorem subs_of_get : e.routes.subs c = fun i => (p.subs.get i).isSome := by
  funext i
  show (e.conns.get c).any _ = _
  rw [hp]
  rfl

theorem routes_setSubs (subs : Map ChannelID Unit → Map ChannelID Unit) {id : ChannelID} {present : Bool}
    (hsubs : ∀ i, ((subs p.subs).get i).isSome = if i = id then present else (p.subs.get i).isSome) :
    (e.updConn c fun p => { p with subs := subs p.subs }).routes =
      e.routes.setSubs c (update (e.routes.subs c) id present) := by
  rw [routes_updConn e c (fun p => { p with subs := subs p.subs }) fun _ => rfl]
  refine Routes.ext rfl rfl rfl (funext fun k => ?_) (funext fun k => funext fun i => ?_)
    (funext fun k => funext fun i => ?_) rfl rfl
  · refine read_kept (Option.any (·.handshakeDone)) e c (fun _ => ?_) k
    rfl
  · by_cases hk : k = c
    · simp [hk, hp, Routes.setSubs, subs_of_get hp, hsubs, update_apply]
    · simp [hk, Routes.setSubs]
  · refine read_kept (Option.bind · (·.channelInboxes.get i)) e c (fun _ => ?_) k
    rfl

theorem idOf_of_get : e.routes.idOf c = some p.id := by
  show (e.conns.get c).map _ = _
  rw [hp]
  rfl

end

theorem routes_foldl_unenrol (e : Engine) (c : ConnRef) (ids : List ChannelID) :
    (ids.foldl (fun (e : Engine) id => e.unenrolPeerFromChannel c id) e).routes =
      ids.foldl (fun (r : Routes) id => r.unenrolPeerFromChannel c id) e.routes := by
  induction ids generalizing e with
  | nil => rfl
  | cons id ids ih => rw [List.foldl_cons, List.foldl_cons, ih, routes_unenrol]

theorem routes_enrolAll (e : Engine) (c : ConnRef) (channels : List ChannelID) :
    ((e.enrolAll c channels).1.routes, (e.enrolAll c channels).2) = e.routes.enrolAll c channels := by
  unfold enrolAll Routes.enrolAll
  generalize (∅ : Map ChannelID Unit) = subs
  induction channels generalizing e subs with
  | nil => rfl
  | cons id channels ih =>
    rw [List.foldl_cons, List.foldl_cons]
    by_cases hid : (subs.get id).isSome
    · simp only [hid, if_true]
      exact ih e subs
    simp only [hid, Bool.false_eq_true, if_false]
    rw [← routes_enrol]
    exact ih _ _

section Keep

variable {e : Engine}

section

variable (hr : e.routes.Agree)
include hr

theorem agree_addChannel (hready : e.routes.Ready) {h : ChannelRef}
    (hfresh : e.routes.Fresh h) (o : Order PeerID) (id : ChannelID) : (e.addChannel o id h).routes.Agree := by
  unfold addChannel
  cases hid : e.channels.get id with
  | some t => exact hr
  | none =>
    have hset : ({ e with channels := e.channels.set id h } : Engine).routes =
        { e.routes with channels := update e.routes.channels id (some h) } := by
      refine Routes.ext (funext fun k => ?_) rfl rfl rfl rfl rfl rfl rfl
      show (e.channels.set id h).get k = update e.channels.get id (some h) k
      rw [get_set, update_apply]
    have hloop := routes_forPeers (routes_joinPeer id)
      (({ e with channels := e.channels.set id h } : Engine).observe (.channelAttached id false)) o
    rw [routes_observe, hset] at hloop
    show (routes (forPeers _ o (joinPeer id))).Agree
    rw [hloop]
    exact hr.addChannel hready hid hfresh fun pid c hc =>
      mem_range.mpr (mem_keys_of_get hc)

theorem agree_removeChannel (o : Order PeerID) (id : ChannelID) : (e.removeChannel o id).routes.Agree := by
  unfold removeChannel
  split
  · exact hr
  have hloop := routes_forPeers (routes_leavePeer id) e o
  have hchannels : (e.forPeers o (leavePeer id)).channels.get = e.channels.get := by
    have hfield := congrArg Routes.channels hloop
    rw [Routes.forPeers_leave] at hfield
    exact hfield
  have hdel : (observe { e.forPeers o (leavePeer id) with
      channels := (e.forPeers o (leavePeer id)).channels.del id } (.channelDropped id)).routes =
      { e.routes.forPeers (e.peers.range o) (Routes.leavePeer id) with
        channels := update e.routes.channels id none } := by
    rw [← hloop]
    refine Routes.ext (funext fun k => ?_) rfl rfl rfl rfl rfl rfl rfl
    show ((e.forPeers o (leavePeer id)).channels.del id).get k = update e.channels.get id none k
    rw [get_del, hchannels, update_apply]
  show (routes (observe _ _)).Agree
  rw [hdel]
  exact hr.removeChannel fun pid c hc => mem_range.mpr (mem_keys_of_get hc)

theorem agree_peerSubscribed (hready : e.routes.Ready) (c : ConnRef)
    (id : ChannelID) : (e.peerSubscribed c id).routes.Agree := by
  unfold peerSubscribed
  cases hp : e.conns.get c with
  | none => exact hr
  | some p =>
    simp only
    split
    · exact hr
    rename_i hcur
    split
    · exact hr
    rename_i hnew
    rw [routes_observe, routes_enrol,
      routes_setSubs hp (·.set id ()) fun i => by rw [get_set, apply_ite Option.isSome]]
    refine hr.subscribe hready (not_not.mp hcur) ?_
    rw [subs_of_get hp]
    simpa using hnew

theorem agree_peerUnsubscribed (hready : e.routes.Ready) (c : ConnRef)
    (id : ChannelID) : (e.peerUnsubscribed c id).routes.Agree := by
  unfold peerUnsubscribed
  cases hp : e.conns.get c with
  | none => exact hr
  | some p =>
    simp only
    split
    · exact hr
    rename_i hcur
    split
    · exact hr
    rw [routes_observe, routes_unenrol,
      routes_setSubs hp (·.del id) fun i => by rw [get_del, apply_ite Option.isSome]]
    exact hr.unsubscribe hready (not_not.mp hcur)

/-- A connection goes, and its handle may be unbound. -/
theorem agree_handlePeerGone (hready : e.routes.Ready) (o : Order ChannelID)
    (c : ConnRef) {bindings : Map HandleRef ConnRef}
    (hbind : ∀ k, k ≠ c → e.routes.bound k → ∃ peer, bindings.get peer = some k) :
    (({ e with bindings := bindings } : Engine).handlePeerGone o c).routes.Agree := by
  unfold handlePeerGone
  rw [routes_onLink _ c (f := stop) (fun _ => rfl) fun _ => rfl]
  unfold removePeer
  dsimp only
  cases hp : e.conns.get c with
  | none =>
    refine hr.unbind (c := c) (fun pid hc => ?_) hbind
    have hid := (hready pid c hc).1
    simp [routes, hp] at hid
  | some p =>
    simp only
    split
    · rename_i hcur
      refine hr.unbind (c := c) (fun pid hc => hcur ?_) hbind
      have hid := (hready pid c hc).1
      rw [idOf_of_get hp] at hid
      cases hid
      exact hc
    rename_i hcur
    rw [routes_observe, routes_foldl_unenrol]
    have hdel : ({ e with bindings := bindings, peers := e.peers.del p.id } : Engine).routes =
        { e.routes with
          peers := update e.routes.peers p.id none
          bound := fun k => ∃ peer, bindings.get peer = some k } := by
      refine Routes.ext rfl (funext fun k => ?_) rfl rfl rfl rfl rfl rfl
      show (e.peers.del p.id).get k = update e.peers.get p.id none k
      rw [get_del, update_apply]
    rw [hdel]
    refine hr.removePeer hready (not_not.mp hcur) (fun i hi => ?_) hbind
    rw [subs_of_get hp] at hi
    exact mem_range.mpr (mem_keys.mpr (Option.isSome_iff_exists.mp hi))

end

theorem routes_foldl_observe {A : Type*} (obs : A → EngineObservation) (as : List A) (e : Engine) :
    (as.foldl (fun e a => e.observe (obs a)) e).routes = e.routes :=
  foldl_same routes (fun e a => routes_observe e (obs a)) as e

/-- The view after the handshake of a connection that is not closed. -/
theorem routes_handlePeerHandshake (hp : e.conns.get c = some p)
    (hctx : p.ctxDone = false) (o : Order ChannelID) (channels : List ChannelID)
    (acc : Routes × Map ChannelID Unit) (hacc : acc = Routes.enrolAll
      { e.routes with peers := update e.routes.peers p.id (some c) } c channels) :
    (e.handlePeerHandshake o c channels).routes = { acc.1 with
      subs := update acc.1.subs c fun i => (acc.2.get i).isSome
      greeted := update acc.1.greeted c true } := by
  simp only [handlePeerHandshake, hp, hctx, Bool.false_eq_true, if_false]
  rw [routes_foldl_observe, routes_observe]
  generalize he : ({ e with
    peers := e.peers.set p.id c
    conns := e.conns.set c (p.onLink fun l => { l with ctrlState := e.greet o l }) } : Engine) = e₁
  have hstart : e₁.routes =
      { e.routes with peers := update e.routes.peers p.id (some c) } := by
    subst he
    refine Routes.ext rfl (funext fun k => ?_) (funext fun k => ?_) (funext fun k => ?_)
      (funext fun k => funext fun i => ?_) (funext fun k => funext fun i => ?_) rfl rfl
    · show (e.peers.set p.id c).get k = update e.peers.get p.id (some c) k
      rw [get_set, update_apply]
    all_goals
      simp only [routes, subscribes, channelInboxFor, get_set]
      by_cases hk : k = c
      · simp [hk, hp, onLink]
      · simp [hk]
  rw [← hstart, ← routes_enrolAll] at hacc
  subst hacc
  have henrol := enrolAll_agree e₁ c channels
  have hconn : ∃ q, (e₁.enrolAll c channels).1.conns.get c = some q := by
    have hlink : e₁.links c ≠ none := by
      subst he
      simp [links]
    rw [← henrol.links c] at hlink
    obtain ⟨l, hl⟩ := Option.ne_none_iff_exists'.mp hlink
    obtain ⟨q, hq, _⟩ := Option.map_eq_some_iff.mp hl
    exact ⟨q, hq⟩
  obtain ⟨q, hq⟩ := hconn
  rw [routes_updConn _ c (fun p => { p with
    subs := (e₁.enrolAll c channels).2, handshakeDone := true }) fun _ => rfl]
  refine Routes.ext rfl rfl rfl (funext fun k => ?_) (funext fun k => funext fun i => ?_)
    (funext fun k => funext fun i => ?_) rfl rfl
  · by_cases hk : k = c
    · simp [hk, hq]
    · simp [hk]
  · by_cases hk : k = c
    · simp [hk, hq]
    · simp [hk]
  · refine read_kept (Option.bind · (·.channelInboxes.get i)) (e₁.enrolAll c channels).1 c (fun _ => ?_) k
    rfl

end Keep

end Engine

namespace EngineSystem

/-- A handle is registered once: each `AttachChannel` makes its own. -/
def FreshHandle (x : EngineSystem) : EngineOp → Prop
  | .addChannel _ _ h => x.engine.routes.Fresh h
  | _ => True

variable {x : EngineSystem}

section

variable (h : Inv x)
include h

theorem Inv.routes_ready : x.engine.routes.Ready := by
  intro pid c hc
  obtain ⟨l, hl, hid, hdone⟩ := h.ready pid c hc
  obtain ⟨p, hp, rfl⟩ := Option.map_eq_some_iff.mp hl
  refine ⟨?_, ?_⟩
  · rw [idOf_of_get hp, hid]
  show (x.engine.conns.get c).any _ = true
  rw [hp]
  exact hdone

section

variable (hr : x.engine.routes.Agree)
include hr

/-- When a handshake completes, its ID has no current connection: the `PeerDown` of the last one came
before the `PeerUp` of this one. -/
theorem Inv.free_of_handshake {c : ConnRef} {p : PeerConn}
    (hp : x.engine.conns.get c = some p) (hctx : p.ctxDone = false) (hnew : p.handshakeDone = false) :
    x.engine.routes.bound c ∧ x.engine.routes.peers p.id = none := by
  have hl : x.engine.links c = some p.toPeerLink := by simp [links, hp]
  have hconn := h.conns c p.toPeerLink hl
  have hopen : p.ctrlState.closed = false := by
    rw [Bool.eq_false_iff]
    intro hclosed
    have hdone := hconn.stopped hclosed
    rw [hctx] at hdone
    cases hdone
  obtain ⟨peer, hpeer⟩ := hconn.bound hopen
  refine ⟨⟨peer, hpeer⟩, ?_⟩
  rw [Option.eq_none_iff_forall_not_mem]
  intro d hd
  obtain ⟨l, hl', hid, hdone⟩ := h.ready p.id d hd
  obtain ⟨peer', hpeer'⟩ := hr.bound p.id d hd
  have hsame : c = d := h.unique peer peer' c d p.toPeerLink l hpeer hpeer' hl hl' hid.symm
  subst hsame
  rw [hl] at hl'
  cases hl'
  rw [hnew] at hdone
  cases hdone

variable (o : Order ChannelID)

theorem agree_handshake (c : ConnRef) (channels : List ChannelID) :
    (x.step (.handshake o c channels)).engine.routes.Agree := by
  simp only [step]
  split
  · exact hr
  rename_i hdone
  show (x.engine.handlePeerHandshake o c channels).routes.Agree
  cases hp : x.engine.conns.get c with
  | none =>
    have hsame : x.engine.handlePeerHandshake o c channels = x.engine := by
      simp [handlePeerHandshake, hp]
    rw [hsame]
    exact hr
  | some p =>
    have hnew : p.handshakeDone = false := by simpa [links, hp] using hdone
    cases hctx : p.ctxDone with
    | true =>
      have hsame : x.engine.handlePeerHandshake o c channels = x.engine := by
        simp [handlePeerHandshake, hp, hctx]
      rw [hsame]
      exact hr
    | false =>
      obtain ⟨hbound, hfree⟩ := h.free_of_handshake hr hp hctx hnew
      rw [routes_handlePeerHandshake hp hctx o channels _ rfl]
      refine hr.handshake (idOf_of_get hp) h.routes_ready ?_ hfree hbound channels _ rfl
      show (x.engine.conns.get c).any _ = false
      rw [hp]
      exact hnew

theorem agree_peerUp (peer : HandleRef) (id : PeerID) (live : Bool) :
    (x.step (.peerUp o peer id live)).engine.routes.Agree := by
  simp only [step]
  split
  · exact hr
  rename_i hfree
  cases live with
  | false => exact hr
  | true =>
    have hnone : x.engine.conns.get x.engine.nextConn = none := by
      simpa [links] using h.fresh x.engine.nextConn le_rfl
    have hpeer : x.engine.bindings.get peer = none := by
      simp only [Bool.or_eq_true, not_or, Bool.not_eq_true, Option.isSome_eq_false_iff,
        Option.isNone_iff_eq_none] at hfree
      exact hfree.1
    have hbind : (x.engine.bindPeer o peer id true).routes = { x.engine.routes with
        idOf := update x.engine.routes.idOf x.engine.nextConn (some id)
        bound := fun k => ∃ q, (x.engine.bindings.set peer x.engine.nextConn).get q = some k } := by
      refine Routes.ext rfl rfl (funext fun k => ?_) (funext fun k => ?_)
        (funext fun k => funext fun i => ?_) (funext fun k => funext fun i => ?_) rfl rfl
      all_goals
        simp only [routes, bindPeer, subscribes, channelInboxFor]
        by_cases hk : k = x.engine.nextConn
        · simp [hk, hnone]
        · simp [hk]
    show (x.engine.bindPeer o peer id true).routes.Agree
    rw [hbind]
    refine hr.bind ?_ id ?_
    · show (x.engine.conns.get _).map _ = none
      rw [hnone]
      rfl
    rintro k ⟨q, hq⟩
    refine ⟨q, ?_⟩
    have hqp : q ≠ peer := by
      rintro rfl
      rw [hpeer] at hq
      cases hq
    rw [get_set, if_neg hqp]
    exact hq

theorem agree_peerDown (peer : HandleRef) : (x.step (.peerDown o peer)).engine.routes.Agree := by
  show (x.engine.peerDown o peer).routes.Agree
  unfold peerDown
  split
  · exact hr
  rename_i c hc
  refine agree_handlePeerGone hr h.routes_ready o c ?_
  rintro k hk ⟨q, hq⟩
  refine ⟨q, ?_⟩
  have hqp : q ≠ peer := by
    rintro rfl
    rw [hc] at hq
    exact hk (Option.some.inj hq).symm
  rw [get_del, if_neg hqp]
  exact hq

/-- **Each step keeps the three views together.** -/
theorem agree_step (op : EngineOp) (hop : FreshHandle x op) : (x.step op).engine.routes.Agree := by
  have honLink : ∀ (c : ConnRef) (f : PeerLink → PeerLink), (∀ l, (f l).id = l.id) →
      (∀ l, (f l).handshakeDone = l.handshakeDone) →
      (x.engine.updConn c (onLink f)).routes.Agree := by
    intro c f hid hdone
    rw [routes_onLink _ c hid hdone]
    exact hr
  cases op with
  | addChannel o id ref => exact agree_addChannel hr h.routes_ready hop o id
  | removeChannel o id => exact agree_removeChannel hr o id
  | peerUp o peer id live => exact agree_peerUp h hr o peer id live
  | peerDown o peer => exact agree_peerDown h hr o peer
  | handshake o c channels => exact agree_handshake h hr o c channels
  | subscribed c id => exact agree_peerSubscribed hr h.routes_ready c id
  | unsubscribed c id => exact agree_peerUnsubscribed hr h.routes_ready c id
  | gone o c => exact agree_handlePeerGone hr h.routes_ready o c fun _ _ hk => hk
  | cancel c | runExit c | call c => exact honLink c _ (fun _ => rfl) fun _ => rfl
  | next c o₁ o₂ =>
    simp only [step]
    split
    · exact hr
    split
    · exact honLink c _ (fun _ => rfl) fun _ => rfl
    · exact hr

end

end

theorem agree_init : ({} : EngineSystem).engine.routes.Agree where
  inOrder _ := trivial
  named _ h := nomatch h
  routed _ _ h := nomatch h
  members _ _ h := nomatch h
  distinct _ _ _ h := nomatch h
  bound _ _ h := nomatch h
  untouched _ _ _ := rfl

/-! ## Events that come too late -/

/-- An event of a connection that is not the current one of its peer, or a handshake of one that is
closed. -/
def Stale (x : EngineSystem) : EngineOp → Prop
  | .subscribed c _ | .unsubscribed c _ | .gone _ c =>
    ∀ p, x.engine.conns.get c = some p → x.engine.peers.get p.id ≠ some c
  | .handshake _ c _ => ∀ p, x.engine.conns.get c = some p → p.ctxDone = true
  | _ => False

/-- What comes too late changes no view. -/
theorem stale_routes (op : EngineOp) (hop : Stale x op) : (x.step op).engine.routes = x.engine.routes := by
  have hgone : ∀ o c, (∀ p, x.engine.conns.get c = some p → x.engine.peers.get p.id ≠ some c) →
      x.engine.removePeer o c = x.engine := by
    intro o c hstale
    unfold removePeer
    split
    · rfl
    · rename_i p hp
      rw [if_pos (hstale p hp)]
  cases op with
  | subscribed c id =>
    show (x.engine.peerSubscribed c id).routes = _
    unfold peerSubscribed
    split
    · rfl
    · rename_i p hp
      rw [if_pos (hop p hp)]
  | unsubscribed c id =>
    show (x.engine.peerUnsubscribed c id).routes = _
    unfold peerUnsubscribed
    split
    · rfl
    · rename_i p hp
      rw [if_pos (hop p hp)]
  | gone o c =>
    show (updConn (x.engine.removePeer o c) c (onLink stop)).routes = _
    rw [hgone o c hop, routes_onLink x.engine c (f := stop) (fun _ => rfl) fun _ => rfl]
  | handshake o c channels =>
    simp only [step]
    split
    · rfl
    show (x.engine.handlePeerHandshake o c channels).routes = _
    unfold handlePeerHandshake
    split
    · rfl
    · rename_i p hp
      rw [if_pos (hop p hp)]
  | _ => cases hop

end EngineSystem

end EthP2P.Broadcast
