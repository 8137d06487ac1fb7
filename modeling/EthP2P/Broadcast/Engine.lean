/-
# EthP2P.Broadcast.Engine — the engine actor: channels, peers and their bindings

`Engine` (`broadcast/engine.go`) owns the registered channels, the peers that completed the
broadcast handshake and the binding of each family handle.  Every function below runs on the engine
actor and follows the source statement by statement; the two things that leave the actor are the
`channelPeerChange` events it sends to channel inboxes (`posted`) and the observer calls
(`observed`).  A `*PeerConn` is a reference into `conns`, so that two connections of one peer ID
stay distinct, as the source's comparisons `e.peers[p.id] != p` need.
-/
import EthP2P.Lib.Runs
import EthP2P.Broadcast.CtrlOut

namespace EthP2P.Broadcast

open Lib

/-- The identity of a `*PeerConn`. -/
abbrev ConnRef := Nat

/-- The identity of a `*channelHandle`. -/
abbrev ChannelRef := Nat

/-- The side of a `PeerConn` that faces the remote peer. -/
structure PeerLink where
  id : PeerID
  /-- The channel list our handshake carries. -/
  announced : List ChannelID := []
  ctrlState : CtrlOutState := .new
  handshakeDone : Bool := false
  /-- The connection's context has ended. -/
  ctxDone : Bool := false

namespace PeerLink

def announce (id : ChannelID) (present : Bool) (l : PeerLink) : PeerLink :=
  { l with ctrlState := l.ctrlState.announce id present }

/-- `PeerConn.stop`, also what `Close` does to this part of the connection. -/
def stop (l : PeerLink) : PeerLink := { l with ctxDone := true, ctrlState := l.ctrlState.stop }

end PeerLink

/-- The part of a `PeerConn` the engine actor works on: its link and its routing tables. -/
structure PeerConn extends PeerLink where
  /-- The remote's subscriptions. -/
  subs : Map ChannelID Unit := ∅
  channelInboxes : Map ChannelID ChannelRef := ∅

namespace PeerConn

def BindChannel (channelID : ChannelID) (inbox : ChannelRef) (p : PeerConn) : PeerConn :=
  { p with channelInboxes := p.channelInboxes.set channelID inbox }

def UnbindChannel (channelID : ChannelID) (p : PeerConn) : PeerConn :=
  { p with channelInboxes := p.channelInboxes.del channelID }

/-- Change the link only. -/
def onLink (f : PeerLink → PeerLink) (p : PeerConn) : PeerConn :=
  { p with toPeerLink := f p.toPeerLink }

end PeerConn

/-- `channelPeerChange`: a peer joined the channel, or left it if there is no connection. -/
structure ChannelPeerChange where
  peerID : PeerID
  peerRef : Option ConnRef
  deriving DecidableEq, Repr

/-- The observer calls of the engine. -/
inductive EngineObservation where
  | channelAttached (id : ChannelID) (exists_ : Bool)
  | channelDropped (id : ChannelID)
  | peerHandshook (id : PeerID) (channels : List ChannelID)
  | peerSubscribed (id : PeerID) (channelID : ChannelID)
  | peerUnsubscribed (id : PeerID) (channelID : ChannelID)
  | peerGone (id : PeerID)
  deriving DecidableEq, Repr

structure Engine where
  channels : Map ChannelID ChannelRef := ∅
  peers : Map PeerID ConnRef := ∅
  bindings : Map HandleRef ConnRef := ∅
  conns : Map ConnRef PeerConn := ∅
  nextConn : ConnRef := 0
  /-- Sends into channel inboxes; a channel whose actor has exited does not receive them. -/
  posted : List (ChannelRef × ChannelPeerChange) := []
  /-- Channels whose registration was rejected: their context is cancelled. -/
  rejected : List ChannelRef := []
  observed : List EngineObservation := []

namespace Engine

variable (e : Engine)

def observe (o : EngineObservation) : Engine :=
  { e with observed := e.observed ++ [o] }

def post (t : ChannelRef) (change : ChannelPeerChange) : Engine :=
  { e with posted := e.posted ++ [(t, change)] }

variable (c : ConnRef)

/-- Change the connection `c` refers to. -/
def updConn (f : PeerConn → PeerConn) : Engine :=
  match e.conns.get c with
  | some p => { e with conns := e.conns.set c (f p) }
  | none => e

/-- `for _, p := range e.peers { body(p) }`. -/
def forPeers (o : Order PeerID) (body : Engine → ConnRef → Engine) : Engine :=
  (e.peers.range o).foldl (fun e pid => ((e.peers.get pid).map (body e)).getD e) e

def enrolPeerToChannel (channelID : ChannelID) : Engine :=
  match e.channels.get channelID, e.conns.get c with
  | some t, some p =>
    (e.updConn c (PeerConn.BindChannel channelID t)).post t ⟨p.id, some c⟩
  | _, _ => e

def unenrolPeerFromChannel (channelID : ChannelID) : Engine :=
  let e' := e.updConn c (PeerConn.UnbindChannel channelID)
  match e.channels.get channelID, e.conns.get c with
  | some t, some p => e'.post t ⟨p.id, none⟩
  | _, _ => e'

/-- What `addChannel` does for one peer. -/
def joinPeer (id : ChannelID) (e : Engine) (c : ConnRef) : Engine :=
  let e := match e.conns.get c with
    | some p => if (p.subs.get id).isSome then e.enrolPeerToChannel c id else e
    | none => e
  e.updConn c (PeerConn.onLink (·.announce id true))

/-- What `removeChannel` does for one peer. -/
def leavePeer (id : ChannelID) (e : Engine) (c : ConnRef) : Engine :=
  (e.updConn c (PeerConn.UnbindChannel id)).updConn c (PeerConn.onLink (·.announce id false))

def addChannel (o : Order PeerID) (id : ChannelID) (h : ChannelRef) : Engine :=
  if (e.channels.get id).isSome then
    { e with rejected := e.rejected ++ [h] }.observe (.channelAttached id true)
  else
    ({ e with channels := e.channels.set id h }.observe (.channelAttached id false)).forPeers o (joinPeer id)

def removeChannel (o : Order PeerID) (id : ChannelID) : Engine :=
  if (e.channels.get id).isNone then e
  else
    let e := e.forPeers o (leavePeer id)
    { e with channels := e.channels.del id }.observe (.channelDropped id)

def peerSubscribed (e : Engine) (c : ConnRef) (id : ChannelID) : Engine :=
  match e.conns.get c with
  | none => e
  | some p =>
    if e.peers.get p.id ≠ some c then e
    else if (p.subs.get id).isSome then e
    else
      let e := e.updConn c fun p => { p with subs := p.subs.set id () }
      (e.enrolPeerToChannel c id).observe (.peerSubscribed p.id id)

def peerUnsubscribed (e : Engine) (c : ConnRef) (id : ChannelID) : Engine :=
  match e.conns.get c with
  | none => e
  | some p =>
    if e.peers.get p.id ≠ some c then e
    else if (p.subs.get id).isNone then e
    else
      let e := e.updConn c fun p => { p with subs := p.subs.del id }
      (e.unenrolPeerFromChannel c id).observe (.peerUnsubscribed p.id id)

/-- `bindPeer`; `live` says that the handle's context has not ended. -/
def bindPeer (o : Order ChannelID) (peer : HandleRef) (id : PeerID) (live : Bool) : Engine :=
  if !live then e
  else
    { e with
      nextConn := e.nextConn + 1
      conns := e.conns.set e.nextConn { id := id, announced := e.channels.range o : PeerConn }
      bindings := e.bindings.set peer e.nextConn }

/-- What the handshake tells the control state: the channels our own handshake announced, and what
changed since then. -/
def greet (o : Order ChannelID) (l : PeerLink) : CtrlOutState :=
  let s := l.ctrlState.announceInitial l.announced
  let s := ((e.channels.range o).filter (· ∉ l.announced)).foldl (·.announce · true) s
  (l.announced.filter fun id => (e.channels.get id).isNone).foldl (·.announce · false) s

/-- Enrol the peer to each channel of its handshake, once; the second result is `subs`. -/
def enrolAll (channels : List ChannelID) : Engine × Map ChannelID Unit :=
  channels.foldl (fun acc id =>
    if (acc.2.get id).isSome then acc
    else (acc.1.enrolPeerToChannel c id, acc.2.set id ())) (e, ∅)

def handlePeerHandshake (o : Order ChannelID) (c : ConnRef) (channels : List ChannelID) : Engine :=
  match e.conns.get c with
  | none => e
  | some p =>
    if p.ctxDone then e
    else
      let e := { e with
        peers := e.peers.set p.id c
        conns := e.conns.set c (p.onLink fun l => { l with ctrlState := e.greet o l }) }
      let e := (e.enrolAll c channels).1.updConn c fun p =>
        { p with subs := (e.enrolAll c channels).2, handshakeDone := true }
      channels.foldl (fun e id => e.observe (.peerSubscribed p.id id)) (e.observe (.peerHandshook p.id channels))

def removePeer (o : Order ChannelID) (c : ConnRef) : Engine :=
  match e.conns.get c with
  | none => e
  | some p =>
    if e.peers.get p.id ≠ some c then e
    else
      ((p.subs.range o).foldl (fun (e : Engine) id => e.unenrolPeerFromChannel c id)
        { e with peers := e.peers.del p.id }).observe (.peerGone p.id)

def handlePeerGone (o : Order ChannelID) (c : ConnRef) : Engine :=
  (e.removePeer o c).updConn c (PeerConn.onLink PeerLink.stop)

/-- `handleDelivery` at `PeerDown`. -/
def peerDown (o : Order ChannelID) (peer : HandleRef) : Engine :=
  match e.bindings.get peer with
  | none => e
  | some c => { e with bindings := e.bindings.del peer }.handlePeerGone o c

/-! ## What the functions do to the links -/

/-- The link of a connection, without its routing tables. -/
def links : Option PeerLink := (e.conns.get c).map (·.toPeerLink)

/-- `e'` has the maps of `e`, and `g` was applied to its links. -/
structure Relinked (g : ConnRef → Option PeerLink → Option PeerLink) (e e' : Engine) : Prop where
  channels : e'.channels = e.channels
  peers : e'.peers = e.peers
  bindings : e'.bindings = e.bindings
  nextConn : e'.nextConn = e.nextConn
  links : ∀ c, e'.links c = g c (e.links c)

/-- No map and no link changed. -/
abbrev Agree : Engine → Engine → Prop := Relinked fun _ l => l

/-- Apply `f` to the link of `c`. -/
def onConn (f : PeerLink → PeerLink) (k : ConnRef) (l : Option PeerLink) :
    Option PeerLink := if k = c then l.map f else l

theorem Relinked.trans {g g' : ConnRef → Option PeerLink → Option PeerLink} {e e' e'' : Engine}
    (h : Relinked g e e') (h' : Relinked g' e' e'') : Relinked (fun c l => g' c (g c l)) e e'' where
  channels := h'.channels.trans h.channels
  peers := h'.peers.trans h.peers
  bindings := h'.bindings.trans h.bindings
  nextConn := h'.nextConn.trans h.nextConn
  links c := by rw [h'.links, h.links]

theorem Agree.refl : Agree e e := ⟨rfl, rfl, rfl, rfl, fun _ => rfl⟩

theorem observe_agree (o : EngineObservation) : Agree e (e.observe o) :=
  ⟨rfl, rfl, rfl, rfl, fun _ => rfl⟩

theorem post_agree (t : ChannelRef) (change : ChannelPeerChange) :
    Agree e (e.post t change) := ⟨rfl, rfl, rfl, rfl, fun _ => rfl⟩

/-- A loop whose rounds agree agrees. -/
theorem foldl_agree {A : Type*} {g : Engine → A → Engine} (hg : ∀ e a, Agree e (g e a))
    (as : List A) (e : Engine) : Agree e (as.foldl g e) := by
  induction as generalizing e with
  | nil => exact .refl e
  | cons a as ih => exact (hg e a).trans (ih (g e a))

variable {F : PeerConn → PeerConn} {f : PeerLink → PeerLink}

/-- A change of one connection changes the link of that one alone. -/
theorem updConn_relinked (hF : ∀ p, (F p).toPeerLink = f p.toPeerLink) : Relinked (onConn c f) e (e.updConn c F) := by
  unfold updConn
  cases hc : e.conns.get c with
  | none =>
    refine ⟨rfl, rfl, rfl, rfl, fun k => ?_⟩
    by_cases hk : k = c
    · simp [onConn, links, hk, hc]
    · simp [onConn, hk]
  | some p =>
    refine ⟨rfl, rfl, rfl, rfl, fun k => ?_⟩
    by_cases hk : k = c
    · simp [onConn, links, hk, hc, hF]
    · simp [onConn, links, hk]

theorem onConn_id : onConn c (fun l => l) = fun _ l => l := by
  funext k l
  cases l <;> simp [onConn]

theorem updConn_agree (hF : ∀ p, (F p).toPeerLink = p.toPeerLink) : Agree e (e.updConn c F) := by
  simpa only [Agree, onConn_id] using updConn_relinked e c (f := fun l => l) hF

theorem updConn_onLink (f : PeerLink → PeerLink) : Relinked (onConn c f) e (e.updConn c (PeerConn.onLink f)) :=
  updConn_relinked e c fun _ => rfl

variable (id : ChannelID)

theorem enrolPeerToChannel_agree : Agree e (e.enrolPeerToChannel c id) := by
  unfold enrolPeerToChannel
  split
  · rename_i t p _ _
    have hupd : Agree e (e.updConn c (PeerConn.BindChannel id t)) :=
      updConn_agree e c fun _ => rfl
    exact hupd.trans (post_agree _ t _)
  · exact .refl e

theorem unenrolPeerFromChannel_agree : Agree e (e.unenrolPeerFromChannel c id) := by
  have hupd : Agree e (e.updConn c (PeerConn.UnbindChannel id)) := updConn_agree e c fun _ => rfl
  unfold unenrolPeerFromChannel
  split
  · exact hupd.trans (post_agree _ _ _)
  · exact hupd

theorem enrolAll_agree (channels : List ChannelID) : Agree e (e.enrolAll c channels).1 := by
  unfold enrolAll
  generalize (∅ : Map ChannelID Unit) = subs
  induction channels generalizing e subs with
  | nil => exact .refl e
  | cons id channels ih =>
    rw [List.foldl_cons]
    split
    · exact ih e subs
    · exact (enrolPeerToChannel_agree e c id).trans (ih _ _)

/-- A handshake on a live connection. -/
theorem handlePeerHandshake_spec (o : Order ChannelID) {c : ConnRef} {p : PeerConn} (channels : List ChannelID)
    (hp : e.conns.get c = some p) (hctx : p.ctxDone = false) :
    (e.handlePeerHandshake o c channels).channels = e.channels ∧
    (e.handlePeerHandshake o c channels).bindings = e.bindings ∧
    (e.handlePeerHandshake o c channels).nextConn = e.nextConn ∧
    (e.handlePeerHandshake o c channels).peers = e.peers.set p.id c ∧
    (e.handlePeerHandshake o c channels).links = Function.update e.links c
      (some { p.toPeerLink with ctrlState := e.greet o p.toPeerLink, handshakeDone := true }) := by
  simp only [handlePeerHandshake, hp, hctx, Bool.false_eq_true, if_false]
  generalize he : ({ e with
    peers := e.peers.set p.id c
    conns := e.conns.set c (p.onLink fun l => { l with ctrlState := e.greet o l }) } : Engine) = e₁
  have henrol := enrolAll_agree e₁ c channels
  have hdone := updConn_relinked (e₁.enrolAll c channels).1 c
    (F := fun p => { p with subs := (e₁.enrolAll c channels).2, handshakeDone := true })
    (f := fun l => { l with handshakeDone := true }) fun _ => rfl
  generalize he' : Engine.updConn (e₁.enrolAll c channels).1 c _ = e₂ at hdone
  have hall := ((henrol.trans hdone).trans (observe_agree e₂ (.peerHandshook p.id channels))).trans
    (foldl_agree (fun e id => e.observe_agree (.peerSubscribed p.id id)) channels _)
  subst he
  refine ⟨hall.channels, hall.bindings, hall.nextConn, hall.peers, funext fun k => ?_⟩
  rw [hall.links, onConn, Function.update_apply]
  by_cases hk : k = c
  · simp [hk, links, PeerConn.onLink, hctx]
  · simp [hk, links]

/-- A new channel is announced to the peer; enrolling it changes no link. -/
theorem joinPeer_relinked (e : Engine) (c : ConnRef) :
    Relinked (onConn c (·.announce id true)) e (joinPeer id e c) := by
  have hagree : Agree e (match e.conns.get c with
      | some p => if (p.subs.get id).isSome then e.enrolPeerToChannel c id else e
      | none => e) := by
    split
    · split
      · exact enrolPeerToChannel_agree e c id
      · exact .refl e
    · exact .refl e
  exact hagree.trans (updConn_onLink _ c (·.announce id true))

theorem leavePeer_relinked (e : Engine) (c : ConnRef) :
    Relinked (onConn c (·.announce id false)) e (leavePeer id e c) := by
  have hagree : Agree e (e.updConn c (PeerConn.UnbindChannel id)) := updConn_agree e c fun _ => rfl
  exact hagree.trans (updConn_onLink _ c (·.announce id false))

/-- A loop over the peers applies its body once to each current connection. -/
theorem forPeers_relinked {e : Engine} {body : Engine → ConnRef → Engine}
    (hbody : ∀ e c, Relinked (onConn c f) e (body e c))
    (hinj : ∀ pid pid' c, e.peers.get pid = some c → e.peers.get pid' = some c → pid = pid') (o : Order PeerID) :
    ∃ g, Relinked g e (e.forPeers o body) ∧
      (∀ pid c l, e.peers.get pid = some c → g c l = l.map f) ∧
      ∀ c l, (∀ pid, e.peers.get pid ≠ some c) → g c l = l := by
  -- over the list still to visit: `g` acts on exactly the connections of that list
  have hloop : ∀ (pids : List PeerID) (e' : Engine), pids.Nodup → e'.peers = e.peers →
      ∃ g, Relinked g e' (pids.foldl (fun e pid => ((e.peers.get pid).map (body e)).getD e) e') ∧
        (∀ pid ∈ pids, ∀ c l, e.peers.get pid = some c → g c l = l.map f) ∧
        ∀ c l, (∀ pid ∈ pids, e.peers.get pid ≠ some c) → g c l = l := by
    intro pids
    induction pids with
    | nil => exact fun e' _ _ => ⟨fun _ l => l, Agree.refl e', by simp, fun _ _ _ => rfl⟩
    | cons pid pids ih =>
      intro e' hnd hpeers
      obtain ⟨hnot, hnd⟩ := List.nodup_cons.mp hnd
      rw [List.foldl_cons, hpeers]
      cases hpid : e.peers.get pid with
      | none =>
        obtain ⟨g, hg, hvisit, hrest⟩ := ih e' hnd hpeers
        refine ⟨g, hg, fun q hq c l hc => ?_, fun c l hc => hrest c l fun q hq => ?_⟩
        · rcases List.mem_cons.mp hq with rfl | hq
          · rw [hpid] at hc; cases hc
          · exact hvisit q hq c l hc
        · exact hc q (List.mem_cons_of_mem _ hq)
      | some d =>
        have hstep := hbody e' d
        obtain ⟨g, hg, hvisit, hrest⟩ := ih (body e' d) hnd (hstep.peers.trans hpeers)
        have hd : ∀ l, g d l = l := by
          refine fun l => hrest d l fun q hq hqd => hnot ?_
          rw [hinj pid q d hpid hqd]
          exact hq
        refine ⟨_, hstep.trans hg, fun q hq c l hc => ?_, fun c l hc => ?_⟩
        · by_cases hcd : c = d
          · subst hcd
            rw [hd, onConn, if_pos rfl]
          have hq : q ∈ pids := by
            rcases List.mem_cons.mp hq with rfl | hq
            · rw [hpid] at hc; cases hc; exact absurd rfl hcd
            · exact hq
          rw [onConn, if_neg hcd, hvisit q hq c l hc]
        · have hcd : c ≠ d := by
            rintro rfl
            exact hc pid List.mem_cons_self hpid
          rw [onConn, if_neg hcd]
          exact hrest c l fun q hq => hc q (List.mem_cons_of_mem _ hq)
  obtain ⟨g, hg, hvisit, hrest⟩ := hloop (e.peers.range o) e (Map.range_nodup o _) rfl
  refine ⟨g, hg, fun pid c l hc => ?_, fun c l hc => hrest c l fun pid _ => hc pid⟩
  exact hvisit pid (Map.mem_range.mpr (Map.mem_keys_of_get hc)) c l hc

end Engine

end EthP2P.Broadcast
