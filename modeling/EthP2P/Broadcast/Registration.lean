/-
# EthP2P.Broadcast.Registration — attaching and stopping channels

`AttachChannel` makes a channel and asks the engine actor to register it; `Stop` ends the channel and asks the
actor to remove it.  Both requests wait in `eventCh`, and the caller learns of a rejection only through the
observer.

The request to remove a channel names an ID, not a handle, so `Stop` of a channel that was rejected, or of one
that was stopped before and replaced, removes the channel that is registered under the ID
(`stop_removes_another`).  If every removal that the actor gets to comes from the channel that is registered, or
finds none, then a channel that was accepted stays registered until it is stopped (`registered_until_stopped`).
-/
import EthP2P.Broadcast.Membership

namespace EthP2P.Broadcast

open Lib Wire Engine List Node

/-! ## The registered channels -/

namespace Engine

theorem channels_forPeers {body : Engine → ConnRef → Engine} (hbody : ∀ e c, (body e c).channels = e.channels)
    (e : Engine) (o : Order PeerID) : (e.forPeers o body).channels = e.channels := by
  refine foldl_same (fun e : Engine => e.channels) (fun e pid => ?_) (e.peers.range o) e
  cases e.peers.get pid with
  | none => rfl
  | some c => exact hbody e c

theorem channels_addChannel (e : Engine) (o : Order PeerID) (id : ChannelID) (h : ChannelRef) :
    (e.addChannel o id h).channels = if (e.channels.get id).isSome then e.channels else e.channels.set id h := by
  unfold addChannel
  split
  · rfl
  · exact channels_forPeers (fun e c => (joinPeer_relinked id e c).channels) _ o

theorem channels_removeChannel (e : Engine) (o : Order PeerID) (id : ChannelID) :
    (e.removeChannel o id).channels = if (e.channels.get id).isNone then e.channels else e.channels.del id := by
  unfold removeChannel
  split
  · rfl
  · show (e.forPeers o (leavePeer id)).channels.del id = _
    rw [channels_forPeers (fun e c => (leavePeer_relinked id e c).channels) e o]

end Engine

/-- The requests that change which channels are registered. -/
def EngineOp.registers : EngineOp → Bool
  | .addChannel _ _ _ | .removeChannel _ _ => true
  | _ => false

namespace EngineSystem

/-- No other step of the engine changes the registered channels. -/
theorem channels_step (x : EngineSystem) {op : EngineOp} (hop : op.registers = false) :
    (x.step op).engine.channels = x.engine.channels := by
  have honLink : ∀ (c : ConnRef) (f : PeerLink → PeerLink),
      (x.engine.updConn c (PeerConn.onLink f)).channels = x.engine.channels :=
    fun c f => (updConn_onLink x.engine c f).channels
  have hgone : ∀ (e : Engine) (o : Order ChannelID) (c : ConnRef), (e.handlePeerGone o c).channels = e.channels := by
    intro e o c
    have hstop := updConn_onLink (e.removePeer o c) c PeerLink.stop
    exact hstop.channels.trans (removePeer_spec e o c).1
  cases op with
  | addChannel o id h | removeChannel o id => cases hop
  | peerUp o peer id live => exact (x.peerUp_frame o peer id live).1
  | peerDown o peer =>
    show (x.engine.peerDown o peer).channels = _
    unfold peerDown
    split
    · rfl
    · exact hgone _ o _
  | handshake o c channels =>
    simp only [step]
    split
    · rfl
    show (x.engine.handlePeerHandshake o c channels).channels = _
    cases hc : x.engine.conns.get c with
    | none => rw [handlePeerHandshake, hc]
    | some p =>
      cases hctx : p.ctxDone with
      | true => simp only [handlePeerHandshake, hc, hctx, if_true]
      | false => exact (handlePeerHandshake_spec _ o channels hc hctx).1
  | subscribed c id =>
    show (x.engine.peerSubscribed c id).channels = _
    unfold peerSubscribed
    split
    · rfl
    split
    · rfl
    split
    · rfl
    · exact (enrolPeerToChannel_agree _ c id).channels.trans
        (updConn_agree x.engine c (F := fun p => { p with subs := p.subs.set id () }) fun _ => rfl).channels
  | unsubscribed c id =>
    show (x.engine.peerUnsubscribed c id).channels = _
    unfold peerUnsubscribed
    split
    · rfl
    split
    · rfl
    split
    · rfl
    · exact (unenrolPeerFromChannel_agree _ c id).channels.trans
        (updConn_agree x.engine c (F := fun p => { p with subs := p.subs.del id }) fun _ => rfl).channels
  | gone o c => exact hgone _ o c
  | cancel c | runExit c | call c f => exact honLink c _
  | next c o₁ o₂ =>
    simp only [step]
    split
    · rfl
    split
    · exact honLink c _
    · rfl

end EngineSystem

variable {S C R P : Type}

namespace Node

/-- The other parts of a node leave the engine alone. -/
theorem engine_aside (sch : ChannelRef → Scheme S C R P) (luck : ChannelRef → Nat → Chance)
    (names : ChannelRef → ChannelID) (ids : ConnRef → PeerID) (n : Node S) {op : NodeOp S}
    (hop : ∀ e, op ≠ .engine e) :
    (n.step sch luck names ids op).sys = n.sys ∧ (n.step sch luck names ids op).added = n.added := by
  have hfeeds : ∀ (ok : ChannelRef → Event S → Prop) {n' : Node S}, Feeds ok n n' →
      n'.sys = n.sys ∧ n'.added = n.added := fun _ _ h => ⟨h.sys, h.added⟩
  cases op with
  | engine e => exact absurd rfl (hop e)
  | deliver =>
    show n.deliver.sys = n.sys ∧ n.deliver.added = n.added
    unfold deliver
    split
    · exact ⟨rfl, rfl⟩
    split
    · exact ⟨rfl, rfl⟩
    split <;> exact ⟨rfl, rfl⟩
  | enqueueStream c s => exact hfeeds IsStream (.enqueueStream c s n)
  | chunk c st => exact hfeeds IsStream (.chunk c st n)
  | sessOpen c id msg => exact hfeeds IsStream (.sessOpen c id msg n)
  | sessSend c t msg => exact hfeeds (IsOpen ids n) (.sessSend c t msg n)
  | sessQuit c t msg => exact hfeeds IsStream (.sessQuit c t msg n)
  | channel t op =>
    show (n.channel sch luck t op).sys = n.sys ∧ (n.channel sch luck t op).added = n.added
    unfold channel
    split <;> exact ⟨rfl, rfl⟩

end Node

/-! ## Requests -/

/-- What `AttachChannel` and `DropChannel` post to the engine actor.  The request of `DropChannel` holds the ID
of the channel only; that it comes from `h` is history. -/
inductive ChannelRequest where
  | add (h : ChannelRef)
  | drop (h : ChannelRef)
  deriving DecidableEq, Repr

def ChannelRequest.made : ChannelRequest → Option ChannelRef
  | .add h => some h
  | .drop _ => none

/-- A node with the calls of its application. -/
structure Registry (S : Type) where
  node : Node S
  /-- The requests in `eventCh`; the other events that the actor handles are steps of the node. -/
  eventCh : List ChannelRequest := []
  /-- The calls of `Stop` that wait for the channel's actor to exit. -/
  waiting : List ChannelRef := []
  /-- The channels `Stop` has been called on. -/
  stopped : List ChannelRef := []
  /-- The channels that the engine has registered. -/
  accepted : List ChannelRef := []

inductive RegistryOp (S : Type) where
  | AttachChannel (h : ChannelRef)
  | Stop (h : ChannelRef)
  /-- A call of `Stop` goes on after the actor has exited. -/
  | DropChannel (h : ChannelRef)
  /-- The engine actor takes the next request. -/
  | run (o : Order PeerID)
  /-- Anything else in the node. -/
  | node (op : NodeOp S)

namespace Registry

variable (sch : ChannelRef → Scheme S C R P) (luck : ChannelRef → Nat → Chance)
  (names : ChannelRef → ChannelID) (ids : ConnRef → PeerID)

/-- The channels that were made. -/
def attached (x : Registry S) : List ChannelRef := x.node.added ++ x.eventCh.filterMap (·.made)

/-- The handle registered under an ID. -/
def registered (x : Registry S) (id : ChannelID) : Option ChannelRef := x.node.sys.engine.channels.get id

/-- The actor of the channel runs from the start. -/
def AttachChannel (h : ChannelRef) (x : Registry S) : Registry S :=
  if h ∈ x.attached then x else { x with eventCh := x.eventCh ++ [.add h] }

/-- The context of the channel ends. -/
def cancel (h : ChannelRef) (n : Node S) : Node S := n.step sch luck names ids (.channel h .stop)

def Stop (h : ChannelRef) (x : Registry S) : Registry S :=
  if h ∈ x.attached then
    { x with
      node := cancel sch luck names ids h x.node
      waiting := x.waiting ++ [h]
      stopped := x.stopped ++ [h] }
  else x

def DropChannel (h : ChannelRef) (x : Registry S) : Registry S :=
  if h ∈ x.waiting ∧ (x.node.channels h).phase = .stopped then
    { x with
      waiting := x.waiting.erase h
      eventCh := x.eventCh ++ [.drop h] }
  else x

/-- The engine actor runs `addChannel` or `removeChannel`. -/
def run (o : Order PeerID) (x : Registry S) : Registry S :=
  if x.node.engineFree then
    match x.eventCh with
    | [] => x
    | .add h :: rest =>
      let n := x.node.step sch luck names ids (.engine (.addChannel o (names h) h))
      if (x.registered (names h)).isSome then
        { x with node := cancel sch luck names ids h n, eventCh := rest }
      else { x with node := n, eventCh := rest, accepted := x.accepted ++ [h] }
    | .drop h :: rest =>
      { x with node := x.node.step sch luck names ids (.engine (.removeChannel o (names h))), eventCh := rest }
  else x

/-- The steps of the node that are not requests of a channel. -/
def aside : NodeOp S → Bool
  | .engine op => !op.registers
  | _ => true

def step (x : Registry S) : RegistryOp S → Registry S
  | .AttachChannel h => x.AttachChannel h
  | .Stop h => x.Stop sch luck names ids h
  | .DropChannel h => x.DropChannel h
  | .run o => x.run sch luck names ids o
  | .node op => if aside op then { x with node := x.node.step sch luck names ids op } else x

def init (subs : ChannelRef → Option Subscription) : Registry S := { node := .init names ids subs }

/-- A removal that the actor gets to comes from the channel that is registered, or there is none. -/
def OwnRemoval (x : Registry S) : RegistryOp S → Prop
  | .run _ =>
    match x.eventCh with
    | .drop h :: _ => x.registered (names h) = some h ∨ x.registered (names h) = none
    | _ => True
  | _ => True

instance (x : Registry S) (op : RegistryOp S) : Decidable (x.OwnRemoval names op) := by
  unfold OwnRemoval
  split
  · split <;> infer_instance
  · infer_instance

/-! ## The invariant -/

section Invariant

variable {sch luck names ids} {x : Registry S}

/-- Each channel is added once; what is to be removed was stopped; an accepted channel is registered or was
stopped. -/
structure RegInv (names : ChannelRef → ChannelID) (ids : ConnRef → PeerID) (x : Registry S) : Prop where
  node : NodeInv names ids x.node
  once : x.attached.Nodup
  waiting : ∀ h ∈ x.waiting, h ∈ x.stopped
  drops : ∀ h, .drop h ∈ x.eventCh → h ∈ x.stopped
  kept : ∀ h ∈ x.accepted, h ∉ x.stopped → x.registered (names h) = some h

theorem cancel_frame (sch : ChannelRef → Scheme S C R P) (luck : ChannelRef → Nat → Chance)
    (names : ChannelRef → ChannelID) (ids : ConnRef → PeerID) (h : ChannelRef) (n : Node S) :
    (cancel sch luck names ids h n).sys = n.sys ∧ (cancel sch luck names ids h n).added = n.added :=
  engine_aside sch luck names ids n nofun

theorem RegInv.attach (hx : RegInv names ids x) (h : ChannelRef) : RegInv names ids (x.AttachChannel h) := by
  unfold AttachChannel
  split
  · exact hx
  rename_i hnew
  refine ⟨hx.node, ?_, hx.waiting, fun k hk => ?_, hx.kept⟩
  · show (x.node.added ++ (x.eventCh ++ [ChannelRequest.add h]).filterMap ChannelRequest.made).Nodup
    rw [filterMap_append, ← append_assoc]
    exact nodup_append.mpr ⟨hx.once, nodup_singleton h, fun a ha b hb heq => hnew
      (by rw [← mem_singleton.mp hb, ← heq]; exact ha)⟩
  · rcases mem_append.mp hk with hk | hk
    · exact hx.drops k hk
    · cases mem_singleton.mp hk

theorem RegInv.stop (hx : RegInv names ids x) (h : ChannelRef) : RegInv names ids (x.Stop sch luck names ids h) := by
  unfold Stop
  split
  · obtain ⟨hsys, hadded⟩ := cancel_frame sch luck names ids h x.node
    refine ⟨hx.node.step (.channel h .stop), ?_, fun k hk => ?_, fun k hk => ?_, fun k hk hstop => ?_⟩
    · show ((cancel sch luck names ids h x.node).added ++ x.eventCh.filterMap (·.made)).Nodup
      rw [hadded]
      exact hx.once
    · rcases mem_append.mp hk with hk | hk
      · exact mem_append_left _ (hx.waiting k hk)
      · exact mem_append_right _ hk
    · exact mem_append_left _ (hx.drops k hk)
    · show (cancel sch luck names ids h x.node).sys.engine.channels.get (names k) = some k
      rw [hsys]
      exact hx.kept k hk fun hmem => hstop (mem_append_left _ hmem)
  · exact hx

theorem RegInv.drop (hx : RegInv names ids x) (h : ChannelRef) : RegInv names ids (x.DropChannel h) := by
  unfold DropChannel
  split
  · rename_i hwait
    refine ⟨hx.node, ?_, fun k hk => hx.waiting k (mem_of_mem_erase hk), fun k hk => ?_, hx.kept⟩
    · show (x.node.added ++ (x.eventCh ++ [ChannelRequest.drop h]).filterMap ChannelRequest.made).Nodup
      rw [filterMap_append]
      show (x.node.added ++ (x.eventCh.filterMap ChannelRequest.made ++ [])).Nodup
      rw [append_nil]
      exact hx.once
    · rcases mem_append.mp hk with hk | hk
      · exact hx.drops k hk
      · obtain rfl := ChannelRequest.drop.inj (mem_singleton.mp hk)
        exact hx.waiting k hwait.1
  · exact hx

/-- The engine accepts what it is asked if it is between two events. -/
theorem engine_taken (sch : ChannelRef → Scheme S C R P) (luck : ChannelRef → Nat → Chance) {n : Node S} {op : EngineOp} (hallows : n.allows names ids op = true)
    (hfree : n.engineFree = true) :
    (n.step sch luck names ids (.engine op)).sys = n.sys.step op ∧
      (n.step sch luck names ids (.engine op)).added = n.added ++ op.handles := by
  show (n.engine names ids op).sys = _ ∧ (n.engine names ids op).added = _
  unfold engine
  rw [if_pos (by rw [hallows, hfree, Bool.or_true, Bool.and_self])]
  exact ⟨rfl, rfl⟩

section

variable (hx : RegInv names ids x)
include hx

/-- The engine and the queue move on, and nobody calls. -/
theorem RegInv.moves {y : Registry S} (hnode : NodeInv names ids y.node)
    (hattached : y.attached = x.attached) (hwaiting : y.waiting = x.waiting) (hstopped : y.stopped = x.stopped)
    (hqueue : ∀ h, .drop h ∈ y.eventCh → .drop h ∈ x.eventCh)
    (hkept : ∀ h ∈ y.accepted, h ∉ x.stopped → y.registered (names h) = some h) : RegInv names ids y := by
  refine ⟨hnode, hattached ▸ hx.once, ?_, ?_, ?_⟩
  · rw [hwaiting, hstopped]
    exact hx.waiting
  · rw [hstopped]
    exact fun h hh => hx.drops h (hqueue h hh)
  · rw [hstopped]
    exact hkept

variable {rest : List ChannelRequest}

/-- The engine registers a channel or rejects it. -/
theorem RegInv.add (o : Order PeerID) (hfree : x.node.engineFree = true) {h : ChannelRef}
    (hqueue : x.eventCh = .add h :: rest) : RegInv names ids (x.run sch luck names ids o) := by
  have hattached : x.attached = (x.node.added ++ [h]) ++ rest.filterMap ChannelRequest.made := by
    unfold attached
    rw [hqueue, append_assoc]
    rfl
  have hnew : h ∉ x.node.added := by
    have honce := hx.once
    rw [hattached] at honce
    intro hmem
    exact (nodup_append.mp (nodup_append.mp honce).1).2.2 h hmem h (mem_singleton.mpr rfl) rfl
  have hallows : x.node.allows names ids (.addChannel o (names h) h) = true := by
    simp [allows, hnew]
  obtain ⟨hsys, hadded⟩ := engine_taken sch luck hallows hfree
  have hchannels : (x.node.sys.step (.addChannel o (names h) h)).engine.channels =
      if (x.registered (names h)).isSome then x.node.sys.engine.channels
      else x.node.sys.engine.channels.set (names h) h :=
    channels_addChannel x.node.sys.engine o (names h) h
  have hstep : NodeInv names ids (x.node.step sch luck names ids (.engine (.addChannel o (names h) h))) :=
    hx.node.step _
  have hrest : ∀ k, ChannelRequest.drop k ∈ rest → ChannelRequest.drop k ∈ x.eventCh :=
    fun k hk => hqueue ▸ mem_cons_of_mem _ hk
  unfold Registry.run
  rw [if_pos hfree, hqueue]
  dsimp only
  split
  · rename_i hsome
    obtain ⟨hsys', hadded'⟩ := cancel_frame sch luck names ids h
      (x.node.step sch luck names ids (.engine (.addChannel o (names h) h)))
    refine hx.moves (hstep.step (.channel h .stop)) ?_ rfl rfl hrest fun k hk hstop => ?_
    · rw [hattached]
      show (cancel sch luck names ids h _).added ++ _ = _
      rw [hadded', hadded]
      rfl
    · show (cancel sch luck names ids h _).sys.engine.channels.get (names k) = some k
      rw [hsys', hsys, hchannels, if_pos hsome]
      exact hx.kept k hk hstop
  rename_i hnone
  refine hx.moves hstep ?_ rfl rfl hrest fun k hk hstop => ?_
  · rw [hattached]
    show (x.node.step sch luck names ids _).added ++ _ = _
    rw [hadded]
    rfl
  show (x.node.step sch luck names ids _).sys.engine.channels.get (names k) = some k
  rw [hsys, hchannels, if_neg hnone, Map.get_set]
  rcases mem_append.mp hk with hk | hk
  · -- another channel that is registered has another ID
    have hreg := hx.kept k hk hstop
    have hne : names k ≠ names h := by
      intro heq
      rw [heq] at hreg
      exact hnone (Option.isSome_iff_exists.mpr ⟨k, hreg⟩)
    rw [if_neg hne]
    exact hreg
  · rw [mem_singleton.mp hk, if_pos rfl]

/-- The engine removes what is registered under the ID of a stopped channel: by the condition that channel. -/
theorem RegInv.remove (o : Order PeerID) (hok : x.OwnRemoval names (.run o)) (hfree : x.node.engineFree = true)
    {h : ChannelRef} (hqueue : x.eventCh = .drop h :: rest) : RegInv names ids (x.run sch luck names ids o) := by
  have hown : x.registered (names h) = some h ∨ x.registered (names h) = none := by
    unfold OwnRemoval at hok
    rw [hqueue] at hok
    exact hok
  have hallows : x.node.allows names ids (.removeChannel o (names h)) = true := rfl
  obtain ⟨hsys, hadded⟩ := engine_taken sch luck hallows hfree
  have hchannels : (x.node.sys.step (.removeChannel o (names h))).engine.channels =
      if (x.registered (names h)).isNone then x.node.sys.engine.channels
      else x.node.sys.engine.channels.del (names h) :=
    channels_removeChannel x.node.sys.engine o (names h)
  have hstep : NodeInv names ids (x.node.step sch luck names ids (.engine (.removeChannel o (names h)))) :=
    hx.node.step _
  unfold Registry.run
  rw [if_pos hfree, hqueue]
  refine hx.moves hstep ?_ rfl rfl (fun k hk => hqueue ▸ mem_cons_of_mem _ hk) fun k hk hstop => ?_
  · unfold attached
    rw [hqueue]
    show (x.node.step sch luck names ids _).added ++ _ = _
    rw [hadded, append_assoc]
    rfl
  show (x.node.step sch luck names ids _).sys.engine.channels.get (names k) = some k
  have hreg : x.registered (names k) = some k := hx.kept k hk hstop
  rw [hsys, hchannels]
  split
  · exact hreg
  have hne : names k ≠ names h := by
    intro heq
    rw [← heq, hreg] at hown
    rcases hown with hsame | hnone
    · obtain rfl := Option.some.inj hsame
      exact hstop (hx.drops k (hqueue ▸ mem_cons_self))
    · cases hnone
  rw [Map.get_del, if_neg hne]
  exact hreg

theorem RegInv.run (o : Order PeerID) (hok : x.OwnRemoval names (.run o)) :
    RegInv names ids (x.run sch luck names ids o) := by
  by_cases hfree : x.node.engineFree = true
  · cases hqueue : x.eventCh with
    | nil =>
      unfold Registry.run
      rw [if_pos hfree, hqueue]
      exact hx
    | cons request rest =>
      cases request with
      | add h => exact hx.add o hfree hqueue
      | drop h => exact hx.remove o hok hfree hqueue
  · unfold Registry.run
    rw [if_neg hfree]
    exact hx

theorem RegInv.other {op : NodeOp S} (hop : aside op = true) :
    RegInv names ids { x with node := x.node.step sch luck names ids op } := by
  have hsame : (x.node.step sch luck names ids op).sys.engine.channels = x.node.sys.engine.channels ∧
      (x.node.step sch luck names ids op).added = x.node.added := by
    by_cases hengine : ∃ e, op = .engine e
    · obtain ⟨e, rfl⟩ := hengine
      have hregisters : e.registers = false := by simpa [aside] using hop
      show (x.node.engine names ids e).sys.engine.channels = _ ∧ (x.node.engine names ids e).added = _
      unfold engine
      split
      · refine ⟨x.node.sys.channels_step hregisters, ?_⟩
        have hhandles : e.handles = [] := by
          cases e with
          | addChannel o id h => cases hregisters
          | _ => rfl
        rw [hhandles, append_nil]
      · exact ⟨rfl, rfl⟩
    · obtain ⟨hsys, hadded⟩ := engine_aside sch luck names ids x.node fun e heq => hengine ⟨e, heq⟩
      exact ⟨by rw [hsys], hadded⟩
  refine hx.moves (hx.node.step op) ?_ rfl rfl (fun _ hk => hk) fun k hk hstop => ?_
  · show (x.node.step sch luck names ids op).added ++ _ = x.node.added ++ _
    rw [hsame.2]
  show (x.node.step sch luck names ids op).sys.engine.channels.get (names k) = some k
  rw [hsame.1]
  exact hx.kept k hk hstop

/-- **One step** under the condition on removals. -/
theorem RegInv.step (op : RegistryOp S) (hok : x.OwnRemoval names op) :
    RegInv names ids (x.step sch luck names ids op) := by
  cases op with
  | AttachChannel h => exact hx.attach h
  | Stop h => exact hx.stop h
  | DropChannel h => exact hx.drop h
  | run o => exact hx.run o hok
  | node op =>
    show RegInv names ids (if aside op then _ else x)
    split
    · rename_i hop
      exact hx.other hop
    · exact hx

end

theorem regInv_init (subs : ChannelRef → Option Subscription) :
    RegInv names ids (init names ids subs : Registry S) := by
  refine ⟨nodeInv_init subs, nodup_nil, ?_, ?_, ?_⟩
  · exact fun h hh => absurd hh not_mem_nil
  · exact fun h hh => absurd hh not_mem_nil
  · exact fun h hh => absurd hh not_mem_nil

end Invariant

/-- A removal that finds nothing leaves the engine as it is. -/
theorem removal_idle (sch : ChannelRef → Scheme S C R P) (luck : ChannelRef → Nat → Chance)
    {names : ChannelRef → ChannelID} (ids : ConnRef → PeerID) {x : Registry S} (o : Order PeerID) {h : ChannelRef}
    {rest : List ChannelRequest} (hqueue : x.eventCh = .drop h :: rest) (hnone : x.registered (names h) = none) :
    (x.step sch luck names ids (.run o)).node.sys = x.node.sys := by
  show (x.run sch luck names ids o).node.sys = _
  unfold Registry.run
  split
  · rename_i hfree
    rw [hqueue]
    have hallows : x.node.allows names ids (.removeChannel o (names h)) = true := rfl
    obtain ⟨hsys, _⟩ := engine_taken sch luck hallows hfree
    show (x.node.step sch luck names ids _).sys = _
    rw [hsys]
    have hidle : x.node.sys.engine.removeChannel o (names h) = x.node.sys.engine := by
      unfold removeChannel
      exact if_pos (Option.isNone_iff_eq_none.mpr hnone)
    show { x.node.sys with engine := x.node.sys.engine.removeChannel o (names h) } = x.node.sys
    rw [hidle]
  · rfl

/-- **A channel that was accepted stays registered until `Stop` is called on it**, in every run in which each
removal that the actor gets to comes from the channel that is registered under the ID, or finds none.  In every
state of such a run, for each accepted channel on which `Stop` was not called: it is registered under its ID, the
readers of each peer find it exactly if the peer subscribes to it, what was posted to it makes exactly the
subscribers its members, and each control loop that runs wants the remote to have it, and has told the remote
when it has nothing left but session events.  The calls themselves change nothing in the engine, and neither
does a removal on behalf of a channel that is not registered. -/
theorem registered_until_stopped (sch : ChannelRef → Scheme S C R P) (luck : ChannelRef → Nat → Chance)
    (names : ChannelRef → ChannelID) (ids : ConnRef → PeerID) (subs : ChannelRef → Option Subscription)
    (ops : List (RegistryOp S)) (hops : Along (step sch luck names ids) (OwnRemoval names) (init names ids subs) ops) :
    let x := exec (step sch luck names ids) (init names ids subs) ops
    let e := x.node.sys.engine
    (∀ h ∈ x.accepted, h ∉ x.stopped →
      e.channels.get (names h) = some h ∧
      (∀ pid c, e.peers.get pid = some c →
        e.channelInboxFor c (names h) = if e.subscribes c (names h) then some h else none) ∧
      (∀ pid, membersAfter e.posted h pid = (e.peers.get pid).filter (e.subscribes · (names h))) ∧
      ∀ c l, e.links c = some l → l.handshakeDone = true → l.ctrlState.closed = false →
        (l.ctrlState.channels.get (names h)).any (·.want) = true ∧
        ∀ o₁ o₂ : Order ChannelID, (l.ctrlState.next o₁ o₂).1.all PeerCtrlEvent.ofSession = true →
          names h ∈ viewOf l.announced (x.node.sys.emitted c)) ∧
    (∀ h, (x.step sch luck names ids (.Stop h)).node.sys = x.node.sys ∧
      (x.step sch luck names ids (.DropChannel h)).node.sys = x.node.sys) ∧
    ∀ o h rest, x.eventCh = .drop h :: rest → x.registered (names h) ≠ some h → x.OwnRemoval names (.run o) →
      (x.step sch luck names ids (.run o)).node.sys = x.node.sys := by
  intro x e
  have hx : RegInv names ids x :=
    hops.invariant (I := RegInv names ids) (fun _ op hx hok => hx.step op hok) (regInv_init subs)
  have hagree := hx.node.engine.agree
  refine ⟨fun h hh hstop => ?_, fun h => ⟨?_, ?_⟩, fun o h rest hqueue hother hok => ?_⟩
  · have hreg : e.channels.get (names h) = some h := hx.kept h hh hstop
    refine ⟨hreg, fun pid c hc => ?_, hagree.members (names h) h hreg, fun c l hl hdone hopen => ?_⟩
    · have hrouted : e.channelInboxFor c (names h) =
          if e.subscribes c (names h) then e.channels.get (names h) else none :=
        hagree.routed pid c hc (names h)
      rw [hrouted, hreg]
    have htracked := (hx.node.engine.inv.conns c l hl).tracked hdone hopen
    refine ⟨?_, fun o₁ o₂ hall => ?_⟩
    · have hentry := htracked (names h)
      rw [hreg] at hentry
      cases hget : l.ctrlState.channels.get (names h) with
      | none =>
        rw [hget] at hentry
        exact absurd rfl hentry.1
      | some out =>
        rw [hget] at hentry
        exact hentry.1.mpr rfl
    · obtain ⟨_, _, hiff⟩ := (CtrlOutState.next_spec hopen o₁ o₂).tracks htracked
      rw [hiff hall (names h), hreg]
      rfl
  · show (x.Stop sch luck names ids h).node.sys = _
    unfold Stop
    split
    · exact (cancel_frame sch luck names ids h x.node).1
    · rfl
  · show (x.DropChannel h).node.sys = _
    unfold DropChannel
    split <;> rfl
  · unfold OwnRemoval at hok
    rw [hqueue] at hok
    exact removal_idle sch luck ids o hqueue (hok.resolve_left hother)

/-! ### Channels with one ID -/

/-- Every channel is called `c`, and every connection is of the peer `a`. -/
def sameIDRun (ops : List (RegistryOp Rs.State)) : Registry Rs.State :=
  exec (step (fun _ => Rs.copiesScheme) (fun _ => Channel.storedChance) (fun _ => "c") fun _ => "a")
    (init (fun _ => "c") (fun _ => "a") fun _ => none) ops

/-- A channel is attached, and the engine gets to it. -/
def attaches (h : ChannelRef) : List (RegistryOp Rs.State) := [.AttachChannel h, .run (.stored _)]

/-- `a` comes up with a subscription to `c`. -/
def peerJoins : List (RegistryOp Rs.State) :=
  [.node (.engine (.peerUp (.stored _) 0 "a" true)), .node (.engine (.handshake (.stored _) 0 ["c"])), .node .deliver]

/-- `Stop` of a channel whose actor runs. -/
def stops (h : ChannelRef) : List (RegistryOp Rs.State) :=
  [.Stop h, .node (.channel h .closeAll), .node (.channel h .finish), .DropChannel h, .run (.stored _)]

/-- A channel is stopped and another one takes its place. -/
def replaces : List (RegistryOp Rs.State) := attaches 0 ++ peerJoins ++ stops 0 ++ attaches 1

theorem registered_until_stopped_replaced :
    (sameIDRun replaces).node.sys.engine.channels.get "c" = some 1 ∧
      (sameIDRun replaces).node.sys.engine.channelInboxFor 0 "c" = some 1 := by
  have hops : Along (step (fun _ => Rs.copiesScheme) (fun _ => Channel.storedChance) (fun _ => "c") fun _ => "a")
      (OwnRemoval fun _ => "c") (init (fun _ => "c") (fun _ => "a") fun _ => none) replaces := by
    decide +kernel
  have haccepted : 1 ∈ (sameIDRun replaces).accepted := by decide +kernel
  have hstopped : 1 ∉ (sameIDRun replaces).stopped := by decide +kernel
  have hpeer : (sameIDRun replaces).node.sys.engine.peers.get "a" = some 0 := by decide +kernel
  have hsub : (sameIDRun replaces).node.sys.engine.subscribes 0 "c" = true := by decide +kernel
  unfold sameIDRun at *
  obtain ⟨hreg, hbound, _⟩ := (registered_until_stopped _ _ _ _ _ replaces hops).1 1 haccepted hstopped
  refine ⟨hreg, ?_⟩
  rw [hbound "a" 0 hpeer, if_pos hsub]

/-- In the first run channel 1 is rejected because channel 0 is registered, and is then stopped; in the second
channel 0 is stopped once more after channel 1 took its place.  Both times the other channel, on which `Stop` was
not called, is no longer registered, and the readers of its subscriber no longer find it. -/
theorem stop_removes_another :
    let rejected := sameIDRun (attaches 0 ++ peerJoins ++ attaches 1 ++ stops 1)
    let replaced := sameIDRun (replaces ++ [.node .deliver, .Stop 0, .DropChannel 0, .run (.stored _)])
    (rejected.accepted = [0] ∧ rejected.stopped = [1] ∧ rejected.registered "c" = none ∧
      rejected.node.sys.engine.subscribes 0 "c" = true ∧
      rejected.node.sys.engine.channelInboxFor 0 "c" = none) ∧
    (replaced.accepted = [0, 1] ∧ replaced.stopped = [0, 0] ∧ replaced.registered "c" = none ∧
      replaced.node.sys.engine.subscribes 0 "c" = true ∧
      replaced.node.sys.engine.channelInboxFor 0 "c" = none) := by
  decide +kernel

end Registry

end EthP2P.Broadcast
