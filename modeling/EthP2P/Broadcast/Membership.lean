/-
# EthP2P.Broadcast.Membership — the members of a channel are the engine's subscribers

The engine decides who is on a channel and tells the channel by posting peer changes; the channel handles
them one by one, among all its other events.  `NodeInv` says that nothing is lost on the way: what was
posted to a channel is what the channel has handled, then what waits in its inbox, then what the engine has
still to send.  With the agreement of the engine's own views (`EthP2P.Broadcast.Routing`) the members of a
channel that has caught up are exactly the subscribers among the peers.
-/
import EthP2P.Broadcast.Attachment
import EthP2P.Broadcast.Node

namespace EthP2P.Broadcast

open Lib Wire Channel List PeerConn EngineSystem

/-! ## What a step of the engine adds -/

namespace Engine

/-- Each handle that is registered, or that a reader finds, satisfies `ok`. -/
structure Knows (ok : ChannelID → ChannelRef → Prop) (e : Engine) : Prop where
  registered : ∀ id t, e.channels.get id = some t → ok id t
  inboxes : ∀ c p, e.conns.get c = some p → ∀ i t, p.channelInboxes.get i = some t → ∃ id, ok id t

theorem Knows.mono {ok ok' : ChannelID → ChannelRef → Prop} {e : Engine} (h : Knows ok e)
    (himp : ∀ id t, ok id t → ok' id t) : Knows ok' e := by
  refine ⟨fun id t ht => himp id t (h.registered id t ht), fun c p hp i t ht => ?_⟩
  obtain ⟨id, hok⟩ := h.inboxes c p hp i t ht
  exact ⟨id, himp id t hok⟩

/-- The posts of `e` are a beginning of those of `e'`, the IDs of connections stay, and each handle that is
known or posted to satisfies `ok`, if that was so before. -/
structure Extends (ok : ChannelID → ChannelRef → Prop) (e e' : Engine) : Prop where
  within : Knows ok e → Knows ok e' ∧ ∃ new, e'.posted = e.posted ++ new ∧ ∀ q ∈ new, ∃ id, ok id q.1
  ids : e'.routes.idOf = e.routes.idOf

namespace Extends

variable {ok : ChannelID → ChannelRef → Prop} {e e' e'' : Engine}

theorem of_same (hchannels : e'.channels = e.channels) (hconns : e'.conns = e.conns)
    (hposted : e'.posted = e.posted) : Extends ok e e' := by
  refine ⟨fun h => ⟨⟨?_, ?_⟩, [], ?_, fun q hq => nomatch hq⟩, ?_⟩
  · rw [hchannels]
    exact h.registered
  · rw [hconns]
    exact h.inboxes
  · rw [hposted, append_nil]
  · show (fun c => (e'.conns.get c).map (·.id)) = _
    rw [hconns]
    rfl

theorem refl (e : Engine) : Extends ok e e := of_same rfl rfl rfl

theorem trans (h : Extends ok e e') (h' : Extends ok e' e'') : Extends ok e e'' := by
  refine ⟨fun hwithin => ?_, h'.ids.trans h.ids⟩
  obtain ⟨hmid, new, hnew, hok⟩ := h.within hwithin
  obtain ⟨hend, new', hnew', hok'⟩ := h'.within hmid
  refine ⟨hend, new ++ new', ?_, fun q hq => ?_⟩
  · rw [hnew', hnew, append_assoc]
  rcases mem_append.mp hq with hq | hq
  · exact hok q hq
  · exact hok' q hq

/-- A change of one connection that finds only handles the connection found before, or known ones. -/
theorem updConn (e : Engine) (c : ConnRef) {f : PeerConn → PeerConn} (hid : ∀ p, (f p).id = p.id)
    (hinbox : Knows ok e → ∀ p i t, (f p).channelInboxes.get i = some t →
      p.channelInboxes.get i = some t ∨ ∃ id, ok id t) : Extends ok e (e.updConn c f) := by
  obtain ⟨hchannels, _, _, hposted⟩ := maps_updConn e c f
  refine ⟨fun h => ⟨⟨?_, fun k p hp i t ht => ?_⟩, [], ?_, fun q hq => nomatch hq⟩, ?_⟩
  · rw [hchannels]
    exact h.registered
  · rw [conns_updConn] at hp
    split at hp
    · obtain ⟨q, hq, rfl⟩ := Option.map_eq_some_iff.mp hp
      rcases hinbox h q i t ht with ht | hok
      · exact h.inboxes k q hq i t ht
      · exact hok
    · exact h.inboxes k p hp i t ht
  · rw [hposted, append_nil]
  · rw [routes_updConn e c f hid]

theorem onLink (e : Engine) (c : ConnRef) {f : PeerLink → PeerLink} (hid : ∀ l, (f l).id = l.id) :
    Extends ok e (e.updConn c (onLink f)) :=
  updConn e c (fun p => hid p.toPeerLink) fun _ _ _ _ ht => .inl ht

theorem unbind (e : Engine) (c : ConnRef) (id : ChannelID) : Extends ok e (e.updConn c (UnbindChannel id)) := by
  refine updConn e c (fun _ => rfl) fun _ p i t ht => .inl ?_
  simp only [UnbindChannel, Map.get_del] at ht
  split at ht
  · cases ht
  · exact ht

theorem post {e : Engine} {t : ChannelRef} (ht : Knows ok e → ∃ id, ok id t) (change : ChannelPeerChange) :
    Extends ok e (e.post t change) := by
  refine ⟨fun h => ⟨⟨h.registered, h.inboxes⟩, [(t, change)], rfl, fun q hq => ?_⟩, rfl⟩
  rw [mem_singleton.mp hq]
  exact ht h

theorem enrol (e : Engine) (c : ConnRef) (id : ChannelID) : Extends ok e (e.enrolPeerToChannel c id) := by
  unfold enrolPeerToChannel
  split
  · rename_i t p ht _
    have hbind : Extends ok e (e.updConn c (BindChannel id t)) := by
      refine updConn e c (fun _ => rfl) fun h p i t' ht' => ?_
      simp only [BindChannel, Map.get_set] at ht'
      split at ht'
      · cases ht'
        exact .inr ⟨id, h.registered id t ht⟩
      · exact .inl ht'
    refine hbind.trans (post (fun h => ⟨id, h.registered id t ?_⟩) _)
    rw [(maps_updConn e c _).1]
    exact ht
  · exact refl e

theorem unenrol (e : Engine) (c : ConnRef) (id : ChannelID) : Extends ok e (e.unenrolPeerFromChannel c id) := by
  unfold unenrolPeerFromChannel
  split
  · rename_i t p ht _
    refine (unbind e c id).trans (post (fun h => ⟨id, h.registered id t ?_⟩) _)
    rw [(maps_updConn e c _).1]
    exact ht
  · exact unbind e c id

theorem forPeers {body : Engine → ConnRef → Engine} (hbody : ∀ e c, Extends ok e (body e c))
    (e : Engine) (o : Order PeerID) : Extends ok e (e.forPeers o body) := by
  refine foldl_rel (r := Extends ok) refl trans (fun e pid => ?_) (e.peers.range o) e
  cases e.peers.get pid with
  | none => exact refl e
  | some c => exact hbody e c

theorem joinPeer (id : ChannelID) (e : Engine) (c : ConnRef) : Extends ok e (e.joinPeer id c) := by
  unfold Engine.joinPeer
  refine trans ?_ (onLink _ c fun _ => rfl)
  split
  · split
    · exact enrol e c id
    · exact refl e
  · exact refl e

theorem leavePeer (id : ChannelID) (e : Engine) (c : ConnRef) : Extends ok e (e.leavePeer id c) :=
  (unbind e c id).trans (onLink _ c fun _ => rfl)

theorem addChannel (e : Engine) (o : Order PeerID) {id : ChannelID} {h : ChannelRef} (hok : ok id h) :
    Extends ok e (e.addChannel o id h) := by
  unfold Engine.addChannel
  split
  · exact of_same rfl rfl rfl
  have hset : Extends ok e
      (({ e with channels := e.channels.set id h } : Engine).observe (.channelAttached id false)) := by
    refine ⟨fun h => ⟨⟨fun k t ht => ?_, h.inboxes⟩, [], by simp [observe], fun q hq => absurd hq not_mem_nil⟩, rfl⟩
    simp only [observe, Map.get_set] at ht
    split at ht
    · rename_i hk
      cases ht
      exact hk ▸ hok
    · exact h.registered k t ht
  exact hset.trans (forPeers (joinPeer id) _ o)

theorem removeChannel (e : Engine) (o : Order PeerID) (id : ChannelID) : Extends ok e (e.removeChannel o id) := by
  unfold Engine.removeChannel
  split
  · exact refl e
  refine (forPeers (leavePeer id) e o).trans ⟨fun h => ⟨⟨fun k t ht => ?_, h.inboxes⟩, [], ?_, ?_⟩, rfl⟩
  · simp only [observe, Map.get_del] at ht
    split at ht
    · cases ht
    · exact h.registered k t ht
  · simp [observe]
  · exact fun q hq => absurd hq not_mem_nil

theorem peerSubscribed (e : Engine) (c : ConnRef) (id : ChannelID) : Extends ok e (e.peerSubscribed c id) := by
  unfold Engine.peerSubscribed
  split
  · exact refl e
  split
  · exact refl e
  split
  · exact refl e
  have hsubs : Extends ok e (e.updConn c fun p => { p with subs := p.subs.set id () }) :=
    updConn e c (fun _ => rfl) fun _ _ _ _ ht => .inl ht
  exact (hsubs.trans (enrol _ c id)).trans (of_same rfl rfl rfl)

theorem peerUnsubscribed (e : Engine) (c : ConnRef) (id : ChannelID) : Extends ok e (e.peerUnsubscribed c id) := by
  unfold Engine.peerUnsubscribed
  split
  · exact refl e
  split
  · exact refl e
  split
  · exact refl e
  have hsubs : Extends ok e (e.updConn c fun p => { p with subs := p.subs.del id }) :=
    updConn e c (fun _ => rfl) fun _ _ _ _ ht => .inl ht
  exact (hsubs.trans (unenrol _ c id)).trans (of_same rfl rfl rfl)

theorem enrolAll (e : Engine) (c : ConnRef) (channels : List ChannelID) : Extends ok e (e.enrolAll c channels).1 := by
  unfold Engine.enrolAll
  refine foldl_rel (r := fun acc acc' : Engine × Map ChannelID Unit => Extends ok acc.1 acc'.1)
    (fun _ => refl _) trans (fun acc id => ?_) channels (e, ∅)
  split
  · exact refl _
  · exact enrol _ c id

theorem foldl_observe {A : Type*} (obs : A → EngineObservation) (as : List A) (e : Engine) :
    Extends ok e (as.foldl (fun e a => e.observe (obs a)) e) := by
  apply foldl_rel (r := Extends ok) refl trans
  intro e a
  exact of_same rfl rfl rfl

theorem handshake (e : Engine) (o : Order ChannelID) (c : ConnRef) (channels : List ChannelID) :
    Extends ok e (e.handlePeerHandshake o c channels) := by
  unfold Engine.handlePeerHandshake
  split
  · exact refl e
  rename_i p hp
  split
  · exact refl e
  generalize he : ({ e with
    peers := e.peers.set p.id c
    conns := e.conns.set c (p.onLink fun l => { l with ctrlState := e.greet o l }) } : Engine) = e₁
  have hstart : Extends ok e e₁ := by
    have hlink : Extends ok e (e.updConn c (PeerConn.onLink fun l => { l with ctrlState := e.greet o l })) :=
      onLink e c fun _ => rfl
    rw [Engine.updConn, hp] at hlink
    subst he
    exact hlink.trans (of_same rfl rfl rfl)
  have hdone : Extends ok (e₁.enrolAll c channels).1 ((e₁.enrolAll c channels).1.updConn c fun p =>
      { p with subs := (e₁.enrolAll c channels).2, handshakeDone := true }) :=
    updConn _ c (fun _ => rfl) fun _ _ _ _ ht => .inl ht
  have hobserve : ∀ e₂ : Engine, Extends ok e₂ (channels.foldl
      (fun e id => e.observe (.peerSubscribed p.id id)) (e₂.observe (.peerHandshook p.id channels))) := by
    intro e₂
    have hfirst : Extends ok e₂ (e₂.observe (.peerHandshook p.id channels)) := of_same rfl rfl rfl
    exact hfirst.trans (foldl_observe _ channels _)
  exact ((hstart.trans (enrolAll e₁ c channels)).trans hdone).trans (hobserve _)

theorem removePeer (e : Engine) (o : Order ChannelID) (c : ConnRef) : Extends ok e (e.removePeer o c) := by
  unfold Engine.removePeer
  split
  · exact refl e
  rename_i p _
  split
  · exact refl e
  have hdel : Extends ok e { e with peers := e.peers.del p.id } := of_same rfl rfl rfl
  have hloop : Extends ok ({ e with peers := e.peers.del p.id } : Engine)
      ((p.subs.range o).foldl (fun (e : Engine) id => e.unenrolPeerFromChannel c id)
        { e with peers := e.peers.del p.id }) :=
    foldl_rel (r := Extends ok) refl trans (fun e id => unenrol e c id) _ _
  exact (hdel.trans hloop).trans (of_same rfl rfl rfl)

theorem handlePeerGone (e : Engine) (o : Order ChannelID) (c : ConnRef) : Extends ok e (e.handlePeerGone o c) :=
  (removePeer e o c).trans (onLink _ c fun _ => rfl)

theorem peerDown (e : Engine) (o : Order ChannelID) (peer : HandleRef) : Extends ok e (e.peerDown o peer) := by
  unfold Engine.peerDown
  split
  · exact refl e
  rename_i c _
  have hdel : Extends ok e { e with bindings := e.bindings.del peer } := of_same rfl rfl rfl
  exact hdel.trans (handlePeerGone _ o c)

end Extends

end Engine

namespace EngineSystem

variable {ok : ChannelID → ChannelRef → Prop}

/-- Every step but a `PeerUp` extends the engine. -/
theorem extends_step (x : EngineSystem) {op : EngineOp} (hup : ∀ o peer id live, op ≠ .peerUp o peer id live)
    (hadd : ∀ o id h, op = .addChannel o id h → ok id h) : Engine.Extends ok x.engine (x.step op).engine := by
  cases op with
  | addChannel o id h => exact .addChannel _ o (hadd o id h rfl)
  | removeChannel o id => exact .removeChannel _ o id
  | peerUp o peer id live => exact absurd rfl (hup o peer id live)
  | peerDown o peer => exact .peerDown _ o peer
  | handshake o c channels =>
    simp only [step]
    split
    · exact .refl _
    · exact .handshake _ o c channels
  | subscribed c id => exact .peerSubscribed _ c id
  | unsubscribed c id => exact .peerUnsubscribed _ c id
  | gone o c => exact .handlePeerGone _ o c
  | cancel c | runExit c | call c f => exact .onLink _ c fun _ => rfl
  | next c o₁ o₂ =>
    simp only [step]
    split
    · exact .refl _
    split
    · exact .onLink _ c fun _ => rfl
    · exact .refl _

/-- A `PeerUp` makes at most one new connection. -/
theorem peerUp_frame (x : EngineSystem) (o : Order ChannelID) (peer : HandleRef) (id : PeerID) (live : Bool) :
    (x.step (.peerUp o peer id live)).engine.channels = x.engine.channels ∧
    (x.step (.peerUp o peer id live)).engine.posted = x.engine.posted ∧
    ∀ c p, (x.step (.peerUp o peer id live)).engine.conns.get c = some p →
      x.engine.conns.get c = some p ∨ c = x.engine.nextConn ∧ p.id = id ∧ p.channelInboxes = ∅ := by
  simp only [step]
  split
  · exact ⟨rfl, rfl, fun _ _ h => .inl h⟩
  cases live with
  | false => exact ⟨rfl, rfl, fun _ _ h => .inl h⟩
  | true =>
    refine ⟨rfl, rfl, fun c p hp => ?_⟩
    simp only [onEngine, Engine.bindPeer, Bool.not_true, Bool.false_eq_true, if_false, Map.get_set] at hp
    split at hp
    · rename_i hc
      cases hp
      exact .inr ⟨hc, rfl, rfl⟩
    · exact .inl hp

end EngineSystem

namespace Node

variable {S C R P : Type} {sch : ChannelRef → Scheme S C R P} {luck : ChannelRef → Nat → Chance}
  {names : ChannelRef → ChannelID} {ids : ConnRef → PeerID}

/-! ## The engine's part of a node -/

/-- The engine's views agree, and it knows the handles and the IDs it was given. -/
structure EngineInv (names : ChannelRef → ChannelID) (ids : ConnRef → PeerID) (n : Node S) : Prop where
  inv : n.sys.Inv
  agree : n.sys.engine.routes.Agree
  ids : ∀ c pid, n.sys.engine.routes.idOf c = some pid → pid = ids c
  posted : ∀ q ∈ n.sys.engine.posted, q.1 ∈ n.added
  knows : n.sys.engine.Knows fun id t => t ∈ n.added ∧ names t = id
  sent : n.sent ≤ n.sys.engine.posted.length

/-- What the other parts of the node do leaves the engine alone. -/
theorem EngineInv.congr {n n' : Node S} (hn : EngineInv names ids n) (hsys : n'.sys = n.sys)
    (hadded : n'.added = n.added) (hsent : n'.sent ≤ n.sys.engine.posted.length) : EngineInv names ids n' := by
  refine ⟨?_, ?_, ?_, ?_, ?_, ?_⟩
  · rw [hsys]
    exact hn.inv
  · rw [hsys]
    exact hn.agree
  · rw [hsys]
    exact hn.ids
  · rw [hsys, hadded]
    exact hn.posted
  · rw [hsys, hadded]
    exact hn.knows
  · rw [hsys]
    exact hsent

/-- A handle `addChannel` has not been called for is fresh. -/
theorem EngineInv.fresh {n : Node S} (hn : EngineInv names ids n) {h : ChannelRef} (hh : h ∉ n.added) :
    n.sys.engine.routes.Fresh h := by
  refine ⟨fun q hq heq => ?_, fun id hid => ?_⟩
  · subst heq
    exact hh (hn.posted q hq)
  · exact hh (hn.knows.registered id h hid).1

theorem engine_frame {n : Node S} (hn : EngineInv names ids n) (op : EngineOp) :
    EngineInv names ids (n.engine names ids op) ∧
      ∃ new, (n.engine names ids op).sys.engine.posted = n.sys.engine.posted ++ new := by
  unfold engine
  split
  · rename_i hok
    rw [Bool.and_eq_true] at hok
    have hgrow : ∀ t ∈ n.added, t ∈ n.added ++ op.handles := fun t ht => mem_append_left _ ht
    have hfresh : n.sys.FreshHandle op := by
      cases op with
      | addChannel o id h =>
        have hh := hok.1
        simp only [allows, Bool.and_eq_true, Bool.not_eq_true', contains_eq_mem, decide_eq_false_iff_not] at hh
        exact hn.fresh hh.2
      | _ => trivial
    have hinv := n.sys.inv_moves hn.inv (n.sys.moves hn.inv op)
    have hagree := agree_step hn.inv hn.agree op hfresh
    by_cases hup : ∃ o peer id live, op = .peerUp o peer id live
    · obtain ⟨o, peer, id, live, rfl⟩ := hup
      obtain ⟨hchannels, hposted, hconns⟩ := n.sys.peerUp_frame o peer id live
      refine ⟨⟨hinv, hagree, fun c pid hc => ?_, ?_, ?_, ?_⟩, [], by rw [hposted, append_nil]⟩
      · obtain ⟨p, hp, rfl⟩ := Option.map_eq_some_iff.mp hc
        rcases hconns c p hp with hold | ⟨rfl, rfl, _⟩
        · exact hn.ids c p.id (Engine.idOf_of_get hold)
        · exact of_decide_eq_true hok.1
      · show ∀ q ∈ (n.sys.step (.peerUp o peer id live)).engine.posted, q.1 ∈ n.added ++ []
        rw [hposted, append_nil]
        exact hn.posted
      · show (n.sys.step (.peerUp o peer id live)).engine.Knows fun i t => t ∈ n.added ++ [] ∧ names t = i
        rw [append_nil]
        refine ⟨hchannels ▸ hn.knows.registered, fun c p hp i t ht => ?_⟩
        rcases hconns c p hp with hold | ⟨_, _, hempty⟩
        · exact hn.knows.inboxes c p hold i t ht
        · rw [hempty, Map.get_empty] at ht
          cases ht
      · show n.sent ≤ (n.sys.step (.peerUp o peer id live)).engine.posted.length
        rw [hposted]
        exact hn.sent
    have hextends : Engine.Extends (fun id t => t ∈ n.added ++ op.handles ∧ names t = id) n.sys.engine
        (n.sys.step op).engine := by
      refine n.sys.extends_step (fun o peer id live h => hup ⟨o, peer, id, live, h⟩) ?_
      rintro o id h rfl
      refine ⟨mem_append_right _ (mem_singleton.mpr rfl), ?_⟩
      have hh := hok.1
      simp only [allows, Bool.and_eq_true, beq_iff_eq] at hh
      exact hh.1.symm
    obtain ⟨hknows, new, hnew, hrefs⟩ := hextends.within (hn.knows.mono fun id t h => ⟨hgrow t h.1, h.2⟩)
    refine ⟨⟨hinv, hagree, ?_, fun q hq => ?_, hknows, ?_⟩, new, hnew⟩
    · show ∀ c pid, (n.sys.step op).engine.routes.idOf c = some pid → pid = ids c
      rw [hextends.ids]
      exact hn.ids
    · have hq : q ∈ (n.sys.step op).engine.posted := hq
      rw [hnew, mem_append] at hq
      rcases hq with hq | hq
      · exact hgrow _ (hn.posted q hq)
      · obtain ⟨_, hmem, _⟩ := hrefs q hq
        exact hmem
    · show n.sent ≤ (n.sys.step op).engine.posted.length
      rw [hnew, length_append]
      exact Nat.le_add_right_of_le hn.sent
  · exact ⟨hn, [], (append_nil _).symm⟩

end Node

/-! ## The channels' part of a node -/

namespace Channel

variable {S C R P : Type} {sch : Scheme S C R P} {luck : Nat → Chance} {ids : ConnRef → PeerID}
  {x y : Channel S} {log unsent : List ChannelPeerChange}

/-- Of all that was posted to a channel, `log`, it has handled a beginning, the next part waits in its inbox,
and `unsent` is still to come; its members are what the handled part makes of them. -/
structure Follows (ids : ConnRef → PeerID) (log unsent : List ChannelPeerChange) (x : Channel S) :
    Prop where
  ids : ∀ c, (x.world.conns c).id = ids c
  attach : x.AttachInv
  handled : x.phase ≠ .stopped → ∃ handled, log = handled ++ (x.world.inbox.flatMap changes ++ unsent) ∧
    x.members.get = exec applyChange (fun _ => none) handled

/-- What is posted to a channel is in order and names the peers by their IDs. -/
structure Proper (ids : ConnRef → PeerID) (log : List ChannelPeerChange) : Prop where
  inOrder : Along applyChange Orderly (fun _ => none) log
  named : ∀ e ∈ log, ∀ c, e.peerRef = some c → ids c = e.peerID

theorem changes_of_internal {evt : Event S} (h : evt.Internal sch) : changes evt = [] := by
  cases evt with
  | peerChange e => exact absurd h id
  | _ => rfl

theorem flatMap_changes_nil {new : List (Event S)} (h : ∀ e ∈ new, changes e = []) :
    new.flatMap changes = [] := flatMap_eq_nil_iff.mpr h

section

variable (hx : x.Follows ids log unsent)
include hx

/-- A step that appends events without a change, and leaves the members. -/
theorem Follows.append
    (hattached : ∀ m p c, y.AttachedAs m p c → x.AttachedAs m p c) (hmembers : y.members = x.members)
    (hids : ∀ c, (y.world.conns c).id = (x.world.conns c).id) (hphase : y.phase = x.phase)
    (new : List (Event S)) (hinbox : y.world.inbox = x.world.inbox ++ new)
    (hnew : ∀ e ∈ new, changes e = []) : y.Follows ids log unsent := by
  refine ⟨fun c => (hids c).trans (hx.ids c), hx.attach.congr hattached hmembers hids, fun hy => ?_⟩
  obtain ⟨handled, hlog, hget⟩ := hx.handled (hphase ▸ hy)
  refine ⟨handled, ?_, hmembers ▸ hget⟩
  rw [hinbox, flatMap_append, flatMap_changes_nil hnew, append_nil]
  exact hlog

/-- The change that comes next finds no other connection of its peer. -/
theorem Follows.binds (hlog : Proper ids log) (hrun : x.phase ≠ .stopped)
    {evt : Event S} {rest : List (Event S)} (hinbox : x.world.inbox = evt :: rest) : x.Binds evt := by
  rintro p c rfl
  obtain ⟨handled, heq, hget⟩ := hx.handled hrun
  rw [hinbox, flatMap_cons] at heq
  have hnext : log = handled ++ ⟨p, some c⟩ :: (rest.flatMap changes ++ unsent) := heq
  refine ⟨?_, ?_⟩
  · rw [hx.ids]
    refine hlog.named ⟨p, some c⟩ ?_ c rfl
    rw [hnext]
    exact mem_append_right _ mem_cons_self
  have horderly : Orderly (exec applyChange (fun _ => none) handled) ⟨p, some c⟩ :=
    Along.guard_at (hnext ▸ hlog.inOrder)
  rw [hget]
  exact horderly c rfl

theorem Follows.next (hlog : Proper ids log) : (x.next sch luck).Follows ids log unsent := by
  cases hdue : x.due with
  | none =>
    rw [next_of_none hdue]
    exact hx
  | some evt =>
    obtain ⟨rest, hinbox, hrunning, hnext⟩ := next_of_some sch luck hdue
    have hrun : x.phase ≠ .stopped := by
      rw [hrunning]
      decide
    have hbinds := hx.binds hlog hrun hinbox
    rw [hnext]
    generalize hpop : (x.onWorld fun w => { w with inbox := rest }) = x₀
    have hattach : x₀.AttachInv := by
      subst hpop
      exact hx.attach.congr (fun m p c h => h.of_same rfl) rfl fun _ => rfl
    have hbinds₀ : x₀.Binds evt := hpop ▸ hbinds
    have hids : ∀ c, ((x₀.handle sch luck evt).world.conns c).id = ids c := by
      intro c
      rw [ids_handle, ← hpop]
      exact hx.ids c
    refine ⟨hids, attachInv_handle hattach hbinds₀, fun _ => ?_⟩
    obtain ⟨handled, heq, hget⟩ := hx.handled hrun
    refine ⟨handled ++ changes evt, ?_, ?_⟩
    · have hrest : (x₀.handle sch luck evt).world.inbox = rest := by
        rw [inbox_handle, ← hpop]
        rfl
      rw [hrest, heq, hinbox, flatMap_cons, append_assoc, append_assoc]
    · rw [members_handle, exec_append, ← hget, ← hpop]
      rfl

/-- **A step of a channel** follows what was posted to it. -/
theorem Follows.step (hlog : Proper ids log) {op : Op S}
    (hpost : ∀ evt, op = .post evt → changes evt = []) : (x.step sch luck op).Follows ids log unsent := by
  by_cases hnext : op = .next
  · subst hnext
    exact hx.next hlog
  obtain ⟨hattached, hmembers, hids⟩ := step_frame sch luck hnext x
  by_cases hclose : op = .closeAll
  · subst hclose
    refine ⟨fun c => (hids c).trans (hx.ids c), hx.attach.congr hattached hmembers hids, fun hy => ?_⟩
    obtain ⟨handled, heq, hget⟩ := hx.handled fun hstop => hy ((stopped_closeAll luck x).mpr hstop)
    refine ⟨handled, ?_, hmembers ▸ hget⟩
    show log = handled ++ ((x.closeAll luck).world.inbox.flatMap changes ++ unsent)
    rw [inbox_closeAll]
    exact heq
  by_cases hfinish : op = .finish
  · subst hfinish
    by_cases hready : (x.phase = .closing && x.quiet) = true
    · refine ⟨fun c => (hids c).trans (hx.ids c), hx.attach.congr hattached hmembers hids, fun hy => ?_⟩
      refine absurd ?_ hy
      show x.finish.phase = .stopped
      unfold finish
      rw [if_pos hready]
    have hsame : x.step sch luck .finish = x := by
      show x.finish = x
      unfold finish
      rw [if_neg hready]
    rw [hsame]
    exact hx
  obtain ⟨new, hkind, happends⟩ := posts_step sch luck hnext hclose hfinish x
  refine hx.append hattached hmembers hids happends.phase new happends.inbox fun e he => ?_
  rcases hkind e he with ⟨rfl, _⟩ | hinternal
  · exact hpost e rfl
  · exact changes_of_internal hinternal

/-- A goroutine of a connection posts an event. -/
theorem Follows.post {evt : Event S} (hevt : changes evt = []) : (x.post evt).Follows ids log unsent := by
  unfold Channel.post
  split
  · refine hx.append (fun m p c h => h.of_same rfl) rfl (fun _ => rfl) rfl [evt] rfl ?_
    intro e he
    rw [mem_singleton.mp he]
    exact hevt
  · exact hx

end

/-- The engine's send arrives. -/
theorem Follows.deliver {change : ChannelPeerChange} (hx : x.Follows ids log (change :: unsent))
    (hroom : x.world.inbox.length < channelInboxCap) : (x.post (.peerChange change)).Follows ids log unsent := by
  unfold Channel.post
  rw [if_pos hroom]
  refine ⟨hx.ids, hx.attach.congr (fun m p c h => h.of_same rfl) rfl fun _ => rfl, fun hy => ?_⟩
  obtain ⟨handled, heq, hget⟩ := hx.handled hy
  refine ⟨handled, ?_, hget⟩
  show log = handled ++ ((x.world.inbox ++ [Event.peerChange change]).flatMap changes ++ unsent)
  rw [heq, flatMap_append, append_assoc]
  rfl

/-- The engine posts more. -/
theorem Follows.extend (hx : x.Follows ids log unsent) (new : List ChannelPeerChange) :
    x.Follows ids (log ++ new) (unsent ++ new) := by
  refine ⟨hx.ids, hx.attach, fun hrun => ?_⟩
  obtain ⟨handled, heq, hget⟩ := hx.handled hrun
  refine ⟨handled, ?_, hget⟩
  rw [heq]
  simp only [append_assoc]

/-- The engine's send finds that the actor has exited. -/
theorem Follows.skip (hx : x.Follows ids log unsent) (hstopped : x.phase = .stopped)
    (log' unsent' : List ChannelPeerChange) : x.Follows ids log' unsent' :=
  ⟨hx.ids, hx.attach, fun hrun => absurd hstopped hrun⟩

end Channel

namespace Node

variable {S C R P : Type} {sch : ChannelRef → Scheme S C R P} {luck : ChannelRef → Nat → Chance}
  {names : ChannelRef → ChannelID} {ids : ConnRef → PeerID} {n n' : Node S}

/-! ## The goroutines of the connections -/

/-- The goroutines of connections leave the engine alone; to a channel they post at most one event, of the
kind `ok`. -/
structure Feeds (ok : ChannelRef → Event S → Prop) (n n' : Node S) : Prop where
  sys : n'.sys = n.sys
  sent : n'.sent = n.sent
  added : n'.added = n.added
  channels : ∀ t, n'.channels t = n.channels t ∨ ∃ evt, ok t evt ∧ n'.channels t = (n.channels t).post evt

/-- A CHUNK stream, for any channel. -/
def IsStream (_ : ChannelRef) (evt : Event S) : Prop := ∃ e, evt = .chunkStream e

/-- The OPEN that a SESS reader has for this channel. -/
def IsOpen (ids : ConnRef → PeerID) (n : Node S) (t : ChannelRef) (evt : Event S) : Prop :=
  ∃ c msg, (c, t, msg) ∈ n.opens ∧ evt = .sessionOpen (ids c) msg

namespace Feeds

variable {ok : ChannelRef → Event S → Prop}

theorem of_same (hsys : n'.sys = n.sys) (hsent : n'.sent = n.sent) (hadded : n'.added = n.added)
    (hchannels : n'.channels = n.channels) : Feeds ok n n' :=
  ⟨hsys, hsent, hadded, fun t => .inl (congrFun hchannels t)⟩

theorem refl (n : Node S) : Feeds ok n n := of_same rfl rfl rfl rfl

theorem of_post (t : ChannelRef) {evt : Event S} (hevt : ok t evt) (hsys : n'.sys = n.sys)
    (hsent : n'.sent = n.sent) (hadded : n'.added = n.added)
    (hchannels : n'.channels = (n.onChannel t (·.post evt)).channels) : Feeds ok n n' := by
  refine ⟨hsys, hsent, hadded, fun t' => ?_⟩
  rw [hchannels]
  by_cases ht : t' = t
  · subst ht
    exact .inr ⟨evt, hevt, onChannel_self ..⟩
  · exact .inl (onChannel_of_ne ht ..)

theorem enqueueStream (c : ConnRef) (s : InStream) (n : Node S) : Feeds ok n (n.enqueueStream c s) := by
  unfold Node.enqueueStream
  split
  · exact refl n
  dsimp only
  split <;> exact of_same rfl rfl rfl rfl

theorem readerStep (c : ConnRef) (st : ChunkStep) (rd : ChunkReader) (n : Node S) :
    Feeds IsStream n (n.readerStep c st rd) := by
  unfold Node.readerStep
  split
  · exact of_same rfl rfl rfl rfl
  · split
    · exact refl n
    unfold route
    split <;> exact of_same rfl rfl rfl rfl
  · rename_i t e _ _
    split
    · have hevt : IsStream (S := S) t (.chunkStream e) := ⟨e, rfl⟩
      exact of_post t hevt rfl rfl rfl rfl
    · exact refl n
  · split
    · exact of_same rfl rfl rfl rfl
    · exact refl n
  · split <;> exact of_same rfl rfl rfl rfl
  · exact refl n

theorem cancelAll (streams : List InStream) (code : Code) (n : Node S) :
    Feeds ok n (streams.foldl (fun n s => n.cancelRead s code) n) := by
  have hsame := foldl_same (f := fun (n : Node S) s => n.cancelRead s code)
    (fun n : Node S => (n.sys, n.sent, n.added, n.channels)) (fun _ _ => rfl) streams n
  simp only [Prod.mk.injEq] at hsame
  exact of_same hsame.1 hsame.2.1 hsame.2.2.1 hsame.2.2.2

theorem chunk (c : ConnRef) (st : ChunkStep) (n : Node S) : Feeds IsStream n (n.chunk c st) := by
  unfold Node.chunk
  cases st with
  | start =>
    dsimp only
    split
    · exact of_same rfl rfl rfl rfl
    · exact refl n
  | pop | acquire | refuse =>
    dsimp only
    split
    · exact refl n
    split
    · exact of_same rfl rfl rfl rfl
    · exact refl n
  | endLoop =>
    dsimp only
    split
    · exact of_same rfl rfl rfl rfl
    · exact refl n
  | close =>
    dsimp only
    split
    · have hcancel : Feeds IsStream n _ := cancelAll (n.intake c).queue .unspecified n
      exact ⟨hcancel.sys, hcancel.sent, hcancel.added, hcancel.channels⟩
    · exact refl n
  | fail rd code | route rd frame | send rd | giveUp rd | recheck rd =>
    dsimp only
    split
    · exact readerStep c _ rd n
    · exact refl n

theorem sessOpen (c : ConnRef) (id : ChannelID) (msg : SessOpen) (n : Node S) : Feeds ok n (n.sessOpen c id msg) := by
  unfold Node.sessOpen
  split <;> exact of_same rfl rfl rfl rfl

theorem sessSend (c : ConnRef) (t : ChannelRef) (msg : SessOpen) (n : Node S) :
    Feeds (IsOpen ids n) n (n.sessSend ids c t msg) := by
  unfold Node.sessSend
  split
  · rename_i hopen
    have hevt : IsOpen ids n t (.sessionOpen (ids c) msg) := ⟨c, msg, hopen.1, rfl⟩
    exact of_post t hevt rfl rfl rfl rfl
  · exact refl n

theorem sessQuit (c : ConnRef) (t : ChannelRef) (msg : SessOpen) (n : Node S) : Feeds ok n (n.sessQuit c t msg) := by
  unfold Node.sessQuit
  split
  · exact of_same rfl rfl rfl rfl
  · exact refl n

end Feeds

/-! ## The whole node -/

/-- The engine's views agree and each channel follows what the engine posts to it. -/
structure NodeInv (names : ChannelRef → ChannelID) (ids : ConnRef → PeerID) (n : Node S) : Prop where
  engine : EngineInv names ids n
  follows : ∀ t, (n.channels t).Follows ids (logOf t n.sys.engine.posted) (logOf t (n.sys.engine.posted.drop n.sent))

theorem EngineInv.proper (hn : EngineInv names ids n) (t : ChannelRef) :
    Proper ids (logOf t n.sys.engine.posted) := by
  refine ⟨hn.agree.inOrder t, fun e he c hc => ?_⟩
  have hidOf := hn.agree.named (t, e) (mem_logOf.mp he) c hc
  exact (hn.ids c e.peerID hidOf).symm

theorem changes_of_stream (t : ChannelRef) (evt : Event S) (h : IsStream t evt) : changes evt = [] := by
  obtain ⟨e, rfl⟩ := h
  rfl

theorem changes_of_open (t : ChannelRef) (evt : Event S) (h : IsOpen ids n t evt) : changes evt = [] := by
  obtain ⟨c, msg, _, rfl⟩ := h
  rfl

section

variable (hn : NodeInv names ids n)
include hn

theorem NodeInv.feeds {ok : ChannelRef → Event S → Prop} (h : Feeds ok n n')
    (hok : ∀ t evt, ok t evt → changes evt = []) : NodeInv names ids n' := by
  refine ⟨hn.engine.congr h.sys h.added (h.sent ▸ hn.engine.sent), fun t => ?_⟩
  rw [h.sys, h.sent]
  rcases h.channels t with hsame | ⟨evt, hevt, hpost⟩
  · rw [hsame]
    exact hn.follows t
  · rw [hpost]
    exact (hn.follows t).post (hok t evt hevt)

theorem NodeInv.engineStep (op : EngineOp) : NodeInv names ids (n.engine names ids op) := by
  obtain ⟨hengine, new, hnew⟩ := engine_frame hn.engine op
  have hsame : (n.engine names ids op).channels = n.channels ∧ (n.engine names ids op).sent = n.sent := by
    unfold Node.engine
    split <;> exact ⟨rfl, rfl⟩
  refine ⟨hengine, fun t => ?_⟩
  rw [hsame.1, hsame.2, hnew, drop_append_of_le_length hn.engine.sent, logOf_append, logOf_append]
  exact (hn.follows t).extend (logOf t new)

theorem NodeInv.deliverStep : NodeInv names ids n.deliver := by
  unfold deliver
  split
  · exact hn
  rename_i t change rest hdrop
  have hrest : n.sys.engine.posted.drop (n.sent + 1) = rest := by
    rw [← drop_drop, hdrop]
    rfl
  have hsent : n.sent + 1 ≤ n.sys.engine.posted.length := by
    have hlen := congrArg length hdrop
    rw [length_drop, length_cons] at hlen
    omega
  have hsplit : ∀ t', logOf t' (n.sys.engine.posted.drop n.sent) =
      (if t = t' then [change] else []) ++ logOf t' rest := by
    intro t'
    rw [hdrop, ← singleton_append, logOf_append, logOf_singleton]
  split
  · rename_i hstopped
    refine ⟨hn.engine.congr rfl rfl hsent, fun t' => ?_⟩
    show (n.channels t').Follows ids _ (logOf t' (n.sys.engine.posted.drop (n.sent + 1)))
    have hx := hn.follows t'
    rw [hsplit] at hx
    rw [hrest]
    by_cases ht : t = t'
    · subst ht
      exact hx.skip hstopped _ _
    · rw [if_neg ht] at hx
      exact hx
  split
  · rename_i hroom
    refine ⟨hn.engine.congr rfl rfl hsent, fun t' => ?_⟩
    show ((n.onChannel t (·.post (.peerChange change))).channels t').Follows ids _
      (logOf t' (n.sys.engine.posted.drop (n.sent + 1)))
    have hx := hn.follows t'
    rw [hsplit] at hx
    rw [hrest]
    by_cases ht : t = t'
    · subst ht
      rw [if_pos rfl] at hx
      rw [onChannel_self]
      exact hx.deliver hroom
    · rw [if_neg ht] at hx
      rw [onChannel_of_ne (Ne.symm ht)]
      exact hx
  · exact hn

theorem NodeInv.channelStep (t : ChannelRef) (op : Op S) : NodeInv names ids (n.channel sch luck t op) := by
  unfold channel
  split
  · exact hn
  rename_i hposts
  refine ⟨hn.engine.congr rfl rfl hn.engine.sent, fun t' => ?_⟩
  show ((n.onChannel t (·.step (sch t) (luck t) op)).channels t').Follows ids _ _
  by_cases ht : t' = t
  · subst ht
    rw [onChannel_self]
    refine (hn.follows t').step (hn.engine.proper t') ?_
    rintro evt rfl
    cases evt with
    | peerChange e => exact absurd rfl hposts
    | _ => rfl
  · rw [onChannel_of_ne ht]
    exact hn.follows t'

/-- **One step** of a node keeps the invariant. -/
theorem NodeInv.step (op : NodeOp S) : NodeInv names ids (n.step sch luck names ids op) := by
  cases op with
  | engine op => exact hn.engineStep op
  | deliver => exact hn.deliverStep
  | enqueueStream c s => exact hn.feeds (.enqueueStream c s n) changes_of_stream
  | chunk c st => exact hn.feeds (.chunk c st n) changes_of_stream
  | sessOpen c id msg => exact hn.feeds (.sessOpen c id msg n) changes_of_stream
  | sessSend c t msg => exact hn.feeds (.sessSend c t msg n) changes_of_open
  | sessQuit c t msg => exact hn.feeds (.sessQuit c t msg n) changes_of_stream
  | channel t op => exact hn.channelStep t op

end

variable (subs : ChannelRef → Option Subscription)

theorem nodeInv_init : NodeInv names ids (init names ids subs : Node S) := by
  refine ⟨⟨inv_init, agree_init, ?_, ?_, ?_, Nat.le_refl _⟩, fun t => ⟨fun _ => rfl, ⟨?_, ?_⟩, fun _ => ?_⟩⟩
  · exact fun c pid h => absurd h (by simp [init, Engine.routes])
  · exact fun q hq => absurd hq not_mem_nil
  · exact ⟨fun id t h => absurd h (by simp [init]), fun c p h => absurd h (by simp [init])⟩
  · rintro m p c ⟨sess, sp, hget, _⟩
    cases hget
  · exact fun p c h => absurd h (by simp [init, Channel.init])
  · exact ⟨[], rfl, rfl⟩

/-- Every reachable state satisfies the invariant. -/
theorem nodeInv_run (ops : List (NodeOp S)) :
    NodeInv names ids (exec (step sch luck names ids) (init names ids subs) ops) :=
  exec_invariant _ (fun _ op hn => hn.step op) (nodeInv_init subs) ops

/-- **The three views of who is on a channel are one.**  In every reachable state, for each peer and each
channel ID the readers of the peer find the registered channel exactly if the peer subscribes to it.  A
registered channel that has not been stopped, once it has handled what the engine sent, has exactly the
subscribers as members.  An attached peer is always the member with its ID.  An event of a connection that is
no longer the peer's, or the handshake of one that is closed, changes no view. -/
theorem members_are_subscribers (sch : ChannelRef → Scheme S C R P) (luck : ChannelRef → Nat → Chance)
    (names : ChannelRef → ChannelID) (ids : ConnRef → PeerID) (subs : ChannelRef → Option Subscription)
    (ops : List (NodeOp S)) :
    let n := exec (step sch luck names ids) (init names ids subs) ops
    let e := n.sys.engine
    (∀ pid c, e.peers.get pid = some c → (∃ p, e.conns.get c = some p ∧ p.id = pid) ∧
      ∀ id, e.channelInboxFor c id = if e.subscribes c id then e.channels.get id else none) ∧
    (∀ id t, e.channels.get id = some t → (n.channels t).phase ≠ .stopped → n.engineFree →
      (∀ evt ∈ (n.channels t).world.inbox, changes evt = []) →
      ∀ pid, (n.channels t).members.get pid = (e.peers.get pid).filter (e.subscribes · id)) ∧
    (∀ t m pid c, (n.channels t).AttachedAs m pid c → (n.channels t).members.get pid = some c) ∧
    ∀ op, n.sys.Stale op → (n.step sch luck names ids (.engine op)).sys.engine.routes = e.routes ∧
      (n.step sch luck names ids (.engine op)).channels = n.channels := by
  intro n e
  have hn : NodeInv names ids n := nodeInv_run subs ops
  have hagree := hn.engine.agree
  refine ⟨fun pid c hc => ⟨?_, hagree.routed pid c hc⟩, ?_, ?_, fun op hop => ?_⟩
  · have hid := (hn.engine.inv.routes_ready pid c hc).1
    exact Option.map_eq_some_iff.mp hid
  · intro id t ht hrun hfree hinbox pid
    obtain ⟨handled, hlog, hget⟩ := (hn.follows t).handled hrun
    have hunsent : n.sys.engine.posted.drop n.sent = [] :=
      drop_eq_nil_of_le (Nat.le_of_eq (eq_of_beq hfree).symm)
    rw [flatMap_changes_nil hinbox, hunsent, logOf_nil, append_nil, append_nil] at hlog
    rw [hget, ← hlog]
    exact hagree.members id t ht pid
  · exact fun t => (hn.follows t).attach.attached
  · show (n.engine names ids op).sys.engine.routes = _ ∧ (n.engine names ids op).channels = _
    unfold engine
    split
    · exact ⟨stale_routes op hop, rfl⟩
    · exact ⟨rfl, rfl⟩

/-! ### A node with two channels and two peers -/

def duoNames (t : ChannelRef) : ChannelID := if t = 0 then "c" else "d"

def duoIDs (c : ConnRef) : PeerID := if c = 0 then "a" else "b"

def duoInit : Node Rs.State := init duoNames duoIDs fun _ => none

def duoRun (ops : List (NodeOp Rs.State)) : Node Rs.State :=
  exec (step (fun _ => Rs.copiesScheme) (fun _ => storedChance) duoNames duoIDs) duoInit ops

/-- The channel is added, `a` comes up with a subscription to it, and the channel is told. -/
def subscribed : List (NodeOp Rs.State) :=
  [.engine (.addChannel (.stored _) "c" 0), .engine (.peerUp (.stored _) 0 "a" true),
    .engine (.handshake (.stored _) 0 ["c"]), .deliver, .channel 0 .next]

/-- There are two channels.  `a` subscribes to both, `b` comes up and subscribes to the second one. -/
def bothSubscribed : List (NodeOp Rs.State) :=
  subscribed ++ [.engine (.addChannel (.stored _) "d" 1), .engine (.subscribed 0 "d"), .deliver,
    .engine (.peerUp (.stored _) 1 "b" true), .engine (.handshake (.stored _) 1 ["d"]), .deliver,
    .channel 1 .next, .channel 1 .next]

theorem members_are_subscribers_duo :
    let n := duoRun bothSubscribed
    ["a", "b"].map (n.channels 0).members.get = [some 0, none] ∧
      ["a", "b"].map (n.channels 1).members.get = [some 0, some 1] := by
  have hready : ∀ t ∈ [0, 1], (duoRun bothSubscribed).sys.engine.channels.get (duoNames t) = some t ∧
      ((duoRun bothSubscribed).channels t).phase ≠ .stopped ∧
      ((duoRun bothSubscribed).channels t).world.inbox.length = 0 := by
    decide +kernel
  have hfree : (duoRun bothSubscribed).engineFree := by decide +kernel
  have hmembers : ∀ t ∈ [0, 1], ((duoRun bothSubscribed).channels t).members.get = fun pid =>
      ((duoRun bothSubscribed).sys.engine.peers.get pid).filter
        ((duoRun bothSubscribed).sys.engine.subscribes · (duoNames t)) := by
    intro t ht
    obtain ⟨hid, hrun, hinbox⟩ := hready t ht
    unfold duoRun duoInit at hid hrun hfree hinbox ⊢
    refine funext ((members_are_subscribers _ _ _ _ _ bothSubscribed).2.1 _ t hid hrun hfree ?_)
    rw [length_eq_zero_iff.mp hinbox]
    exact fun evt hevt => absurd hevt not_mem_nil
  dsimp only
  rw [hmembers 0 (by decide), hmembers 1 (by decide)]
  decide +kernel

end Node

end EthP2P.Broadcast
