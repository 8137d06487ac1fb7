/-
# EthP2P.Broadcast.EngineView — the remote's view of our channels

A peer learns our channels from the list in our handshake and from the subscribe and unsubscribe
frames that follow.  This module runs the engine actor together with the control loop of every
connection and the sessions that use its control state, in any interleaving, and relates three
sets: the channels registered in the engine, the flags of the control state, and the view the
remote has computed from what was emitted.

`Moves` says once what one step of that system can do.  The invariant (`Inv`) and the fate of a
removed channel (`Due`) are read off it.
-/
import Mathlib.Data.Finset.Basic
import EthP2P.Broadcast.Engine

namespace EthP2P.Broadcast

open Lib Function Engine PeerCtrlEvent Map ChannelOut Option PeerConn

/-! ## The remote's view -/

/-- How a received event changes the remote's view. -/
def see (view : Finset ChannelID) : PeerCtrlEvent → Finset ChannelID
  | .subscribe id => insert id view
  | .unsubscribe id => view.erase id
  | _ => view

/-- A subscribe names a channel absent from the view, an unsubscribe one present in it. -/
def Fits (view : Finset ChannelID) : PeerCtrlEvent → Prop
  | .subscribe id => id ∉ view
  | .unsubscribe id => id ∈ view
  | _ => True

/-- The view after the handshake list and the emitted events. -/
def viewOf (announced : List ChannelID) (emitted : List PeerCtrlEvent) : Finset ChannelID :=
  exec see announced.toFinset emitted

/-- Session opens, stream closes and routing updates. -/
def PeerCtrlEvent.ofSession : PeerCtrlEvent → Bool
  | .openSession _ | .closeStream _ | .sendRouting _ => true
  | _ => false

/-- One channel: its entry, whether the engine has it, whether the remote's view has it. -/
def Tracks (entry : Option ChannelOut) (registered inView : Prop) : Prop :=
  match entry with
  | none => ¬ registered ∧ ¬ inView
  | some out => (out.want = true ↔ registered) ∧ (out.announced = true ↔ inView) ∧
      (out.retire = true → out.announced = true)

namespace Tracks

variable {entry : Option ChannelOut} {registered inView : Prop}

theorem setWant (h : Tracks entry registered inView) (present : Bool) :
    Tracks (some ((entry.getD {}).setWant present)) (present = true) inView := by
  cases entry with
  | none =>
    have hview := h.2
    cases present <;> simp [Tracks, setWant, hview]
  | some out =>
    obtain ⟨_, hview, hretire⟩ := h
    refine ⟨?_, ?_, fun hr => ?_⟩
    · cases present <;> simp [setWant]
    · cases present <;> simpa [setWant] using hview
    cases present with
    | false => exact hretire hr
    | true =>
      have : out.retire = true ∨ out.announced = true ∧ out.want = false := by
        simpa [setWant] using hr
      rcases this with hr | ⟨ha, _⟩
      · exact hretire hr
      · exact ha

theorem keptOrSpent {m m' : Map ChannelID ChannelOut} {k : ChannelID}
    (h : Tracks (m.get k) registered inView) (hk : CtrlOutState.KeptOrSpent m m' k) :
    Tracks (m'.get k) registered inView := by
  rcases hk with heq | ⟨hgone, hspent⟩
  · rw [heq]; exact h
  rw [hspent] at h
  rw [hgone]
  obtain ⟨hwant, hann, _⟩ := h
  exact ⟨fun hr => absurd (hwant.mpr hr) (by simp), fun hv => absurd (hann.mpr hv) (by simp)⟩

end Tracks

namespace CtrlOutState

variable {s s' : CtrlOutState} {r : Option PeerCtrlEvent} {registered : ChannelID → Prop}
  {view : Finset ChannelID}

/-- **One `next` and the view.** What it hands out fits the view, the flags track the view after it,
and session events, or nothing at all, come out only when the view is exactly what is registered. -/
theorem NextSpec.tracks (hspec : NextSpec s r s')
    (h : ∀ k, Tracks (s.channels.get k) (registered k) (k ∈ view)) :
    Along see Fits view r.toList ∧
    (∀ k, Tracks (s'.channels.get k) (registered k) (k ∈ exec see view r.toList)) ∧
    (r.all ofSession = true → ∀ k, k ∈ view ↔ registered k) := by
  cases hspec with
  | closeSession _ _ _ _ _ hchannels =>
    refine ⟨⟨trivial, trivial⟩, fun k => ?_, by simp [ofSession]⟩
    rw [hchannels]
    exact h k
  | @unsubscribe id out _ _ hid hcond hself hrest =>
    have hout := h id
    rw [hid] at hout
    obtain ⟨hwant, hann, hretire⟩ := hout
    have hannounced : out.announced = true := by
      rcases hcond with hr | ⟨_, ha⟩
      · exact hretire hr
      · exact ha
    refine ⟨⟨hann.mp hannounced, trivial⟩, fun k => ?_, by simp [ofSession]⟩
    change Tracks _ _ (k ∈ view.erase id)
    by_cases hk : k = id
    · subst hk
      rw [hself]
      cases hw : out.want with
      | true => simp [Tracks, ← hwant, hw]
      | false => simp [Tracks, ← hwant, hw]
    · have hmem : (k ∈ view.erase id) = (k ∈ view) := by simp [hk]
      rw [hmem]
      exact (h k).keptOrSpent (hrest k hk)
  | @subscribe id out _ channels _ hrest hid hwant hannounced hchannels =>
    have hkept : ∀ k, Tracks (channels.get k) (registered k) (k ∈ view) :=
      fun k => (h k).keptOrSpent (hrest k)
    have hout := hkept id
    rw [hid] at hout
    obtain ⟨hreg, hann, hretire⟩ := hout
    have hnot : id ∉ view := fun hv => by
      rw [hann.mpr hv] at hannounced
      cases hannounced
    refine ⟨⟨hnot, trivial⟩, fun k => ?_, by simp [ofSession]⟩
    change Tracks _ _ (k ∈ insert id view)
    rw [hchannels, get_set]
    by_cases hk : k = id
    · subst hk
      simp [Tracks, ← hreg, hwant]
    have hmem : (k ∈ insert id view) = (k ∈ view) := by simp [hk]
    rw [if_neg hk, hmem]
    exact hkept k
  | @session _ m _ _ hphase hrest hall =>
    have hkept : ∀ k, Tracks (s'.channels.get k) (registered k) (k ∈ view) :=
      fun k => (h k).keptOrSpent (hrest k)
    have hsee : Along see Fits view r.toList ∧ exec see view r.toList = view := by
      rcases sessionPhases_cases hphase with ⟨_, _, e, _, _, rfl, _⟩ |
        ⟨_, ⟨key, _, _, _, _, rfl, _⟩ | ⟨_, ⟨key, _, upd, _, _, _, rfl, _⟩ | ⟨_, rfl, _⟩⟩⟩
      · exact ⟨⟨trivial, trivial⟩, rfl⟩
      · exact ⟨⟨trivial, trivial⟩, rfl⟩
      · exact ⟨⟨trivial, trivial⟩, rfl⟩
      · exact ⟨trivial, rfl⟩
    refine ⟨hsee.1, by rw [hsee.2]; exact hkept, fun _ k => ?_⟩
    have hk := hkept k
    cases hget : s'.channels.get k with
    | none =>
      rw [hget] at hk
      exact iff_of_false hk.2 hk.1
    | some out =>
      rw [hget] at hk
      obtain ⟨hwant, hann, _⟩ := hall k out hget
      exact iff_of_true (hk.2.1.mp hann) (hk.1.mp hwant)

/-- The remote has the channel and has to be told that its present generation ended. -/
def Due (entry : Option ChannelOut) : Prop :=
  ∃ out, entry = some out ∧ out.announced = true ∧ (out.want = false ∨ out.retire = true)

theorem Due.setWant {entry : Option ChannelOut} (h : Due entry) (present : Bool) :
    Due (some ((entry.getD {}).setWant present)) := by
  obtain ⟨out, rfl, ha, hd⟩ := h
  refine ⟨_, rfl, ?_, ?_⟩
  · cases present <;> simpa [ChannelOut.setWant] using ha
  cases present with
  | false => exact .inl rfl
  | true => rcases hd with hd | hd <;> simp [ChannelOut.setWant, ha, hd]

theorem Due.keptOrSpent {m m' : Map ChannelID ChannelOut} {k : ChannelID} (h : Due (m.get k))
    (hk : KeptOrSpent m m' k) : Due (m'.get k) := by
  rcases hk with heq | ⟨_, hspent⟩
  · rw [heq]; exact h
  obtain ⟨out, hout, ha, _⟩ := h
  rw [hspent] at hout
  cases hout
  cases ha

/-- A due channel stays due until its unsubscribe is handed out, and `next` is not exhausted
before. -/
theorem NextSpec.due (hspec : NextSpec s r s') {id : ChannelID} (h : Due (s.channels.get id)) :
    r = some (.unsubscribe id) ∨ r.isSome = true ∧ Due (s'.channels.get id) := by
  cases hspec with
  | closeSession _ _ _ _ _ hchannels => exact .inr ⟨rfl, by rw [hchannels]; exact h⟩
  | @unsubscribe id' _ _ _ _ _ _ hrest =>
    by_cases hid : id = id'
    · exact .inl (by rw [hid])
    · exact .inr ⟨rfl, h.keptOrSpent (hrest id hid)⟩
  | @subscribe id' _ _ channels _ hrest hid' _ hannounced hchannels =>
    have hdue : Due (channels.get id) := h.keptOrSpent (hrest id)
    have hne : id ≠ id' := by
      rintro rfl
      obtain ⟨out, hout, ha, _⟩ := hdue
      rw [hid'] at hout
      cases hout
      rw [hannounced] at ha
      cases ha
    refine .inr ⟨rfl, ?_⟩
    rw [hchannels, get_set, if_neg hne]
    exact hdue
  | session _ _ hrest hall =>
    obtain ⟨out, hout, _, hd⟩ := h.keptOrSpent (hrest id)
    obtain ⟨hwant, _, hretire⟩ := hall id out hout
    rcases hd with hd | hd
    · rw [hwant] at hd; cases hd
    · rw [hretire] at hd; cases hd

end CtrlOutState

/-! ## The system -/

/-- The steps of the engine actor, of the goroutines of its connections and of the sessions that use
their control states. -/
inductive EngineOp where
  | addChannel (o : Order PeerID) (id : ChannelID) (h : ChannelRef)
  | removeChannel (o : Order PeerID) (id : ChannelID)
  | peerUp (o : Order ChannelID) (peer : HandleRef) (id : PeerID) (live : Bool)
  | peerDown (o : Order ChannelID) (peer : HandleRef)
  | handshake (o : Order ChannelID) (c : ConnRef) (channels : List ChannelID)
  | subscribed (c : ConnRef) (id : ChannelID)
  | unsubscribed (c : ConnRef) (id : ChannelID)
  | gone (o : Order ChannelID) (c : ConnRef)
  /-- The connection's context ends. -/
  | cancel (c : ConnRef)
  /-- `Run` returns: it stops the connection. -/
  | runExit (c : ConnRef)
  /-- A session uses the control state. -/
  | call (c : ConnRef) (f : CtrlOutState.SessionCall)
  /-- The control loop takes one transition. -/
  | next (c : ConnRef) (o₁ o₂ : Order ChannelID)

/-- The engine with, for each connection, the events its control loop has taken so far. -/
structure EngineSystem where
  engine : Engine := {}
  emitted : ConnRef → List PeerCtrlEvent := fun _ => []

/-- Some family handle bound to a connection of `id`. -/
def Engine.boundID (e : Engine) (id : PeerID) : Bool :=
  e.bindings.entries.any fun b => (e.links b.2).any (·.id = id)

namespace EngineSystem

def onEngine (x : EngineSystem) (f : Engine → Engine) : EngineSystem :=
  { x with engine := f x.engine }

/-- One step.  Three of them are taken only when they can occur: a family delivers `PeerUp` for an
ID after the `PeerDown` of its previous handle, `Run` posts one handshake, and the control loop runs
from the handshake until the context ends. -/
def step (x : EngineSystem) : EngineOp → EngineSystem
  | .addChannel o id h => x.onEngine (·.addChannel o id h)
  | .removeChannel o id => x.onEngine (·.removeChannel o id)
  | .peerUp o peer id live =>
    if (x.engine.bindings.get peer).isSome || x.engine.boundID id then x
    else x.onEngine (·.bindPeer o peer id live)
  | .peerDown o peer => x.onEngine (·.peerDown o peer)
  | .handshake o c channels =>
    if (x.engine.links c).any (·.handshakeDone) then x
    else x.onEngine (·.handlePeerHandshake o c channels)
  | .subscribed c id => x.onEngine (·.peerSubscribed c id)
  | .unsubscribed c id => x.onEngine (·.peerUnsubscribed c id)
  | .gone o c => x.onEngine (·.handlePeerGone o c)
  | .cancel c => x.onEngine (·.updConn c (onLink fun l => { l with ctxDone := true }))
  | .runExit c => x.onEngine (·.updConn c (onLink PeerLink.stop))
  | .call c f =>
    x.onEngine (·.updConn c (onLink fun l => { l with ctrlState := l.ctrlState.call f }))
  | .next c o₁ o₂ =>
    match x.engine.links c with
    | none => x
    | some l =>
      if l.handshakeDone && !l.ctxDone then
        let r := l.ctrlState.next o₁ o₂
        { engine := x.engine.updConn c (onLink fun l => { l with ctrlState := r.2 })
          emitted := update x.emitted c (x.emitted c ++ r.1.toList) }
      else x

/-- The entries of `m'` are entries of `m`, and only entries that lead to `c` are gone. -/
def DropsOnly {K : Type} [DecidableEq K] (m m' : Map K ConnRef) (c : ConnRef) : Prop :=
  ∀ k d, (m'.get k = some d → m.get k = some d) ∧ (d ≠ c → m.get k = some d → m'.get k = some d)

/-- A channel is registered or dropped, and each current connection is told. -/
structure Announces (x x' : EngineSystem) (id : ChannelID) (present : Bool) : Prop where
  channels : ∀ k, (x'.engine.channels.get k).isSome = if k = id then present else (x.engine.channels.get k).isSome
  peers : x'.engine.peers = x.engine.peers
  bindings : x'.engine.bindings = x.engine.bindings
  nextConn : x'.engine.nextConn = x.engine.nextConn
  current : ∀ pid c, x.engine.peers.get pid = some c →
    x'.engine.links c = (x.engine.links c).map (·.announce id present)
  rest : ∀ c, (∀ pid, x.engine.peers.get pid ≠ some c) → x'.engine.links c = x.engine.links c
  log : x'.emitted = x.emitted

/-- A new connection is bound to its handle. -/
structure Binds (x x' : EngineSystem) (peer : HandleRef) (id : PeerID) (announced : List ChannelID) : Prop where
  free : x.engine.boundID id = false
  unbound : x.engine.bindings.get peer = none
  channels : x'.engine.channels = x.engine.channels
  peers : x'.engine.peers = x.engine.peers
  bindings : x'.engine.bindings = x.engine.bindings.set peer x.engine.nextConn
  nextConn : x'.engine.nextConn = x.engine.nextConn + 1
  links : x'.engine.links = update x.engine.links x.engine.nextConn (some { id := id, announced := announced })
  log : x'.emitted = x.emitted

/-- One connection's link moves from `l` to `l'`; the channels and the other links stay. -/
structure Relinks (x x' : EngineSystem) (c : ConnRef) (l l' : PeerLink) : Prop where
  link : x.engine.links c = some l
  channels : x'.engine.channels = x.engine.channels
  nextConn : x'.engine.nextConn = x.engine.nextConn
  links : x'.engine.links = update x.engine.links c (some l')

/-- A handshake completes. -/
structure Greets (x x' : EngineSystem) (o : Order ChannelID) (c : ConnRef) (l : PeerLink) : Prop
    extends Relinks x x' c l { l with ctrlState := x.engine.greet o l, handshakeDone := true } where
  ctx : l.ctxDone = false
  done : l.handshakeDone = false
  peers : x'.engine.peers = x.engine.peers.set l.id c
  bindings : x'.engine.bindings = x.engine.bindings
  log : x'.emitted = x.emitted

/-- A connection stops; it may leave the peers and the bindings. -/
structure Stops (x x' : EngineSystem) (c : ConnRef) (l : PeerLink) : Prop extends Relinks x x' c l l.stop where
  peers : DropsOnly x.engine.peers x'.engine.peers c
  bindings : DropsOnly x.engine.bindings x'.engine.bindings c
  log : x'.emitted = x.emitted

/-- A context ends, or a session uses the control state. -/
structure Touches (x x' : EngineSystem) (c : ConnRef) (l l' : PeerLink) : Prop extends Relinks x x' c l l' where
  peers : x'.engine.peers = x.engine.peers
  bindings : x'.engine.bindings = x.engine.bindings
  log : x'.emitted = x.emitted
  id : l'.id = l.id
  announced : l'.announced = l.announced
  done : l'.handshakeDone = l.handshakeDone
  ctx : l.ctxDone = true → l'.ctxDone = true
  closed : l'.ctrlState.closed = l.ctrlState.closed
  same : l'.ctrlState.channels = l.ctrlState.channels

/-- The control loop of a connection takes a transition. -/
structure Takes (x x' : EngineSystem) (c : ConnRef) (l : PeerLink) (r : Option PeerCtrlEvent) (s : CtrlOutState) : Prop
    extends Relinks x x' c l { l with ctrlState := s } where
  done : l.handshakeDone = true
  isOpen : l.ctrlState.closed = false
  spec : CtrlOutState.NextSpec l.ctrlState r s
  closed : s.closed = false
  peers : x'.engine.peers = x.engine.peers
  bindings : x'.engine.bindings = x.engine.bindings
  log : x'.emitted = update x.emitted c (x.emitted c ++ r.toList)

/-- **All that one step can do** to the engine's maps, the links and the emitted events. -/
inductive Moves (x x' : EngineSystem) : Prop
  /-- Routing tables, posts and observations only. -/
  | idle (hagree : Agree x.engine x'.engine) (hlog : x'.emitted = x.emitted)
  | announce (id : ChannelID) (present : Bool) (h : Announces x x' id present)
  | bind (peer : HandleRef) (id : PeerID) (announced : List ChannelID) (h : Binds x x' peer id announced)
  | handshake (o : Order ChannelID) (c : ConnRef) (l : PeerLink) (h : Greets x x' o c l)
  | stop (c : ConnRef) (l : PeerLink) (h : Stops x x' c l)
  | touch (c : ConnRef) (l l' : PeerLink) (h : Touches x x' c l l')
  | next (c : ConnRef) (l : PeerLink) (r : Option PeerCtrlEvent) (s : CtrlOutState) (h : Takes x x' c l r s)

/-! ## The invariant -/

/-- What holds of one connection and the events it emitted. -/
structure ConnInv (e : Engine) (c : ConnRef) (l : PeerLink) (log : List PeerCtrlEvent) : Prop where
  fits : Along see Fits l.announced.toFinset log
  stopped : l.ctrlState.closed = true → l.ctxDone = true
  bound : l.ctrlState.closed = false → ∃ peer, e.bindings.get peer = some c
  current : l.handshakeDone = true → l.ctrlState.closed = false → e.peers.get l.id = some c
  quiet : l.handshakeDone = false → log = [] ∧ (l.ctrlState.closed = false → ∀ k, l.ctrlState.channels.get k = none)
  tracked : l.handshakeDone = true → l.ctrlState.closed = false → ∀ k,
    Tracks (l.ctrlState.channels.get k) ((e.channels.get k).isSome = true) (k ∈ viewOf l.announced log)

structure Inv (x : EngineSystem) : Prop where
  fresh : ∀ c, x.engine.nextConn ≤ c → x.engine.links c = none
  silent : ∀ c, x.engine.links c = none → x.emitted c = []
  linked : ∀ peer c, x.engine.bindings.get peer = some c → ∃ l, x.engine.links c = some l
  unique : ∀ peer peer' c c' l l', x.engine.bindings.get peer = some c →
    x.engine.bindings.get peer' = some c' → x.engine.links c = some l →
    x.engine.links c' = some l' → l.id = l'.id → c = c'
  ready : ∀ pid c, x.engine.peers.get pid = some c →
    ∃ l, x.engine.links c = some l ∧ l.id = pid ∧ l.handshakeDone = true
  conns : ∀ c l, x.engine.links c = some l → ConnInv x.engine c l (x.emitted c)

theorem inv_init : Inv {} where
  fresh _ _ := rfl
  silent _ _ := rfl
  linked _ _ h := nomatch h
  unique _ _ _ _ _ _ h := nomatch h
  ready _ _ h := nomatch h
  conns _ _ h := nomatch h

/-! ## Each step is one of the moves -/

section Moves

variable {x : EngineSystem}

variable {c : ConnRef} {f : PeerLink → PeerLink}

theorem Relinks.of_relinked {x' : EngineSystem} {l : PeerLink} (h : Relinked (onConn c f) x.engine x'.engine)
    (hl : x.engine.links c = some l) : Relinks x x' c l (f l) where
  link := hl
  channels := h.channels
  nextConn := h.nextConn
  links := by
    funext k
    rw [h.links, onConn, update_apply]
    split
    · rename_i hk
      rw [hk, hl]
      rfl
    · rfl

/-- Changing the link of a connection that does not exist changes nothing. -/
theorem agree_of_unlinked {e e' : Engine}
    (h : Relinked (onConn c f) e e') (hl : e.links c = none) : Agree e e' where
  channels := h.channels
  peers := h.peers
  bindings := h.bindings
  nextConn := h.nextConn
  links k := by
    rw [h.links, onConn]
    split
    · rename_i hk
      rw [hk, hl]
      rfl
    · rfl

theorem DropsOnly.of_eq {K : Type} [DecidableEq K] {m m' : Map K ConnRef} (h : m' = m)
    (c : ConnRef) : DropsOnly m m' c := by
  intro k d
  rw [h]
  exact ⟨id, fun _ => id⟩

theorem DropsOnly.del {K : Type} [DecidableEq K] {m : Map K ConnRef} {k : K}
    (hk : m.get k = some c) : DropsOnly m (m.del k) c := by
  intro k' d
  rw [get_del]
  split
  · rename_i heq
    subst heq
    refine ⟨(by simp), fun hd hget => ?_⟩
    rw [hk] at hget
    cases hget
    exact absurd rfl hd
  · exact ⟨id, fun _ => id⟩

variable (e : Engine) (o : Order ChannelID)

theorem removePeer_spec (c : ConnRef) :
    (e.removePeer o c).channels = e.channels ∧ (e.removePeer o c).bindings = e.bindings ∧
    (e.removePeer o c).nextConn = e.nextConn ∧ (e.removePeer o c).links = e.links ∧
    DropsOnly e.peers (e.removePeer o c).peers c := by
  unfold removePeer
  split
  · exact ⟨rfl, rfl, rfl, rfl, .of_eq rfl c⟩
  rename_i p _
  split
  · exact ⟨rfl, rfl, rfl, rfl, .of_eq rfl c⟩
  rename_i hcur
  have hagree := (foldl_agree (fun e id => e.unenrolPeerFromChannel_agree c id)
    (p.subs.range o) { e with peers := e.peers.del p.id }).trans
    (observe_agree _ (.peerGone p.id))
  refine ⟨hagree.channels, hagree.bindings, hagree.nextConn, funext hagree.links, ?_⟩
  rw [hagree.peers]
  exact .del (not_not.mp hcur)

theorem handlePeerGone_spec {l : PeerLink} (hl : e.links c = some l) :
    (e.handlePeerGone o c).channels = e.channels ∧ (e.handlePeerGone o c).bindings = e.bindings ∧
    (e.handlePeerGone o c).nextConn = e.nextConn ∧
    (e.handlePeerGone o c).links = update e.links c (some l.stop) ∧
    DropsOnly e.peers (e.handlePeerGone o c).peers c := by
  obtain ⟨hch, hb, hn, hlinks, hpeers⟩ := removePeer_spec e o c
  have hstop := updConn_onLink (e.removePeer o c) c PeerLink.stop
  rw [← hlinks] at hl
  have hrelink : Relinks { engine := e.removePeer o c } { engine := e.handlePeerGone o c } c l l.stop :=
    .of_relinked hstop hl
  refine ⟨hstop.channels.trans hch, hstop.bindings.trans hb, hstop.nextConn.trans hn, ?_, ?_⟩
  · rw [← hlinks]
    exact hrelink.links
  · rw [handlePeerGone, hstop.peers]
    exact hpeers

theorem handlePeerGone_unlinked (hl : e.links c = none) : Agree e (e.handlePeerGone o c) := by
  have hc : e.conns.get c = none := by simpa [links] using hl
  have hremove : e.removePeer o c = e := by simp [removePeer, hc]
  rw [handlePeerGone, hremove]
  exact agree_of_unlinked (updConn_onLink e c PeerLink.stop) hl

theorem moves_gone (c : ConnRef) : Moves x (x.step (.gone o c)) := by
  cases hl : x.engine.links c with
  | none => exact .idle (handlePeerGone_unlinked _ o hl) rfl
  | some l =>
    obtain ⟨hch, hb, hn, hlinks, hpeers⟩ := handlePeerGone_spec x.engine o hl
    exact .stop c l ⟨⟨hl, hch, hn, hlinks⟩, hpeers, .of_eq hb c, rfl⟩

theorem moves_peerDown (h : Inv x) (o : Order ChannelID) (peer : HandleRef) :
    Moves x (x.step (.peerDown o peer)) := by
  change Moves x { x with engine := x.engine.peerDown o peer }
  unfold peerDown
  split
  · exact .idle (.refl _) rfl
  rename_i c hc
  obtain ⟨l, hl⟩ := h.linked peer c hc
  obtain ⟨hch, hb, hn, hlinks, hpeers⟩ :=
    handlePeerGone_spec { x.engine with bindings := x.engine.bindings.del peer } o (l := l) hl
  refine .stop c l ⟨⟨hl, hch, hn, hlinks⟩, hpeers, ?_, rfl⟩
  rw [hb]
  exact .del hc

/-- A step that changes one link and keeps all maps. -/
theorem moves_touch {e' : Engine} (h : Relinked (onConn c f) x.engine e')
    (hid : ∀ l, (f l).id = l.id) (hann : ∀ l, (f l).announced = l.announced)
    (hdone : ∀ l, (f l).handshakeDone = l.handshakeDone) (hctx : ∀ l, l.ctxDone = true → (f l).ctxDone = true)
    (hclosed : ∀ l, (f l).ctrlState.closed = l.ctrlState.closed)
    (hsame : ∀ l, (f l).ctrlState.channels = l.ctrlState.channels) : Moves x { x with engine := e' } := by
  cases hl : x.engine.links c with
  | none => exact .idle (agree_of_unlinked h hl) rfl
  | some l =>
    exact .touch c l (f l) ⟨.of_relinked h hl, h.peers, h.bindings, rfl, hid l, hann l, hdone l, hctx l, hclosed l, hsame l⟩

theorem moves_runExit (c : ConnRef) : Moves x (x.step (.runExit c)) := by
  have hstop := updConn_onLink x.engine c PeerLink.stop
  cases hl : x.engine.links c with
  | none => exact .idle (agree_of_unlinked hstop hl) rfl
  | some l =>
    exact .stop c l ⟨.of_relinked hstop hl, .of_eq hstop.peers c, .of_eq hstop.bindings c, rfl⟩

theorem moves_next (h : Inv x) (c : ConnRef) (o₁ o₂ : Order ChannelID) : Moves x (x.step (.next c o₁ o₂)) := by
  cases hl : x.engine.links c with
  | none =>
    have hstep : x.step (.next c o₁ o₂) = x := by simp [step, hl]
    rw [hstep]
    exact .idle (.refl _) rfl
  | some l =>
    by_cases hrun : l.handshakeDone = true ∧ l.ctxDone = false
    · have hopen : l.ctrlState.closed = false := by
        cases hcl : l.ctrlState.closed with
        | false => rfl
        | true =>
          have hctx := (h.conns c l hl).stopped hcl
          rw [hrun.2] at hctx
          cases hctx
      have hspec := CtrlOutState.next_spec hopen o₁ o₂
      have hclosed := CtrlOutState.next_closed o₁ o₂ l.ctrlState
      have hstep : x.step (.next c o₁ o₂) =
          { engine := x.engine.updConn c (onLink fun l' =>
              { l' with ctrlState := (l.ctrlState.next o₁ o₂).2 })
            emitted := update x.emitted c (x.emitted c ++ (l.ctrlState.next o₁ o₂).1.toList) } := by
        simp [step, hl, hrun]
      rw [hstep]
      generalize l.ctrlState.next o₁ o₂ = r at hspec hclosed
      have hupd := updConn_onLink x.engine c (fun l' => { l' with ctrlState := r.2 })
      exact .next c l r.1 r.2 ⟨.of_relinked (f := fun l' => { l' with ctrlState := r.2 }) hupd hl, hrun.1, hopen,
        hspec, hclosed.trans hopen, hupd.peers, hupd.bindings, rfl⟩
    · have hstep : x.step (.next c o₁ o₂) = x := by
        simp only [step, hl]
        rw [if_neg (by simpa using hrun)]
      rw [hstep]
      exact .idle (.refl _) rfl

theorem moves_peerUp (peer : HandleRef) (id : PeerID) (live : Bool) : Moves x (x.step (.peerUp o peer id live)) := by
  simp only [step]
  split
  · exact .idle (.refl _) rfl
  rename_i hfree
  simp only [Bool.or_eq_true, not_or, Bool.not_eq_true, isSome_eq_false_iff, isNone_iff_eq_none] at hfree
  cases live with
  | false => exact .idle (.refl _) rfl
  | true =>
    refine .bind peer id (x.engine.channels.range o) ⟨hfree.2, hfree.1, rfl, rfl, rfl, rfl, ?_, rfl⟩
    funext k
    by_cases hk : k = x.engine.nextConn
    · simp [onEngine, bindPeer, links, hk]
    · simp [onEngine, bindPeer, links, hk, update_of_ne]

/-- Different IDs have different current connections. -/
theorem Inv.peers_injective (h : Inv x) (pid pid' : PeerID) (c : ConnRef)
    (hp : x.engine.peers.get pid = some c) (hp' : x.engine.peers.get pid' = some c) : pid = pid' := by
  obtain ⟨l, hl, rfl, _⟩ := h.ready pid c hp
  obtain ⟨l', hl', rfl, _⟩ := h.ready pid' c hp'
  rw [hl] at hl'
  cases hl'
  rfl

theorem moves_addChannel (h : Inv x) (o : Order PeerID) (id : ChannelID) (ref : ChannelRef) :
    Moves x (x.step (.addChannel o id ref)) := by
  change Moves x { x with engine := x.engine.addChannel o id ref }
  unfold addChannel
  split
  · exact .idle ⟨rfl, rfl, rfl, rfl, fun _ => rfl⟩ rfl
  obtain ⟨g, hg, hcur, hrest⟩ := forPeers_relinked
    (e := { x.engine with channels := x.engine.channels.set id ref }.observe
      (.channelAttached id false)) (joinPeer_relinked id) h.peers_injective o
  refine .announce id true ⟨fun k => ?_, hg.peers, hg.bindings, hg.nextConn, fun pid c hc => ?_, fun c hc => ?_, rfl⟩
  · refine (congrArg (fun m => (get m k).isSome) hg.channels).trans ?_
    simp only [observe, get_set]
    split <;> rfl
  · exact (hg.links c).trans (hcur pid c _ hc)
  · exact (hg.links c).trans (hrest c _ hc)

theorem moves_removeChannel (h : Inv x) (o : Order PeerID) (id : ChannelID) :
    Moves x (x.step (.removeChannel o id)) := by
  change Moves x { x with engine := x.engine.removeChannel o id }
  unfold removeChannel
  split
  · exact .idle (.refl _) rfl
  obtain ⟨g, hg, hcur, hrest⟩ := forPeers_relinked (leavePeer_relinked id) h.peers_injective o
  refine .announce id false ⟨fun k => ?_, hg.peers, hg.bindings, hg.nextConn, fun pid c hc => ?_, fun c hc => ?_, rfl⟩
  · refine (congrArg (fun m => (get (del m id) k).isSome) hg.channels).trans ?_
    rw [get_del]
    split <;> rfl
  · exact (hg.links c).trans (hcur pid c _ hc)
  · exact (hg.links c).trans (hrest c _ hc)

theorem moves_subscribed (c : ConnRef) (id : ChannelID) : Moves x (x.step (.subscribed c id)) := by
  refine .idle ?_ rfl
  change Agree x.engine (x.engine.peerSubscribed c id)
  unfold peerSubscribed
  split
  · exact .refl _
  rename_i p _
  split
  · exact .refl _
  split
  · exact .refl _
  have hupd : Agree x.engine
      (x.engine.updConn c fun p => { p with subs := p.subs.set id () }) :=
    updConn_agree _ c fun _ => rfl
  exact (hupd.trans (enrolPeerToChannel_agree _ c id)).trans (observe_agree _ _)

theorem moves_unsubscribed (c : ConnRef) (id : ChannelID) : Moves x (x.step (.unsubscribed c id)) := by
  refine .idle ?_ rfl
  change Agree x.engine (x.engine.peerUnsubscribed c id)
  unfold peerUnsubscribed
  split
  · exact .refl _
  rename_i p _
  split
  · exact .refl _
  split
  · exact .refl _
  have hupd : Agree x.engine
      (x.engine.updConn c fun p => { p with subs := p.subs.del id }) :=
    updConn_agree _ c fun _ => rfl
  exact (hupd.trans (unenrolPeerFromChannel_agree _ c id)).trans (observe_agree _ _)

theorem moves_handshake (c : ConnRef) (channels : List ChannelID) : Moves x (x.step (.handshake o c channels)) := by
  simp only [step]
  split
  · exact .idle (.refl _) rfl
  rename_i hdone
  change Moves x { x with engine := x.engine.handlePeerHandshake o c channels }
  cases hp : x.engine.conns.get c with
  | none =>
    have hstep : x.engine.handlePeerHandshake o c channels = x.engine := by
      simp [handlePeerHandshake, hp]
    rw [hstep]
    exact .idle (.refl _) rfl
  | some p =>
    have hl : x.engine.links c = some p.toPeerLink := by simp [links, hp]
    have hdone : p.handshakeDone = false := by simpa [hl] using hdone
    cases hctx : p.ctxDone with
    | true =>
      have hstep : x.engine.handlePeerHandshake o c channels = x.engine := by
        simp [handlePeerHandshake, hp, hctx]
      rw [hstep]
      exact .idle (.refl _) rfl
    | false =>
      obtain ⟨hch, hb, hn, hpeers, hlinks⟩ :=
        handlePeerHandshake_spec x.engine o channels hp hctx
      exact .handshake o c p.toPeerLink ⟨⟨hl, hch, hn, hlinks⟩, hctx, hdone, hpeers, hb, rfl⟩

theorem moves (h : Inv x) (op : EngineOp) : Moves x (x.step op) := by
  cases op with
  | addChannel o id ref => exact moves_addChannel h o id ref
  | removeChannel o id => exact moves_removeChannel h o id
  | peerUp o peer id live => exact moves_peerUp o peer id live
  | peerDown o peer => exact moves_peerDown h o peer
  | handshake o c channels => exact moves_handshake o c channels
  | subscribed c id => exact moves_subscribed c id
  | unsubscribed c id => exact moves_unsubscribed c id
  | gone o c => exact moves_gone o c
  | cancel c =>
    exact moves_touch (updConn_onLink x.engine c fun l => { l with ctxDone := true })
      (fun _ => rfl) (fun _ => rfl) (fun _ => rfl) (fun _ _ => rfl) (fun _ => rfl) fun _ => rfl
  | runExit c => exact moves_runExit c
  | call c f =>
    exact moves_touch
      (updConn_onLink x.engine c fun l => { l with ctrlState := l.ctrlState.call f })
      (fun _ => rfl) (fun _ => rfl) (fun _ => rfl) (fun _ h => h)
      (fun l => l.ctrlState.call_closed f) fun l => l.ctrlState.call_channels f
  | next c o₁ o₂ => exact moves_next h c o₁ o₂

end Moves

/-! ## The invariant is kept -/

variable {l : PeerLink} {c : ConnRef} {x : EngineSystem}

/-- The handshake brings the flags in line with the channels registered by then, whatever list our
own handshake carried. -/
theorem greet_tracks {e : Engine} {o : Order ChannelID}
    (hopen : l.ctrlState.closed = false) (hnone : ∀ k, l.ctrlState.channels.get k = none) (k : ChannelID) :
    Tracks ((e.greet o l).channels.get k) ((e.channels.get k).isSome = true) (k ∈ viewOf l.announced []) := by
  have hinit : (l.ctrlState.announceInitial l.announced).closed = false := by simpa using hopen
  have hmem : k ∈ (e.channels.range o).filter (· ∉ l.announced) ↔
      (e.channels.get k).isSome = true ∧ k ∉ l.announced := by
    rw [List.mem_filter, mem_range, mem_keys, ← isSome_iff_exists]
    simp
  have hmem' : k ∈ l.announced.filter (fun id => (e.channels.get id).isNone) ↔
      k ∈ l.announced ∧ (e.channels.get k).isSome = false := by
    simp
  rw [greet, CtrlOutState.get_foldl_announce (by simpa using hinit),
    CtrlOutState.get_foldl_announce hinit, CtrlOutState.get_announceInitial hopen, hnone]
  simp only [hmem, hmem', viewOf, exec_nil, List.mem_toFinset]
  by_cases hann : k ∈ l.announced <;> cases hreg : (e.channels.get k).isSome <;>
    simp [hann, Tracks, setWant]

section Keep

variable {x x' : EngineSystem}

variable {c : ConnRef} {l l' : PeerLink}

/-- A connection none of whose surroundings changed. -/
theorem ConnInv.transfer {e e' : Engine} {log : List PeerCtrlEvent} (h : ConnInv e c l log)
    (hbound : ∀ peer, e.bindings.get peer = some c → e'.bindings.get peer = some c)
    (hcurrent : l.handshakeDone = true → l.ctrlState.closed = false → e'.peers.get l.id = some c)
    (hchannels : ∀ k, (e'.channels.get k).isSome = (e.channels.get k).isSome) :
    ConnInv e' c l log where
  fits := h.fits
  stopped := h.stopped
  bound hopen := (h.bound hopen).imp hbound
  current := hcurrent
  quiet := h.quiet
  tracked hdone hopen k := by
    rw [hchannels]
    exact h.tracked hdone hopen k

/-- A step after which no connection is new or has another ID, and no binding is new. -/
theorem Inv.of_links (h : Inv x) (hnext : x'.engine.nextConn = x.engine.nextConn)
    (hids : ∀ c, (x'.engine.links c).map (·.id) = (x.engine.links c).map (·.id))
    (hbind : ∀ peer c, x'.engine.bindings.get peer = some c → x.engine.bindings.get peer = some c)
    (hlog : ∀ c, x.engine.links c = none → x'.emitted c = x.emitted c)
    (hready : ∀ pid c, x'.engine.peers.get pid = some c →
      ∃ l, x'.engine.links c = some l ∧ l.id = pid ∧ l.handshakeDone = true)
    (hconns : ∀ c l, x'.engine.links c = some l → ConnInv x'.engine c l (x'.emitted c)) : Inv x' := by
  have hnone : ∀ c, x'.engine.links c = none ↔ x.engine.links c = none := by
    intro c
    rw [← map_eq_none_iff (f := PeerLink.id), hids, map_eq_none_iff]
  have hsome : ∀ {c l'}, x'.engine.links c = some l' → ∃ l, x.engine.links c = some l ∧ l.id = l'.id := by
    intro c l' hl'
    have heq := hids c
    rw [hl'] at heq
    exact map_eq_some_iff.mp heq.symm
  constructor
  · intro c hc
    rw [hnext] at hc
    exact (hnone c).mpr (h.fresh c hc)
  · intro c hc
    rw [hlog c ((hnone c).mp hc)]
    exact h.silent c ((hnone c).mp hc)
  · intro peer c hc
    obtain ⟨l, hl⟩ := h.linked peer c (hbind peer c hc)
    refine ne_none_iff_exists'.mp fun hno => ?_
    rw [(hnone c).mp hno] at hl
    cases hl
  · intro peer peer' c c' l l' hc hc' hl hl' hid
    obtain ⟨m, hm, hmid⟩ := hsome hl
    obtain ⟨m', hm', hmid'⟩ := hsome hl'
    exact h.unique peer peer' c c' m m' (hbind peer c hc) (hbind peer' c' hc') hm hm' (by rw [hmid, hmid', hid])
  · exact hready
  · exact hconns

theorem inv_idle (h : Inv x) (hagree : Agree x.engine x'.engine) (hlog : x'.emitted = x.emitted) : Inv x' := by
  have hlinks : x'.engine.links = x.engine.links := funext hagree.links
  refine h.of_links hagree.nextConn (fun c => by rw [hlinks]) ?_ (fun c _ => by rw [hlog]) ?_ ?_
  · rw [hagree.bindings]
    exact fun _ _ => id
  · rw [hagree.peers, hlinks]
    exact h.ready
  · rw [hlinks, hlog]
    refine fun c l hl => (h.conns c l hl).transfer ?_ ?_ ?_
    · rw [hagree.bindings]
      exact fun _ => id
    · rw [hagree.peers]
      exact (h.conns c l hl).current
    · rw [hagree.channels]
      exact fun _ => rfl

section Announce

variable {id : ChannelID} {present : Bool} (h : Inv x) (ha : Announces x x' id present)
include h ha

/-- A current connection, whose handshake is done, was told. -/
theorem conn_told {pid : PeerID} (hpid : x.engine.peers.get pid = some c) (hl : x.engine.links c = some l) :
    ConnInv x'.engine c (l.announce id present) (x.emitted c) := by
  have hconn := h.conns c l hl
  obtain ⟨m, hm, _, hmdone⟩ := h.ready pid c hpid
  obtain rfl : l = m := some.inj (hl.symm.trans hm)
  have hclosed : (l.announce id present).ctrlState.closed = l.ctrlState.closed :=
    CtrlOutState.announce_closed _ _ _
  refine ⟨hconn.fits, ?_, ?_, ?_, ?_, ?_⟩
  · rw [hclosed]
    exact hconn.stopped
  · rw [hclosed, ha.bindings]
    exact hconn.bound
  · rw [hclosed, ha.peers]
    exact hconn.current
  · intro hdone
    rw [show (l.announce id present).handshakeDone = true from hmdone] at hdone
    cases hdone
  · intro hdone hopen k
    rw [hclosed] at hopen
    rw [ha.channels]
    change Tracks ((l.ctrlState.announce id present).channels.get k) _ _
    rw [CtrlOutState.channels_announce hopen, get_set]
    have htracked := hconn.tracked hdone hopen k
    split
    · rename_i hk
      subst hk
      exact htracked.setWant present
    · exact htracked

/-- One that is not current is closed or has not shaken hands. -/
theorem conn_untold (hnot : ∀ pid, x.engine.peers.get pid ≠ some c) (hl : x.engine.links c = some l) :
    ConnInv x'.engine c l (x.emitted c) := by
  have hconn := h.conns c l hl
  refine ⟨hconn.fits, hconn.stopped, ?_, ?_, hconn.quiet, fun hdone hopen => ?_⟩
  · rw [ha.bindings]
    exact hconn.bound
  · rw [ha.peers]
    exact hconn.current
  · exact absurd (hconn.current hdone hopen) (hnot l.id)

theorem inv_announce : Inv x' := by
  refine h.of_links ha.nextConn (fun c => ?_) (fun _ _ hc => ha.bindings ▸ hc) (fun c _ => by rw [ha.log])
    (fun pid c hc => ?_) fun c l' hl' => ?_
  · by_cases hc : ∃ pid, x.engine.peers.get pid = some c
    · obtain ⟨pid, hpid⟩ := hc
      rw [ha.current pid c hpid, map_map]
      rfl
    · rw [ha.rest c (not_exists.mp hc)]
  · rw [ha.peers] at hc
    obtain ⟨l, hl, hid, hdone⟩ := h.ready pid c hc
    exact ⟨l.announce id present, by rw [ha.current pid c hc, hl]; rfl, hid, hdone⟩
  rw [ha.log]
  by_cases hc : ∃ pid, x.engine.peers.get pid = some c
  · obtain ⟨pid, hpid⟩ := hc
    rw [ha.current pid c hpid, map_eq_some_iff] at hl'
    obtain ⟨l, hl, rfl⟩ := hl'
    exact conn_told h ha hpid hl
  · rw [ha.rest c (not_exists.mp hc)] at hl'
    exact conn_untold h ha (not_exists.mp hc) hl'

end Announce

theorem ne_of_not_boundID {id : PeerID} (hfree : x.engine.boundID id = false) {peer : HandleRef}
    (hc : x.engine.bindings.get peer = some c) (hl : x.engine.links c = some l) : l.id ≠ id := by
  intro hid
  have hany : x.engine.boundID id = true := by
    refine List.any_eq_true.mpr ⟨(peer, c), mem_entries.mpr hc, ?_⟩
    simp [hl, hid]
  rw [hfree] at hany
  cases hany

section

variable (h : Inv x)
include h

theorem inv_bind {peer : HandleRef} {id : PeerID} {announced : List ChannelID}
    (hb : Binds x x' peer id announced) : Inv x' := by
  have hnew : x.engine.links x.engine.nextConn = none := h.fresh _ le_rfl
  have hold : ∀ {c l}, x.engine.links c = some l → x'.engine.links c = some l := by
    intro c l hl
    have hne : c ≠ x.engine.nextConn := by
      rintro rfl
      rw [hnew] at hl
      cases hl
    rw [hb.links, update_of_ne hne, hl]
  have hcases : ∀ c l, x'.engine.links c = some l →
      c = x.engine.nextConn ∧ l = { id := id, announced := announced } ∨ x.engine.links c = some l := by
    intro c l hl
    rw [hb.links, update_apply] at hl
    split at hl
    · rename_i hc
      exact .inl ⟨hc, (some.inj hl).symm⟩
    · exact .inr hl
  have hbound : ∀ peer' c, x'.engine.bindings.get peer' = some c →
      c = x.engine.nextConn ∧ peer' = peer ∨ x.engine.bindings.get peer' = some c := by
    intro peer' c hc
    rw [hb.bindings, get_set] at hc
    split at hc
    · rename_i hp
      exact .inl ⟨(some.inj hc).symm, hp⟩
    · exact .inr hc
  -- the new connection shares its ID with no bound one
  have hapart : ∀ peer' c l, x.engine.bindings.get peer' = some c → x'.engine.links c = some l →
      l.id ≠ id := by
    intro peer' c l hc hl
    obtain ⟨m, hm⟩ := h.linked peer' c hc
    have hml := hold hm
    rw [hl] at hml
    cases hml
    exact ne_of_not_boundID hb.free hc hm
  have hself : ∀ l, x'.engine.links x.engine.nextConn = some l → l.id = id := by
    intro l hl
    rw [hb.links, update_self] at hl
    cases hl
    rfl
  constructor
  case fresh =>
    intro c hc
    rw [hb.nextConn] at hc
    rw [hb.links, update_of_ne (Nat.ne_of_gt hc)]
    exact h.fresh c (Nat.le_of_succ_le hc)
  case silent =>
    intro c hc
    rw [hb.log]
    refine h.silent c ?_
    cases hl : x.engine.links c with
    | none => rfl
    | some l => rw [hold hl] at hc; cases hc
  case linked =>
    intro peer' c hc
    rcases hbound peer' c hc with ⟨rfl, _⟩ | hc
    · exact ⟨_, by rw [hb.links, update_self]⟩
    · obtain ⟨l, hl⟩ := h.linked peer' c hc
      exact ⟨l, hold hl⟩
  case unique =>
    intro peer₁ peer₂ c₁ c₂ l₁ l₂ hc₁ hc₂ hl₁ hl₂ hid
    rcases hbound peer₁ c₁ hc₁ with ⟨rfl, _⟩ | hc₁ <;>
      rcases hbound peer₂ c₂ hc₂ with ⟨rfl, _⟩ | hc₂
    · rfl
    · exact absurd (hid.symm.trans (hself l₁ hl₁)) (hapart peer₂ c₂ l₂ hc₂ hl₂)
    · exact absurd (hid.trans (hself l₂ hl₂)) (hapart peer₁ c₁ l₁ hc₁ hl₁)
    obtain ⟨m₁, hm₁⟩ := h.linked peer₁ c₁ hc₁
    obtain ⟨m₂, hm₂⟩ := h.linked peer₂ c₂ hc₂
    have h₁ := hold hm₁
    have h₂ := hold hm₂
    rw [hl₁] at h₁
    rw [hl₂] at h₂
    cases h₁
    cases h₂
    exact h.unique peer₁ peer₂ c₁ c₂ l₁ l₂ hc₁ hc₂ hm₁ hm₂ hid
  case ready =>
    intro pid c hc
    rw [hb.peers] at hc
    obtain ⟨l, hl, hid, hdone⟩ := h.ready pid c hc
    exact ⟨l, hold hl, hid, hdone⟩
  case conns =>
    intro c l hl
    rw [hb.log]
    rcases hcases c l hl with ⟨rfl, rfl⟩ | hl
    · have hempty : x.emitted x.engine.nextConn = [] := h.silent _ hnew
      rw [hempty]
      refine ⟨trivial, Bool.noConfusion, fun _ => ⟨peer, ?_⟩, Bool.noConfusion, fun _ => ⟨rfl, fun _ _ => rfl⟩,
        Bool.noConfusion⟩
      rw [hb.bindings, get_set, if_pos rfl]
    have hconn := h.conns c l hl
    refine hconn.transfer (fun peer' hc => ?_) ?_ (fun k => by rw [hb.channels])
    · have hne : peer' ≠ peer := by
        rintro rfl
        rw [hb.unbound] at hc
        cases hc
      rw [hb.bindings, get_set, if_neg hne, hc]
    · rw [hb.peers]
      exact hconn.current

/-- One connection's link changes; the others keep their bindings and stay current. -/
theorem inv_relink (hlink : Relinks x x' c l l') (hid : l'.id = l.id)
    (hbind : DropsOnly x.engine.bindings x'.engine.bindings c)
    (hready : ∀ pid d, x'.engine.peers.get pid = some d →
      d = c ∧ l'.id = pid ∧ l'.handshakeDone = true ∨ d ≠ c ∧ x.engine.peers.get pid = some d)
    (hcurrent : ∀ d m, d ≠ c → x.engine.links d = some m → m.ctrlState.closed = false →
      x.engine.peers.get m.id = some d → x'.engine.peers.get m.id = some d)
    (hlog : ∀ d, d ≠ c → x'.emitted d = x.emitted d)
    (hself : ConnInv x'.engine c l' (x'.emitted c)) : Inv x' := by
  have hat : x'.engine.links c = some l' := by rw [hlink.links, update_self]
  have hother : ∀ d, d ≠ c → x'.engine.links d = x.engine.links d :=
    fun d hd => by rw [hlink.links, update_of_ne hd]
  refine h.of_links hlink.nextConn (fun d => ?_) (fun peer d => (hbind peer d).1) (fun d hd => hlog d ?_)
    (fun pid d hd => ?_) fun d m hm => ?_
  · by_cases hdc : d = c
    · rw [hdc, hat, hlink.link]
      exact congrArg some hid
    · rw [hother d hdc]
  · rintro rfl
    rw [hlink.link] at hd
    cases hd
  · rcases hready pid d hd with ⟨rfl, hpid, hdone⟩ | ⟨hdc, hd⟩
    · exact ⟨l', hat, hpid, hdone⟩
    · rw [hother d hdc]
      exact h.ready pid d hd
  by_cases hdc : d = c
  · subst hdc
    rw [hat] at hm
    cases hm
    exact hself
  rw [hother d hdc] at hm
  rw [hlog d hdc]
  have hconn := h.conns d m hm
  refine hconn.transfer (fun peer hp => (hbind peer d).2 hdc hp) ?_ (fun k => by rw [hlink.channels])
  exact fun hdone hopen => hcurrent d m hdc hm hopen (hconn.current hdone hopen)

theorem inv_handshake {o : Order ChannelID} (hg : Greets x x' o c l) : Inv x' := by
  have hconn := h.conns c l hg.link
  have hopen : l.ctrlState.closed = false := by
    cases hcl : l.ctrlState.closed with
    | false => rfl
    | true =>
      have hctx := hg.ctx
      rw [hconn.stopped hcl] at hctx
      cases hctx
  have hgreet : (x.engine.greet o l).closed = false := by simpa [greet] using hopen
  obtain ⟨peer, hpeer⟩ := hconn.bound hopen
  obtain ⟨hempty, hnone⟩ := hconn.quiet hg.done
  refine inv_relink h hg.toRelinks rfl (.of_eq hg.bindings c) ?_ ?_ (fun d _ => by rw [hg.log]) ?_
  · intro pid d hd
    rw [hg.peers, get_set] at hd
    split at hd
    · rename_i hpid
      exact .inl ⟨(some.inj hd).symm, hpid.symm, rfl⟩
    refine .inr ⟨?_, hd⟩
    rintro rfl
    -- a connection without handshake is not among the peers
    obtain ⟨m, hm, _, hmdone⟩ := h.ready pid d hd
    rw [hg.link] at hm
    cases hm
    rw [hg.done] at hmdone
    cases hmdone
  · intro d m hdc hm hmopen hcur
    rw [hg.peers, get_set, if_neg, hcur]
    -- two live connections of one ID would share their binding
    intro hid
    obtain ⟨peer', hpeer'⟩ := (h.conns d m hm).bound hmopen
    exact hdc (h.unique peer' peer d c m l hpeer' hpeer hm hg.link hid)
  · rw [hg.log, hempty]
    refine ⟨trivial, fun hcl => ?_, fun _ => ⟨peer, by rw [hg.bindings, hpeer]⟩, fun _ _ => ?_, (by simp),
      fun _ _ k => ?_⟩
    · rw [hgreet] at hcl
      cases hcl
    · rw [hg.peers, get_set, if_pos rfl]
    · rw [hg.channels]
      exact greet_tracks hopen (hnone hopen) k

/-- The peers of a step that adds none. -/
theorem ready_of_drops (hl : x.engine.links c = some l) (hpeers : DropsOnly x.engine.peers x'.engine.peers c)
    (hid : l'.id = l.id) (hdone : l'.handshakeDone = l.handshakeDone) (pid : PeerID) (d : ConnRef)
    (hd : x'.engine.peers.get pid = some d) :
    d = c ∧ l'.id = pid ∧ l'.handshakeDone = true ∨ d ≠ c ∧ x.engine.peers.get pid = some d := by
  have hd := (hpeers pid d).1 hd
  by_cases hdc : d = c
  · subst hdc
    obtain ⟨m, hm, hmid, hmdone⟩ := h.ready pid d hd
    rw [hl] at hm
    cases hm
    exact .inl ⟨rfl, hid.trans hmid, hdone.trans hmdone⟩
  · exact .inr ⟨hdc, hd⟩

theorem inv_stop (hs : Stops x x' c l) : Inv x' := by
  have hconn := h.conns c l hs.link
  refine inv_relink h hs.toRelinks rfl hs.bindings (ready_of_drops h hs.link hs.peers rfl rfl)
    (fun d m hdc _ _ hcur => (hs.peers m.id d).2 hdc hcur) (fun d _ => by rw [hs.log]) ?_
  rw [hs.log]
  exact ⟨hconn.fits, fun _ => rfl, nofun, nofun, fun hdone => ⟨(hconn.quiet hdone).1, nofun⟩, nofun⟩

theorem inv_touch (ht : Touches x x' c l l') : Inv x' := by
  have hconn := h.conns c l ht.link
  refine inv_relink h ht.toRelinks ht.id (.of_eq ht.bindings c)
    (ready_of_drops h ht.link (.of_eq ht.peers c) ht.id ht.done) (fun d m _ _ _ hcur => by rw [ht.peers, hcur])
    (fun d _ => by rw [ht.log]) ?_
  rw [ht.log]
  constructor
  · rw [ht.announced]
    exact hconn.fits
  · rw [ht.closed]
    exact fun hcl => ht.ctx (hconn.stopped hcl)
  · rw [ht.closed, ht.bindings]
    exact hconn.bound
  · rw [ht.done, ht.closed, ht.id, ht.peers]
    exact hconn.current
  · rw [ht.done, ht.closed, ht.same]
    exact hconn.quiet
  · rw [ht.done, ht.closed, ht.same, ht.announced, ht.channels]
    exact hconn.tracked

theorem inv_next {r : Option PeerCtrlEvent} {s : CtrlOutState} (ht : Takes x x' c l r s) : Inv x' := by
  have hconn := h.conns c l ht.link
  obtain ⟨hfits, htracks, _⟩ := ht.spec.tracks (hconn.tracked ht.done ht.isOpen)
  refine inv_relink h ht.toRelinks rfl (.of_eq ht.bindings c)
    (ready_of_drops h ht.link (.of_eq ht.peers c) rfl rfl) (fun d m _ _ _ hcur => by rw [ht.peers, hcur])
    (fun d hd => by rw [ht.log, update_of_ne hd]) ?_
  rw [ht.log, update_self]
  refine ⟨Along.append_iff.mpr ⟨hconn.fits, hfits⟩, fun hcl => ?_, fun _ => ?_, fun _ _ => ?_,
    fun hnot => ?_, fun _ _ k => ?_⟩
  · cases ht.closed.symm.trans hcl
  · rw [ht.bindings]
    exact hconn.bound ht.isOpen
  · rw [ht.peers]
    exact hconn.current ht.done ht.isOpen
  · cases ht.done.symm.trans hnot
  · rw [ht.channels, viewOf, exec_append]
    exact htracks k

theorem inv_moves (hm : Moves x x') : Inv x' := by
  cases hm with
  | idle hagree hlog => exact inv_idle h hagree hlog
  | announce id present ha => exact inv_announce h ha
  | bind peer id announced hb => exact inv_bind h hb
  | handshake o c l hg => exact inv_handshake h hg
  | stop c l hs => exact inv_stop h hs
  | touch c l l' ht => exact inv_touch h ht
  | next c l r s ht => exact inv_next h ht

end

end Keep

theorem inv_run (ops : List EngineOp) : Inv (exec step {} ops) :=
  exec_invariant step (fun _ op h => inv_moves h (moves h op)) inv_init ops

/-! ## A removed channel -/

/-- From `x` to `x'` a connection stays, its emitted events only grow, and a due channel `id` stays
due until its unsubscribe is among them. -/
def Carries (x x' : EngineSystem) (c : ConnRef) (l : PeerLink) (id : ChannelID) : Prop :=
  ∃ l' new, x'.engine.links c = some l' ∧ l'.handshakeDone = true ∧
    l'.announced = l.announced ∧ x'.emitted c = x.emitted c ++ new ∧
    (l'.ctrlState.closed = false → l.ctrlState.closed = false ∧
      (CtrlOutState.Due (l.ctrlState.channels.get id) →
        .unsubscribe id ∈ new ∨ CtrlOutState.Due (l'.ctrlState.channels.get id)))

theorem Moves.carries {x' : EngineSystem} (hinv : Inv x) (hm : Moves x x')
    (hl : x.engine.links c = some l) (hdone : l.handshakeDone = true)
    (id : ChannelID) : Carries x x' c l id := by
  -- a connection the step does not touch
  have hkeep : x'.engine.links c = x.engine.links c → x'.emitted c = x.emitted c →
      Carries x x' c l id :=
    fun hlink hlog => ⟨l, [], hlink.trans hl, hdone, rfl, by rw [hlog, List.append_nil],
      fun hopen => ⟨hopen, .inr⟩⟩
  cases hm with
  | idle hagree hlog => exact hkeep (hagree.links c) (by rw [hlog])
  | announce id' present ha =>
    by_cases hc : ∃ pid, x.engine.peers.get pid = some c
    · obtain ⟨pid, hpid⟩ := hc
      refine ⟨l.announce id' present, [], by rw [ha.current pid c hpid, hl]; rfl, hdone, rfl,
        by rw [ha.log, List.append_nil], fun hopen => ?_⟩
      have hopen : l.ctrlState.closed = false := by
        simpa [PeerLink.announce] using hopen
      refine ⟨hopen, fun hdue => .inr ?_⟩
      change CtrlOutState.Due ((l.ctrlState.announce id' present).channels.get id)
      rw [CtrlOutState.channels_announce hopen, get_set]
      split
      · rename_i hid
        subst hid
        exact hdue.setWant present
      · exact hdue
    · exact hkeep (ha.rest c (not_exists.mp hc)) (by rw [ha.log])
  | bind peer id' announced hb =>
    have hnew : c ≠ x.engine.nextConn := by
      rintro rfl
      rw [hinv.fresh _ le_rfl] at hl
      cases hl
    exact hkeep (by rw [hb.links, update_of_ne hnew]) (by rw [hb.log])
  | handshake o d m hg =>
    have hdc : c ≠ d := by
      rintro rfl
      cases hl.symm.trans hg.link
      cases hdone.symm.trans hg.done
    exact hkeep (by rw [hg.links, update_of_ne hdc]) (by rw [hg.log])
  | stop d m hs =>
    by_cases hdc : c = d
    · subst hdc
      cases hl.symm.trans hs.link
      exact ⟨l.stop, [], by rw [hs.links, update_self], hdone, rfl, by rw [hs.log, List.append_nil],
        Bool.noConfusion⟩
    · exact hkeep (by rw [hs.links, update_of_ne hdc]) (by rw [hs.log])
  | touch d m m' ht =>
    by_cases hdc : c = d
    · subst hdc
      cases hl.symm.trans ht.link
      refine ⟨m', [], by rw [ht.links, update_self], ht.done.trans hdone, ht.announced,
        by rw [ht.log, List.append_nil], fun hopen => ⟨ht.closed ▸ hopen, fun hdue => .inr ?_⟩⟩
      rw [ht.same]
      exact hdue
    · exact hkeep (by rw [ht.links, update_of_ne hdc]) (by rw [ht.log])
  | next d m r t ht =>
    by_cases hdc : c = d
    · subst hdc
      cases hl.symm.trans ht.link
      refine ⟨{ l with ctrlState := t }, r.toList, by rw [ht.links, update_self],
        hdone, rfl, by rw [ht.log, update_self], fun _ => ⟨ht.isOpen, fun hdue => ?_⟩⟩
      rcases ht.spec.due hdue with rfl | ⟨_, hdue'⟩
      · exact .inl (by simp)
      · exact .inr hdue'
    · exact hkeep (by rw [ht.links, update_of_ne hdc]) (by rw [ht.log, update_of_ne hdc])

theorem carries_run (hinv : Inv x)
    (hl : x.engine.links c = some l) (hdone : l.handshakeDone = true) (id : ChannelID)
    (ops : List EngineOp) : Inv (exec step x ops) ∧ Carries x (exec step x ops) c l id := by
  induction ops generalizing x l with
  | nil =>
    exact ⟨hinv, l, [], hl, hdone, rfl, by simp, fun hopen => ⟨hopen, .inr⟩⟩
  | cons op ops ih =>
    obtain ⟨l₁, new₁, hl₁, hdone₁, hann₁, hlog₁, hdue₁⟩ :=
      (moves hinv op).carries hinv hl hdone id
    obtain ⟨hinv₂, l₂, new₂, hl₂, hdone₂, hann₂, hlog₂, hdue₂⟩ :=
      ih (inv_moves hinv (moves hinv op)) hl₁ hdone₁
    refine ⟨hinv₂, l₂, new₁ ++ new₂, hl₂, hdone₂, hann₂.trans hann₁, ?_, fun hopen => ?_⟩
    · rw [exec_cons, hlog₂, hlog₁, List.append_assoc]
    obtain ⟨hopen₁, hstep₂⟩ := hdue₂ hopen
    obtain ⟨hopen₀, hstep₁⟩ := hdue₁ hopen₁
    refine ⟨hopen₀, fun hdue => ?_⟩
    rcases hstep₁ hdue with hmem | hdue
    · exact .inl (List.mem_append_left _ hmem)
    · exact (hstep₂ hdue).imp_left (List.mem_append_right _)

/-- After `removeChannel` the channel is not registered. -/
theorem removeChannel_channels (x : EngineSystem) (o : Order PeerID) (id : ChannelID) :
    (x.step (.removeChannel o id)).engine.channels.get id = none := by
  change (x.engine.removeChannel o id).channels.get id = none
  unfold removeChannel
  split
  · rename_i h
    simpa using h
  · simp [observe]

/-- A channel the remote has and the engine does not is due. -/
theorem due_of_unregistered (hinv : Inv x) (hl : x.engine.links c = some l) (hdone : l.handshakeDone = true)
    (hopen : l.ctrlState.closed = false) {id : ChannelID}
    (hview : id ∈ viewOf l.announced (x.emitted c)) (hgone : x.engine.channels.get id = none) :
    CtrlOutState.Due (l.ctrlState.channels.get id) := by
  have htracked := (hinv.conns c l hl).tracked hdone hopen id
  cases hentry : l.ctrlState.channels.get id with
  | none =>
    rw [hentry] at htracked
    exact absurd hview htracked.2
  | some out =>
    rw [hentry, hgone] at htracked
    exact ⟨out, rfl, htracked.2.1.mpr hview, .inl (by simpa using htracked.1)⟩

end EngineSystem

/-! ## The result -/

/-- Subscribes and unsubscribes of one channel. -/
def PeerCtrlEvent.about (id : ChannelID) : PeerCtrlEvent → Bool
  | .subscribe k | .unsubscribe k => k = id
  | _ => false

/-- The next thing a remote that has the channel hears about it is an unsubscribe. -/
theorem find_about_of_fits {id : ChannelID} {view : Finset ChannelID} {events : List PeerCtrlEvent}
    (hfits : Along see Fits view events) (hview : id ∈ view) :
    events.find? (·.about id) = none ∨ events.find? (·.about id) = some (.unsubscribe id) := by
  induction events generalizing view with
  | nil => exact .inl rfl
  | cons ev events ih =>
    obtain ⟨hfit, hfits⟩ := hfits
    have hother : ∀ v, see view ev = v → id ∈ v → ev.about id = false →
        (ev :: events).find? (·.about id) = none ∨ (ev :: events).find? (·.about id) = some (.unsubscribe id) := by
      intro v hv hmem hnot
      rw [List.find?_cons_of_neg (by simp [hnot])]
      exact ih hfits (hv ▸ hmem)
    cases ev with
    | subscribe k =>
      have hk : k ≠ id := by
        rintro rfl
        exact hfit hview
      exact hother _ rfl (Finset.mem_insert_of_mem hview) (by simp [about, hk])
    | unsubscribe k =>
      by_cases hk : k = id
      · subst hk
        exact .inr (List.find?_cons_of_pos (by simp [about]))
      · exact hother _ rfl (Finset.mem_erase.mpr ⟨Ne.symm hk, hview⟩) (by simp [about, hk])
    | openSession | sendRouting | closeSession | closeStream => exact hother _ rfl hview rfl

namespace EngineSystem

/-- **The remote's view follows the registered channels.** In every interleaving, for every
connection:

* every subscribe it emits names a channel absent from the view, every unsubscribe one present;
* after the handshake, if `next` has nothing left, or what it hands out is a session open, a stream
  close or a routing update, the view is exactly the set of registered channels;
* a channel in the view that is removed, and re-added or not: the next event about it is an
  unsubscribe, and that event is emitted before `next` has nothing left. -/
theorem remote_view_follows_channels (ops : List EngineOp) (c : ConnRef) (l : PeerLink)
    (hl : (exec step {} ops).engine.links c = some l) :
    let x := exec step {} ops
    Along see Fits l.announced.toFinset (x.emitted c) ∧
    (l.handshakeDone = true → l.ctrlState.closed = false → ∀ o₁ o₂ : Order ChannelID,
      (l.ctrlState.next o₁ o₂).1.all ofSession = true →
        viewOf l.announced (x.emitted c) = x.engine.channels.keys.toFinset) ∧
    (l.handshakeDone = true → ∀ id, id ∈ viewOf l.announced (x.emitted c) →
      ∀ (o : Order PeerID) (rest : List EngineOp),
        ∃ l' new, (exec step x (.removeChannel o id :: rest)).engine.links c = some l' ∧
          (exec step x (.removeChannel o id :: rest)).emitted c = x.emitted c ++ new ∧
          (new.find? (·.about id) = none ∨ new.find? (·.about id) = some (.unsubscribe id)) ∧
          (l'.ctrlState.closed = false → ∀ o₁ o₂ : Order ChannelID, (l'.ctrlState.next o₁ o₂).1 = none →
              new.find? (·.about id) = some (.unsubscribe id))) := by
  intro x
  have hinv : Inv x := inv_run ops
  have hconn := hinv.conns c l hl
  refine ⟨hconn.fits, fun hdone hopen o₁ o₂ hall => ?_, fun hdone id hview o rest => ?_⟩
  · obtain ⟨_, _, hiff⟩ :=
      (CtrlOutState.next_spec hopen o₁ o₂).tracks (hconn.tracked hdone hopen)
    ext k
    rw [hiff hall k, List.mem_toFinset, mem_keys, isSome_iff_exists]
  -- the state right after the removal, then the rest of the run
  obtain ⟨l₁, new₁, hl₁, hdone₁, hann₁, hlog₁, _⟩ :=
    (moves hinv (.removeChannel o id)).carries hinv hl hdone id
  have hinv₁ : Inv (x.step (.removeChannel o id)) := inv_moves hinv (moves hinv _)
  obtain ⟨hinv₂, l₂, new₂, hl₂, hdone₂, hann₂, hlog₂, hdue₂⟩ :=
    carries_run hinv₁ hl₁ hdone₁ id rest
  have hlog : (exec step x (.removeChannel o id :: rest)).emitted c =
      x.emitted c ++ (new₁ ++ new₂) := by
    rw [exec_cons, hlog₂, hlog₁, List.append_assoc]
  have hfirst : (new₁ ++ new₂).find? (·.about id) = none ∨
      (new₁ ++ new₂).find? (·.about id) = some (.unsubscribe id) := by
    have hfits := (hinv₂.conns c l₂ hl₂).fits
    rw [← exec_cons step x, hlog, hann₂, hann₁, Along.append_iff] at hfits
    exact find_about_of_fits hfits.2 hview
  refine ⟨l₂, new₁ ++ new₂, hl₂, hlog, hfirst, fun hopen o₁ o₂ hnone => ?_⟩
  obtain ⟨hopen₁, hcarry⟩ := hdue₂ hopen
  have hview₁ : id ∈ viewOf l₁.announced ((x.step (.removeChannel o id)).emitted c) := by
    rw [hann₁]
    exact hview
  have hdue := due_of_unregistered hinv₁ hl₁ hdone₁ hopen₁ hview₁ (removeChannel_channels x o id)
  rcases hcarry hdue with hmem | hdue
  · refine hfirst.resolve_left fun hnot => ?_
    have := List.find?_eq_none.mp hnot _ (List.mem_append_right _ hmem)
    simp [about] at this
  rcases (CtrlOutState.next_spec hopen o₁ o₂).due hdue with heq | ⟨hsome, _⟩
  · rw [hnone] at heq
    cases heq
  · rw [hnone] at hsome
    cases hsome

/-- A peer binds while one channel is registered, which is removed and re-added before the control
loop gets to run. -/
theorem remote_view_follows_channels_churn :
    let ops : List EngineOp := [.addChannel (.stored _) "a" 0, .peerUp (.stored _) 7 "p" true,
      .addChannel (.stored _) "b" 1, .handshake (.stored _) 0 ["a"], .removeChannel (.stored _) "a",
      .addChannel (.stored _) "a" 2, .next 0 (.stored _) (.stored _),
      .next 0 (.stored _) (.stored _), .next 0 (.stored _) (.stored _)]
    let x := exec step {} ops
    x.emitted 0 = [.unsubscribe "a", .subscribe "a", .subscribe "b"] ∧
    viewOf ["a"] (x.emitted 0) = x.engine.channels.keys.toFinset := by
  intro ops x
  refine ⟨by decide, ?_⟩
  obtain ⟨l, hl⟩ : ∃ l, x.engine.links 0 = some l := isSome_iff_exists.mp (by decide)
  have hdone : x.engine.links 0 |>.all (·.handshakeDone) := by decide
  have hopen : x.engine.links 0 |>.all (!·.ctrlState.closed) := by decide
  have hann : x.engine.links 0 |>.all (·.announced = ["a"]) := by decide
  have hnone : x.engine.links 0 |>.all (fun l => (l.ctrlState.next (.stored _) (.stored _)).1 = none) := by decide
  rw [hl] at hdone hopen hann hnone
  simp only [all_some, Bool.not_eq_true', decide_eq_true_eq] at hdone hopen hann hnone
  have hview := (remote_view_follows_channels ops 0 l hl).2.1 hdone hopen (.stored _) (.stored _) (by rw [hnone]; rfl)
  rwa [hann] at hview

/-- **One connection for a peer.**  A connection that has shaken hands and is not closed is the engine's for its peer,
so no peer has two of them. -/
theorem one_connection_per_peer (ops : List EngineOp) :
    let e := (exec step {} ops).engine
    let Live := fun c l => e.links c = some l ∧ l.handshakeDone = true ∧ l.ctrlState.closed = false
    (∀ c l, Live c l → e.peers.get l.id = some c) ∧ ∀ c c' l l', Live c l → Live c' l' → l.id = l'.id → c = c' := by
  intro e Live
  have hcurrent : ∀ c l, Live c l → e.peers.get l.id = some c :=
    fun c l ⟨hl, hdone, hopen⟩ => ((inv_run ops).conns c l hl).current hdone hopen
  refine ⟨hcurrent, fun c c' l l' h h' hid => some.inj ?_⟩
  rw [← hcurrent c l h, hid, hcurrent c' l' h']

end EngineSystem

end EthP2P.Broadcast
