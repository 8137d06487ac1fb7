/-
# EthP2P.Broadcast.Attachment — who is attached to the sessions of a channel

A peer is attached to a session under its ID and with one of its connections.  The channel's members are
kept in another map, changed by other events.  `AttachInv` ties them: whoever is attached is the member with
that ID, as long as a peer is unbound before another connection of it is bound.
-/
import EthP2P.Broadcast.Inbox
import EthP2P.Broadcast.Lifecycle
import EthP2P.Broadcast.Routing

namespace EthP2P.Broadcast

open Lib Wire Scope Map

variable {S C R P : Type}

namespace Channel

/-- The peer `p` is attached to the session of `m` with the connection `c`. -/
def AttachedAs (x : Channel S) (m : MessageID) (p : PeerID) (c : ConnRef) : Prop :=
  ∃ sess sp, x.sessions.get m = some sess ∧ sess.peers.get p = some sp ∧ sp.conn = c

/-! ## Attachment through the moves -/

section Moves

variable {sch : Scheme S C R P} {luck : Nat → Chance} {evt : Event S} {x y : Channel S}
  {m k : MessageID} {p : PeerID} {c : ConnRef}

theorem AttachedAs.of_same (h : y.AttachedAs m p c) (hsessions : y.sessions = x.sessions) : x.AttachedAs m p c := by
  obtain ⟨sess, sp, hget, hp, hc⟩ := h
  exact ⟨sess, sp, hsessions ▸ hget, hp, hc⟩

theorem AttachedAs.of_put {z : Scope S} (h : (x.put k z).AttachedAs m p c) :
    (m = k ∧ ∃ sp, z.sess.peers.get p = some sp ∧ sp.conn = c) ∨ x.AttachedAs m p c := by
  obtain ⟨sess, sp, hget, hp, hc⟩ := h
  rw [put_sessions] at hget
  split at hget
  · rename_i hm
    cases hget
    exact .inl ⟨hm, sp, hp, hc⟩
  · exact .inr ⟨sess, sp, hget, hp, hc⟩

/-- A session whose peers stay as they are. -/
theorem AttachedAs.of_put_same {sess : Session S} {z : Scope S} (h : (x.put k z).AttachedAs m p c)
    (hget : x.sessions.get k = some sess) (hpeers : z.sess.peers = sess.peers) : x.AttachedAs m p c := by
  rcases h.of_put with ⟨rfl, sp, hp, hc⟩ | h
  · exact ⟨sess, sp, hget, hpeers ▸ hp, hc⟩
  · exact h

theorem AttachedAs.of_disposeSession {reason : Reason}
    (h : (x.disposeSession luck k reason).AttachedAs m p c) : m ≠ k ∧ x.AttachedAs m p c := by
  obtain ⟨sess, sp, hget, hp, hc⟩ := h
  obtain ⟨hm, hget⟩ := get_of_disposeSession hget
  exact ⟨hm, sess, sp, hget, hp, hc⟩

theorem AttachedAs.of_disposeIfIdle (h : (x.disposeIfIdle luck k).AttachedAs m p c) : x.AttachedAs m p c := by
  obtain ⟨sess, sp, hget, hp, hc⟩ := h
  exact ⟨sess, sp, get_of_disposeIfIdle hget, hp, hc⟩

/-- Whoever is attached after a peer left was attached before, and is not that peer. -/
theorem AttachedAs.of_leave {q : PeerID} (h : (x.leave sch luck k q).AttachedAs m p c) :
    x.AttachedAs m p c ∧ (m = k → p ≠ q) := by
  obtain ⟨sess', sp, hget, hp, hc⟩ := h
  rcases get_of_onSession (get_of_disposeIfIdle hget) with ⟨rfl, sess, hold, rfl⟩ | ⟨hk, hget⟩
  · have hpeers : (handlePeerDropped sch q ⟨sess, x.world⟩).sess.peers = sess.peers.del q :=
      congrArg Session.peers (handlePeerDropped_spec sch q ⟨sess, x.world⟩).1
    rw [hpeers, get_del] at hp
    split at hp
    · cases hp
    · rename_i hpq
      exact ⟨⟨sess, sp, hold, hp, hc⟩, fun _ => hpq⟩
  · exact ⟨⟨sess', sp, hget, hp, hc⟩, fun h => absurd h hk⟩

/-- **Who is attached after a move** was attached before, or is a member that just joined. -/
theorem AttachedAs.of_micro (hmicro : Micro sch luck evt x y) (h : y.AttachedAs m p c) :
    x.AttachedAs m p c ∨ p = (x.world.conns c).id ∧ ∃ q, x.members.get q = some c := by
  cases hmicro with
  | aside ha => exact .inl (h.of_same ha.sessions)
  | member _ | unmember _ => exact .inl (h.of_same rfl)
  | act hget hact => exact .inl (h.of_put_same hget hact.peers)
  | start hget _ _ =>
    obtain ⟨w, _, hstart⟩ := startDecode_spec sch luck ⟨_, x.world⟩
    refine .inl (h.of_put_same hget ?_)
    rw [hstart]
  | @join k sess d hget _ hmember _ =>
    rcases h.of_put with ⟨rfl, sp, hp, hc⟩ | h
    · rw [join_sess, get_set] at hp
      split at hp
      · rename_i hpid
        cases hp
        subst hc
        exact .inr ⟨hpid, hmember⟩
      · exact .inl ⟨sess, sp, hget, hp, hc⟩
    · exact .inl h
  | leave _ _ => exact .inl h.of_leave.1
  | @complete k sess q hget _ =>
    have hdone := h.of_disposeIfIdle
    rcases handlePeerCompleted_spec sch q ⟨sess, x.world⟩ with hsame | ⟨sp₀, hq, hsess, _⟩
    · exact .inl (hdone.of_put_same hget (by rw [hsame]))
    rcases hdone.of_put with ⟨rfl, sp, hp, hc⟩ | h
    · have hpeers := congrArg Session.peers hsess
      have hp : (sess.peers.set q { sp₀ with completed := true }).get p = some sp := by
        rw [← hp]
        exact congrArg (get · p) hpeers.symm
      rw [get_set] at hp
      split at hp
      · rename_i hpq
        cases hp
        exact .inl ⟨sess, sp₀, hget, hpq ▸ hq, hc⟩
      · exact .inl ⟨sess, sp, hget, hp, hc⟩
    · exact .inl h
  | dispose _ _ => exact .inl h.of_disposeSession.2
  | @begin k preamble origin strategy hget _ =>
    obtain ⟨sess, sp, hget', hp, hc⟩ := h
    rw [begin_sessions] at hget'
    split at hget'
    · cases hget'
      cases hp
    · exact .inl ⟨sess, sp, hget', hp, hc⟩

/-! ## The members -/

theorem members_disposeIfIdle (x : Channel S) : (x.disposeIfIdle luck k).members = x.members := by
  refine disposeIfIdle_keeps (P := fun y : Channel S => y.members = x.members) k x rfl ?_
  cases hget : x.sessions.get k with
  | none => rw [disposeSession_of_none hget]
  | some sess => exact (disposeSession_spec hget .allPeersDone luck).2.1

theorem members_onSession (f : Scope S → Scope S) (x : Channel S) : (x.onSession k f).members = x.members := by
  unfold onSession
  split <;> rfl

/-- Only a peer change moves the members. -/
theorem members_micro (h : Micro sch luck evt x y) :
    y.members = x.members ∨
    (∃ p c, evt = .peerChange ⟨p, some c⟩ ∧ y.members = x.members.set p c ∧ y.sessions = x.sessions ∧
      y.world = x.world) ∨
    ∃ p, evt = .peerChange ⟨p, none⟩ := by
  cases h with
  | aside ha => exact .inl ha.members
  | member he => exact .inr (.inl ⟨_, _, he, rfl, rfl, rfl⟩)
  | unmember he => exact .inr (.inr ⟨_, he⟩)
  | act _ _ | start _ _ _ | join _ _ _ _ => exact .inl rfl
  | leave _ _ => exact .inl ((members_disposeIfIdle _).trans (members_onSession _ x))
  | complete _ _ => exact .inl (members_disposeIfIdle _)
  | dispose hget _ => exact .inl (disposeSession_spec hget _ luck).2.1
  | begin _ _ => exact .inl rfl

end Moves

/-! ## The invariant -/

/-- Whoever is attached is the member with that ID, and a member's connection has that ID. -/
structure AttachInv (x : Channel S) : Prop where
  attached : ∀ m p c, x.AttachedAs m p c → x.members.get p = some c
  named : ∀ p c, x.members.get p = some c → (x.world.conns c).id = p

section Keep

variable {sch : Scheme S C R P} {luck : Nat → Chance} {evt : Event S} {x y : Channel S}

/-- The invariant only reads the attached peers, the members and the IDs. -/
theorem AttachInv.congr (hx : AttachInv x) (hattached : ∀ m p c, y.AttachedAs m p c → x.AttachedAs m p c)
    (hmembers : y.members = x.members) (hids : ∀ d, (y.world.conns d).id = (x.world.conns d).id) : AttachInv y := by
  refine ⟨fun m p c h => ?_, fun p c h => ?_⟩
  · rw [hmembers]
    exact hx.attached m p c (hattached m p c h)
  rw [hmembers] at h
  rw [hids]
  exact hx.named p c h

/-- A peer whose connection is bound has no other connection here. -/
def Binds (x : Channel S) (evt : Event S) : Prop :=
  ∀ p c, evt = .peerChange ⟨p, some c⟩ → (x.world.conns c).id = p ∧ (x.members.get p = none ∨ x.members.get p = some c)

theorem attachInv_micro (hx : AttachInv x) (hbinds : x.Binds evt) (hevt : ∀ p, evt ≠ .peerChange ⟨p, none⟩)
    (h : Micro sch luck evt x y) : AttachInv y ∧ y.Binds evt := by
  have hids := ids_of_shell (shell_micro h)
  rcases members_micro h with hmembers | ⟨p, c, rfl, hmembers, hsessions, hworld⟩ | ⟨p, rfl⟩
  · refine ⟨⟨fun m p c ha => ?_, fun p c hp => ?_⟩, fun p c he => ?_⟩
    · rw [hmembers]
      rcases ha.of_micro h with ha | ⟨rfl, q, hq⟩
      · exact hx.attached m p c ha
      · rw [hx.named q c hq]
        exact hq
    · rw [hmembers] at hp
      rw [hids]
      exact hx.named p c hp
    · rw [hids, hmembers]
      exact hbinds p c he
  · obtain ⟨hid, hfree⟩ := hbinds p c rfl
    have hset : ∀ q d, x.members.get q = some d → y.members.get q = some d := by
      intro q d hq
      rw [hmembers, get_set]
      split
      · rename_i hqp
        rw [← hqp, hq] at hfree
        exact (hfree.resolve_left (by simp)).symm
      · exact hq
    refine ⟨⟨fun m q d ha => hset q d (hx.attached m q d (ha.of_same hsessions)), fun q d hq => ?_⟩, fun q d he => ?_⟩
    · rw [hworld]
      rw [hmembers, get_set] at hq
      split at hq
      · rename_i hqp
        cases hq
        rw [hqp, hid]
      · exact hx.named q d hq
    · cases he
      rw [hworld]
      exact ⟨hid, .inr (by rw [hmembers, get_set, if_pos rfl])⟩
  · exact absurd rfl (hevt p)

theorem attachInv_micros (hx : AttachInv x) (hbinds : x.Binds evt)
    (hevt : ∀ p, evt ≠ .peerChange ⟨p, none⟩) (h : Micros sch luck evt x y) : AttachInv y := by
  suffices hboth : AttachInv y ∧ y.Binds evt from hboth.1
  induction h with
  | refl => exact ⟨hx, hbinds⟩
  | tail _ hmicro ih => exact attachInv_micro ih.1 ih.2 hevt hmicro

theorem members_unbound (p : PeerID) (x : Channel S) :
    (x.handlePeerUnbound sch luck p).members = x.members.del p := by
  let x₁ : Channel S := { x with members := x.members.del p }
  have haside := (aside_dropParked luck p x₁).trans (aside_turn _)
  exact (foldl_same (f := fun (x : Channel S) m => x.leave sch luck m p) (fun x : Channel S => x.members)
    (fun x k => (members_disposeIfIdle _).trans (members_onSession _ x)) _ _).trans haside.members

/-- What a peer that is unbound leaves behind: nobody new is attached, and it is attached to nothing. -/
theorem attachInv_unbound (hx : AttachInv x) (p : PeerID) : AttachInv (x.handlePeerUnbound sch luck p) := by
  let x₁ : Channel S := { x with members := x.members.del p }
  let x₂ := (x₁.dropParked luck p).onWorld World.turn
  have haside : Aside x₁ x₂ := (aside_dropParked luck p x₁).trans (aside_turn _)
  let round : Channel S → MessageID → Channel S := fun x m => x.leave sch luck m p
  let ms := (x₁.dropParked luck p).sessions.range (luck (x₁.dropParked luck p).world.tick).messages
  have hresult : x.handlePeerUnbound sch luck p = ms.foldl round x₂ := rfl
  have hback : ∀ m q c, (ms.foldl round x₂).AttachedAs m q c → x₂.AttachedAs m q c := fun m q c =>
    foldl_back (p := fun x : Channel S => x.AttachedAs m q c) fun x k h => h.of_leave.1
  have hgone : ∀ m c, ¬ (ms.foldl round x₂).AttachedAs m p c := by
    intro m c
    refine foldl_clears (p := fun m (x : Channel S) => x.AttachedAs m p c) (fun x k h => h.of_leave.2 rfl rfl)
      (fun x k m h => h.of_leave.1) ?_ m
    rintro m ⟨sess, _, hget, _⟩
    exact mem_range.mpr (mem_keys_of_get hget)
  have hmembers : (ms.foldl round x₂).members = x.members.del p := members_unbound p x
  have hids : ∀ d, ((ms.foldl round x₂).world.conns d).id = (x.world.conns d).id := by
    intro d
    have hconns := congrArg World.conns haside.world
    refine Eq.trans ?_ (congrArg (fun f : ConnRef → Conn => (f d).id) hconns)
    refine foldl_same (f := round) (fun x : Channel S => (x.world.conns d).id) (fun x k => ?_) ms x₂
    cases hget : x.sessions.get k with
    | none => exact congrArg (fun x : Channel S => (x.world.conns d).id) (leave_of_none hget)
    | some sess =>
      have hmicro : Micro sch luck (.peerChange ⟨p, none⟩) x (x.leave sch luck k p) :=
        .leave hget (.inl rfl)
      exact ids_of_shell (shell_micro hmicro) d
  rw [hresult]
  refine ⟨fun m q c h => ?_, fun q c h => ?_⟩
  · have hq : q ≠ p := by
      rintro rfl
      exact hgone m c h
    rw [hmembers, get_del, if_neg hq]
    exact hx.attached m q c ((hback m q c h).of_same haside.sessions)
  rw [hmembers, get_del] at h
  split at h
  · cases h
  · rw [hids]
    exact hx.named q c h

theorem members_micros (hevt : ∀ e, evt ≠ .peerChange e) (h : Micros sch luck evt x y) : y.members = x.members := by
  induction h with
  | refl => rfl
  | tail _ hmicro ih =>
    rcases members_micro hmicro with hsame | ⟨p, c, he, _⟩ | ⟨p, he⟩
    · exact hsame.trans ih
    · exact absurd he (hevt _)
    · exact absurd he (hevt _)

theorem members_bound (p : PeerID) (c : ConnRef) (x : Channel S) (q : PeerID) :
    (x.handlePeerBound sch luck p c).members.get q = if q = p then some c else x.members.get q := by
  unfold handlePeerBound
  split
  · rename_i hsame
    split
    · rename_i hq
      rw [hq, hsame]
    · rfl
  have hloop : (Channel.forSessions luck (fun m x => x.onSession m (handlePeerAttached sch luck c))
      { x with members := x.members.set p c }).members = x.members.set p c :=
    foldl_same (f := fun (x : Channel S) m => x.onSession m (handlePeerAttached sch luck c))
      (fun x : Channel S => x.members) (fun x m => members_onSession _ x) _ _
  rw [hloop, get_set]

/-- The part of a successful decode that touches sessions. -/
theorem takeResult_frame (luck : Nat → Chance) (m : MessageID) (payload : Option Bytes) (x : Channel S) :
    (∀ k p c, (x.takeResult luck m payload).AttachedAs k p c → x.AttachedAs k p c) ∧
    (x.takeResult luck m payload).members = x.members := by
  unfold takeResult
  split
  · exact ⟨fun _ _ _ h => h, rfl⟩
  rename_i sess hget
  split
  · split
    · exact ⟨fun _ _ _ h => h.of_same rfl, rfl⟩
    rename_i bytes
    obtain ⟨hsessions, hmembers⟩ : (x.deliverMessage m bytes).sessions = x.sessions ∧
        (x.deliverMessage m bytes).members = x.members := by
      unfold deliverMessage
      split
      · exact ⟨rfl, rfl⟩
      dsimp only
      split <;> exact ⟨rfl, rfl⟩
    have hget' : (x.deliverMessage m bytes).sessions.get m = some sess := hsessions ▸ hget
    refine ⟨fun k p c h => ?_, (members_disposeIfIdle _).trans hmembers⟩
    have hput := AttachedAs.of_disposeIfIdle h
    have hdeliver : (x.deliverMessage m bytes).AttachedAs k p c := hput.of_put_same hget' rfl
    exact hdeliver.of_same hsessions
  · exact ⟨fun _ _ _ h => h, rfl⟩

/-- The results of goroutines touch neither the members nor who is attached. -/
theorem result_frame (sch : Scheme S C R P) (luck : Nat → Chance) (hresult : IsResult evt = true)
    (x : Channel S) :
    (∀ m p c, (x.handle sch luck evt).AttachedAs m p c → x.AttachedAs m p c) ∧
    (x.handle sch luck evt).members = x.members := by
  cases evt with
  | chunkSent m peer handle err size sender =>
    show (∀ k p c, (x.onSession m _).AttachedAs k p c → _) ∧ (x.onSession m _).members = _
    unfold onSession
    split
    · exact ⟨fun _ _ _ h => h, rfl⟩
    rename_i sess hget
    have hstays := quiet_handleSendComplete sch luck peer handle err size sender.2 ⟨sess, x.world⟩
    exact ⟨fun _ _ _ h => h.of_put_same hget hstays.peers, rfl⟩
  | decoded m payload sender =>
    obtain ⟨hattached, hmembers⟩ := takeResult_frame luck m payload
      (x.onWorld fun w => w.updLife sender fun l => { l with handled := true })
    exact ⟨fun k p c h => (hattached k p c h).of_same rfl, hmembers⟩
  | _ => cases hresult

/-- **Handling an event keeps the invariant.** -/
theorem attachInv_handle (hx : AttachInv x) (hbinds : x.Binds evt) : AttachInv (x.handle sch luck evt) := by
  cases hresult : IsResult evt with
  | false =>
    have hmicros : Micros sch luck evt x (x.handle sch luck evt) := micros_handle hresult x
    by_cases hevt : ∀ p, evt ≠ .peerChange ⟨p, none⟩
    · exact attachInv_micros hx hbinds hevt hmicros
    push Not at hevt
    obtain ⟨p, rfl⟩ := hevt
    exact attachInv_unbound hx p
  | true =>
    obtain ⟨hattached, hmembers⟩ := result_frame sch luck hresult x
    exact hx.congr hattached hmembers (ids_handle sch luck evt x)

end Keep

/-- The peer changes an event brings. -/
def changes : Event S → List ChannelPeerChange
  | .peerChange e => [e]
  | _ => []

/-- **The members after an event** are what its change makes of them. -/
theorem members_handle (sch : Scheme S C R P) (luck : Nat → Chance) (evt : Event S) (x : Channel S) :
    (x.handle sch luck evt).members.get = exec applyChange x.members.get (changes evt) := by
  cases hchange : changes evt with
  | cons e es =>
    cases evt with
    | peerChange e' =>
      cases hchange
      obtain ⟨p, ref⟩ := e
      cases ref with
      | some c =>
        funext q
        show (x.handlePeerBound sch luck p c).members.get q = Function.update x.members.get p (some c) q
        rw [members_bound, Function.update_apply]
      | none =>
        funext q
        show (x.handlePeerUnbound sch luck p).members.get q = Function.update x.members.get p none q
        rw [members_unbound, get_del, Function.update_apply]
    | _ => cases hchange
  | nil =>
    have hevt : ∀ e, evt ≠ .peerChange e := by
      rintro e rfl
      cases hchange
    show (x.handle sch luck evt).members.get = x.members.get
    cases hresult : IsResult evt with
    | false => rw [members_micros hevt (micros_handle hresult x)]
    | true => exact congrArg get (result_frame sch luck hresult x).2

/-! ## The other goroutines -/

/-- What the actor does last keeps the peers of its sessions. -/
theorem closeAll_frame (luck : Nat → Chance) (x : Channel S) :
    (∀ m p c, (x.closeAll luck).AttachedAs m p c → x.AttachedAs m p c) ∧
    (x.closeAll luck).members = x.members := by
  have hclose : ∀ (x : Channel S) (m : MessageID),
      (∀ k p c, (x.onSession m (Close luck)).AttachedAs k p c → x.AttachedAs k p c) ∧
      (x.onSession m (Close luck)).members = x.members := by
    intro x m
    refine ⟨fun k p c h => ?_, members_onSession _ x⟩
    unfold onSession at h
    split at h
    · exact h
    · rename_i sess hget
      exact h.of_put_same hget rfl
  unfold closeAll
  split
  · have hsessions := foldl_rel (f := fun (x : Channel S) m => x.onSession m (Close luck))
      (r := fun x y : Channel S => (∀ m p c, y.AttachedAs m p c → x.AttachedAs m p c) ∧ y.members = x.members)
      (fun _ => ⟨fun _ _ _ h => h, rfl⟩)
      (fun h h' => ⟨fun m p c ha => h.1 m p c (h'.1 m p c ha), h'.2.trans h.2⟩) hclose
      (x.sessions.range (luck x.world.tick).messages) (x.onWorld World.turn)
    have hparked := aside_forParked luck (fun _ group x => aside_cancelStreams group.streams .unspecified x)
      (x.forSessions luck fun m x => x.onSession m (Close luck))
    refine ⟨fun m p c h => (hsessions.1 m p c (h.of_same ?_)).of_same rfl, hparked.members.trans hsessions.2⟩
    exact hparked.sessions
  · exact ⟨fun _ _ _ h => h, rfl⟩

/-- No step but the handling of an event attaches a peer or moves the members. -/
theorem step_frame (sch : Scheme S C R P) (luck : Nat → Chance) {op : Op S} (hnext : op ≠ .next)
    (x : Channel S) :
    (∀ m p c, (x.step sch luck op).AttachedAs m p c → x.AttachedAs m p c) ∧
    (x.step sch luck op).members = x.members ∧
    ∀ d, ((x.step sch luck op).world.conns d).id = (x.world.conns d).id := by
  by_cases hcl : op = .closeAll
  · subst hcl
    obtain ⟨hattached, hmembers⟩ := closeAll_frame luck x
    refine ⟨hattached, hmembers, fun d => ?_⟩
    rcases shell_closeAll luck x with hsame | ⟨_, _, hsame⟩
    · exact ids_of_shell hsame d
    · exact congrFun (congrArg (fun s => s.2.2.2.1) hsame) d
  have hout := outside_step sch luck op hnext hcl x
  refine ⟨fun m p c h => h.of_same hout.sessions, hout.members, fun d => ?_⟩
  by_cases hfinish : op = .finish
  · subst hfinish
    show (x.finish.world.conns d).id = _
    obtain heq | ⟨_, _, streams, _, heq⟩ := x.finish_cases
    · rw [heq]
    rw [heq]
    have hconns := congrArg World.conns (aside_cancelStreams streams .unspecified x).world
    exact congrArg (fun f : ConnRef → Conn => (f d).id) hconns
  · have hbeat := beat_step sch luck hnext hcl hfinish x
    generalize x.step sch luck op = y at hbeat ⊢
    cases hbeat with
    | post _ _ hids | conns hids _ => exact hids d
    | reader _ h => cases h <;> rfl
    | _ => rfl

end Channel

end EthP2P.Broadcast
