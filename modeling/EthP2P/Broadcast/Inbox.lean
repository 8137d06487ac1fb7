/-
# EthP2P.Broadcast.Inbox — what enters the inbox of a channel

The actor takes events out of its inbox and puts none in: handling an event leaves the inbox, the channel's
context, the IDs of the connections and the phase of the actor as they are (`shell_handle`).  Every other goroutine appends at most one
event (`posts_step`): the one it was asked to post, or one of its own kind (`Event.Internal`).
-/
import EthP2P.Broadcast.Moves

namespace EthP2P.Broadcast

open Lib Wire World Scope

variable {S C R P : Type}

/-- What no handler touches of the world. -/
def World.shell (w : World S) : ChannelID × Bool × (ConnRef → PeerID) × List (Event S) :=
  (w.channelID, w.ctxDone, fun c => (w.conns c).id, w.inbox)

theorem World.shell_of_core {w w' : World S} (h : w'.core = w.core) : w'.shell = w.shell := by
  have hshell := congrArg shell h
  exact hshell

theorem World.shell_request (c : ConnRef) (call : CtrlOutState.SessionCall) (w : World S) :
    (w.request c call).shell = w.shell := by
  have hids : ∀ d, ((w.request c call).conns d).id = (w.conns d).id :=
    Channel.ids_updConn (f := Conn.request call) (fun _ => rfl) c w
  exact Prod.ext rfl (Prod.ext rfl (Prod.ext (funext hids) rfl))

theorem Scope.Called.shell {w w' : World S} (h : Called w w') : w'.shell = w.shell := by
  have hcore := congrArg World.shell h.world
  exact hcore.trans (Prod.ext rfl (Prod.ext rfl (Prod.ext (funext h.id) rfl)))

theorem Stays.shell {x y : Scope S} (h : Stays x y) : y.world.shell = x.world.shell := by
  have hid := congrArg World.channelID h.world
  have hctx := congrArg World.ctxDone h.world
  have hinbox := congrArg World.inbox h.world
  exact Prod.ext hid (Prod.ext hctx (Prod.ext (funext h.id) hinbox))

namespace Channel

/-- What no handler touches. -/
def shell (x : Channel S) : ChannelPhase × ChannelID × Bool × (ConnRef → PeerID) × List (Event S) :=
  (x.phase, x.world.shell)

section Moves

variable {sch : Scheme S C R P} {luck : Nat → Chance} {evt : Event S} {x y : Channel S} {m : MessageID}

theorem ids_of_shell (h : y.shell = x.shell) (d : ConnRef) : (y.world.conns d).id = (x.world.conns d).id :=
  congrFun (congrArg (fun s => s.2.2.2.1) h) d

theorem shell_disposeSession (reason : Reason) (x : Channel S) :
    (x.disposeSession luck m reason).shell = x.shell := by
  cases hget : x.sessions.get m with
  | none => rw [disposeSession_of_none hget]
  | some sess =>
    obtain ⟨_, _, hphase, w, code, hcalled, hcore, _⟩ := disposeSession_spec hget reason luck
    exact Prod.ext hphase ((shell_of_core hcore).trans hcalled.shell)

theorem shell_disposeIfIdle (x : Channel S) : (x.disposeIfIdle luck m).shell = x.shell :=
  disposeIfIdle_keeps (P := (·.shell = x.shell)) _ x rfl (shell_disposeSession _ x)

/-- A move leaves the phase, the identities and the inbox. -/
theorem shell_micro (h : Micro sch luck evt x y) : y.shell = x.shell := by
  cases h with
  | aside ha => exact Prod.ext ha.phase (shell_of_core ha.world)
  | member _ | unmember _ => rfl
  | act _ hact => exact Prod.ext rfl hact.shell
  | start _ _ _ =>
    obtain ⟨w, hcalled, hstart⟩ := startDecode_spec sch luck ⟨_, x.world⟩
    rw [hstart]
    exact Prod.ext rfl hcalled.shell
  | @join k sess c _ _ _ _ =>
    obtain ⟨routing, obs, hworld⟩ := join_world sch c ⟨sess, x.world⟩
    show (x.phase, (join sch c ⟨sess, x.world⟩).world.shell) = _
    rw [hworld, shell_request]
    rfl
  | @leave k sess q hget _ =>
    refine (shell_disposeIfIdle _).trans ?_
    simp only [onSession, hget]
    have hfarewell : (farewell q ⟨sess, x.world⟩).world.shell = x.world.shell := by
      unfold farewell
      split
      · exact shell_request _ _ x.world
      · rfl
    have hdropped := shell_of_core (handlePeerDropped_spec sch q ⟨sess, x.world⟩).2.1
    exact Prod.ext rfl (hdropped.trans hfarewell)
  | @complete k sess q _ _ =>
    refine (shell_disposeIfIdle _).trans ?_
    rcases handlePeerCompleted_spec sch q ⟨sess, x.world⟩ with hsame | ⟨_, _, _, hworld, _⟩
    · rw [hsame]
      rfl
    · exact Prod.ext rfl (shell_of_core hworld)
  | dispose _ _ => exact shell_disposeSession _ x
  | begin _ _ => rfl

theorem shell_micros (h : Micros sch luck evt x y) : y.shell = x.shell := by
  induction h with
  | refl => rfl
  | tail _ hmicro ih => exact (shell_micro hmicro).trans ih

theorem shell_takeResult (payload : Option Bytes) (x : Channel S) :
    (x.takeResult luck m payload).shell = x.shell := by
  unfold takeResult
  split
  · rfl
  rename_i sess _
  split
  · split
    · rfl
    rename_i bytes
    refine (shell_disposeIfIdle _).trans ?_
    show (x.deliverMessage m bytes).shell = x.shell
    unfold deliverMessage
    split
    · rfl
    dsimp only
    split <;> rfl
  · rfl

end Moves

variable (sch : Scheme S C R P) (luck : Nat → Chance) (evt : Event S) (x : Channel S)

/-- **The actor posts nothing**, and handling an event does not stop it. -/
theorem shell_handle : (x.handle sch luck evt).shell = x.shell := by
  cases hresult : IsResult evt with
  | false =>
    have hmicros : Micros sch luck evt x (x.handle sch luck evt) := micros_handle hresult x
    exact shell_micros hmicros
  | true =>
    cases evt with
    | chunkSent m peer handle err size sender =>
      show (x.onSession m _).shell = _
      unfold onSession
      split
      · rfl
      rename_i sess _
      exact Prod.ext rfl (quiet_handleSendComplete sch luck peer handle err size sender.2 ⟨sess, x.world⟩).toStays.shell
    | decoded m payload sender => exact shell_takeResult payload _
    | _ => cases hresult

theorem phase_handle : (x.handle sch luck evt).phase = x.phase := congrArg Prod.fst (shell_handle sch luck evt x)

theorem ids_handle (d : ConnRef) : ((x.handle sch luck evt).world.conns d).id = (x.world.conns d).id :=
  ids_of_shell (shell_handle sch luck evt x) d

theorem inbox_handle : (x.handle sch luck evt).world.inbox = x.world.inbox :=
  congrArg (fun s => s.2.2.2.2) (shell_handle sch luck evt x)

/-! ## The other goroutines -/

/-- The step appends these events to the inbox, and leaves the actor alone. -/
structure Appends (new : List (Event S)) (x y : Channel S) : Prop where
  phase : y.phase = x.phase
  channelID : y.world.channelID = x.world.channelID
  inbox : y.world.inbox = x.world.inbox ++ new
  ctxDone : x.world.ctxDone = true → y.world.ctxDone = true

/-- **Every other goroutine appends** what it was asked to post, or an event of its own. -/
theorem posts_step {op : Op S} (hnext : op ≠ .next) (hclose : op ≠ .closeAll) (hfinish : op ≠ .finish) (x : Channel S) :
    ∃ new, (∀ e ∈ new, (op = .post e ∧ x.external e = true) ∨ e.Internal sch) ∧ Appends new x (x.step sch luck op) := by
  have hone : ∀ (evt : Event S) {y : Channel S},
      (op = .post evt ∧ x.external evt = true) ∨ evt.Internal sch → Appends [evt] x y →
      ∃ new, (∀ e ∈ new, (op = .post e ∧ x.external e = true) ∨ Event.Internal sch e) ∧ Appends new x y := by
    intro evt y hevt happends
    refine ⟨[evt], fun e he => ?_, happends⟩
    rw [List.mem_singleton.mp he]
    exact hevt
  have hnone : ∀ {y : Channel S}, Appends [] x y →
      ∃ new, (∀ e ∈ new, (op = .post e ∧ x.external e = true) ∨ Event.Internal sch e) ∧ Appends new x y :=
    fun happends => ⟨[], fun _ he => absurd he List.not_mem_nil, happends⟩
  have hsame : x.world.inbox = x.world.inbox ++ [] := (List.append_nil _).symm
  have hbeat := beat_step sch luck hnext hclose hfinish x
  generalize x.step sch luck op = y at hbeat ⊢
  cases hbeat with
  | post hevt _ _ => exact hone _ hevt ⟨rfl, rfl, rfl, id⟩
  | @decoded d _ =>
    exact hone (.decoded d.messageID d.result d.session) (.inr trivial) ⟨rfl, rfl, rfl, id⟩
  | clock hctx => exact hnone ⟨rfl, rfl, hsame, hctx⟩
  | @reader rd _ _ _ h =>
    cases h with
    | @hand payload _ _ =>
      exact hone (.chunkData rd.messageID rd.peer rd.chunkID payload) (.inr trivial) ⟨rfl, rfl, rfl, id⟩
    | announce _ _ => exact hone (.readDone rd.messageID) (.inr trivial) ⟨rfl, rfl, rfl, id⟩
    | _ => exact hnone ⟨rfl, rfl, hsame, id⟩
  | _ => exact hnone ⟨rfl, rfl, hsame, id⟩

/-- The first part of the shutdown keeps the inbox. -/
theorem shell_closeAll :
    (x.closeAll luck).shell = x.shell ∨ x.phase = .running ∧ x.world.ctxDone = true ∧
      (x.closeAll luck).shell = (.closing, x.shell.2) := by
  have hclose : ∀ (x : Channel S) (m : MessageID), (x.onSession m (Close luck)).shell = x.shell := by
    intro x m
    unfold onSession
    split
    · rfl
    rename_i sess _
    obtain ⟨w, hcalled, hcore, _⟩ := closeWithCode_world luck .unspecified ⟨sess, x.world⟩
    exact Prod.ext rfl ((shell_of_core hcore).trans hcalled.shell)
  unfold closeAll
  split
  · rename_i hready
    rw [Bool.and_eq_true, Bool.and_eq_true] at hready
    refine .inr ⟨of_decide_eq_true hready.1.1, hready.2, ?_⟩
    have hsessions : (x.forSessions luck fun m x => x.onSession m (Close luck)).shell = x.shell :=
      foldl_same (f := fun (x : Channel S) m => x.onSession m (Close luck)) shell hclose _ (x.onWorld turn)
    have haside := aside_forParked luck (fun _ group x => aside_cancelStreams group.streams .unspecified x)
      (x.forSessions luck fun m x => x.onSession m (Close luck))
    have hrest := congrArg Prod.snd hsessions
    exact Prod.ext rfl ((shell_of_core haside.world).trans hrest)
  · exact .inl rfl

theorem inbox_closeAll : (x.closeAll luck).world.inbox = x.world.inbox := by
  rcases shell_closeAll luck x with hsame | ⟨_, _, hsame⟩
  · exact congrArg (fun s => s.2.2.2.2) hsame
  · exact congrArg (fun s => s.2.2.2.2) hsame

/-- The first part of the shutdown starts in a running actor and does not end it. -/
theorem stopped_closeAll : (x.closeAll luck).phase = .stopped ↔ x.phase = .stopped := by
  rcases shell_closeAll luck x with hsame | ⟨hrun, _, hsame⟩
  · have hphase : (x.closeAll luck).phase = x.phase := congrArg Prod.fst hsame
    rw [hphase]
  have hphase : (x.closeAll luck).phase = .closing := congrArg Prod.fst hsame
  rw [hphase, hrun]
  exact iff_of_false nofun nofun

end Channel

end EthP2P.Broadcast
