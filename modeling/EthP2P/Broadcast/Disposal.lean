/-
# EthP2P.Broadcast.Disposal — no session outlives its work

A session that lost its last peer before it had the message, or whose peers all have it, has nothing left
to do (`Session.idle`).  Only three handlers ask that question: those of a peer that leaves, of a peer that
is complete, and of a decode.  They are enough: no other event makes a session idle, so between two events
no idle session is in the map, and a session that left the map was disposed with a reason and a cancelled
context (`no_idle_session`).

The invariant is checked move by move.  The handlers that ask are those that may break it for one session,
so their halves meet at `TendedBut`, the invariant for every session but one.
-/
import EthP2P.Broadcast.Lifecycle

namespace EthP2P.Broadcast

open Lib Wire Channel Scope Session

variable {S C R P : Type}

/-! ## When a session is idle -/

variable {s : Session S}

/-- Idleness depends on the peers, on whether there ever were any, and on the message being there. -/
theorem Session.idle_congr {s' : Session S} (hever : s'.everHadPeers = s.everHadPeers)
    (hpeers : s'.peers = s.peers) (hstage : s'.stage < .reconstructed ↔ s.stage < .reconstructed) :
    s'.idle = s.idle := by
  simp only [idle, hever, hpeers, hstage]

/-- A session with a peer that is not complete has work. -/
theorem Session.idle_of_peer {p : PeerID} {sp : SessionPeer}
    (hget : s.peers.get p = some sp) (hcompleted : sp.completed = false) : s.idle = false := by
  unfold idle
  split
  · rfl
  split
  · have hmem := Map.mem_keys_of_get hget
    rw [List.isEmpty_eq_false_iff]
    exact List.ne_nil_of_mem hmem
  · rw [List.all_eq_false]
    exact ⟨(p, sp), Map.mem_entries.mpr hget, by simp [hcompleted]⟩

/-- A relay that still collects chunks, without a peer. -/
def Session.Abandoned (s : Session S) : Prop := s.stage = .consuming ∧ ∀ p, s.peers.get p = none

/-- The message is here, and every attached peer has it too. -/
def Session.Served (s : Session S) : Prop :=
  (s.stage = .origin ∨ s.stage = .reconstructed) ∧ ∀ p sp, s.peers.get p = some sp → sp.completed = true

theorem Session.idle_of_abandoned (hever : s.everHadPeers = true) (h : s.Abandoned) : s.idle = true := by
  obtain ⟨hstage, hpeers⟩ := h
  have hkeys : s.peers.keys = [] := by
    refine List.eq_nil_iff_forall_not_mem.mpr fun p hp => ?_
    obtain ⟨sp, hget⟩ := Map.mem_keys.mp hp
    rw [hpeers p] at hget
    cases hget
  have hlt : Stage.consuming < Stage.reconstructed := by decide
  simp [idle, hever, hstage, hkeys, hlt]

theorem Session.idle_of_served (hever : s.everHadPeers = true) (h : s.Served) : s.idle = true := by
  obtain ⟨hstage, hpeers⟩ := h
  have hlt : ¬ s.stage < .reconstructed := by
    rcases hstage with hstage | hstage <;> rw [hstage] <;> decide
  have hall : s.peers.entries.all (·.2.completed) = true := by
    refine List.all_eq_true.mpr fun e he => ?_
    exact hpeers e.1 e.2 (Map.mem_entries.mp he)
  simp [idle, hever, hlt, hall]

/-! ## The invariant -/

/-- What the records of sessions keep from `w` to `w'`: a start is not forgotten, nor an end. -/
structure Marks (w w' : World S) : Prop where
  start : ∀ r, (w'.life r).start = (w.life r).start
  removed : ∀ r, (w.life r).removed ≠ none → (w'.life r).removed ≠ none
  sessDone : ∀ r, w.sessDone.get r ≠ none → w'.sessDone.get r ≠ none

theorem Marks.of_calm {w w' : World S} (h : Calm w w') : Marks w w' :=
  ⟨fun r => by rw [h.life], fun r => by rw [h.life]; exact id, fun r => by rw [h.sessDone]; exact id⟩

/-- One life changes, but neither its start nor its end. -/
theorem Marks.of_updLife (w : World S) (r : SessionRef) {f : Life → Life}
    (hstart : ∀ l, (f l).start = l.start) (hremoved : ∀ l, (f l).removed = l.removed) : Marks w (w.updLife r f) := by
  have hlife : ∀ k, (w.updLife r f).life k = if k = r then f (w.life r) else w.life k := by
    intro k
    simp [World.updLife, Function.update_apply]
  refine ⟨fun k => ?_, fun k h => ?_, fun _ h => h⟩
  · rw [hlife]
    split
    · rename_i hk
      rw [hk, hstart]
    · rfl
  rw [hlife]
  split
  · rename_i hk
    rw [hremoved, ← hk]
    exact h
  · exact h

theorem Marks.trans {w w' w'' : World S} (h : Marks w w') (h' : Marks w' w'') : Marks w w'' :=
  ⟨fun r => (h'.start r).trans (h.start r), fun r hr => h'.removed r (h.removed r hr),
    fun r hr => h'.sessDone r (h.sessDone r hr)⟩

/-- Every session in the map but the one of `m`, if that is given, has work left; and a session that began
is in the map or was disposed. -/
structure TendedBut (m : Option MessageID) (x : Channel S) : Prop where
  busy : ∀ k sess, x.sessions.get k = some sess → m ≠ some k → sess.idle = false
  flagged : ∀ k sess, x.sessions.get k = some sess → ∀ p sp, sess.peers.get p = some sp → sess.everHadPeers = true
  accounted : ∀ r, (x.world.life r).start ≠ none →
    (∃ k sess, x.sessions.get k = some sess ∧ sess.ref = r) ∨
      (x.world.life r).removed ≠ none ∧ x.world.sessDone.get r ≠ none

/-- **No session in the map is idle.** -/
abbrev Tended (x : Channel S) : Prop := TendedBut none x

namespace TendedBut

variable {x y : Channel S} {m : MessageID}

theorem init (channelID : ChannelID) (ids : ConnRef → PeerID) (sub : Option Subscription) :
    Tended (init channelID ids sub : Channel S) :=
  ⟨(fun _ _ h => by cases h), (fun _ _ h => by cases h), fun _ h => absurd rfl h⟩

/-- The sessions stay. -/
theorem of_marks (hx : Tended x) (hsessions : y.sessions = x.sessions) (hw : Marks x.world y.world) : Tended y := by
  refine ⟨?_, ?_, fun r hr => ?_⟩
  · rw [hsessions]
    exact hx.busy
  · rw [hsessions]
    exact hx.flagged
  · rw [hw.start] at hr
    rw [hsessions]
    exact (hx.accounted r hr).imp id fun h => ⟨hw.removed r h.1, hw.sessDone r h.2⟩

variable {sess : Session S} {u : Scope S}

/-- One session changes; whether it has work left is not asked. -/
theorem put (hx : Tended x) (hget : x.sessions.get m = some sess) (href : u.sess.ref = sess.ref)
    (hflag : ∀ p sp, u.sess.peers.get p = some sp → u.sess.everHadPeers = true)
    (hw : Marks x.world u.world) : TendedBut (some m) (x.put m u) := by
  refine ⟨fun k s hs hk => ?_, fun k s hs => ?_, fun r hr => ?_⟩
  · rw [put_sessions] at hs
    split at hs
    · rename_i hkm
      exact absurd (by rw [hkm]) hk
    · exact hx.busy k s hs (by simp)
  · rw [put_sessions] at hs
    split at hs
    · cases hs
      exact hflag
    · exact hx.flagged k s hs
  have hr' : (x.world.life r).start ≠ none := by
    rw [← hw.start]
    exact hr
  rcases hx.accounted r hr' with ⟨k, s, hs, hkr⟩ | ⟨hremoved, hdone⟩
  · left
    by_cases hk : k = m
    · subst hk
      cases hget.symm.trans hs
      exact ⟨k, u.sess, by simp, href.trans hkr⟩
    · exact ⟨k, s, by simp [hk, hs], hkr⟩
  · exact .inr ⟨hw.removed r hremoved, hw.sessDone r hdone⟩

/-- The session that was left out has work after all. -/
theorem close (hx : TendedBut (some m) x)
    (hbusy : ∀ sess, x.sessions.get m = some sess → sess.idle = false) : Tended x := by
  refine ⟨fun k sess hget _ => ?_, hx.flagged, hx.accounted⟩
  by_cases hk : k = m
  · subst hk
    exact hbusy sess hget
  · exact hx.busy k sess hget fun h => hk (Option.some.inj h).symm

/-- One session changes, and has work left. -/
theorem put_busy (hx : Tended x) (hget : x.sessions.get m = some sess) (href : u.sess.ref = sess.ref)
    (hflag : ∀ p sp, u.sess.peers.get p = some sp → u.sess.everHadPeers = true)
    (hbusy : u.sess.idle = false) (hw : Marks x.world u.world) : Tended (x.put m u) := by
  refine (hx.put hget href hflag hw).close fun s hs => ?_
  rw [put_sessions, if_pos rfl] at hs
  cases hs
  exact hbusy

/-- An effect of a session method. -/
theorem stays (hx : Tended x) (hget : x.sessions.get m = some sess)
    (h : Stays ⟨sess, x.world⟩ u) : Tended (x.put m u) := by
  have hpeers : u.sess.peers = sess.peers := h.peers
  have hever : u.sess.everHadPeers = sess.everHadPeers := h.everHadPeers
  refine hx.put_busy hget h.ref ?_ ?_ (.of_calm (.of_still h.world h.fresh))
  · rw [hpeers, hever]
    exact hx.flagged m sess hget
  · rw [idle_congr hever hpeers (by rw [h.stage])]
    exact hx.busy m sess hget (by simp)

/-! ### Disposal -/

theorem disposeSession (luck : Nat → Chance) {left : Option MessageID} (hx : TendedBut left x)
    (hleft : left = none ∨ left = some m) (reason : Reason) : Tended (x.disposeSession luck m reason) := by
  have hbusy : ∀ k sess, x.sessions.get k = some sess → k ≠ m → sess.idle = false := by
    intro k sess hget hk
    refine hx.busy k sess hget ?_
    rcases hleft with rfl | rfl
    · simp
    · exact fun h => hk (Option.some.inj h).symm
  cases hget : x.sessions.get m with
  | none =>
    rw [disposeSession_of_none hget]
    refine ⟨fun k s hs _ => hbusy k s hs ?_, hx.flagged, hx.accounted⟩
    rintro rfl
    rw [hget] at hs
    cases hs
  | some sess =>
    obtain ⟨hsessions, _, _, w, code, hcalled, hcore, _⟩ :=
      disposeSession_spec hget reason luck
    have hw := Calm.of_called hcalled
    have hlife := congrArg World.life hcore
    have hdone := congrArg World.sessDone hcore
    replace hlife : (x.disposeSession luck m reason).world.life = Function.update x.world.life sess.ref
        { x.world.life sess.ref with removed := some reason } := by
      rw [← hw.life]
      exact hlife
    replace hdone : (x.disposeSession luck m reason).world.sessDone =
        x.world.sessDone.set sess.ref code := by
      rw [← hw.sessDone]
      exact hdone
    refine ⟨fun k s hs _ => ?_, fun k s hs => ?_, fun r hr => ?_⟩
    · rw [hsessions, Map.get_del] at hs
      split at hs
      · cases hs
      · rename_i hk
        exact hbusy k s hs hk
    · rw [hsessions, Map.get_del] at hs
      split at hs
      · cases hs
      · exact hx.flagged k s hs
    by_cases hself : r = sess.ref
    · right
      rw [hlife, hdone, hself]
      simp
    rw [hlife, Function.update_of_ne hself] at hr ⊢
    rw [hdone, Map.get_set, if_neg hself]
    refine (hx.accounted r hr).imp ?_ id
    rintro ⟨k, s, hs, hkr⟩
    refine ⟨k, s, ?_, hkr⟩
    rw [hsessions, Map.get_del, if_neg, hs]
    rintro rfl
    cases hget.symm.trans hs
    exact hself hkr.symm

/-- The check that follows makes up for what was left out. -/
theorem disposeIfIdle (luck : Nat → Chance) (hx : TendedBut (some m) x) : Tended (x.disposeIfIdle luck m) := by
  unfold Channel.disposeIfIdle
  split
  · rename_i hget
    exact hx.close fun sess hs => by
      rw [hget] at hs
      cases hs
  rename_i sess hget
  split
  · exact hx.disposeSession luck (.inr rfl) .allPeersDone
  rename_i hidle
  refine hx.close fun s hs => ?_
  cases hget.symm.trans hs
  exact Bool.eq_false_iff.mpr hidle

/-! ### The moves -/

variable {sch : Scheme S C R P} {luck : Nat → Chance} {evt : Event S} {sess : Session S}

section

variable (hx : Tended x)
include hx

theorem start (hget : x.sessions.get m = some sess) (hstage : sess.stage = .consuming) :
    Tended (x.put m (startDecode sch luck ⟨sess, x.world⟩)) := by
  obtain ⟨w, hcalled, heq⟩ := startDecode_spec sch luck ⟨sess, x.world⟩
  -- a consuming session and a decoding one are idle under the same condition
  have hidle : ({ sess with stage := .decoding } : Session S).idle = sess.idle :=
    idle_congr rfl rfl (iff_of_true (Stage.lt_reconstructed.mpr (.inr rfl)) (Stage.lt_reconstructed.mpr (.inl hstage)))
  have hlife := Marks.of_updLife w sess.ref (f := fun l =>
    { l with
      moves := l.moves ++ [(sess.stage, .decoding)]
      decodes := l.decodes ++ [sch.methods.decode sess.strategy] }) (fun _ => rfl) fun _ => rfl
  rw [heq]
  refine hx.put_busy hget rfl (hx.flagged m sess hget) ?_
    ((Marks.of_calm (Calm.of_called hcalled)).trans ⟨hlife.start, hlife.removed, hlife.sessDone⟩)
  exact hidle.trans (hx.busy m sess hget (by simp))

theorem join (hget : x.sessions.get m = some sess) (c : ConnRef) : Tended (x.put m (join sch c ⟨sess, x.world⟩)) := by
  obtain ⟨routing, obs, hworld⟩ := join_world sch c ⟨sess, x.world⟩
  have hsess := Scope.join_sess sch c ⟨sess, x.world⟩
  refine hx.put_busy hget (by rw [hsess]) (fun _ _ _ => by rw [hsess]) ?_ ?_
  · have hpeer : (Scope.join sch c ⟨sess, x.world⟩).sess.peers.get (x.world.conns c).id =
        some { conn := c, chunkOutbox := x.world.fresh } := by
      rw [hsess]
      simp
    exact idle_of_peer hpeer rfl
  · rw [hworld]
    exact .of_calm ⟨rfl, rfl, rfl, rfl, Nat.le_succ _⟩

theorem leave (p : PeerID) : Tended (x.leave sch luck m p) := by
  cases hget : x.sessions.get m with
  | none =>
    rw [leave_of_none hget]
    exact hx
  | some sess =>
    obtain ⟨href, _, _, hever, hpeers, hw⟩ := dropped_standing sch p ⟨sess, x.world⟩
    unfold Channel.leave Channel.onSession
    rw [hget]
    refine (hx.put hget href (fun q sp hq => ?_) (.of_calm hw)).disposeIfIdle luck
    rw [hpeers, Map.get_del] at hq
    rw [hever]
    split at hq
    · cases hq
    · exact hx.flagged m sess hget q sp hq

theorem complete (hget : x.sessions.get m = some sess) (p : PeerID) :
    Tended ((x.put m (handlePeerCompleted sch p ⟨sess, x.world⟩)).disposeIfIdle luck m) := by
  have hflag := hx.flagged m sess hget
  refine TendedBut.disposeIfIdle luck ?_
  rcases handlePeerCompleted_spec sch p ⟨sess, x.world⟩ with
    hsame | ⟨sp, hsp, hsess, hworld, hfresh⟩
  · rw [hsame]
    exact hx.put hget rfl hflag (.of_calm (.refl _))
  have href := congrArg ref hsess
  have hever := congrArg everHadPeers hsess
  refine hx.put hget href (fun _ _ _ => ?_) (.of_calm (.of_core hworld hfresh))
  exact hever.trans (hflag p sp hsp)

theorem begin (hget : x.sessions.get m = none) (preamble : Bytes) (origin : Bool)
    (strategy : S) : Tended (x.begin (x.newSession m preamble origin strategy)) := by
  refine ⟨fun k s hs _ => ?_, fun k s hs => ?_, fun r hr => ?_⟩
  · rw [begin_sessions] at hs
    split at hs
    · cases hs
      rfl
    · exact hx.busy k s hs (by simp)
  · rw [begin_sessions] at hs
    split at hs
    · cases hs
      intro p sp hp
      cases hp
    · exact hx.flagged k s hs
  by_cases hself : r = x.world.fresh
  · exact .inl ⟨m, x.newSession m preamble origin strategy, by simp [newSession], hself.symm⟩
  have hlife : (x.begin (x.newSession m preamble origin strategy)).world.life r = x.world.life r :=
    Function.update_of_ne hself _ _
  rw [hlife] at hr ⊢
  refine (hx.accounted r hr).imp ?_ id
  rintro ⟨k, s, hs, hkr⟩
  refine ⟨k, s, ?_, hkr⟩
  rw [begin_sessions, if_neg, hs]
  rintro rfl
  exact absurd (hget.symm.trans hs) (by simp)

/-- **One move** leaves no idle session. -/
theorem micro (h : Micro sch luck evt x y) : Tended y := by
  cases h with
  | aside h => exact hx.of_marks h.sessions (.of_calm (.of_core h.world h.fresh))
  | member _ | unmember _ => exact hx.of_marks rfl (.of_calm (.refl _))
  | act hget h => exact hx.stays hget h
  | start hget hstage _ => exact hx.start hget hstage
  | join hget _ _ _ => exact hx.join hget _
  | leave _ _ => exact hx.leave _
  | complete hget _ => exact hx.complete hget _
  | dispose _ _ => exact hx.disposeSession luck (.inl rfl) _
  | begin hget _ => exact hx.begin hget _ _ _

theorem micros (h : Micros sch luck evt x y) : Tended y := by
  induction h with
  | refl => exact hx
  | tail _ hmove ih => exact ih.micro hmove

end

/-! ### The steps -/

section

variable (hx : Tended x)
include hx

theorem takeResult (m : MessageID) (payload : Option Bytes) : Tended (x.takeResult luck m payload) := by
  unfold Channel.takeResult
  split
  · exact hx
  rename_i sess hget
  split
  · split
    · exact hx.of_marks rfl (.of_calm ⟨rfl, rfl, rfl, rfl, Nat.le_refl _⟩)
    rename_i payload
    obtain ⟨hsessions, _, _, hworld⟩ := deliverMessage_spec m payload x
    have hdelivered : Tended (x.deliverMessage m payload) := by
      refine hx.of_marks hsessions ?_
      rw [hworld]
      exact .of_calm ⟨rfl, rfl, rfl, rfl, Nat.le_refl _⟩
    have hget' : (x.deliverMessage m payload).sessions.get m = some sess := by
      rw [hsessions]
      exact hget
    refine TendedBut.disposeIfIdle luck (hdelivered.put hget' rfl (hdelivered.flagged m sess hget') ?_)
    exact Marks.of_updLife _ sess.ref (f := doneLife sess.stage payload) (fun _ => rfl) fun _ => rfl
  · exact hx

theorem decoded (m : MessageID) (payload : Option Bytes) (sender : SessionRef) :
    Tended (x.handleDecoded luck m payload sender) := by
  have hmarks := Marks.of_updLife x.world sender (f := fun l => { l with handled := true }) (fun _ => rfl) fun _ => rfl
  have hnoted : Tended (x.onWorld fun w => w.updLife sender fun l => { l with handled := true }) :=
    hx.of_marks rfl hmarks
  exact hnoted.takeResult m payload

theorem next : Tended (x.next sch luck) := by
  cases hdue : x.due with
  | none => rwa [next_of_none hdue]
  | some evt =>
    obtain ⟨rest, _, _, hnext⟩ := next_of_some sch luck hdue
    rw [hnext]
    have hpop : Tended (x.onWorld fun w => { w with inbox := rest }) :=
      hx.of_marks rfl ⟨fun _ => rfl, fun _ => id, fun _ => id⟩
    cases hres : IsResult evt with
    | false => exact hpop.micros (micros_handle hres _)
    | true =>
      cases evt with
      | chunkSent m peer handle err size sender =>
        show Tended ((x.onWorld _).onSession m _)
        unfold onSession
        split
        · exact hpop
        rename_i sess hget
        exact hpop.stays hget (quiet_handleSendComplete sch luck peer handle err size sender.2 _).toStays
      | decoded m payload sender => exact hpop.decoded m payload sender
      | _ => cases hres

theorem closed (m : MessageID) : Tended (x.onSession m (Close luck)) := by
  unfold onSession
  split
  · exact hx
  rename_i sess hget
  obtain ⟨w, hcalled, hcore, _⟩ := closeWithCode_world luck .unspecified ⟨sess, x.world⟩
  have hlife := congrArg World.life hcore
  have hdone := congrArg World.sessDone hcore
  refine hx.put_busy hget rfl (hx.flagged m sess hget) (hx.busy m sess hget (by simp))
    ((Marks.of_calm (Calm.of_called hcalled)).trans ⟨fun r => ?_, fun r hr => ?_, fun r hr => ?_⟩)
  · exact congrArg Life.start (congrFun hlife r)
  · rw [show (Close luck ⟨sess, x.world⟩).world.life r = w.life r from congrFun hlife r]
    exact hr
  rw [show (Close luck ⟨sess, x.world⟩).world.sessDone =
    w.sessDone.set sess.ref (closeCause .unspecified) from hdone, Map.get_set]
  split
  · simp
  · exact hr

theorem closeAll : Tended (x.closeAll luck) := by
  unfold Channel.closeAll
  split
  · have hsessions : Tended (x.forSessions luck fun m x => x.onSession m (Close luck)) := by
      have hturn : Tended (x.onWorld World.turn) := hx.of_marks rfl (.of_calm ⟨rfl, rfl, rfl, rfl, le_rfl⟩)
      exact List.foldlRecOn _ _ hturn fun _ hy m _ => hy.closed m
    have haside := aside_forParked luck
      (fun _ group x => aside_cancelStreams group.streams .unspecified x)
      (x.forSessions luck fun m x => x.onSession m (Close luck))
    exact hsessions.of_marks haside.sessions (.of_calm (.of_core haside.world haside.fresh))
  · exact hx

/-- **One step** of the channel and its surroundings leaves no idle session. -/
theorem step (op : Op S) : Tended (x.step sch luck op) := by
  by_cases hnext : op = .next
  · rw [hnext]
    exact hx.next
  by_cases hclose : op = .closeAll
  · rw [hclose]
    exact hx.closeAll
  have hout := outside_step sch luck op hnext hclose x
  refine hx.of_marks hout.sessions ⟨fun r => by rw [hout.life], fun r hr => ?_, fun r hr => ?_⟩
  · rw [hout.life]
    exact hr
  · rw [hout.sessDone]
    exact hr

end

end TendedBut

namespace Channel

/-- **No session outlives its work.**  After any run, a session in the map that ever had a peer is neither
a relay that collects chunks without a peer, nor one that has the message and whose peers all have it; the
flag that records whether there ever was a peer is right about those attached; and a session that began and
is not in the map was disposed, with a reason and its context cancelled. -/
theorem no_idle_session (sch : Scheme S C R P) (luck : Nat → Chance) (channelID : ChannelID)
    (ids : ConnRef → PeerID) (sub : Option Subscription) (ops : List (Op S)) :
    let x := exec (step sch luck) (init channelID ids sub) ops
    (∀ m sess, x.sessions.get m = some sess →
      (sess.everHadPeers = true → ¬ sess.Abandoned ∧ ¬ sess.Served) ∧
      ∀ p sp, sess.peers.get p = some sp → sess.everHadPeers = true) ∧
    ∀ r, (x.world.life r).start ≠ none →
      (∃ m sess, x.sessions.get m = some sess ∧ sess.ref = r) ∨
        (x.world.life r).removed ≠ none ∧ x.world.sessDone.get r ≠ none := by
  have hinv : Tended (exec (step sch luck) (init channelID ids sub) ops) :=
    exec_invariant (step sch luck) (I := Tended) (fun _ op hx => hx.step op) (.init channelID ids sub) ops
  refine ⟨fun m sess hget => ⟨fun hever => ?_, hinv.flagged m sess hget⟩, hinv.accounted⟩
  have hbusy := hinv.busy m sess hget (by simp)
  constructor
  · intro h
    rw [idle_of_abandoned hever h] at hbusy
    cases hbusy
  intro h
  rw [idle_of_served hever h] at hbusy
  cases hbusy

end Channel

end EthP2P.Broadcast
