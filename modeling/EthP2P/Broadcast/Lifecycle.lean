/-
# EthP2P.Broadcast.Lifecycle — the stages of a session, and the fate of its message

A relay session collects chunks, decodes in the background and is then reconstructed; an origin session has
its payload from the start.  Which session a background result belongs to is not written on it: the event
`channelDecoded` carries a message ID only, and sits in the inbox while its session can be disposed and
replaced by another one of the same message.

This module follows every session through its whole life, by the history `World.life`: which stages it went
through, which decodes it started, what it delivered and why it ended.

The result is `stages_in_order`: as long as no successful result is handled by a later session of its
message, every session goes from consuming to decoding to reconstructed and no other way, starts at most one
decode and delivers at most once, what its own decode returned.  In the run `stale_decode_reconstructs` the
condition fails, and so does the order.
-/
import EthP2P.Broadcast.Moves
import EthP2P.Rs.RoundTrip

namespace EthP2P.Broadcast

open Lib Wire Function Scope World Life Session List Nat Event

variable {S C R P : Type}

/-! ## Results under way -/

/-- The decode result an event brings. -/
def Event.result : Event S → Option Decoder
  | .decoded m payload sender => some ⟨sender, m, payload⟩
  | _ => none

/-- The decode results that are being computed or wait in the inbox. -/
def World.results (w : World S) : List Decoder := w.decoders ++ w.inbox.filterMap result

/-- How many of them are results of session `r`. -/
def World.pending (w : World S) (r : SessionRef) : Nat := w.results.countP (·.session == r)

/-- A life without the reason of its end. -/
def Life.course (l : Life) : Life := { l with removed := none }

variable {l : Life} {n : Nat} {x y : Channel S}

theorem Life.of_course {l' : Life} (h : l'.course = l.course) :
    l'.start = l.start ∧ l'.moves = l.moves ∧ l'.decodes = l.decodes ∧ l'.handled = l.handled ∧
      l'.delivered = l.delivered := by
  simpa [course] using h

/-! ## What the moves leave alone -/

/-- What a world knows about decodes and lives. -/
structure Calm (w w' : World S) : Prop where
  life : w'.life = w.life
  results : w'.results = w.results
  sessDone : w'.sessDone = w.sessDone
  ctxDone : w'.ctxDone = w.ctxDone
  fresh : w.fresh ≤ w'.fresh

namespace Calm

variable {w w' w'' : World S}

theorem refl (w : World S) : Calm w w := ⟨rfl, rfl, rfl, rfl, le_refl _⟩

theorem trans (h : Calm w w') (h' : Calm w' w'') : Calm w w'' :=
  ⟨h'.life.trans h.life, h'.results.trans h.results, h'.sessDone.trans h.sessDone,
    h'.ctxDone.trans h.ctxDone, le_trans h.fresh h'.fresh⟩

theorem of_still (h : w'.still = w.still) (hfresh : w.fresh ≤ w'.fresh) : Calm w w' := by
  have hlife := congrArg World.life h
  have hresults := congrArg World.results h
  have hsess := congrArg World.sessDone h
  have hdone := congrArg World.ctxDone h
  exact ⟨hlife, hresults, hsess, hdone, hfresh⟩

theorem of_core (h : w'.core = w.core) (hfresh : w.fresh ≤ w'.fresh) : Calm w w' := by
  refine .of_still ?_ hfresh
  unfold still
  rw [h]

theorem of_called (h : Called w w') : Calm w w' := by
  obtain ⟨hlife, hresults, hsess, hdone, _⟩ := of_core (w := { w with conns := w'.conns }) h.world
    (le_of_eq h.fresh.symm)
  exact ⟨hlife, hresults, hsess, hdone, le_of_eq h.fresh.symm⟩

end Calm

/-- The sessions of `y` are sessions of `x` in the stage they had, of their lives only the reason of their
removal may be new, and no result is gained or lost. -/
structure Tame (x y : Channel S) : Prop where
  sessions : ∀ m s', y.sessions.get m = some s' → ∃ s, x.sessions.get m = some s ∧
    s'.ref = s.ref ∧ s'.messageID = s.messageID ∧ s'.stage = s.stage
  life : ∀ r, (y.world.life r).course = (x.world.life r).course
  results : y.world.results.Perm x.world.results
  /-- The contexts that end are those of sessions that are gone. -/
  sessDone : y.world.ctxDone = false → ∀ r, y.world.sessDone.get r = x.world.sessDone.get r ∨
    ∃ m s, x.sessions.get m = some s ∧ s.ref = r ∧ y.sessions.get m = none
  ctxDone : y.world.ctxDone = false → x.world.ctxDone = false
  halted : (x.phase ≠ .running → x.world.ctxDone = true) → y.phase ≠ .running → y.world.ctxDone = true
  fresh : x.world.fresh ≤ y.world.fresh

namespace Tame

variable {x y z : Channel S}

theorem trans (h : Tame x y) (h' : Tame y z) : Tame x z := by
  refine ⟨fun m s'' hs'' => ?_, fun r => (h'.life r).trans (h.life r), h'.results.trans h.results,
    fun hdone r => ?_, fun hdone => h.ctxDone (h'.ctxDone hdone),
    fun hhalted => h'.halted (h.halted hhalted), le_trans h.fresh h'.fresh⟩
  · obtain ⟨s', hs', href', hmsg', hstage'⟩ := h'.sessions m s'' hs''
    obtain ⟨s, hs, href, hmsg, hstage⟩ := h.sessions m s' hs'
    exact ⟨s, hs, href'.trans href, hmsg'.trans hmsg, hstage'.trans hstage⟩
  rcases h'.sessDone hdone r with heq | ⟨m, s', hs', href', hgone⟩
  · rw [heq]
    rcases h.sessDone (h'.ctxDone hdone) r with heq | ⟨m, s, hs, href, hgone⟩
    · exact .inl heq
    refine .inr ⟨m, s, hs, href, Option.eq_none_iff_forall_ne_some.mpr fun s'' hs'' => ?_⟩
    obtain ⟨s', hs', _⟩ := h'.sessions m s'' hs''
    rw [hgone] at hs'
    cases hs'
  · obtain ⟨s, hs, href, _⟩ := h.sessions m s' hs'
    exact .inr ⟨m, s, hs, href.symm.trans href', hgone⟩

theorem ctxDone_true (h : Tame x y) (hdone : x.world.ctxDone = true) : y.world.ctxDone = true := by
  by_contra hfalse
  exact absurd (hdone.symm.trans (h.ctxDone (Bool.eq_false_iff.mpr hfalse))) (by decide)

/-- The sessions are the same. -/
theorem of_calm (hsessions : y.sessions = x.sessions) (hphase : y.phase = x.phase)
    (hw : Calm x.world y.world) : Tame x y :=
  ⟨fun m s hs => ⟨s, by rwa [hsessions] at hs, rfl, rfl, rfl⟩, fun r => by rw [hw.life],
    .of_eq hw.results, fun _ r => .inl (by rw [hw.sessDone]), fun h => by rwa [hw.ctxDone] at h,
    fun h hp => by rw [hw.ctxDone]; exact h (by rwa [hphase] at hp), hw.fresh⟩

/-- One session changes, but not its stage. -/
theorem of_put {m : MessageID} {sess : Session S} {u : Scope S}
    (hget : x.sessions.get m = some sess) (href : u.sess.ref = sess.ref)
    (hmsg : u.sess.messageID = sess.messageID) (hstage : u.sess.stage = sess.stage)
    (hw : Calm x.world u.world) : Tame x (x.put m u) := by
  refine ⟨fun k s' hs' => ?_, fun r => by rw [← hw.life]; rfl, .of_eq hw.results,
    fun _ r => .inl (by rw [← hw.sessDone]; rfl), fun h => hw.ctxDone.symm.trans h,
    fun h hp => hw.ctxDone.trans (h hp), hw.fresh⟩
  rw [Channel.put_sessions] at hs'
  split at hs'
  · rename_i hk
    cases hs'
    exact ⟨sess, hk ▸ hget, href, hmsg, hstage⟩
  · exact ⟨s', hs', rfl, rfl, rfl⟩

theorem of_stays {m : MessageID} {sess : Session S} {u : Scope S}
    (hget : x.sessions.get m = some sess) (h : Stays ⟨sess, x.world⟩ u) : Tame x (x.put m u) :=
  of_put hget h.ref h.messageID h.stage (.of_still h.world h.fresh)

end Tame

namespace Channel

variable {sch : Scheme S C R P} {luck : Nat → Chance} {evt : Event S} {x y : Channel S}

theorem tame_refl (x : Channel S) : Tame x x := .of_calm rfl rfl (.refl _)

theorem tame_aside (h : Aside x y) : Tame x y :=
  .of_calm h.sessions h.phase (.of_core h.world h.fresh)

theorem tame_disposeSession (luck : Nat → Chance) (m : MessageID) (reason : Reason)
    (x : Channel S) : Tame x (x.disposeSession luck m reason) := by
  cases hget : x.sessions.get m with
  | none =>
    rw [disposeSession_of_none hget]
    exact tame_refl x
  | some sess =>
    obtain ⟨hsessions, _, hphase, w, code, hcalled, hcore, hfresh⟩ :=
      disposeSession_spec hget reason luck
    have hw := Calm.of_called hcalled
    obtain ⟨hlife, hresults, hsess, hdone, _⟩ := Calm.of_core hcore (le_of_eq (hcalled.fresh.trans hfresh.symm))
    have hdone' := hdone.trans hw.ctxDone
    refine ⟨fun k s' hs' => ?_, fun r => ?_, .of_eq (hresults.trans hw.results), fun _ r => ?_,
      fun h => hdone'.symm.trans h, fun h hp => hdone'.trans (h (hphase ▸ hp)),
      le_of_eq hfresh.symm⟩
    · rw [hsessions, Map.get_del] at hs'
      split at hs'
      · cases hs'
      · exact ⟨s', hs', rfl, rfl, rfl⟩
    · rw [hlife, ← hw.life]
      show (update w.life sess.ref _ r).course = _
      by_cases hr : r = sess.ref
      · subst hr
        rw [update_self]
        rfl
      · rw [update_of_ne hr]
    · rw [hsess, ← hw.sessDone]
      show (w.sessDone.set sess.ref code).get r = _ ∨ _
      rw [Map.get_set]
      split
      · rename_i hr
        exact .inr ⟨m, sess, hget, hr.symm, by rw [get_disposeSession, if_pos rfl]⟩
      · exact .inl rfl

theorem tame_disposeIfIdle (m : MessageID) (x : Channel S) : Tame x (x.disposeIfIdle luck m) :=
  disposeIfIdle_keeps (P := Tame x) m x (tame_refl x) (tame_disposeSession luck m .allPeersDone x)

variable {m : MessageID} {sess : Session S}

theorem tame_join (hget : x.sessions.get m = some sess)
    (c : ConnRef) : Tame x (x.put m (join sch c ⟨sess, x.world⟩)) := by
  obtain ⟨routing, obs, hworld⟩ := join_world sch c ⟨sess, x.world⟩
  have hsess := join_sess sch c ⟨sess, x.world⟩
  refine .of_put hget (by rw [hsess]) (by rw [hsess]) (by rw [hsess]) ?_
  rw [hworld]
  exact ⟨rfl, rfl, rfl, rfl, le_succ _⟩

theorem calm_farewell (p : PeerID) (y : Scope S) : Calm y.world (y.farewell p).world := by
  unfold farewell
  split <;> exact ⟨rfl, rfl, rfl, rfl, le_refl _⟩

/-- What dropping a peer leaves of a session. -/
theorem dropped_standing (sch : Scheme S C R P) (p : PeerID) (y : Scope S) :
    (y.handlePeerDropped sch p).sess.ref = y.sess.ref ∧
    (y.handlePeerDropped sch p).sess.messageID = y.sess.messageID ∧
    (y.handlePeerDropped sch p).sess.stage = y.sess.stage ∧
    (y.handlePeerDropped sch p).sess.everHadPeers = y.sess.everHadPeers ∧
    (y.handlePeerDropped sch p).sess.peers = y.sess.peers.del p ∧
    Calm y.world (y.handlePeerDropped sch p).world := by
  obtain ⟨hsess, hworld, hfresh⟩ := handlePeerDropped_spec sch p y
  have href := congrArg ref hsess
  have hmsg := congrArg messageID hsess
  have hstage := congrArg stage hsess
  have hever := congrArg everHadPeers hsess
  have hpeers := congrArg peers hsess
  exact ⟨href, hmsg, hstage, hever, hpeers, (calm_farewell p y).trans (.of_core hworld hfresh)⟩

section

variable (hget : x.sessions.get m = some sess)
include hget

variable (p : PeerID)

theorem tame_dropped : Tame x (x.put m (handlePeerDropped sch p ⟨sess, x.world⟩)) := by
  obtain ⟨href, hmsg, hstage, _, _, hw⟩ := dropped_standing sch p ⟨sess, x.world⟩
  exact .of_put hget href hmsg hstage hw

theorem tame_leave : Tame x (x.leave sch luck m p) := by
  unfold leave onSession
  rw [hget]
  exact (tame_dropped hget p).trans (tame_disposeIfIdle m _)

theorem tame_completed : Tame x (x.put m (handlePeerCompleted sch p ⟨sess, x.world⟩)) := by
  rcases handlePeerCompleted_spec sch p ⟨sess, x.world⟩ with hsame | ⟨sp, _, hsess, hworld, hfresh⟩
  · rw [hsame]
    exact .of_stays hget (.refl _)
  have href := congrArg ref hsess
  have hmsg := congrArg messageID hsess
  have hstage := congrArg stage hsess
  exact .of_put hget href hmsg hstage (.of_core hworld hfresh)

end

end Channel

/-! ## The invariant -/

/-- The chapters of a life, with the number of results under way. -/
inductive Chapter (l : Life) : Nat → Prop
  /-- No decode was started. -/
  | before (hmoves : l.moves = []) (hdecodes : l.decodes = []) (hhandled : l.handled = false)
      (hdelivered : l.delivered = []) : Chapter l 0
  /-- One decode was started, and no result of it was handled. -/
  | decoding {n : Nat} {result : Option Bytes} (hstart : l.start = some .consuming)
      (hmoves : l.moves = [(.consuming, .decoding)]) (hdecodes : l.decodes = [result])
      (hhandled : l.handled = false) (hdelivered : l.delivered = []) (hn : n ≤ 1) : Chapter l n
  /-- The decode failed, or its result came after the session's end. -/
  | dropped {result : Option Bytes} (hstart : l.start = some .consuming)
      (hmoves : l.moves = [(.consuming, .decoding)]) (hdecodes : l.decodes = [result])
      (hhandled : l.handled = true) (hdelivered : l.delivered = []) : Chapter l 0
  | done {payload : Bytes} (hstart : l.start = some .consuming)
      (hmoves : l.moves = [(.consuming, .decoding), (.decoding, .reconstructed)])
      (hdecodes : l.decodes = [some payload]) (hhandled : l.handled = true)
      (hdelivered : l.delivered = [payload]) : Chapter l 0

/-- The stage of a session in the map agrees with its life; a session that decodes waits for one result. -/
def StageFits (w : World S) (sess : Session S) : Prop :=
  match sess.stage with
  | .consuming => (w.life sess.ref).start = some .consuming ∧ (w.life sess.ref).decodes = []
  | .origin => (w.life sess.ref).start = some .origin ∧ (w.life sess.ref).decodes = []
  | .decoding =>
    (w.life sess.ref).moves = [(.consuming, .decoding)] ∧
      ((w.life sess.ref).handled = true → (w.life sess.ref).decodes = [none]) ∧
      ((w.life sess.ref).handled = false → w.ctxDone = false → w.pending sess.ref = 1)
  | .reconstructed => (w.life sess.ref).delivered ≠ []

/-- A result under way is what the decode of its session returned, and carries the message of that session
if it lives. -/
def Belongs (x : Channel S) (d : Decoder) : Prop :=
  (x.world.life d.session).decodes = [d.result] ∧
    ∀ k sess, x.sessions.get k = some sess → sess.ref = d.session → k = d.messageID

structure LifeInv (x : Channel S) : Prop where
  named : ∀ m sess, x.sessions.get m = some sess → sess.messageID = m
  distinct : ∀ m k s t, x.sessions.get m = some s → x.sessions.get k = some t → s.ref = t.ref → m = k
  born : ∀ m sess, x.sessions.get m = some sess → sess.ref < x.world.fresh
  unborn : ∀ r, x.world.fresh ≤ r → (x.world.life r).course = {}
  sessOpen : x.world.ctxDone = false → ∀ m sess, x.sessions.get m = some sess → x.world.sessDone.get sess.ref = none
  ctxOpen : x.world.ctxDone = false → ∀ r, x.world.fresh ≤ r → x.world.sessDone.get r = none
  halted : x.phase ≠ .running → x.world.ctxDone = true
  chapter : ∀ r, Chapter (x.world.life r) (x.world.pending r)
  fits : ∀ m sess, x.sessions.get m = some sess → StageFits x.world sess
  results : ∀ d ∈ x.world.results, Belongs x d

/-- The reason of a removal is no part of a chapter. -/
theorem Chapter.congr {l' : Life} (h : Chapter l n) (hl : l'.course = l.course) : Chapter l' n := by
  obtain ⟨hstart, hmoves, hdecodes, hhandled, hdelivered⟩ := of_course hl
  cases h with
  | before h₁ h₂ h₃ h₄ =>
    exact .before (hmoves.trans h₁) (hdecodes.trans h₂) (hhandled.trans h₃) (hdelivered.trans h₄)
  | decoding h₀ h₁ h₂ h₃ h₄ hn =>
    exact .decoding (hstart.trans h₀) (hmoves.trans h₁) (hdecodes.trans h₂) (hhandled.trans h₃) (hdelivered.trans h₄) hn
  | dropped h₀ h₁ h₂ h₃ h₄ =>
    exact .dropped (hstart.trans h₀) (hmoves.trans h₁) (hdecodes.trans h₂) (hhandled.trans h₃) (hdelivered.trans h₄)
  | done h₀ h₁ h₂ h₃ h₄ =>
    exact .done (hstart.trans h₀) (hmoves.trans h₁) (hdecodes.trans h₂) (hhandled.trans h₃) (hdelivered.trans h₄)

/-- A result may be given up. -/
theorem Chapter.fewer {k : Nat} (h : Chapter l n) (hk : k ≤ n) : Chapter l k := by
  cases h with
  | before h₁ h₂ h₃ h₄ =>
    obtain rfl : k = 0 := by omega
    exact .before h₁ h₂ h₃ h₄
  | decoding h₀ h₁ h₂ h₃ h₄ hn => exact .decoding h₀ h₁ h₂ h₃ h₄ (by omega)
  | dropped h₀ h₁ h₂ h₃ h₄ =>
    obtain rfl : k = 0 := by omega
    exact .dropped h₀ h₁ h₂ h₃ h₄
  | done h₀ h₁ h₂ h₃ h₄ =>
    obtain rfl : k = 0 := by omega
    exact .done h₀ h₁ h₂ h₃ h₄

theorem StageFits.congr {w w' : World S} {s s' : Session S} (h : StageFits w s) (hstage : s'.stage = s.stage)
    (href : s'.ref = s.ref) (hl : (w'.life s.ref).course = (w.life s.ref).course)
    (hpending : w'.ctxDone = false → w.ctxDone = false ∧ w'.pending s.ref = w.pending s.ref) : StageFits w' s' := by
  obtain ⟨hstart, hmoves, hdecodes, hhandled, hdelivered⟩ := of_course hl
  unfold StageFits at h ⊢
  rw [hstage, href, hstart, hmoves, hdecodes, hhandled, hdelivered]
  cases hst : s.stage with
  | consuming | origin | reconstructed =>
    rw [hst] at h
    exact h
  | decoding =>
    rw [hst] at h
    refine ⟨h.1, h.2.1, fun hfalse hdone => ?_⟩
    rw [(hpending hdone).2]
    exact h.2.2 hfalse (hpending hdone).1

theorem Tame.pending (h : Tame x y) (r : SessionRef) : y.world.pending r = x.world.pending r := h.results.countP_eq _

theorem LifeInv.tame (hx : LifeInv x) (h : Tame x y) : LifeInv y := by
  have hlive : ∀ m s', y.sessions.get m = some s' → ∀ k s, x.sessions.get k = some s →
      s.ref = s'.ref → k = m := by
    intro m s' hs' k s hs href
    obtain ⟨s₀, hs₀, href₀, _⟩ := h.sessions m s' hs'
    exact hx.distinct k m s s₀ hs hs₀ (href.trans href₀)
  constructor
  · intro m s' hs'
    obtain ⟨s, hs, _, hmsg, _⟩ := h.sessions m s' hs'
    exact hmsg.trans (hx.named m s hs)
  · intro m k s' t' hs' ht' href
    obtain ⟨s, hs, hsref, _⟩ := h.sessions m s' hs'
    exact hlive k t' ht' m s hs (hsref.symm.trans href)
  · intro m s' hs'
    obtain ⟨s, hs, href, _⟩ := h.sessions m s' hs'
    rw [href]
    exact lt_of_lt_of_le (hx.born m s hs) h.fresh
  · intro r hr
    rw [h.life r]
    exact hx.unborn r (le_trans h.fresh hr)
  · intro hdone m s' hs'
    obtain ⟨s, hs, href, _⟩ := h.sessions m s' hs'
    rcases h.sessDone hdone s'.ref with heq | ⟨k, t, ht, htref, hgone⟩
    · rw [heq, href]
      exact hx.sessOpen (h.ctxDone hdone) m s hs
    · rw [hlive m s' hs' k t ht htref, hs'] at hgone
      cases hgone
  · intro hdone r hr
    rcases h.sessDone hdone r with heq | ⟨k, t, ht, htref, _⟩
    · rw [heq]
      exact hx.ctxOpen (h.ctxDone hdone) r (le_trans h.fresh hr)
    · subst htref
      exact absurd (hx.born k t ht) (not_lt.mpr (le_trans h.fresh hr))
  · exact h.halted hx.halted
  · intro r
    rw [h.pending r]
    exact (hx.chapter r).congr (h.life r)
  · intro m s' hs'
    obtain ⟨s, hs, href, _, hstage⟩ := h.sessions m s' hs'
    exact (hx.fits m s hs).congr hstage href (h.life _) fun hdone => ⟨h.ctxDone hdone, h.pending _⟩
  · intro d hd
    obtain ⟨hdecodes, hmsg⟩ := hx.results d (h.results.mem_iff.mp hd)
    refine ⟨(of_course (h.life d.session)).2.2.1.trans hdecodes, fun k s' hs' href' => ?_⟩
    obtain ⟨s, hs, href, _⟩ := h.sessions k s' hs'
    exact hmsg k s hs (href.symm.trans href')

/-! ## Changes to one life -/

/-- Between `x` and `y` nothing happens to the sessions, except to the one of `r`. -/
structure Focus (r : SessionRef) (x y : Channel S) : Prop where
  sessions : ∀ m s', y.sessions.get m = some s' → ∃ s, x.sessions.get m = some s ∧
    s'.ref = s.ref ∧ s'.messageID = s.messageID ∧ (s.ref ≠ r → s'.stage = s.stage)
  life : ∀ k, k ≠ r → (y.world.life k).course = (x.world.life k).course
  pending : ∀ k, k ≠ r → y.world.pending k = x.world.pending k
  results : ∀ d ∈ y.world.results, d.session ≠ r → d ∈ x.world.results
  sessDone : y.world.sessDone = x.world.sessDone
  ctxDone : y.world.ctxDone = x.world.ctxDone
  phase : y.phase = x.phase
  fresh : y.world.fresh = x.world.fresh

/-- What is left to show of the session the change is about. -/
theorem LifeInv.focus {r : SessionRef} (hx : LifeInv x) (h : Focus r x y)
    (hr : r < x.world.fresh) (hchapter : Chapter (y.world.life r) (y.world.pending r))
    (hfits : ∀ m s, y.sessions.get m = some s → s.ref = r → StageFits y.world s)
    (hresults : ∀ d ∈ y.world.results, d.session = r → Belongs y d) : LifeInv y := by
  constructor
  · intro m s' hs'
    obtain ⟨s, hs, _, hmsg, _⟩ := h.sessions m s' hs'
    exact hmsg.trans (hx.named m s hs)
  · intro m k s' t' hs' ht' href
    obtain ⟨s, hs, hsref, _⟩ := h.sessions m s' hs'
    obtain ⟨t, ht, htref, _⟩ := h.sessions k t' ht'
    exact hx.distinct m k s t hs ht (hsref.symm.trans (href.trans htref))
  · intro m s' hs'
    obtain ⟨s, hs, href, _⟩ := h.sessions m s' hs'
    rw [href, h.fresh]
    exact hx.born m s hs
  · intro k hk
    rw [h.fresh] at hk
    rw [h.life k (ne_of_gt (lt_of_lt_of_le hr hk))]
    exact hx.unborn k hk
  · intro hdone m s' hs'
    obtain ⟨s, hs, href, _⟩ := h.sessions m s' hs'
    rw [h.sessDone, href]
    exact hx.sessOpen (h.ctxDone ▸ hdone) m s hs
  · intro hdone k hk
    rw [h.sessDone]
    exact hx.ctxOpen (h.ctxDone ▸ hdone) k (h.fresh ▸ hk)
  · rw [h.phase, h.ctxDone]
    exact hx.halted
  · intro k
    by_cases hk : k = r
    · exact hk ▸ hchapter
    · rw [h.pending k hk]
      exact (hx.chapter k).congr (h.life k hk)
  · intro m s' hs'
    obtain ⟨s, hs, href, _, hstage⟩ := h.sessions m s' hs'
    by_cases hk : s.ref = r
    · exact hfits m s' hs' (href.trans hk)
    · exact (hx.fits m s hs).congr (hstage hk) href (h.life _ hk) fun hdone =>
        ⟨h.ctxDone ▸ hdone, h.pending _ hk⟩
  · intro d hd
    by_cases hk : d.session = r
    · exact hresults d hd hk
    obtain ⟨hdecodes, hmsg⟩ := hx.results d (h.results d hd hk)
    refine ⟨(of_course (h.life _ hk)).2.2.1.trans hdecodes, fun m s' hs' href' => ?_⟩
    obtain ⟨s, hs, href, _⟩ := h.sessions m s' hs'
    exact hmsg m s hs (href.symm.trans href')

/-- Results are given up, but none that a session still waits for. -/
theorem LifeInv.give_up (hx : LifeInv x) (hsessions : y.sessions = x.sessions)
    (hlife : y.world.life = x.world.life) (hsess : y.world.sessDone = x.world.sessDone)
    (hdone : y.world.ctxDone = x.world.ctxDone) (hfresh : y.world.fresh = x.world.fresh)
    (hhalted : y.phase ≠ .running → x.phase ≠ .running) (hresults : y.world.results.Sublist x.world.results)
    (hawaited : x.world.ctxDone = false → ∀ m s, x.sessions.get m = some s →
      y.world.pending s.ref = x.world.pending s.ref) : LifeInv y := by
  obtain ⟨h₁, h₂, h₃, h₄, h₅, h₆, h₇, hchapter, hfits, hbelongs⟩ := hx
  rw [← hsessions] at h₁ h₂ h₃ h₅ hawaited
  rw [← hfresh] at h₃ h₄ h₆
  rw [← hlife] at h₄
  rw [← hdone, ← hsess] at h₅ h₆
  refine ⟨h₁, h₂, h₃, h₄, h₅, h₆, fun hp => hdone.trans (h₇ (hhalted hp)), fun r => ?_,
    fun m s hs => ?_, fun d hd => ?_⟩
  · rw [hlife]
    exact (hchapter r).fewer (hresults.countP_le)
  · refine (hfits m s (hsessions ▸ hs)).congr rfl rfl (by rw [hlife]) fun hfalse => ?_
    rw [hdone] at hfalse
    exact ⟨hfalse, hawaited hfalse m s hs⟩
  · have hd := hbelongs d (hresults.subset hd)
    unfold Belongs at hd ⊢
    rwa [hlife, hsessions]

namespace Channel

variable {sch : Scheme S C R P} {luck : Nat → Chance} {evt : Event S} {x : Channel S}

/-! ## The moves that matter -/

/-- What the start of a decode writes into a life. -/
def startLife (result : Option Bytes) (l : Life) : Life :=
  { l with moves := l.moves ++ [(.consuming, .decoding)], decodes := l.decodes ++ [result] }

variable {l : Life} {n : Nat} {m : MessageID} {rest : List (Event S)} {d : Decoder}

theorem chapter_start (h : Chapter l n) (hdecodes : l.decodes = [])
    (hstart : l.start = some .consuming) (result : Option Bytes) :
    n = 0 ∧ l.handled = false ∧ (startLife result l).moves = [(.consuming, .decoding)] ∧
      (startLife result l).decodes = [result] ∧ Chapter (startLife result l) 1 := by
  cases h with
  | before h₁ h₂ h₃ h₄ =>
    have hmoves : (startLife result l).moves = [(.consuming, .decoding)] := by simp [startLife, h₁]
    have hresult : (startLife result l).decodes = [result] := by simp [startLife, h₂]
    exact ⟨rfl, h₃, hmoves, hresult, .decoding hstart hmoves hresult h₃ h₄ (le_refl 1)⟩
  | decoding _ _ h₂ _ _ _ | dropped _ _ h₂ _ _ | done _ _ h₂ _ _ =>
    rw [hdecodes] at h₂
    cases h₂

/-- The start of a decode is written into the life of its session, and into no other. -/
theorem life_startDecode (sch : Scheme S C R P) (luck : Nat → Chance) {sess : Session S}
    (hstage : sess.stage = .consuming) (w : World S) :
    (startDecode sch luck ⟨sess, w⟩).world.fresh = w.fresh ∧
    (startDecode sch luck ⟨sess, w⟩).world.life = update w.life sess.ref
      (startLife (sch.methods.decode sess.strategy) (w.life sess.ref)) := by
  obtain ⟨w', hcalled, hstart⟩ := startDecode_spec sch luck ⟨sess, w⟩
  rw [hstart, hstage]
  refine ⟨hcalled.fresh, ?_⟩
  rw [← (Calm.of_called hcalled).life]
  rfl

theorem lifeInv_start {sess : Session S} (hx : LifeInv x)
    (hget : x.sessions.get m = some sess) (hstage : sess.stage = .consuming) :
    LifeInv (x.put m (startDecode sch luck ⟨sess, x.world⟩)) := by
  obtain ⟨w, hcalled, hstart⟩ := startDecode_spec sch luck ⟨sess, x.world⟩
  have hw := Calm.of_called hcalled
  have hfits := hx.fits m sess hget
  unfold StageFits at hfits
  rw [hstage] at hfits
  let result := sch.methods.decode sess.strategy
  obtain ⟨hpending, hhandled, hmoves, hdecodes, hchapter⟩ :=
    chapter_start (hx.chapter sess.ref) hfits.2 hfits.1 result
  rw [hstart, hstage]
  let y := x.put m ⟨{ sess with stage := .decoding }, { w.updLife sess.ref (startLife result) with
      decoders := w.decoders ++ [⟨sess.ref, sess.messageID, result⟩] }⟩
  have hlife : y.world.life sess.ref = startLife result (x.world.life sess.ref) := by
    rw [← hw.life]
    exact update_self ..
  have hresults : y.world.results.Perm (⟨sess.ref, sess.messageID, result⟩ :: x.world.results) := by
    rw [← hw.results]
    show ((w.decoders ++ [_]) ++ w.inbox.filterMap Event.result).Perm _
    rw [append_assoc]
    exact perm_middle
  have hpend : ∀ k, y.world.pending k = x.world.pending k + if sess.ref = k then 1 else 0 := by
    intro k
    rw [pending, hresults.countP_eq, countP_cons]
    simp [pending]
  have hlive : ∀ k s', y.sessions.get k = some s' → s'.ref = sess.ref → k = m := by
    intro k s' hs' href
    rw [put_sessions] at hs'
    split at hs'
    · assumption
    · exact hx.distinct k m s' sess hs' hget href
  show LifeInv y
  refine hx.focus (r := sess.ref) ⟨fun k s' hs' => ?_, fun k hk => ?_, fun k hk => ?_,
    fun d hd hne => ?_, hw.sessDone, hw.ctxDone, rfl, hcalled.fresh⟩ (hx.born m sess hget) ?_
    (fun k s' hs' href => ?_) fun d hd href => ⟨?_, fun k s' hs' href' => ?_⟩
  · rw [put_sessions] at hs'
    split at hs'
    · rename_i hk
      cases hs'
      exact ⟨sess, hk ▸ hget, rfl, rfl, fun h => absurd rfl h⟩
    · exact ⟨s', hs', rfl, rfl, fun _ => rfl⟩
  · rw [← hw.life]
    exact congrArg course (update_of_ne hk _ _)
  · rw [hpend, if_neg (Ne.symm hk)]
    rfl
  · rcases mem_cons.mp (hresults.mem_iff.mp hd) with rfl | hd
    · exact absurd rfl hne
    · exact hd
  · rw [hlife, hpend, hpending, if_pos rfl]
    exact hchapter
  · have hk := hlive k s' hs' href
    rw [put_sessions, if_pos hk] at hs'
    cases hs'
    refine ⟨?_, fun h => ?_, fun _ _ => ?_⟩
    · show (y.world.life sess.ref).moves = _
      rw [hlife, hmoves]
    · have hfalse : (y.world.life sess.ref).handled = false := by
        rw [hlife]
        exact hhandled
      exact absurd (hfalse.symm.trans h) (by decide)
    · show y.world.pending sess.ref = 1
      rw [hpend, hpending, if_pos rfl]
  · rcases mem_cons.mp (hresults.mem_iff.mp hd) with rfl | hd
    · rw [hlife, hdecodes]
    have hnone := (hx.results d hd).1
    rw [href, hfits.2] at hnone
    cases hnone
  · obtain rfl := hlive k s' hs' (href'.trans href)
    rcases mem_cons.mp (hresults.mem_iff.mp hd) with rfl | hd
    · exact (hx.named k sess hget).symm
    · exact (hx.results d hd).2 k sess hget href.symm

/-- A life that has not begun. -/
theorem chapter_unborn (h : Chapter l n) (hl : l.course = {}) (st : Stage) :
    l.decodes = [] ∧ Chapter { l with start := some st } n := by
  have hmoves : l.moves = [] := (of_course (l := {}) hl).2.1
  cases h with
  | before h₁ h₂ h₃ h₄ => exact ⟨h₂, .before h₁ h₂ h₃ h₄⟩
  | decoding _ h _ _ _ _ | dropped _ h _ _ _ | done _ h _ _ _ =>
    rw [hmoves] at h
    cases h

theorem lifeInv_begin (hx : LifeInv x) (preamble : Bytes) (origin : Bool)
    (strategy : S) : LifeInv (x.begin (x.newSession m preamble origin strategy)) := by
  let sess := x.newSession m preamble origin strategy
  let y := x.begin sess
  obtain ⟨hdecodes, hchapter⟩ := chapter_unborn (hx.chapter x.world.fresh) (hx.unborn _ (le_refl _)) sess.stage
  have hself : y.world.life x.world.fresh =
      { x.world.life x.world.fresh with start := some sess.stage } := update_self ..
  have hother : ∀ r, r ≠ x.world.fresh → y.world.life r = x.world.life r :=
    fun r hr => update_of_ne hr _ _
  have hsessions : ∀ k s, y.sessions.get k = some s → (k = m ∧ s = sess) ∨
      x.sessions.get k = some s ∧ s.ref < x.world.fresh := by
    intro k s hs
    rw [begin_sessions] at hs
    split at hs
    · rename_i hk
      exact .inl ⟨hk, (Option.some.inj hs).symm⟩
    · exact .inr ⟨hs, hx.born k s hs⟩
  show LifeInv y
  constructor
  · intro k s hs
    rcases hsessions k s hs with ⟨rfl, rfl⟩ | ⟨hs, _⟩
    · rfl
    · exact hx.named k s hs
  · intro k k' s t hs ht href
    rcases hsessions k s hs with ⟨rfl, rfl⟩ | ⟨hs, hlt⟩ <;>
      rcases hsessions k' t ht with ⟨rfl, rfl⟩ | ⟨ht, hlt'⟩
    · rfl
    · exact absurd href.symm (Nat.ne_of_lt hlt')
    · exact absurd href (Nat.ne_of_lt hlt)
    · exact hx.distinct k k' s t hs ht href
  · intro k s hs
    rcases hsessions k s hs with ⟨rfl, rfl⟩ | ⟨_, hlt⟩
    · exact lt_succ_self _
    · exact lt_succ_of_lt hlt
  · intro r hr
    rw [hother r (ne_of_gt hr)]
    exact hx.unborn r (le_of_succ_le hr)
  · intro hdone k s hs
    rcases hsessions k s hs with ⟨rfl, rfl⟩ | ⟨hs, _⟩
    · exact hx.ctxOpen hdone _ (le_refl _)
    · exact hx.sessOpen hdone k s hs
  · intro hdone r hr
    exact hx.ctxOpen hdone r (le_of_succ_le hr)
  · exact hx.halted
  · intro r
    by_cases hr : r = x.world.fresh
    · subst hr
      rw [hself]
      exact hchapter
    · rw [hother r hr]
      exact hx.chapter r
  · intro k s hs
    rcases hsessions k s hs with ⟨rfl, rfl⟩ | ⟨hs, hlt⟩
    · show StageFits y.world sess
      have hnew : y.world.life sess.ref = _ := hself
      cases origin with
      | false | true => exact ⟨by rw [hnew]; rfl, by rw [hnew]; exact hdecodes⟩
    · refine (hx.fits k s hs).congr rfl rfl ?_ fun hdone => ⟨hdone, rfl⟩
      rw [hother _ (Nat.ne_of_lt hlt)]
  · intro d hd
    obtain ⟨hd, hlive⟩ := hx.results d hd
    have hne : d.session ≠ x.world.fresh := by
      intro h
      rw [h, hdecodes] at hd
      cases hd
    refine ⟨by rw [hother _ hne]; exact hd, fun k s hs href => ?_⟩
    rcases hsessions k s hs with ⟨rfl, rfl⟩ | ⟨hs, _⟩
    · exact absurd href.symm hne
    · exact hlive k s hs href

/-- **No move of a handler breaks the course of a life.** -/
theorem lifeInv_micro (hx : LifeInv x) (h : Micro sch luck evt x y) : LifeInv y := by
  cases h with
  | aside h => exact hx.tame (tame_aside h)
  | member _ | unmember _ => exact hx.tame (.of_calm rfl rfl (.refl _))
  | act hget h => exact hx.tame (.of_stays hget h)
  | start hget hstage _ => exact lifeInv_start hx hget hstage
  | join hget _ _ _ => exact hx.tame (tame_join hget _)
  | leave hget _ => exact hx.tame (tame_leave hget _)
  | complete hget _ => exact hx.tame ((tame_completed hget _).trans (tame_disposeIfIdle _ _))
  | dispose _ _ => exact hx.tame (tame_disposeSession ..)
  | begin _ _ => exact lifeInv_begin hx _ _ _

theorem lifeInv_micros (hx : LifeInv x) (h : Micros sch luck evt x y) : LifeInv y := by
  induction h with
  | refl => exact hx
  | tail _ hmove ih => exact lifeInv_micro ih hmove

/-! ## The result of a decode -/

/-- The inbox without its head, and the life of the result's session marked. -/
def popDecoded (sender : SessionRef) (rest : List (Event S)) (x : Channel S) : Channel S :=
  x.onWorld fun w =>
    ({ w with inbox := rest } : World S).updLife sender fun l => { l with handled := true }

variable {payload : Option Bytes}

theorem results_pop {sender : SessionRef} {w : World S} (hinbox : w.inbox = .decoded m payload sender :: rest) :
    w.results.Perm (⟨sender, m, payload⟩ :: ({ w with inbox := rest } : World S).results) := by
  unfold results
  rw [hinbox]
  exact perm_middle

/-- A life whose result is taken from the inbox. -/
theorem chapter_pop (h : Chapter l (n + 1)) :
    n = 0 ∧ l.start = some .consuming ∧ l.moves = [(.consuming, .decoding)] ∧ l.handled = false ∧ l.delivered = [] := by
  cases h with
  | decoding h₀ h₁ _ h₃ h₄ hn => exact ⟨by omega, h₀, h₁, h₃, h₄⟩

section Pop

variable {m : MessageID} {payload : Option Bytes} {sender : SessionRef} {rest : List (Event S)}

/-- What is known of the session whose result is the head of the inbox. -/
structure Due (x : Channel S) (m : MessageID) (payload : Option Bytes) (sender : SessionRef)
    (rest : List (Event S)) : Prop where
  born : sender < x.world.fresh
  pending : ∀ k, x.world.pending k = ({ x.world with inbox := rest } : World S).pending k + if sender = k then 1 else 0
  none : ({ x.world with inbox := rest } : World S).pending sender = 0
  start : (x.world.life sender).start = some .consuming
  moves : (x.world.life sender).moves = [(.consuming, .decoding)]
  decodes : (x.world.life sender).decodes = [payload]
  handled : (x.world.life sender).handled = false
  delivered : (x.world.life sender).delivered = []
  /-- If the session lives it is the one of the message, and decodes. -/
  live : ∀ k s, x.sessions.get k = some s → s.ref = sender → k = m ∧ s.stage = .decoding

theorem due_of_head (hx : LifeInv x) (hinbox : x.world.inbox = .decoded m payload sender :: rest) :
    Due x m payload sender rest := by
  have hresults := results_pop hinbox
  have hpending : ∀ k, x.world.pending k =
      ({ x.world with inbox := rest } : World S).pending k + if sender = k then 1 else 0 := by
    intro k
    rw [pending, hresults.countP_eq, countP_cons]
    simp [pending]
  obtain ⟨hdecodes, hmsg⟩ := hx.results ⟨sender, m, payload⟩ (hresults.mem_iff.mpr mem_cons_self)
  have hchapter := hx.chapter sender
  rw [hpending, if_pos rfl] at hchapter
  obtain ⟨hnone, hstart, hmoves, hhandled, hdelivered⟩ := chapter_pop hchapter
  refine ⟨?_, hpending, hnone, hstart, hmoves, hdecodes, hhandled, hdelivered, fun k s hs href => ?_⟩
  · by_contra hborn
    have hcourse := hx.unborn sender (not_lt.mp hborn)
    have hempty := (of_course (l := {}) hcourse).2.1
    rw [hmoves] at hempty
    cases hempty
  refine ⟨hmsg k s hs href, ?_⟩
  have hfits := hx.fits k s hs
  unfold StageFits at hfits
  rw [href] at hfits
  have hdec : (x.world.life sender).decodes = [payload] := hdecodes
  cases hst : s.stage with
  | decoding => rfl
  | consuming | origin =>
    rw [hst] at hfits
    rw [hfits.2] at hdec
    cases hdec
  | reconstructed =>
    rw [hst] at hfits
    exact absurd hdelivered hfits

/-- The result is marked as handled; no payload is left behind in a session that lives. -/
theorem lifeInv_pop (hx : LifeInv x) (hinbox : x.world.inbox = .decoded m payload sender :: rest)
    (hgone : payload = none ∨ ∀ k s, x.sessions.get k = some s → s.ref ≠ sender) :
    LifeInv (x.popDecoded sender rest) := by
  have hdue := due_of_head hx hinbox
  have hresults := results_pop hinbox
  have hself : (x.popDecoded sender rest).world.life sender =
      { x.world.life sender with handled := true } := update_self ..
  refine hx.focus (r := sender) ⟨fun k s hs => ⟨s, hs, rfl, rfl, fun _ => rfl⟩, fun k hk => ?_,
    fun k hk => ?_, fun d hd _ => ?_, rfl, rfl, rfl, rfl⟩ hdue.born ?_ (fun k s hs href => ?_)
    fun d hd href => ?_
  · exact congrArg course (update_of_ne hk _ _)
  · rw [hdue.pending k, if_neg (Ne.symm hk)]
    rfl
  · exact hresults.mem_iff.mpr (mem_cons_of_mem _ hd)
  · rw [hself]
    show Chapter _ (({ x.world with inbox := rest } : World S).pending sender)
    rw [hdue.none]
    exact .dropped hdue.start hdue.moves hdue.decodes rfl hdue.delivered
  · rcases hgone with rfl | hgone
    · have hstage := (hdue.live k s hs href).2
      unfold StageFits
      rw [hstage, href, hself]
      exact ⟨hdue.moves, fun _ => hdue.decodes, fun h => by cases h⟩
    · exact absurd href (hgone k s hs)
  · have hzero := hdue.none
    rw [pending, countP_eq_zero] at hzero
    exact absurd (by simpa using href) (hzero d hd)

/-- A delivery concerns the subscriber and the observer only. -/
theorem deliverMessage_spec (m : MessageID) (payload : Bytes) (x : Channel S) :
    (x.deliverMessage m payload).sessions = x.sessions ∧
    (x.deliverMessage m payload).members = x.members ∧
    (x.deliverMessage m payload).phase = x.phase ∧
    (x.deliverMessage m payload).world = x.world.observe (.sessionDecoded m) := by
  unfold deliverMessage
  dsimp only
  split
  · exact ⟨rfl, rfl, rfl, rfl⟩
  · split <;> exact ⟨rfl, rfl, rfl, rfl⟩

/-- What the delivery of its message writes into a life. -/
def doneLife (st : Stage) (payload : Bytes) (l : Life) : Life :=
  { l with moves := l.moves ++ [(st, .reconstructed)], delivered := l.delivered ++ [payload] }

/-- The session is reconstructed, and then disposed if it has nothing left to do. -/
theorem reconstruct_spec (luck : Nat → Chance) (m : MessageID) (payload : Bytes) (sess : Session S)
    (x : Channel S) :
    ∃ y : Channel S, x.reconstruct luck m payload sess = y.disposeIfIdle luck m ∧
      y.sessions = x.sessions.set m { sess with stage := .reconstructed } ∧
      y.members = x.members ∧ y.phase = x.phase ∧
      y.world = (x.world.observe (.sessionDecoded m)).updLife sess.ref (doneLife sess.stage payload) := by
  obtain ⟨hsessions, hmembers, hphase, hworld⟩ := deliverMessage_spec m payload x
  refine ⟨_, rfl, ?_, hmembers, hphase, ?_⟩
  · show Map.set (x.deliverMessage m payload).sessions m _ = _
    rw [hsessions]
  · show updLife sess.ref (doneLife sess.stage payload) (x.deliverMessage m payload).world = _
    rw [hworld]

/-- The channel after a session took a result, before it is disposed if idle. -/
structure Done (x y : Channel S) (m : MessageID) (p : Bytes) (sess : Session S)
    (rest : List (Event S)) : Prop where
  sessions : y.sessions = x.sessions.set m { sess with stage := .reconstructed }
  phase : y.phase = x.phase
  world : y.world = ((x.popDecoded sess.ref rest).world.observe (.sessionDecoded m)).updLife sess.ref
    (doneLife sess.stage p)

variable {sess : Session S}

theorem Done.life {p : Bytes} (h : Done x y m p sess rest) :
    y.world.life sess.ref = doneLife sess.stage p { x.world.life sess.ref with handled := true } ∧
      ∀ k, k ≠ sess.ref → y.world.life k = x.world.life k := by
  rw [h.world]
  constructor
  · simp [World.updLife, World.observe, popDecoded, onWorld]
  · intro k hk
    simp [World.updLife, World.observe, popDecoded, onWorld, hk]

/-- A session takes the result of its own decode. -/
theorem lifeInv_done {p : Bytes} (hx : LifeInv x)
    (hinbox : x.world.inbox = .decoded m (some p) sess.ref :: rest)
    (hget : x.sessions.get m = some sess) (h : Done x y m p sess rest) : LifeInv y := by
  have hdue := due_of_head hx hinbox
  have hstage := (hdue.live m sess hget rfl).2
  obtain ⟨hself, hother⟩ := h.life
  obtain ⟨hsessions, hphase, hworld⟩ := h
  have hresults : y.world.results = ({ x.world with inbox := rest } : World S).results := by
    rw [hworld]
    rfl
  have hpending : ∀ k, y.world.pending k = ({ x.world with inbox := rest } : World S).pending k := by
    intro k
    rw [pending, hresults]
    rfl
  have hlive : ∀ k s, y.sessions.get k = some s →
      (k = m ∧ s = { sess with stage := .reconstructed }) ∨ x.sessions.get k = some s ∧ k ≠ m := by
    intro k s hs
    rw [hsessions, Map.get_set] at hs
    split at hs
    · rename_i hk
      exact .inl ⟨hk, (Option.some.inj hs).symm⟩
    · rename_i hk
      exact .inr ⟨hs, hk⟩
  refine hx.focus (r := sess.ref) ⟨fun k s hs => ?_, fun k hk => by rw [hother k hk], fun k hk => ?_,
    fun d hd _ => ?_, by rw [hworld]; rfl, by rw [hworld]; rfl, hphase, by rw [hworld]; rfl⟩
    hdue.born ?_ (fun k s hs hk => ?_) fun d hd hk => ?_
  · rcases hlive k s hs with ⟨rfl, rfl⟩ | ⟨hs, _⟩
    · exact ⟨sess, hget, rfl, rfl, fun h => absurd rfl h⟩
    · exact ⟨s, hs, rfl, rfl, fun _ => rfl⟩
  · rw [hpending, hdue.pending k, if_neg (Ne.symm hk)]
    rfl
  · rw [hresults] at hd
    exact (results_pop hinbox).mem_iff.mpr (mem_cons_of_mem _ hd)
  · rw [hself, hpending, hdue.none, hstage]
    exact .done hdue.start (by simp [doneLife, hdue.moves]) hdue.decodes rfl
      (by simp [doneLife, hdue.delivered])
  · rcases hlive k s hs with ⟨rfl, rfl⟩ | ⟨hs, hne⟩
    · show (y.world.life sess.ref).delivered ≠ []
      rw [hself]
      simp [doneLife]
    · exact absurd (hx.distinct k m s sess hs hget hk) hne
  · have hzero := hdue.none
    rw [pending, countP_eq_zero] at hzero
    rw [hresults] at hd
    exact absurd (by simpa using hk) (hzero d hd)

end Pop

/-! ## The steps -/

/-- A successful result that is due finds, at its message, no unfinished session but its own. -/
def OwnResult (x : Channel S) (op : Op S) : Prop :=
  x.onDue (fun
    | .decoded m (some _) sender =>
      decide (∀ sess ∈ x.sessions.get m, sess.stage < .reconstructed → sess.ref = sender)
    | _ => true) op = true

theorem tame_onWorld {f : World S → World S} (h : Calm x.world (f x.world)) : Tame x (x.onWorld f) := .of_calm rfl rfl h

theorem tame_pop (hinbox : x.world.inbox = evt :: rest)
    (hevt : evt.result = none) : Tame x (x.onWorld fun w => { w with inbox := rest }) := by
  refine tame_onWorld ⟨rfl, ?_, rfl, rfl, le_refl _⟩
  show x.world.decoders ++ rest.filterMap result = _
  simp [results, hinbox, hevt]

theorem tame_onSession {f : Scope S → Scope S} (hf : ∀ y, Stays y (f y))
    (x : Channel S) : Tame x (x.onSession m f) := by
  unfold onSession
  split
  · exact tame_refl x
  · rename_i sess hget
    exact .of_stays hget (hf _)

/-- **A result in its turn** is dropped, or taken by its own session. -/
theorem handleDecoded_keeps {P : Channel S → Prop} {sender : SessionRef} (hx : LifeInv x)
    (hinbox : x.world.inbox = .decoded m payload sender :: rest) (hhead : x.due = some (.decoded m payload sender))
    (hown : OwnResult x .next)
    (hpop : (payload = none ∨ ∀ k s, x.sessions.get k = some s → s.ref ≠ sender) → P (x.popDecoded sender rest))
    (hobserve : ∀ {y : Channel S} (o : Observation), P y → P (y.observe o))
    (htaken : ∀ {p sess y}, payload = some p → sess.ref = sender → x.sessions.get m = some sess →
      Done x y m p sess rest → P (y.disposeIfIdle luck m)) :
    P ((x.onWorld fun w => { w with inbox := rest }).handleDecoded luck m payload sender) := by
  have hdue := due_of_head hx hinbox
  show P ((x.popDecoded sender rest).takeResult luck m payload)
  unfold takeResult
  split
  · rename_i hget
    refine hpop (.inr fun k s hs href => ?_)
    rw [(hdue.live k s hs href).1] at hs
    exact absurd (hget.symm.trans hs) (by simp)
  rename_i sess hget
  split
  · rename_i hstage
    split
    · exact hobserve _ (hpop (.inl rfl))
    rename_i p
    simp only [OwnResult, onDue, hhead, Option.all_some, decide_eq_true_eq] at hown
    have href := hown sess hget hstage
    obtain ⟨y, hy, hsessions, _, hphase, hworld⟩ := reconstruct_spec luck m p sess (x.popDecoded sender rest)
    rw [hy]
    exact htaken rfl href hget ⟨hsessions, hphase, href ▸ hworld⟩
  · rename_i hstage
    refine hpop (.inr fun k s hs href => ?_)
    obtain ⟨rfl, hdecoding⟩ := hdue.live k s hs href
    cases hget.symm.trans hs
    rw [hdecoding] at hstage
    exact absurd (by decide) hstage

theorem lifeInv_next (hx : LifeInv x) (hok : OwnResult x .next) : LifeInv (x.next sch luck) := by
  cases hdue : x.due with
  | none => rwa [next_of_none hdue]
  | some evt =>
    obtain ⟨rest, hinbox, _, hnext⟩ := next_of_some sch luck hdue
    rw [hnext]
    cases hres : IsResult evt with
    | false =>
      have hevt : evt.result = none := by
        cases evt <;> first | rfl | cases hres
      exact lifeInv_micros (hx.tame (tame_pop hinbox hevt)) (micros_handle hres _)
    | true =>
      cases evt with
      | chunkSent m peer handle err size sender =>
        exact (hx.tame (tame_pop hinbox rfl)).tame (tame_onSession
          (fun y => (quiet_handleSendComplete sch luck peer handle err size sender.2 y).toStays) _)
      | decoded m payload sender =>
        refine handleDecoded_keeps hx hinbox hdue hok (lifeInv_pop hx hinbox)
          (fun o hy => hy.tame (tame_aside (aside_observe o _))) ?_
        rintro p sess y rfl rfl hget hdone
        exact (lifeInv_done hx hinbox hget hdone).tame (tame_disposeIfIdle m y)
      | _ => cases hres

theorem tame_close (hdone : x.world.ctxDone = true) : Tame x (x.onSession m (Close luck)) := by
  unfold onSession
  split
  · exact tame_refl x
  rename_i sess hget
  obtain ⟨w, hcalled, hcore, hfresh⟩ := closeWithCode_world luck .unspecified ⟨sess, x.world⟩
  have hw := Calm.of_called hcalled
  obtain ⟨hlife, hresults, _, hctx, _⟩ :=
    Calm.of_core hcore (le_of_eq (hcalled.fresh.trans hfresh.symm))
  have hctx' : (Close luck ⟨sess, x.world⟩).world.ctxDone = true :=
    hctx.trans (hw.ctxDone.trans hdone)
  refine ⟨fun k s' hs' => ?_, fun r => ?_, .of_eq (hresults.trans hw.results), fun h => ?_,
    fun h => ?_, fun _ _ => hctx', le_of_eq hfresh.symm⟩
  · rw [put_sessions] at hs'
    split at hs'
    · rename_i hk
      cases hs'
      exact ⟨sess, hk ▸ hget, rfl, rfl, rfl⟩
    · exact ⟨s', hs', rfl, rfl, rfl⟩
  · rw [← hw.life]
    exact congrArg course (congrFun hlife r)
  · exact absurd (hctx'.symm.trans h) (by decide)
  · exact absurd (hctx'.symm.trans h) (by decide)

theorem tame_closeAll (x : Channel S) : Tame x (x.closeAll luck) := by
  have hloop : ∀ (ms : List MessageID) (x : Channel S), x.world.ctxDone = true →
      Tame x (ms.foldl (fun x m => x.onSession m (Close luck)) x) := by
    intro ms
    induction ms with
    | nil => exact fun x _ => tame_refl x
    | cons m ms ih =>
      intro x hdone
      have hclose : Tame x (x.onSession m (Close luck)) := tame_close hdone
      exact hclose.trans (ih _ (hclose.ctxDone_true hdone))
  unfold closeAll
  split
  · rename_i hready
    have hdone : x.world.ctxDone = true := ((Bool.and_eq_true _ _).mp hready).2
    have hsessions : Tame x (x.forSessions luck fun m x => x.onSession m (Close luck)) :=
      (tame_aside (aside_turn x)).trans (hloop _ _ hdone)
    have hall := hsessions.trans (tame_aside (aside_forParked luck
      (fun _ group x => aside_cancelStreams group.streams .unspecified x) _))
    exact ⟨hall.sessions, hall.life, hall.results, hall.sessDone, hall.ctxDone,
      fun _ _ => hall.ctxDone_true hdone, hall.fresh⟩
  · exact tame_refl x

theorem lifeInv_finish (hx : LifeInv x) : LifeInv x.finish := by
  obtain heq | ⟨hphase, _, streams, _, heq⟩ := x.finish_cases
  · rw [heq]
    exact hx
  rw [heq]
  have hhalted : x.phase ≠ .running := by rw [hphase]; decide
  have hstreams := tame_aside (aside_cancelStreams streams .unspecified x)
  refine (hx.tame hstreams).give_up rfl rfl rfl rfl rfl (fun _ => hhalted) ?_ fun hdone => ?_
  · exact Sublist.append_left (nil_sublist _) _
  · exact absurd (hx.halted hhalted) (by rw [hstreams.ctxDone hdone]; decide)

theorem results_erase {w : World S} (hd : d ∈ w.decoders) :
    ({ w with decoders := w.decoders.erase d } : World S).results.Sublist w.results ∧
      w.results.Perm (d :: ({ w with decoders := w.decoders.erase d } : World S).results) :=
  ⟨erase_sublist.append_right _, (perm_cons_erase hd).append_right _⟩

theorem lifeInv_quit (hx : LifeInv x) (hd : d ∈ x.world.decoders) (hended : x.world.ended d.session = true) :
    LifeInv (x.onWorld fun w => { w with decoders := w.decoders.erase d }) := by
  obtain ⟨hsub, hperm⟩ := results_erase hd
  refine hx.give_up rfl rfl rfl rfl rfl id hsub fun hdone m s hs => ?_
  -- a session that lives has not ended
  have hopen := hx.sessOpen hdone m s hs
  have hne : (d.session == s.ref) = false := by
    rw [beq_eq_false_iff_ne]
    rintro heq
    rw [ended, hdone, heq, hopen] at hended
    exact absurd hended (by decide)
  show _ = x.world.results.countP (·.session == s.ref)
  rw [hperm.countP_eq, countP_cons, hne]
  rfl

theorem tame_decoded (hd : d ∈ x.world.decoders) : Tame x (x.onWorld fun w => { w with
    inbox := w.inbox ++ [.decoded d.messageID d.result d.session]
    decoders := w.decoders.erase d }) := by
  refine ⟨fun m s hs => ⟨s, hs, rfl, rfl, rfl⟩, fun _ => rfl, ?_, fun _ _ => .inl rfl, fun h => h,
    fun h => h, le_refl _⟩
  -- the result moves from the decoder to the inbox
  show (x.world.decoders.erase d ++ (x.world.inbox ++ [decoded d.messageID d.result d.session]).filterMap result).Perm _
  rw [filterMap_append]
  refine Perm.trans ?_ (results_erase hd).2.symm
  have hcomm : (x.world.inbox.filterMap result ++ [d]).Perm ([d] ++ x.world.inbox.filterMap result) := perm_append_comm
  exact (hcomm.append_left _).trans perm_middle

/-- An event is sent that brings no result. -/
theorem calm_append (evt : Event S) (hevt : evt.result = none) (w : World S) :
    Calm w { w with inbox := w.inbox ++ [evt] } := by
  refine ⟨rfl, ?_, rfl, rfl, le_refl _⟩
  show w.decoders ++ (w.inbox ++ [evt]).filterMap result = _
  simp [results, hevt]

/-- **One step** of the channel and its surroundings keeps the lives in order. -/
theorem lifeInv_step (op : Op S) (hx : LifeInv x) (hok : OwnResult x op) : LifeInv (x.step sch luck op) := by
  by_cases hnext : op = .next
  · subst hnext
    exact lifeInv_next hx hok
  by_cases hclose : op = .closeAll
  · subst hclose
    exact hx.tame (tame_closeAll x)
  by_cases hfinish : op = .finish
  · subst hfinish
    exact lifeInv_finish hx
  have hbeat := beat_step sch luck hnext hclose hfinish x
  generalize x.step sch luck op = y at hbeat ⊢
  cases hbeat with
  | rest => exact hx
  | clock hctx =>
    refine hx.tame ⟨fun m s hs => ⟨s, hs, rfl, rfl, rfl⟩, fun _ => rfl, .refl _, fun _ _ => .inl rfl, fun h => ?_,
      fun hhalt hp => hctx (hhalt hp), le_refl _⟩
    exact Bool.eq_false_iff.mpr fun hdone => absurd ((hctx hdone).symm.trans h) (by decide)
  | @post evt _ _ _ _ hresult _ =>
    have hevt : evt.result = none := by
      cases evt with
      | decoded m payload sender => exact absurd rfl (hresult m payload sender)
      | _ => rfl
    have hcalm := calm_append evt hevt x.world
    exact hx.tame (tame_onWorld ⟨hcalm.life, hcalm.results, rfl, rfl, le_refl _⟩)
  | decoded hd => exact hx.tame (tame_decoded hd)
  | quit hd hended => exact lifeInv_quit hx hd hended
  | conns _ hfresh => exact hx.tame (tame_onWorld ⟨rfl, rfl, rfl, rfl, hfresh⟩)
  | @reader rd _ _ _ h =>
    cases h with
    | rest => exact hx
    | @hand payload _ _ =>
      have hcalm := calm_append (.chunkData rd.messageID rd.peer rd.chunkID payload) rfl x.world
      exact hx.tame (.of_calm rfl rfl ⟨rfl, hcalm.results, rfl, rfl, le_refl _⟩)
    | announce _ _ =>
      have hcalm := calm_append (.readDone rd.messageID) rfl x.world
      exact hx.tame (.of_calm rfl rfl ⟨rfl, hcalm.results, rfl, rfl, le_refl _⟩)
    | _ => exact hx.tame (.of_calm rfl rfl ⟨rfl, rfl, rfl, rfl, le_refl _⟩)

theorem lifeInv_init (channelID : ChannelID) (ids : ConnRef → PeerID) (sub : Option Subscription) :
    LifeInv (init channelID ids sub : Channel S) :=
  ⟨nofun, nofun, nofun, fun _ _ => rfl, nofun, fun _ _ _ => rfl, fun h => absurd rfl h,
    fun _ => .before rfl rfl rfl rfl, nofun, nofun⟩

end Channel

/-! ## The stages of a session -/

/-- The stage a life is in: where the last move led, or where it started. -/
def Life.stage (l : Life) : Option Stage :=
  match l.moves.getLast? with
  | some move => some move.2
  | none => l.start

/-- A life that goes through the stages in their order. -/
structure InOrder (l : Life) : Prop where
  /-- From consuming to decoding to reconstructed, and no other way. -/
  moves : l.moves <+: [(.consuming, .decoding), (.decoding, .reconstructed)]
  origin : l.start = some .origin → l.moves = []
  oneDecode : l.decodes.length ≤ 1
  oneDelivery : l.delivered.length ≤ 1
  /-- What was delivered is what the session's own decode returned. -/
  own : .reconstructed ∈ l.moves.map Prod.snd ∨ l.delivered ≠ [] →
    ∃ payload, l.decodes = [some payload] ∧ l.delivered = [payload]

theorem Chapter.inOrder (h : Chapter l n) : InOrder l := by
  cases h with
  | before h₁ h₂ h₃ h₄ =>
    exact ⟨by simp [h₁], fun _ => h₁, by simp [h₂], by simp [h₄], by simp [h₁, h₄]⟩
  | decoding h₀ h₁ h₂ h₃ h₄ _ | dropped h₀ h₁ h₂ h₃ h₄ =>
    exact ⟨by simp [h₁], by simp [h₀], by simp [h₂], by simp [h₄], by simp [h₁, h₄]⟩
  | done h₀ h₁ h₂ h₃ h₄ =>
    exact ⟨by simp [h₁], by simp [h₀], by simp [h₂], by simp [h₄], fun _ => ⟨_, h₂, h₄⟩⟩

theorem LifeInv.stage {m : MessageID} {sess : Session S} (hx : LifeInv x)
    (hget : x.sessions.get m = some sess) : (x.world.life sess.ref).stage = some sess.stage := by
  have hfits := hx.fits m sess hget
  have hchapter := hx.chapter sess.ref
  generalize x.world.pending sess.ref = n at hchapter
  unfold StageFits at hfits
  cases hst : sess.stage with
  | consuming | origin =>
    rw [hst] at hfits
    cases hchapter with
    | before h₁ _ _ _ => simp [Life.stage, h₁, hfits.1]
    | decoding _ _ h _ _ _ | dropped _ _ h _ _ | done _ _ h _ _ =>
      rw [hfits.2] at h
      cases h
  | decoding =>
    rw [hst] at hfits
    simp [Life.stage, hfits.1]
  | reconstructed =>
    rw [hst] at hfits
    cases hchapter with
    | done _ h₁ _ _ _ => simp [Life.stage, h₁]
    | before _ _ _ h | decoding _ _ _ _ h _ | dropped _ _ _ _ h => exact absurd h hfits

namespace Channel

/-- **Every session goes through its stages in order**, whatever the order of events, as long as a successful
result is only taken by the session that started the decode. -/
theorem stages_in_order (sch : Scheme S C R P) (luck : Nat → Chance) (channelID : ChannelID)
    (ids : ConnRef → PeerID) (sub : Option Subscription) (ops : List (Op S))
    (hown : Along (step sch luck) OwnResult (init channelID ids sub) ops) :
    let x := exec (step sch luck) (init channelID ids sub) ops
    (∀ r, InOrder (x.world.life r)) ∧
      ∀ m sess, x.sessions.get m = some sess → (x.world.life sess.ref).stage = some sess.stage := by
  have hinv := hown.invariant (fun _ op hx hok => lifeInv_step op hx hok) (lifeInv_init channelID ids sub)
  exact ⟨fun r => (hinv.chapter r).inOrder, fun m sess hget => hinv.stage hget⟩

/-! ### A relay of one chunk -/

instance (x : Channel S) (op : Op S) : Decidable (OwnResult x op) :=
  inferInstanceAs (Decidable (_ = true))

/-- Maps are visited in the order in which they are stored, and full outboxes stay full. -/
def storedChance : Nat → Chance :=
  fun _ => { peers := .stored _, messages := .stored _, room := false, seed := 0 }

/-- A channel among the connections of `a` and of `b`, with a subscriber. -/
def pairInit : Channel Rs.State :=
  init "c" (fun c => if c = 0 then "a" else "b") (some { cap := 1 })

/-- The state after these steps. -/
def pairRun (ops : List (Op Rs.State)) : Channel Rs.State :=
  exec (step Rs.copiesScheme storedChance) pairInit ops

/-- The reader of the chunk that `a` sends. -/
def pairReader (phase : ReaderPhase) : Reader :=
  { ref := 3, session := 0, messageID := "m", peer := "a", chunkID := [1], dataLen := 4, stream := 1,
    group := some 2, phase := phase }

/-- `a` joins, opens the message and sends a chunk; the chunk completes the message. -/
def relayDecodes : List (Op Rs.State) :=
  [.post (.peerChange ⟨"a", some 0⟩), .next, .post (.sessionOpen "a" ⟨"m", [1], []⟩), .next,
    .post (.chunkStream ⟨"a", "m", [1], 4, 1⟩), .next,
    .reader (pairReader .reading) (.got [7, 8, 9, 0]), .reader (pairReader (.read ⟨[7, 8, 9, 0], by decide⟩)) .hand,
    .reader (pairReader .closing) .release, .reader (pairReader .released) .announce, .next, .next]

/-- The decoder of the relay. -/
def pairDecoder : Decoder := ⟨0, "m", some [7, 8, 9]⟩

theorem stages_in_order_relay :
    let x := pairRun (relayDecodes ++ [.decodePost pairDecoder, .next])
    (∀ r, InOrder (x.world.life r)) ∧ (x.world.life 0).stage = some .reconstructed ∧
      (x.world.life 0).delivered = [[7, 8, 9]] := by
  refine ⟨(stages_in_order Rs.copiesScheme storedChance "c" _ _ _ ?_).1, ?_, ?_⟩
  all_goals decide +kernel

/-- `a` ends its stream and opens the message again while the result waits in the inbox: the first session
is disposed, and the second takes the result without a decode of its own. -/
def staleResult : List (Op Rs.State) :=
  relayDecodes ++ [.post (.peerSessionEnded "m" "a" 0), .post (.sessionOpen "a" ⟨"m", [1], []⟩),
    .decodePost pairDecoder, .next, .next, .next]

theorem stale_decode_reconstructs :
    let l := (pairRun staleResult).world.life 4
    l.moves = [(.consuming, .reconstructed)] ∧ l.decodes = [] ∧ l.delivered = [[7, 8, 9]] ∧ ¬ InOrder l := by
  have hlife : (pairRun staleResult).world.life 4 =
      { start := some .consuming, moves := [(.consuming, .reconstructed)], delivered := [[7, 8, 9]] } := by
    decide +kernel
  rw [hlife]
  refine ⟨rfl, rfl, rfl, fun h => ?_⟩
  exact absurd h.moves (by decide)

end Channel

end EthP2P.Broadcast
