/-
# EthP2P.Broadcast.Fate — what becomes of a message that was decoded

A session is disposed when a local publication replaces it, when its time is up, or when no peer needs it
any more (`idle`).  Before it has the message, "no peer needs it" means that no peer is attached, and this
test does not tell a session that still waits for chunks from one whose decode is running.  So a peer that
leaves while it was the last one takes the decoded message with it: `decoding_session_disposed`.

The theorem is `decoded_is_delivered`: if no peer that leaves is the last one of a session whose decode is
outstanding, and every result finds its own session, then no such session is disposed for want of peers, and
a decode that succeeds is delivered, unless its session is replaced or expires or the channel stops.
-/
import EthP2P.Broadcast.Lifecycle

namespace EthP2P.Broadcast

open Lib Wire Function Scope Session Nat Map

variable {S C R P : Type}

/-! ## Sessions without peers -/

/-- The session has not got the message, and the peers it had are gone. -/
def Session.Lonely (s : Session S) : Prop :=
  s.stage < .reconstructed ∧ s.everHadPeers = true ∧ s.peers.keys = []

variable {s : Session S} {x y : Channel S}

theorem Session.idle_of_lonely (h : s.Lonely) : s.idle = true := by
  obtain ⟨hstage, hever, hpeers⟩ := h
  simp [idle, hstage, hever, hpeers]

theorem Session.idle_eq_false (h : ¬ s.Lonely) (hstage : s.stage < .reconstructed) : s.idle = false := by
  cases hever : s.everHadPeers with
  | false => simp [idle, hever]
  | true =>
    have hpeers : s.peers.keys ≠ [] := fun hpeers => h ⟨hstage, hever, hpeers⟩
    simpa [idle, hever, hstage] using hpeers

theorem Session.not_lonely_of_get {p : PeerID} {sp : SessionPeer} (h : s.peers.get p = some sp) : ¬ s.Lonely := by
  rintro ⟨_, _, hpeers⟩
  have hmem := mem_keys_of_get h
  rw [hpeers] at hmem
  cases hmem

/-! ## The invariant -/

/-- How lives end. -/
structure Fates (x : Channel S) : Prop where
  alive : ∀ m sess, x.sessions.get m = some sess → (x.world.life sess.ref).removed = none
  unborn : ∀ r, x.world.fresh ≤ r → (x.world.life r).removed = none
  /-- A session that began is in the map or was removed from it. -/
  accounted : ∀ r, (x.world.life r).start ≠ none →
    (∃ m sess, x.sessions.get m = some sess ∧ sess.ref = r) ∨ (x.world.life r).removed ≠ none
  /-- No session is disposed for want of peers while its decode is outstanding. -/
  patient : ∀ r, (x.world.life r).removed = some .allPeersDone → (x.world.life r).decodes ≠ [] →
    (x.world.life r).handled = true
  /-- A result that was handled was delivered, or came after a replacement or an expiry. -/
  settled : ∀ r payload, (x.world.life r).handled = true →
    (x.world.life r).decodes = [some payload] →
    (x.world.life r).delivered = [payload] ∨ (x.world.life r).removed = some .replaced ∨
      (x.world.life r).removed = some .ttlExpired

/-- No session is left that nobody would miss. -/
def Attended (x : Channel S) : Prop := ∀ m sess, x.sessions.get m = some sess → ¬ sess.Lonely

structure FateInv (x : Channel S) : Prop where
  life : LifeInv x
  fates : Fates x
  attended : Attended x

/-- No session comes or goes. -/
structure Steady (x y : Channel S) : Prop where
  fresh : x.world.fresh ≤ y.world.fresh
  sessions : ∀ m s', y.sessions.get m = some s' → ∃ s, x.sessions.get m = some s ∧ s'.ref = s.ref
  kept : ∀ m s, x.sessions.get m = some s → ∃ s', y.sessions.get m = some s' ∧ s'.ref = s.ref

namespace Steady

variable {x y : Channel S}

theorem of_eq (hsessions : y.sessions = x.sessions) (hfresh : x.world.fresh ≤ y.world.fresh) : Steady x y :=
  ⟨hfresh, fun m s h => ⟨s, by rwa [hsessions] at h, rfl⟩, fun m s h => ⟨s, by rwa [hsessions], rfl⟩⟩

theorem of_set {m : MessageID} {s' : Session S} (hget : x.sessions.get m = some s)
    (hsessions : y.sessions = x.sessions.set m s') (href : s'.ref = s.ref)
    (hfresh : x.world.fresh ≤ y.world.fresh) : Steady x y := by
  refine ⟨hfresh, fun k t' ht' => ?_, fun k t ht => ?_⟩
  · rw [hsessions, get_set] at ht'
    split at ht'
    · rename_i hk
      cases ht'
      exact ⟨s, hk ▸ hget, href⟩
    · exact ⟨t', ht', rfl⟩
  rw [hsessions, get_set]
  split
  · rename_i hk
    obtain rfl := Option.some.inj (hget.symm.trans (hk ▸ ht))
    exact ⟨s', rfl, href⟩
  · exact ⟨t, ht, rfl⟩

end Steady

/-- Something is written into the life of `r`, but neither its start nor its end. -/
theorem Fates.touch (r : SessionRef) (hx : Fates x) (h : Steady x y)
    (hother : ∀ k, k ≠ r → y.world.life k = x.world.life k)
    (hremoved : (y.world.life r).removed = (x.world.life r).removed)
    (hstart : (y.world.life r).start = (x.world.life r).start)
    (hpatient : (x.world.life r).removed = some .allPeersDone → (y.world.life r).decodes ≠ [] →
      (y.world.life r).handled = true)
    (hsettled : ∀ payload, (y.world.life r).handled = true →
      (y.world.life r).decodes = [some payload] →
      (y.world.life r).delivered = [payload] ∨ (x.world.life r).removed = some .replaced ∨
        (x.world.life r).removed = some .ttlExpired) : Fates y := by
  have hremoved : ∀ k, (y.world.life k).removed = (x.world.life k).removed := by
    intro k
    by_cases hk : k = r
    · rw [hk, hremoved]
    · rw [hother k hk]
  have hstart : ∀ k, (y.world.life k).start = (x.world.life k).start := by
    intro k
    by_cases hk : k = r
    · rw [hk, hstart]
    · rw [hother k hk]
  obtain ⟨hfresh, hsessions, hkept⟩ := h
  refine ⟨fun m s' hs' => ?_, fun k hk => ?_, fun k hk => ?_, fun k => ?_, fun k payload => ?_⟩
  · obtain ⟨s, hs, href⟩ := hsessions m s' hs'
    rw [hremoved, href]
    exact hx.alive m s hs
  · rw [hremoved]
    exact hx.unborn k (le_trans hfresh hk)
  · rw [hstart] at hk
    rw [hremoved]
    rcases hx.accounted k hk with ⟨m, s, hs, href⟩ | hgone
    · obtain ⟨s', hs', href'⟩ := hkept m s hs
      exact .inl ⟨m, s', hs', href'.trans href⟩
    · exact .inr hgone
  · rw [hremoved]
    by_cases hk : k = r
    · exact hk ▸ hpatient
    · rw [hother k hk]
      exact hx.patient k
  · rw [hremoved]
    by_cases hk : k = r
    · exact hk ▸ hsettled payload
    · rw [hother k hk]
      exact hx.settled k payload

theorem Fates.steady (hx : Fates x) (h : Steady x y) (hlife : y.world.life = x.world.life) : Fates y := by
  refine hx.touch 0 h (fun k _ => by rw [hlife]) (by rw [hlife]) (by rw [hlife]) ?_ ?_
  · rw [hlife]
    exact hx.patient 0
  · rw [hlife]
    exact hx.settled 0

theorem Fates.put {m : MessageID} {sess : Session S} {u : Scope S} (hx : Fates x)
    (hget : x.sessions.get m = some sess) (href : u.sess.ref = sess.ref)
    (hw : Calm x.world u.world) : Fates (x.put m u) :=
  hx.steady (.of_set hget rfl href hw.fresh) hw.life

theorem FateInv.calm (hx : FateInv x) (hsessions : y.sessions = x.sessions)
    (hphase : y.phase = x.phase) (hw : Calm x.world y.world) : FateInv y :=
  ⟨hx.life.tame (.of_calm hsessions hphase hw), hx.fates.steady (.of_eq hsessions hw.fresh) hw.life,
    fun m s hs => hx.attended m s (by rwa [hsessions] at hs)⟩

theorem Attended.put {m : MessageID} {u : Scope S} (hx : Attended x)
    (hu : ¬ u.sess.Lonely) : Attended (x.put m u) := by
  intro k s hs
  rw [Channel.put_sessions] at hs
  split at hs
  · cases hs
    exact hu
  · exact hx k s hs

namespace Channel

variable {sch : Scheme S C R P} {luck : Nat → Chance} {evt : Event S} {x y : Channel S}

/-! ## Disposal -/

variable {m : MessageID} {sess : Session S} {p : PeerID}

theorem life_disposeSession (hget : x.sessions.get m = some sess) (reason : Reason) (luck : Nat → Chance) :
    (x.disposeSession luck m reason).world.life = update x.world.life sess.ref
      { x.world.life sess.ref with removed := some reason } := by
  obtain ⟨_, _, _, w, code, hcalled, hcore, _⟩ := disposeSession_spec hget reason luck
  rw [← (Calm.of_called hcalled).life]
  exact congrArg World.life hcore

/-- A live session that got a successful result of its own has delivered it. -/
theorem delivered_of_handled {payload : Bytes} (hx : LifeInv x)
    (hget : x.sessions.get m = some sess) (hhandled : (x.world.life sess.ref).handled = true)
    (hdecodes : (x.world.life sess.ref).decodes = [some payload]) :
    (x.world.life sess.ref).delivered = [payload] := by
  have hstage := hx.stage hget
  have hfits := hx.fits m sess hget
  have hchapter := hx.chapter sess.ref
  generalize x.world.pending sess.ref = n at hchapter
  cases hchapter with
  | before _ h _ _ =>
    rw [hdecodes] at h
    cases h
  | decoding _ _ _ h _ _ =>
    rw [hhandled] at h
    cases h
  | dropped _ hmoves _ _ _ =>
    have hdecoding : sess.stage = .decoding := by
      simpa [Life.stage, hmoves] using hstage.symm
    unfold StageFits at hfits
    rw [hdecoding] at hfits
    have hnone := hfits.2.1 hhandled
    rw [hdecodes] at hnone
    cases hnone
  | done _ _ h _ hdelivered =>
    rw [hdecodes] at h
    cases h
    exact hdelivered

theorem fates_disposeSession {reason : Reason} (hl : LifeInv x)
    (hx : Fates x) (hget : x.sessions.get m = some sess)
    (hpatient : reason = .allPeersDone → (x.world.life sess.ref).decodes ≠ [] →
      (x.world.life sess.ref).handled = true) : Fates (x.disposeSession luck m reason) := by
  have hlife := life_disposeSession hget reason luck
  have hself : (x.disposeSession luck m reason).world.life sess.ref =
      { x.world.life sess.ref with removed := some reason } := by
    rw [hlife, update_self]
  have hother : ∀ r, r ≠ sess.ref →
      (x.disposeSession luck m reason).world.life r = x.world.life r := by
    intro r hr
    rw [hlife, update_of_ne hr]
  constructor
  · intro k s hs
    obtain ⟨hk, hs⟩ := get_of_disposeSession hs
    rw [hother]
    · exact hx.alive k s hs
    · exact fun href => hk (hl.distinct k m s sess hs hget href)
  · intro r hr
    have hfresh := (tame_disposeSession luck m reason x).fresh
    rw [hother]
    · exact hx.unborn r (le_trans hfresh hr)
    · exact ne_of_gt (lt_of_lt_of_le (hl.born m sess hget) (le_trans hfresh hr))
  · intro r hstart
    by_cases hr : r = sess.ref
    · right
      rw [hr, hself]
      simp
    rw [hother r hr] at hstart ⊢
    rcases hx.accounted r hstart with ⟨k, s, hs, href⟩ | hremoved
    · refine .inl ⟨k, s, ?_, href⟩
      rw [get_disposeSession, if_neg]
      · exact hs
      rintro rfl
      cases hs.symm.trans hget
      exact hr href.symm
    · exact .inr hremoved
  · intro r
    by_cases hr : r = sess.ref
    · rw [hr, hself]
      intro hreason
      exact hpatient (Option.some.inj hreason)
    · rw [hother r hr]
      exact hx.patient r
  · intro r payload
    by_cases hr : r = sess.ref
    · rw [hr, hself]
      exact fun hhandled hdecodes => .inl (delivered_of_handled hl hget hhandled hdecodes)
    · rw [hother r hr]
      exact hx.settled r payload

/-- A session that is idle is not one whose decode is outstanding. -/
theorem fates_disposeIfIdle (hl : LifeInv x) (hx : Fates x)
    (hout : ∀ sess, x.sessions.get m = some sess → sess.stage = .decoding →
      (x.world.life sess.ref).handled = false → sess.idle = false) : Fates (x.disposeIfIdle luck m) := by
  unfold disposeIfIdle
  split
  · exact hx
  rename_i sess hget
  split
  · rename_i hidle
    refine fates_disposeSession hl hx hget fun _ hdecodes => ?_
    by_contra hhandled
    have hhandled := Bool.eq_false_iff.mpr hhandled
    have hstage := hl.stage hget
    have hchapter := hl.chapter sess.ref
    generalize x.world.pending sess.ref = n at hchapter
    cases hchapter with
    | before _ h _ _ => exact hdecodes h
    | decoding _ hmoves _ _ _ _ =>
      have hdecoding : sess.stage = .decoding := by
        simpa [Life.stage, hmoves] using hstage.symm
      rw [hout sess hget hdecoding hhandled] at hidle
      cases hidle
    | dropped _ _ _ h _ | done _ _ _ h _ =>
      rw [hhandled] at h
      cases h
  · exact hx

theorem attended_disposeIfIdle (hx : ∀ k s, x.sessions.get k = some s → k ≠ m → ¬ s.Lonely) :
    Attended (x.disposeIfIdle luck m) := by
  intro k s hs
  unfold disposeIfIdle at hs
  split at hs
  · rename_i hget
    refine hx k s hs ?_
    rintro rfl
    rw [hget] at hs
    cases hs
  rename_i sess hget
  split at hs
  · obtain ⟨hk, hs⟩ := get_of_disposeSession hs
    exact hx k s hs hk
  rename_i hidle
  by_cases hk : k = m
  · subst hk
    cases hget.symm.trans hs
    exact fun hlonely => hidle (idle_of_lonely hlonely)
  · exact hx k s hs hk

/-! ## The moves -/

theorem fateInv_disposeIfIdle (hx : FateInv x) : FateInv (x.disposeIfIdle luck m) := by
  refine ⟨hx.life.tame (tame_disposeIfIdle m x),
    fates_disposeIfIdle hx.life hx.fates fun sess hget hstage _ => ?_,
    attended_disposeIfIdle fun k s hs _ => hx.attended k s hs⟩
  exact idle_eq_false (hx.attended m sess hget) (by rw [hstage]; decide)

theorem fateInv_stays {u : Scope S} (hx : FateInv x)
    (hget : x.sessions.get m = some sess) (h : Stays ⟨sess, x.world⟩ u) : FateInv (x.put m u) := by
  refine ⟨hx.life.tame (.of_stays hget h), hx.fates.put hget h.ref (.of_still h.world h.fresh),
    hx.attended.put fun ⟨h₁, h₂, h₃⟩ => hx.attended m sess hget ?_⟩
  rw [h.stage] at h₁
  rw [h.everHadPeers] at h₂
  rw [h.peers] at h₃
  exact ⟨h₁, h₂, h₃⟩

theorem fates_start (hl : LifeInv x) (hx : Fates x)
    (hget : x.sessions.get m = some sess) (hstage : sess.stage = .consuming) :
    Fates (x.put m (startDecode sch luck ⟨sess, x.world⟩)) := by
  obtain ⟨hfresh, hlife⟩ := life_startDecode sch luck hstage x.world
  obtain ⟨w, _, hstart⟩ := startDecode_spec sch luck ⟨sess, x.world⟩
  have hfits := hl.fits m sess hget
  unfold StageFits at hfits
  rw [hstage] at hfits
  have hhandled := (chapter_start (hl.chapter sess.ref) hfits.2 hfits.1 (sch.methods.decode sess.strategy)).2.1
  have hself : (x.put m (startDecode sch luck ⟨sess, x.world⟩)).world.life sess.ref =
      startLife (sch.methods.decode sess.strategy) (x.world.life sess.ref) := by
    rw [← update_self sess.ref (startLife _ _) x.world.life]
    exact congrFun hlife _
  refine hx.touch sess.ref (.of_set hget rfl (by rw [hstart]) (le_of_eq hfresh.symm))
    (fun k hk => ?_) (by rw [hself]; rfl) (by rw [hself]; rfl) (fun h => ?_) fun _ h => ?_
  · rw [← update_of_ne hk (startLife _ _) x.world.life]
    exact congrFun hlife _
  · rw [hx.alive m sess hget] at h
    cases h
  · rw [hself] at h
    exact absurd (hhandled.symm.trans h) (by decide)

theorem fates_begin (hl : LifeInv x) (hx : Fates x)
    (hget : x.sessions.get m = none) (preamble : Bytes) (origin : Bool) (strategy : S) :
    Fates (x.begin (x.newSession m preamble origin strategy)) := by
  let sess := x.newSession m preamble origin strategy
  have hself : (x.begin sess).world.life x.world.fresh =
      { x.world.life x.world.fresh with start := some sess.stage } := update_self ..
  have hother : ∀ r, r ≠ x.world.fresh → (x.begin sess).world.life r = x.world.life r :=
    fun r hr => update_of_ne hr _ _
  have hremoved : ∀ r, ((x.begin sess).world.life r).removed = (x.world.life r).removed := by
    intro r
    by_cases hr : r = x.world.fresh
    · rw [hr, hself]
    · rw [hother r hr]
  obtain ⟨hdecodes, _⟩ := chapter_unborn (hl.chapter x.world.fresh) (hl.unborn _ (le_refl _)) sess.stage
  show Fates (x.begin sess)
  refine ⟨fun k s hs => ?_, fun r hr => ?_, fun r hr => ?_, fun r => ?_, fun r payload => ?_⟩
  · rw [hremoved]
    rw [begin_sessions] at hs
    split at hs
    · cases hs
      exact hx.unborn _ (le_refl _)
    · exact hx.alive k s hs
  · rw [hremoved]
    exact hx.unborn r (le_of_succ_le hr)
  · by_cases hnew : r = x.world.fresh
    · exact .inl ⟨m, sess, by rw [begin_sessions]; exact if_pos rfl, hnew.symm⟩
    rw [hother r hnew] at hr
    rw [hremoved]
    rcases hx.accounted r hr with ⟨k, s, hs, href⟩ | h
    · refine .inl ⟨k, s, ?_, href⟩
      rw [begin_sessions, if_neg]
      · exact hs
      intro hk
      rw [show k = m from hk, hget] at hs
      cases hs
    · exact .inr h
  · by_cases hnew : r = x.world.fresh
    · rw [hnew, hself]
      exact fun _ h => absurd hdecodes h
    · rw [hother r hnew]
      exact hx.patient r
  · by_cases hnew : r = x.world.fresh
    · rw [hnew, hself]
      intro _ h
      rw [show (x.world.life x.world.fresh).decodes = [some payload] from h] at hdecodes
      cases hdecodes
    · rw [hother r hnew]
      exact hx.settled r payload

/-- The events that make a peer leave. -/
def IsLeave : Event S → Prop
  | .peerChange ⟨_, none⟩ | .peerSessionEnded _ _ _ => True
  | _ => False

/-- A move keeps the fates, unless a peer leaves. -/
theorem fateInv_micro (hx : FateInv x) (h : Micro sch luck evt x y) (hevt : ¬ IsLeave evt) : FateInv y := by
  have hlife := lifeInv_micro hx.life h
  cases h with
  | aside h => exact hx.calm h.sessions h.phase (.of_core h.world h.fresh)
  | member _ | unmember _ => exact hx.calm rfl rfl (.refl _)
  | act hget h => exact fateInv_stays hx hget h
  | @start m sess hget hstage _ =>
    obtain ⟨w, _, hstart⟩ := startDecode_spec sch luck ⟨sess, x.world⟩
    refine ⟨hlife, fates_start hx.life hx.fates hget hstage,
      hx.attended.put fun ⟨_, h₂, h₃⟩ => hx.attended m sess hget ?_⟩
    rw [hstart] at h₂ h₃
    exact ⟨by rw [hstage]; decide, h₂, h₃⟩
  | @join m sess c hget _ _ _ =>
    have hsess := join_sess sch c ⟨sess, x.world⟩
    obtain ⟨routing, obs, hworld⟩ := join_world sch c ⟨sess, x.world⟩
    have hpeer : (join sch c ⟨sess, x.world⟩).sess.peers.get (x.world.conns c).id =
        some { conn := c, chunkOutbox := x.world.fresh } := by
      rw [hsess]
      exact (get_set ..).trans (if_pos rfl)
    refine ⟨hlife, hx.fates.put hget (by rw [hsess]) ?_,
      hx.attended.put (not_lonely_of_get hpeer)⟩
    rw [hworld]
    exact ⟨rfl, rfl, rfl, rfl, le_succ _⟩
  | leave _ h =>
    rcases h with rfl | ⟨c, rfl, _⟩
    · exact absurd trivial hevt
    · exact absurd trivial hevt
  | @complete m sess p hget _ =>
    refine fateInv_disposeIfIdle ⟨hx.life.tame (tame_completed hget p), ?_, ?_⟩
    · rcases handlePeerCompleted_spec sch p ⟨sess, x.world⟩ with
        hsame | ⟨sp, _, hsess, hworld, hfresh⟩
      · rw [hsame]
        exact hx.fates.put hget rfl (.refl _)
      · have href := congrArg ref hsess
        exact hx.fates.put hget href (.of_core hworld hfresh)
    rcases handlePeerCompleted_spec sch p ⟨sess, x.world⟩ with
      hsame | ⟨sp, _, hsess, _, _⟩
    · rw [hsame]
      exact hx.attended.put (hx.attended m sess hget)
    have hpeers := congrArg peers hsess
    have hpeer : (handlePeerCompleted sch p ⟨sess, x.world⟩).sess.peers.get p =
        some { sp with completed := true } := by
      rw [show (handlePeerCompleted sch p ⟨sess, x.world⟩).sess.peers = _ from hpeers]
      exact (get_set ..).trans (if_pos rfl)
    exact hx.attended.put (not_lonely_of_get hpeer)
  | @dispose m sess reason hget hreason =>
    refine ⟨hlife, fates_disposeSession hx.life hx.fates hget fun h => absurd h hreason, fun k s hs => ?_⟩
    exact hx.attended k s (get_of_disposeSession hs).2
  | begin hget _ =>
    refine ⟨hlife, fates_begin hx.life hx.fates hget _ _ _, fun k s hs => ?_⟩
    rw [begin_sessions] at hs
    split at hs
    · cases hs
      rintro ⟨_, hever, _⟩
      cases hever
    · exact hx.attended k s hs

theorem fateInv_micros (hx : FateInv x) (h : Micros sch luck evt x y) (hevt : ¬ IsLeave evt) : FateInv y := by
  induction h with
  | refl => exact hx
  | tail _ hmove ih => exact fateInv_micro ih hmove hevt

/-! ## A peer leaves -/

/-- `p` is not the last peer of a session whose decode is outstanding. -/
def Spares (p : PeerID) (w : World S) (sess : Session S) : Prop :=
  sess.stage = .decoding → (w.life sess.ref).handled = false → sess.everHadPeers = true → ∃ q ∈ sess.peers.keys, q ≠ p

/-- A peer leaves; if that ends the session, no decode is outstanding. -/
theorem fateInv_leave (hx : FateInv x) (hget : x.sessions.get m = some sess) (hspares : Spares p x.world sess) :
    FateInv (x.leave sch luck m p) := by
  have hlife : LifeInv (x.leave sch luck m p) := hx.life.tame (tame_leave hget p)
  unfold leave onSession at hlife ⊢
  rw [hget] at hlife ⊢
  let u := handlePeerDropped sch p ⟨sess, x.world⟩
  obtain ⟨href, _, hstage, hever, hpeers, hw⟩ := dropped_standing sch p ⟨sess, x.world⟩
  refine ⟨hlife, fates_disposeIfIdle (hx.life.tame (tame_dropped hget p)) (hx.fates.put hget href hw)
    fun s hs hdecoding hhandled => ?_, attended_disposeIfIdle fun k s hs hk => ?_⟩
  · rw [put_sessions, if_pos rfl] at hs
    obtain rfl : u.sess = s := Option.some.inj hs
    refine idle_eq_false ?_ (by rw [hdecoding]; decide)
    rintro ⟨_, hever', hnone⟩
    rw [hever] at hever'
    have hhandled' : (x.world.life sess.ref).handled = false := by
      rw [← hw.life, ← href]
      exact hhandled
    -- another peer is attached
    obtain ⟨q, hq, hne⟩ := hspares (hstage ▸ hdecoding) hhandled' hever'
    obtain ⟨sp, hsp⟩ := mem_keys.mp hq
    have hmem : q ∈ u.sess.peers.keys :=
      mem_keys_of_get (by rw [hpeers]; exact (get_del ..).trans ((if_neg hne).trans hsp))
    rw [hnone] at hmem
    cases hmem
  · rw [put_sessions, if_neg hk] at hs
    exact hx.attended k s hs

/-- What a peer spares it still spares after leaving a session. -/
theorem spares_leave {k : MessageID} {s' : Session S} (hget : x.sessions.get m = some sess)
    (hspares : ∀ k s, x.sessions.get k = some s → Spares p x.world s)
    (hs' : (x.leave sch luck m p).sessions.get k = some s') : Spares p (x.leave sch luck m p).world s' := by
  have htame : Tame x (x.leave sch luck m p) := tame_leave hget p
  intro hdecoding hhandled hever
  rw [(Life.of_course (htame.life s'.ref)).2.2.2.1] at hhandled
  unfold leave onSession at hs'
  rw [hget] at hs'
  have hs' := get_of_disposeIfIdle hs'
  rw [put_sessions] at hs'
  split at hs'
  · obtain ⟨href, _, hstage, hever', hpeers, _⟩ := dropped_standing sch p ⟨sess, x.world⟩
    cases hs'
    rw [href] at hhandled
    obtain ⟨q, hq, hne⟩ := hspares m sess hget (hstage ▸ hdecoding) hhandled (hever' ▸ hever)
    obtain ⟨sp, hsp⟩ := mem_keys.mp hq
    refine ⟨q, mem_keys_of_get (v := sp) ?_, hne⟩
    rw [hpeers]
    exact (get_del ..).trans ((if_neg hne).trans hsp)
  · exact hspares k s' hs' hdecoding hhandled hever

theorem fateInv_unbound (hx : FateInv x) (hspares : ∀ k s, x.sessions.get k = some s → Spares p x.world s) :
    FateInv (x.handlePeerUnbound sch luck p) := by
  have hloop : ∀ (ms : List MessageID) (x : Channel S), FateInv x →
      (∀ k s, x.sessions.get k = some s → Spares p x.world s) →
      FateInv (ms.foldl (fun x m => x.leave sch luck m p) x) := by
    intro ms
    induction ms with
    | nil => exact fun x hx _ => hx
    | cons m ms ih =>
      intro x hx hspares
      rw [List.foldl_cons]
      cases hget : x.sessions.get m with
      | none =>
        rw [leave_of_none hget]
        exact ih x hx hspares
      | some sess =>
        exact ih _ (fateInv_leave hx hget (hspares m sess hget)) fun k s hs => spares_leave hget hspares hs
  -- before the loop only membership and parked chunks change
  let y : Channel S := { x with members := x.members.del p }
  have hdrop : Aside y ((y.dropParked luck p).onWorld World.turn) :=
    (aside_dropParked luck p y).trans (aside_turn _)
  have hw : Calm x.world ((y.dropParked luck p).onWorld World.turn).world :=
    .of_core hdrop.world hdrop.fresh
  refine hloop _ _ (hx.calm hdrop.sessions hdrop.phase hw) fun k s hs => ?_
  rw [hdrop.sessions] at hs
  have h := hspares k s hs
  unfold Spares at h ⊢
  rwa [hw.life]

/-! ## The result of a decode -/

section Pop

variable {m : MessageID} {payload : Option Bytes} {sender : SessionRef} {rest : List (Event S)}

/-- A session that is gone before its result was handled was replaced or expired. -/
theorem removed_of_gone (hx : FateInv x) (hinbox : x.world.inbox = .decoded m payload sender :: rest)
    (hgone : ∀ k s, x.sessions.get k = some s → s.ref ≠ sender) :
    (x.world.life sender).removed = some .replaced ∨ (x.world.life sender).removed = some .ttlExpired := by
  have hdue := due_of_head hx.life hinbox
  have hremoved : (x.world.life sender).removed ≠ none := by
    rcases hx.fates.accounted sender (by rw [hdue.start]; simp) with ⟨k, s, hs, href⟩ | h
    · exact absurd href (hgone k s hs)
    · exact h
  obtain ⟨reason, hreason⟩ := Option.ne_none_iff_exists'.mp hremoved
  cases reason with
  | allPeersDone =>
    have hhandled := hx.fates.patient sender hreason (by rw [hdue.decodes]; simp)
    exact absurd (hdue.handled.symm.trans hhandled) (by decide)
  | replaced => exact .inl hreason
  | ttlExpired => exact .inr hreason

theorem fateInv_pop (hx : FateInv x) (hinbox : x.world.inbox = .decoded m payload sender :: rest)
    (hgone : payload = none ∨ ∀ k s, x.sessions.get k = some s → s.ref ≠ sender) :
    FateInv (x.popDecoded sender rest) := by
  have hdue := due_of_head hx.life hinbox
  have hself : (x.popDecoded sender rest).world.life sender =
      { x.world.life sender with handled := true } := update_self ..
  refine ⟨lifeInv_pop hx.life hinbox hgone, ?_, hx.attended⟩
  refine hx.fates.touch sender (.of_eq rfl (le_refl _)) (fun k hk => update_of_ne hk _ _)
    (by rw [hself]) (by rw [hself]) (fun _ _ => by rw [hself]) fun p _ hdecodes => ?_
  rw [hself, show Life.decodes _ = _ from hdue.decodes] at hdecodes
  rcases hgone with rfl | hgone
  · cases hdecodes
  · exact .inr (removed_of_gone hx hinbox hgone)

/-- The payload is delivered, and the session may be idle then. -/
theorem fateInv_done {p : Bytes} (hx : FateInv x)
    (hinbox : x.world.inbox = .decoded m (some p) sess.ref :: rest)
    (hget : x.sessions.get m = some sess) (h : Done x y m p sess rest) : FateInv (y.disposeIfIdle luck m) := by
  have hdue := due_of_head hx.life hinbox
  have hlife := lifeInv_done hx.life hinbox hget h
  obtain ⟨hself, hother⟩ := h.life
  have hget' : y.sessions.get m = some { sess with stage := .reconstructed } := by
    rw [h.sessions, get_set, if_pos rfl]
  have hfates : Fates y := by
    refine hx.fates.touch sess.ref (.of_set hget h.sessions rfl ?_) hother (by rw [hself]; rfl)
      (by rw [hself]; rfl) (fun _ _ => by rw [hself]; rfl) fun payload _ hdecodes => .inl ?_
    · rw [h.world]
      exact le_refl _
    rw [hself] at hdecodes ⊢
    have heq := hdue.decodes.symm.trans hdecodes
    cases heq
    simp [doneLife, hdue.delivered]
  refine ⟨hlife.tame (tame_disposeIfIdle m y), fates_disposeIfIdle hlife hfates
    fun s hs hdecoding => ?_, attended_disposeIfIdle fun k s hs hk => ?_⟩
  · cases hget'.symm.trans hs
    cases hdecoding
  · rw [h.sessions, get_set, if_neg hk] at hs
    exact hx.attended k s hs

end Pop

/-! ## The steps -/

instance (p : PeerID) (w : World S) (sess : Session S) : Decidable (Spares p w sess) :=
  inferInstanceAs (Decidable (_ → _ → _ → _))

/-- The event that is due takes no session its last peer while its decode is outstanding. -/
def SparesDecodes (x : Channel S) (op : Op S) : Prop :=
  x.onDue (fun
    | .peerChange ⟨p, none⟩ => decide (∀ e ∈ x.sessions.entries, Spares p x.world e.2)
    | .peerSessionEnded m p c =>
      decide (x.members.get p = some c → ∀ sess ∈ x.sessions.get m, Spares p x.world sess)
    | _ => true) op = true

/-- The actor takes the next event. -/
theorem fateInv_next (hx : FateInv x) (hown : OwnResult x .next) (hspares : SparesDecodes x .next) :
    FateInv (x.next sch luck) := by
  cases hdue : x.due with
  | none => rwa [next_of_none hdue]
  | some evt =>
    obtain ⟨rest, hinbox, _, hnext⟩ := next_of_some sch luck hdue
    rw [hnext]
    have hpop : evt.result = none → FateInv (x.onWorld fun w => { w with inbox := rest }) := by
      intro hevt
      refine ⟨hx.life.tame (tame_pop hinbox hevt), hx.fates.steady (.of_eq rfl (le_refl _)) rfl, hx.attended⟩
    have hmoves : IsResult evt = false → ¬ IsLeave evt →
        FateInv ((x.onWorld fun w => { w with inbox := rest }).handle sch luck evt) := by
      intro hres hleave
      have hevt : evt.result = none := by
        cases evt <;> first | rfl | cases hres
      exact fateInv_micros (hpop hevt) (micros_handle hres _) hleave
    cases evt with
    | peerChange e =>
      obtain ⟨p, c⟩ := e
      cases c with
      | some c => exact hmoves rfl id
      | none =>
        simp only [SparesDecodes, onDue, hdue, Option.all_some, decide_eq_true_eq] at hspares
        exact fateInv_unbound (hpop rfl) fun k s hs => hspares (k, s) (mem_entries.mpr hs)
    | peerSessionEnded m p c =>
      simp only [SparesDecodes, onDue, hdue, Option.all_some, decide_eq_true_eq] at hspares
      show FateInv (if x.members.get p ≠ some c then _ else _)
      split
      · exact hpop rfl
      rename_i hmember
      have hmember : x.members.get p = some c := by simpa using hmember
      cases hget : x.sessions.get m with
      | none =>
        rw [leave_of_none (x := x.onWorld _) hget]
        exact hpop rfl
      | some sess => exact fateInv_leave (hpop rfl) hget (hspares hmember sess hget)
    | chunkSent m peer handle err size sender =>
      show FateInv (onSession m _ _)
      unfold onSession
      split
      · exact hpop rfl
      · rename_i sess hget
        exact fateInv_stays (hpop rfl) hget (quiet_handleSendComplete sch luck _ _ _ _ _ _).toStays
    | decoded m payload sender =>
      refine handleDecoded_keeps hx.life hinbox hdue hown (fateInv_pop hx hinbox)
        (fun o hy => hy.calm rfl rfl ⟨rfl, rfl, rfl, rfl, le_refl _⟩) ?_
      rintro p sess y rfl rfl hget hdone
      exact fateInv_done hx hinbox hget hdone
    | _ => exact hmoves rfl id

theorem fateInv_close (hx : FateInv x) (hdone : x.world.ctxDone = true) : FateInv (x.onSession m (Close luck)) := by
  have hlife : LifeInv (x.onSession m (Close luck)) := hx.life.tame (tame_close hdone)
  unfold onSession at hlife ⊢
  split
  · exact hx
  rename_i sess hget
  rw [hget] at hlife
  obtain ⟨w, hcalled, hcore, hfresh⟩ := closeWithCode_world luck .unspecified ⟨sess, x.world⟩
  refine ⟨hlife, hx.fates.steady (.of_set hget rfl rfl (le_of_eq hfresh.symm)) ?_,
    hx.attended.put (hx.attended m sess hget)⟩
  rw [← (Calm.of_called hcalled).life]
  have hlife := congrArg World.life hcore
  exact hlife

theorem fateInv_closeAll (hx : FateInv x) : FateInv (x.closeAll luck) := by
  have hlife : LifeInv (x.closeAll luck) := hx.life.tame (tame_closeAll x)
  have hloop : ∀ (ms : List MessageID) (x : Channel S), FateInv x → x.world.ctxDone = true →
      FateInv (ms.foldl (fun x m => x.onSession m (Close luck)) x) := by
    intro ms
    induction ms with
    | nil => exact fun x hx _ => hx
    | cons m ms ih =>
      intro x hx hdone
      exact ih _ (fateInv_close hx hdone) ((tame_close hdone).ctxDone_true hdone)
  unfold closeAll at hlife ⊢
  split
  · rename_i hready
    rw [if_pos hready] at hlife
    have hsessions := hloop (x.sessions.range (luck x.world.tick).messages) (x.onWorld World.turn)
      (hx.calm rfl rfl ⟨rfl, rfl, rfl, rfl, le_refl _⟩) ((Bool.and_eq_true _ _).mp hready).2
    have hparked := aside_forParked luck (fun _ group x =>
      aside_cancelStreams group.streams .unspecified x)
      (x.forSessions luck fun m x => x.onSession m (Close luck))
    have hall := hsessions.calm hparked.sessions hparked.phase (.of_core hparked.world hparked.fresh)
    exact ⟨hlife, hall.fates.steady (.of_eq rfl (le_refl _)) rfl, hall.attended⟩
  · exact hx

theorem fateInv_step (op : Op S) (hx : FateInv x) (hown : OwnResult x op)
    (hspares : SparesDecodes x op) : FateInv (x.step sch luck op) := by
  by_cases hnext : op = .next
  · subst hnext
    exact fateInv_next hx hown hspares
  by_cases hclose : op = .closeAll
  · subst hclose
    exact fateInv_closeAll hx
  have hout := outside_step sch luck op hnext hclose x
  exact ⟨lifeInv_step op hx.life hown, hx.fates.steady (.of_eq hout.sessions hout.fresh) hout.life,
    fun m s hs => hx.attended m s (by rwa [hout.sessions] at hs)⟩

theorem fateInv_init (channelID : ChannelID) (ids : ConnRef → PeerID) (sub : Option Subscription) :
    FateInv (init channelID ids sub : Channel S) :=
  ⟨lifeInv_init channelID ids sub, ⟨nofun, fun _ _ => rfl, fun _ h => absurd rfl h, nofun, nofun⟩, nofun⟩

/-- **A message that was decoded is delivered**, whatever the order of events, as long as no peer leaves a
session whose decode is outstanding as the last one, and every successful result finds its own session.  The
exceptions are a local publication of the message, the expiry of its session, and the end of the channel;
until then the result is under way, and the session waits for it. -/
theorem decoded_is_delivered (sch : Scheme S C R P) (luck : Nat → Chance) (channelID : ChannelID)
    (ids : ConnRef → PeerID) (sub : Option Subscription) (ops : List (Op S))
    (hok : Along (step sch luck) (fun x op => OwnResult x op ∧ SparesDecodes x op) (init channelID ids sub) ops) :
    let x := exec (step sch luck) (init channelID ids sub) ops
    ∀ r, ((x.world.life r).removed = some .allPeersDone → (x.world.life r).decodes ≠ [] →
        (x.world.life r).handled = true) ∧
      ∀ payload, (x.world.life r).decodes = [some payload] →
        (x.world.life r).delivered = [payload] ∨ (x.world.life r).removed = some .replaced ∨
        (x.world.life r).removed = some .ttlExpired ∨ x.world.ctxDone = true ∨
        ((x.world.life r).handled = false ∧ x.world.pending r = 1 ∧
          ∃ m sess, x.sessions.get m = some sess ∧ sess.ref = r ∧ sess.stage = .decoding) := by
  intro x r
  have hinv : FateInv x := hok.invariant (fun _ op hx h => fateInv_step op hx h.1 h.2) (fateInv_init channelID ids sub)
  refine ⟨hinv.fates.patient r, fun payload hdecodes => ?_⟩
  cases hhandled : (x.world.life r).handled with
  | true =>
    rcases hinv.fates.settled r payload hhandled hdecodes with h | h | h
    · exact .inl h
    · exact .inr (.inl h)
    · exact .inr (.inr (.inl h))
  | false =>
    obtain ⟨hstart, hmoves⟩ : (x.world.life r).start = some .consuming ∧
        (x.world.life r).moves = [(.consuming, .decoding)] := by
      have hchapter := hinv.life.chapter r
      generalize x.world.pending r = n at hchapter
      cases hchapter with
      | before _ h _ _ =>
        rw [hdecodes] at h
        cases h
      | decoding h₀ h₁ _ _ _ _ => exact ⟨h₀, h₁⟩
      | dropped _ _ _ h _ | done _ _ _ h _ =>
        rw [hhandled] at h
        cases h
    rcases hinv.fates.accounted r (by rw [hstart]; simp) with ⟨m, sess, hget, rfl⟩ | hremoved
    · have hstage := hinv.life.stage hget
      have hdecoding : sess.stage = .decoding := by
        simpa [Life.stage, hmoves] using hstage.symm
      have hfits := hinv.life.fits m sess hget
      unfold StageFits at hfits
      rw [hdecoding] at hfits
      cases hdone : x.world.ctxDone with
      | true => exact .inr (.inr (.inr (.inl rfl)))
      | false =>
        exact .inr (.inr (.inr (.inr ⟨rfl, hfits.2.2 hhandled hdone, m, sess, hget, rfl, hdecoding⟩)))
    · obtain ⟨reason, hreason⟩ := Option.ne_none_iff_exists'.mp hremoved
      cases reason with
      | allPeersDone =>
        have hlate := hinv.fates.patient r hreason (by rw [hdecodes]; simp)
        rw [hhandled] at hlate
        cases hlate
      | replaced => exact .inr (.inl hreason)
      | ttlExpired => exact .inr (.inr (.inl hreason))

instance (x : Channel S) (op : Op S) : Decidable (SparesDecodes x op) :=
  inferInstanceAs (Decidable (_ = true))

/-- The reader of a chunk from `a` in a session that `b` has joined too. -/
def sharedReader (phase : ReaderPhase) : Reader :=
  { pairReader phase with ref := 4, group := some 3 }

theorem pairPayload_fits : [7, 8, 9, (0 : UInt8)].length ≤ maxChunkDataSize := by decide

/-- A second peer is attached, so the first one may leave while the message is decoded. -/
def sharedRelay : List (Op Rs.State) :=
  [.post (.peerChange ⟨"a", some 0⟩), .post (.peerChange ⟨"b", some 1⟩), .next, .next,
    .post (.sessionOpen "a" ⟨"m", [1], []⟩), .next, .post (.chunkStream ⟨"a", "m", [1], 4, 1⟩), .next,
    .reader (sharedReader .reading) (.got [7, 8, 9, 0]),
    .reader (sharedReader (.read ⟨[7, 8, 9, 0], pairPayload_fits⟩)) .hand, .next,
    .post (.peerSessionEnded "m" "a" 0), .decodePost pairDecoder, .next, .next]

theorem decoded_is_delivered_shared :
    ((pairRun sharedRelay).world.life 0).delivered = [[7, 8, 9]] ∧
      (((pairRun sharedRelay).world.life 0).removed = some .allPeersDone →
        ((pairRun sharedRelay).world.life 0).decodes ≠ [] →
        ((pairRun sharedRelay).world.life 0).handled = true) := by
  have hok : Along (step Rs.copiesScheme storedChance)
      (fun x op => OwnResult x op ∧ SparesDecodes x op) pairInit sharedRelay := by
    decide +kernel
  refine ⟨by decide +kernel, ?_⟩
  unfold pairRun pairInit
  exact (decoded_is_delivered Rs.copiesScheme storedChance _ _ _ sharedRelay hok 0).1

/-- The peer that sent the chunk ends its stream, as it may once we told it that we are complete: the
session is disposed for want of peers, and its message is lost. -/
theorem decoding_session_disposed :
    let ended := relayDecodes ++ [.post (.peerSessionEnded "m" "a" 0), .next]
    let disposed := (pairRun ended).world.life 0
    let settled := (pairRun (ended ++ [.decodePost pairDecoder, .next])).world.life 0
    disposed.decodes = [some [7, 8, 9]] ∧ disposed.handled = false ∧
      disposed.removed = some .allPeersDone ∧ settled.handled = true ∧ settled.delivered = [] := by
  decide +kernel

end Channel

end EthP2P.Broadcast
