/-
# EthP2P.Stack.Attempts — `Disconnect` and the attempts it does and does not reach

The dial table has one attempt per peer, and the caller of `Connect` that put it there takes it out again after its
last view got its result.  So a view of the attempt that still waits to be admitted finds the attempt's entry in the
table (`Tracks`), and an entry that a `Disconnect` marked keeps the view out.  What the supervisor was asked to drop
it drops before it admits a view that was handed over later.

The invariant of a run has four parts: what holds of the stack (`Standing`), of the dial table (`Dialing`), of the
history (`Chronicle`), and of the shared state and the drivers of attempts together (`Tracks`).
-/
import EthP2P.Stack.Connect
import Mathlib.Algebra.Order.Group.Multiset

namespace EthP2P.Stack

open Lib Wire StackState Stack.Task Map Multiset

namespace StackState

/-! ## The dial table and the records of peers -/

/-- Only the dial table and the records of peers change. -/
structure Sideline (s s' : StackState) : Prop where
  inv : Inv s → Inv s'
  requests : RequestInv s → RequestInv s'
  calls : Calls s s' fun _ => []
  ids : ∀ r u, s.sups.get r = some u → ∃ u', s'.sups.get r = some u' ∧ u'.id = u.id
  closed : s'.closed = s.closed
  views : s'.views = s.views
  nextView : s'.nextView = s.nextView
  nextDone : s'.nextDone = s.nextDone

theorem Sideline.refl (s : StackState) : Sideline s s :=
  ⟨id, id, ⟨fun _ => rfl, fun _ => (List.append_nil _).symm, rfl, rfl,
    ⟨[], (List.append_nil _).symm, by simp⟩, fun _ _ h => h, le_rfl, le_rfl⟩,
    fun _ u hu => ⟨u, hu, rfl⟩, rfl, rfl, rfl, rfl⟩

variable {s : StackState} {v : View}

theorem Sideline.dial {s' : StackState} (h : Sideline s s') (peer : PeerID) (d : Option DialAttempt) :
    Sideline s (s'.step (.dial peer d)) :=
  ⟨fun hinv => inv_step (h.inv hinv) _, fun hreq r u hu => (h.requests hreq r u hu).congr rfl id,
    ⟨h.calls.hold, h.calls.asks, h.calls.results,
    h.calls.finished, h.calls.released, h.calls.peers, h.calls.nextView, h.calls.nextDone⟩,
    h.ids, h.closed, h.views, h.nextView, h.nextDone⟩

theorem sideline_noteRecord (s : StackState) (peer : PeerID) (rec : Record) : Sideline s (s.noteRecord peer rec) := by
  unfold noteRecord withSup
  split
  · exact .refl s
  rename_i r _
  split
  · exact .refl s
  rename_i u hu
  obtain ⟨record, hrec⟩ := Supervisor.updateRecord_eq u (some rec)
  dsimp only
  rw [hrec]
  have hsame : ∀ r', (s.setSup r { u with record := record }).pendingFor r' = s.pendingFor r' := by
    intro r'
    rw [pendingFor_set rfl]
    split
    · rename_i hr
      rw [hr, pendingFor_of_get hu]
      rfl
    · rfl
  refine ⟨fun hinv => hinv.setSup hu rfl (.of_eq rfl rfl rfl rfl) rfl rfl rfl, fun hreq => ?_,
    ⟨hold_set_same hu rfl rfl, fun r' => ?_, rfl, rfl, ⟨[], (List.append_nil _).symm, by simp⟩,
      fun _ _ h => h, le_rfl, le_rfl⟩, fun r' w hw => ?_, rfl, rfl, rfl, rfl⟩
  · have hold := hreq r u hu
    exact requestInv_set hreq rfl ⟨hold.drained, hold.left, hold.awake, hold.paired, hold.closing⟩
      fun r' v _ hv => hv.congr rfl id
  · rw [List.append_nil]
    exact congrArg (List.filter Request.isAsk) (hsame r')
  show ∃ u', (s.sups.set r { u with record := record }).get r' = some u' ∧ u'.id = w.id
  rw [get_set]
  split
  · rename_i hr
    subst hr
    cases hu.symm.trans hw
    exact ⟨_, rfl, rfl⟩
  · exact ⟨w, hw, rfl⟩

theorem dials_noteRecord (s : StackState) (peer : PeerID) (rec : Record) :
    (s.noteRecord peer rec).dials = s.dials := by
  unfold noteRecord withSup
  split
  · rfl
  · split <;> rfl

/-- `Stack.attach` keeps the view, whatever becomes of it. -/
theorem attach_frame (s : StackState) (v : View) :
    (s.attach v).views = s.views.set s.nextView v ∧ (s.attach v).nextView = s.nextView + 1 ∧
      (s.attach v).dials = s.dials ∧ (s.attach v).closed = s.closed ∧ (s.attach v).nextDone = s.nextDone := by
  unfold attach
  dsimp only
  split
  · exact ⟨rfl, rfl, rfl, rfl, rfl⟩
  split
  · split <;> exact ⟨rfl, rfl, rfl, rfl, rfl⟩
  · exact ⟨rfl, rfl, rfl, rfl, rfl⟩

/-- The supervisor that a view is handed to is its peer's. -/
theorem attach_target (hinv : Inv s) {r : SupRef} {req : Request} (h : (r, req) ∈ s.posts (.attach v)) :
    req = .attach s.nextView ∧ s.closed = false ∧ ∃ u, (s.attach v).sups.get r = some u ∧ u.id = v.peer := by
  simp only [posts] at h
  split at h
  · cases h
  rename_i hopen
  obtain ⟨rfl, rfl⟩ := Prod.mk.inj (List.mem_singleton.mp h)
  refine ⟨rfl, by simpa using hopen, ?_⟩
  have hpeers : (s.attach v).peers.get v.peer = some ((s.peers.get v.peer).getD s.nextSup) := by
    cases hr : s.peers.get v.peer with
    | some r =>
      obtain ⟨u, hu, _, _⟩ := hinv.table _ _ hr
      simp [attach, hopen, hr, hu, append, setSup]
    | none => simp [attach, hopen, hr, append, setSup]
  obtain ⟨u, hu, hid, _⟩ := (inv_attach hinv v).table _ _ hpeers
  exact ⟨u, hu, hid⟩

/-- `Disconnect` marks the attempt in flight. -/
theorem disconnect_frame (s : StackState) (peer : PeerID) :
    (s.disconnect peer).views = s.views ∧ (s.disconnect peer).nextView = s.nextView ∧
      (s.disconnect peer).closed = s.closed ∧
      ∀ peer', (s.disconnect peer).dials.get peer' =
        if peer' = peer then (s.dials.get peer).map marked else s.dials.get peer' := by
  obtain ⟨dials, hdials, ⟨heq, _⟩ | ⟨r, u, _, _, heq⟩⟩ := disconnect_cases s peer
  · rw [heq]
    exact ⟨rfl, rfl, rfl, hdials⟩
  · rw [heq]
    exact ⟨rfl, rfl, rfl, hdials⟩

/-- An outbound view is refused while its peer's attempt is marked. -/
theorem rejection_of_marked {u : Supervisor} {a : DialAttempt}
    (hout : v.outbound = true) (ha : s.dials.get u.id = some a) (hmarked : a.state = .disconnected) :
    s.rejection u v ≠ none := by
  unfold rejection
  split
  · exact Option.some_ne_none _
  split
  · exact Option.some_ne_none _
  split
  · exact Option.some_ne_none _
  · rw [if_pos (by simp [hout, ha, hmarked])]
    exact Option.some_ne_none _

/-- Only a marked attempt makes an attach fail as disconnected. -/
theorem marked_of_rejection {u : Supervisor} {code : Code}
    (h : s.rejection u v = some (code, some .disconnected)) :
    ∃ a, s.dials.get u.id = some a ∧ a.state = .disconnected := by
  unfold rejection at h
  split at h
  · simp at h
  split at h
  · simp at h
  split at h
  · simp at h
  split at h
  · rename_i hmarked
    obtain ⟨_, hany⟩ := Bool.and_eq_true_iff.mp hmarked
    cases ha : s.dials.get u.id with
    | none => simp [ha] at hany
    | some a => exact ⟨a, rfl, by simpa [ha] using hany⟩
  · split at h
    · split at h <;> simp at h
    · cases h

end StackState

/-! ## The invariant -/

namespace Connecting

variable {s s' : Connecting}

/-- The attempt was in the dial table when a `Disconnect` took the mutex. -/
def Struck (s : Connecting) (d : AttemptRef) : Prop := ∃ lock ∈ s.locks, lock.inFlight = some d

/-- The views that a waiting `Disconnect` has to see dropped. -/
def before (s : Connecting) (k : DoneRef) : List ViewRef := ((s.waiting.get k).map Lock.views).getD []

/-- The view is not of an attempt that started after the `Disconnect` took the mutex. -/
def Early (s : Connecting) (k : DoneRef) (ref : ViewRef) : Prop :=
  ∀ d, s.producer.get ref = some d → ∀ lock, s.waiting.get k = some lock → d < lock.started

structure Standing (s : Connecting) : Prop where
  inv : s.stack.Inv
  requests : s.stack.RequestInv
  waits : s.stack.Waits
  admits : s.stack.Admits s.admitted
  drops : s.stack.Drops s.before
  spares : s.stack.Spares s.Early

structure Dialing (s : Connecting) : Prop where
  state : ∀ peer d, s.attempts.get peer = some d → ∃ a, s.stack.dials.get peer = some a ∧
    (a.state = .disconnected ∧ s.Struck d ∨ a.state = .inFlight ∧ ¬ s.Struck d)
  fresh : ∀ peer d, s.attempts.get peer = some d → d < s.nextAttempt
  inj : ∀ peer peer' d, s.attempts.get peer = some d → s.attempts.get peer' = some d → peer = peer'
  struck : ∀ lock ∈ s.locks, lock.started ≤ s.nextAttempt ∧ ∀ d, lock.inFlight = some d → d < lock.started
  ended : ∀ d state err, s.ended.get d = some (state, err) →
    state = .disconnected ∨ err = some .disconnected → s.Struck d
  cancelled : ∀ d ∈ s.cancelled, s.stack.closed = true ∨ (s.ended.get d).isSome = true ∨ s.Struck d

structure Chronicle (s : Connecting) : Prop where
  produced : ∀ ref d, s.producer.get ref = some d → ref < s.stack.nextView ∧ d < s.nextAttempt ∧
    ∀ v, s.stack.views.get ref = some v → v.outbound = true
  recorded : ∀ lock ∈ s.locks, lock.admitted <+: s.admitted
  barred : ∀ lock ∈ s.locks, ∀ d, lock.inFlight = some d →
    ∀ x ∈ s.admitted.drop lock.admitted.length, s.producer.get x.2 ≠ some d
  rejected : ∀ ref, (ref, some .disconnected) ∈ s.stack.results → ∀ d, s.producer.get ref = some d → s.Struck d
  returned : ∀ lock ∈ s.disconnects, ∀ v ∈ lock.views, s.stack.Gone v

end Connecting

/-- The attempt that a task drives. -/
def Task.drives : Task → Option (PeerID × AttemptRef)
  | .dial c d _ _ | .dialing c d _ _ | .handshake c d _ _ | .attach c d _ _ _ | .await c d _ _ _ | .finish c d _ =>
    some (c.id, d)
  | _ => none

/-- The view whose result a task waits for. -/
def Task.awaits : Task → Option ViewRef
  | .await _ _ _ _ ref => some ref
  | _ => none

/-- What a task owns: its entry of the dial table, with the view it waits for. -/
abbrev Driven := Multiset ((PeerID × AttemptRef) × Option ViewRef)

def Task.driven (t : Task) : Driven :=
  match t.drives with
  | none => 0
  | some e => {(e, t.awaits)}

namespace Connecting

/-- The dial table and the drivers of its attempts. -/
structure Tracks (s : Connecting) (m : Driven) : Prop where
  once : (m.map (·.1.1)).Nodup
  entry : ∀ x ∈ m, s.attempts.get x.1.1 = some x.1.2
  /-- Whoever made a view that waits to be admitted waits for its result. -/
  awaited : ∀ r ref d, .attach ref ∈ s.stack.asks r → s.producer.get ref = some d →
    ∃ u, s.stack.sups.get r = some u ∧ ((u.id, d), some ref) ∈ m

structure Good (s : Connecting) (m : Driven) : Prop where
  standing : Standing s
  dialing : Dialing s
  chronicle : Chronicle s
  tracks : Tracks s m

/-! ## Steps that leave the supervisors alone -/

section Aside

variable {s s' : Connecting} {m m' : Driven}

/-- What callers have returned, and whose contexts have ended, matters only to those that returned from
`Disconnect`. -/
theorem Good.callers (h : Good s m) (ctxDone nextCall connects) {disconnects : List Lock}
    (hreturned : ∀ lock ∈ disconnects, ∀ v ∈ lock.views, s.stack.Gone v) :
    Good { s with ctxDone, nextCall, connects, disconnects } m :=
  ⟨⟨h.1.inv, h.1.requests, h.1.waits, h.1.admits, h.1.drops, h.1.spares⟩,
    ⟨h.2.state, h.2.fresh, h.2.inj, h.2.struck, h.2.ended, h.2.cancelled⟩,
    ⟨h.3.produced, h.3.recorded, h.3.barred, h.3.rejected, hreturned⟩,
    ⟨h.4.once, h.4.entry, h.4.awaited⟩⟩

theorem Good.ret (h : Good s m) (c : Caller) (err : Option ConnectError) : Good (s.ret c err) m :=
  h.callers _ _ _ h.chronicle.returned

/-- A caller that goes on without an attempt of its own. -/
theorem Good.free (h : Good s m) {ts : List Task} (hts : (ts.map driven).sum = 0) :
    Good s ((ts.map driven).sum + m) := by
  rw [hts, zero_add]
  exact h

/-- What holds of the stack when only the dial table and the records change. -/
theorem Standing.sideline (h : Standing s) (hside : s.stack.Sideline s'.stack) (hadmitted : s'.admitted = s.admitted)
    (hproducer : s'.producer = s.producer) (hwaiting : s'.waiting = s.waiting) : Standing s' := by
  have hbefore : s'.before = s.before := by
    unfold before
    rw [hwaiting]
  have hearly : s'.Early = s.Early := by
    unfold Early
    rw [hproducer, hwaiting]
  refine ⟨hside.inv h.inv, hside.requests h.requests, h.waits.unasked hside.calls List.not_mem_nil, ?_, ?_, ?_⟩
  · rw [hadmitted]
    exact h.admits.calls hside.calls
  · rw [hbefore]
    exact h.drops.calls hside.calls (fun _ _ => rfl) (by simp)
  · rw [hearly]
    exact h.spares.calls h.waits h.drops hside.calls (fun _ _ _ _ he => he) (by simp) (by simp)

theorem Chronicle.sideline (h : Chronicle s) (hside : s.stack.Sideline s'.stack) (hadmitted : s'.admitted = s.admitted)
    (hproducer : s'.producer = s.producer) (hlocks : s'.locks = s.locks) (hreturned : s'.disconnects = s.disconnects)
    (hnext : s.nextAttempt ≤ s'.nextAttempt) : Chronicle s' := by
  refine ⟨fun ref d hd => ?_, ?_, ?_, fun ref href d hd => ?_, fun lock hlock v hv => ?_⟩
  · rw [hproducer] at hd
    obtain ⟨href, hlt, hout⟩ := h.produced ref d hd
    rw [hside.nextView, hside.views]
    exact ⟨href, hlt.trans_le hnext, hout⟩
  · rw [hlocks, hadmitted]
    exact h.recorded
  · rw [hlocks, hadmitted, hproducer]
    exact h.barred
  · rw [hside.calls.results] at href
    rw [hproducer] at hd
    unfold Struck
    rw [hlocks]
    exact h.rejected ref href d hd
  · rw [hreturned] at hlock
    exact hside.calls.gone (h.returned lock hlock v hv)

/-- The driver of a new attempt joins, or one that waits for nothing leaves. -/
theorem Tracks.sideline (h : Tracks s m) (hside : s.stack.Sideline s'.stack) (hproducer : s'.producer = s.producer)
    (honce : (m'.map (·.1.1)).Nodup) (hentry : ∀ x ∈ m', s'.attempts.get x.1.1 = some x.1.2)
    (hkeep : ∀ x ∈ m, x.2 ≠ none → x ∈ m') : Tracks s' m' := by
  refine ⟨honce, hentry, fun r ref d hr hd => ?_⟩
  rw [hside.calls.asks, List.append_nil] at hr
  rw [hproducer] at hd
  obtain ⟨u, hu, hmem⟩ := h.awaited r ref d hr hd
  obtain ⟨u', hu', hid⟩ := hside.ids r u hu
  exact ⟨u', hu', hid ▸ hkeep _ hmem (Option.some_ne_none _)⟩

theorem Good.noteRecord (h : Good s m) (c : Caller) : Good (s.noteRecord c) m := by
  have hside := s.stack.sideline_noteRecord c.id c.record
  refine ⟨h.standing.sideline hside rfl rfl rfl, ?_, h.chronicle.sideline hside rfl rfl rfl rfl le_rfl,
    h.tracks.sideline hside rfl h.tracks.once h.tracks.entry fun _ hx _ => hx⟩
  refine ⟨fun peer d hd => ?_, h.2.fresh, h.2.inj, h.2.struck, h.2.ended, fun d hd => ?_⟩
  · show ∃ a, (s.stack.noteRecord c.id c.record).dials.get peer = some a ∧ _
    rw [s.stack.dials_noteRecord]
    exact h.dialing.state peer d hd
  show (s.stack.noteRecord c.id c.record).closed = true ∨ _
  rw [hside.closed]
  exact h.dialing.cancelled d hd

/-- A new attempt. -/
theorem Good.start (h : Good s m) {peer : PeerID} (hnone : s.attempts.get peer = none) (rec : Record)
    (hs' : s' = { s with
      stack := s.stack.step (.dial peer (some { record := rec }))
      attempts := s.attempts.set peer s.nextAttempt
      nextAttempt := s.nextAttempt + 1 }) : Good s' ({((peer, s.nextAttempt), none)} + m) := by
  subst hs'
  have hside := (Sideline.refl s.stack).dial peer (some { record := rec })
  have hnew : ¬ s.Struck s.nextAttempt := by
    rintro ⟨lock, hlock, hd⟩
    obtain ⟨hle, hlt⟩ := h.dialing.struck lock hlock
    exact absurd ((hlt _ hd).trans_le hle) (lt_irrefl _)
  refine ⟨h.standing.sideline hside rfl rfl rfl, ?_, h.chronicle.sideline hside rfl rfl rfl rfl (Nat.le_succ _),
    h.tracks.sideline hside rfl ?_ ?_ fun x hx _ => mem_add.mpr (.inr hx)⟩
  · constructor
    case state =>
      intro peer' d hd
      show ∃ a, (s.stack.dials.set peer { record := rec }).get peer' = some a ∧ _
      simp only [get_set] at hd ⊢
      split at hd
      · rename_i hpeer
        cases hd
        rw [if_pos hpeer]
        exact ⟨_, rfl, .inr ⟨rfl, hnew⟩⟩
      · rename_i hpeer
        rw [if_neg hpeer]
        exact h.dialing.state peer' d hd
    case fresh =>
      intro peer' d hd
      simp only [get_set] at hd
      split at hd
      · cases hd
        exact Nat.lt_succ_self _
      · exact (h.dialing.fresh peer' d hd).trans (Nat.lt_succ_self _)
    case inj =>
      intro p₁ p₂ d h₁ h₂
      simp only [get_set] at h₁ h₂
      split at h₁ <;> split at h₂
      · rename_i hp₁ hp₂
        exact hp₁.trans hp₂.symm
      · cases h₁
        exact absurd (h.dialing.fresh _ _ h₂) (lt_irrefl _)
      · cases h₂
        exact absurd (h.dialing.fresh _ _ h₁) (lt_irrefl _)
      · exact h.dialing.inj p₁ p₂ d h₁ h₂
    case struck =>
      intro lock hlock
      obtain ⟨hle, hlt⟩ := h.dialing.struck lock hlock
      exact ⟨hle.trans (Nat.le_succ _), hlt⟩
    case ended => exact h.dialing.ended
    case cancelled => exact h.dialing.cancelled
  · rw [map_add, map_singleton, singleton_add, nodup_cons]
    refine ⟨fun hmem => ?_, h.tracks.once⟩
    obtain ⟨x, hx, hpeer⟩ := mem_map.mp hmem
    have hentry := h.tracks.entry x hx
    rw [hpeer, hnone] at hentry
    cases hentry
  · intro x hx
    show (s.attempts.set peer s.nextAttempt).get x.1.1 = some x.1.2
    rw [get_set]
    rcases mem_add.mp hx with hx | hx
    · rw [mem_singleton.mp hx]
      exact if_pos rfl
    have hentry := h.tracks.entry x hx
    rw [if_neg]
    · exact hentry
    rintro hpeer
    rw [hpeer, hnone] at hentry
    cases hentry

theorem dialState_result (s : Connecting) (c : Caller) (failures : List DialFailure)
    (h : (s.result c failures).1 = .disconnected ∨ (s.result c failures).2 = some .disconnected) :
    s.dialState c.id = .disconnected := by
  unfold result at h
  split at h
  rename_i state err heq
  have hstate : (if state = .inFlight then .done else state) = DialState.disconnected → state = .disconnected := by
    intro hs
    split at hs
    · cases hs
    · exact hs
  split at heq
  · cases heq
    exact hstate (h.resolve_right (by simp))
  split at heq
  · cases heq
    exact hstate (h.resolve_right (by simp))
  split at heq
  · assumption
  cases heq
  have hs := hstate (h.resolve_right (by cases failures.isEmpty <;> simp))
  split at hs
  · cases hs
  · exact hs

/-- The driver of an attempt takes it out of the table. -/
theorem Good.finish {c : Caller} {d : AttemptRef} (h : Good s ({((c.id, d), none)} + m))
    (failures : List DialFailure) : Good (s.finish c d failures).1 m := by
  have hentry : s.attempts.get c.id = some d :=
    h.tracks.entry _ (mem_add.mpr (.inl (mem_singleton_self _)))
  have honce := h.tracks.once
  rw [map_add, map_singleton, singleton_add, nodup_cons] at honce
  obtain ⟨stack, hstack, hside, hdials⟩ : ∃ stack, stack =
      (if !s.stack.closed && s.stack.connected c.id then s.stack.noteRecord c.id c.record else s.stack) ∧
      s.stack.Sideline stack ∧ stack.dials = s.stack.dials := by
    refine ⟨_, rfl, ?_, ?_⟩
    · split
      · exact s.stack.sideline_noteRecord c.id c.record
      · exact .refl _
    split
    · exact s.stack.dials_noteRecord c.id c.record
    · rfl
  have hside' := hside.dial c.id none
  unfold Connecting.finish
  rw [← hstack]
  apply Good.ret
  refine ⟨h.standing.sideline hside' rfl rfl rfl, ?_, h.chronicle.sideline hside' rfl rfl rfl rfl le_rfl,
    h.tracks.sideline hside' rfl honce.2 ?_ ?_⟩
  · constructor
    case state =>
      intro peer d' hd'
      show ∃ a, (stack.dials.del c.id).get peer = some a ∧ _
      simp only [get_del, hdials] at hd' ⊢
      split at hd'
      · cases hd'
      rename_i hpeer
      rw [if_neg hpeer]
      exact h.dialing.state peer d' hd'
    case fresh =>
      intro peer d' hd'
      simp only [get_del] at hd'
      split at hd'
      · cases hd'
      · exact h.dialing.fresh peer d' hd'
    case inj =>
      intro p₁ p₂ d' h₁ h₂
      simp only [get_del] at h₁ h₂
      split at h₁
      · cases h₁
      split at h₂
      · cases h₂
      · exact h.dialing.inj p₁ p₂ d' h₁ h₂
    case struck => exact h.dialing.struck
    case ended =>
      intro d' state err hd' hdisc
      simp only [get_set] at hd'
      split at hd'
      · rename_i heq
        subst heq
        cases hd'
        -- the result says so only if the entry was marked
        have hmarked := s.dialState_result c failures hdisc
        obtain ⟨a, ha, hstate⟩ := h.dialing.state c.id d' hentry
        simp only [dialState, ha, Option.map_some, Option.getD_some] at hmarked
        rw [hmarked] at hstate
        exact (hstate.resolve_right fun hflight => by cases hflight.1).2
      · exact h.dialing.ended d' state err hd' hdisc
    case cancelled =>
      intro d' hd'
      show stack.closed = true ∨ ((s.ended.set d (s.result c failures)).get d').isSome = true ∨ s.Struck d'
      rw [hside.closed, get_set]
      rcases List.mem_append.mp hd' with hd' | hd'
      · refine (h.dialing.cancelled d' hd').imp_right (Or.imp_left fun hsome => ?_)
        split
        · rfl
        · exact hsome
      · rw [if_pos (List.mem_singleton.mp hd')]
        exact .inr (.inl rfl)
  · intro x hx
    show (s.attempts.del c.id).get x.1.1 = some x.1.2
    rw [get_del, if_neg]
    · exact h.tracks.entry x (mem_add.mpr (.inr hx))
    · exact fun hpeer => honce.1 (mem_map.mpr ⟨x, hx, hpeer⟩)
  · intro x hx hne
    rcases mem_add.mp hx with hx | hx
    · rw [mem_singleton.mp hx] at hne
      exact absurd rfl hne
    · exact hx

end Aside

/-! ## Steps of the stack's methods -/

section Methods

variable {s s' : Connecting} {m m' : Driven}

theorem Standing.admitted_lt (h : Standing s) {x : PeerID × ViewRef} (hx : x ∈ s.admitted) :
    x.2 < s.stack.nextView := by
  rcases h.admits x hx with hgone | ⟨r, _, hhas⟩
  · exact h.waits.gone _ hgone
  · exact h.waits.inHand r _ hhas

/-- A view is handed to its peer's supervisor, by the accept loop or by the driver of an attempt. -/
theorem Good.attach (h : Good s m) (v : View) {producer : Map ViewRef AttemptRef}
    (hold : ∀ ref, ref ≠ s.stack.nextView → producer.get ref = s.producer.get ref)
    (hnew : ∀ d, producer.get s.stack.nextView = some d → d < s.nextAttempt ∧ v.outbound = true ∧
      (s.stack.closed = false → ((v.peer, d), some s.stack.nextView) ∈ m'))
    (honce : (m'.map (·.1.1)).Nodup) (hentry : ∀ x ∈ m', s.attempts.get x.1.1 = some x.1.2)
    (hkeep : ∀ x ∈ m, x.2 ≠ none → x ∈ m') :
    Good { s with stack := s.stack.step (.attach v), producer := producer } m' := by
  have hinv := h.standing.inv
  have hinv' := inv_step hinv (.attach v)
  have hcalls := calls_step hinv h.standing.requests (.attach v) rfl
  obtain ⟨hviews, hnext, hdials, hclosed, hdone⟩ := s.stack.attach_frame v
  have hback : ∀ ref < s.stack.nextView, producer.get ref = s.producer.get ref := fun ref hlt => hold ref hlt.ne
  -- the one request that is appended
  have hasked : ∀ {r req}, req ∈ s.stack.asked (.attach v) r → req = .attach s.stack.nextView :=
    fun hreq => (attach_target hinv (mem_asked hreq)).1
  refine ⟨⟨hinv', requestInv_step hinv h.standing.requests _, ?_, h.standing.admits.calls hcalls, ?_, ?_⟩,
    ?_, ?_, ⟨honce, hentry, fun r ref d hr hd => ?_⟩⟩
  · refine h.standing.waits.calls hcalls ((s.stack.peers.get v.peer).getD s.stack.nextSup) (fun r ref hr => ?_)
      fun r ref => ?_
    · have hmem := mem_asked hr
      simp only [posts] at hmem
      split at hmem
      · cases hmem
      obtain ⟨rfl, heq⟩ := Prod.mk.inj (List.mem_singleton.mp hmem)
      cases heq
      refine ⟨rfl, rfl, ?_⟩
      show s.stack.nextView < (s.stack.attach v).nextView
      rw [hnext]
      exact Nat.lt_succ_self _
    · simp only [asked, posts]
      split
      · simp
      rw [logOf_singleton]
      split
      · exact (List.count_le_length).trans (List.length_filter_le _ _)
      · simp
  · refine h.standing.drops.calls hcalls (fun _ _ => rfl) fun r code goAway k hk => ?_
    cases hasked hk
  · refine h.standing.spares.calls h.standing.waits h.standing.drops hcalls (fun k _ ref href he d hd => ?_)
      (fun r code goAway k hk => ?_) fun r => ?_
    · exact he d ((hback ref href).symm.trans hd)
    · cases hasked hk
    refine List.pairwise_of_forall_mem_list fun a _ b hb => ?_
    rw [hasked hb]
    cases a <;> trivial
  · refine ⟨fun peer d hd => ?_, h.2.fresh, h.2.inj, h.2.struck, h.2.ended, fun d hd => ?_⟩
    · show ∃ a, (s.stack.attach v).dials.get peer = some a ∧ _
      rw [hdials]
      exact h.dialing.state peer d hd
    show (s.stack.attach v).closed = true ∨ _
    rw [hclosed]
    exact h.dialing.cancelled d hd
  · constructor
    case produced =>
      intro ref d hd
      show ref < (s.stack.attach v).nextView ∧ d < s.nextAttempt ∧
        ∀ w, (s.stack.attach v).views.get ref = some w → w.outbound = true
      rw [hnext, hviews]
      by_cases href : ref = s.stack.nextView
      · subst href
        obtain ⟨hlt, hout, _⟩ := hnew d hd
        refine ⟨Nat.lt_succ_self _, hlt, fun w hw => ?_⟩
        rw [get_set, if_pos rfl] at hw
        cases hw
        exact hout
      · obtain ⟨hlt, hd', hout⟩ := h.chronicle.produced ref d ((hold ref href).symm.trans hd)
        refine ⟨hlt.trans (Nat.lt_succ_self _), hd', fun w hw => ?_⟩
        rw [get_set, if_neg href] at hw
        exact hout w hw
    case recorded => exact h.chronicle.recorded
    case barred =>
      intro lock hlock d hd x hx
      show producer.get x.2 ≠ some d
      rw [hback x.2 (h.standing.admitted_lt (List.mem_of_mem_drop hx))]
      exact h.chronicle.barred lock hlock d hd x hx
    case rejected =>
      intro ref href d hd
      rw [hcalls.results] at href
      have hlt := h.standing.waits.answered ref (List.mem_map_of_mem href)
      exact h.chronicle.rejected ref href d ((hback ref hlt).symm.trans hd)
    case returned => exact fun lock hlock w hw => hcalls.gone (h.chronicle.returned lock hlock w hw)
  · rcases hcalls.mem_asks hr with hr | hr
    · have hlt := h.standing.waits.fresh r ref hr
      obtain ⟨u, hu, hmem⟩ := h.tracks.awaited r ref d hr ((hback ref hlt).symm.trans hd)
      obtain ⟨u', hu', hid⟩ := id_step hinv (.attach v) hu
      exact ⟨u', hu', hid ▸ hkeep _ hmem (Option.some_ne_none _)⟩
    · obtain ⟨heq, hopen, u, hu, hid⟩ := attach_target hinv (mem_asked hr)
      cases heq
      exact ⟨u, hu, hid ▸ (hnew d hd).2.2 hopen⟩

/-- `Disconnect` up to its wait, whether or not there is a supervisor to wait for. -/
structure Locked (s s' : Connecting) (peer : PeerID) : Prop where
  stack : s'.stack = s.stack.step (.disconnect peer)
  attempts : s'.attempts = s.attempts
  nextAttempt : s'.nextAttempt = s.nextAttempt
  ended : s'.ended = s.ended
  producer : s'.producer = s.producer
  admitted : s'.admitted = s.admitted
  locks : s'.locks = s.locks ++ [s.lockOf peer]
  cancelled : ∀ d ∈ s'.cancelled, d ∈ s.cancelled ∨ s.attempts.get peer = some d
  waiting : ∀ k < s.stack.nextDone, s'.waiting.get k = s.waiting.get k
  asked : ∀ r, s.stack.peers.get peer = some r → s'.stack.nextDone = s.stack.nextDone + 1 ∧
    s'.waiting.get s.stack.nextDone = some (s.lockOf peer)
  returned : ∀ lock ∈ s'.disconnects, ∀ v ∈ lock.views, s.stack.Gone v

variable {peer : PeerID}

/-- The one request that a `Disconnect` appends. -/
theorem asked_disconnect {s : StackState} {r : SupRef} {req : Request}
    (h : req ∈ s.asked (.disconnect peer) r) :
    s.peers.get peer = some r ∧ req = .dropView .closing true (some s.nextDone) := by
  have hmem := mem_asked h
  simp only [posts, List.mem_map, Option.mem_toList, Prod.mk.injEq] at hmem
  obtain ⟨r', hr', rfl, rfl⟩ := hmem
  exact ⟨hr', rfl⟩

theorem asked_drop {s : StackState} {r : SupRef} {code : Code} {goAway : Bool} {k : DoneRef}
    (h : .dropView code goAway (some k) ∈ s.asked (.disconnect peer) r) :
    s.peers.get peer = some r ∧ k = s.nextDone := by
  obtain ⟨hr, heq⟩ := asked_disconnect h
  obtain ⟨_, _, hk⟩ := Request.dropView.inj heq
  exact ⟨hr, Option.some.inj hk⟩

theorem mem_views_lockOf {v : ViewRef} : v ∈ (s.lockOf peer).views ↔ (peer, v) ∈ s.admitted := by
  simp only [Lock.views, lockOf, List.mem_map, List.mem_filter]
  constructor
  · rintro ⟨x, ⟨hx, hpeer⟩, rfl⟩
    obtain rfl := of_decide_eq_true hpeer
    exact hx
  · exact fun h => ⟨(peer, v), ⟨h, decide_eq_true rfl⟩, rfl⟩

theorem Locked.calls (hl : Locked s s' peer) (h : Standing s) :
    s.stack.Calls s'.stack (s.stack.asked (.disconnect peer)) := by
  rw [hl.stack]
  exact calls_step h.inv h.requests (.disconnect peer) rfl

theorem Locked.struck (hl : Locked s s' peer) {d : AttemptRef} :
    s'.Struck d ↔ s.Struck d ∨ s.attempts.get peer = some d := by
  unfold Struck
  rw [hl.locks]
  simp only [List.mem_append, List.mem_singleton, or_and_right, exists_or, exists_eq_left]
  rfl

theorem Standing.locked (h : Standing s) (hl : Locked s s' peer)
    (hproduced : ∀ ref d, s.producer.get ref = some d → d < s.nextAttempt) : Standing s' := by
  have hcalls := hl.calls h
  refine ⟨?_, ?_, ?_, ?_, ?_, ?_⟩
  · rw [hl.stack]
    exact inv_step h.inv _
  · rw [hl.stack]
    exact requestInv_step h.inv h.requests _
  · exact h.waits.unasked hcalls fun hr => by cases (asked_disconnect hr).2
  · rw [hl.admitted]
    exact h.admits.calls hcalls
  · refine h.drops.calls hcalls (fun k hk => ?_) fun r code goAway k hk => ?_
    · unfold before
      rw [hl.waiting k hk]
    obtain ⟨hr, rfl⟩ := asked_drop hk
    obtain ⟨hdone, hlock⟩ := hl.asked r hr
    refine ⟨by rw [hdone]; exact Nat.lt_succ_self _, fun v hv => ?_⟩
    -- who was admitted is gone or in the hands of this supervisor
    simp only [before, hlock, Option.map_some, Option.getD_some, mem_views_lockOf] at hv
    refine (h.admits _ hv).imp_right ?_
    rintro ⟨r', hr', hhas⟩
    cases hr.symm.trans hr'
    exact hhas
  · refine h.spares.calls h.waits h.drops hcalls (fun k hk ref _ he d hd => ?_)
      (fun r code goAway k hk ref _ d hd lock hlock => ?_) fun r => ?_
    · rw [hl.producer] at hd
      rw [hl.waiting k hk]
      exact he d hd
    · obtain ⟨hr, rfl⟩ := asked_drop hk
      rw [(hl.asked r hr).2] at hlock
      cases hlock
      rw [hl.producer] at hd
      exact hproduced ref d hd
    · refine List.pairwise_of_forall_mem_list fun a ha b _ => ?_
      rw [(asked_disconnect ha).2]
      trivial

/-- The attempt in flight is marked, and no other. -/
theorem Dialing.locked (h : Dialing s) (hl : Locked s s' peer) : Dialing s' := by
  obtain ⟨_, _, hclosed, hdials⟩ := s.stack.disconnect_frame peer
  constructor
  case state =>
    intro peer' d hd
    rw [hl.attempts] at hd
    rw [hl.stack]
    show ∃ a, (s.stack.disconnect peer).dials.get peer' = some a ∧ _
    rw [hdials]
    obtain ⟨a, ha, hstate⟩ := h.state peer' d hd
    split
    · rename_i hpeer
      subst hpeer
      refine ⟨marked a, by rw [ha]; rfl, .inl ⟨?_, hl.struck.mpr (.inr hd)⟩⟩
      unfold marked
      rcases hstate with ⟨hs, _⟩ | ⟨hs, _⟩
      · rw [if_neg (by rw [hs]; exact DialState.noConfusion)]
        exact hs
      · rw [if_pos hs]
    · rename_i hpeer
      refine ⟨a, ha, hstate.imp (fun hs => ⟨hs.1, hl.struck.mpr (.inl hs.2)⟩) fun hs => ⟨hs.1, fun hst => ?_⟩⟩
      rcases hl.struck.mp hst with hst | hst
      · exact hs.2 hst
      · exact hpeer (h.inj peer' peer d hd hst)
  case fresh =>
    rw [hl.attempts, hl.nextAttempt]
    exact h.fresh
  case inj =>
    rw [hl.attempts]
    exact h.inj
  case struck =>
    rw [hl.locks, hl.nextAttempt]
    intro lock hlock
    rcases List.mem_append.mp hlock with hlock | hlock
    · exact h.struck lock hlock
    · rw [List.mem_singleton.mp hlock]
      exact ⟨le_rfl, fun d hd => h.fresh peer d hd⟩
  case ended =>
    rw [hl.ended]
    exact fun d state err hd hdisc => hl.struck.mpr (.inl (h.ended d state err hd hdisc))
  case cancelled =>
    intro d hd
    rw [hl.stack, hl.ended]
    show (s.stack.disconnect peer).closed = true ∨ _
    rw [hclosed]
    rcases hl.cancelled d hd with hd | hd
    · exact (h.cancelled d hd).imp_right (Or.imp_right fun hst => hl.struck.mpr (.inl hst))
    · exact .inr (.inr (hl.struck.mpr (.inr hd)))

theorem Chronicle.locked (h : Chronicle s) (hstanding : Standing s) (hl : Locked s s' peer) : Chronicle s' := by
  have hcalls := hl.calls hstanding
  obtain ⟨hviews, hnext, _, _⟩ := s.stack.disconnect_frame peer
  constructor
  case produced =>
    rw [hl.producer, hl.stack, hl.nextAttempt]
    show ∀ ref d, s.producer.get ref = some d → ref < (s.stack.disconnect peer).nextView ∧ d < s.nextAttempt ∧
      ∀ v, (s.stack.disconnect peer).views.get ref = some v → v.outbound = true
    rw [hnext, hviews]
    exact h.produced
  case recorded =>
    rw [hl.locks, hl.admitted]
    intro lock hlock
    rcases List.mem_append.mp hlock with hlock | hlock
    · exact h.recorded lock hlock
    · rw [List.mem_singleton.mp hlock]
      exact List.prefix_refl _
  case barred =>
    rw [hl.locks, hl.admitted, hl.producer]
    intro lock hlock d hd x hx
    rcases List.mem_append.mp hlock with hlock | hlock
    · exact h.barred lock hlock d hd x hx
    -- nothing has been admitted since
    rw [List.mem_singleton.mp hlock] at hx
    simp [lockOf] at hx
  case rejected =>
    rw [hcalls.results, hl.producer]
    exact fun ref href d hd => hl.struck.mpr (.inl (h.rejected ref href d hd))
  case returned => exact fun lock hlock v hv => hcalls.gone (hl.returned lock hlock v hv)

theorem Good.locked (h : Good s m) (hl : Locked s s' peer) : Good s' m := by
  refine ⟨h.standing.locked hl fun ref d hd => (h.chronicle.produced ref d hd).2.1, h.dialing.locked hl,
    h.chronicle.locked h.standing hl, ⟨h.tracks.once, ?_, fun r ref d hr hd => ?_⟩⟩
  · rw [hl.attempts]
    exact h.tracks.entry
  rw [hl.producer] at hd
  rcases (hl.calls h.standing).mem_asks hr with hr | hr
  · obtain ⟨u, hu, hmem⟩ := h.tracks.awaited r ref d hr hd
    obtain ⟨u', hu', hid⟩ := id_step h.standing.inv (.disconnect peer) hu
    rw [hl.stack]
    exact ⟨u', hu', hid ▸ hmem⟩
  · cases (asked_disconnect hr).2

theorem Good.disconnect (h : Good s m) (peer : PeerID) : Good (s.noted (.disconnect peer) (s.disconnect peer)) m := by
  have hcancel : ∀ d ∈ s.cancelled ++ (if s.dialState peer = .inFlight then (s.attempts.get peer).toList else []),
      d ∈ s.cancelled ∨ s.attempts.get peer = some d := by
    intro d hd
    refine (List.mem_append.mp hd).imp_right fun hd => ?_
    split at hd
    · simpa using hd
    · cases hd
  cases hpeer : s.stack.peers.get peer with
  | none =>
    simp only [noted, Connecting.disconnect, hpeer]
    refine h.locked ⟨rfl, rfl, rfl, rfl, rfl, rfl, rfl, hcancel, fun _ _ => rfl, fun r hr => ?_,
      fun lock hlock v hv => ?_⟩
    · rw [hpeer] at hr
      cases hr
    -- without a supervisor nobody has a view of the peer in hand
    rcases List.mem_append.mp hlock with hlock | hlock
    · exact h.chronicle.returned lock hlock v hv
    rw [List.mem_singleton.mp hlock] at hv
    refine (h.standing.admits _ (mem_views_lockOf.mp hv)).resolve_right ?_
    rintro ⟨r, hr, _⟩
    rw [hpeer] at hr
    cases hr
  | some r =>
    simp only [noted, Connecting.disconnect, hpeer]
    refine h.locked ⟨rfl, rfl, rfl, rfl, rfl, rfl, rfl, hcancel, fun k hk => ?_,
      fun r' hr' => ⟨?_, ?_⟩, h.chronicle.returned⟩
    · show (s.waiting.set s.stack.nextDone _).get k = _
      rw [get_set, if_neg hk.ne]
    · obtain ⟨u, hu, _, _⟩ := h.standing.inv.table _ _ hpeer
      obtain ⟨dials, _, ⟨_, hnone⟩ | ⟨_, _, _, _, heq⟩⟩ := s.stack.disconnect_cases peer
      · rw [hnone r hpeer] at hu
        cases hu
      show (s.stack.disconnect peer).nextDone = _
      rw [heq]
      rfl
    · show (s.waiting.set s.stack.nextDone _).get s.stack.nextDone = _
      rw [get_set, if_pos rfl]

/-- A `Disconnect` returns when its drop has been answered. -/
theorem Good.answered (h : Good s m) {k : DoneRef} (hk : s.answered k = true) :
    Good { s with disconnects := s.disconnects ++ (s.waiting.get k).toList } m := by
  have hans : s.stack.Answered k := by
    rcases Bool.or_eq_true_iff.mp hk with hk | hk
    · exact .inl (by simpa using hk)
    · obtain ⟨x, hx, hdone⟩ := List.any_eq_true.mp hk
      exact .inr ⟨x, hx, by simpa using hdone⟩
  refine h.callers _ _ _ fun lock hlock v hv => ?_
  rcases List.mem_append.mp hlock with hlock | hlock
  · exact h.chronicle.returned lock hlock v hv
  refine h.standing.drops.answered k hans v ?_
  have hwaits : s.waiting.get k = some lock := Option.mem_toList.mp hlock
  simp only [before, hwaits, Option.map_some, Option.getD_some]
  exact hv

theorem Good.close (h : Good s m) : Good (ConnectPool.close s) m := by
  unfold ConnectPool.close
  split
  · exact h
  rename_i hopen
  have hinv := h.standing.inv
  have hcalls := calls_step hinv h.standing.requests .close rfl
  have hposted : ∀ {r req}, req ∈ s.stack.asked .close r → req = .dropView .closing true none := by
    intro r req hreq
    have hmem := mem_asked hreq
    simp only [posts, if_neg hopen, List.mem_map, Prod.mk.injEq] at hmem
    obtain ⟨_, _, _, heq⟩ := hmem
    exact heq.symm
  have hclose : s.stack.step .close = { s.stack with
      closed := true
      sups := (s.stack.step .close).sups
      signals := (s.stack.step .close).signals } := by
    simp [StackState.step, StackState.close, hopen]
  refine ⟨⟨inv_step hinv .close, requestInv_step hinv h.standing.requests .close, ?_,
    h.standing.admits.calls hcalls, ?_, ?_⟩, ⟨?_, h.2.fresh, h.2.inj, h.2.struck, h.2.ended, ?_⟩,
    ⟨?_, h.3.recorded, h.3.barred, ?_, ?_⟩, ⟨h.4.once, h.4.entry, fun r ref d hr hd => ?_⟩⟩
  · exact h.standing.waits.unasked hcalls fun hr => by cases hposted hr
  · exact h.standing.drops.calls hcalls (fun _ _ => rfl) fun r code goAway k hk => by cases hposted hk
  · refine h.standing.spares.calls h.standing.waits h.standing.drops hcalls (fun _ _ _ _ he => he)
      (fun r code goAway k hk => by cases hposted hk) fun r => ?_
    refine List.pairwise_of_forall_mem_list fun a ha b _ => ?_
    rw [hposted ha]
    trivial
  · show ∀ peer d, s.attempts.get peer = some d → ∃ a, (s.stack.step .close).dials.get peer = some a ∧ _
    rw [hclose]
    exact h.dialing.state
  · show ∀ d ∈ _, (s.stack.step .close).closed = true ∨ _
    rw [hclose]
    exact fun d _ => .inl rfl
  · show ∀ ref d, s.producer.get ref = some d → ref < (s.stack.step .close).nextView ∧ d < s.nextAttempt ∧
      ∀ v, (s.stack.step .close).views.get ref = some v → v.outbound = true
    rw [hclose]
    exact h.chronicle.produced
  · show ∀ ref, (ref, some .disconnected) ∈ (s.stack.step .close).results → _
    rw [hcalls.results]
    exact h.chronicle.rejected
  · exact fun lock hlock v hv => hcalls.gone (h.chronicle.returned lock hlock v hv)
  · rcases hcalls.mem_asks hr with hr | hr
    · obtain ⟨u, hu, hmem⟩ := h.tracks.awaited r ref d hr hd
      obtain ⟨u', hu', hid⟩ := id_step hinv .close hu
      exact ⟨u', hu', hid ▸ hmem⟩
    · cases hposted hr

end Methods

/-! ## Steps of the supervisors -/

section Internal

variable {s : Connecting} {m : Driven} {op : StackState.StackOp}

variable {d : AttemptRef}

/-- The view that an attach request stands for was made by the attempt that is in the dial table. -/
theorem Good.entry_of_ask (h : Good s m) {r : SupRef} {u : Supervisor} (hu : s.stack.sups.get r = some u)
    {ref : ViewRef} (hask : .attach ref ∈ s.stack.asks r) (hd : s.producer.get ref = some d) :
    s.attempts.get u.id = some d := by
  obtain ⟨u', hu', hmem⟩ := h.tracks.awaited r ref d hask hd
  cases hu.symm.trans hu'
  exact h.tracks.entry _ hmem

/-- Only views of attempts that are not marked are admitted. -/
theorem Good.admits (h : Good s m) (hop : op.internal = true) {x : PeerID × ViewRef}
    (hx : x ∈ s.stack.admits op) (hd : s.producer.get x.2 = some d) : ¬ s.Struck d := by
  intro hstruck
  obtain ⟨r, u, v, hruns, hu, hv, hrej, _⟩ := mem_admits hx
  have hask : .attach x.2 ∈ s.stack.asks r := by
    rw [asks_internal h.standing.inv h.standing.requests hop r, hruns, logOf_singleton, if_pos rfl]
    exact List.mem_append_left _ List.mem_cons_self
  obtain ⟨a, ha, hstate⟩ := h.dialing.state u.id d (h.entry_of_ask hu hask hd)
  have hmarked := (hstate.resolve_right fun hflight => hflight.2 hstruck).1
  have hout := (h.chronicle.produced x.2 d hd).2.2 v hv
  exact rejection_of_marked hout ha hmarked hrej

/-- An attach fails as disconnected only if its attempt was marked. -/
theorem Good.rejects (h : Good s m) (hop : op.internal = true) {ref : ViewRef}
    (href : (ref, some .disconnected) ∈ (s.stack.step op).results)
    (hd : s.producer.get ref = some d) : s.Struck d := by
  have hadv := (advance_internal h.standing.inv h.standing.requests hop).1
  cases hadv with
  | aside _ _ hdoes =>
    rw [hdoes.results, List.append_nil] at href
    exact h.chronicle.rejected ref href d hd
  | turn r u reqs deeds hu hother hcarry hasks hdoes =>
    rw [hdoes.results] at href
    rcases List.mem_append.mp href with href | href
    · exact h.chronicle.rejected ref href d hd
    obtain ⟨rfl, v, code, _, hrej⟩ := hcarry.failed href
    have hask : .attach ref ∈ s.stack.asks r := hasks ▸ List.mem_cons_self
    obtain ⟨a, ha, hmarked⟩ := marked_of_rejection hrej
    obtain ⟨a', ha', hstate⟩ := h.dialing.state u.id d (h.entry_of_ask hu hask hd)
    cases ha.symm.trans ha'
    rw [hmarked] at hstate
    exact (hstate.resolve_right fun hflight => by cases hflight.1).2

theorem Good.internal (h : Good s m) (hop : op.internal = true) :
    Good { s with stack := s.stack.step op, admitted := s.admitted ++ s.stack.admits op } m := by
  have hinv := h.standing.inv
  obtain ⟨hadv, hkeeps⟩ := advance_internal hinv h.standing.requests hop
  refine ⟨⟨inv_step hinv _, requestInv_step hinv h.standing.requests _,
    h.standing.waits.advance hadv hkeeps, h.standing.admits.internal hinv h.standing.requests h.standing.waits hop,
    h.standing.drops.advance h.standing.waits hadv hkeeps, h.standing.spares.advance hadv⟩, ?_, ?_,
    ⟨h.tracks.once, h.tracks.entry, fun r ref d hr hd => ?_⟩⟩
  · refine ⟨?_, h.2.fresh, h.2.inj, h.2.struck, h.2.ended, ?_⟩
    · show ∀ peer d, s.attempts.get peer = some d → ∃ a, (s.stack.step op).dials.get peer = some a ∧ _
      rw [hkeeps.dials]
      exact h.dialing.state
    show ∀ d ∈ s.cancelled, (s.stack.step op).closed = true ∨ _
    rw [hkeeps.closed]
    exact h.dialing.cancelled
  · constructor
    case produced =>
      intro ref d hd
      show ref < (s.stack.step op).nextView ∧ d < s.nextAttempt ∧ ∀ v, (s.stack.step op).views.get ref = some v → _
      rw [hkeeps.nextView]
      obtain ⟨hlt, hd', hout⟩ := h.chronicle.produced ref d hd
      refine ⟨hlt, hd', fun v' hv' => ?_⟩
      obtain ⟨v, hv⟩ := hkeeps.known ref v' hv'
      obtain ⟨w, hw, hsame⟩ := hkeeps.views ref v hv
      cases hv'.symm.trans hw
      exact hsame.trans (hout v hv)
    case recorded => exact fun lock hlock => (h.chronicle.recorded lock hlock).trans (List.prefix_append _ _)
    case barred =>
      intro lock hlock d hd x hx
      have hle := (h.chronicle.recorded lock hlock).length_le
      rw [List.drop_append_of_le_length hle] at hx
      rcases List.mem_append.mp hx with hx | hx
      · exact h.chronicle.barred lock hlock d hd x hx
      · exact fun hprod => h.admits hop hx hprod ⟨lock, hlock, hd⟩
    case rejected => exact fun ref href d hd => h.rejects hop href hd
    case returned => exact fun lock hlock v hv => hadv.gone (h.chronicle.returned lock hlock v hv)
  · obtain ⟨u, hu, hmem⟩ := h.tracks.awaited r ref d (hadv.mem_asks hr) hd
    obtain ⟨u', hu', hid⟩ := id_step hinv op hu
    exact ⟨u', hu', hid ▸ hmem⟩

end Internal

/-! ## Steps of the callers -/

section Callers

variable {s : Connecting} {m : Driven}

theorem sum_driven_singleton (t : Task) : ([t].map driven).sum = t.driven := by
  simp

variable {c : Caller}

/-- The driver of an attempt hands its view over. -/
theorem Good.attachTask {d : AttemptRef} {n : Nat} {failures : List DialFailure} {v : View}
    (h : Good s ((Task.attach c d n failures v).driven + m)) :
    Good (s.attach c d n failures v).1 (((s.attach c d n failures v).2.map driven).sum + m) := by
  have hentry : s.attempts.get c.id = some d :=
    h.tracks.entry _ (mem_add.mpr (.inl (mem_singleton_self _)))
  have hkeep : ∀ (w : Option ViewRef), ∀ x ∈ (Task.attach c d n failures v).driven + m, x.2 ≠ none →
      x ∈ ({((c.id, d), w)} : Driven) + m := by
    intro w x hx hne
    rcases mem_add.mp hx with hx | hx
    · rw [mem_singleton.mp hx] at hne
      exact absurd rfl hne
    · exact mem_add.mpr (.inr hx)
  -- the driver keeps its entry and waits for `w`
  have hgood : ∀ w : Option ViewRef, (s.stack.closed = false → w = some s.stack.nextView) →
      Good { s with
        stack := s.stack.step (.attach { v with peer := c.id, outbound := true })
        producer := s.producer.set s.stack.nextView d } ({((c.id, d), w)} + m) := by
    intro w hw
    refine h.attach _ (fun ref href => ?_) (fun d' hd' => ?_) ?_ ?_ (hkeep w)
    · rw [get_set, if_neg href]
    · rw [get_set, if_pos rfl] at hd'
      cases hd'
      refine ⟨h.dialing.fresh c.id d hentry, rfl, fun hopen => ?_⟩
      rw [hw hopen]
      exact mem_add.mpr (.inl (mem_singleton_self _))
    · have honce := h.tracks.once
      rw [map_add] at honce ⊢
      exact honce
    · intro x hx
      rcases mem_add.mp hx with hx | hx
      · rw [mem_singleton.mp hx]
        exact hentry
      · exact h.tracks.entry x (mem_add.mpr (.inr hx))
  unfold Connecting.attach
  dsimp only
  split
  · rename_i hclosed
    rw [sum_driven_singleton]
    exact hgood none fun hopen => by
      rw [hclosed] at hopen
      cases hopen
  · rw [sum_driven_singleton]
    exact hgood (some s.stack.nextView) fun _ => rfl

theorem result_of_find {ref : ViewRef} {x : ViewRef × Option AttachError}
    (h : s.stack.results.find? (·.1 = ref) = some x) : ref ∈ s.stack.results.map Prod.fst := by
  have href : x.1 = ref := by simpa using List.find?_some h
  exact href ▸ List.mem_map_of_mem (List.mem_of_find?_eq_some h)

/-- A view whose result has come no longer waits. -/
theorem Good.resulted {e : PeerID × AttemptRef} {ref : ViewRef} (h : Good s ({(e, some ref)} + m))
    (hres : ref ∈ s.stack.results.map Prod.fst) : Good s ({(e, none)} + m) := by
  refine ⟨h.standing, h.dialing, h.chronicle, ?_, fun x hx => ?_, fun r ref' d hr hd => ?_⟩
  · have honce := h.tracks.once
    rw [map_add] at honce ⊢
    exact honce
  · rcases mem_add.mp hx with hx | hx
    · rw [mem_singleton.mp hx]
      exact h.tracks.entry (e, some ref) (mem_add.mpr (.inl (mem_singleton_self _)))
    · exact h.tracks.entry x (mem_add.mpr (.inr hx))
  · obtain ⟨u, hu, hmem⟩ := h.tracks.awaited r ref' d hr hd
    refine ⟨u, hu, mem_add.mpr (.inr ((mem_add.mp hmem).resolve_left fun hmem => ?_))⟩
    obtain ⟨_, href⟩ := Prod.mk.inj (mem_singleton.mp hmem)
    obtain rfl := Option.some.inj href
    exact h.standing.waits.unanswered r ref' hr hres

theorem Good.enter (h : Good s m) : Good (s.enter c).1 (((s.enter c).2.map driven).sum + m) := by
  unfold Connecting.enter
  split
  · exact (h.ret c _).free rfl
  split
  · exact ((h.noteRecord c).ret c _).free rfl
  split
  · exact (h.ret c _).free rfl
  split
  · rw [sum_driven_singleton]
    exact (zero_add m).symm ▸ h
  rename_i hnone
  rw [sum_driven_singleton]
  exact h.start hnone c.record rfl

theorem Good.woken (h : Good s m) (d : AttemptRef) : Good (s.woken c d).1 (((s.woken c d).2.map driven).sum + m) := by
  unfold Connecting.woken
  split
  · exact ((h.noteRecord c).ret c _).free rfl
  split
  · exact (h.ret c _).free rfl
  split
  · exact h.free rfl
  split
  · exact h.free rfl
  · exact (h.ret c _).free rfl

/-- **One step of one caller**, whatever the others own. -/
theorem good_advance (s : Connecting) (t : Task) (o : Outcome) (m : Driven) (h : Good s (t.driven + m)) :
    Good (s.advance t o).1 (((s.advance t o).2.map driven).sum + m) := by
  -- a caller that goes on with what it owns
  have hsame : ∀ t' : Task, t'.driven = t.driven → Good s (([t'].map driven).sum + m) := by
    intro t' ht'
    rw [sum_driven_singleton, ht']
    exact h
  cases t with
  | enter c =>
    rw [show (Task.enter c).driven = 0 from rfl, zero_add] at h
    cases o <;> exact h.enter
  | wait c d =>
    have h' : Good s m := by
      rw [show (wait c d).driven = 0 from rfl, zero_add] at h
      exact h
    cases o with
    | ok =>
      simp only [advance, noted, step]
      split <;> exact hsame _ rfl
    | fail | legacy | view =>
      simp only [advance, noted, step]
      split
      · exact (h'.ret c _).free rfl
      · exact hsame _ rfl
  | woken c d =>
    rw [show (Task.woken c d).driven = 0 from rfl, zero_add] at h
    cases o <;> exact h.woken d
  | dial c d n failures =>
    cases n with
    | zero => exact hsame (.finish c d failures) rfl
    | succ n =>
      simp only [advance, noted, step]
      split <;> exact hsame _ rfl
  | dialing c d n failures =>
    cases o with
    | ok => exact hsame (.handshake c d n failures) rfl
    | legacy => exact hsame (.finish c d (failures ++ [.legacy])) rfl
    | fail | view => exact hsame (.dial c d n (failures ++ [.dial])) rfl
  | handshake c d n failures =>
    cases o with
    | view v => exact hsame (.attach c d n failures v) rfl
    | ok | fail | legacy => exact hsame (.dial c d n (failures ++ [.handshake])) rfl
  | attach c d n failures v => exact h.attachTask
  | await c d n failures ref =>
    simp only [advance, noted, step]
    split
    · exact hsame _ rfl
    · rename_i ref' hfind
      rw [sum_driven_singleton]
      exact h.resulted (result_of_find hfind)
    · rename_i ref' e hfind
      rw [sum_driven_singleton]
      exact h.resulted (result_of_find hfind)
  | finish c d failures => exact (h.finish failures).free rfl
  | disconnect peer =>
    rw [show (Task.disconnect peer).driven = 0 from rfl, zero_add] at h
    have hdriven : ((s.disconnect peer).2.map driven).sum = 0 := by
      unfold Connecting.disconnect
      dsimp only
      split <;> rfl
    show Good (s.noted (.disconnect peer) (s.disconnect peer)) (((s.disconnect peer).2.map driven).sum + m)
    rw [hdriven, zero_add]
    exact h.disconnect peer
  | disconnecting k =>
    simp only [advance, noted, step]
    split
    · rename_i hk
      simp only [List.isEmpty_nil, if_true]
      rw [show (disconnecting k).driven = 0 from rfl, zero_add] at h
      exact (h.answered hk).free rfl
    · exact hsame _ rfl

end Callers

end Connecting

namespace ConnectPool

open Connecting

/-- The invariant of a run. -/
def Inv (p : ConnectPool) : Prop := Good p.shared (Pool.held driven p)

theorem inv_init (self : PeerID) (registry : Registry) : Inv (init self registry) := by
  have hhold : ∀ r, (StackState.init self registry).hold r = {} := fun _ => rfl
  have hasks : ∀ r, (StackState.init self registry).asks r = [] := fun _ => rfl
  have hreleased : (StackState.init self registry).released = [] := rfl
  have hresults : (StackState.init self registry).results = [] := rfl
  have hfinished : (StackState.init self registry).finished = [] := rfl
  refine ⟨⟨StackState.inv_init self registry, requestInv_init self registry, ?_, ?_, ?_, ?_⟩, ?_, ?_, ?_⟩
  · constructor <;> simp [init, hasks, hhold, hreleased, hresults, Gone, Hold.Has]
  · simp [init, Admits]
  · constructor <;> simp [init, hasks, hhold, hreleased, hfinished, Knows, Answered]
  · constructor <;> simp [init, hasks, hhold, hreleased]
  · constructor <;> simp [init]
  · constructor <;> simp [init, hresults]
  · constructor <;> simp [init, Pool.held, hasks]

theorem inv_event (p : ConnectPool) (ev : ConnectEvent) (h : Inv p) : Inv (p.event ev) := by
  have hpending : ∀ call, Good { p.shared with nextCall := call } (Pool.held driven p) :=
    fun call => Good.callers h _ call _ h.chronicle.returned
  cases ev with
  | connect record endpoints =>
    simp only [event, connect]
    split
    · exact (hpending _).ret _ _
    split
    · exact (hpending _).ret _ _
    unfold Inv
    rw [Pool.held_spawn, show (Task.enter _).driven = 0 from rfl, zero_add]
    exact hpending _
  | disconnect peer =>
    unfold Inv
    simp only [event, Pool.held_spawn]
    rw [show (disconnect peer).driven = 0 from rfl, zero_add]
    exact h
  | cancel call =>
    exact Good.callers h _ _ _ h.chronicle.returned
  | accept v =>
    refine Good.attach h _ (fun _ _ => rfl) (fun d hd => ?_) h.tracks.once h.tracks.entry fun _ hx _ => hx
    exact absurd (h.chronicle.produced _ d hd).1 (lt_irrefl _)
  | close => exact Good.close h
  | op o =>
    simp only [event]
    split
    · rename_i hop
      exact Good.internal h hop
    · exact h
  | run i o => exact Pool.run_frame Connecting.advance driven good_advance h i o

/-- What `Disconnect` does to attempts and views, and what it does not. -/
structure Orderly (p : ConnectPool) : Prop where
  /-- Each peer has at most one attempt in flight. -/
  oneDial : ((p.tasks.filterMap drives).map Prod.fst).Nodup
  recorded : ∀ lock ∈ p.shared.locks, lock.admitted <+: p.shared.admitted
  /-- No view made by an attempt that was in flight when a `Disconnect` took the mutex is admitted afterwards. -/
  barred : ∀ lock ∈ p.shared.locks, ∀ d, lock.inFlight = some d →
    ∀ x ∈ p.shared.admitted.drop lock.admitted.length, p.shared.producer.get x.2 ≠ some d
  /-- The views of the peer that were admitted before have been dropped when the `Disconnect` returns. -/
  dropped : ∀ lock ∈ p.shared.disconnects, ∀ v ∈ lock.views, v ∈ p.shared.stack.released.map (·.view)
  /-- An attempt that was in flight had started. -/
  started : ∀ lock ∈ p.shared.locks, ∀ d, lock.inFlight = some d → d < lock.started
  /-- Views are refused, attempts end as disconnected and are cancelled on account of a `Disconnect` only if they
  were in flight. -/
  refused : ∀ ref d, (ref, some .disconnected) ∈ p.shared.stack.results → p.shared.producer.get ref = some d →
    p.shared.Struck d
  ended : ∀ d state err, p.shared.ended.get d = some (state, err) →
    state = .disconnected ∨ err = some .disconnected → p.shared.Struck d
  cancelled : ∀ d ∈ p.shared.cancelled, p.shared.stack.closed = true ∨ (p.shared.ended.get d).isSome = true ∨
    p.shared.Struck d
  /-- The view that a `Disconnect` drops is not of an attempt that started later. -/
  spared : ∀ x ∈ p.shared.stack.released, ∀ k lock d, x.done = some k → p.shared.waiting.get k = some lock →
    p.shared.producer.get x.view = some d → d < lock.started

/-- The peers of what the drivers own. -/
theorem held_peers (ts : List Task) :
    ((ts.map driven).sum.map (·.1.1)) = ((ts.filterMap drives).map Prod.fst : Multiset PeerID) := by
  induction ts with
  | nil => rfl
  | cons t ts ih =>
    rw [List.map_cons, List.sum_cons, map_add, ih, List.filterMap_cons]
    unfold driven
    cases t.drives with
    | none => simp
    | some e => simp

theorem Inv.orderly {p : ConnectPool} (h : Inv p) : Orderly p where
  oneDial := by
    have honce := h.tracks.once
    unfold Pool.held at honce
    rw [held_peers] at honce
    exact honce
  recorded := h.chronicle.recorded
  barred := h.chronicle.barred
  dropped := h.chronicle.returned
  started lock hlock := (h.dialing.struck lock hlock).2
  refused ref d href hd := h.chronicle.rejected ref href d hd
  ended := h.dialing.ended
  cancelled := h.dialing.cancelled
  spared x hx k lock d hk hlock hd := h.standing.spares.taken x hx k hk d hd lock hlock

/-- **`Disconnect` reaches the attempt in flight and the views admitted so far, and nothing that comes later**: in
every interleaving of the callers, the network and the supervisors. -/
theorem orderly_of_run (self : PeerID) (registry : Registry) (events : List ConnectEvent) :
    Orderly (exec event (init self registry) events) :=
  (exec_invariant (I := Inv) event inv_event (inv_init self registry) events).orderly

/-- A `Disconnect` that comes between the handshake and the attach: the view is refused.  The attempt that follows is
admitted, and a second `Disconnect` drops its view. -/
def twice : List ConnectEvent :=
  let attempt : List ConnectEvent :=
    [.connect { peerID := "q", seq := 1 } 1, .run 0 .ok, .run 0 .ok, .run 0 .ok, .run 0 (.view viewOfQ)]
  let turn (n : Nat) : List ConnectEvent :=
    [.op (.signal 0), .op (.select 0 .wake)] ++ List.replicate n (.op (.work 0))
  attempt ++ [.disconnect "q", .run 0 .ok, .run 0 .ok] ++ turn 2 ++ [.run 0 .ok, .run 0 .ok, .run 0 .ok] ++
    attempt ++ [.run 0 .ok, .op (.work 0)] ++ turn 7 ++ [.run 0 .ok, .run 0 .ok] ++
    [.disconnect "q", .run 0 .ok] ++ turn 4 ++ [.run 0 .ok]

example : let s := (exec event (init "p" oneFamily) twice).shared
    s.stack.results = [(0, some .disconnected), (1, none)] ∧ s.admitted = [("q", 1)] ∧
      s.connects = [(0, some .disconnected), (1, none)] ∧ s.disconnects.map Lock.views = [[], [1]] := by
  decide +kernel

end ConnectPool

end EthP2P.Stack
