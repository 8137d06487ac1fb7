/-
# EthP2P.Stack.Handles — a view stands as long as one of its handles is open

A consumer that has finished with a peer closes its handle (`Peer.Close`).  The call ends the handle under the
family's mutex and only then tells the supervisor, which looks at the handles of its view when it runs the
request and drops the view once all of them are closed.  By then the view may be another one, and a handle can
be closed before `attach` has stored it.

`Attended` is what holds between a supervisor and its handles meanwhile: a view without an open handle has a
`handleClosed` on its way, in a `Peer.Close` that has not posted yet, among the waiting requests, or running.
A check that runs has passed closed handles only (`Attended.checked`), and closed handles stay closed.
-/
import EthP2P.Stack.Requests

namespace EthP2P.Stack

open Lib Wire List

/-- `handleClosed` is testing the handles. -/
def Phase.checks : Phase → Bool
  | .checking _ => true
  | _ => false

/-- The operation that closes a handle in its family closes no other. -/
theorem Handle.eq_of_closePeer {j k : Handle} {code resetCode : Code} (hc : j.family = k.family)
    (h : ∃ c c', DeliveryOp.closePeer k.ref code resetCode = .closePeer j.ref c c') : j = k := by
  obtain ⟨_, _, heq⟩ := h
  obtain ⟨href, _, _⟩ := DeliveryOp.closePeer.inj heq
  cases j
  cases k
  simp_all

namespace StackState

open Supervisor

/-- Neither is a close of a handle being looked at, nor is one on its way. -/
structure Unasked (s : StackState) (r : SupRef) (u : Supervisor) : Prop where
  phase : u.phase.checks = false
  pending : .handleClosed ∉ u.pending
  closings : r ∉ s.closings

/-- A supervisor and the handles of its view. -/
structure Attended (s : StackState) (r : SupRef) (u : Supervisor) : Prop where
  known : ∀ h ∈ u.owned, s.owner.get h = some r ∧
    ∃ d, (s.family h.family).family.deliveries.get h.ref = some d ∧ d.peer = u.id
  adding : ∀ a cs hs, u.phase = .adding a cs hs → cs ≠ [] ∨ hs ≠ []
  admitted : ∀ a, u.phase.admitting = some a → a.families ≠ []
  stored : u.phase.Plain → u.conn ≠ none → u.handles ≠ []
  told : u.conn ≠ none → u.owned ≠ [] → s.Unasked r u → ∃ h ∈ u.owned, s.OpenFor h u.id
  checked : ∀ hs, u.phase = .checking hs → ∃ seen, u.handles = seen ++ hs ∧ ∀ h ∈ seen, ¬ s.OpenFor h u.id

variable {s s' : StackState} {r : SupRef} {u u' : Supervisor}

theorem OpenFor.isDown {h : Handle} {id : PeerID} (hopen : s.OpenFor h id) : s.isDown h = false := by
  obtain ⟨d, hd, hdown, _⟩ := hopen
  simp [StackState.isDown, hd, hdown]

namespace Attended

/-! ## Steps that leave the handles alone -/

section

variable (h : s.Attended r u)
include h

/-- The queue of the supervisor changes, or what has nothing to do with its handles. -/
theorem queue (hfam : s'.family = s.family) (howner : s'.owner = s.owner)
    (hid : u'.id = u.id) (hconn : u'.conn = u.conn) (hhandles : u'.handles = u.handles)
    (hphase : u'.phase = u.phase) (hasked : u.conn ≠ none → .handleClosed ∈ u.pending ∨ r ∈ s.closings →
      .handleClosed ∈ u'.pending ∨ r ∈ s'.closings) : s'.Attended r u' := by
  have howned : u'.owned = u.owned := by
    unfold owned
    rw [hhandles, hphase]
  have hopen : ∀ k id, s'.OpenFor k id ↔ s.OpenFor k id := by
    intro k id
    unfold OpenFor
    rw [hfam]
  refine ⟨?_, ?_, ?_, ?_, fun hview hne hun => ?_, ?_⟩
  · rw [howned, howner, hfam, hid]
    exact h.known
  · rw [hphase]
    exact h.adding
  · rw [hphase]
    exact h.admitted
  · rw [hphase, hconn, hhandles]
    exact h.stored
  · rw [hconn] at hview
    rw [howned] at hne ⊢
    have hfree : ¬ (.handleClosed ∈ u.pending ∨ r ∈ s.closings) :=
      fun hor => (hasked hview hor).elim hun.pending hun.closings
    obtain ⟨k, hk, hkopen⟩ := h.told hview hne
      ⟨hphase ▸ hun.phase, fun hp => hfree (.inl hp), fun hc => hfree (.inr hc)⟩
    exact ⟨k, hk, (hopen k _).mpr (hid ▸ hkopen)⟩
  · simp only [hphase, hhandles, hopen, hid]
    exact h.checked

/-- The supervisor passes from one plain phase to another. -/
theorem between (hid : u'.id = u.id) (hconn : u'.conn = u.conn) (hhandles : u'.handles = u.handles)
    (hp : u.phase.Plain) (hp' : u'.phase.Plain)
    (htold : u.conn ≠ none → u.owned ≠ [] → s.Unasked r u' → ∃ k ∈ u.owned, s.OpenFor k u.id)
    (hchecked : ∀ hs, u'.phase = .checking hs →
      ∃ seen, u.handles = seen ++ hs ∧ ∀ k ∈ seen, ¬ s.OpenFor k u.id) : s.Attended r u' := by
  have howned : u'.owned = u.owned := by
    unfold owned
    rw [hhandles, hp.handles_eq, hp'.handles_eq]
  refine ⟨?_, fun a cs hs heq => ?_, fun a heq => ?_, fun _ => ?_, ?_, ?_⟩
  · rw [howned, hid]
    exact h.known
  · rw [heq] at hp'
    cases hp'
  · rw [hp'.admitting_eq] at heq
    cases heq
  · rw [hconn, hhandles]
    exact h.stored hp
  · rw [hconn, howned, hid]
    exact htold
  · rw [hhandles, hid]
    exact hchecked

/-- The supervisor passes from one plain phase to another, and tests no handles. -/
theorem plain (hid : u'.id = u.id) (hconn : u'.conn = u.conn)
    (hhandles : u'.handles = u.handles) (hp : u.phase.Plain) (hp' : u'.phase.Plain)
    (hcheck : u.phase.checks = false) (hcheck' : u'.phase.checks = false)
    (hpending : .handleClosed ∈ u.pending → .handleClosed ∈ u'.pending) : s.Attended r u' := by
  refine h.between hid hconn hhandles hp hp' (fun hview hne hun => ?_) fun hs heq => ?_
  · exact h.told hview hne ⟨hcheck, fun hmem => hun.pending (hpending hmem), hun.closings⟩
  · rw [heq] at hcheck'
    cases hcheck'

/-- Without a view nothing is claimed but that the handles still to end are known. -/
theorem inert (hid : u'.id = u.id) (hconn : u'.conn = none)
    (howned : ∀ k ∈ u'.owned, k ∈ u.owned) (hadding : ∀ a cs hs, u'.phase ≠ .adding a cs hs)
    (hadmitted : ∀ a, u'.phase.admitting = some a → a.families ≠ [])
    (hcheck : u'.phase.checks = false) : s.Attended r u' := by
  refine ⟨fun k hk => ?_, fun a cs hs heq => absurd heq (hadding a cs hs), hadmitted,
    fun _ hview => absurd hconn hview, fun hview => absurd hconn hview, fun hs heq => ?_⟩
  · rw [hid]
    exact h.known k (howned k hk)
  · rw [heq] at hcheck
    cases hcheck

/-- `dropView` hands the handles to its loop; a view that takes the place shares a family. -/
theorem dropped (hid : u'.id = u.id) (hhandles : u'.handles = u.handles) {drop : Drop}
    (hadmitted : ∀ a, drop.admission = some a → a.families ≠ []) : s.Attended r (u'.dropped drop) := by
  refine h.inert hid rfl (fun k hk => mem_append_left _ ?_) nofun hadmitted rfl
  rw [← hhandles]
  simpa [owned, Supervisor.dropped, Phase.handles] using hk

end

/-- A supervisor without a view takes one that shares a family. -/
theorem install (hhandles : u.handles = []) {a : Admission} (hfamilies : a.families ≠ []) :
    s.Attended r (u.install a) := by
  have hnil : (u.install a).owned = [] := by
    unfold owned
    rw [show (u.install a).handles = [] from hhandles]
    rfl
  refine ⟨fun k hk => ?_, fun b cs hs heq => ?_, nofun, nofun, fun _ hne => absurd hnil hne, nofun⟩
  · rw [hnil] at hk
    cases hk
  · cases heq
    exact .inl hfamilies

/-- `attach` stores the handles it made. -/
theorem store (h : s.Attended r u) {a : Admission} {hs : List Handle} (hphase : u.phase = .adding a [] hs)
    (hnil : u.handles = []) (hid : u'.id = u.id) (hconn : u'.conn = u.conn) (hhandles : u'.handles = hs)
    (hp : u'.phase.Plain) (hcheck : u'.phase.checks = false) (hpending : u'.pending = u.pending) :
    s.Attended r u' := by
  have howned : u'.owned = u.owned := by
    unfold owned
    rw [hhandles, hp.handles_eq, hnil, hphase]
    simp [Phase.handles]
  refine ⟨?_, fun a cs hs heq => ?_, fun a heq => ?_, fun _ _ => ?_, fun hview hne hun => ?_, fun hs heq => ?_⟩
  · rw [howned, hid]
    exact h.known
  · rw [heq] at hp
    cases hp
  · rw [hp.admitting_eq] at heq
    cases heq
  · rw [hhandles]
    exact (h.adding _ _ _ hphase).resolve_left fun hne => hne rfl
  · rw [howned] at hne ⊢
    rw [hconn] at hview
    rw [hid]
    exact h.told hview hne ⟨by rw [hphase]; rfl, hpending ▸ hun.pending, hun.closings⟩
  · rw [heq] at hcheck
    cases hcheck

/-! ## The check of the handles -/

/-- The check goes on: the handles it has passed are closed. -/
theorem check (h : s.Attended r u) (hid : u'.id = u.id) (hconn : u'.conn = u.conn)
    (hhandles : u'.handles = u.handles) (hp : u.phase.Plain) {hs : List Handle}
    (hphase : u'.phase = .checking hs)
    (hseen : ∃ seen, u.handles = seen ++ hs ∧ ∀ k ∈ seen, ¬ s.OpenFor k u.id) : s.Attended r u' := by
  refine h.between hid hconn hhandles hp (by rw [hphase]; trivial) (fun _ _ hun => ?_) fun hs' heq => ?_
  · have hbusy := hun.phase
    rw [hphase] at hbusy
    cases hbusy
  · rw [hphase] at heq
    cases heq
    exact hseen

/-- The check ends at a handle that is open. -/
theorem passed (h : s.Attended r u) (hid : u'.id = u.id) (hhandles : u'.handles = u.handles)
    (hconn : u'.conn = u.conn) (hp : u.phase.Plain) (hphase : u'.phase = .draining) {k : Handle}
    (hk : k ∈ u.handles) (hopen : s.isDown k = false) : s.Attended r u' := by
  have hmem : k ∈ u.owned := mem_append_left _ hk
  refine h.between hid hconn hhandles hp (by rw [hphase]; trivial) (fun _ _ _ => ⟨k, hmem, ?_⟩) fun hs' heq => ?_
  · obtain ⟨_, d, hd, hpeer⟩ := h.known k hmem
    exact ⟨d, hd, by simpa [StackState.isDown, hd] using hopen, hpeer⟩
  · rw [hphase] at heq
    cases heq

/-! ## Steps of a family -/

/-- One family takes an operation.  If it closes a handle of the view, the supervisor will be told. -/
theorem onFamily (h : s.Attended r u) (hinv : ∀ c, (s.family c).Inv) {c : FamilyCode} {op : DeliveryOp}
    (hfam : s'.family = (s.onFamily c op).family)
    (howner : ∀ k ∈ u.owned, s'.owner.get k = s.owner.get k) (hclosings : r ∈ s.closings → r ∈ s'.closings)
    (hclose : u.conn ≠ none → ∀ k ∈ u.owned, s.OpenFor k u.id → k.family = c →
      (∃ code resetCode, op = .closePeer k.ref code resetCode) → r ∈ s'.closings) : s'.Attended r u := by
  have hfamily : ∀ c', s'.family c' = if c' = c then (s.family c).step op else s.family c' := by
    intro c'
    rw [hfam, family_onFamily]
  -- the record of a handle goes on
  have hrecord : ∀ (k : Handle) d, (s.family k.family).family.deliveries.get k.ref = some d →
      ∃ d', (s'.family k.family).family.deliveries.get k.ref = some d' ∧ d'.peer = d.peer ∧
        (d'.down = d.down ∨ k.family = c ∧ ∃ code resetCode, op = .closePeer k.ref code resetCode) := by
    intro k d hd
    rw [hfamily]
    by_cases hk : k.family = c
    · subst hk
      rw [if_pos rfl]
      obtain ⟨d', hd', hpeer, hdown⟩ := (hinv k.family).record_forth hd op
      exact ⟨d', hd', hpeer, hdown.imp_right fun h => ⟨rfl, h⟩⟩
    · rw [if_neg hk]
      exact ⟨d, hd, rfl, .inl rfl⟩
  refine ⟨fun k hk => ?_, h.adding, h.admitted, h.stored, fun hview hne hun => ?_, fun hs heq => ?_⟩
  · obtain ⟨hr, d, hd, hpeer⟩ := h.known k hk
    obtain ⟨d', hd', hpeer', _⟩ := hrecord k d hd
    exact ⟨(howner k hk).trans hr, d', hd', hpeer'.trans hpeer⟩
  · obtain ⟨k, hk, hopen⟩ := h.told hview hne ⟨hun.phase, hun.pending, fun hc => hun.closings (hclosings hc)⟩
    obtain ⟨d, hd, hdown, hpeer⟩ := hopen
    obtain ⟨d', hd', hpeer', hdown' | ⟨hc, hop⟩⟩ := hrecord k d hd
    · exact ⟨k, hk, d', hd', hdown'.trans hdown, hpeer'.trans hpeer⟩
    · exact absurd (hclose hview k hk ⟨d, hd, hdown, hpeer⟩ hc hop) hun.closings
  obtain ⟨seen, hseen, hclosed⟩ := h.checked hs heq
  refine ⟨seen, hseen, fun k hk hopen => ?_⟩
  obtain ⟨_, d, hd, _⟩ := h.known k (mem_append_left _ (hseen ▸ mem_append_left _ hk))
  have hback : (s.onFamily c op).OpenFor k u.id := by
    unfold OpenFor at hopen ⊢
    rwa [hfam] at hopen
  rcases openFor_back hback with hold | ⟨hnew, _⟩
  · exact hclosed k hk hold
  -- a handle that is known is not the one that is made now
  rw [hnew] at hd
  exact Nat.lt_irrefl _ ((hinv c).lt_nextHandle hd)

end Attended

/-! ## The invariant of the stack -/

def Minded (s : StackState) : Prop := ∀ r u, s.sups.get r = some u → s.Attended r u

namespace Minded

section

variable (h : Minded s)
include h

/-- One supervisor changes, and no family takes part. -/
theorem setSup (hsups : s'.sups = s.sups.set r u') (hfam : s'.family = s.family)
    (howner : s'.owner = s.owner) (hclosings : s'.closings = s.closings) (hu' : s.Attended r u') : Minded s' := by
  have hsame : ∀ r' w, s.Attended r' w → s'.Attended r' w := by
    intro r' w hw
    exact hw.queue hfam howner rfl rfl rfl rfl (fun _ hor => hclosings ▸ hor)
  intro r' w hw
  rw [hsups, Map.get_set] at hw
  split at hw
  · rename_i hr
    cases hw
    rw [hr]
    exact hsame r u' hu'
  · exact hsame r' w (h r' w hw)

/-- The supervisors are the same. -/
theorem congr (hsups : s'.sups = s.sups) (hfam : s'.family = s.family)
    (howner : s'.owner = s.owner) (hclosings : s'.closings = s.closings) : Minded s' := by
  intro r w hw
  rw [hsups] at hw
  exact (h r w hw).queue hfam howner rfl rfl rfl rfl (fun _ hor => hclosings ▸ hor)

theorem onFamily (hinv : ∀ c, (s.family c).Inv) (c : FamilyCode) (op : DeliveryOp)
    (hop : ∀ k code resetCode, op ≠ .closePeer k code resetCode) : Minded (s.onFamily c op) := by
  intro r u hu
  refine (h r u hu).onFamily hinv rfl (fun _ _ => rfl) id fun _ k _ _ _ hclose => ?_
  obtain ⟨code, resetCode, heq⟩ := hclose
  exact absurd heq (hop _ code resetCode)

theorem append (hu : s.sups.get r = some u) (req : Request) : Minded (s.append r u req) := by
  refine h.setSup rfl rfl rfl rfl ((h r u hu).queue rfl rfl rfl rfl rfl rfl fun _ hor => hor.imp_left ?_)
  intro hmem
  unfold pending at hmem ⊢
  rw [mem_append] at hmem ⊢
  exact hmem.imp_right (mem_append_left _)

theorem post (r : SupRef) (req : Request) {dropped : StackState → StackState}
    (hdropped : Minded (dropped s)) : Minded (s.post r req dropped) := by
  unfold StackState.post
  split
  · exact h
  rename_i u hu
  split
  · exact h.append hu req
  · exact hdropped

end

end Minded

/-! ## The supervisor's acts -/

/-- An admitted view shares a family. -/
theorem shared_of_not_rejected {v : View} (h : s.rejection u v = none) : s.sharedFamilies v ≠ [] := by
  unfold rejection at h
  split at h
  · cases h
  split at h
  · cases h
  · rename_i hshared
    simpa using hshared

/-- A request other than `handleClosed` leaves those that wait. -/
theorem closed_pending {req : Request} (hreqs : u.reqs = req :: u'.reqs) (hinbox : u'.inbox = u.inbox)
    (hother : .handleClosed ≠ req) (hmem : .handleClosed ∈ u.pending) : .handleClosed ∈ u'.pending := by
  rw [pending, hreqs, cons_append, mem_cons] at hmem
  rw [pending, hinbox]
  exact hmem.resolve_left hother

/-- The loop of `dropView` ends a handle.  No other supervisor has it. -/
theorem minded_endHandle (h : Minded s) (hinv : Inv s) (hu : s.sups.get r = some u) {k : Handle}
    {hs : List Handle} {drop : Drop} (hphase : u.phase = .dropping (k :: hs) drop) :
    Minded ((s.setSup r { u with phase := .dropping hs drop }).onFamily k.family
      (.closePeer k.ref drop.code .closing)) := by
  have hconn := (hinv.shape r u hu).dropping _ _ hphase
  have hatt := h r u hu
  have hsup : Minded (s.setSup r { u with phase := .dropping hs drop }) := by
    refine h.setSup rfl rfl rfl rfl (hatt.inert rfl hconn (fun j hj => ?_) nofun (fun a ha => ?_) rfl)
    · rw [owned, mem_append] at hj ⊢
      refine hj.imp_right fun hj => ?_
      rw [hphase]
      exact mem_cons_of_mem _ hj
    · exact hatt.admitted a (by rw [hphase]; exact ha)
  intro r' w hw
  refine (hsup r' w hw).onFamily hinv.families rfl (fun _ _ => rfl) id fun hview j hj hopen hc hclose => ?_
  have hr : r' ≠ r := by
    rintro rfl
    replace hw : (s.sups.set r' _).get r' = some w := hw
    rw [Map.get_set, if_pos rfl] at hw
    cases hw
    exact hview hconn
  obtain rfl := Handle.eq_of_closePeer hc hclose
  -- the handle that is ended is known to be this supervisor's
  have hown := (hatt.known j (by simp [owned, hphase, Phase.handles])).1
  have hown' : s.owner.get j = some r' := ((hsup r' w hw).known j hj).1
  exact absurd (Option.some.inj (hown'.symm.trans hown)) hr

/-- The loop of `attach` makes a handle, which is open. -/
theorem minded_addHandle (h : Minded s) (hinv : Inv s) (hu : s.sups.get r = some u) {a : Admission}
    {c : FamilyCode} {cs : List FamilyCode} {hs : List Handle} (hphase : u.phase = .adding a (c :: cs) hs) :
    Minded { (s.setSup r { u with phase := .adding a cs (hs ++ [⟨c, (s.family c).nextHandle⟩]) }).onFamily c
      (.addPeer u.id) with owner := s.owner.set ⟨c, (s.family c).nextHandle⟩ r } := by
  let k : Handle := ⟨c, (s.family c).nextHandle⟩
  -- the handles known so far are other handles
  have hold : ∀ r' w, s.Attended r' w → ∀ j ∈ w.owned, (s.owner.set k r).get j = s.owner.get j := by
    intro r' w hw j hj
    rw [Map.get_set, if_neg]
    rintro rfl
    obtain ⟨_, d, hd, _⟩ := hw.known k hj
    exact Nat.lt_irrefl _ ((hinv.families c).lt_nextHandle hd)
  intro r' w hw
  replace hw : (s.sups.set r _).get r' = some w := hw
  rw [Map.get_set] at hw
  split at hw
  · rename_i hr
    cases hw
    subst hr
    have hatt : ({ s.onFamily c (.addPeer u.id) with owner := s.owner.set k r' } : StackState).Attended r' u :=
      (h r' u hu).onFamily hinv.families rfl (hold r' u (h r' u hu)) id (by simp)
    have howned : ({ u with phase := .adding a cs (hs ++ [k]) } : Supervisor).owned = u.owned ++ [k] := by
      unfold owned
      rw [hphase]
      simp [Phase.handles]
    have hnew : ({ s.onFamily c (.addPeer u.id) with owner := s.owner.set k r' } : StackState).OpenFor k u.id := by
      refine ⟨{ peer := u.id, ready := some (s.family c).family.ready.next }, ?_, rfl, rfl⟩
      rw [show _ = (s.onFamily c (.addPeer u.id)).family c from rfl, family_onFamily, if_pos rfl]
      exact (Family.get_schedule _ _ _ _).trans (if_pos rfl)
    refine ⟨fun j hj => ?_, fun b cs' hs' heq => ?_, by simp [Phase.admitting], by simp [Phase.Plain],
      fun _ _ _ => ⟨k, ?_, hnew⟩, by simp⟩
    · rw [howned, mem_append, mem_singleton] at hj
      rcases hj with hj | rfl
      · exact hatt.known j hj
      · obtain ⟨d, hd, _, hpeer⟩ := hnew
        exact ⟨(Map.get_set _ _ _ _).trans (if_pos rfl), d, hd, hpeer⟩
    · cases heq
      exact .inr (by simp)
    · rw [howned]
      exact mem_append_right _ (mem_singleton.mpr rfl)
  · exact (h r' w hw).onFamily hinv.families rfl (hold r' w (h r' w hw)) id (by simp)

theorem minded_act (h : Minded s) (hinv : Inv s) (hdrained : u.phase = .woken → u.reqs = []) {o : Out}
    {reqs : List Request} (hu : s.sups.get r = some u) (hact : Act s r u reqs u' o) : Minded (s.turned r u' o) := by
  have hatt := h r u hu
  have hset {w : Supervisor} {o : Out} (hw : s.Attended r w) (ho : o.family = none ∧ o.handle = none) :
      Minded (s.turned r w o) :=
    h.setSup rfl (by simp [turned, ho]) (by simp [turned, ho]) rfl hw
  -- between two phases that are neither a loop nor a check
  have hgo {w : Supervisor} {p : Phase} (hphase : u.phase = p) (hp : p.Plain ∧ p.checks = false)
      (hp' : w.phase.Plain ∧ w.phase.checks = false) (hid : w.id = u.id) (hconn : w.conn = u.conn)
      (hhandles : w.handles = u.handles) (hpending : .handleClosed ∈ u.pending → .handleClosed ∈ w.pending) :
      s.Attended r w := by
    subst hphase
    exact hatt.plain hid hconn hhandles hp.1 hp'.1 hp.2 hp'.2 hpending
  have howned {p : Phase} {w : Supervisor} (hphase : u.phase = p) (hp : p.Plain)
      (hw : w.owned = u.handles ++ []) : ∀ k ∈ w.owned, k ∈ u.owned := by
    subst hphase
    rw [hw, owned, hp.handles_eq]
    exact fun _ hk => hk
  cases hact with
  | wake hphase | rest hphase | turnAround hphase | endReads hphase | token hphase =>
    exact hset (hgo hphase ⟨trivial, rfl⟩ ⟨trivial, rfl⟩ rfl rfl rfl id) ⟨rfl, rfl⟩
  | read hphase =>
    exact hset (hgo hphase ⟨trivial, rfl⟩ (by rw [hphase]; exact ⟨trivial, rfl⟩) rfl rfl rfl id) ⟨rfl, rfl⟩
  | fetch hphase =>
    refine hset (hatt.plain rfl rfl rfl (by rw [hphase]; trivial) trivial (by rw [hphase]; rfl) rfl fun hmem => ?_)
      ⟨rfl, rfl⟩
    -- the inbox is taken whole, and nothing was left of what was taken before
    simpa [pending, hdrained hphase] using hmem
  | exit hphase _ _ hconn =>
    exact hset (hatt.inert rfl hconn (howned hphase trivial rfl) (by simp) (by simp [Phase.admitting]) rfl) ⟨rfl, rfl⟩
  | stale hphase hreqs hstale =>
    cases hstale with
    | attach | goAway | header =>
      exact hset (hgo hphase ⟨trivial, rfl⟩ ⟨trivial, rfl⟩ rfl rfl rfl (closed_pending hreqs rfl (by simp))) ⟨rfl, rfl⟩
    | closed hconn =>
      exact hset (hatt.inert rfl hconn (howned hphase trivial rfl) (by simp) (by simp [Phase.admitting]) rfl) ⟨rfl, rfl⟩
  | refuse hphase hreqs | header hphase hreqs =>
    exact hset (hgo hphase ⟨trivial, rfl⟩ ⟨trivial, rfl⟩ rfl rfl rfl (closed_pending hreqs rfl (by simp))) ⟨rfl, rfl⟩
  | enter _ _ henters hconn =>
    refine hset (Attended.install ?_ ?_) ⟨rfl, rfl⟩
    · exact (hinv.shape r u hu).noView hconn
    · rw [henters.families]
      exact shared_of_not_rejected henters.passes
  | displace _ _ henters =>
    refine hset (hatt.dropped ?_ ?_ fun b hb => ?_) ⟨rfl, rfl⟩
    · rfl
    · rfl
    cases hb
    rw [henters.families]
    exact shared_of_not_rejected henters.passes
  | noView hreqs _ hconn =>
    refine hset (hatt.inert rfl hconn ?_ (by simp) (by simp [Phase.admitting]) rfl) ⟨rfl, rfl⟩
    obtain ⟨hphase, _⟩ | ⟨hphase, _⟩ := hreqs
    · exact howned hphase trivial rfl
    · exact howned hphase trivial rfl
  | drop =>
    refine hset (hatt.dropped ?_ ?_ (by simp)) ⟨rfl, rfl⟩
    · rfl
    · rfl
  | @push v d stream sel k reqs hphase hreqs =>
    have hmid : Minded (s.turned r { u with
        reqs := reqs
        reading := Function.update u.reading d (u.reading d - 1)
        phase := .reading .uni none } {}) :=
      hset (hgo hphase ⟨trivial, rfl⟩ ⟨trivial, rfl⟩ rfl rfl rfl (closed_pending hreqs rfl (by simp))) ⟨rfl, rfl⟩
    exact (hmid.onFamily hinv.families k.family (.push k.ref sel.protocol) (by simp)).congr rfl rfl rfl rfl
  | check hphase =>
    exact hset (hatt.check rfl rfl rfl (by rw [hphase]; trivial) rfl ⟨[], rfl, (by simp)⟩) ⟨rfl, rfl⟩
  | endHandle hphase => exact (minded_endHandle h hinv hu hphase).congr rfl rfl rfl rfl
  | ended hphase =>
    have hconn := (hinv.shape r u hu).dropping _ _ hphase
    have hnil := (hinv.shape r u hu).noView hconn
    exact hset (hatt.inert rfl hconn (fun k hk => by simp [owned, Phase.handles, hnil] at hk)
      (by simp) (by simp [Phase.admitting]) rfl)
      ⟨rfl, rfl⟩
  | replaced hphase hsome =>
    refine hset (Attended.install ?_ (hatt.admitted _ (by rw [hphase]; exact hsome))) ⟨rfl, rfl⟩
    exact (hinv.shape r u hu).noView ((hinv.shape r u hu).dropping _ _ hphase)
  | addHandle hphase => exact (minded_addHandle h hinv hu hphase).congr rfl rfl rfl rfl
  | store hphase =>
    exact hset (hatt.store hphase ((hinv.shape r u hu).adding _ _ _ hphase).2.1 rfl rfl rfl trivial rfl rfl) ⟨rfl, rfl⟩
  | @pass k hs hphase hdown =>
    obtain ⟨seen, hseen, hclosed⟩ := hatt.checked _ hphase
    refine hset (hatt.check rfl rfl rfl (by rw [hphase]; trivial) rfl
      ⟨seen ++ [k], by simp [hseen], fun j hj => ?_⟩) ⟨rfl, rfl⟩
    rcases mem_append.mp hj with hj | hj
    · exact hclosed j hj
    rw [mem_singleton.mp hj]
    intro hopen
    rw [hopen.isDown] at hdown
    cases hdown
  | @found k hs hphase hopen =>
    obtain ⟨seen, hseen, _⟩ := hatt.checked _ hphase
    have hk : k ∈ u.handles := by
      rw [hseen]
      exact mem_append_right _ mem_cons_self
    exact hset (hatt.passed rfl rfl rfl (by rw [hphase]; trivial) rfl hk hopen) ⟨rfl, rfl⟩

theorem minded_acts (h : Minded s) (hinv : Inv s) (hreq : RequestInv s) {reqs : List Request}
    (hu : s.sups.get r = some u) (hacts : Acts s r u reqs s') : Minded s' := by
  obtain ⟨rfl, _⟩ | ⟨u', o, hact, rfl⟩ := hacts
  · exact h
  · exact minded_act h hinv (fun hphase => (hreq r u hu).drained (.inr (.inl hphase))) hu hact

/-! ## The other parties -/

/-- `Peer.Close` ends the handle and will tell the supervisor that has it. -/
theorem minded_closeHandle (h : Minded s) (hinv : Inv s) (k : Handle) (code : Code) :
    Minded (s.closeHandle k code) := by
  unfold closeHandle
  dsimp only
  split
  · rename_i hdown
    intro r u hu
    refine (h r u hu).onFamily hinv.families rfl (fun _ _ => rfl) id fun _ j _ hopen hc hclose => ?_
    rw [← Handle.eq_of_closePeer hc hclose, hopen.isDown] at hdown
    cases hdown
  intro r u hu
  refine (h r u hu).onFamily hinv.families rfl (fun _ _ => rfl) (mem_append_left _) fun _ j hj _ hc hclose => ?_
  refine mem_append_right _ ?_
  rw [← Handle.eq_of_closePeer hc hclose, ((h r u hu).known j hj).1]
  exact mem_singleton.mpr rfl

/-- The close is posted.  A supervisor that has left the table has no view. -/
theorem minded_postClosed (h : Minded s) (hinv : Inv s) (r : SupRef) :
    Minded ({ s with closings := s.closings.erase r }.post r .handleClosed id) := by
  -- the other supervisors still have their closes on the way
  have hother : ∀ {s' : StackState} {r' : SupRef} {w : Supervisor}, s'.family = s.family → s'.owner = s.owner →
      s'.closings = s.closings.erase r → s.sups.get r' = some w → (r' = r → w.conn = none) →
      s'.Attended r' w := by
    intro s' r' w hfam howner hclosings hw hgone
    refine (h r' w hw).queue hfam howner rfl rfl rfl rfl fun hview hor => hor.imp_right fun hmem => ?_
    rw [hclosings]
    exact (mem_erase_of_ne fun hr => hview (hgone hr)).mpr hmem
  unfold post
  dsimp only
  split
  · rename_i hnone
    intro r' w hw
    refine hother rfl rfl rfl hw fun hr => ?_
    rw [hr] at hw
    cases hnone.symm.trans hw
  rename_i u hu
  split
  · intro r' w hw
    replace hw : (s.sups.set r { u with inbox := u.inbox ++ [.handleClosed] }).get r' = some w := hw
    rw [Map.get_set] at hw
    split at hw
    · rename_i hr
      cases hw
      subst hr
      refine (h r' u hu).queue rfl rfl rfl rfl rfl rfl fun _ _ => .inl ?_
      simp [pending]
    · rename_i hr
      exact hother rfl rfl rfl hw fun heq => absurd heq hr
  · rename_i hleft
    intro r' w hw
    refine hother rfl rfl rfl hw fun hr => ?_
    rw [hr] at hw
    cases hu.symm.trans hw
    by_contra hview
    exact hleft (hinv.live r u hu fun hexit => hview ((hinv.shape r u hu).exited hexit))

theorem minded_step (h : Minded s) (hinv : Inv s) (hreq : RequestInv s) (op : StackOp) : Minded (s.step op) := by
  have hviews : ∀ {s' : StackState} (ref : ViewRef) (f : View → View), Minded s' → Minded (s'.withView ref f) := by
    intro s' ref f h'
    unfold withView
    split
    · exact h'
    · exact h'.congr rfl rfl rfl rfl
  cases op with
  | attach v =>
    have h' : Minded { s with views := s.views.set s.nextView v, nextView := s.nextView + 1 } :=
      h.congr rfl rfl rfl rfl
    simp only [step, attach]
    split
    · exact h.congr rfl rfl rfl rfl
    split
    · split
      · rename_i hu
        exact h'.append hu _
      · exact h'
    · refine h.setSup rfl rfl rfl rfl ⟨by simp [owned, Phase.handles], by simp, by simp [Phase.admitting],
        fun _ hview => absurd rfl hview, by simp, by simp⟩
  | disconnect id =>
    obtain ⟨dials, _, ⟨heq, _⟩ | ⟨r, u, hr, hu, heq⟩⟩ := s.disconnect_cases id
    · simp only [step, heq]
      exact h.congr rfl rfl rfl rfl
    simp only [step, heq]
    have h' : Minded { s with dials := dials, nextDone := s.nextDone + 1 } := h.congr rfl rfl rfl rfl
    exact h'.append hu _
  | close =>
    simp only [step, close]
    split
    · exact h
    intro r w hw
    replace hw : (s.sups.mapVals _).get r = some w := hw
    rw [Map.get_mapVals] at hw
    obtain ⟨u, hu, rfl⟩ := Option.map_eq_some_iff.mp hw
    split
    · refine (h r u hu).queue rfl rfl rfl rfl rfl rfl fun _ hor => hor.imp_left fun hmem => ?_
      unfold pending at hmem ⊢
      rw [← append_assoc]
      exact mem_append_left _ hmem
    · exact (h r u hu).queue rfl rfl rfl rfl rfl rfl fun _ hor => hor
  | dial id d => exact h.congr rfl rfl rfl rfl
  | signal r =>
    have h' : Minded { s with signals := s.signals.erase r } := h.congr rfl rfl rfl rfl
    simp only [step, withSup]
    split
    · split
      · exact h'
      · rename_i u hu
        exact h'.setSup rfl rfl rfl rfl ((h' r u hu).queue rfl rfl rfl rfl rfl rfl fun _ hor => hor)
    · exact h
  | select r case => exact step_select h r case (minded_acts h hinv hreq)
  | work r =>
    simp only [step, withSup]
    split
    · exact h
    rename_i u hu
    obtain ⟨_, hacts⟩ := acts_work s r u
    exact minded_acts h hinv hreq hu hacts
  | next c => exact h.onFamily hinv.families c .next (by simp)
  | closeHandle k code => exact minded_closeHandle h hinv k code
  | postClosed r =>
    simp only [step]
    split
    · exact minded_postClosed h hinv r
    · exact h
  | arrive ref d =>
    have h' : Minded { s with nextStream := s.nextStream + 1 } := h.congr rfl rfl rfl rfl
    exact hviews ref _ h'
  | connDone ref code => exact hviews ref _ h
  | headerDone i sel =>
    simp only [step]
    split
    · exact h
    · have h' : Minded { s with headerReads := s.headerReads.eraseIdx i } := h.congr rfl rfl rfl rfl
      exact h'.post _ _ (h'.congr rfl rfl rfl rfl)
  | goAwayDone i result =>
    simp only [step]
    split
    · exact h
    have h' : Minded { s with goAwayReads := s.goAwayReads.eraseIdx i } := h.congr rfl rfl rfl rfl
    split
    · exact h'
    · exact h'.post _ _ h'

theorem minded_run (self : PeerID) (registry : Registry) (ops : List StackOp) :
    Minded (exec step (init self registry) ops) :=
  (exec_invariant (I := fun s => Inv s ∧ RequestInv s ∧ Minded s) step
    (fun _ op h => ⟨inv_step h.1 op, requestInv_step h.1 h.2.1 op, minded_step h.2.2 h.1 h.2.1 op⟩)
    ⟨inv_init self registry, requestInv_init self registry, nofun⟩ ops).2.2

/-- **A view stands exactly as long as one of its handles is open.**  Whatever views are admitted and replaced and
whichever handles the consumers close, and when: a supervisor with a view has an open handle of it, unless it is
still making the handles, is looking at a close, or one is on its way; and when the check of the handles has gone
through, so that the view is dropped, no handle of the peer is open in any family. -/
theorem view_has_open_handle (self : PeerID) (registry : Registry) (ops : List StackOp) (r : SupRef)
    (u : Supervisor) (hu : (exec step (init self registry) ops).sups.get r = some u) :
    (u.conn ≠ none → (∀ a cs hs, u.phase ≠ .adding a cs hs) → (∀ hs, u.phase ≠ .checking hs) →
      .handleClosed ∉ u.pending → r ∉ (exec step (init self registry) ops).closings →
      ∃ h ∈ u.handles, (exec step (init self registry) ops).OpenFor h u.id) ∧
    (u.phase = .checking [] → ∀ h, ¬ (exec step (init self registry) ops).OpenFor h u.id) := by
  have hinv := inv_run self registry ops
  have hatt := minded_run self registry ops r u hu
  refine ⟨fun hview hadding hchecking hpending hclosings => ?_, fun hphase h hopen => ?_⟩
  · have hp : u.phase.Plain := by
      cases hphase : u.phase with
      | dropping hs drop => exact absurd ((hinv.shape r u hu).dropping _ _ hphase) hview
      | adding a cs hs => exact absurd hphase (hadding a cs hs)
      | exited => exact absurd ((hinv.shape r u hu).exited hphase) hview
      | _ => trivial
    have howned : u.owned = u.handles := by
      rw [owned, hp.handles_eq, append_nil]
    have hcheck : u.phase.checks = false := by
      cases hphase : u.phase with
      | checking hs => exact absurd hphase (hchecking hs)
      | _ => rfl
    rw [← howned]
    exact hatt.told hview (howned ▸ hatt.stored hp hview) ⟨hcheck, hpending, hclosings⟩
  · -- the open handle would be one of the supervisor's, and those have been found closed
    obtain ⟨r', u', hu', hid, hne, hown⟩ := hinv.opened h u.id hopen
    have hlive := hinv.live r u hu (by rw [hphase]; simp)
    have hlive' := hinv.live r' u' hu' hne
    rw [hid, hlive] at hlive'
    cases hlive'
    cases hu.symm.trans hu'
    obtain ⟨seen, hseen, hclosed⟩ := hatt.checked [] hphase
    rw [owned, hphase, hseen, append_nil] at hown
    exact hclosed h (by simpa [Phase.handles] using hown) hopen

/-- A view is admitted and its one handle made. -/
def handled : List StackOp :=
  [.attach viewOfQ, .signal 0, .select 0 .wake, .work 0, .work 0, .work 0, .work 0, .work 0, .work 0, .work 0]

/-- The consumer closes the handle, and the supervisor looks at it. -/
def handleGone : List StackOp :=
  handled ++ [.closeHandle ⟨7, 0⟩ .unspecified, .postClosed 0, .signal 0, .select 0 .wake, .work 0, .work 0, .work 0]

theorem view_has_open_handle_one :
    (∃ h, (exec step (init "p" oneFamily) handled).OpenFor h "q") ∧
      ∀ h, ¬ (exec step (init "p" oneFamily) handleGone).OpenFor h "q" := by
  have hstands : ((exec step (init "p" oneFamily) handled).sups.get 0).map
      (fun u => (u.id, u.conn, u.phase, u.pending)) = some ("q", some 0, .select, []) := rfl
  have hchecked : ((exec step (init "p" oneFamily) handleGone).sups.get 0).map
      (fun u => (u.id, u.phase)) = some ("q", .checking []) := rfl
  have hclosings : 0 ∉ (exec step (init "p" oneFamily) handled).closings := by decide +kernel
  constructor
  · obtain ⟨u, hu, heq⟩ := Option.map_eq_some_iff.mp hstands
    simp only [Prod.mk.injEq] at heq
    obtain ⟨hid, hconn, hphase, hpending⟩ := heq
    obtain ⟨h, _, hopen⟩ := (view_has_open_handle "p" oneFamily handled 0 u hu).1 (by simp [hconn])
      (by simp [hphase]) (by simp [hphase]) (by simp [hpending]) hclosings
    exact ⟨h, hid ▸ hopen⟩
  · obtain ⟨u, hu, heq⟩ := Option.map_eq_some_iff.mp hchecked
    simp only [Prod.mk.injEq] at heq
    rw [← heq.1]
    exact (view_has_open_handle "p" oneFamily handleGone 0 u hu).2 heq.2

/-- **An open handle has its supervisor**, the one of its peer in the table, and no two of a peer are of one family.
When the stack is closed and no supervisor has anything left to do, none is open. -/
theorem open_handle_owned (self : PeerID) (registry : Registry) (ops : List StackOp) :
    let s := exec step (init self registry) ops
    (∀ h id, s.OpenFor h id → ∃ r u, s.peers.get id = some r ∧ s.sups.get r = some u ∧ u.id = id ∧ h ∈ u.owned) ∧
    (∀ h h' id, s.OpenFor h id → s.OpenFor h' id → h.family = h'.family → h = h') ∧
    (s.closed = true → (∀ r u, s.sups.get r = some u → u.pending = [] ∧ u.phase.between = true) →
      ∀ h id, ¬s.OpenFor h id) := by
  intro s
  obtain ⟨hinv, hreq⟩ : Inv s ∧ RequestInv s := requestInv_run self registry ops
  refine ⟨fun h id hopen => ?_, ?_, fun hclosed hidle h id hopen => ?_⟩
  · obtain ⟨r, u, hu, hid, hlive, hown⟩ := hinv.opened h id hopen
    exact ⟨r, u, hid ▸ hinv.live r u hu hlive, hu, hid, hown⟩
  · rintro ⟨c, a⟩ ⟨_, b⟩ id ⟨da, hda, hupa, hpa⟩ ⟨db, hdb, hupb, hpb⟩ rfl
    -- of two handles the older one is down
    rcases Nat.lt_trichotomy a b with hlt | rfl | hlt
    · simp [(hinv.succession c a b da db hlt hda hdb (hpa.trans hpb.symm)).1] at hupa
    · rfl
    · simp [(hinv.succession c b a db da hlt hdb hda (hpb.trans hpa.symm)).1] at hupb
  · obtain ⟨r, u, hu, _, _, hown⟩ := hinv.opened h id hopen
    obtain ⟨hpending, hbetween⟩ := hidle r u hu
    by_cases hview : u.conn = none
    · have hnone : u.phase.handles = [] := by
        cases hphase : u.phase <;> simp_all [Phase.between, Phase.handles]
      simp [Supervisor.owned, (hinv.shape r u hu).noView hview, hnone] at hown
    · obtain ⟨code, goAway, done, hmem⟩ := (hreq r u hu).closing hclosed (.inl hview)
      simp [hpending] at hmem

end StackState

end EthP2P.Stack
