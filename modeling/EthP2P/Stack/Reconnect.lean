/-
# EthP2P.Stack.Reconnect — a peer comes up again only after it went down

Over every interleaving of admissions, replacements, drops, handle closes, supervisor exits and
consumers, each family sees the handles of one peer one after the other.

The invariant is ownership.  A supervisor *owns* the handles it stored and those its current loop
still has to end or has just made (`Supervisor.owned`), and every open handle is owned by the one
supervisor its peer has in the table.  Most steps move handles between these places and keep the
owned list as it is (`Continues`); ending a handle is the only way to lose one.  So when `attach`
makes a handle, every earlier handle of that peer in that family is closed, which is what
`Delivery.OneOpen` asks for.
-/
import EthP2P.Stack.Steps
import EthP2P.Stack.Succession

namespace EthP2P.Stack

open Lib Wire Supervisor Delivery List

/-! ## What a supervisor owns -/

/-- The handles held by the loop a supervisor is in. -/
def Phase.handles : Phase → List Handle
  | .dropping hs _ => hs
  | .adding _ _ hs => hs
  | _ => []

/-- The loops that hold no handles. -/
def Phase.Plain : Phase → Prop
  | .select | .woken | .draining | .reading _ _ | .checking _ => True
  | _ => False

theorem Phase.Plain.handles_eq {p : Phase} (h : p.Plain) : p.handles = [] := by
  cases p <;> first | rfl | cases h

theorem Phase.Plain.ne_exited {p : Phase} (h : p.Plain) : p ≠ .exited := by
  rintro rfl
  cases h

namespace Supervisor

def owned (u : Supervisor) : List Handle := u.handles ++ u.phase.handles

/-- Where the fields stand in each phase. -/
structure Shape (u : Supervisor) : Prop where
  noView : u.conn = none → u.handles = []
  dropping : ∀ hs drop, u.phase = .dropping hs drop → u.conn = none
  adding : ∀ a cs hs, u.phase = .adding a cs hs → u.conn ≠ none ∧ u.handles = [] ∧ (hs.map Handle.family ++ cs).Nodup
  exited : u.phase = .exited → u.conn = none

/-- `u'` goes on with the handles of `u`, but for those in `lost`. -/
structure Continues (lost : Handle → Prop) (u u' : Supervisor) : Prop where
  id : u'.id = u.id
  exited : u'.phase = .exited ↔ u.phase = .exited
  owned : ∀ k ∈ u.owned, lost k ∨ k ∈ u'.owned
  shape : u.Shape → u'.Shape

variable {u u' : Supervisor} {lost : Handle → Prop}

theorem Shape.of_plain (hplain : u.phase.Plain) (hview : u.conn = none → u.handles = []) : u.Shape := by
  refine ⟨hview, fun hs drop h => ?_, fun a cs hs h => ?_, fun h => ?_⟩ <;>
    rw [h] at hplain <;> cases hplain

/-- Fields other than the view, the handles and the phase change. -/
theorem Continues.of_eq (hid : u'.id = u.id) (hconn : u'.conn = u.conn)
    (hhandles : u'.handles = u.handles) (hphase : u'.phase = u.phase) : Continues lost u u' where
  id := hid
  exited := by rw [hphase]
  owned k hk := by
    rw [Supervisor.owned, ← hhandles, ← hphase] at hk
    exact .inr hk
  shape h := by
    refine ⟨?_, ?_, ?_, ?_⟩
    · rw [hconn, hhandles]
      exact h.noView
    · rw [hconn, hphase]
      exact h.dropping
    · rw [hconn, hhandles, hphase]
      exact h.adding
    · rw [hconn, hphase]
      exact h.exited

/-- A supervisor that keeps its view passes from one plain phase to another. -/
theorem Continues.of_plain (hid : u'.id = u.id) (hconn : u'.conn = u.conn)
    (hhandles : u'.handles = u.handles) (hp : u.phase.Plain) (hp' : u'.phase.Plain) :
    Continues lost u u' where
  id := hid
  exited := iff_of_false hp'.ne_exited hp.ne_exited
  owned k hk := by
    rw [Supervisor.owned, ← hhandles, hp.handles_eq, ← hp'.handles_eq] at hk
    exact .inr hk
  shape h := Shape.of_plain hp' (by rw [hconn, hhandles]; exact h.noView)

theorem Continues.trans {u'' : Supervisor} (h : Continues lost u u') (h' : Continues lost u' u'') :
    Continues lost u u'' :=
  ⟨h'.id.trans h.id, h'.exited.trans h.exited,
    fun k hk => (h.owned k hk).elim .inl fun hk => h'.owned k hk, fun hs => h'.shape (h.shape hs)⟩

/-- `dropView` hands its handles to the loop that ends them. -/
theorem continues_dropped (hp : u.phase.Plain) (drop : Drop) : Continues lost u (u.dropped drop) where
  id := rfl
  exited := iff_of_false nofun hp.ne_exited
  owned k hk := by
    rw [owned, hp.handles_eq, append_nil] at hk
    exact .inr hk
  shape _ := ⟨fun _ => rfl, fun _ _ _ => rfl, nofun, nofun⟩

/-- A supervisor without a view takes one. -/
theorem continues_install (hconn : u.conn = none) (hne : u.phase ≠ .exited)
    (hown : u.phase.handles = []) (a : Admission) : Continues lost u (u.install a) where
  id := rfl
  exited := iff_of_false nofun hne
  owned k hk := by
    rw [owned, hown] at hk
    exact .inr hk
  shape h := by
    refine ⟨nofun, nofun, fun b cs hs heq => ?_, nofun⟩
    have hphase : Phase.adding a a.families [] = .adding b cs hs := heq
    cases hphase
    exact ⟨nofun, h.noView hconn, a.nodup⟩

variable {hs : List Handle}

/-- `dropView` has ended one more handle. -/
theorem continues_endHandle {k : Handle} {drop : Drop} (hphase : u.phase = .dropping (k :: hs) drop) :
    Continues (· = k) u { u with phase := .dropping hs drop } where
  id := rfl
  exited := iff_of_false nofun (by rw [hphase]; nofun)
  owned k' hk' := by
    rw [owned, hphase, mem_append] at hk'
    rcases hk' with hk' | hk'
    · exact .inr (mem_append_left _ hk')
    rcases mem_cons.mp hk' with hk' | hk'
    · exact .inl hk'
    · exact .inr (mem_append_right _ hk')
  shape h := by
    refine ⟨h.noView, fun hs' drop' _ => h.dropping _ _ hphase, nofun, nofun⟩

/-- `attach` has made one more handle. -/
theorem continues_addHandle {a : Admission} {c : FamilyCode} {cs : List FamilyCode}
    (hphase : u.phase = .adding a (c :: cs) hs) (k : HandleRef) :
    Continues lost u { u with phase := .adding a cs (hs ++ [⟨c, k⟩]) } where
  id := rfl
  exited := iff_of_false nofun (by rw [hphase]; nofun)
  owned k' hk' := by
    rw [owned, hphase, mem_append] at hk'
    refine .inr (mem_append.mpr (hk'.imp_right fun hk' => ?_))
    exact mem_append_left _ hk'
  shape h := by
    refine ⟨h.noView, nofun, fun b cs' hs' heq => ?_, nofun⟩
    have hphase' : Phase.adding a cs (hs ++ [⟨c, k⟩]) = .adding b cs' hs' := heq
    cases hphase'
    obtain ⟨hconn, hnil, hnodup⟩ := h.adding _ _ _ hphase
    exact ⟨hconn, hnil, by simpa using hnodup⟩

/-- `attach` stores the handles it made. -/
theorem continues_store {a : Admission} (hphase : u.phase = .adding a [] hs)
    (hshape : u.Shape) (hid : u'.id = u.id) (hconn : u'.conn = u.conn)
    (hhandles : u'.handles = hs) (hp : u'.phase.Plain) : Continues lost u u' where
  id := hid
  exited := iff_of_false hp.ne_exited (by rw [hphase]; nofun)
  owned k hk := by
    rw [owned, hphase, (hshape.adding _ _ _ hphase).2.1] at hk
    rw [owned, hhandles]
    exact .inr (mem_append_left _ hk)
  shape _ := Shape.of_plain hp fun hn =>
    absurd (hconn.symm.trans hn) (hshape.adding _ _ _ hphase).1

end Supervisor

/-! ## The invariant of the stack -/

namespace StackState

open Supervisor

variable {s : StackState}

/-- The handle is open and belongs to the peer. -/
def OpenFor (s : StackState) (h : Handle) (id : PeerID) : Prop :=
  ∃ d, (s.family h.family).family.deliveries.get h.ref = some d ∧ d.down = false ∧ d.peer = id

structure Inv (s : StackState) : Prop where
  families : ∀ c, (s.family c).Inv
  succession : ∀ c, (s.family c).Succession
  inTurn : ∀ c, (s.family c).InTurn
  table : ∀ id r, s.peers.get id = some r → ∃ u, s.sups.get r = some u ∧ u.id = id ∧ u.phase ≠ .exited
  live : ∀ r u, s.sups.get r = some u → u.phase ≠ .exited → s.peers.get u.id = some r
  fresh : ∀ r, s.nextSup ≤ r → s.sups.get r = none
  shape : ∀ r u, s.sups.get r = some u → u.Shape
  opened : ∀ h id, s.OpenFor h id → ∃ r u, s.sups.get r = some u ∧ u.id = id ∧
    u.phase ≠ .exited ∧ h ∈ u.owned

theorem inv_init (self : PeerID) (registry : Registry) : Inv (init self registry) where
  families c := Delivery.inv_init _
  succession c := succession_init _
  inTurn c := inTurn_init _
  table _ _ h := nomatch h
  live _ _ h := nomatch h
  fresh _ _ := rfl
  shape _ _ h := nomatch h
  opened h id hopen := by
    obtain ⟨d, hd, _⟩ := hopen
    exact nomatch hd

variable {s' : StackState} {r : SupRef} {u u' : Supervisor}

variable {lost : Handle → Prop}

/-- The invariant after a step in which every supervisor goes on with its open handles. -/
theorem Inv.update (h : Inv s) (hfamilies : ∀ c, (s'.family c).Inv ∧ (s'.family c).Succession ∧ (s'.family c).InTurn)
    (hpeers : s'.peers = s.peers) (hnext : s'.nextSup = s.nextSup)
    (hsups : ∀ r, s'.sups.get r = none ∧ s.sups.get r = none ∨
      ∃ u u', s.sups.get r = some u ∧ s'.sups.get r = some u' ∧ Continues lost u u')
    (hlost : ∀ k id, lost k → ¬s'.OpenFor k id) (hopened : ∀ k id, s'.OpenFor k id → s.OpenFor k id ∨
      ∃ r u, s'.sups.get r = some u ∧ u.id = id ∧ u.phase ≠ .exited ∧ k ∈ u.owned) : Inv s' := by
  have hback : ∀ r u', s'.sups.get r = some u' →
      ∃ u, s.sups.get r = some u ∧ Continues lost u u' := by
    intro r u' hu'
    rcases hsups r with ⟨hnone, _⟩ | ⟨u, v, hu, hv, hc⟩
    · rw [hnone] at hu'
      cases hu'
    rw [hv] at hu'
    cases hu'
    exact ⟨u, hu, hc⟩
  have hforth : ∀ r u, s.sups.get r = some u →
      ∃ u', s'.sups.get r = some u' ∧ Continues lost u u' := by
    intro r u hu
    rcases hsups r with ⟨_, hnone⟩ | ⟨v, u', hv, hu', hc⟩
    · rw [hnone] at hu
      cases hu
    rw [hv] at hu
    cases hu
    exact ⟨u', hu', hc⟩
  refine ⟨fun c => (hfamilies c).1, fun c => (hfamilies c).2.1, fun c => (hfamilies c).2.2,
    fun id r hr => ?_, fun r u' hu' hne => ?_, fun r hr => ?_, fun r u' hu' => ?_,
    fun k id hopen => ?_⟩
  · rw [hpeers] at hr
    obtain ⟨u, hu, hid, hne⟩ := h.table id r hr
    obtain ⟨u', hu', hc⟩ := hforth r u hu
    exact ⟨u', hu', hc.id.trans hid, fun hx => hne (hc.exited.mp hx)⟩
  · obtain ⟨u, hu, hc⟩ := hback r u' hu'
    rw [hpeers, hc.id]
    exact h.live r u hu fun hx => hne (hc.exited.mpr hx)
  · rw [hnext] at hr
    rcases hsups r with ⟨hnone, _⟩ | ⟨u, u', hu, _, _⟩
    · exact hnone
    · rw [h.fresh r hr] at hu
      cases hu
  · obtain ⟨u, hu, hc⟩ := hback r u' hu'
    exact hc.shape (h.shape r u hu)
  · rcases hopened k id hopen with hold | hnew
    · obtain ⟨r, u, hu, hid, hne, hown⟩ := h.opened k id hold
      obtain ⟨u', hu', hc⟩ := hforth r u hu
      refine ⟨r, u', hu', hc.id.trans hid, fun hx => hne (hc.exited.mp hx), ?_⟩
      exact (hc.owned k hown).resolve_left fun hl => hlost k id hl hopen
    · exact hnew

theorem Inv.deliveries (h : Inv s) (c : FamilyCode) :
    (s.family c).Inv ∧ (s.family c).Succession ∧ (s.family c).InTurn :=
  ⟨h.families c, h.succession c, h.inTurn c⟩

/-- No family takes part in the step. -/
theorem Inv.continue (h : Inv s) (hfam : s'.family = s.family)
    (hpeers : s'.peers = s.peers) (hnext : s'.nextSup = s.nextSup)
    (hsups : ∀ r, s'.sups.get r = none ∧ s.sups.get r = none ∨
      ∃ u u', s.sups.get r = some u ∧ s'.sups.get r = some u' ∧ Continues (fun _ => False) u u') : Inv s' := by
  refine h.update (fun c => ?_) hpeers hnext hsups nofun fun k id hopen => .inl ?_
  · rw [hfam]
    exact h.deliveries c
  · unfold OpenFor at hopen
    rwa [hfam] at hopen

/-- The table after one supervisor changed. -/
theorem continues_set (hu : s.sups.get r = some u) (hc : Continues lost u u') (r' : SupRef) :
    (s.sups.set r u').get r' = none ∧ s.sups.get r' = none ∨
      ∃ v v', s.sups.get r' = some v ∧ (s.sups.set r u').get r' = some v' ∧ Continues lost v v' := by
  rw [Map.get_set]
  by_cases hr : r' = r
  · rw [if_pos hr, hr]
    exact .inr ⟨u, u', hu, rfl, hc⟩
  rw [if_neg hr]
  cases s.sups.get r' with
  | none => exact .inl ⟨rfl, rfl⟩
  | some v => exact .inr ⟨v, v, rfl, rfl, .of_eq rfl rfl rfl rfl⟩

/-- One supervisor goes on with its handles; fields outside the invariant may change too. -/
theorem Inv.setSup (h : Inv s) (hu : s.sups.get r = some u) (hsups : s'.sups = s.sups.set r u')
    (hc : Continues (fun _ => False) u u') (hfam : s'.family = s.family)
    (hpeers : s'.peers = s.peers) (hnext : s'.nextSup = s.nextSup) : Inv s' := by
  refine h.continue hfam hpeers hnext fun r' => ?_
  rw [hsups]
  exact continues_set hu hc r'

theorem Inv.congr (h : Inv s) (hfam : s'.family = s.family)
    (hpeers : s'.peers = s.peers) (hsups : s'.sups = s.sups) (hnext : s'.nextSup = s.nextSup) : Inv s' := by
  refine h.continue hfam hpeers hnext fun r => ?_
  rw [hsups]
  cases s.sups.get r with
  | none => exact .inl ⟨rfl, rfl⟩
  | some u => exact .inr ⟨u, u, rfl, rfl, .of_eq rfl rfl rfl rfl⟩

/-! ### Steps on a family -/

theorem family_onFamily (s : StackState) (c : FamilyCode) (op : DeliveryOp) (c' : FamilyCode) :
    (s.onFamily c op).family c' = if c' = c then (s.family c).step op else s.family c' := by
  by_cases h : c' = c
  · subst h
    simp [onFamily]
  · simp [onFamily, h]

/-- What each family keeps when one of them takes an operation. -/
theorem Inv.deliveries_onFamily (h : Inv s) (c : FamilyCode) (op : DeliveryOp)
    (hop : (s.family c).OneOpen op) (c' : FamilyCode) :
    ((s.onFamily c op).family c').Inv ∧ ((s.onFamily c op).family c').Succession ∧
      ((s.onFamily c op).family c').InTurn := by
  rw [family_onFamily]
  by_cases hc : c' = c
  · rw [if_pos hc]
    exact ⟨inv_step (h.families c) op, succession_step (h.families c) (h.succession c) hop,
      inTurn_step (h.families c) (h.succession c) (h.inTurn c) op⟩
  · rw [if_neg hc]
    exact ⟨h.families c', h.succession c', h.inTurn c'⟩

/-- A handle open after an operation was open before, unless the operation made it. -/
theorem openFor_back {c : FamilyCode} {op : DeliveryOp} {k : Handle} {id : PeerID}
    (hopen : (s.onFamily c op).OpenFor k id) :
    s.OpenFor k id ∨ k = ⟨c, (s.family c).nextHandle⟩ ∧ op = .addPeer id := by
  obtain ⟨kc, kr⟩ := k
  obtain ⟨d', hd', hdown', hpeer'⟩ := hopen
  rw [family_onFamily] at hd'
  by_cases hc : kc = c
  · subst hc
    rw [if_pos rfl] at hd'
    rcases (moved_step (s.family kc) op).record_back hd' with
      ⟨d, hd, hpeer, hmono⟩ | ⟨hnew, hadd⟩
    · refine .inl ⟨d, hd, ?_, hpeer.trans hpeer'⟩
      cases hdown : d.down with
      | false => rfl
      | true => rw [hmono hdown] at hdown'; cases hdown'
    · refine .inr ⟨?_, ?_⟩
      · rw [← hnew]
      · rw [hadd, hpeer']
  · rw [if_neg hc] at hd'
    exact .inl ⟨d', hd', hdown', hpeer'⟩

/-- Operations that make no handle. -/
theorem Inv.onFamily (h : Inv s) (c : FamilyCode) (op : DeliveryOp)
    (hop : ∀ id, op ≠ .addPeer id) : Inv (s.onFamily c op) := by
  have hone : (s.family c).OneOpen op := by
    cases op with
    | addPeer id => exact absurd rfl (hop id)
    | _ => trivial
  have hdel := h.deliveries_onFamily c op hone
  refine ⟨fun c' => (hdel c').1, fun c' => (hdel c').2.1, fun c' => (hdel c').2.2, h.table, h.live,
    h.fresh, h.shape, fun k id hopen => ?_⟩
  rcases openFor_back hopen with hold | ⟨_, hadd⟩
  · exact h.opened k id hold
  · exact absurd hadd (hop id)

/-- `closePeer` leaves the handle closed. -/
theorem not_openFor_closePeer (s : StackState) (k : Handle) (code resetCode : Code) (id : PeerID) :
    ¬(s.onFamily k.family (.closePeer k.ref code resetCode)).OpenFor k id := by
  rintro ⟨d', hd', hopen, _⟩
  rw [family_onFamily, if_pos rfl] at hd'
  rw [down_closePeer hd'] at hopen
  cases hopen

/-- `dropView`'s loop ends one handle, and the supervisor no longer owns it. -/
theorem inv_endHandle (h : Inv s) {k : Handle} {hs : List Handle}
    {drop : Drop} (hu : s.sups.get r = some u) (hphase : u.phase = .dropping (k :: hs) drop) :
    Inv ((s.setSup r { u with phase := .dropping hs drop }).onFamily k.family
      (.closePeer k.ref drop.code .closing)) := by
  refine h.update (h.deliveries_onFamily _ (.closePeer k.ref drop.code .closing) trivial) rfl rfl
    (continues_set hu (continues_endHandle hphase)) ?_ fun k' id hopen => ?_
  · rintro _ id rfl
    exact not_openFor_closePeer s _ _ _ id
  rcases openFor_back hopen with hold | ⟨_, hadd⟩
  · exact .inl hold
  · cases hadd

/-- `attach`'s loop makes a handle.  The supervisor's handles are those it has just made, all in
other families, so no handle of the peer is open in this one. -/
theorem inv_addHandle (h : Inv s) {a : Admission} {c : FamilyCode}
    {cs : List FamilyCode} {hs : List Handle} (hu : s.sups.get r = some u)
    (hphase : u.phase = .adding a (c :: cs) hs) :
    Inv ((s.setSup r { u with
      phase := .adding a cs (hs ++ [⟨c, (s.family c).nextHandle⟩]) }).onFamily c (.addPeer u.id)) := by
  have hlive : s.peers.get u.id = some r := h.live r u hu (by rw [hphase]; nofun)
  obtain ⟨_, hnil, hnodup⟩ := (h.shape r u hu).adding _ _ _ hphase
  have hall : (s.family c).AllDown u.id := by
    intro k d hd hpeer
    by_contra hdown
    obtain ⟨r', u', hu', hid, hne, hown⟩ :=
      h.opened ⟨c, k⟩ u.id ⟨d, hd, Bool.eq_false_iff.mpr hdown, hpeer⟩
    -- the owner is this supervisor: it is the one in the table
    have hr : r' = r := by
      have hlive' := h.live r' u' hu' hne
      rw [hid, hlive] at hlive'
      exact (Option.some.inj hlive').symm
    subst hr
    rw [hu] at hu'
    cases hu'
    rw [owned, hnil, hphase, nil_append] at hown
    have hmem : c ∈ hs.map Handle.family := mem_map_of_mem (f := Handle.family) hown
    exact (nodup_append.mp hnodup).2.2 c hmem c mem_cons_self rfl
  have hc : Continues (fun _ => False) u { u with
      phase := .adding a cs (hs ++ [⟨c, (s.family c).nextHandle⟩]) } :=
    continues_addHandle hphase _
  refine h.update (h.deliveries_onFamily c (.addPeer u.id) hall) rfl rfl (continues_set hu hc) nofun
    fun k id hopen => ?_
  rcases openFor_back hopen with hold | ⟨hk, hadd⟩
  · exact .inl hold
  cases hadd
  refine .inr ⟨r, _, (Map.get_set _ _ _ _).trans (if_pos rfl), rfl, nofun, ?_⟩
  rw [hk]
  exact mem_append_right _ (mem_append_right _ (mem_singleton.mpr rfl))

/-! ### The table of supervisors -/

/-- A supervisor without a view leaves the table: it owns nothing. -/
theorem inv_exit (h : Inv s) (hu : s.sups.get r = some u) (hp : u.phase.Plain) (hconn : u.conn = none) :
    Inv { s.setSup r { u with phase := .exited } with peers := s.peers.del u.id } := by
  have hlive := h.live r u hu hp.ne_exited
  have hnil : u.handles = [] := (h.shape r u hu).noView hconn
  have hget : ∀ r', (s.sups.set r { u with phase := .exited }).get r' =
      if r' = r then some { u with phase := .exited } else s.sups.get r' := Map.get_set _ _ _
  -- the entry of any other supervisor has another key
  have hother : ∀ r' u', s.sups.get r' = some u' → u'.phase ≠ .exited → r' ≠ r → u'.id ≠ u.id := by
    intro r' u' hu' hne hr hid
    have hlive' := h.live r' u' hu' hne
    rw [hid, hlive] at hlive'
    exact hr (Option.some.inj hlive').symm
  refine ⟨h.families, h.succession, h.inTurn, fun id r' hr' => ?_, fun r' u' hu' hne => ?_,
    fun r' hr' => ?_, fun r' u' hu' => ?_, fun k id hopen => ?_⟩
  · replace hr' : (s.peers.del u.id).get id = some r' := hr'
    rw [Map.get_del] at hr'
    split at hr'
    · cases hr'
    rename_i hid
    obtain ⟨u', hu', hid', hne⟩ := h.table id r' hr'
    have hr : r' ≠ r := by
      rintro rfl
      rw [hu] at hu'
      cases hu'
      exact hid hid'.symm
    exact ⟨u', (hget r').trans ((if_neg hr).trans hu'), hid', hne⟩
  · replace hu' : (s.sups.set r { u with phase := .exited }).get r' = some u' := hu'
    rw [hget] at hu'
    split at hu'
    · cases hu'
      exact absurd rfl hne
    rename_i hr
    have hid := hother r' u' hu' hne hr
    exact (Map.get_del _ _ _).trans ((if_neg hid).trans (h.live r' u' hu' hne))
  · have hne : r' ≠ r := by
      rintro rfl
      rw [h.fresh r' hr'] at hu
      cases hu
    exact (hget r').trans ((if_neg hne).trans (h.fresh r' hr'))
  · replace hu' : (s.sups.set r { u with phase := .exited }).get r' = some u' := hu'
    rw [hget] at hu'
    split at hu'
    · cases hu'
      exact ⟨fun _ => hnil, (by simp), (by simp), fun _ => hconn⟩
    · exact h.shape r' u' hu'
  · obtain ⟨r', u', hu', hid, hne, hown⟩ := h.opened k id hopen
    have hr : r' ≠ r := by
      rintro rfl
      rw [hu] at hu'
      cases hu'
      rw [owned, hnil, hp.handles_eq] at hown
      cases hown
    exact ⟨r', u', (hget r').trans ((if_neg hr).trans hu'), hid, hne, hown⟩

/-- A supervisor is started for a peer that has none. -/
theorem inv_start (h : Inv s) {id : PeerID} (hnone : s.peers.get id = none)
    (hsups : s'.sups = s.sups.set s.nextSup u) (hid : u.id = id)
    (hp : u.phase.Plain) (hhandles : u.handles = []) (hfam : s'.family = s.family)
    (hpeers : s'.peers = s.peers.set id s.nextSup) (hnext : s'.nextSup = s.nextSup + 1) : Inv s' := by
  have hget : ∀ r', s'.sups.get r' = if r' = s.nextSup then some u else s.sups.get r' := by
    intro r'
    rw [hsups, Map.get_set]
  have hold : ∀ r' u', s.sups.get r' = some u' → r' ≠ s.nextSup := by
    rintro r' u' hu' rfl
    rw [h.fresh _ le_rfl] at hu'
    cases hu'
  refine ⟨?_, ?_, ?_, fun id' r' hr' => ?_, fun r' u' hu' hne => ?_, fun r' hr' => ?_,
    fun r' u' hu' => ?_, fun k id' hopen => ?_⟩
  · rw [hfam]
    exact h.families
  · rw [hfam]
    exact h.succession
  · rw [hfam]
    exact h.inTurn
  · rw [hpeers, Map.get_set] at hr'
    split at hr'
    · rename_i hidid
      cases hr'
      exact ⟨u, (hget _).trans (if_pos rfl), hid.trans hidid.symm, hp.ne_exited⟩
    · obtain ⟨u', hu', hrest⟩ := h.table id' r' hr'
      exact ⟨u', (hget r').trans ((if_neg (hold r' u' hu')).trans hu'), hrest⟩
  · rw [hget] at hu'
    rw [hpeers, Map.get_set]
    split at hu'
    · rename_i hr
      cases hu'
      rw [if_pos hid, hr]
    have hlive := h.live r' u' hu' hne
    rw [if_neg fun heq => ?_]
    · exact hlive
    · rw [heq, hnone] at hlive
      cases hlive
  · rw [hnext] at hr'
    rw [hget, if_neg (Nat.ne_of_gt hr')]
    exact h.fresh r' (Nat.le_of_lt hr')
  · rw [hget] at hu'
    split at hu'
    · cases hu'
      exact Shape.of_plain hp fun _ => hhandles
    · exact h.shape r' u' hu'
  · unfold OpenFor at hopen
    rw [hfam] at hopen
    obtain ⟨r', u', hu', hrest⟩ := h.opened k id' hopen
    exact ⟨r', u', (hget r').trans ((if_neg (hold r' u' hu')).trans hu'), hrest⟩

/-! ### Requests and the stack's methods -/

/-- Appending a request touches no handle. -/
theorem inv_append (h : Inv s) (hu : s.sups.get r = some u) (req : Request) : Inv (s.append r u req) :=
  h.setSup hu rfl (.of_eq rfl rfl rfl rfl) rfl rfl rfl

theorem inv_post (h : Inv s) (r : SupRef) (req : Request) {dropped : StackState → StackState}
    (hdropped : Inv (dropped s)) : Inv (s.post r req dropped) := by
  unfold post
  cases hu : s.sups.get r with
  | none => exact h
  | some u =>
    dsimp only
    split
    · exact inv_append h hu req
    · exact hdropped

theorem inv_attach (h : Inv s) (v : View) : Inv (s.attach v) := by
  have h' : Inv { s with views := s.views.set s.nextView v, nextView := s.nextView + 1 } :=
    h.congr rfl rfl rfl rfl
  unfold attach
  dsimp only
  split
  · exact h.congr rfl rfl rfl rfl
  cases hr : s.peers.get v.peer with
  | none => exact inv_start h hr rfl rfl trivial rfl rfl rfl rfl
  | some r =>
    dsimp only
    cases hu : s.sups.get r with
    | none => exact h'
    | some u => exact inv_append h' hu _

theorem inv_disconnect (h : Inv s) (id : PeerID) : Inv (s.disconnect id) := by
  obtain ⟨dials, _, ⟨heq, _⟩ | ⟨r, u, hr, hu, heq⟩⟩ := s.disconnect_cases id
  · rw [heq]
    exact h.congr rfl rfl rfl rfl
  · rw [heq]
    exact h.setSup hu rfl (.of_eq rfl rfl rfl rfl) rfl rfl rfl

theorem inv_close (h : Inv s) : Inv s.close := by
  unfold close
  split
  · exact h
  refine h.continue rfl rfl rfl fun r => ?_
  rw [Map.get_mapVals]
  cases hu : s.sups.get r with
  | none => exact .inl ⟨rfl, rfl⟩
  | some u =>
    refine .inr ⟨u, _, rfl, rfl, ?_⟩
    dsimp only
    split <;> exact .of_eq rfl rfl rfl rfl

/-! ### The supervisor's steps -/

/-- Every act of a supervisor. -/
theorem inv_act (h : Inv s) {reqs : List Request} {o : Out}
    (hu : s.sups.get r = some u) (hact : Act s r u reqs u' o) : Inv (s.turned r u' o) := by
  have hplain {p : Phase} (hphase : u.phase = p) (hp : p.Plain) : u.phase.Plain := hphase ▸ hp
  -- an act between two plain phases that keeps the view
  have hgo {w : Supervisor} {o : Out} (hp : u.phase.Plain) (hp' : w.phase.Plain) (hid : w.id = u.id)
      (hconn : w.conn = u.conn) (hhandles : w.handles = u.handles)
      (ho : o.left = none ∧ o.family = none) : Inv (s.turned r w o) :=
    h.setSup hu rfl (.of_plain hid hconn hhandles hp hp') (by simp [turned, ho]) (by simp [turned, ho]) rfl
  cases hact with
  | wake hphase | fetch hphase | rest hphase | stale hphase | refuse hphase | header hphase | check hphase
  | turnAround hphase | endReads hphase | pass hphase | found hphase | token hphase =>
    exact hgo (hplain hphase trivial) trivial rfl rfl rfl ⟨rfl, rfl⟩
  | exit hphase _ _ hconn => exact (inv_exit h hu (hplain hphase trivial) hconn).congr rfl rfl rfl rfl
  | @enter ref v a record reqs hphase _ _ hconn =>
    have hinfo : Continues (fun _ => False) u { u with reqs := reqs, info := some a.info, record := record } :=
      .of_eq rfl rfl rfl rfl
    refine h.setSup hu rfl (hinfo.trans ?_) rfl rfl rfl
    apply continues_install
    · exact hconn
    · exact (hplain hphase trivial).ne_exited
    · exact (hplain hphase trivial).handles_eq
  | @displace ref old v a record reqs hphase =>
    have hinfo : Continues (fun _ => False) u { u with reqs := reqs, info := some a.info, record := record } :=
      .of_eq rfl rfl rfl rfl
    refine h.setSup hu rfl (hinfo.trans ?_) rfl rfl rfl
    apply continues_dropped
    exact hplain hphase trivial
  | noView hreqs =>
    have hp : u.phase.Plain := hreqs.elim (fun h => hplain h.1 trivial) fun h => hplain h.1 trivial
    exact hgo hp trivial rfl rfl rfl ⟨rfl, rfl⟩
  | @drop _ _ v done reqs rest resets hphase =>
    have hp : u.phase.Plain := by
      obtain ⟨hphase, _⟩ | ⟨hphase | hphase, _⟩ := hphase <;> exact hplain hphase trivial
    have hrest : Continues (fun _ => False) u { u with reqs := rest } := .of_eq rfl rfl rfl rfl
    refine h.setSup hu rfl (hrest.trans ?_) rfl rfl rfl
    apply continues_dropped
    exact hp
  | @push v d stream sel k reqs hphase =>
    have h' : Inv (s.setSup r { u with
        reqs := reqs
        reading := Function.update u.reading d (u.reading d - 1)
        phase := .reading .uni none }) :=
      h.setSup hu rfl (.of_plain rfl rfl rfl (hplain hphase trivial) trivial) rfl rfl rfl
    exact (h'.onFamily k.family (.push k.ref sel.protocol) (by simp)).congr rfl rfl rfl rfl
  | endHandle hphase => exact (inv_endHandle h hu hphase).congr rfl rfl rfl rfl
  | ended hphase =>
    have hown : u.phase.handles = [] := by rw [hphase]; rfl
    refine h.setSup hu rfl ⟨rfl, iff_of_false (by simp) (by rw [hphase]; simp), fun k hk => .inr ?_, fun hs => ?_⟩
      rfl rfl rfl
    · rw [owned, hown] at hk
      exact hk
    · exact Shape.of_plain trivial hs.noView
  | replaced hphase =>
    have hinfo : Continues (fun _ => False) u { u with info := none } := .of_eq rfl rfl rfl rfl
    refine h.setSup hu rfl (hinfo.trans ?_) rfl rfl rfl
    apply continues_install
    · exact (h.shape r u hu).dropping _ _ hphase
    · rw [hphase]
      simp
    · rw [hphase]
      rfl
  | addHandle hphase => exact (inv_addHandle h hu hphase).congr rfl rfl rfl rfl
  | store hphase =>
    exact h.setSup hu rfl (continues_store hphase (h.shape r u hu) rfl rfl rfl trivial) rfl rfl rfl
  | read => exact h.setSup hu rfl (.of_eq rfl rfl rfl rfl) rfl rfl rfl

theorem inv_acts (h : Inv s) {reqs : List Request}
    (hu : s.sups.get r = some u) (hacts : Acts s r u reqs s') : Inv s' := by
  obtain ⟨rfl, _⟩ | ⟨u', o, hact, rfl⟩ := hacts
  · exact h
  · exact inv_act h hu hact

theorem inv_withView (h : Inv s) (ref : ViewRef) (f : View → View) : Inv (s.withView ref f) := by
  unfold withView
  split
  · exact h
  · exact h.congr rfl rfl rfl rfl

theorem inv_step (h : Inv s) (op : StackOp) : Inv (s.step op) := by
  cases op with
  | attach v => exact inv_attach h v
  | disconnect id => exact inv_disconnect h id
  | close => exact inv_close h
  | dial id d => exact h.congr rfl rfl rfl rfl
  | signal r =>
    have h' : Inv { s with signals := s.signals.erase r } := h.congr rfl rfl rfl rfl
    simp only [step, withSup]
    split
    · split
      · exact h'
      · rename_i u hu
        exact h'.setSup hu rfl (.of_eq rfl rfl rfl rfl) rfl rfl rfl
    · exact h
  | select r case => exact step_select h r case (inv_acts h)
  | work r =>
    simp only [step, withSup]
    split
    · exact h
    rename_i u hu
    obtain ⟨_, hacts⟩ := acts_work s r u
    exact inv_acts h hu hacts
  | next c => exact h.onFamily c .next (by simp)
  | closeHandle k code =>
    have h' := h.onFamily k.family (.closePeer k.ref code .unsupportedSelector) (by simp)
    simp only [step, closeHandle]
    split
    · exact h'
    · exact h'.congr rfl rfl rfl rfl
  | postClosed r =>
    have h' : Inv { s with closings := s.closings.erase r } := h.congr rfl rfl rfl rfl
    simp only [step]
    split
    · exact inv_post h' r .handleClosed h'
    · exact h
  | arrive ref d =>
    have h' : Inv { s with nextStream := s.nextStream + 1 } := h.congr rfl rfl rfl rfl
    exact inv_withView h' ref _
  | connDone ref code => exact inv_withView h ref _
  | headerDone i sel =>
    simp only [step]
    split
    · exact h
    · have h' : Inv { s with headerReads := s.headerReads.eraseIdx i } := h.congr rfl rfl rfl rfl
      exact inv_post h' _ _ (h'.congr rfl rfl rfl rfl)
  | goAwayDone i result =>
    simp only [step]
    split
    · exact h
    have h' : Inv { s with goAwayReads := s.goAwayReads.eraseIdx i } := h.congr rfl rfl rfl rfl
    split
    · exact h'
    · exact inv_post h' _ _ h'

theorem inv_run (self : PeerID) (registry : Registry) (ops : List StackOp) :
    Inv (exec step (init self registry) ops) :=
  exec_invariant (I := Inv) step (fun _ op h => inv_step h op) (inv_init self registry) ops

/-! ## One handle of a peer at a time -/

/-- **A peer comes up again only after it went down.**  In every family of every stack, whatever
views are admitted, replaced, dropped and closed, whichever supervisors exit and are started again,
and whenever the consumers call `Next`: between the `PeerUp` of a handle and the `PeerUp` of another
handle of the same peer, `Next` returned the `PeerDown` of the first. -/
theorem peerDown_before_next_peerUp (self : PeerID) (registry : Registry) (ops : List StackOp)
    (c : FamilyCode) (pre mid post : List (HandleRef × Event)) (a b : HandleRef) (da db : PeerDelivery)
    (hret : ((exec step (init self registry) ops).family c).returned =
      pre ++ (a, .peerUp) :: (mid ++ (b, .peerUp) :: post))
    (ha : ((exec step (init self registry) ops).family c).family.deliveries.get a = some da)
    (hb : ((exec step (init self registry) ops).family c).family.deliveries.get b = some db)
    (hpeer : da.peer = db.peer) (hne : a ≠ b) : ∃ code, (a, .peerDown code) ∈ mid :=
  (inv_run self registry ops).inTurn c pre mid post a b da db hret hne ha hb hpeer

/-- One family with one protocol. -/
def oneFamily : Registry :=
  ⟨[7], by decide, by decide, fun _ => oneSlot⟩

/-- A view of the peer `q`, dialed by it, that shares the family. -/
def viewOfQ : View := { peer := "q", outbound := false, families := [7], ascending := by decide }

/-- The supervisor takes its first view and makes the handle, which the consumer sees come up; a
second view of the same direction replaces it.  The handle of the new view is in the ring before the
consumer calls `Next` again. -/
def replaced : List StackOp :=
  [.attach viewOfQ, .signal 0, .select 0 .wake, .work 0, .work 0, .work 0, .work 0, .work 0,
    .work 0, .work 0, .next 7, .attach viewOfQ, .signal 0, .select 0 .wake, .work 0, .work 0,
    .work 0, .work 0, .work 0, .next 7, .next 7]

theorem peerDown_before_next_peerUp_replaced :
    ((exec step (init "p" oneFamily) replaced).family 7).returned =
      [(0, .peerUp), (0, .peerDown .duplicate), (1, .peerUp)] ∧
    ∃ code, ((0 : HandleRef), Event.peerDown code) ∈ [((0 : HandleRef), Event.peerDown .duplicate)] := by
  have hret : ((exec step (init "p" oneFamily) replaced).family 7).returned =
      [(0, .peerUp), (0, .peerDown .duplicate), (1, .peerUp)] := by decide +kernel
  have hpeer : ∀ h : HandleRef, h < 2 →
      ((((exec step (init "p" oneFamily) replaced).family 7).family.deliveries.get h).map
        (·.peer)) = some "q" := by decide +kernel
  obtain ⟨da, ha, hpa⟩ := Option.map_eq_some_iff.mp (hpeer 0 (by decide))
  obtain ⟨db, hb, hpb⟩ := Option.map_eq_some_iff.mp (hpeer 1 (by decide))
  exact ⟨hret, peerDown_before_next_peerUp "p" oneFamily replaced 7 [] [(0, .peerDown .duplicate)] []
    0 1 da db hret ha hb (hpa.trans hpb.symm) (by decide)⟩

end StackState

end EthP2P.Stack
