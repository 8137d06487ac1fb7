/-
# EthP2P.Stack.Delivery — what a family's consumer sees

Every interleaving of `addPeer`, `push`, `closePeer` and `Next` on one family, over any number of
handles, with the history of what was pushed, returned and reset.  A handle's history is tied to its
delivery record by `HandleInv`: the events returned so far are determined by the record, the streams
returned and still pending are in push order, and every stream ever pushed is in one place.  The ring
part (`Inv.ring`, `Inv.tickets`) says that the ring holds exactly the handles that have something
to deliver, in the order in which they entered it.
-/
import Mathlib.Algebra.Order.Group.Int
import EthP2P.Lib.Runs
import EthP2P.Lib.Logs
import EthP2P.Stack.Family

namespace EthP2P.Stack

open Lib Wire Function Family List

/-! ## The system -/

inductive DeliveryOp where
  | addPeer (id : PeerID)
  | push (h : HandleRef) (protocol : Protocol)
  | closePeer (h : HandleRef) (code resetCode : Code)
  | next
  deriving DecidableEq, Repr

/-- A family and its history; handles and pushed streams are numbered as they appear. -/
structure Delivery where
  family : Family
  nextHandle : HandleRef := 0
  nextStream : StreamRef := 0
  returned : List (HandleRef × Event) := []
  pushed : List (HandleRef × PendingStream) := []
  resets : List (HandleRef × Reset) := []
  /-- The ring elements taken by `Next`. -/
  served : List Nat := []

namespace Delivery

/-- A registered family with no peers. -/
def init (spec : FamilySpec) : Delivery := { family := { spec := spec } }

def step (x : Delivery) : DeliveryOp → Delivery
  | .addPeer id =>
    { x with family := x.family.addPeer x.nextHandle id, nextHandle := x.nextHandle + 1 }
  | .push h protocol =>
    match x.family.deliveries.get h with
    | none => x
    | some d =>
      let pending := { protocol := protocol, stream := x.nextStream }
      let r := x.family.push h d pending
      { x with
        family := r.1
        nextStream := x.nextStream + 1
        pushed := x.pushed ++ [(h, pending)]
        resets := x.resets ++ r.2.map fun reset => (h, reset) }
  | .closePeer h code resetCode =>
    match x.family.deliveries.get h with
    | none => x
    | some d =>
      let r := x.family.closePeer h d code resetCode
      { x with family := r.2.1, resets := x.resets ++ r.2.2.map fun reset => (h, reset) }
  | .next =>
    let r := x.family.Next
    match r.1 with
    | none => { x with family := r.2 }
    | some e =>
      { x with
        family := r.2
        returned := x.returned ++ [e]
        served := x.served ++ (x.family.ready.front.map Prod.fst).toList }

end Delivery

/-! ## One handle -/

/-- The events of a handle: nothing before it came up, then `PeerUp`, the streams `rs` and, once
told, `PeerDown`. -/
def eventsFor (up : Bool) (rs : List PendingStream) (told : Bool) (code : Code) : List Event :=
  if up then .peerUp :: (rs.map .streamIn ++ if told then [.peerDown code] else []) else []

/-- The handle has an event that `Next` has not returned: its `PeerUp`, a stream, or the `PeerDown`
of a handle that came up. -/
def Undelivered (d : PeerDelivery) (told : Bool) : Prop :=
  d.up = false ∧ d.down = false ∨ d.up = true ∧ (d.streams ≠ [] ∨ d.down = true ∧ told = false)

/-- A handle's delivery record `d` and its history: the returned events, made of the streams `rs`
and `told`, the streams pushed and the streams reset. -/
structure HandleInv (spec : FamilySpec) (d : PeerDelivery) (events : List Event)
    (pushed : List PendingStream) (resets : List Reset) (rs : List PendingStream)
    (told : Bool) : Prop where
  history : events = eventsFor d.up rs told d.code
  early : d.up = false → rs = [] ∧ told = false
  told_down : told = true → d.down = true
  closed : d.down = true → d.streams = []
  order : (rs ++ d.streams).Sublist pushed
  custody : ((rs ++ d.streams).map (·.stream) ++ resets.map Prod.fst).Perm (pushed.map (·.stream))
  counted : ∀ p, d.queued p = (d.streams.countP (·.protocol = p) : Nat)
  bounded : ∀ p, d.queued p ≤ spec.maxQueued p

theorem FamilySpec.maxQueued_nonneg (spec : FamilySpec) (p : Protocol) : 0 ≤ spec.maxQueued p := by
  unfold FamilySpec.maxQueued
  cases hfind : spec.protocols.find? (·.protocol = p) with
  | none => exact le_rfl
  | some s =>
    have hlimit := spec.limits s (mem_of_find?_eq_some hfind)
    change (0 : Int) ≤ s.maxQueued
    omega

namespace HandleInv

variable {spec : FamilySpec} {d : PeerDelivery} {events : List Event}
  {pushed : List PendingStream} {resets : List Reset} {rs : List PendingStream} {told : Bool}

theorem added (spec : FamilySpec) (id : PeerID) (t : Option Nat) :
    HandleInv spec { peer := id, ready := t } [] [] [] [] false where
  history := rfl
  early _ := ⟨rfl, rfl⟩
  told_down := nofun
  closed _ := rfl
  order := .slnil
  custody := .nil
  counted _ := rfl
  bounded := spec.maxQueued_nonneg

section

variable (h : HandleInv spec d events pushed resets rs told)
include h

/-- The ring element is not part of a handle's history. -/
theorem setReady (t : Option Nat) : HandleInv spec { d with ready := t } events pushed resets rs told :=
  ⟨h.history, h.early, h.told_down, h.closed, h.order, h.custody, h.counted, h.bounded⟩

theorem came_up (hup : d.up = false) :
    HandleInv spec { d with up := true } (events ++ [.peerUp]) pushed resets rs told := by
  obtain ⟨rfl, rfl⟩ := h.early hup
  have hevents : events = [] := by rw [h.history, hup]; rfl
  rw [hevents]
  exact ⟨rfl, nofun, nofun, h.closed, h.order, h.custody, h.counted, h.bounded⟩

theorem streamed (hup : d.up = true)
    {p : PendingStream} {streams : List PendingStream} (hstreams : d.streams = p :: streams) :
    HandleInv spec (d.dequeue p streams) (events ++ [.streamIn p]) pushed resets (rs ++ [p])
      told := by
  have hopen : d.down = false := by
    cases hdown : d.down with
    | false => rfl
    | true => rw [h.closed hdown] at hstreams; cases hstreams
  have htold : told = false := by
    cases ht : told with
    | false => rfl
    | true => rw [h.told_down ht] at hopen; cases hopen
  subst htold
  have hrest : (rs ++ [p]) ++ streams = rs ++ d.streams := by rw [hstreams]; simp
  refine ⟨?_, fun hn => ?_, nofun, fun hd => ?_, ?_, ?_, fun q => ?_, fun q => ?_⟩
  · rw [h.history]
    simp [eventsFor, PeerDelivery.dequeue, hup]
  · rw [show d.up = false from hn] at hup
    cases hup
  · rw [show d.down = true from hd] at hopen
    cases hopen
  · change ((rs ++ [p]) ++ streams).Sublist pushed
    rw [hrest]
    exact h.order
  · change (((rs ++ [p]) ++ streams).map (·.stream) ++ _).Perm _
    rw [hrest]
    exact h.custody
  · have hq := h.counted q
    rw [hstreams, countP_cons] at hq
    change update d.queued p.protocol (d.queued p.protocol - 1) q = (streams.countP (·.protocol = q) : Nat)
    by_cases hpq : q = p.protocol
    · subst hpq
      rw [update_self, hq]
      simp
    · rw [update_of_ne hpq, hq]
      simp [Ne.symm hpq]
  · have hb := h.bounded q
    change update d.queued p.protocol (d.queued p.protocol - 1) q ≤ _
    by_cases hpq : q = p.protocol
    · subst hpq
      rw [update_self]
      omega
    · rw [update_of_ne hpq]
      exact hb

theorem went_down (hup : d.up = true) (hdown : d.down = true) (htold : told = false) :
    HandleInv spec d (events ++ [.peerDown d.code]) pushed resets rs true := by
  subst htold
  refine ⟨?_, fun hn => ?_, fun _ => hdown, h.closed, h.order, h.custody, h.counted, h.bounded⟩
  · rw [h.history, eventsFor, eventsFor, if_pos hup, if_pos hup]
    simp
  · rw [hup] at hn
    cases hn

theorem accepted (hopen : d.down = false)
    {p : PendingStream} (hroom : d.queued p.protocol < spec.maxQueued p.protocol) :
    HandleInv spec (d.enqueue p) events (pushed ++ [p]) resets rs told := by
  refine ⟨h.history, h.early, h.told_down, fun hd => ?_, ?_, ?_, fun q => ?_, fun q => ?_⟩
  · rw [show d.down = true from hd] at hopen
    cases hopen
  · change (rs ++ (d.streams ++ [p])).Sublist (pushed ++ [p])
    rw [← append_assoc]
    exact h.order.append (.refl _)
  · refine perm_iff_count.mpr fun s => ?_
    have hs := h.custody.count_eq s
    change ((rs ++ (d.streams ++ [p])).map (·.stream) ++ resets.map Prod.fst).count s = _
    simp only [map_append, count_append] at hs ⊢
    omega
  · have hq := h.counted q
    change update d.queued p.protocol (d.queued p.protocol + 1) q = ((d.streams ++ [p]).countP (·.protocol = q) : Nat)
    rw [countP_append]
    by_cases hpq : q = p.protocol
    · subst hpq
      rw [update_self, hq]
      simp
    · rw [update_of_ne hpq, hq]
      simp [Ne.symm hpq]
  · have hb := h.bounded q
    change update d.queued p.protocol (d.queued p.protocol + 1) q ≤ _
    by_cases hpq : q = p.protocol
    · subst hpq
      rw [update_self]
      omega
    · rw [update_of_ne hpq]
      exact hb

theorem refused (p : PendingStream) (code : Code) :
    HandleInv spec d events (pushed ++ [p]) (resets ++ [(p.stream, code)]) rs told := by
  refine ⟨h.history, h.early, h.told_down, h.closed,
    h.order.trans (sublist_append_left _ _), perm_iff_count.mpr fun s => ?_, h.counted,
    h.bounded⟩
  have hs := h.custody.count_eq s
  simp only [map_append, count_append, map_cons, map_nil] at hs ⊢
  omega

theorem ended (hopen : d.down = false) (code resetCode : Code) :
    HandleInv spec (d.ended code) events pushed (resets ++ d.streams.map fun p => (p.stream, resetCode)) rs told := by
  have htold : told = false := by
    cases ht : told with
    | false => rfl
    | true => rw [h.told_down ht] at hopen; cases hopen
  subst htold
  refine ⟨?_, h.early, nofun, fun _ => rfl, ?_, ?_, fun _ => rfl, spec.maxQueued_nonneg⟩
  · rw [h.history]
    rfl
  · change (rs ++ []).Sublist pushed
    rw [append_nil]
    exact (sublist_append_left _ _).trans h.order
  refine perm_iff_count.mpr fun s => ?_
  have hs := h.custody.count_eq s
  change ((rs ++ ([] : List PendingStream)).map (·.stream) ++ _).count s = _
  simp only [map_append, count_append, map_map, comp_def, map_nil, count_nil] at hs ⊢
  omega

/-- A handle with a pending stream is open, so it has an undelivered event whether it is up or
not. -/
theorem undelivered_iff :
    Undelivered d told ↔ d.up = false ∧ d.down = false ∨ d.streams ≠ [] ∨
      d.up = true ∧ d.down = true ∧ told = false := by
  constructor
  · rintro (hwait | ⟨hup, hstreams | ⟨hdown, htold⟩⟩)
    · exact .inl hwait
    · exact .inr (.inl hstreams)
    · exact .inr (.inr ⟨hup, hdown, htold⟩)
  rintro (hwait | hstreams | ⟨hup, hdown, htold⟩)
  · exact .inl hwait
  · have hopen : d.down = false := by
      cases hdown : d.down with
      | false => rfl
      | true => exact absurd (h.closed hdown) hstreams
    cases hup : d.up with
    | false => exact .inl ⟨hup, hopen⟩
    | true => exact .inr ⟨hup, .inl hstreams⟩
  · exact .inr ⟨hup, .inr ⟨hdown, htold⟩⟩

end

end HandleInv

/-! ## The ring -/

/-- The elements served so far and those in the ring are in the order of their creation. -/
def Ticketed (served : List Nat) (r : Lib.Ring HandleRef) : Prop :=
  (served ++ r.items.map Prod.fst).Pairwise (· < ·) ∧ ∀ t ∈ served, t < r.next

namespace Ticketed

variable {served : List Nat} {r : Lib.Ring HandleRef} {t : Nat} {h : HandleRef}

theorem pushBack (hr : Ticketed served r) (h : HandleRef) : Ticketed served (r.pushBack h) := by
  obtain ⟨hsorted, hbound⟩ := hr
  refine ⟨?_, fun t ht => Nat.lt_succ_of_lt (hbound t ht)⟩
  change (served ++ (r.items ++ [(r.next, h)]).map Prod.fst).Pairwise _
  rw [map_append, ← append_assoc, pairwise_append]
  refine ⟨hsorted, pairwise_singleton _ _, fun t ht t' ht' => ?_⟩
  obtain rfl : t' = r.next := by simpa using ht'
  rcases mem_append.mp ht with ht | ht
  · exact hbound t ht
  · obtain ⟨e, he, rfl⟩ := mem_map.mp ht
    exact r.bound e he

theorem remove (hr : Ticketed served r) (t : Nat) : Ticketed served (r.remove t) := by
  refine ⟨hr.1.sublist ((Sublist.refl _).append ?_), hr.2⟩
  exact filter_sublist.map _

/-- Serving the front keeps the order. -/
theorem serve (hr : Ticketed served r) (hfront : r.front = some (t, h)) : Ticketed (served ++ [t]) (r.remove t) := by
  obtain ⟨hsorted, hbound⟩ := hr
  rw [Lib.Ring.items_remove_front hfront] at hsorted
  refine ⟨by simpa using hsorted, fun t' ht' => ?_⟩
  rcases mem_append.mp ht' with ht' | ht'
  · exact hbound t' ht'
  · obtain rfl : t' = t := by simpa using ht'
    exact r.bound _ (Lib.Ring.mem_of_front hfront)

end Ticketed

namespace Family

/-- Outside `k`, the ring element of every handle is the one its delivery names. -/
def SeatedBut (f : Family) (k : HandleRef) : Prop :=
  ∀ t h, h ≠ k → ((t, h) ∈ f.ready.items ↔ ∃ d, f.deliveries.get h = some d ∧ d.ready = some t)

def Seated (f : Family) : Prop :=
  ∀ t h, (t, h) ∈ f.ready.items ↔ ∃ d, f.deliveries.get h = some d ∧ d.ready = some t

variable {f : Family} {k : HandleRef} {d : PeerDelivery} {t : Nat}

theorem Seated.but (hs : f.Seated) (k : HandleRef) : f.SeatedBut k := fun t h _ => hs t h

theorem Seated.self (hs : f.Seated) (hd : f.deliveries.get k = some d) (t : Nat) :
    (t, k) ∈ f.ready.items ↔ d.ready = some t := by
  rw [hs t k]
  constructor
  · rintro ⟨d', hd', ht⟩
    rw [hd] at hd'
    cases hd'
    exact ht
  · exact fun ht => ⟨d, hd, ht⟩

theorem SeatedBut.store (hs : f.SeatedBut k)
    (hd : ∀ t, (t, k) ∈ f.ready.items ↔ d.ready = some t) : (f.store k d).Seated := by
  intro t h
  change (t, h) ∈ f.ready.items ↔ ∃ d', (f.deliveries.set k d).get h = some d' ∧ d'.ready = some t
  rw [Map.get_set]
  by_cases hk : h = k
  · subst hk
    rw [if_pos rfl, hd t]
    simp
  · rw [if_neg hk]
    exact hs t h hk

theorem SeatedBut.pushBack (hs : f.SeatedBut k) (hd : ∀ t, (t, k) ∉ f.ready.items) : (f.pushBack k d).Seated := by
  refine SeatedBut.store (f := { f with ready := f.ready.pushBack k }) (fun t h hk => ?_) fun t => ?_
  · rw [← hs t h hk, Lib.Ring.mem_pushBack]
    simp [hk]
  · rw [Lib.Ring.mem_pushBack]
    simp [hd t, eq_comm]

theorem Seated.remove (hs : f.Seated) (ht : (t, k) ∈ f.ready.items) :
    SeatedBut { f with ready := f.ready.remove t } k ∧ ∀ t', (t', k) ∉ (f.ready.remove t).items := by
  refine ⟨fun t' h hk => ?_, fun t' ht' => ?_⟩
  · rw [← hs t' h, Lib.Ring.mem_remove]
    refine ⟨And.left, fun hmem => ⟨hmem, ?_⟩⟩
    rintro rfl
    exact hk (Lib.Ring.value_unique hmem ht)
  obtain ⟨hmem, hne⟩ := Lib.Ring.mem_remove.mp ht'
  obtain ⟨d, hd, htd⟩ := (hs t k).mp ht
  rw [hs.self hd, htd] at hmem
  exact hne (Option.some.inj hmem).symm

/-- `schedule` seats the handle, at its old element if it has one. -/
theorem SeatedBut.schedule (hs : f.SeatedBut k)
    (hd : ∀ t, (t, k) ∈ f.ready.items ↔ d.ready = some t) : (f.schedule k d).Seated := by
  unfold Family.schedule
  split
  · rename_i hnone
    rw [Option.isNone_iff_eq_none] at hnone
    have hpush : (f.pushBack k d).Seated := hs.pushBack fun t ht => by
      rw [hd t, hnone] at ht
      cases ht
    exact hpush
  · have hstore : (f.store k d).Seated := hs.store hd
    exact hstore

theorem get_schedule (f : Family) (k : HandleRef) (d : PeerDelivery) (h : HandleRef) :
    (f.schedule k d).deliveries.get h =
      if h = k then some { d with ready := some (d.ready.getD f.ready.next) }
      else f.deliveries.get h := by
  unfold schedule
  cases hr : d.ready with
  | none => exact Map.get_set _ _ _ _
  | some t =>
    change (f.deliveries.set k d).get h = _
    rw [Map.get_set, Option.getD_some, ← hr]

theorem ticketed_schedule {served : List Nat} (hr : Ticketed served f.ready) (k : HandleRef)
    (d : PeerDelivery) : Ticketed served (f.schedule k d).ready := by
  unfold schedule
  split
  · exact hr.pushBack k
  · exact hr

@[simp] theorem schedule_spec (f : Family) (k : HandleRef) (d : PeerDelivery) : (f.schedule k d).spec = f.spec := by
  unfold schedule
  split <;> rfl

theorem get_requeue (f : Family) (k : HandleRef) (d : PeerDelivery) (h : HandleRef) :
    (f.requeue k d).deliveries.get h =
      if h = k then some { d with
        ready := if !d.streams.isEmpty || d.down then some f.ready.next else d.ready }
      else f.deliveries.get h := by
  unfold requeue
  split <;> exact Map.get_set _ _ _ _

theorem ticketed_requeue {served : List Nat} (hr : Ticketed served f.ready) (k : HandleRef)
    (d : PeerDelivery) : Ticketed served (f.requeue k d).ready := by
  unfold requeue
  split
  · exact hr.pushBack k
  · exact hr

@[simp] theorem requeue_spec (f : Family) (k : HandleRef) (d : PeerDelivery) : (f.requeue k d).spec = f.spec := by
  unfold requeue
  split <;> rfl

theorem SeatedBut.requeue (hs : f.SeatedBut k) (hnone : ∀ t, (t, k) ∉ f.ready.items)
    (hready : d.ready = none) : (f.requeue k d).Seated := by
  unfold Family.requeue
  split
  · exact hs.pushBack hnone
  refine hs.store fun t => ?_
  rw [hready]
  exact iff_of_false (hnone t) nofun

end Family

/-! ## The invariant of the whole family -/

namespace Delivery

structure Inv (x : Delivery) : Prop where
  fresh : ∀ h, x.nextHandle ≤ h → x.family.deliveries.get h = none ∧ logOf h x.returned = [] ∧
    logOf h x.pushed = [] ∧ logOf h x.resets = []
  streams : (x.pushed.map (·.2.stream)).Nodup ∧ ∀ e ∈ x.pushed, e.2.stream < x.nextStream
  seated : x.family.Seated
  tickets : Ticketed x.served x.family.ready
  handles : ∀ h d, x.family.deliveries.get h = some d → ∃ rs told,
    HandleInv x.family.spec d (logOf h x.returned) (logOf h x.pushed) (logOf h x.resets) rs told ∧
      (d.ready.isSome = true ↔ Undelivered d told)

variable (spec : FamilySpec)

theorem inv_init : Inv (init spec) where
  fresh _ _ := ⟨rfl, rfl, rfl, rfl⟩
  streams := ⟨.nil, by simp [init]⟩
  seated t h := iff_of_false (by simp [init, EmptyCollection.emptyCollection]) nofun
  tickets := ⟨.nil, by simp [init]⟩
  handles _ _ h := nomatch h

variable {x x' : Delivery}

variable {d d' : PeerDelivery} {k h : HandleRef} {code : Code}

/-- A step that concerns the one handle `k`. -/
theorem Inv.update (h : Inv x) (hspec : x'.family.spec = x.family.spec)
    (hget : ∀ h, x'.family.deliveries.get h = if h = k then some d else x.family.deliveries.get h)
    (hnext : x.nextHandle ≤ x'.nextHandle) (hk : k < x'.nextHandle)
    (hlogs : ∀ h, h ≠ k → logOf h x'.returned = logOf h x.returned ∧
      logOf h x'.pushed = logOf h x.pushed ∧ logOf h x'.resets = logOf h x.resets)
    (hstreams : (x'.pushed.map (·.2.stream)).Nodup ∧ ∀ e ∈ x'.pushed, e.2.stream < x'.nextStream)
    (hseated : x'.family.Seated) (htickets : Ticketed x'.served x'.family.ready)
    (hself : ∃ rs told, HandleInv x.family.spec d (logOf k x'.returned) (logOf k x'.pushed)
      (logOf k x'.resets) rs told ∧ (d.ready.isSome = true ↔ Undelivered d told)) : Inv x' where
  fresh j hj := by
    have hjk : j ≠ k := Nat.ne_of_gt (Nat.lt_of_lt_of_le hk hj)
    obtain ⟨hret, hpush, hres⟩ := hlogs j hjk
    rw [hget, if_neg hjk, hret, hpush, hres]
    exact h.fresh j (Nat.le_trans hnext hj)
  streams := hstreams
  seated := hseated
  tickets := htickets
  handles j e hj := by
    rw [hspec]
    rw [hget] at hj
    by_cases hjk : j = k
    · subst hjk
      rw [if_pos rfl] at hj
      cases hj
      exact hself
    rw [if_neg hjk] at hj
    obtain ⟨hret, hpush, hres⟩ := hlogs j hjk
    rw [hret, hpush, hres]
    exact h.handles j e hj

theorem Inv.lt_nextHandle (h : Inv x) (hd : x.family.deliveries.get k = some d) : k < x.nextHandle := by
  refine Nat.lt_of_not_le fun hle => ?_
  rw [(h.fresh k hle).1] at hd
  cases hd

theorem inv_addPeer (h : Inv x) (id : PeerID) : Inv (x.step (.addPeer id)) := by
  obtain ⟨hnone, hret, hpush, hres⟩ := h.fresh x.nextHandle le_rfl
  have hseat : ∀ t, (t, x.nextHandle) ∉ x.family.ready.items := by
    intro t ht
    obtain ⟨d, hd, _⟩ := (h.seated t x.nextHandle).mp ht
    rw [hnone] at hd
    cases hd
  refine h.update (k := x.nextHandle) (schedule_spec _ _ _) (get_schedule _ _ _)
    (Nat.le_succ _) (Nat.lt_succ_self _) (fun _ _ => ⟨rfl, rfl, rfl⟩) h.streams ?_ ?_ ?_
  · refine (h.seated.but _).schedule fun t => ?_
    exact iff_of_false (hseat t) nofun
  · exact ticketed_schedule h.tickets _ _
  refine ⟨[], false, ?_, iff_of_true rfl (.inl ⟨rfl, rfl⟩)⟩
  change HandleInv _ _ (logOf x.nextHandle x.returned) (logOf x.nextHandle x.pushed)
    (logOf x.nextHandle x.resets) [] false
  rw [hret, hpush, hres]
  exact .added _ id _

/-- The pushed streams have distinct numbers, also after one more push. -/
theorem Inv.streams_push (h : Inv x) (k : HandleRef) (protocol : Protocol) :
    ((x.pushed ++ [(k, { protocol := protocol, stream := x.nextStream : PendingStream })]).map
        (·.2.stream)).Nodup ∧
      ∀ e ∈ x.pushed ++ [(k, { protocol := protocol, stream := x.nextStream : PendingStream })],
        e.2.stream < x.nextStream + 1 := by
  obtain ⟨hnodup, hbound⟩ := h.streams
  constructor
  · rw [map_append, nodup_append]
    refine ⟨hnodup, nodup_singleton _, fun s hs s' hs' heq => ?_⟩
    obtain ⟨e, he, rfl⟩ := mem_map.mp hs
    have hlt := hbound e he
    have hnew : s' = x.nextStream := by simpa using hs'
    rw [heq, hnew] at hlt
    exact Nat.lt_irrefl _ hlt
  · intro e he
    rcases mem_append.mp he with he | he
    · exact Nat.lt_succ_of_lt (hbound e he)
    have hnew : e = (k, { protocol := protocol, stream := x.nextStream }) := by simpa using he
    rw [hnew]
    exact Nat.lt_succ_self _

/-- A stream that is reset at once: its handle ended or its queue is full. -/
theorem inv_push_refused (h : Inv x)
    (hd : x.family.deliveries.get k = some d) (protocol : Protocol) (code : Code) :
    Inv { x with
      nextStream := x.nextStream + 1
      pushed := x.pushed ++ [(k, { protocol := protocol, stream := x.nextStream })]
      resets := x.resets ++ [(k, (x.nextStream, code))] } := by
  obtain ⟨rs, told, hinv, hready⟩ := h.handles k d hd
  refine h.update (k := k) (d := d) rfl (fun j => ?_) le_rfl (h.lt_nextHandle hd) (fun j hj => ?_)
    (h.streams_push k protocol) h.seated h.tickets ⟨rs, told, ?_, hready⟩
  · split
    · rename_i hj
      rw [hj]
      exact hd
    · rfl
  · simp [Ne.symm hj]
  · simpa using hinv.refused { protocol := protocol, stream := x.nextStream } code

theorem inv_push_accepted (h : Inv x)
    (hd : x.family.deliveries.get k = some d) (hopen : d.down = false) {protocol : Protocol}
    (hroom : d.queued protocol < x.family.spec.maxQueued protocol) :
    Inv { x with
      family := x.family.schedule k (d.enqueue { protocol := protocol, stream := x.nextStream })
      nextStream := x.nextStream + 1
      pushed := x.pushed ++ [(k, { protocol := protocol, stream := x.nextStream })] } := by
  obtain ⟨rs, told, hinv, hready⟩ := h.handles k d hd
  refine h.update (k := k) (schedule_spec _ _ _) (get_schedule _ _ _) le_rfl
    (h.lt_nextHandle hd) (fun j hj => ?_) (h.streams_push k protocol) ?_ ?_
    ⟨rs, told, ?_, iff_of_true rfl ?_⟩
  · simp [Ne.symm hj]
  · exact (h.seated.but k).schedule fun t => h.seated.self hd t
  · exact ticketed_schedule h.tickets _ _
  · have haccept := (hinv.accepted hopen (p := ⟨protocol, x.nextStream⟩) hroom).setReady
      (some (d.ready.getD x.family.ready.next))
    rw [logOf_append, logOf_singleton, if_pos rfl]
    exact haccept
  · rcases Bool.eq_false_or_eq_true d.up with hup | hup
    · exact .inr ⟨hup, .inl (by simp [PeerDelivery.enqueue])⟩
    · exact .inl ⟨hup, hopen⟩

theorem inv_push (h : Inv x) (k : HandleRef) (protocol : Protocol) : Inv (x.step (.push k protocol)) := by
  simp only [step]
  cases hd : x.family.deliveries.get k with
  | none => exact h
  | some d =>
    simp only [push]
    cases hdown : d.down with
    | true => exact inv_push_refused h hd protocol .unsupportedSelector
    | false =>
      by_cases hfull : d.queued protocol ≥ x.family.spec.maxQueued protocol
      · simp only [hfull, if_true]
        exact inv_push_refused h hd protocol .unspecified
      · have haccept := inv_push_accepted h hd hdown (lt_of_not_ge hfull)
        simpa [hfull] using haccept

/-- A handle ends and its pending streams are reset. -/
theorem inv_ended (h : Inv x)
    (hd : x.family.deliveries.get k = some d) (hdown : d.down = false) (code resetCode : Code)
    {f : Family} {t : Option Nat} (hspec : f.spec = x.family.spec) (hget : ∀ j, f.deliveries.get j =
      if j = k then some { d.ended code with ready := t } else x.family.deliveries.get j)
    (hseated : f.Seated) (htickets : Ticketed x.served f.ready)
    (ht : t.isSome = true ↔ d.up = true) :
    Inv { x with
      family := f
      resets := x.resets ++ (d.streams.map fun p => (p.stream, resetCode)).map fun reset => (k, reset) } := by
  obtain ⟨rs, told, hinv, _⟩ := h.handles k d hd
  have htold : told = false := by
    cases ht : told with
    | false => rfl
    | true => rw [hinv.told_down ht] at hdown; cases hdown
  refine h.update (k := k) hspec hget le_rfl (h.lt_nextHandle hd) (fun j hj => ⟨rfl, rfl, ?_⟩)
    h.streams hseated htickets ⟨rs, told, ?_, ?_⟩
  · rw [logOf_append, logOf_map_pair, if_neg (Ne.symm hj), append_nil]
  · rw [logOf_append, logOf_map_pair, if_pos rfl]
    exact (hinv.ended hdown code resetCode).setReady t
  rw [ht]
  constructor
  · exact fun hup => .inr ⟨hup, .inr ⟨rfl, htold⟩⟩
  rintro (⟨_, hopen⟩ | ⟨hup, _⟩)
  · cases hopen
  · exact hup

theorem inv_closePeer (h : Inv x) (k : HandleRef) (code resetCode : Code) :
    Inv (x.step (.closePeer k code resetCode)) := by
  simp only [step]
  cases hd : x.family.deliveries.get k with
  | none => exact h
  | some d =>
    obtain ⟨rs, told, hinv, hready⟩ := h.handles k d hd
    dsimp only
    rcases Bool.eq_false_or_eq_true d.down with hdown | hdown
    · simpa [closePeer, hdown] using h
    rcases Bool.eq_false_or_eq_true d.up with hup | hup
    · rw [closePeer_of_up hdown hup]
      exact inv_ended h hd hdown code resetCode (schedule_spec _ _ _)
        (get_schedule _ _ _)
        ((h.seated.but k).schedule fun t => h.seated.self hd t)
        (ticketed_schedule h.tickets _ _) (iff_of_true rfl hup)
    -- a handle that never came up is waiting in the ring and leaves it
    obtain ⟨t, ht⟩ := Option.isSome_iff_exists.mp (hready.mpr (.inl ⟨hup, hdown⟩))
    obtain ⟨hbut, hnot⟩ := h.seated.remove ((h.seated.self hd t).mpr ht)
    rw [closePeer_of_waiting hdown hup ht]
    refine inv_ended h hd hdown code resetCode (t := none) rfl (Map.get_set _ _ _)
      (hbut.store fun t' => iff_of_false (hnot t') (by simp)) (h.tickets.remove t) ?_
    simp [hup]

/-- `Next` serves the front of the ring. -/
theorem inv_served (h : Inv x) {t : Nat} {e : Event} {f : Family} (hfront : x.family.ready.front = some (t, k))
    (hd : x.family.deliveries.get k = some d) (hspec : f.spec = x.family.spec)
    (hget : ∀ j, f.deliveries.get j = if j = k then some d' else x.family.deliveries.get j)
    (hseated : f.Seated) (htickets : Ticketed (x.served ++ [t]) f.ready)
    (hself : ∃ rs told, HandleInv x.family.spec d' (logOf k x.returned ++ [e])
      (logOf k x.pushed) (logOf k x.resets) rs told ∧ (d'.ready.isSome = true ↔ Undelivered d' told)) :
    Inv { x with
      family := f
      returned := x.returned ++ [(k, e)]
      served := x.served ++ (x.family.ready.front.map Prod.fst).toList } := by
  refine h.update (k := k) hspec hget le_rfl (h.lt_nextHandle hd) (fun j hj => ⟨?_, rfl, rfl⟩) h.streams hseated ?_ ?_
  · simp [Ne.symm hj]
  · rw [hfront]
    exact htickets
  · simpa using hself

theorem inv_next (h : Inv x) : Inv (x.step .next) := by
  simp only [step, Next]
  cases hfront : x.family.ready.front with
  | none => exact h
  | some front =>
    obtain ⟨t, k⟩ := front
    have hmem := Lib.Ring.mem_of_front hfront
    obtain ⟨d, hd, hdt⟩ := (h.seated t k).mp hmem
    obtain ⟨rs, told, hinv, hready⟩ := h.handles k d hd
    obtain ⟨hbut, hnot⟩ := h.seated.remove hmem
    have htickets := h.tickets.serve hfront
    have hwork : Undelivered d told := hready.mp (by rw [hdt]; rfl)
    simp only [hd]
    rw [← hfront]
    rcases Bool.eq_false_or_eq_true d.up with hup | hup
    · cases hstreams : d.streams with
      | cons p streams =>
        have hopen : d.down = false := by
          cases hdown : d.down with
          | false => rfl
          | true => rw [hinv.closed hdown] at hstreams; cases hstreams
        have hinv' := hinv.streamed hup hstreams
        rw [deliver_of_stream hup hstreams]
        refine inv_served h hfront hd (requeue_spec _ _ _) (get_requeue _ _ _)
          (hbut.requeue hnot rfl) (ticketed_requeue htickets _ _)
          ⟨rs ++ [p], told, hinv'.setReady _, ?_⟩
        cases streams <;> simp [Undelivered, PeerDelivery.dequeue, hup, hopen]
      | nil =>
        obtain ⟨hdown, htold⟩ : d.down = true ∧ told = false := by
          simpa [Undelivered, hup, hstreams] using hwork
        rw [deliver_of_down hup hstreams]
        refine inv_served h hfront hd rfl (Map.get_set _ _ _)
          (hbut.store fun t' => iff_of_false (hnot t') (by simp)) htickets
          ⟨rs, true, (hinv.went_down hup hdown htold).setReady none, ?_⟩
        simp [Undelivered, hup, hstreams]
    · have hopen : d.down = false := by simpa [Undelivered, hup] using hwork
      rw [deliver_of_waiting hup]
      refine inv_served h hfront hd (requeue_spec _ _ _) (get_requeue _ _ _)
        (hbut.requeue hnot rfl) (ticketed_requeue htickets _ _)
        ⟨rs, told, (hinv.came_up hup).setReady _, ?_⟩
      cases d.streams <;> simp [Undelivered, hopen]

theorem inv_step (h : Inv x) (op : DeliveryOp) : Inv (x.step op) := by
  cases op with
  | addPeer id => exact inv_addPeer h id
  | push k protocol => exact inv_push h k protocol
  | closePeer k code resetCode => exact inv_closePeer h k code resetCode
  | next => exact inv_next h

variable (ops : List DeliveryOp)

theorem inv_run : Inv (exec step (init spec) ops) :=
  exec_invariant (I := Inv) step (fun _ op h => inv_step h op) (inv_init spec) ops

theorem step_spec (x : Delivery) (op : DeliveryOp) : (x.step op).family.spec = x.family.spec := by
  cases op with
  | addPeer id => exact schedule_spec _ _ _
  | push h protocol =>
    simp only [step, push]
    split
    · rfl
    split
    · rfl
    split
    · rfl
    · exact schedule_spec _ _ _
  | closePeer h code resetCode =>
    simp only [step, closePeer]
    split
    · rfl
    split
    · rfl
    split
    · split <;> rfl
    · exact schedule_spec _ _ _
  | next =>
    simp only [step, Next]
    cases x.family.ready.front with
    | none => rfl
    | some front =>
      cases hd : x.family.deliveries.get front.2 with
      | none => simp only [hd]
      | some d =>
        simp only [hd, deliver]
        split
        · exact requeue_spec _ _ _
        split
        · exact requeue_spec _ _ _
        · rfl

theorem spec_run : (exec step (init spec) ops).family.spec = spec :=
  exec_invariant (I := fun y => y.family.spec = spec) step (fun y op hy => (step_spec y op).trans hy) rfl ops

/-! ## What one operation does to the records -/

/-- The effect of one operation on the delivery records and the returned events. -/
inductive Moved (x : Delivery) (op : DeliveryOp) (x' : Delivery) : Prop
  | kept (hget : ∀ h, x'.family.deliveries.get h = x.family.deliveries.get h) (hret : x'.returned = x.returned)
  /-- A new handle waits at the back of the ring. -/
  | added (id : PeerID) (hop : op = .addPeer id)
      (hget : ∀ h, x'.family.deliveries.get h =
        if h = x.nextHandle then some { peer := id, ready := some x.family.ready.next }
        else x.family.deliveries.get h)
      (hret : x'.returned = x.returned)
  /-- An open handle took a stream or was closed. -/
  | changed (k : HandleRef) (d d' : PeerDelivery) (hd : x.family.deliveries.get k = some d)
      (hopen : d.down = false)
      (hget : ∀ h, x'.family.deliveries.get h = if h = k then some d' else x.family.deliveries.get h)
      (hpeer : d'.peer = d.peer) (hup : d'.up = d.up)
      (hready : ∀ t, d'.ready = some t → d.ready = some t ∨ t = x.family.ready.next)
      (hclosed : d'.down = d.down ∨ ∃ code resetCode, op = .closePeer k code resetCode)
      (hret : x'.returned = x.returned)
  /-- `Next` served the handle at the front. -/
  | served (k : HandleRef) (d d' : PeerDelivery) (t : Nat) (e : Event)
      (hfront : x.family.ready.front = some (t, k)) (hd : x.family.deliveries.get k = some d)
      (hget : ∀ h, x'.family.deliveries.get h = if h = k then some d' else x.family.deliveries.get h)
      (hpeer : d'.peer = d.peer) (hdown : d'.down = d.down)
      (hup : e = .peerUp → d.up = false)
      (hready : d.up = true → d.streams = [] → d'.ready = none)
      (hret : x'.returned = x.returned ++ [(k, e)])

/-- A scheduled handle keeps its place in the ring, or takes the next one. -/
theorem queued_or_next {ready : Option Nat} {n t : Nat} (ht : some (ready.getD n) = some t) : ready = some t ∨ t = n := by
  cases ready with
  | none => exact .inr (Option.some.inj ht).symm
  | some t' => exact .inl ht

theorem moved_push (x : Delivery) (k : HandleRef) (protocol : Protocol) :
    Moved x (.push k protocol) (x.step (.push k protocol)) := by
  simp only [step]
  cases hd : x.family.deliveries.get k with
  | none => exact .kept (fun _ => rfl) rfl
  | some d =>
    simp only [push]
    split
    · exact .kept (fun _ => rfl) rfl
    rename_i hopen
    split
    · exact .kept (fun _ => rfl) rfl
    exact .changed k d _ hd (Bool.eq_false_iff.mpr hopen) (get_schedule _ _ _) rfl rfl (fun t => queued_or_next) (.inl rfl) rfl

theorem moved_closePeer (x : Delivery) (k : HandleRef) (code resetCode : Code) :
    Moved x (.closePeer k code resetCode) (x.step (.closePeer k code resetCode)) := by
  simp only [step]
  cases hd : x.family.deliveries.get k with
  | none => exact .kept (fun _ => rfl) rfl
  | some d =>
    simp only [closePeer]
    split
    · exact .kept (fun _ => rfl) rfl
    rename_i hopen
    have hopen := Bool.eq_false_iff.mpr hopen
    have hop : ∃ c c', DeliveryOp.closePeer k code resetCode = .closePeer k c c' := ⟨_, _, rfl⟩
    split
    · split
      · exact .changed k d _ hd hopen (Map.get_set _ _ _) rfl rfl (by simp) (.inr hop) rfl
      · exact .changed k d _ hd hopen (Map.get_set _ _ _) rfl rfl (fun t ht => .inl ht) (.inr hop) rfl
    exact .changed k d _ hd hopen (get_schedule _ _ _) rfl rfl (fun t => queued_or_next) (.inr hop) rfl

/-- A handle is closed after `closePeer`. -/
theorem down_closePeer {resetCode : Code}
    (hd' : (x.step (.closePeer k code resetCode)).family.deliveries.get k = some d') : d'.down = true := by
  simp only [step] at hd'
  cases hd : x.family.deliveries.get k with
  | none =>
    simp only [hd] at hd'
    cases hd'
  | some d =>
    simp only [hd, closePeer] at hd'
    split at hd'
    · rename_i hdown
      rw [show x.family.deliveries.get k = some d' from hd'] at hd
      cases hd
      exact hdown
    split at hd'
    · -- it never came up: the record is stored without a place in the ring, or had none
      have hstored : ∀ {f : Family} {e : PeerDelivery}, e.down = true →
          (f.store k e).deliveries.get k = some d' → d'.down = true := by
        intro f e hdown he
        rw [show (f.store k e).deliveries.get k = some e from
          (Map.get_set _ _ _ _).trans (if_pos rfl)] at he
        cases he
        exact hdown
      split at hd'
      · exact hstored rfl hd'
      · exact hstored rfl hd'
    · rw [get_schedule, if_pos rfl] at hd'
      cases hd'
      rfl

theorem moved_next (x : Delivery) : Moved x .next (x.step .next) := by
  simp only [step, Next]
  cases hfront : x.family.ready.front with
  | none => exact .kept (fun _ => rfl) rfl
  | some front =>
    obtain ⟨t, k⟩ := front
    cases hd : x.family.deliveries.get k with
    | none => simp only [hd]; exact .kept (fun _ => rfl) rfl
    | some d =>
      simp only [hd]
      rcases Bool.eq_false_or_eq_true d.up with hup | hup
      · cases hstreams : d.streams with
        | cons p streams =>
          rw [deliver_of_stream hup hstreams]
          refine .served k d _ t (.streamIn p) hfront hd (get_requeue _ _ _) rfl rfl (by simp) (fun _ hnil => ?_) rfl
          rw [hstreams] at hnil
          cases hnil
        | nil =>
          rw [deliver_of_down hup hstreams]
          exact .served k d _ t (.peerDown d.code) hfront hd (Map.get_set _ _ _) rfl rfl (by simp) (fun _ _ => rfl) rfl
      · rw [deliver_of_waiting hup]
        refine .served k d _ t .peerUp hfront hd (get_requeue _ _ _) rfl rfl (fun _ => hup) (fun hn => ?_) rfl
        rw [hup] at hn
        cases hn

theorem moved_step (x : Delivery) (op : DeliveryOp) : Moved x op (x.step op) := by
  cases op with
  | addPeer id => exact .added id rfl (get_schedule _ _ _) rfl
  | push k protocol => exact moved_push x k protocol
  | closePeer k code resetCode => exact moved_closePeer x k code resetCode
  | next => exact moved_next x

/-- A record after the operation is that of the new handle, or continues an earlier one: the peer is
the same and a closed handle stays closed. -/
theorem Moved.record_back {op : DeliveryOp} (hm : Moved x op x') (hd' : x'.family.deliveries.get h = some d') :
    (∃ d, x.family.deliveries.get h = some d ∧ d.peer = d'.peer ∧
        (d.down = true → d'.down = true)) ∨
      h = x.nextHandle ∧ op = .addPeer d'.peer := by
  have hother : ∀ {k : HandleRef} {e : PeerDelivery}, x'.family.deliveries.get h =
      (if h = k then some e else x.family.deliveries.get h) → h ≠ k →
      ∃ d, x.family.deliveries.get h = some d ∧ d.peer = d'.peer ∧ (d.down = true → d'.down = true) := by
    intro k e hget hne
    rw [hget, if_neg hne] at hd'
    exact ⟨d', hd', rfl, id⟩
  rcases hm with ⟨hget, _⟩ | ⟨id, hop, hget, _⟩ | ⟨k, e, e', he, hopen, hget, hpeer, _⟩ |
    ⟨k, e, e', t, ev, hfront, he, hget, hpeer, hdown, _, _, _⟩
  · rw [hget] at hd'
    exact .inl ⟨d', hd', rfl, fun h => h⟩
  · by_cases hne : h = x.nextHandle
    · rw [hget, if_pos hne] at hd'
      cases hd'
      exact .inr ⟨hne, hop⟩
    · exact .inl (hother (hget h) hne)
  · by_cases hne : h = k
    · rw [hget, if_pos hne] at hd'
      cases hd'
      refine .inl ⟨e, hne ▸ he, hpeer.symm, fun hd => ?_⟩
      rw [hopen] at hd
      cases hd
    · exact .inl (hother (hget h) hne)
  · by_cases hne : h = k
    · rw [hget, if_pos hne] at hd'
      cases hd'
      exact .inl ⟨e, hne ▸ he, hpeer.symm, fun hd => hdown.trans hd⟩
    · exact .inl (hother (hget h) hne)

/-- A record goes on: the peer is the same, and only `closePeer` closes an open handle. -/
theorem Inv.record_forth (hinv : Inv x) (hd : x.family.deliveries.get h = some d) (op : DeliveryOp) :
    ∃ d', (x.step op).family.deliveries.get h = some d' ∧ d'.peer = d.peer ∧
      (d'.down = d.down ∨ ∃ code resetCode, op = .closePeer h code resetCode) := by
  rcases moved_step x op with ⟨hget, _⟩ | ⟨id, _, hget, _⟩ |
    ⟨k, e, e', he, _, hget, hpeer, _, _, hclosed, _⟩ | ⟨k, e, e', t, ev, _, he, hget, hpeer, hdown, _⟩
  · exact ⟨d, (hget h).trans hd, rfl, .inl rfl⟩
  · refine ⟨d, ?_, rfl, .inl rfl⟩
    rw [hget, if_neg (Nat.ne_of_lt (hinv.lt_nextHandle hd)), hd]
  · by_cases hk : h = k
    · subst hk
      cases hd.symm.trans he
      exact ⟨e', (hget h).trans (if_pos rfl), hpeer, hclosed⟩
    · exact ⟨d, (hget h).trans ((if_neg hk).trans hd), rfl, .inl rfl⟩
  · by_cases hk : h = k
    · subst hk
      cases hd.symm.trans he
      exact ⟨e', (hget h).trans (if_pos rfl), hpeer, .inl hdown⟩
    · exact ⟨d, (hget h).trans ((if_neg hk).trans hd), rfl, .inl rfl⟩

/-- A handle in the ring is open, or came up and has its `PeerDown` to deliver. -/
theorem Inv.front_open_or_up (hinv : Inv x) {t : Nat}
    (hfront : x.family.ready.front = some (t, k)) (hd : x.family.deliveries.get k = some d) :
    d.ready = some t ∧ (d.down = false ∨ d.up = true) := by
  have ht := (hinv.seated.self hd t).mp (Lib.Ring.mem_of_front hfront)
  obtain ⟨rs, told, _, hready⟩ := hinv.handles k d hd
  rcases hready.mp (by rw [ht]; rfl) with ⟨_, hopen⟩ | ⟨hup, _⟩
  · exact ⟨ht, .inl hopen⟩
  · exact ⟨ht, .inr hup⟩

/-! ## A handle closed before it came up -/

/-- The handle was closed and its `PeerUp` was never returned. -/
def ClosedEarly (x : Delivery) (h : HandleRef) : Prop :=
  ∃ d, x.family.deliveries.get h = some d ∧ d.up = false ∧ d.down = true

/-- Such a handle stays as it is: it is not in the ring, and pushes to it are reset. -/
theorem closedEarly_step (hinv : Inv x) (hc : x.ClosedEarly h) (op : DeliveryOp) : (x.step op).ClosedEarly h := by
  obtain ⟨d, hd, hup, hdown⟩ := hc
  refine ⟨d, ?_, hup, hdown⟩
  rcases moved_step x op with ⟨hget, _⟩ | ⟨id, _, hget, _⟩ | ⟨k, e, e', he, hopen, hget, _⟩ |
    ⟨k, e, e', t, ev, hfront, he, hget, _, _, _, _, _⟩
  · rw [hget, hd]
  · rw [hget, if_neg (Nat.ne_of_lt (hinv.lt_nextHandle hd)), hd]
  · have hne : h ≠ k := by
      rintro rfl
      rw [hd] at he
      cases he
      rw [hdown] at hopen
      cases hopen
    rw [hget, if_neg hne, hd]
  have hne : h ≠ k := by
    rintro rfl
    rw [hd] at he
    cases he
    rcases (hinv.front_open_or_up hfront hd).2 with hopen | hcame
    · rw [hdown] at hopen
      cases hopen
    · rw [hup] at hcame
      cases hcame
  rw [hget, if_neg hne, hd]

theorem closedEarly_run (hinv : Inv x) (hc : x.ClosedEarly h)
    (ops : List DeliveryOp) : Inv (exec step x ops) ∧ (exec step x ops).ClosedEarly h :=
  exec_invariant (I := fun y => Inv y ∧ y.ClosedEarly h) step
    (fun _ op hy => ⟨inv_step hy.1 op, closedEarly_step hy.1 hy.2 op⟩) ⟨hinv, hc⟩ ops

theorem Inv.silent_of_closedEarly (hinv : Inv x) (hc : x.ClosedEarly h) : logOf h x.returned = [] := by
  obtain ⟨d, hd, hup, _⟩ := hc
  obtain ⟨rs, told, hself, _⟩ := hinv.handles h d hd
  rw [hself.history, hup]
  rfl

/-- Closing a handle that has not come up. -/
theorem closedEarly_closePeer
    (hd : x.family.deliveries.get h = some d) (hup : d.up = false) (code resetCode : Code) :
    (x.step (.closePeer h code resetCode)).ClosedEarly h := by
  simp only [step, hd]
  rcases Bool.eq_false_or_eq_true d.down with hdown | hdown
  · exact ⟨d, by simpa [closePeer, hdown] using hd, hup, hdown⟩
  cases ht : d.ready with
  | none =>
    refine ⟨d.ended code, ?_, hup, rfl⟩
    simp [closePeer, hdown, hup, ht, store]
  | some t =>
    refine ⟨{ d.ended code with ready := none }, ?_, hup, rfl⟩
    rw [closePeer_of_waiting hdown hup ht]
    exact (Map.get_set _ _ _ _).trans (if_pos rfl)

/-! ## The laws of delivery -/

/-- The streams among the events of a handle. -/
def streamsIn (events : List Event) : List PendingStream :=
  events.filterMap fun
    | .streamIn p => some p
    | _ => none

variable {rs : List PendingStream}

theorem streamsIn_eventsFor {up : Bool} {told : Bool} (hearly : up = false → rs = []) :
    streamsIn (eventsFor up rs told code) = rs := by
  cases up with
  | false => rw [hearly rfl]; rfl
  | true => cases told <;> simp [eventsFor, streamsIn, filterMap_map]

theorem peerDown_mem_eventsFor {up : Bool} {told : Bool} (hearly : up = false → told = false) :
    (∃ c, Event.peerDown c ∈ eventsFor up rs told code) ↔ told = true := by
  cases up with
  | false => simp [eventsFor, hearly rfl]
  | true => cases told <;> simp [eventsFor]

/-- The ring holds each handle at most once. -/
theorem Inv.ring_nodup (hinv : Inv x) : (x.family.ready.items.map Prod.snd).Nodup := by
  have hnodup : (x.family.ready.items.map Prod.fst).Nodup :=
    x.family.ready.sorted.imp fun hlt => Nat.ne_of_lt hlt
  refine Nodup.map_on ?_ hnodup.of_map
  rintro ⟨t, h⟩ ht ⟨t', h'⟩ ht' heq
  obtain rfl : h = h' := heq
  obtain ⟨d, hd, hdt⟩ := (hinv.seated t h).mp ht
  rw [hinv.seated.self hd, hdt] at ht'
  rw [Option.some.inj ht']

/-- **The laws of delivery**, for every family and every interleaving, for each handle `h` with
record `d`:

* its events are nothing, or `PeerUp` and some streams, or, if it was closed, these and `PeerDown`;
* streams come in push order;
* each stream ever pushed to it is returned, pending or reset, and nothing twice;
* a closed handle has no pending stream, and the counters count the pending streams of each
  protocol, at most its limit;
* it is in the ring at most once, exactly while it has an undelivered event, and elements of the
  ring are served in the order in which they entered it;
* closed before it came up, it produces no event. -/
theorem delivery_laws (h : HandleRef) (d : PeerDelivery)
    (hd : (exec step (init spec) ops).family.deliveries.get h = some d) :
    let x := exec step (init spec) ops
    let events := logOf h x.returned
    (events = [] ∨ (∃ rs : List PendingStream, events = .peerUp :: rs.map .streamIn) ∨
      d.down = true ∧ ∃ rs : List PendingStream, events = .peerUp :: (rs.map .streamIn ++ [.peerDown d.code])) ∧
    (streamsIn events).Sublist (logOf h x.pushed) ∧
    ((streamsIn events ++ d.streams).map (·.stream) ++ (logOf h x.resets).map Prod.fst).Perm
      ((logOf h x.pushed).map (·.stream)) ∧
    (x.pushed.map (·.2.stream)).Nodup ∧
    (d.down = true → d.streams = []) ∧
    (∀ p, d.queued p = (d.streams.countP (·.protocol = p) : Nat) ∧ d.queued p ≤ spec.maxQueued p) ∧
    (x.family.ready.items.map Prod.snd).Nodup ∧
    (h ∈ x.family.ready.items.map Prod.snd ↔ events = [] ∧ d.down = false ∨ d.streams ≠ [] ∨
      events ≠ [] ∧ d.down = true ∧ ∀ code, .peerDown code ∉ events) ∧
    (x.served ++ x.family.ready.items.map Prod.fst).Pairwise (· < ·) ∧
    (events = [] → ∀ code resetCode rest,
      logOf h (exec step x (.closePeer h code resetCode :: rest)).returned = []) := by
  intro x events
  have hinv : Inv x := inv_run spec ops
  have hspec : x.family.spec = spec := spec_run spec ops
  obtain ⟨rs, told, hself, hready⟩ := hinv.handles h d hd
  have hstreams : streamsIn events = rs := by
    rw [show events = _ from hself.history]
    exact streamsIn_eventsFor fun hup => (hself.early hup).1
  have hempty : events = [] ↔ d.up = false := by
    rw [show events = _ from hself.history]
    cases d.up <;> simp [eventsFor]
  have htold : (∃ code, Event.peerDown code ∈ events) ↔ told = true := by
    rw [show events = _ from hself.history]
    exact peerDown_mem_eventsFor fun hup => (hself.early hup).2
  refine ⟨?_, ?_, ?_, hinv.streams.1, hself.closed, fun p => ⟨hself.counted p, ?_⟩, hinv.ring_nodup,
    ?_, hinv.tickets.1, fun hnone code resetCode rest => ?_⟩
  · rw [show events = _ from hself.history]
    cases hup : d.up with
    | false => exact .inl rfl
    | true =>
      cases ht : told with
      | false => exact .inr (.inl ⟨rs, by simp [eventsFor]⟩)
      | true => exact .inr (.inr ⟨hself.told_down ht, rs, by simp [eventsFor]⟩)
  · rw [hstreams]
    exact (sublist_append_left _ _).trans hself.order
  · rw [hstreams]
    exact hself.custody
  · rw [← hspec]
    exact hself.bounded p
  · have hmem : h ∈ x.family.ready.items.map Prod.snd ↔ d.ready.isSome = true := by
      rw [Option.isSome_iff_exists, mem_map]
      constructor
      · rintro ⟨⟨t, k⟩, ht, rfl⟩
        exact ⟨t, (hinv.seated.self hd t).mp ht⟩
      · rintro ⟨t, ht⟩
        exact ⟨(t, h), (hinv.seated.self hd t).mpr ht, rfl⟩
    rw [hmem, hready, ← not_exists, htold, hself.undelivered_iff]
    simp [hempty]
  · have hclosed := closedEarly_closePeer (x := x) hd (hempty.mp hnone) code resetCode
    obtain ⟨hinv', hclosed'⟩ := closedEarly_run (inv_step hinv _) hclosed rest
    exact hinv'.silent_of_closedEarly hclosed'

/-- One protocol with room for one stream. -/
def oneSlot : FamilySpec := ⟨[⟨3, 1⟩], by decide, by decide, by decide⟩

/-- The second push finds the queue full, the third comes after the first stream was returned and is
pending when the handle ends. -/
def oneSlotOps : List DeliveryOp :=
  [.addPeer "p", .push 0 3, .push 0 3, .next, .next, .push 0 3,
    .closePeer 0 .closing .unsupportedSelector, .next, .next]

theorem delivery_laws_one_slot :
    logOf 0 (exec step (init oneSlot) oneSlotOps).returned = [.peerUp, .streamIn ⟨3, 0⟩, .peerDown .closing] ∧
    (exec step (init oneSlot) oneSlotOps).resets = [(0, 1, .unspecified), (0, 2, .unsupportedSelector)] ∧
    (streamsIn (logOf 0 (exec step (init oneSlot) oneSlotOps).returned)).Sublist
      (logOf 0 (exec step (init oneSlot) oneSlotOps).pushed) := by
  refine ⟨by decide +kernel, by decide +kernel, ?_⟩
  obtain ⟨d, hd⟩ := Option.isSome_iff_exists.mp
    (show ((exec step (init oneSlot) oneSlotOps).family.deliveries.get 0).isSome = true by
      decide +kernel)
  obtain ⟨_, horder, _⟩ := delivery_laws oneSlot oneSlotOps 0 d hd
  exact horder

end Delivery

end EthP2P.Stack
