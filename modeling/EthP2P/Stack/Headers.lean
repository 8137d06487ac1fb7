/-
# EthP2P.Stack.Headers — the streams of a view, from the transport's queues to the families

A supervisor reads the headers of a view's streams in goroutines of their own, at most `maxHeaderReads` of a
direction at a time.  A goroutine reports through the inbox, in any order and perhaps after its view was dropped,
replaced or left behind by a supervisor that has exited.

`Reading` ties the counters of a supervisor to the reads that are on their way.  The counter of the present view
is exact, because a view is attached once: the views still to come (`upcoming`) have no reads, and a view that is
gone does not come back.  A queue that holds streams keeps its wake token while a slot is free, up to the
moment when `readHeaders` runs.  What becomes of a stream whose header was read is `ends`: it is in order, for
each supervisor, what was read before (`streams_step`).
-/
import EthP2P.Lib.Loops
import EthP2P.Stack.Handles

namespace EthP2P.Stack

open Lib Wire Function HeaderRead Supervisor Phase DeliveryOp Map List

/-- The view that an attach is about. -/
def Request.attaches : Request → Option ViewRef
  | .attach v => some v
  | _ => none

/-- The view and the direction of a header read that has ended. -/
def Request.reads : Request → Option (ViewRef × Dir)
  | .headerRead v d _ _ => some (v, d)
  | _ => none

/-- `readHeaders` has still to look at the queue. -/
def Phase.scans : Phase → Dir → Bool
  | .adding _ _ _, _ => true
  | .reading .uni _, _ => true
  | .reading .bidi _, .bidi => true
  | _, _ => false

/-- The views that the supervisor may take. -/
def Supervisor.upcoming (u : Supervisor) : List ViewRef :=
  (u.phase.admitting.map (·.view)).toList ++ u.pending.filterMap Request.attaches

def HeaderRead.tagged (x : HeaderRead) : SupRef × ViewRef × Dir := (x.sup, x.view, x.dir)

namespace StackState

open Supervisor

/-- The header reads of a supervisor whose result it has not handled. -/
def reads (s : StackState) (r : SupRef) (u : Supervisor) : List (ViewRef × Dir) :=
  logOf r (s.headerReads.map tagged) ++ u.pending.filterMap Request.reads

/-- A supervisor and the header reads of its view. -/
structure Reading (s : StackState) (r : SupRef) (u : Supervisor) : Prop where
  nodup : u.upcoming.Nodup
  early : ∀ v ∈ u.upcoming, u.conn ≠ some v ∧ ∀ d, (v, d) ∉ s.reads r u
  home : ∀ v, v ∈ u.upcoming ∨ u.conn = some v → v < s.nextView ∧ ∃ view, s.views.get v = some view ∧ view.peer = u.id
  known : ∀ x ∈ s.reads r u, x.1 < s.nextView
  counted : ∀ v d, u.conn = some v → u.reading d = (s.reads r u).count (v, d)
  idle : u.conn = none → ∀ d, u.reading d = 0
  limit : ∀ d, u.reading d ≤ maxHeaderReads
  signalled : ∀ v view d, u.conn = some v → s.views.get v = some view → view.done = none → view.queue d ≠ [] →
    u.phase.scans d = true ∨ view.token d = true ∨ u.reading d = maxHeaderReads
  routed : ∀ sel h, u.routes.get sel = some h → h ∈ u.handles

variable {s s' : StackState} {r : SupRef} {u u' : Supervisor}

/-- The views that there are stay, with their peers. -/
def Lasts (s s' : StackState) : Prop :=
  s.nextView ≤ s'.nextView ∧ ∀ v view, v < s.nextView → s.views.get v = some view →
    ∃ view', s'.views.get v = some view' ∧ view'.peer = view.peer

theorem Lasts.home (h : Lasts s s') {v : ViewRef} {id : PeerID}
    (hv : v < s.nextView ∧ ∃ view, s.views.get v = some view ∧ view.peer = id) :
    v < s'.nextView ∧ ∃ view, s'.views.get v = some view ∧ view.peer = id := by
  obtain ⟨hlt, view, hview, hpeer⟩ := hv
  obtain ⟨view', hview', hpeer'⟩ := h.2 v view hlt hview
  exact ⟨hlt.trans_le h.1, view', hview', hpeer'.trans hpeer⟩

namespace Reading

section

variable (h : s.Reading r u)
include h

/-- The view stays, with its reads. -/
theorem keep (hviews : Lasts s s') (hid : u'.id = u.id)
    (hconn : u'.conn = u.conn) (hreading : u'.reading = u.reading) (hup : u'.upcoming.Sublist u.upcoming)
    (hmem : ∀ x ∈ s'.reads r u', x ∈ s.reads r u)
    (hcount : ∀ v d, u.conn = some v → (s'.reads r u').count (v, d) = (s.reads r u).count (v, d))
    (hsignalled : ∀ v view d, u.conn = some v → s'.views.get v = some view → view.done = none →
      view.queue d ≠ [] → u'.phase.scans d = true ∨ view.token d = true ∨ u.reading d = maxHeaderReads)
    (hrouted : ∀ sel h, u'.routes.get sel = some h → h ∈ u'.handles) : s'.Reading r u' where
  nodup := h.nodup.sublist hup
  early v hv := by
    rw [hconn]
    exact ⟨(h.early v (hup.subset hv)).1, fun d hd => (h.early v (hup.subset hv)).2 d (hmem _ hd)⟩
  home v hv := by
    rw [hconn] at hv
    rw [hid]
    exact hviews.home (h.home v (hv.imp_left fun hv => hup.subset hv))
  known x hx := (h.known x (hmem x hx)).trans_le hviews.1
  counted v d hv := by
    rw [hconn] at hv
    rw [hreading, hcount v d hv]
    exact h.counted v d hv
  idle := by
    rw [hconn, hreading]
    exact h.idle
  limit := hreading ▸ h.limit
  signalled := by
    rw [hconn, hreading]
    exact hsignalled
  routed := hrouted

/-- The view is taken out of the fields. -/
theorem gone (hnext : s'.nextView = s.nextView) (hviews : s'.views = s.views)
    (hid : u'.id = u.id) (hconn : u'.conn = none) (hreading : u'.reading = fun _ => 0) (hroutes : u'.routes = ∅)
    (hup : u'.upcoming.Sublist u.upcoming) (hmem : ∀ x ∈ s'.reads r u', x ∈ s.reads r u) : s'.Reading r u' where
  nodup := h.nodup.sublist hup
  early v hv := by
    rw [hconn]
    exact ⟨nofun, fun d hd => (h.early v (hup.subset hv)).2 d (hmem _ hd)⟩
  home v hv := by
    rw [hconn] at hv
    rw [hnext, hviews, hid]
    exact h.home v (.inl (hup.subset (hv.resolve_right nofun)))
  known x hx := by
    rw [hnext]
    exact h.known x (hmem x hx)
  counted v d hv := by
    rw [hconn] at hv
    cases hv
  idle _ d := by rw [hreading]
  limit d := by
    rw [hreading]
    show (0 : Int) ≤ maxHeaderReads
    decide
  signalled v view d hv := by
    rw [hconn] at hv
    cases hv
  routed sel k hk := by
    rw [hroutes] at hk
    cases hk

/-- The first view that was to come is taken, and has no reads yet. -/
theorem taken (hnext : s'.nextView = s.nextView) (hviews : s'.views = s.views)
    (hid : u'.id = u.id) (hnone : u.conn = none) {v : ViewRef} (hconn : u'.conn = some v)
    (hreading : u'.reading = u.reading) (hup : u.upcoming = v :: u'.upcoming) (hscans : ∀ d, u'.phase.scans d = true)
    (hroutes : u'.routes = u.routes) (hhandles : u'.handles = u.handles) (hreads : s'.reads r u' = s.reads r u) :
    s'.Reading r u' where
  nodup := (nodup_cons.mp (hup ▸ h.nodup)).2
  early w hw := by
    rw [hconn, hreads]
    refine ⟨?_, (h.early w (by simp [hup, hw])).2⟩
    rintro hv
    cases hv
    exact (nodup_cons.mp (hup ▸ h.nodup)).1 hw
  home w hw := by
    rw [hnext, hviews, hid]
    refine h.home w (.inl ?_)
    rw [hup]
    rcases hw with hw | hw
    · exact mem_cons_of_mem _ hw
    rw [hconn] at hw
    cases hw
    exact mem_cons_self
  known := by
    rw [hreads, hnext]
    exact h.known
  counted w d hw := by
    rw [hconn] at hw
    cases hw
    rw [hreading, h.idle hnone, hreads, count_eq_zero_of_not_mem ((h.early v (by simp [hup])).2 d)]
    rfl
  idle hn := by
    rw [hconn] at hn
    cases hn
  limit := hreading ▸ h.limit
  signalled _ _ d _ _ _ _ := .inl (hscans d)
  routed := by
    rw [hroutes, hhandles]
    exact h.routed

/-- A read of the present view is started or its result is handled. -/
theorem moved (hviews : Lasts s s') (hid : u'.id = u.id)
    {v : ViewRef} (hv : u.conn = some v) (hconn : u'.conn = u.conn) {d : Dir} {n : Int}
    (hreading : u'.reading = update u.reading d (u.reading d + n)) (hn : u.reading d + n ≤ maxHeaderReads)
    (hup : u'.upcoming = u.upcoming) (hmem : ∀ x ∈ s'.reads r u', x ∈ s.reads r u ∨ x = (v, d))
    (hcount : ((s'.reads r u').count (v, d) : Int) = (s.reads r u).count (v, d) + n)
    (hother : ∀ d', d' ≠ d → (s'.reads r u').count (v, d') = (s.reads r u).count (v, d'))
    (hsignalled : ∀ view d', s'.views.get v = some view → view.done = none →
      view.queue d' ≠ [] → u'.phase.scans d' = true ∨ view.token d' = true ∨ u'.reading d' = maxHeaderReads)
    (hroutes : u'.routes = u.routes) (hhandles : u'.handles = u.handles) : s'.Reading r u' where
  nodup := hup ▸ h.nodup
  early w hw := by
    rw [hup] at hw
    rw [hconn]
    refine ⟨(h.early w hw).1, fun d' hd' => ?_⟩
    rcases hmem _ hd' with hold | heq
    · exact (h.early w hw).2 d' hold
    · cases heq
      exact (h.early v hw).1 hv
  home w hw := by
    rw [hconn, hup] at hw
    rw [hid]
    exact hviews.home (h.home w hw)
  known x hx := by
    refine lt_of_lt_of_le ?_ hviews.1
    rcases hmem x hx with hold | rfl
    · exact h.known x hold
    · exact (h.home v (.inr hv)).1
  counted w d' hw := by
    rw [hconn, hv] at hw
    cases hw
    rw [hreading]
    by_cases hd : d' = d
    · subst hd
      rw [update_self, h.counted v d' hv, hcount]
    · rw [update_of_ne hd, hother d' hd]
      exact h.counted v d' hv
  idle hnone := by
    rw [hconn, hv] at hnone
    cases hnone
  limit d' := by
    rw [hreading]
    by_cases hd : d' = d
    · subst hd
      rwa [update_self]
    · rw [update_of_ne hd]
      exact h.limit d'
  signalled w view d' hw := by
    rw [hconn, hv] at hw
    cases hw
    exact hsignalled view d'
  routed := by
    rw [hroutes, hhandles]
    exact h.routed

end

end Reading

/-! ## The supervisor's acts -/

section Act

variable {reqs : List Request} {o : Out}

theorem Act.lasts (hact : Act s r u reqs u' o) : Lasts s (s.turned r u' o) := by
  have hset {ref : ViewRef} {view view' : View} (hview : s.views.get ref = some view) (hpeer : view'.peer = view.peer) :
      ∀ v w, v < s.nextView → s.views.get v = some w →
        ∃ w', (s.views.set ref view').get v = some w' ∧ w'.peer = w.peer := by
    intro v w _ hw
    rw [get_set]
    split
    · rename_i hv
      rw [hv, hview] at hw
      cases hw
      exact ⟨view', rfl, hpeer⟩
    · exact ⟨w, hw, rfl⟩
  refine ⟨le_rfl, ?_⟩
  cases hact with
  | read _ _ hview | token _ _ hview => exact hset hview rfl
  | _ => exact fun _ view _ hview => ⟨view, hview, rfl⟩

theorem Act.queue (hact : Act s r u reqs u' o) (hdrained : u.phase = .woken → u.reqs = []) :
    u.pending = reqs ++ u'.pending := by
  cases hleft : o.left with
  | none => exact (hact.turn hleft).queue hdrained
  | some id =>
    cases hact with
    | exit => rfl
    | _ => cases hleft

section

variable (hqueue : u.pending = reqs ++ u'.pending)
include hqueue

variable (s r o) in
theorem count_reads_turned (x : ViewRef × Dir) :
    ((s.turned r u' o).reads r u').count x + (reqs.filterMap Request.reads).count x =
      (s.reads r u).count x + (logOf r (o.headerReads.map tagged)).count x := by
  simp only [reads, turned, hqueue, map_append, logOf_append, filterMap_append, count_append]
  omega

variable (s r o) in
theorem mem_reads_turned (x : ViewRef × Dir) (hx : x ∈ (s.turned r u' o).reads r u') :
    x ∈ s.reads r u ∨ x ∈ logOf r (o.headerReads.map tagged) := by
  have hcount := count_reads_turned s r o hqueue x
  rw [← count_pos_iff] at hx
  rw [← count_pos_iff, ← count_pos_iff]
  omega

theorem reads_turned (hreads : reqs.filterMap Request.reads = [])
    (hnone : o.headerReads = []) : (s.turned r u' o).reads r u' = s.reads r u := by
  simp [reads, turned, hqueue, filterMap_append, hreads, hnone]

theorem upcoming_eq : u.upcoming = (u.phase.admitting.map (·.view)).toList ++
    (reqs.filterMap Request.attaches ++ u'.pending.filterMap Request.attaches) := by
  rw [upcoming, hqueue, filterMap_append]

theorem upcoming_sublist (hadm : u'.phase.admitting = u.phase.admitting ∨ u'.phase.admitting = none) :
    u'.upcoming.Sublist u.upcoming := by
  rw [upcoming_eq hqueue]
  refine Sublist.append ?_ (sublist_append_right _ _)
  rcases hadm with hadm | hadm
  · rw [hadm]
  · rw [hadm]
    exact nil_sublist _

section

variable (h : s.Reading r u) (hlasts : Lasts s (s.turned r u' o))
include h hlasts

/-- An act that neither takes nor drops a view, and does nothing about its reads. -/
theorem Reading.steady (hread : ∀ v d, (v, d) ∈ reqs.filterMap Request.reads → u.conn ≠ some v)
    (hhead : o.headerReads = []) (hview : o.view = none ∨ ∀ d, u'.phase.scans d = true) (hid : u'.id = u.id)
    (hconn : u'.conn = u.conn) (hreading : u'.reading = u.reading)
    (hadm : u'.phase.admitting = u.phase.admitting ∨ u'.phase.admitting = none)
    (hrouted : ∀ sel h, u'.routes.get sel = some h → h ∈ u'.handles)
    (hscan : ∀ d, u.phase.scans d = false ∨ u'.phase.scans d = true ∨ Stops s u d) :
    (s.turned r u' o).Reading r u' := by
  have hcount := count_reads_turned s r o hqueue
  have hmem := mem_reads_turned s r o hqueue
  rw [hhead] at hcount hmem
  refine h.keep hlasts hid hconn hreading (upcoming_sublist hqueue hadm)
    (fun x hx => (hmem x hx).resolve_right (by simp)) (fun v d hv => ?_) (fun v view d hv hget hdone hne => ?_) hrouted
  · have hzero : (reqs.filterMap Request.reads).count (v, d) = 0 :=
      count_eq_zero_of_not_mem fun hx => hread v d hx hv
    have := hcount (v, d)
    simp only [map_nil, logOf_nil, count_nil] at this
    omega
  rcases hview with hview | hview
  · replace hget : s.views.get v = some view := by simpa [turned, hview] using hget
    rcases hscan d with hno | hyes | hstops
    · refine .inr ((h.signalled v view d hv hget hdone hne).resolve_left ?_)
      rw [hno]
      simp
    · exact .inl hyes
    obtain hnil | hfull | hsome := hstops v view hv hget
    · exact absurd hnil hne
    · exact .inr (.inr (le_antisymm (h.limit d) hfull))
    · simp [hdone] at hsome
  · exact .inl (hview d)

/-- The result of a read of the present view is handled. -/
theorem Reading.handled {v : ViewRef} {d : Dir} {stream : StreamRef} {sel : Option Selector} {rest : List Request}
    (hreqs : reqs = [.headerRead v d stream sel]) (hphase : u.phase = .draining) (hconn : u.conn = some v)
    (hhead : o.headerReads = []) (hu' : u' = { u with
      reqs := rest
      reading := update u.reading d (u.reading d - 1)
      phase := .reading .uni none }) : (s.turned r u' o).Reading r u' := by
  have hcount := count_reads_turned s r o hqueue
  have hmem := mem_reads_turned s r o hqueue
  rw [hhead] at hcount hmem
  simp only [hreqs, map_nil, logOf_nil, count_nil, Request.reads, filterMap_cons, filterMap_nil,
    count_singleton] at hcount
  have hup := upcoming_eq hqueue
  subst hu' hreqs
  refine h.moved hlasts rfl hconn rfl (n := -1) rfl ?_ ?_ (fun x hx => .inl ((hmem x hx).resolve_right (by simp))) ?_
    (fun d' hd' => ?_) (fun _ _ _ _ _ => .inl rfl) rfl rfl
  · have := h.limit d
    omega
  · rw [hup, hphase]
    rfl
  · have := hcount (v, d)
    simp only [beq_self_eq_true, if_true] at this
    omega
  · have := hcount (v, d')
    rw [if_neg (by simp [Ne.symm hd'])] at this
    omega

end

end

/-- A read of the present view is started. -/
theorem Reading.started (h : s.Reading r u) {d : Dir} {attached : Option ViewRef} {ref : ViewRef} {view : View}
    {stream : StreamRef} {rest : List StreamRef} (hphase : u.phase = .reading d attached) (hconn : u.conn = some ref)
    (hview : s.views.get ref = some view) (hfree : u.reading d < maxHeaderReads) (hlive : view.done = none)
    (hu' : u' = { u with reading := update u.reading d (u.reading d + 1) }) (ho : o = {
      view := some (ref, { view with
        queue := update view.queue d rest
        token := update view.token d (view.token d || !rest.isEmpty) })
      headerReads := [⟨r, ref, d, stream⟩] }) (hqueue : u.pending = [] ++ u'.pending)
    (hlasts : Lasts s (s.turned r u' o)) : (s.turned r u' o).Reading r u' := by
  have hcount := count_reads_turned s r o hqueue
  have hmem := mem_reads_turned s r o hqueue
  have hlog : logOf r (o.headerReads.map tagged) = [(ref, d)] := by simp [ho, tagged]
  simp only [hlog, filterMap_nil, count_nil, count_singleton] at hcount hmem
  subst hu' ho
  refine h.moved hlasts rfl hconn rfl (n := 1) rfl (by omega) rfl (fun x hx => (hmem x hx).imp_right mem_singleton.mp)
    ?_ (fun d' hd' => ?_) (fun view' d' hview' hdone hne => ?_) rfl rfl
  · have := hcount (ref, d)
    simp only [beq_self_eq_true, if_true] at this
    omega
  · have := hcount (ref, d')
    rw [if_neg (by simp [Ne.symm hd'])] at this
    omega
  by_cases hd : d' = d
  · rw [hphase, hd]
    cases d <;> exact .inl rfl
  replace hview' := (get_set _ _ _ _).symm.trans hview'
  rw [if_pos rfl] at hview'
  cases hview'
  simp only [update_of_ne hd] at hne ⊢
  exact h.signalled ref view d' hconn hview hlive hne

/-- The routes lead to the handles they are made of. -/
theorem mem_of_routesOf {registry : Registry} {hs : List Handle} {sel : Selector} {h : Handle}
    (hroute : (routesOf registry hs).get sel = some h) : h ∈ hs := by
  have hnone : (∅ : Map Selector Handle).get sel = some h → h ∈ ([] : List Handle) := nofun
  refine foldl_seen (I := fun ks (m : Map Selector Handle) => m.get sel = some h → h ∈ ks) (fun ks m k hm => ?_) hs
    hnone hroute
  have hone : ∀ (m : Map Selector Handle) (p : ProtocolSpec),
      (m.set ⟨k.family, p.protocol⟩ k).get sel = some h → h = k ∨ m.get sel = some h := by
    intro m p hset
    rw [get_set] at hset
    split at hset
    · exact .inl (Option.some.inj hset).symm
    · exact .inr hset
  intro hall
  have hround := foldl_rel (r := fun m m' : Map Selector Handle => m'.get sel = some h → h = k ∨ m.get sel = some h)
    (fun _ => .inr) (fun h₁ h₂ h₃ => (h₂ h₃).elim .inl h₁) hone (registry.spec k.family).protocols m hall
  rcases hround with rfl | hold
  · exact mem_append_right _ (mem_singleton.mpr rfl)
  · exact mem_append_left _ (hm hold)

theorem Reading.act (h : s.Reading r u) (hdrained : u.phase = .woken → u.reqs = []) (hshape : u.Shape)
    (hact : Act s r u reqs u' o) : (s.turned r u' o).Reading r u' := by
  have hqueue := hact.queue hdrained
  have hlasts := hact.lasts
  have hmem := mem_reads_turned s r o hqueue
  have hgo := h.steady hqueue hlasts
  cases hact with
  | wake hphase | fetch hphase | rest hphase | exit hphase | endHandle hphase | ended hphase | pass hphase
  | found hphase =>
    exact hgo (by simp) rfl (.inl rfl) rfl rfl rfl (by simp [hphase, admitting]) h.routed
      fun d => by simp [hphase, scans]
  | stale hphase _ hstale =>
    refine hgo ?_ rfl (.inl rfl) rfl rfl rfl (by simp [admitting]) h.routed fun d => by simp [hphase, scans]
    cases hstale with
    | header hconn => simp [Request.reads, hconn]
    | _ => simp [Request.reads]
  | refuse hphase | check hphase =>
    exact hgo (by simp [Request.reads]) rfl (.inl rfl) rfl rfl rfl (by simp [admitting]) h.routed
      fun d => by simp [hphase, scans]
  | noView hreqs _ hconn =>
    refine hgo (by simp [hconn]) rfl (.inl rfl) rfl rfl rfl (by simp [admitting]) h.routed fun d => ?_
    obtain ⟨hphase, _⟩ | ⟨hphase, _⟩ := hreqs
    · simp [hphase, scans]
    · simp [hphase, scans]
  | addHandle =>
    exact hgo (by simp) rfl (.inl rfl) rfl rfl rfl (by simp [admitting]) h.routed fun d => by simp [scans]
  | store =>
    exact hgo (by simp) rfl (.inl rfl) rfl rfl rfl (by simp [admitting]) (fun _ _ => mem_of_routesOf)
      fun d => by simp [scans]
  | turnAround hphase hstops =>
    refine hgo (by simp) rfl (.inl rfl) rfl rfl rfl (by simp [admitting]) h.routed fun d => ?_
    cases d with
    | uni => exact .inr (.inr hstops)
    | bidi => exact .inr (.inl rfl)
  | endReads hphase hstops =>
    refine hgo (by simp) rfl (.inl rfl) rfl rfl rfl (by simp [admitting]) h.routed fun d => ?_
    cases d with
    | uni => exact .inl (by rw [hphase]; rfl)
    | bidi => exact .inr (.inr hstops)
  | token hphase =>
    exact hgo (by simp) rfl (.inr fun _ => rfl) rfl rfl rfl (by simp [admitting]) h.routed
      fun d => by simp [hphase, scans]
  | enter hphase hreqs henters hconn =>
    obtain rfl := henters.view
    refine h.taken rfl rfl rfl hconn rfl rfl ?_ (fun _ => rfl) rfl rfl (reads_turned hqueue rfl rfl)
    rw [upcoming_eq hqueue, hphase]
    rfl
  | displace hphase hreqs henters hconn =>
    obtain rfl := henters.view
    refine h.gone rfl rfl rfl rfl rfl rfl ?_ fun x hx => (hmem x hx).resolve_right (by simp)
    rw [upcoming_eq hqueue, hphase]
    exact Sublist.refl _
  | drop code goAway hphase =>
    exact h.gone rfl rfl rfl rfl rfl rfl (upcoming_sublist hqueue (.inr rfl))
      fun x hx => (hmem x hx).resolve_right (by simp)
  | header hphase _ hconn | push hphase _ hconn => exact h.handled hqueue hlasts rfl hphase hconn rfl rfl
  | replaced hphase hsome =>
    refine h.taken rfl rfl rfl (hshape.dropping _ _ hphase) rfl rfl ?_ (fun _ => rfl) rfl rfl
      (reads_turned hqueue rfl rfl)
    simp [upcoming, hphase, admitting, hsome, install, pending]
  | read hphase hconn hview _ hfree hlive => exact h.started hphase hconn hview hfree hlive rfl rfl hqueue hlasts

/-- An act changes the present view only. -/
theorem Act.views_get (hact : Act s r u reqs u' o) {v : ViewRef} (hv : u.conn ≠ some v) :
    (s.turned r u' o).views.get v = s.views.get v := by
  cases hact with
  | read _ hconn | token _ hconn =>
    refine (get_set _ _ _ _).trans (if_neg ?_)
    rintro rfl
    exact hv hconn
  | _ => rfl

theorem Act.logOf_reads (hact : Act s r u reqs u' o) {r' : SupRef} (hr : r' ≠ r) :
    logOf r' ((s.turned r u' o).headerReads.map tagged) = logOf r' (s.headerReads.map tagged) := by
  cases hact with
  | read => simp [turned, tagged, Ne.symm hr]
  | _ => simp [turned]

/-- The other supervisors have other views. -/
theorem Reading.other {r' : SupRef} {w : Supervisor} (h : s.Reading r' w) (hinv : Inv s) (hu : s.sups.get r = some u)
    (hw : s.sups.get r' = some w) (hru : s.Reading r u) (hr : r' ≠ r) (hact : Act s r u reqs u' o) :
    (s.turned r u' o).Reading r' w := by
  have hlive {r : SupRef} {u : Supervisor} {v : ViewRef} (hu : s.sups.get r = some u) (hv : u.conn = some v) :
      s.peers.get u.id = some r :=
    hinv.live r u hu fun hexit => by simp [(hinv.shape r u hu).exited hexit] at hv
  have hreads : (s.turned r u' o).reads r' w = s.reads r' w := by
    unfold reads
    rw [hact.logOf_reads hr]
  refine h.keep hact.lasts rfl rfl rfl (Sublist.refl _) (hreads ▸ fun _ hx => hx) (hreads ▸ fun _ _ _ => rfl)
    (fun v view d hv hview => ?_) h.routed
  have hne : u.conn ≠ some v := by
    intro hv'
    obtain ⟨_, view₁, hview₁, hpeer₁⟩ := h.home v (.inr hv)
    obtain ⟨_, view₂, hview₂, hpeer₂⟩ := hru.home v (.inr hv')
    cases hview₁.symm.trans hview₂
    have hid := hlive hw hv
    rw [← hpeer₁, hpeer₂, hlive hu hv'] at hid
    exact hr (Option.some.inj hid).symm
  rw [hact.views_get hne] at hview
  exact h.signalled v view d hv hview

end Act

/-! ## The invariant of the stack -/

structure Tended (s : StackState) : Prop where
  each : ∀ r u, s.sups.get r = some u → s.Reading r u
  absent : ∀ r, s.sups.get r = none → logOf r (s.headerReads.map tagged) = []

theorem tended_acts (h : Tended s) (hinv : Inv s) (hreq : RequestInv s) {reqs : List Request}
    (hu : s.sups.get r = some u) (hacts : Acts s r u reqs s') : Tended s' := by
  obtain ⟨rfl, _⟩ | ⟨u', o, hact, rfl⟩ := hacts
  · exact h
  have hsups : ∀ r', (s.turned r u' o).sups.get r' = if r' = r then some u' else s.sups.get r' := get_set _ _ _
  refine ⟨fun r' w hw => ?_, fun r' hnone => ?_⟩
  · rw [hsups] at hw
    split at hw
    · rename_i hr
      cases hw
      rw [hr]
      exact (h.each r u hu).act (fun hphase => (hreq r u hu).drained (.inr (.inl hphase))) (hinv.shape r u hu) hact
    · rename_i hr
      exact (h.each r' w hw).other hinv hu hw (h.each r u hu) hr hact
  · rw [hsups] at hnone
    split at hnone
    · cases hnone
    rename_i hr
    rw [hact.logOf_reads hr]
    exact h.absent r' hnone

/-- The views stay; a queue that gets a stream gets its token. -/
def Feeds (s s' : StackState) : Prop :=
  Lasts s s' ∧ ∀ v view d, v < s.nextView → s'.views.get v = some view → view.done = none → view.queue d ≠ [] →
    view.token d = true ∨ ∃ old, s.views.get v = some old ∧ old.done = none ∧ old.queue d ≠ [] ∧
      view.token d = old.token d

theorem Feeds.of_eq (hnext : s'.nextView = s.nextView) (hviews : s'.views = s.views) : Feeds s s' := by
  refine ⟨⟨hnext.ge, fun v view _ hview => ⟨view, hviews ▸ hview, rfl⟩⟩, fun v view d _ hview hdone hne => .inr ?_⟩
  exact ⟨view, hviews ▸ hview, hdone, hne, rfl⟩

/-- What the other parties do to a supervisor. -/
structure Aside (s s' : StackState) (r : SupRef) (u u' : Supervisor) : Prop where
  same : (u'.id, u'.conn, u'.reading, u'.phase, u'.routes, u'.handles) =
    (u.id, u.conn, u.reading, u.phase, u.routes, u.handles)
  upcoming : u'.upcoming = u.upcoming
  mem : ∀ x ∈ s'.reads r u', x ∈ s.reads r u
  count : ∀ v d, u.conn = some v → (s'.reads r u').count (v, d) = (s.reads r u).count (v, d)

theorem Reading.aside (h : s.Reading r u) (hfeeds : Feeds s s') (haside : Aside s s' r u u') : s'.Reading r u' := by
  have hsame := haside.same
  simp only [Prod.mk.injEq] at hsame
  obtain ⟨hid, hconn, hreading, hphase, hroutes, hhandles⟩ := hsame
  refine h.keep hfeeds.1 hid hconn hreading (haside.upcoming ▸ Sublist.refl _) haside.mem haside.count
    (fun v view d hv hview hdone hne => ?_) (by rw [hroutes, hhandles]; exact h.routed)
  rw [hphase]
  obtain htoken | ⟨old, hold, hdone', hne', htoken⟩ := hfeeds.2 v view d (h.home v (.inr hv)).1 hview hdone hne
  · exact .inr (.inl htoken)
  · rw [htoken]
    exact h.signalled v old d hv hold hdone' hne'

theorem Aside.of_perm (hsame : (u'.id, u'.conn, u'.reading, u'.phase, u'.routes, u'.handles) =
    (u.id, u.conn, u.reading, u.phase, u.routes, u.handles)) (hup : u'.upcoming = u.upcoming)
    (hreads : (s'.reads r u').Perm (s.reads r u)) : Aside s s' r u u' :=
  ⟨hsame, hup, fun _ hx => hreads.mem_iff.mp hx, fun _ _ _ => hreads.count_eq _⟩

theorem Aside.refl (hheads : logOf r (s'.headerReads.map tagged) =
    logOf r (s.headerReads.map tagged)) (u : Supervisor) : Aside s s' r u u := by
  refine .of_perm rfl rfl ?_
  unfold reads
  rw [hheads]

/-- A request that is neither an attach nor the report of a read. -/
theorem Aside.append {req : Request} (hheads : s'.headerReads = s.headerReads) (hattach : req.attaches = none)
    (hread : req.reads = none) : Aside s s' r u { u with inbox := u.inbox ++ [req] } := by
  refine .of_perm rfl (by simp [Supervisor.upcoming, pending, hattach]) ?_
  simp [reads, hheads, pending, hread]

/-- A step of another party: no supervisor is started. -/
theorem Tended.aside (h : Tended s) (hfeeds : Feeds s s')
    (hsups : ∀ r u', s'.sups.get r = some u' → ∃ u, s.sups.get r = some u ∧ Aside s s' r u u')
    (hnone : ∀ r, s'.sups.get r = none → s.sups.get r = none)
    (hheads : ∀ r, logOf r (s.headerReads.map tagged) = [] → logOf r (s'.headerReads.map tagged) = []) : Tended s' := by
  refine ⟨fun r u' hu' => ?_, fun r hr => hheads r (h.absent r (hnone r hr))⟩
  obtain ⟨u, hu, haside⟩ := hsups r u' hu'
  exact (h.each r u hu).aside hfeeds haside

theorem Tended.congr (h : Tended s) (hfeeds : Feeds s s') (hsups : s'.sups = s.sups)
    (hheads : s'.headerReads = s.headerReads) : Tended s' :=
  h.aside hfeeds (fun r u' hu' => ⟨u', hsups ▸ hu', .refl (by rw [hheads]) u'⟩) (fun r hr => hsups ▸ hr)
    (fun r hr => hheads ▸ hr)

/-- One supervisor is touched. -/
theorem Tended.setSup (h : Tended s) (hfeeds : Feeds s s') (hu : s.sups.get r = some u)
    (hsups : s'.sups = s.sups.set r u') (hheads : s'.headerReads = s.headerReads)
    (haside : Aside s s' r u u') : Tended s' := by
  refine h.aside hfeeds (fun r' w hw => ?_) (fun r' hr' => ?_) (fun _ hr => hheads ▸ hr)
  · rw [hsups, get_set] at hw
    split at hw
    · rename_i hr
      cases hw
      exact ⟨u, hr ▸ hu, hr ▸ haside⟩
    · exact ⟨w, hw, .refl (by rw [hheads]) w⟩
  · rw [hsups, get_set] at hr'
    split at hr'
    · cases hr'
    · exact hr'

theorem Tended.post (h : Tended s) {req : Request} (hattach : req.attaches = none) (hread : req.reads = none)
    (r : SupRef) : Tended (s.post r req id) := by
  unfold StackState.post
  split
  · exact h
  rename_i u hu
  split
  · exact h.setSup (.of_eq rfl rfl) hu rfl rfl (.append rfl hattach hread)
  · exact h

/-! ### A view asks to be attached -/

theorem feeds_attach {v : View} (hnext : s'.nextView = s.nextView + 1)
    (hviews : s'.views = s.views.set s.nextView v) : Feeds s s' := by
  have hget : ∀ w, w < s.nextView → s'.views.get w = s.views.get w := by
    intro w hw
    rw [hviews, get_set, if_neg (Nat.ne_of_lt hw)]
  refine ⟨⟨(Nat.le_succ _).trans hnext.ge, fun w view hw hview => ⟨view, (hget w hw).trans hview, rfl⟩⟩,
    fun w view d hw hview hdone hne => .inr ⟨view, (hget w hw).symm.trans hview, hdone, hne, rfl⟩⟩

theorem Reading.attach (h : s.Reading r u) {v : View} (hpeer : v.peer = u.id) (hnext : s'.nextView = s.nextView + 1)
    (hviews : s'.views = s.views.set s.nextView v) (hheads : s'.headerReads = s.headerReads) :
    s'.Reading r { u with inbox := u.inbox ++ [.attach s.nextView] } := by
  have hkept : s'.Reading r u := h.aside (feeds_attach hnext hviews) (.refl (by rw [hheads]) u)
  have hup : ({ u with inbox := u.inbox ++ [.attach s.nextView] } : Supervisor).upcoming =
      u.upcoming ++ [s.nextView] := by
    simp [upcoming, pending, Request.attaches]
  have hreads : s'.reads r { u with inbox := u.inbox ++ [.attach s.nextView] } = s'.reads r u := by
    simp [reads, pending, Request.reads]
  have hnew : s.nextView ∉ u.upcoming := fun hmem => Nat.lt_irrefl _ (h.home _ (.inl hmem)).1
  refine ⟨?_, fun w hw => ?_, fun w hw => ?_, hreads ▸ hkept.known, fun w d hw => ?_, hkept.idle, hkept.limit,
    hkept.signalled, hkept.routed⟩
  · rw [hup, nodup_append]
    refine ⟨h.nodup, nodup_singleton _, ?_⟩
    rintro w hw _ hw' rfl
    exact hnew (mem_singleton.mp hw' ▸ hw)
  · rw [hup, mem_append, mem_singleton] at hw
    rw [hreads]
    rcases hw with hw | rfl
    · exact hkept.early w hw
    refine ⟨fun hconn => Nat.lt_irrefl _ (h.home _ (.inr hconn)).1, fun d hd => ?_⟩
    have hold : (s.nextView, d) ∈ s.reads r u := (Aside.refl (by rw [hheads]) u).mem _ hd
    exact Nat.lt_irrefl _ (h.known _ hold)
  · rw [hup, mem_append, mem_singleton] at hw
    rcases hw with (hw | rfl) | hw
    · exact hkept.home w (.inl hw)
    · refine ⟨(Nat.lt_succ_self _).trans_le hnext.ge, v, ?_, hpeer⟩
      rw [hviews, get_set, if_pos rfl]
    · exact hkept.home w (.inr hw)
  · rw [hreads]
    exact hkept.counted w d hw

/-- A supervisor that is started has nothing to read yet. -/
theorem reading_new {id : PeerID} (hnone : logOf r (s.headerReads.map tagged) = []) : s.Reading r { id := id } := by
  have hreads : s.reads r { id := id } = [] := by
    unfold reads
    rw [hnone]
    rfl
  refine ⟨nodup_nil, nofun, fun v hv => ?_, hreads ▸ nofun, nofun, fun _ _ => rfl, fun d => ?_, nofun, nofun⟩
  · rcases hv with hv | hv
    · cases hv
    · cases hv
  · show (0 : Int) ≤ maxHeaderReads
    decide

theorem tended_attach (h : Tended s) (hinv : Inv s) (v : View) : Tended (s.attach v) := by
  have hfeeds {s' : StackState} (hnext : s'.nextView = s.nextView + 1)
      (hviews : s'.views = s.views.set s.nextView v) : Feeds s s' := feeds_attach hnext hviews
  unfold attach
  dsimp only
  split
  · exact h.congr (hfeeds rfl rfl) rfl rfl
  -- one supervisor is told, the others go on
  have htold {s' : StackState} {r : SupRef} {u : Supervisor} (hu : s.Reading r u) (hpeer : v.peer = u.id)
      (hnext : s'.nextView = s.nextView + 1) (hviews : s'.views = s.views.set s.nextView v)
      (hsups : s'.sups = s.sups.set r { u with inbox := u.inbox ++ [.attach s.nextView] })
      (hheads : s'.headerReads = s.headerReads) : Tended s' := by
    refine ⟨fun r' w hw => ?_, fun r' hr' => ?_⟩
    · rw [hsups, get_set] at hw
      split at hw
      · rename_i hr
        cases hw
        rw [hr]
        exact hu.attach hpeer hnext hviews hheads
      · exact (h.each r' w hw).aside (hfeeds hnext hviews) (.refl (by rw [hheads]) w)
    · rw [hsups, get_set] at hr'
      split at hr'
      · cases hr'
      · rw [hheads]
        exact h.absent r' hr'
  split
  · rename_i r hr
    split
    · rename_i u hu
      obtain ⟨u', hu', hid, _⟩ := hinv.table _ r hr
      cases hu.symm.trans hu'
      exact htold (h.each r u hu) hid.symm rfl rfl rfl rfl
    · exact h.congr (hfeeds rfl rfl) rfl rfl
  · exact htold (reading_new (h.absent _ (hinv.fresh _ le_rfl))) rfl rfl rfl rfl rfl

/-! ### A header read ends -/

theorem tended_headerDone (h : Tended s) (hinv : Inv s) {i : Nat} {x : HeaderRead}
    (hx : s.headerReads[i]? = some x) (sel : Option Selector) (resets : List Reset) :
    Tended ({ s with headerReads := s.headerReads.eraseIdx i }.post x.sup
      (.headerRead x.view x.dir x.stream sel) fun s => { s with resets := s.resets ++ resets }) := by
  obtain ⟨pre, post, hsplit, herase⟩ : ∃ pre post, s.headerReads = pre ++ x :: post ∧
      s.headerReads.eraseIdx i = pre ++ post := by
    obtain ⟨hi, hget⟩ := List.getElem?_eq_some_iff.mp hx
    refine ⟨s.headerReads.take i, s.headerReads.drop (i + 1), ?_, eraseIdx_eq_take_drop_succ _ _⟩
    rw [← hget, ← drop_eq_getElem_cons hi, take_append_drop]
  have hold : ∀ r', logOf r' (s.headerReads.map tagged) =
      logOf r' (pre.map tagged) ++ ((if x.sup = r' then [(x.view, x.dir)] else []) ++ logOf r' (post.map tagged)) := by
    intro r'
    rw [hsplit, map_append, logOf_append, map_cons, ← singleton_append, logOf_append, tagged, logOf_singleton]
  have hnew : ∀ r', logOf r' ((s.headerReads.eraseIdx i).map tagged) =
      logOf r' (pre.map tagged) ++ logOf r' (post.map tagged) := by
    intro r'
    rw [herase, map_append, logOf_append]
  have hother : ∀ r', r' ≠ x.sup → logOf r' ((s.headerReads.eraseIdx i).map tagged) =
      logOf r' (s.headerReads.map tagged) := by
    intro r' hr
    rw [hold, hnew, if_neg (Ne.symm hr), nil_append]
  have hheads : ∀ r', logOf r' (s.headerReads.map tagged) = [] →
      logOf r' ((s.headerReads.eraseIdx i).map tagged) = [] := by
    intro r' hnil
    rw [hold] at hnil
    rw [hnew]
    simp_all
  unfold StackState.post
  dsimp only
  split
  · rename_i hnone
    have habsent := h.absent x.sup hnone
    rw [hold, if_pos rfl] at habsent
    simp at habsent
  rename_i u hu
  split
  · refine h.aside (.of_eq rfl rfl) (fun r' w hw => ?_) (fun r' hr' => ?_) hheads
    · replace hw := (get_set _ _ _ _).symm.trans hw
      split at hw
      · rename_i hr
        cases hw
        subst hr
        -- the read passes from the goroutine to the inbox
        refine ⟨u, hu, .of_perm rfl ?_ ?_⟩
        · simp [upcoming, pending, Request.attaches]
        show (logOf x.sup ((s.headerReads.eraseIdx i).map tagged) ++
          (u.reqs ++ (u.inbox ++ [Request.headerRead x.view x.dir x.stream sel])).filterMap Request.reads).Perm _
        simp only [reads, hnew, hold, pending, if_true, filterMap_append, filterMap_cons,
          filterMap_nil, Request.reads, ← append_assoc]
        refine (perm_append_singleton _ _).trans ?_
        simp only [append_assoc, singleton_append]
        exact perm_middle.symm
      · rename_i hr
        exact ⟨w, hw, .refl (hother r' hr) w⟩
    · replace hr' := (get_set _ _ _ _).symm.trans hr'
      split at hr'
      · cases hr'
      · exact hr'
  · rename_i hleft
    refine h.aside (.of_eq rfl rfl) (fun r' w hw => ⟨w, hw, ?_⟩) (fun _ hr' => hr') hheads
    by_cases hr : r' = x.sup
    · subst hr
      cases hu.symm.trans hw
      refine ⟨rfl, rfl, fun y hy => ?_, fun v d hv => ?_⟩
      · simp only [reads, hnew, hold, mem_append] at hy ⊢
        tauto
      · -- a supervisor that has left the table has no view
        exact absurd (hinv.live _ u hu fun hexit => by simp [(hinv.shape _ u hu).exited hexit] at hv) hleft
    · exact .refl (hother r' hr) w

variable {f : View → View} {ref : ViewRef}

theorem sups_withView : (s.withView ref f).sups = s.sups := by
  unfold withView
  split <;> rfl

theorem headerReads_withView : (s.withView ref f).headerReads = s.headerReads := by
  unfold withView
  split <;> rfl

/-- One view changes. -/
theorem feeds_withView {next : StreamRef} (hpeer : ∀ v, (f v).peer = v.peer)
    (hfed : ∀ v d, (f v).done = none → (f v).queue d ≠ [] → (f v).token d = true ∨
      v.done = none ∧ v.queue d ≠ [] ∧ (f v).token d = v.token d) :
    Feeds s ({ s with nextStream := next }.withView ref f) := by
  unfold withView
  split
  · exact .of_eq rfl rfl
  rename_i v hv
  replace hv : s.views.get ref = some v := hv
  have hget : ∀ w, (s.views.set ref (f v)).get w = if w = ref then some (f v) else s.views.get w :=
    get_set _ _ _
  refine ⟨⟨le_rfl, fun w view _ hview => ?_⟩, fun w view d _ hview hdone hne => ?_⟩
  · refine ⟨if w = ref then f v else view, (hget w).trans ?_, ?_⟩
    · split
      · rfl
      · exact hview
    split
    · rename_i hw
      rw [hw, hv] at hview
      rw [← Option.some.inj hview]
      exact hpeer v
    · rfl
  · replace hview := (hget w).symm.trans hview
    split at hview
    · rename_i hw
      cases hview
      refine (hfed v d hdone hne).imp_right fun hold => ⟨v, hw ▸ hv, hold⟩
    · exact .inr ⟨view, hview, hdone, hne, rfl⟩

theorem tended_step (h : Tended s) (hinv : Inv s) (hreq : RequestInv s) (op : StackOp) : Tended (s.step op) := by
  cases op with
  | attach v => exact tended_attach h hinv v
  | disconnect id =>
    obtain ⟨dials, _, ⟨heq, _⟩ | ⟨r, u, hr, hu, heq⟩⟩ := s.disconnect_cases id
    · simp only [step, heq]
      exact h.congr (.of_eq rfl rfl) rfl rfl
    · simp only [step, heq]
      exact h.setSup (.of_eq rfl rfl) hu rfl rfl (.append rfl rfl rfl)
  | close =>
    simp only [step, close]
    split
    · exact h
    refine h.aside (.of_eq rfl rfl) (fun r w hw => ?_) (fun r hr => ?_) (fun _ hr => hr)
    · replace hw := (get_mapVals _ _ _).symm.trans hw
      obtain ⟨u, hu, rfl⟩ := Option.map_eq_some_iff.mp hw
      refine ⟨u, hu, ?_⟩
      split
      · exact .append rfl rfl rfl
      · exact .of_perm rfl rfl (Perm.refl _)
    · replace hr := (get_mapVals _ _ _).symm.trans hr
      exact Option.map_eq_none_iff.mp hr
  | dial id d | next c => exact h.congr (.of_eq rfl rfl) rfl rfl
  | signal r =>
    simp only [step, withSup]
    split
    · split
      · exact h.congr (.of_eq rfl rfl) rfl rfl
      · rename_i u hu
        exact h.setSup (.of_eq rfl rfl) hu rfl rfl (.of_perm rfl rfl (Perm.refl _))
    · exact h
  | select r case => exact step_select h r case (tended_acts h hinv hreq)
  | work r =>
    simp only [step, withSup]
    split
    · exact h
    rename_i u hu
    obtain ⟨_, hacts⟩ := acts_work s r u
    exact tended_acts h hinv hreq hu hacts
  | closeHandle k code =>
    simp only [step, closeHandle]
    split <;> exact h.congr (.of_eq rfl rfl) rfl rfl
  | postClosed r =>
    have h' : Tended { s with closings := s.closings.erase r } := h.congr (.of_eq rfl rfl) rfl rfl
    simp only [step]
    split
    · exact h'.post rfl rfl r
    · exact h
  | arrive ref d =>
    refine h.congr (feeds_withView (fun v => ?_) fun v d' hdone hne => ?_) sups_withView headerReads_withView
    · split <;> rfl
    split at hdone
    · simp_all
    by_cases hd : d' = d
    · subst hd
      simp_all
    · simp_all
  | connDone ref code =>
    exact h.congr (feeds_withView (fun _ => rfl) fun v d' hdone => by simp at hdone) sups_withView headerReads_withView
  | headerDone i sel =>
    simp only [step]
    split
    · exact h
    · rename_i x hx
      exact tended_headerDone h hinv hx sel _
  | goAwayDone i result =>
    have h' : Tended { s with goAwayReads := s.goAwayReads.eraseIdx i } := h.congr (.of_eq rfl rfl) rfl rfl
    simp only [step]
    split
    · exact h
    split
    · exact h'
    · exact h'.post rfl rfl _

/-! ## What becomes of a stream -/

end StackState

/-- The stream of a header that was read without error. -/
def Request.stream : Request → Option StreamRef
  | .headerRead _ _ x (some _) => some x
  | _ => none

/-- Where `headerRead` sends such a stream: to a handle, or nowhere, and it is cancelled. -/
def Supervisor.sends (u : Supervisor) : Request → Option (StreamRef × Option (Handle × Protocol))
  | .headerRead v _ x (some sel) =>
    some (x, if u.conn = some v ∧ sel.family ≠ controlFamily then (u.routes.get sel).map (·, sel.protocol) else none)
  | _ => none

theorem Supervisor.sends_fst (u : Supervisor) (req : Request) : (u.sends req).map Prod.fst = req.stream := by
  cases req with
  | headerRead v d x sel => cases sel <;> rfl
  | _ => rfl

namespace StackState

variable {s : StackState} {r : SupRef} {u u' : Supervisor}

/-- The streams whose header is read without error in a step, with the supervisor that has asked for it. -/
def headersRead (s : StackState) : StackOp → List (SupRef × StreamRef)
  | .headerDone i (some _) => (s.headerReads[i]?).toList.map fun x => (x.sup, x.stream)
  | _ => []

/-- What becomes of such streams in a step: the handle and the protocol, or `none` for a stream that is cancelled. -/
def ends (s : StackState) : StackOp → List (SupRef × StreamRef × Option (Handle × Protocol))
  | .headerDone i (some _) =>
    ((s.headerReads[i]?).toList.filter fun x => !s.serves x.sup).map fun x => (x.sup, x.stream, none)
  | .work r =>
    match s.sups.get r with
    | none => []
    | some u => ((s.runs (.work r)).filterMap fun x => u.sends x.2).map fun e => (r, e)
  | _ => []

/-- The stream of an end that is not at a family. -/
def cancelled (e : SupRef × StreamRef × Option (Handle × Protocol)) : Option StreamRef :=
  if e.2.2 = none then some e.2.1 else none

/-- The handle and the protocol of an end at a family. -/
def handed (c : FamilyCode) (e : SupRef × StreamRef × Option (Handle × Protocol)) : Option (HandleRef × Protocol) :=
  e.2.2.bind fun x => if x.1.family = c then some (x.1.ref, x.2) else none

/-- A supervisor that is not in the table has no requests. -/
theorem pendingFor_left (hinv : Inv s) (hreq : RequestInv s) (hr : s.serves r = false) : s.pendingFor r = [] := by
  unfold pendingFor
  cases hu : s.sups.get r with
  | none => rfl
  | some u =>
    have hexit : u.phase = .exited := by
      by_contra hne
      simp [serves, hu, hinv.live r u hu hne] at hr
    simp [pending, (hreq r u hu).drained (.inr (.inr hexit)), (hreq r u hu).left hexit]

/-- Only the end of a header read posts a stream. -/
theorem posts_stream {op : StackOp} (hop : ∀ i sel, op ≠ .headerDone i sel) :
    (logOf r (s.posts op)).filterMap Request.stream = [] := by
  have hnone : ∀ y ∈ s.posts op, y.2.stream = none := by
    intro y hy
    cases op with
    | headerDone i sel => exact absurd rfl (hop i sel)
    | attach v | postClosed r =>
      simp only [posts] at hy
      split at hy <;> simp_all [Request.stream]
    | disconnect id =>
      obtain ⟨r', _, rfl⟩ := mem_map.mp hy
      rfl
    | close =>
      simp only [posts] at hy
      split at hy
      · cases hy
      · obtain ⟨e, _, rfl⟩ := mem_map.mp hy
        rfl
    | goAwayDone i result =>
      simp only [posts] at hy
      split at hy
      · split at hy <;> simp_all [Request.stream]
      · cases hy
    | _ => cases hy
  exact filterMap_eq_nil_iff.mpr fun req hreq => hnone _ (mem_logOf.mp hreq)

/-- **One step of the streams** of a supervisor. -/
theorem streams_step (hinv : Inv s) (hreq : RequestInv s) (op : StackOp) (r : SupRef) :
    (s.pendingFor r).filterMap Request.stream ++ logOf r (s.headersRead op) =
      (logOf r (s.ends op)).map Prod.fst ++ ((s.step op).pendingFor r).filterMap Request.stream := by
  have hqueue := congrArg (filterMap Request.stream) (pending_step hinv hreq op r)
  rw [filterMap_append, filterMap_append] at hqueue
  cases op with
  | headerDone i sel =>
    cases hx : s.headerReads[i]? with
    | none =>
      cases sel <;> simpa [posts, headersRead, ends, runs, hx] using hqueue
    | some x =>
      cases sel with
      | none =>
        by_cases hserves : s.serves x.sup = true <;> rcases eq_or_ne x.sup r with rfl | hr <;>
          simpa [posts, headersRead, ends, runs, hx, hserves, Request.stream, filterMap_cons, *] using hqueue
      | some sel =>
        by_cases hserves : s.serves x.sup = true
        · rcases eq_or_ne x.sup r with rfl | hr <;>
            simpa [posts, headersRead, ends, runs, hx, hserves, Request.stream, filterMap_cons, *] using hqueue
        rcases eq_or_ne x.sup r with rfl | hr
        · -- the supervisor has left: nothing waits that would be overtaken
          have hleft := pendingFor_left hinv hreq (Bool.eq_false_iff.mpr hserves)
          simp only [posts, runs, hx, if_neg hserves, logOf_nil, hleft, filterMap_nil, nil_append] at hqueue
          rw [hleft, ← hqueue]
          simp [headersRead, ends, hx, hserves]
        · simpa [posts, headersRead, ends, runs, hx, hserves, hr] using hqueue
  | work r' =>
    have hends : (logOf r (s.ends (.work r'))).map Prod.fst =
        (logOf r (s.runs (.work r'))).filterMap Request.stream := by
      cases hu : s.sups.get r' with
      | none => simp [ends, runs, hu]
      | some u =>
        obtain ⟨reqs, hacts⟩ := acts_work s r' u
        simp only [ends, hu, runs_acts hu hacts, logOf_map_pair, filterMap_map]
        split
        · rw [map_filterMap]
          exact filterMap_congr fun req _ => u.sends_fst req
        · rfl
    rw [hends, ← hqueue]
    simp [headersRead, posts]
  | _ =>
    rw [posts_stream (by simp), append_nil] at hqueue
    simpa [headersRead, ends, runs] using hqueue

end StackState

/-- The handle and the protocol of a push. -/
def DeliveryOp.pushes : DeliveryOp → Option (HandleRef × Protocol)
  | .push h protocol => some (h, protocol)
  | _ => none

/-- What was pushed to a family. -/
def Delivery.pushedTo (x : Delivery) : List (HandleRef × Protocol) := x.pushed.map fun p => (p.1, p.2.protocol)

theorem Delivery.pushedTo_step (x : Delivery) (op : DeliveryOp)
    (hknown : ∀ k p, op = .push k p → ∃ d, x.family.deliveries.get k = some d) :
    (x.step op).pushedTo = x.pushedTo ++ op.pushes.toList := by
  cases op with
  | push k p =>
    obtain ⟨d, hd⟩ := hknown k p rfl
    simp [Delivery.step, hd, pushedTo, pushes]
  | addPeer id => simp [Delivery.step, pushedTo, pushes]
  | closePeer k code resetCode | next =>
    simp only [Delivery.step, pushedTo, pushes]
    split <;> simp

namespace StackState

variable {s : StackState} {r : SupRef} {u u' : Supervisor}

theorem pushedTo_onFamily {c : FamilyCode} {op : DeliveryOp}
    (hknown : ∀ k p, op = .push k p → ∃ d, (s.family c).family.deliveries.get k = some d) (c' : FamilyCode) :
    ((s.onFamily c op).family c').pushedTo = (s.family c').pushedTo ++ if c = c' then op.pushes.toList else [] := by
  rw [family_onFamily]
  by_cases hc : c' = c
  · subst hc
    rw [if_pos rfl, if_pos rfl]
    exact Delivery.pushedTo_step _ _ hknown
  · rw [if_neg hc, if_neg (Ne.symm hc), append_nil]

variable {reqs : List Request} {s' : StackState}

/-- A stream that an act sends somewhere is pushed there, and the others are reset. -/
theorem Act.sends_eq {o : Out} (hact : Act s r u reqs u' o) :
    (reqs.filterMap u.sends = o.resets.map (fun x => (x.1, none)) ∧
      ∀ c op, o.family = some (c, op) → op.pushes = none) ∨
    ∃ x sel h, reqs.filterMap u.sends = [(x, some (h, sel.protocol))] ∧ o.resets = [] ∧
      o.family = some (h.family, .push h.ref sel.protocol) ∧ u.routes.get sel = some h := by
  cases hact with
  | @push v d x sel h _ _ _ hconn hsel hroute =>
    exact .inr ⟨x, sel, h, by simp [sends, hconn, hsel, hroute], rfl, rfl, hroute⟩
  | stale _ _ hstale =>
    refine .inl ⟨?_, by simp⟩
    cases hstale with
    | @header v d x sel hconn => cases sel <;> simp [sends, hconn]
    | _ => simp [sends]
  | header _ _ hconn hresets =>
    refine .inl ⟨?_, by simp⟩
    obtain ⟨rfl, rfl⟩ | ⟨sel, rfl, hroute, rfl⟩ := hresets
    · simp [sends]
    · simp [sends, hroute]
  | drop _ _ _ _ _ _ _ hresets =>
    refine .inl ⟨?_, by simp⟩
    obtain ⟨rfl, hno⟩ | ⟨d, x, sel, hsel, rfl, rfl⟩ := hresets
    · refine filterMap_eq_nil_iff.mpr fun req hreq => ?_
      cases req with
      | headerRead v d x sel => exact absurd hreq (hno v d x sel)
      | _ => rfl
    · simp [sends, hsel]
  | noView hreqs =>
    refine .inl ⟨?_, by simp⟩
    obtain ⟨_, code, goAway, rfl⟩ | ⟨_, rfl, _⟩ := hreqs <;> rfl
  | endHandle | addHandle => exact .inl ⟨rfl, by rintro _ _ ⟨⟩; rfl⟩
  | _ => exact .inl ⟨rfl, by simp⟩

theorem ends_work (hu : s.sups.get r = some u) (hacts : Acts s r u reqs s') :
    s.ends (.work r) = (reqs.filterMap u.sends).map fun e => (r, e) := by
  simp only [ends, hu, runs_acts hu hacts, filterMap_map]
  rfl

/-- The history of the resets and of the pushes goes on with what the step ends. -/
structure Ends (s s' : StackState) (es : List (SupRef × StreamRef × Option (Handle × Protocol))) : Prop where
  resets : s'.resets.map Prod.fst = s.resets.map Prod.fst ++ es.filterMap cancelled
  pushed : ∀ c, (s'.family c).pushedTo = (s.family c).pushedTo ++ es.filterMap (handed c)

theorem Ends.of_eq (hresets : s'.resets = s.resets) (hfamily : s'.family = s.family) : Ends s s' [] :=
  ⟨by simp [hresets], by simp [hfamily]⟩

theorem ends_acts (h : s.Reading r u) (hatt : s.Attended r u)
    (hacts : Acts s r u reqs s') : Ends s s' ((reqs.filterMap u.sends).map fun e => (r, e)) := by
  obtain ⟨rfl, rfl, _⟩ | ⟨u', o, hact, rfl⟩ := hacts
  · exact .of_eq rfl rfl
  have hturned : (s.turned r u' o).family = o.family.elim s.family fun f => (s.onFamily f.1 f.2).family := rfl
  obtain ⟨hsends, hpushes⟩ | ⟨x, sel, k, hsends, hresets, hfam, hroute⟩ := hact.sends_eq
  · rw [hsends]
    refine ⟨?_, fun c => ?_⟩
    · simp [turned, filterMap_map, comp_def, cancelled]
    rw [hturned]
    have hnone : (((o.resets.map fun x => (x.1, none)).map fun e => (r, e)).filterMap (handed c)) = [] := by
      simp [filterMap_map, comp_def, handed]
    rw [hnone, append_nil]
    cases hf : o.family with
    | none => rfl
    | some f =>
      have hnot := hpushes f.1 f.2 hf
      refine (pushedTo_onFamily (fun k p hop => ?_) c).trans ?_
      · rw [hop] at hnot
        cases hnot
      · simp [hnot]
  · rw [hsends]
    refine ⟨?_, fun c => ?_⟩
    · simp [turned, hresets, cancelled]
    rw [hturned, hfam]
    refine (pushedTo_onFamily (fun k' p hop => ?_) c).trans ?_
    · cases hop
      obtain ⟨_, d, hd, _⟩ := hatt.known k (mem_append_left _ (h.routed sel k hroute))
      exact ⟨d, hd⟩
    · by_cases hc : k.family = c <;> simp [handed, hc, pushes]

theorem ends_step (h : Tended s) (hm : Minded s) (op : StackOp) : Ends s (s.step op) (s.ends op) := by
  cases op with
  | select r case => exact step_select (P := (Ends s · {})) (.of_eq rfl rfl) r case fun hu => ends_acts (h.each r _ hu) (hm r _ hu)
  | work r =>
    simp only [step, withSup]
    split
    · rename_i hnone
      simpa only [ends, hnone] using Ends.of_eq rfl rfl
    rename_i u hu
    obtain ⟨reqs, hacts⟩ := acts_work s r u
    rw [ends_work hu hacts]
    exact ends_acts (h.each r u hu) (hm r u hu) hacts
  | next c =>
    refine ⟨by simp [ends, step, onFamily], fun c' => ?_⟩
    refine (pushedTo_onFamily (by simp) c').trans ?_
    simp [ends, pushes]
  | closeHandle k code =>
    have hfam : (s.step (.closeHandle k code)).family =
        (s.onFamily k.family (.closePeer k.ref code .unsupportedSelector)).family := by
      simp only [step, closeHandle]
      split <;> rfl
    refine ⟨?_, fun c' => ?_⟩
    · simp only [step, closeHandle]
      split <;> simp [ends, onFamily]
    rw [hfam]
    refine (pushedTo_onFamily (by simp) c').trans ?_
    simp [ends, pushes]
  | headerDone i sel =>
    cases hx : s.headerReads[i]? with
    | none => cases sel <;> simpa [step, ends, hx] using Ends.of_eq rfl rfl
    | some x =>
      cases hu : s.sups.get x.sup with
      | none =>
        have hmem : (x.view, x.dir) ∈ logOf x.sup (s.headerReads.map tagged) :=
          mem_logOf.mpr (mem_map.mpr ⟨x, mem_of_getElem? hx, rfl⟩)
        rw [h.absent x.sup hu] at hmem
        cases hmem
      | some u =>
        by_cases hlive : s.peers.get u.id = some x.sup
        · constructor <;> cases sel <;> simp [step, ends, hx, post, hu, hlive, serves, append, setSup]
        · constructor <;> cases sel <;> simp [step, ends, hx, post, hu, hlive, serves, cancelled, handed]
  | disconnect id =>
    obtain ⟨dials, _, ⟨heq, _⟩ | ⟨r, u, hr, hu, heq⟩⟩ := s.disconnect_cases id
    · simp only [step, heq]
      exact .of_eq rfl rfl
    · simp only [step, heq]
      exact .of_eq rfl rfl
  | _ =>
    simp only [step, attach, close, withSup, withView, post]
    repeat' split
    all_goals exact .of_eq rfl rfl

/-! ## Every run -/

/-- All that is needed of a state. -/
structure HeaderInv (s : StackState) : Prop where
  inv : Inv s
  requests : RequestInv s
  minded : Minded s
  tended : Tended s

theorem headerInv_init (self : PeerID) (registry : Registry) : HeaderInv (init self registry) :=
  ⟨inv_init self registry, requestInv_init self registry, nofun, nofun, fun _ _ => rfl⟩

theorem HeaderInv.step (h : HeaderInv s) (op : StackOp) : HeaderInv (s.step op) :=
  ⟨inv_step h.inv op, requestInv_step h.inv h.requests op, minded_step h.minded h.inv h.requests op,
    tended_step h.tended h.inv h.requests op⟩

/-- **The streams of a view**, in every interleaving of arrivals, header reads, admissions, replacements and drops.

* The counter of the present view and a direction is the number of its header reads whose result has not been
  handled, and is at most `maxHeaderReads`.
* Whenever a supervisor is neither taking a view nor within `readHeaders`, and its view is not released, a queue
  that holds streams has its wake token pending, or all slots of its direction are taken.
* For every supervisor, the streams whose header was read without error are in order those that have ended and
  those whose report still waits in its queue.  An end is either one push to the handle that the selector's route
  leads to, and there are no other pushes to the families, or one reset, and there are no other resets. -/
theorem streams_reach_one_end (self : PeerID) (registry : Registry) (ops : List StackOp) :
    let s := exec step (init self registry) ops
    (∀ r u v d, s.sups.get r = some u → u.conn = some v →
      u.reading d = (s.reads r u).count (v, d) ∧ u.reading d ≤ maxHeaderReads) ∧
    (∀ r u v view d, s.sups.get r = some u → u.conn = some v → s.views.get v = some view → view.done = none →
      (∀ a cs hs, u.phase ≠ .adding a cs hs) → (∀ d' attached, u.phase ≠ .reading d' attached) →
      view.queue d ≠ [] → view.token d = true ∨ u.reading d = maxHeaderReads) ∧
    (∀ r, trace step (fun s op => logOf r (s.headersRead op)) (init self registry) ops =
      trace step (fun s op => (logOf r (s.ends op)).map Prod.fst) (init self registry) ops ++
        (s.pendingFor r).filterMap Request.stream) ∧
    s.resets.map Prod.fst = trace step (fun s op => (s.ends op).filterMap cancelled) (init self registry) ops ∧
    ∀ c, (s.family c).pushedTo =
      trace step (fun s op => (s.ends op).filterMap (handed c)) (init self registry) ops := by
  intro s
  have hkeep : ∀ s op, HeaderInv s → HeaderInv (s.step op) := fun _ op h => h.step op
  have hinit := headerInv_init self registry
  have h : HeaderInv s := exec_invariant step hkeep hinit ops
  refine ⟨fun r u v d hu hv => ?_, fun r u v view d hu hv hview hdone hadding hreading hne => ?_, fun r => ?_, ?_,
    fun c => ?_⟩
  · exact ⟨(h.tended.each r u hu).counted v d hv, (h.tended.each r u hu).limit d⟩
  · refine ((h.tended.each r u hu).signalled v view d hv hview hdone hne).resolve_left fun hscans => ?_
    cases hphase : u.phase with
    | adding a cs hs => exact hadding a cs hs hphase
    | reading d' attached => exact hreading d' attached hphase
    | _ => simp [hphase, scans] at hscans
  · have hfifo := trace_fifo (fun s => (s.pendingFor r).filterMap Request.stream) hkeep
      (fun s op h => streams_step h.inv h.requests op r) hinit ops
    exact hfifo
  · exact trace_log (fun s => s.resets.map Prod.fst) hkeep (fun s op h => (ends_step h.tended h.minded op).resets)
      hinit ops
  · exact trace_log (fun s => (s.family c).pushedTo) hkeep
      (fun s op h => (ends_step h.tended h.minded op).pushed c) hinit ops

/-- Five streams arrive.  The first token starts four reads and leaves another token, which is taken while there is
no free slot. -/
def fiveStreams : List StackOp :=
  handled ++ replicate 5 (.arrive 0 .uni) ++ [.select 0 (.streams .uni)] ++ replicate 7 (.work 0) ++
    [.select 0 (.streams .uni)] ++ replicate 3 (.work 0)

theorem streams_reach_one_end_five : ∃ u, (exec step (init "p" oneFamily) fiveStreams).sups.get 0 = some u ∧
    u.reading .uni = maxHeaderReads ∧ ((exec step (init "p" oneFamily) fiveStreams).reads 0 u).count (0, .uni) = 4 := by
  have hsup : ((exec step (init "p" oneFamily) fiveStreams).sups.get 0).map (fun u => (u.conn, u.phase)) =
      some (some 0, .select) := rfl
  have hview : ((exec step (init "p" oneFamily) fiveStreams).views.get 0).map
      (fun v => (v.done, v.token .uni, v.queue .uni)) = some (none, false, [4]) := rfl
  obtain ⟨u, hu, heq⟩ := Option.map_eq_some_iff.mp hsup
  obtain ⟨view, hget, heq'⟩ := Option.map_eq_some_iff.mp hview
  simp only [Prod.mk.injEq] at heq heq'
  obtain ⟨hcount, hsignal, _⟩ := streams_reach_one_end "p" oneFamily fiveStreams
  have hfull : u.reading .uni = maxHeaderReads := by
    refine (hsignal 0 u 0 view .uni hu heq.1 hget heq'.1 (by simp [heq.2]) (by simp [heq.2]) ?_).resolve_left ?_
    · simp [heq'.2.2]
    · simp [heq'.2.1]
  refine ⟨u, hu, hfull, ?_⟩
  have hreads := (hcount 0 u 0 .uni hu heq.1).1
  rw [hfull] at hreads
  exact Int.ofNat_inj.mp (hreads.symm.trans rfl)

end StackState

end EthP2P.Stack
