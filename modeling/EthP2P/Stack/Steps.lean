/-
# EthP2P.Stack.Steps — what a supervisor can do in one step

`run` is a loop over a select, an inbox and the loops of `dropView`, `attach`, `readHeaders` and `handleClosed`.
`Act` lists what one step of it can do: the request that begins to run, the supervisor after the step, and what
the step leaves behind for the other parties (`Out`).  Every step is one of these (`act_work`, `act_select`), so
an invariant of the stack is checked act by act and no later proof looks into `work`.
-/
import EthP2P.Stack.Supervisor

namespace EthP2P.Stack

open Lib Wire Function Supervisor

/-- What a supervisor's step leaves behind, beside its own fields. -/
structure Out where
  /-- The table loses the entry of this peer. -/
  left : Option PeerID := none
  family : Option (FamilyCode × DeliveryOp) := none
  handle : Option Handle := none
  view : Option (ViewRef × View) := none
  admitted : Nat := 0
  headerReads : List HeaderRead := []
  goAwayReads : List (SupRef × ViewRef) := []
  released : List Release := []
  finished : List DoneRef := []
  results : List (ViewRef × Option AttachError) := []
  resets : List Reset := []

/-- A request that is neither an attach nor a drop. -/
def Request.Other : Request → Prop
  | .attach _ | .dropView _ _ _ => False
  | _ => True

namespace Supervisor

theorem updateRecord_eq (u : Supervisor) (rec : Option Record) :
    ∃ record, u.updateRecord rec = { u with record := record } := by
  unfold updateRecord
  split
  · exact ⟨u.record, rfl⟩
  rename_i rec
  split
  · exact ⟨some rec, rfl⟩
  split
  · exact ⟨some rec, rfl⟩
  · exact ⟨u.record, rfl⟩

/-- `dropView` has taken the view out of the fields; its loop ends the handles next. -/
def dropped (u : Supervisor) (drop : Drop) : Supervisor :=
  { u with
    conn := none, routes := ∅, handles := [], reading := fun _ => 0, phase := .dropping u.handles drop }

end Supervisor

namespace StackState

/-- The supervisor at `r` has become `u`, with what the step leaves behind. -/
def turned (s : StackState) (r : SupRef) (u : Supervisor) (o : Out) : StackState :=
  { s with
    sups := s.sups.set r u
    peers := o.left.elim s.peers s.peers.del
    family := o.family.elim s.family fun f => update s.family f.1 ((s.family f.1).step f.2)
    owner := o.handle.elim s.owner fun h => s.owner.set h r
    views := o.view.elim s.views fun v => s.views.set v.1 v.2
    nextID := s.nextID + o.admitted
    headerReads := s.headerReads ++ o.headerReads
    goAwayReads := s.goAwayReads ++ o.goAwayReads
    released := s.released ++ o.released
    finished := s.finished ++ o.finished
    results := s.results ++ o.results
    resets := s.resets ++ o.resets }

/-- Why `dropView` is called, other than for a view that takes the place. -/
inductive DropCause (s : StackState) (u : Supervisor) (reqs : List Request) : Prop
  | request {code : Code} {goAway : Bool} {done : Option DoneRef} (h : reqs = [.dropView code goAway done])
  | goAway {v : ViewRef} {code : Code} {goAway : Bool} (h : reqs = [.goAwayRead v code goAway])
      (hconn : u.conn = some v)
  | header {v : ViewRef} {d : Dir} {stream : StreamRef} {sel : Selector}
      (h : reqs = [.headerRead v d stream (some sel)]) (hsel : sel.family = controlFamily)
  | handles (h : u.phase = .checking [])
  | done {v : ViewRef} {view : View} (hconn : u.conn = some v) (hview : s.views.get v = some view)
      (hdone : view.done.isSome = true)

/-- The admission of the view `ref` that passes the checks. -/
structure Enters (s : StackState) (u : Supervisor) (ref : ViewRef) (v : View) (a : Admission) : Prop where
  found : s.views.get ref = some v
  passes : s.rejection u v = none
  view : a.view = ref
  families : a.families = s.sharedFamilies v
  outbound : a.info.outbound = v.outbound

/-- `readHeaders` stops in direction `d`. -/
def Stops (s : StackState) (u : Supervisor) (d : Dir) : Prop :=
  ∀ ref view, u.conn = some ref → s.views.get ref = some view →
    view.queue d = [] ∨ maxHeaderReads ≤ u.reading d ∨ view.done.isSome = true

/-- A request that comes too late: its view is not the present one, or there is none. -/
inductive Stale (s : StackState) (u : Supervisor) : Request → List Reset → Prop
  | attach {ref : ViewRef} (h : s.views.get ref = none) : Stale s u (.attach ref) []
  | goAway {v : ViewRef} {code : Code} {goAway : Bool} (h : u.conn ≠ some v) : Stale s u (.goAwayRead v code goAway) []
  | header {v : ViewRef} {d : Dir} {stream : StreamRef} {sel : Option Selector} (h : u.conn ≠ some v) :
      Stale s u (.headerRead v d stream sel) (if sel.isSome then [(stream, .closing)] else [])
  | closed (h : u.conn = none) : Stale s u .handleClosed []

/-- **One step of `run`**: the request that begins to run in it, the supervisor after it, and what is left
behind. -/
inductive Act (s : StackState) (r : SupRef) (u : Supervisor) : List Request → Supervisor → Out → Prop
  | wake (hphase : u.phase = .select) : Act s r u [] { u with wake := false, phase := .woken } {}
  | fetch (hphase : u.phase = .woken) : Act s r u [] { u with reqs := u.inbox, inbox := [], phase := .draining } {}
  | rest (hphase : u.phase = .draining) (hreqs : u.reqs = []) : Act s r u [] { u with phase := .select } {}
  | exit (hphase : u.phase = .draining) (hreqs : u.reqs = []) (hinbox : u.inbox = []) (hconn : u.conn = none) :
      Act s r u [] { u with phase := .exited } { left := some u.id }
  | stale {req : Request} {reqs : List Request} {resets : List Reset} (hphase : u.phase = .draining)
      (hreqs : u.reqs = req :: reqs) (hstale : Stale s u req resets) :
      Act s r u [req] { u with reqs := reqs, phase := .draining } { resets := resets }
  | refuse {ref : ViewRef} {v : View} {code : Code} {result : Option AttachError} {reqs : List Request}
      (hphase : u.phase = .draining) (hreqs : u.reqs = .attach ref :: reqs) (hview : s.views.get ref = some v)
      (hrejected : s.rejection u v = some (code, result)) :
      Act s r u [.attach ref] { u with reqs := reqs, phase := .draining }
        { released := [{ view := ref, code := code, goAway := true }], results := [(ref, result)] }
  /-- A view passes the admission checks while there is none. -/
  | enter {ref : ViewRef} {v : View} {a : Admission} {record : Option Record} {reqs : List Request}
      (hphase : u.phase = .draining) (hreqs : u.reqs = .attach ref :: reqs) (henters : Enters s u ref v a)
      (hconn : u.conn = none) :
      Act s r u [.attach ref] ({ u with reqs := reqs, info := some a.info, record := record }.install a)
        { admitted := 1 }
  /-- A view passes the admission checks and displaces the present one. -/
  | displace {ref old : ViewRef} {v : View} {a : Admission} {record : Option Record} {reqs : List Request}
      (hphase : u.phase = .draining) (hreqs : u.reqs = .attach ref :: reqs) (henters : Enters s u ref v a)
      (hconn : u.conn = some old) :
      Act s r u [.attach ref] ({ u with reqs := reqs, info := some a.info, record := record }.dropped
        { view := old, code := .duplicate, goAway := true, admission := some a }) { admitted := 1 }
  /-- There is nothing to drop. -/
  | noView {done : Option DoneRef} {reqs rest : List Request}
      (hreqs : u.phase = .draining ∧ (∃ code goAway, reqs = [.dropView code goAway done]) ∨
        u.phase = .checking [] ∧ reqs = [] ∧ done = none)
      (hrest : u.reqs = reqs ++ rest) (hconn : u.conn = none) :
      Act s r u reqs { u with reqs := rest, phase := .draining } { finished := done.toList }
  /-- `dropView` takes the view out of the fields. -/
  | drop (code : Code) (goAway : Bool) {v : ViewRef} {done : Option DoneRef} {reqs rest : List Request}
      {resets : List Reset} (hphase : u.phase = .draining ∧ (∃ req, reqs = [req]) ∨
        (u.phase = .select ∨ u.phase = .checking []) ∧ reqs = [])
      (hrest : u.reqs = reqs ++ rest) (hconn : u.conn = some v) (hcause : DropCause s u reqs)
      (hdone : (∃ code goAway, reqs = [.dropView code goAway done]) ∨ done = none ∧ ∀ req ∈ reqs, req.Other)
      (hresets : resets = [] ∧ (∀ v d stream sel, .headerRead v d stream sel ∉ reqs) ∨
        ∃ d stream sel, sel.family = controlFamily ∧ reqs = [.headerRead v d stream (some sel)] ∧
          resets = [(stream, .controlViolation)]) :
      Act s r u reqs ({ u with reqs := rest }.dropped { view := v, code := code, goAway := goAway, done := done })
        { resets := resets }
  /-- A header read that failed, or whose selector no family has. -/
  | header {v : ViewRef} {d : Dir} {stream : StreamRef} {sel : Option Selector} {reqs : List Request}
      {resets : List Reset} (hphase : u.phase = .draining) (hreqs : u.reqs = .headerRead v d stream sel :: reqs)
      (hconn : u.conn = some v) (hresets : sel = none ∧ resets = [] ∨
        ∃ sel', sel = some sel' ∧ u.routes.get sel' = none ∧ resets = [(stream, .unsupportedSelector)]) :
      Act s r u [.headerRead v d stream sel] { u with
        reqs := reqs
        reading := update u.reading d (u.reading d - 1)
        phase := .reading .uni none } { resets := resets }
  /-- A stream is handed to a family. -/
  | push {v : ViewRef} {d : Dir} {stream : StreamRef} {sel : Selector} {h : Handle} {reqs : List Request}
      (hphase : u.phase = .draining) (hreqs : u.reqs = .headerRead v d stream (some sel) :: reqs)
      (hconn : u.conn = some v) (hsel : sel.family ≠ controlFamily) (hroute : u.routes.get sel = some h) :
      Act s r u [.headerRead v d stream (some sel)] { u with
        reqs := reqs
        reading := update u.reading d (u.reading d - 1)
        phase := .reading .uni none } { family := some (h.family, .push h.ref sel.protocol) }
  | check {v : ViewRef} {reqs : List Request} (hphase : u.phase = .draining)
      (hreqs : u.reqs = .handleClosed :: reqs) (hconn : u.conn = some v) :
      Act s r u [.handleClosed] { u with reqs := reqs, phase := .checking u.handles } {}
  /-- The loop of `dropView` ends a handle. -/
  | endHandle {h : Handle} {hs : List Handle} {drop : Drop} (hphase : u.phase = .dropping (h :: hs) drop) :
      Act s r u [] { u with phase := .dropping hs drop }
        { family := some (h.family, .closePeer h.ref drop.code .closing) }
  | ended {drop : Drop} (hphase : u.phase = .dropping [] drop) (hnone : drop.admission = none) :
      Act s r u [] { u with info := none, phase := .draining }
        { released := [⟨drop.view, drop.code, drop.goAway, drop.done⟩] }
  | replaced {drop : Drop} {a : Admission} (hphase : u.phase = .dropping [] drop)
      (hsome : drop.admission = some a) :
      Act s r u [] ({ u with info := none }.install a)
        { released := [⟨drop.view, drop.code, drop.goAway, drop.done⟩] }
  /-- The loop of `attach` makes a handle. -/
  | addHandle {a : Admission} {c : FamilyCode} {cs : List FamilyCode} {hs : List Handle}
      (hphase : u.phase = .adding a (c :: cs) hs) :
      Act s r u [] { u with phase := .adding a cs (hs ++ [⟨c, (s.family c).nextHandle⟩]) }
        { family := some (c, .addPeer u.id), handle := some ⟨c, (s.family c).nextHandle⟩ }
  | store {a : Admission} {hs : List Handle} (hphase : u.phase = .adding a [] hs) :
      Act s r u [] { u with
        routes := routesOf s.registry hs
        handles := hs
        info := some a.info
        phase := .reading .uni (some a.view) } { goAwayReads := [(r, a.view)] }
  | turnAround {attached : Option ViewRef} (hphase : u.phase = .reading .uni attached) (hstops : Stops s u .uni) :
      Act s r u [] { u with phase := .reading .bidi attached } {}
  | endReads {attached : Option ViewRef} (hphase : u.phase = .reading .bidi attached)
      (hstops : Stops s u .bidi) :
      Act s r u [] { u with phase := .draining } { results := (attached.map fun v => (v, none)).toList }
  /-- `readHeaders` takes a stream. -/
  | read {d : Dir} {attached : Option ViewRef} {ref : ViewRef} {view : View} {stream : StreamRef}
      {rest : List StreamRef} (hphase : u.phase = .reading d attached) (hconn : u.conn = some ref)
      (hview : s.views.get ref = some view) (hqueue : view.queue d = stream :: rest)
      (hfree : u.reading d < maxHeaderReads) (hlive : view.done = none) :
      Act s r u [] { u with reading := update u.reading d (u.reading d + 1) }
        { view := some (ref, { view with
            queue := update view.queue d rest
            token := update view.token d (view.token d || !rest.isEmpty) })
          headerReads := [⟨r, ref, d, stream⟩] }
  | pass {h : Handle} {hs : List Handle} (hphase : u.phase = .checking (h :: hs)) (hdown : s.isDown h = true) :
      Act s r u [] { u with phase := .checking hs } {}
  | found {h : Handle} {hs : List Handle} (hphase : u.phase = .checking (h :: hs))
      (hopen : s.isDown h = false) : Act s r u [] { u with phase := .draining } {}
  /-- The wake token of a queue is taken. -/
  | token {d : Dir} {ref : ViewRef} {view : View} (hphase : u.phase = .select) (hconn : u.conn = some ref)
      (hview : s.views.get ref = some view) (htoken : view.token d = true) :
      Act s r u [] { u with phase := .reading .uni none }
        { view := some (ref, { view with token := update view.token d false }) }

/-- The supervisor at `r` does nothing, or takes a step in which the requests `reqs` begin to run. -/
def Acts (s : StackState) (r : SupRef) (u : Supervisor) (reqs : List Request) (s' : StackState) : Prop :=
  (s' = s ∧ reqs = [] ∧ (u.phase = .select ∨ u.phase = .exited)) ∨ ∃ u' o, Act s r u reqs u' o ∧ s' = s.turned r u' o

variable {s : StackState} {r : SupRef} {u : Supervisor}

variable {reqs : List Request} {d : Dir}

/-- A request that begins to run is the next drained one. -/
theorem Act.took {u' : Supervisor} {o : Out} (h : Act s r u reqs u' o) :
    (reqs = [] ∧ (u.phase = .draining → u.reqs = [])) ∨
      ∃ req rest, reqs = [req] ∧ u.phase = .draining ∧ u.reqs = req :: rest := by
  cases h with
  | rest _ hreqs | exit _ hreqs => exact .inl ⟨rfl, fun _ => hreqs⟩
  | stale hphase hreqs | refuse hphase hreqs | enter hphase hreqs | displace hphase hreqs | header hphase hreqs
  | push hphase hreqs | check hphase hreqs => exact .inr ⟨_, _, rfl, hphase, hreqs⟩
  | noView hreqs hrest =>
    obtain ⟨hphase, code, goAway, rfl⟩ | ⟨hphase, rfl, _⟩ := hreqs
    · exact .inr ⟨_, _, rfl, hphase, hrest⟩
    · exact .inl ⟨rfl, by simp [hphase]⟩
  | drop _ _ hphase hrest =>
    obtain ⟨hphase, req, rfl⟩ | ⟨hphase | hphase, rfl⟩ := hphase
    · exact .inr ⟨_, _, rfl, hphase, hrest⟩
    · exact .inl ⟨rfl, by simp [hphase]⟩
    · exact .inl ⟨rfl, by simp [hphase]⟩
  | wake hphase | fetch hphase | endHandle hphase | ended hphase | replaced hphase | addHandle hphase
  | store hphase | turnAround hphase | endReads hphase | read hphase | pass hphase | found hphase
  | token hphase => exact .inl ⟨rfl, by simp [hphase]⟩

theorem supDrop_none (hconn : u.conn = none) (code : Code) (goAway : Bool) (done : Option DoneRef) :
    s.supDrop r u code goAway done = s.turned r { u with phase := .draining } { finished := done.toList } := by
  simp [supDrop, dropView, hconn, turned, setSup]

theorem supDrop_some {v : ViewRef} (hconn : u.conn = some v) (code : Code) (goAway : Bool)
    (done : Option DoneRef) : s.supDrop r u code goAway done =
      s.turned r (u.dropped { view := v, code := code, goAway := goAway, done := done }) {} := by
  simp [supDrop, dropView, hconn, turned, setSup, dropped]

theorem supAttach_admitted {v : View} (h : s.rejection u v = none) (r : SupRef) (ref : ViewRef) :
    ∃ (a : Admission) (record : Option Record), a.view = ref ∧ a.families = s.sharedFamilies v ∧
      a.info.outbound = v.outbound ∧
      ((u.conn = none ∧ s.supAttach r u ref v =
        s.turned r ({ u with info := some a.info, record := record }.install a) { admitted := 1 }) ∨
      ∃ old, u.conn = some old ∧ s.supAttach r u ref v =
        s.turned r ({ u with info := some a.info, record := record }.dropped
          { view := old, code := .duplicate, goAway := true, admission := some a }) { admitted := 1 }) := by
  let info : ConnInfo := { id := s.nextID + 1, peer := u.id, outbound := v.outbound }
  let a : Admission :=
    { view := ref, info := info, families := s.sharedFamilies v, nodup := s.registry.nodup.filter _ }
  obtain ⟨rec, hrec⟩ := updateRecord_eq { u with info := some info } ((s.dials.get u.id).map (·.record))
  obtain ⟨rec', hrec'⟩ := updateRecord_eq { u with info := some info, record := rec } (helloRecord v.record)
  refine ⟨a, rec', rfl, rfl, rfl, ?_⟩
  simp only [supAttach, h]
  simp only [hrec, hrec', info, a]
  cases hconn : u.conn with
  | none => exact .inl ⟨rfl, by simp [turned, setSup]⟩
  | some old =>
    exact .inr ⟨old, rfl, by simp [turned, setSup, dropView, dropped]⟩

theorem acts_supAttach {ref : ViewRef} {v : View} (hphase : u.phase = .draining)
    (hreqs : u.reqs = .attach ref :: reqs) (hview : s.views.get ref = some v) :
    Acts s r u [.attach ref] (s.supAttach r { u with reqs := reqs } ref v) := by
  have hsame : s.rejection { u with reqs := reqs } v = s.rejection u v := rfl
  cases hrej : s.rejection u v with
  | some p =>
    refine .inr ⟨_, _, .refuse hphase hreqs hview hrej, ?_⟩
    simp only [supAttach, hsame.trans hrej]
    simp [turned, setSup]
  | none =>
    obtain ⟨a, record, hav, hfam, hout, ⟨hconn, heq⟩ | ⟨old, hconn, heq⟩⟩ :=
      supAttach_admitted (hsame.trans hrej) r ref
    · exact .inr ⟨_, _, .enter hphase hreqs ⟨hview, hrej, hav, hfam, hout⟩ hconn, heq⟩
    · exact .inr ⟨_, _, .displace hphase hreqs ⟨hview, hrej, hav, hfam, hout⟩ hconn, heq⟩

theorem acts_supHeader {v : ViewRef} {stream : StreamRef} {sel : Option Selector}
    (hphase : u.phase = .draining) (hreqs : u.reqs = .headerRead v d stream sel :: reqs) :
    Acts s r u [.headerRead v d stream sel] (s.supHeader r { u with reqs := reqs } v d stream sel) := by
  by_cases hconn : u.conn = some v
  · simp only [supHeader, hconn, ne_eq, not_true_eq_false, if_false]
    cases sel with
    | none =>
      exact .inr ⟨_, _, .header hphase hreqs hconn (.inl ⟨rfl, rfl⟩), by simp [turned, setSup, hconn]⟩
    | some sel =>
      dsimp only
      split
      · refine .inr ⟨_, _, .drop .controlViolation true (.inl ⟨hphase, _, rfl⟩) hreqs hconn (.header rfl ‹_›)
          (.inr ⟨rfl, by simp [Request.Other]⟩) (.inr ⟨d, stream, sel, ‹_›, rfl, rfl⟩), ?_⟩
        rw [supDrop_some (v := v) rfl]
        simp [turned, dropped]
      cases hroute : u.routes.get sel with
      | none =>
        exact .inr ⟨_, _, .header hphase hreqs hconn (.inr ⟨sel, rfl, hroute, rfl⟩), by simp [turned, setSup, hconn]⟩
      | some h =>
        exact .inr ⟨_, _, .push hphase hreqs hconn ‹_› hroute, by simp [turned, setSup, onFamily, hconn]⟩
  · exact .inr ⟨_, _, .stale hphase hreqs (.header hconn), by simp [supHeader, hconn, turned, setSup]⟩

theorem acts_serve {req : Request} (hphase : u.phase = .draining)
    (hreqs : u.reqs = req :: reqs) : Acts s r u [req] (s.serve r { u with reqs := reqs } req) := by
  have hstale {resets} (h : Stale s u req resets) : Acts s r u [req]
      (s.turned r { u with reqs := reqs, phase := .draining } { resets := resets }) :=
    .inr ⟨_, _, .stale hphase hreqs h, rfl⟩
  cases req with
  | attach ref =>
    cases hview : s.views.get ref with
    | none => simpa [serve, hview, turned, setSup] using hstale (.attach hview)
    | some v => simpa only [serve, hview] using acts_supAttach hphase hreqs hview
  | dropView code goAway done =>
    obtain hconn | ⟨v, hconn⟩ := Option.eq_none_or_eq_some u.conn
    · exact .inr ⟨_, _, .noView (.inl ⟨hphase, code, goAway, rfl⟩) hreqs hconn,
        supDrop_none (u := { u with reqs := reqs }) hconn code goAway done⟩
    · exact .inr ⟨_, _, .drop code goAway (.inl ⟨hphase, _, rfl⟩) hreqs hconn (.request rfl) (.inl ⟨_, _, rfl⟩)
        (.inl ⟨rfl, by simp⟩), supDrop_some (u := { u with reqs := reqs }) hconn code goAway done⟩
  | goAwayRead v code goAway =>
    by_cases hconn : u.conn = some v
    · refine .inr ⟨_, _, .drop code goAway (.inl ⟨hphase, _, rfl⟩) hreqs hconn (.goAway rfl hconn) (.inr ⟨rfl, by simp [Request.Other]⟩)
        (.inl ⟨rfl, by simp⟩), ?_⟩
      simp only [serve, hconn, if_true]
      exact supDrop_some rfl code goAway none
    · simpa [serve, hconn, turned, setSup] using hstale (.goAway hconn)
  | headerRead v d stream sel => exact acts_supHeader hphase hreqs
  | handleClosed =>
    cases hconn : u.conn with
    | none => simpa [serve, hconn, turned, setSup] using hstale (.closed hconn)
    | some v => exact .inr ⟨_, _, .check hphase hreqs hconn, by simp [serve, hconn, turned, setSup]⟩

variable {attached : Option ViewRef}

theorem acts_endReads {s' : StackState} (hphase : u.phase = .reading d attached) (hstops : Stops s u d)
    (huni : d = .uni → s' = s.setSup r { u with phase := .reading .bidi attached })
    (hbidi : d = .bidi → s' = { s.setSup r { u with phase := .draining } with
      results := s.results ++ (attached.map fun v => (v, none)).toList }) : Acts s r u [] s' := by
  cases d with
  | uni => exact .inr ⟨_, _, .turnAround hphase hstops, by simp [huni, turned, setSup]⟩
  | bidi => exact .inr ⟨_, _, .endReads hphase hstops, by simp [hbidi, turned, setSup]⟩

theorem acts_readHeader (hphase : u.phase = .reading d attached) : Acts s r u [] (s.readHeader r u d attached) := by
  unfold readHeader
  dsimp only
  split
  · rename_i hconn
    have hstops : Stops s u d := fun _ _ h => by simp [hconn] at h
    exact acts_endReads hphase hstops (by rintro rfl; rfl) (by rintro rfl; rfl)
  rename_i ref hconn
  split
  · rename_i hview
    have hstops : Stops s u d := by
      intro ref' _ h hv
      cases hconn.symm.trans h
      simp [hview] at hv
    exact acts_endReads hphase hstops (by rintro rfl; rfl) (by rintro rfl; rfl)
  rename_i view hview
  have hstops (h : view.queue d = [] ∨ maxHeaderReads ≤ u.reading d ∨ view.done.isSome = true) :
      Stops s u d := by
    intro ref' view' hc hv
    cases hconn.symm.trans hc
    cases hview.symm.trans hv
    exact h
  split
  · rename_i hqueue
    exact acts_endReads hphase (hstops (.inl hqueue)) (by rintro rfl; rfl) (by rintro rfl; rfl)
  rename_i stream rest hqueue
  split
  · rename_i hfull
    exact acts_endReads hphase (hstops (.inr hfull)) (by rintro rfl; rfl) (by rintro rfl; rfl)
  rename_i hfree
  obtain ⟨hfree, hlive⟩ := not_or.mp hfree
  refine .inr ⟨_, _, .read hphase hconn hview hqueue (not_le.mp hfree) ?_, by simp [turned, setSup]⟩
  simpa using hlive

/-- Every step of a supervisor that is not in its select. -/
theorem acts_work (s : StackState) (r : SupRef) (u : Supervisor) : ∃ reqs, Acts s r u reqs (s.work r u) := by
  cases hphase : u.phase with
  | select => exact ⟨[], .inl ⟨by simp [work, hphase], rfl, .inl hphase⟩⟩
  | exited => exact ⟨[], .inl ⟨by simp [work, hphase], rfl, .inr hphase⟩⟩
  | woken => exact ⟨[], .inr ⟨_, _, .fetch hphase, by simp [work, hphase, turned, setSup]⟩⟩
  | draining =>
    simp only [work, hphase]
    split
    · rename_i hreqs
      unfold tryExit
      split
      · rename_i hidle
        simp only [Bool.and_eq_true, Option.isNone_iff_eq_none, List.isEmpty_iff] at hidle
        exact ⟨[], .inr ⟨_, _, .exit hphase hreqs hidle.2 hidle.1, by simp [turned, setSup]⟩⟩
      · exact ⟨[], .inr ⟨_, _, .rest hphase hreqs, by simp [turned, setSup]⟩⟩
    · rename_i req reqs hreqs
      have h := acts_serve (s := s) (r := r) hphase hreqs
      rw [hphase] at h
      exact ⟨[req], h⟩
  | dropping hs drop =>
    cases hs with
    | cons h hs =>
      exact ⟨[], .inr ⟨_, _, .endHandle hphase, by simp [work, hphase, turned, setSup, onFamily]⟩⟩
    | nil =>
      cases hadm : drop.admission with
      | none => exact ⟨[], .inr ⟨_, _, .ended hphase hadm, by simp [work, hphase, hadm, turned, setSup]⟩⟩
      | some a => exact ⟨[], .inr ⟨_, _, .replaced hphase hadm, by simp [work, hphase, hadm, turned, setSup]⟩⟩
  | adding a cs hs =>
    cases cs with
    | cons c cs =>
      exact ⟨[], .inr ⟨_, _, .addHandle hphase, by simp [work, hphase, turned, setSup, onFamily]⟩⟩
    | nil => exact ⟨[], .inr ⟨_, _, .store hphase, by simp [work, hphase, turned, setSup]⟩⟩
  | reading d attached =>
    simp only [work, hphase]
    exact ⟨[], acts_readHeader hphase⟩
  | checking hs =>
    cases hs with
    | cons h hs =>
      cases hdown : s.isDown h with
      | true => exact ⟨[], .inr ⟨_, _, .pass hphase hdown, by simp [work, hphase, hdown, turned, setSup]⟩⟩
      | false => exact ⟨[], .inr ⟨_, _, .found hphase hdown, by simp [work, hphase, hdown, turned, setSup]⟩⟩
    | nil =>
      simp only [work, hphase]
      cases hconn : u.conn with
      | none =>
        exact ⟨[], .inr ⟨_, _, .noView (.inr ⟨hphase, rfl, rfl⟩) rfl hconn, supDrop_none hconn _ true none⟩⟩
      | some v =>
        exact ⟨[], .inr ⟨_, _, .drop _ _ (.inr ⟨.inr hphase, rfl⟩) rfl hconn (.handles hphase)
          (.inr ⟨rfl, by simp [Request.Other]⟩) (.inl ⟨rfl, by simp⟩), supDrop_some hconn _ _ _⟩⟩

/-- Every case of the select. -/
theorem acts_select (hphase : u.phase = .select) (c : SelectCase) : Acts s r u [] (s.select r u c) := by
  have hnone : Acts s r u [] s := .inl ⟨rfl, rfl, .inl hphase⟩
  cases c with
  | wake =>
    by_cases hwake : u.wake = true
    · exact .inr ⟨_, _, .wake hphase, by simp [select, hwake, turned, setSup]⟩
    · simpa [select, hwake] using hnone
  | streams d =>
    obtain hconn | ⟨ref, hconn⟩ := Option.eq_none_or_eq_some u.conn
    · simpa [select, hconn] using hnone
    obtain hview | ⟨view, hview⟩ := Option.eq_none_or_eq_some (s.views.get ref)
    · simpa [select, hconn, hview] using hnone
    by_cases htoken : view.token d = true
    · exact .inr ⟨_, _, .token hphase hconn hview htoken, by simp [select, hconn, hview, htoken, turned, setSup]⟩
    · simpa [select, hconn, hview, htoken] using hnone
  | done =>
    obtain hconn | ⟨ref, hconn⟩ := Option.eq_none_or_eq_some u.conn
    · simpa [select, hconn] using hnone
    obtain hdone | ⟨code, hdone⟩ := Option.eq_none_or_eq_some ((s.views.get ref).bind (·.done))
    · simpa [select, hconn, hdone] using hnone
    obtain ⟨view, hview, hcode⟩ := Option.bind_eq_some_iff.mp hdone
    refine .inr ⟨_, _, .drop code false (.inr ⟨.inl hphase, rfl⟩) rfl hconn
      (.done hconn hview (by simp [hcode])) (.inr ⟨rfl, by simp [Request.Other]⟩) (.inl ⟨rfl, by simp⟩), ?_⟩
    simp only [select, hconn, hdone]
    exact supDrop_some hconn code false none

/-- A select of the system is one of a supervisor in that phase, or nothing. -/
theorem step_select {P : StackState → Prop} (h : P s) (r : SupRef) (c : SelectCase)
    (hacts : ∀ {u s'}, s.sups.get r = some u → Acts s r u [] s' → P s') : P (s.step (.select r c)) := by
  simp only [step, withSup]
  split
  · exact h
  rename_i u hu
  split
  · rename_i hphase
    exact hacts hu (acts_select hphase c)
  · exact h

end StackState

end EthP2P.Stack
