/-
# EthP2P.Stack.Requests — what becomes of the requests to a supervisor

Everything that is done for a peer goes through the inbox of its supervisor: producers append under the stack's
mutex and signal after releasing it, and the supervisor takes the whole inbox when it is woken.

`Turn` and `Moves` say once what a step can do to a supervisor and to the table; the results are read off them.
The requests of a supervisor form a queue: each that was appended is run once, in order, or still waits
(`pending_step`).  A supervisor leaves the table with nothing left to run, so no request is lost by its exit, and
one that waits in the select with requests in its inbox has a wake-up on its way.  What `Close` appends to every
inbox is what takes the last views away (`SupInv.closing`).
-/
import EthP2P.Stack.Reconnect

namespace EthP2P.Stack

open Lib Wire Supervisor List Option

/-! ## A supervisor and its requests -/

/-- No request runs. -/
def Phase.between : Phase → Bool
  | .select | .woken | .draining | .exited => true
  | _ => false

/-- The view that will take the place of the one that is dropped. -/
def Phase.admitting : Phase → Option Admission
  | .dropping _ drop => drop.admission
  | _ => none

theorem Phase.Plain.admitting_eq {p : Phase} (h : p.Plain) : p.admitting = none := by
  cases p <;> first | rfl | cases h

namespace Supervisor

/-- The requests that wait, in the order in which they will run. -/
def pending (u : Supervisor) : List Request := u.reqs ++ u.inbox

/-- A view is the supervisor's, or will be after the present one is dropped. -/
def Holds (u : Supervisor) : Prop := u.conn ≠ none ∨ u.phase.admitting ≠ none

/-- Outside the loops of `dropView` and `attach` the info stands for the view. -/
def Paired (u : Supervisor) : Prop := u.phase.Plain ∨ u.phase = .exited → u.info.isSome = u.conn.isSome

end Supervisor

namespace StackState

open Supervisor

/-! ## Steps of one supervisor -/

/-- The admission that a view gets when its attach passes the checks. -/
structure Admitted (s : StackState) (u : Supervisor) (reqs : List Request) (a : Admission) (v : View) : Prop where
  request : reqs = [.attach a.view]
  view : s.views.get a.view = some v
  passes : s.rejection u v = none
  outbound : a.info.outbound = v.outbound

/-- How the view and the phase of a supervisor change in one of its steps, with the request that begins to run and
the views that are released. -/
inductive Shift (s : StackState) (u u' : Supervisor) : List Request → List ViewRef → Prop
  | plain {reqs : List Request} (hp : u.phase.Plain) (hp' : u'.phase.Plain) (hconn : u'.conn = u.conn)
      (hinfo : u'.info = u.info) (hreqs : ∀ ref, .attach ref ∉ reqs) : Shift s u u' reqs []
  | refused {ref : ViewRef} {gone : List ViewRef} (hp : u.phase.Plain) (hp' : u'.phase.Plain)
      (hconn : u'.conn = u.conn) (hinfo : u'.info = u.info) (hgone : ∀ v ∈ gone, v = ref)
      (hrejected : ∀ v, s.views.get ref = some v → s.rejection u v ≠ none) : Shift s u u' [.attach ref] gone
  /-- `dropView` takes the view out of the fields. -/
  | drop {reqs : List Request} {hs : List Handle} {d : Drop} (hp : u.phase.Plain) (hp' : u'.phase = .dropping hs d)
      (hview : u.conn = some d.view) (hconn : u'.conn = none) (hnone : d.admission = none)
      (hcause : DropCause s u reqs) (hreqs : ∀ ref, .attach ref ∉ reqs) : Shift s u u' reqs []
  /-- A view passes the admission checks and displaces the present one. -/
  | displace {reqs : List Request} {hs : List Handle} {d : Drop} {a : Admission} {v : View} (hp : u.phase.Plain)
      (hp' : u'.phase = .dropping hs d) (hview : u.conn = some d.view) (hconn : u'.conn = none)
      (hsome : d.admission = some a) (hadmitted : Admitted s u reqs a v) : Shift s u u' reqs []
  /-- A view passes the admission checks while there is none. -/
  | enter {reqs : List Request} {a : Admission} {v : View} (hp : u.phase.Plain) (hnone : u.conn = none)
      (hp' : u'.phase = .adding a a.families []) (hconn : u'.conn = some a.view)
      (hadmitted : Admitted s u reqs a v) : Shift s u u' reqs []
  | endHandle {hs hs' : List Handle} {d : Drop} (hp : u.phase = .dropping hs d) (hp' : u'.phase = .dropping hs' d)
      (hconn : u'.conn = u.conn) : Shift s u u' [] []
  | dropped {d : Drop} (hp : u.phase = .dropping [] d) (hnone : d.admission = none) (hp' : u'.phase = .draining)
      (hconn : u'.conn = u.conn) (hinfo : u'.info = none) : Shift s u u' [] [d.view]
  | replaced {d : Drop} {a : Admission} (hp : u.phase = .dropping [] d) (hsome : d.admission = some a)
      (hp' : u'.phase = .adding a a.families []) (hconn : u'.conn = some a.view) : Shift s u u' [] [d.view]
  | addHandle {a : Admission} {cs cs' : List FamilyCode} {hs hs' : List Handle} (hp : u.phase = .adding a cs hs)
      (hp' : u'.phase = .adding a cs' hs') (hconn : u'.conn = u.conn) : Shift s u u' [] []
  | stored {a : Admission} {hs : List Handle} (hp : u.phase = .adding a [] hs) (hp' : u'.phase.Plain)
      (hconn : u'.conn = u.conn) (hinfo : u'.info = some a.info) : Shift s u u' [] []

/-- A step of `run`, with the request that begins to run in it and the views that are released. -/
inductive Turn (s : StackState) (u : Supervisor) : Supervisor → List Request → List ViewRef → Prop
  | wake (hphase : u.phase = .select) : Turn s u { u with wake := false, phase := .woken } [] []
  | fetch (hphase : u.phase = .woken) : Turn s u { u with reqs := u.inbox, inbox := [], phase := .draining } [] []
  | go {u' : Supervisor} {reqs : List Request} {gone : List ViewRef} (hphase : u.phase ≠ .woken)
      (hphase' : u'.phase ≠ .woken) (hselect : u'.phase = .select → u'.reqs = []) (hid : u'.id = u.id)
      (hinbox : u'.inbox = u.inbox) (hwake : u'.wake = u.wake) (hreqs : u.reqs = reqs ++ u'.reqs)
      (hdrop : ∀ code goAway done, .dropView code goAway done ∈ reqs → ¬ u'.Holds)
      (hshift : Shift s u u' reqs gone) : Turn s u u' reqs gone

section Shift

variable {s : StackState} {u u' : Supervisor} {reqs : List Request} {gone : List ViewRef}

/-- A view that passes the checks is admitted while the stack is open. -/
theorem open_of_not_rejected {v : View} (h : s.rejection u v = none) : s.closed = false := by
  unfold rejection at h
  split at h
  · cases h
  split at h
  · cases h
  split at h
  · cases h
  · rename_i hopen
    exact Bool.eq_false_iff.mpr hopen

section

variable (hshift : Shift s u u' reqs gone)
include hshift

theorem Shift.holds (hclosed : s.closed = true) (h : u'.Holds) : u.Holds := by
  have hkept : u'.conn = u.conn → u'.phase.admitting = none → u.Holds := by
    intro hconn hnone
    rcases h with h | h
    · exact .inl (hconn ▸ h)
    · exact absurd hnone h
  cases hshift with
  | plain hp hp' hconn | refused hp hp' hconn => exact hkept hconn hp'.admitting_eq
  | drop hp hp' hview hconn hnone =>
    rcases h with h | h
    · exact absurd hconn h
    · rw [hp'] at h
      exact absurd hnone h
  | displace hp hp' hview hconn hsome hadmitted | enter hp hnone hp' hconn hadmitted =>
    rw [open_of_not_rejected hadmitted.passes] at hclosed
    cases hclosed
  | endHandle hp hp' hconn =>
    rcases h with h | h
    · exact .inl (hconn ▸ h)
    rw [hp'] at h
    refine .inr ?_
    rw [hp]
    exact h
  | dropped hp hnone hp' hconn hinfo => exact hkept hconn (by rw [hp']; rfl)
  | @replaced d a hp hsome hp' hconn =>
    refine .inr ?_
    rw [hp]
    show d.admission ≠ none
    rw [hsome]
    exact some_ne_none a
  | addHandle hp hp' hconn => exact hkept hconn (by rw [hp']; rfl)
  | stored hp hp' hconn hinfo => exact hkept hconn hp'.admitting_eq

/-- Once the stack is closed a view becomes the supervisor's only if it was admitted before. -/
theorem Shift.conn (hclosed : s.closed = true) {v : ViewRef}
    (h : u'.conn = some v) : u.conn = some v ∨ ∃ a, u.phase.admitting = some a ∧ a.view = v := by
  cases hshift with
  | plain hp hp' hconn | refused hp hp' hconn => exact .inl (hconn ▸ h)
  | drop hp hp' hview hconn | displace hp hp' hview hconn =>
    rw [hconn] at h
    cases h
  | enter hp hnone hp' hconn hadmitted =>
    rw [open_of_not_rejected hadmitted.passes] at hclosed
    cases hclosed
  | endHandle hp hp' hconn | dropped hp hnone hp' hconn hinfo => exact .inl (hconn ▸ h)
  | @replaced d a hp hsome hp' hconn =>
    refine .inr ⟨a, ?_, ?_⟩
    · rw [hp]
      exact hsome
    · exact some.inj (hconn.symm.trans h)
  | addHandle hp hp' hconn | stored hp hp' hconn hinfo => exact .inl (hconn ▸ h)

theorem Shift.paired (hshape : u.Shape) (h : u.Paired) : u'.Paired := by
  intro hphase
  -- in the phases of the two loops nothing is claimed
  have hloop : ∀ {p : Phase}, u'.phase = p → ¬ (p.Plain ∨ p = .exited) → u'.info.isSome = u'.conn.isSome := by
    rintro p rfl hnot
    exact absurd hphase hnot
  cases hshift with
  | plain hp hp' hconn hinfo | refused hp hp' hconn hinfo =>
    rw [hconn, hinfo]
    exact h (.inl hp)
  | drop hp hp' | displace hp hp' | enter hp hnone hp' | endHandle hp hp' hconn => exact hloop hp' (by rintro (h | h) <;> cases h)
  | dropped hp hnone hp' hconn hinfo =>
    rw [hconn, hinfo, hshape.dropping _ _ hp]
    rfl
  | replaced hp hsome hp' hconn | addHandle hp hp' hconn => exact hloop hp' (by rintro (h | h) <;> cases h)
  | stored hp hp' hconn hinfo =>
    rw [hconn, hinfo]
    exact (isSome_iff_ne_none.mpr (hshape.adding _ _ _ hp).1).symm

theorem Shift.ne_exited : u'.phase ≠ .exited := by
  intro hexit
  cases hshift with
  | plain hp hp' | refused hp hp' | stored hp hp' => exact hp'.ne_exited hexit
  | drop hp hp' | displace hp hp' | enter hp hnone hp' | endHandle hp hp' | dropped hp hnone hp'
  | replaced hp hsome hp' | addHandle hp hp' => cases hp'.symm.trans hexit

end

theorem Turn.queue (hturn : Turn s u u' reqs gone) (hdrained : u.phase = .woken → u.reqs = []) :
    u.pending = reqs ++ u'.pending := by
  cases hturn with
  | wake hphase => rfl
  | fetch hphase =>
    unfold pending
    rw [hdrained hphase, append_nil]
  | go hphase hphase' hselect hid hinbox hwake hreqs hdrop hshift =>
    unfold pending
    rw [hreqs, hinbox, append_assoc]

end Shift

/-! ## The requests of a step -/

/-- The supervisor is the one that its peer has in the table. -/
def serves (s : StackState) (r : SupRef) : Bool := (s.sups.get r).any fun u => s.peers.get u.id = some r

/-- What is appended to inboxes. -/
def posts (s : StackState) : StackOp → List (SupRef × Request)
  | .attach v => if s.closed then [] else [((s.peers.get v.peer).getD s.nextSup, .attach s.nextView)]
  | .disconnect peer => (s.peers.get peer).toList.map fun r => (r, .dropView .closing true (some s.nextDone))
  | .close => if s.closed then [] else s.peers.entries.map fun e => (e.2, .dropView .closing true none)
  | .postClosed r => if r ∈ s.closings ∧ s.serves r then [(r, .handleClosed)] else []
  | .headerDone i sel =>
    match s.headerReads[i]? with
    | none => []
    | some read =>
      if s.serves read.sup then [(read.sup, .headerRead read.view read.dir read.stream sel)] else []
  | .goAwayDone i result =>
    match s.goAwayReads[i]?, result with
    | some (r, v), some (code, goAway) => if s.serves r then [(r, .goAwayRead v code goAway)] else []
    | _, _ => []
  | _ => []

/-- What begins to run. -/
def runs (s : StackState) : StackOp → List (SupRef × Request)
  | .work r =>
    match s.sups.get r with
    | none => []
    | some u =>
      match u.phase, u.reqs with
      | .draining, req :: _ => [(r, req)]
      | _, _ => []
  | _ => []

/-- What no step of a supervisor changes. -/
def fixed (s : StackState) : PeerID × Registry × ViewRef × Map PeerID DialAttempt × List SupRef :=
  (s.self, s.registry, s.nextView, s.dials, s.closings)

/-- One supervisor becomes `u'` and the views `gone` are released; the table and the signals stay, and so does the
number of admitted views once the stack is closed. -/
structure Frame (s s' : StackState) (r : SupRef) (u' : Supervisor) (gone : List ViewRef) : Prop where
  sups : s'.sups = s.sups.set r u'
  peers : s'.peers = s.peers
  closed : s'.closed = s.closed
  signals : s'.signals = s.signals
  fixed : s'.fixed = s.fixed
  released : s'.released.map (·.view) = s.released.map (·.view) ++ gone
  nextID : s.closed = true → s'.nextID = s.nextID

/-- **All that one step can do** to the supervisors, to the table and to the signals. -/
inductive Moves (s s' : StackState) (ins outs : List (SupRef × Request)) : Prop
  | aside (hsups : s'.sups = s.sups) (hpeers : s'.peers = s.peers) (hclosed : s'.closed = s.closed)
      (hsignals : ∀ r u, s.sups.get r = some u → r ∈ s.signals → r ∈ s'.signals) (hID : s'.nextID = s.nextID)
      (hins : ins = []) (houts : outs = [])
  | turn (r : SupRef) (u u' : Supervisor) (reqs : List Request) (gone : List ViewRef) (hu : s.sups.get r = some u)
      (hturn : Turn s u u' reqs gone) (hframe : Frame s s' r u' gone) (hins : ins = [])
      (houts : outs = reqs.map fun req => (r, req))
  | exit (r : SupRef) (u : Supervisor) (hu : s.sups.get r = some u) (hphase : u.phase = .draining)
      (hreqs : u.reqs = []) (hinbox : u.inbox = []) (hconn : u.conn = none)
      (hsups : s'.sups = s.sups.set r { u with phase := .exited }) (hpeers : s'.peers = s.peers.del u.id)
      (hclosed : s'.closed = s.closed) (hsignals : s'.signals = s.signals) (hID : s'.nextID = s.nextID)
      (hins : ins = []) (houts : outs = [])
  | append (r : SupRef) (u : Supervisor) (req : Request) (hu : s.sups.get r = some u)
      (hlive : s.peers.get u.id = some r)
      (hsups : s'.sups = s.sups.set r { u with inbox := u.inbox ++ [req] }) (hpeers : s'.peers = s.peers)
      (hclosed : s'.closed = s.closed) (hsignals : s'.signals = s.signals ++ [r]) (hID : s'.nextID = s.nextID)
      (hins : ins = [(r, req)]) (houts : outs = [])
  | start (id : PeerID) (req : Request) (hnone : s.peers.get id = none) (hopen : s.closed = false)
      (hsups : s'.sups = s.sups.set s.nextSup { id := id, inbox := [req] })
      (hpeers : s'.peers = s.peers.set id s.nextSup) (hclosed : s'.closed = s.closed)
      (hsignals : s'.signals = s.signals ++ [s.nextSup]) (hID : s'.nextID = s.nextID)
      (hins : ins = [(s.nextSup, req)]) (houts : outs = [])
  | close (hopen : s.closed = false) (hclosed : s'.closed = true)
      (hsups : s'.sups = s.sups.mapVals fun r u =>
        if s.peers.get u.id = some r then { u with inbox := u.inbox ++ [.dropView .closing true none] } else u)
      (hpeers : s'.peers = s.peers) (hsignals : s'.signals = s.signals ++ s.peers.entries.map Prod.snd)
      (hID : s'.nextID = s.nextID) (hins : ins = s.peers.entries.map fun e => (e.2, .dropView .closing true none))
      (houts : outs = [])
  | signal (r : SupRef) (u : Supervisor) (hu : s.sups.get r = some u)
      (hsups : s'.sups = s.sups.set r { u with wake := true }) (hpeers : s'.peers = s.peers)
      (hclosed : s'.closed = s.closed) (hsignals : s'.signals = s.signals.erase r) (hID : s'.nextID = s.nextID)
      (hins : ins = []) (houts : outs = [])

/-! ### The supervisor's own steps -/

section Sup

variable {s s' : StackState} {r : SupRef} {u u' : Supervisor} {reqs : List Request} {o : Out}

/-- A view is admitted only while the stack is open. -/
theorem Act.admitted_eq (hact : Act s r u reqs u' o) (hclosed : s.closed = true) : o.admitted = 0 := by
  cases hact with
  | enter _ _ henters | displace _ _ henters =>
    rw [open_of_not_rejected henters.passes] at hclosed
    cases hclosed
  | _ => rfl

theorem Act.turn (hact : Act s r u reqs u' o) (hleft : o.left = none) :
    Turn s u u' reqs (o.released.map (·.view)) := by
  have hplain {p : Phase} (hphase : u.phase = p) (hp : p.Plain) : u.phase.Plain := hphase ▸ hp
  cases hact with
  | wake hphase => exact .wake hphase
  | fetch hphase => exact .fetch hphase
  | rest hphase hreqs =>
    exact .go (by simp [hphase]) (by simp) (fun _ => hreqs) rfl rfl rfl rfl (by simp)
      (.plain (hplain hphase trivial) trivial rfl rfl (by simp))
  | exit => cases hleft
  | stale hphase hreqs hstale =>
    cases hstale with
    | attach hnone =>
      exact .go (by simp [hphase]) (by simp) (by simp) rfl rfl rfl hreqs (by simp)
        (.refused (hplain hphase trivial) trivial rfl rfl (by simp) (by simp [hnone]))
    | goAway | header | closed =>
      exact .go (by simp [hphase]) (by simp) (by simp) rfl rfl rfl hreqs (by simp)
        (.plain (hplain hphase trivial) trivial rfl rfl (by simp))
  | refuse hphase hreqs hview hrejected =>
    exact .go (by simp [hphase]) (by simp) (by simp) rfl rfl rfl hreqs (by simp)
      (.refused (hplain hphase trivial) trivial rfl rfl (by simp) (by simp [hview, hrejected]))
  | enter hphase hreqs henters hconn =>
    obtain ⟨hview, hpasses, rfl, _, hout⟩ := henters
    exact .go (by simp [hphase]) (by simp [install]) (by simp [install]) rfl rfl rfl hreqs (by simp)
      (.enter (hplain hphase trivial) hconn rfl rfl ⟨rfl, hview, hpasses, hout⟩)
  | displace hphase hreqs henters hconn =>
    obtain ⟨hview, hpasses, rfl, _, hout⟩ := henters
    exact .go (by simp [hphase]) (by simp [dropped]) (by simp [dropped]) rfl rfl rfl hreqs (by simp)
      (.displace (hplain hphase trivial) rfl hconn rfl rfl ⟨rfl, hview, hpasses, hout⟩)
  | noView hreqs hrest hconn =>
    obtain ⟨hphase, code, goAway, rfl⟩ | ⟨hphase, rfl, _⟩ := hreqs
    · exact .go (by simp [hphase]) (by simp) (by simp) rfl rfl rfl hrest (by simp [Holds, hconn, Phase.admitting])
        (.plain (hplain hphase trivial) trivial rfl rfl (by simp))
    · exact .go (by simp [hphase]) (by simp) (by simp) rfl rfl rfl hrest (by simp)
        (.plain (hplain hphase trivial) trivial rfl rfl (by simp))
  | drop code goAway hphase hrest hconn hcause hdone =>
    have hp : u.phase.Plain ∧ u.phase ≠ .woken := by
      obtain ⟨hphase, _⟩ | ⟨hphase | hphase, _⟩ := hphase <;>
        exact ⟨hplain hphase trivial, by simp [hphase]⟩
    have hattach : ∀ ref, .attach ref ∉ reqs := by
      obtain ⟨code, goAway, rfl⟩ | ⟨_, hother⟩ := hdone
      · simp
      · exact fun ref href => hother _ href
    exact .go hp.2 (by simp [dropped]) (by simp [dropped]) rfl rfl rfl hrest
      (fun _ _ _ _ => by simp [Holds, dropped, Phase.admitting])
      (.drop hp.1 rfl hconn rfl rfl hcause hattach)
  | header hphase hreqs | push hphase hreqs | check hphase hreqs =>
    exact .go (by simp [hphase]) (by simp) (by simp) rfl rfl rfl hreqs (by simp)
      (.plain (hplain hphase trivial) trivial rfl rfl (by simp))
  | endHandle hphase =>
    exact .go (by simp [hphase]) (by simp) (by simp) rfl rfl rfl rfl (by simp) (.endHandle hphase rfl rfl)
  | ended hphase hnone =>
    exact .go (by simp [hphase]) (by simp) (by simp) rfl rfl rfl rfl (by simp) (.dropped hphase hnone rfl rfl rfl)
  | replaced hphase hsome =>
    exact .go (by simp [hphase]) (by simp [install]) (by simp [install]) rfl rfl rfl rfl (by simp)
      (.replaced hphase hsome rfl rfl)
  | addHandle hphase =>
    exact .go (by simp [hphase]) (by simp) (by simp) rfl rfl rfl rfl (by simp) (.addHandle hphase rfl rfl)
  | store hphase =>
    exact .go (by simp [hphase]) (by simp) (by simp) rfl rfl rfl rfl (by simp) (.stored hphase trivial rfl rfl)
  | turnAround hphase | endReads hphase | pass hphase | found hphase | token hphase =>
    exact .go (by simp [hphase]) (by simp) (by simp) rfl rfl rfl rfl (by simp)
      (.plain (hplain hphase trivial) trivial rfl rfl (by simp))
  | read hphase =>
    exact .go (by simp [hphase]) (by simp [hphase]) (by simp [hphase]) rfl rfl rfl rfl (by simp)
      (.plain (hplain hphase trivial) (hplain hphase trivial) rfl rfl (by simp))

theorem moves_acts (hu : s.sups.get r = some u) (hacts : Acts s r u reqs s') :
    Moves s s' [] (reqs.map fun req => (r, req)) := by
  obtain ⟨rfl, rfl, _⟩ | ⟨u', o, hact, rfl⟩ := hacts
  · exact .aside rfl rfl rfl (fun _ _ _ h => h) rfl rfl rfl
  cases hleft : o.left with
  | none =>
    refine .turn r u u' reqs _ hu (hact.turn hleft) ⟨rfl, ?_, rfl, rfl, rfl, map_append, fun hclosed => ?_⟩ rfl rfl
    · simp [turned, hleft]
    · simp [turned, hact.admitted_eq hclosed]
  | some id =>
    cases hact with
    | exit hphase hreqs hinbox hconn =>
      exact .exit r u hu hphase hreqs hinbox hconn rfl rfl rfl rfl rfl rfl rfl
    | _ => cases hleft

theorem runs_acts (hu : s.sups.get r = some u) (hacts : Acts s r u reqs s') :
    s.runs (.work r) = reqs.map fun req => (r, req) := by
  obtain ⟨rfl, rfl, hphase | hphase⟩ | ⟨u', o, hact, rfl⟩ := hacts
  · simp [runs, hu, hphase]
  · simp [runs, hu, hphase]
  obtain ⟨rfl, hreqs⟩ | ⟨req, rest, rfl, hphase, hreqs⟩ := hact.took
  · simp only [runs, hu]
    split
    · rename_i hphase hcons
      rw [hreqs hphase] at hcons
      cases hcons
    · rfl
  · simp [runs, hu, hphase, hreqs]

end Sup

/-! ### All steps -/

section All

variable {s : StackState}

/-- `post`, by a goroutine that has first written a field of its own. -/
theorem moves_post (s₀ s : StackState) (hsups : s.sups = s₀.sups) (hpeers : s.peers = s₀.peers)
    (hclosed : s.closed = s₀.closed) (hsignals : s.signals = s₀.signals) (hID : s.nextID = s₀.nextID) (r : SupRef)
    (req : Request) (dropped : StackState → StackState) (hdropped : Moves s₀ (dropped s) [] []) :
    Moves s₀ (s.post r req dropped) (if s₀.serves r then [(r, req)] else []) [] := by
  unfold post serves
  rw [← hsups, ← hpeers]
  cases hu : s.sups.get r with
  | none => exact .aside hsups hpeers hclosed (fun _ _ _ h => hsignals ▸ h) hID rfl rfl
  | some u =>
    rw [any_some]
    dsimp only
    by_cases hlive : s.peers.get u.id = some r
    · rw [if_pos (decide_eq_true hlive), if_pos hlive]
      refine .append r u req (hsups ▸ hu) (hpeers ▸ hlive) ?_ hpeers hclosed ?_ hID rfl rfl
      · show s.sups.set r _ = s₀.sups.set r _
        rw [hsups]
      · show s.signals ++ [r] = s₀.signals ++ [r]
        rw [hsignals]
    · rw [if_neg fun h => hlive (of_decide_eq_true h), if_neg hlive]
      exact hdropped

theorem moves_attach (h : Inv s) (v : View) : Moves s (s.attach v) (s.posts (.attach v)) [] := by
  unfold attach
  simp only [posts]
  by_cases hclosed : s.closed = true
  · rw [if_pos hclosed, if_pos hclosed]
    exact .aside rfl rfl rfl (fun _ _ _ h => h) rfl rfl rfl
  rw [if_neg hclosed, if_neg hclosed]
  cases hr : s.peers.get v.peer with
  | none => exact .start v.peer (.attach s.nextView) hr (Bool.eq_false_iff.mpr hclosed) rfl rfl rfl rfl rfl rfl rfl
  | some r =>
    obtain ⟨u, hu, hid, _⟩ := h.table v.peer r hr
    simp only [hu]
    exact .append r u (.attach s.nextView) hu (hid ▸ hr) rfl rfl rfl rfl rfl rfl rfl

theorem moves_disconnect (h : Inv s) (id : PeerID) : Moves s (s.disconnect id) (s.posts (.disconnect id)) [] := by
  simp only [posts]
  obtain ⟨dials, _, ⟨heq, hnone⟩ | ⟨r, u, hr, hu, heq⟩⟩ := s.disconnect_cases id
  · rw [heq]
    cases hr : s.peers.get id with
    | none => exact .aside rfl rfl rfl (fun _ _ _ h => h) rfl rfl rfl
    | some r =>
      obtain ⟨u, hu, _⟩ := h.table id r hr
      rw [hnone r hr] at hu
      cases hu
  · obtain ⟨u', hu', hid, _⟩ := h.table id r hr
    cases hu.symm.trans hu'
    rw [heq, hr]
    exact .append r u (.dropView .closing true (some s.nextDone)) hu (hid ▸ hr) rfl rfl rfl rfl rfl rfl rfl

theorem moves_step (h : Inv s) (op : StackOp) : Moves s (s.step op) (s.posts op) (s.runs op) := by
  have hsame : Moves s s [] [] := .aside rfl rfl rfl (fun _ _ _ h => h) rfl rfl rfl
  cases op with
  | attach v => exact moves_attach h v
  | disconnect id => exact moves_disconnect h id
  | close =>
    simp only [step, StackState.close, posts]
    by_cases hclosed : s.closed = true
    · rw [if_pos hclosed, if_pos hclosed]
      exact hsame
    · rw [if_neg hclosed, if_neg hclosed]
      exact .close (Bool.eq_false_iff.mpr hclosed) rfl rfl rfl rfl rfl rfl rfl
  | dial id d | next c => exact .aside rfl rfl rfl (fun _ _ _ h => h) rfl rfl rfl
  | signal r =>
    simp only [step, withSup]
    split
    · split
      · rename_i hnone
        refine .aside rfl rfl rfl (fun r' u hu hr' => ?_) rfl rfl rfl
        have hne : r' ≠ r := by
          rintro rfl
          rw [hnone] at hu
          cases hu
        exact (mem_erase_of_ne hne).mpr hr'
      · rename_i u hu
        exact .signal r u hu rfl rfl rfl rfl rfl rfl rfl
    · exact hsame
  | select r case => exact step_select (P := (Moves s · [] [])) hsame r case moves_acts
  | work r =>
    simp only [step, withSup]
    split
    · rename_i hnone
      have hruns : s.runs (.work r) = [] := by simp only [runs, hnone]
      rw [hruns]
      exact hsame
    rename_i u hu
    obtain ⟨reqs, hacts⟩ := acts_work s r u
    rw [runs_acts hu hacts]
    exact moves_acts hu hacts
  | closeHandle k code =>
    simp only [step, closeHandle]
    split <;> exact .aside rfl rfl rfl (fun _ _ _ h => h) rfl rfl rfl
  | postClosed r =>
    simp only [step, posts]
    by_cases hr : r ∈ s.closings
    · rw [if_pos hr]
      have hposts : (if r ∈ s.closings ∧ s.serves r = true then [(r, Request.handleClosed)] else []) =
          if s.serves r then [(r, Request.handleClosed)] else [] := by
        simp only [hr, true_and]
      rw [hposts]
      exact moves_post s { s with closings := s.closings.erase r } rfl rfl rfl rfl rfl r .handleClosed id
        (.aside rfl rfl rfl (fun _ _ _ h => h) rfl rfl rfl)
    · rw [if_neg hr, if_neg fun hboth => hr hboth.1]
      exact hsame
  | arrive ref d =>
    simp only [step, withView]
    split <;> exact .aside rfl rfl rfl (fun _ _ _ h => h) rfl rfl rfl
  | connDone ref code =>
    simp only [step, withView]
    split
    · exact hsame
    · exact .aside rfl rfl rfl (fun _ _ _ h => h) rfl rfl rfl
  | headerDone i sel =>
    simp only [step, posts]
    cases hread : s.headerReads[i]? with
    | none => exact hsame
    | some read =>
      exact moves_post s { s with headerReads := s.headerReads.eraseIdx i } rfl rfl rfl rfl rfl read.sup
        (.headerRead read.view read.dir read.stream sel) _ (.aside rfl rfl rfl (fun _ _ _ h => h) rfl rfl rfl)
  | goAwayDone i result =>
    simp only [step, posts]
    cases hread : s.goAwayReads[i]? with
    | none => exact hsame
    | some read =>
      cases result with
      | none => exact .aside rfl rfl rfl (fun _ _ _ h => h) rfl rfl rfl
      | some result =>
        exact moves_post s { s with goAwayReads := s.goAwayReads.eraseIdx i } rfl rfl rfl rfl rfl read.1
          (.goAwayRead read.2 result.1 result.2) id (.aside rfl rfl rfl (fun _ _ _ h => h) rfl rfl rfl)

end All

/-! ## The invariant -/

section Invariant

variable {s : StackState} {r : SupRef} {u u' : Supervisor}

/-- What holds of each supervisor. -/
structure SupInv (s : StackState) (r : SupRef) (u : Supervisor) : Prop where
  /-- Nothing is left of what was drained when the supervisor waits, is woken or has exited. -/
  drained : u.phase = .select ∨ u.phase = .woken ∨ u.phase = .exited → u.reqs = []
  left : u.phase = .exited → u.inbox = []
  /-- A wake-up is on its way to requests that wait. -/
  awake : u.inbox ≠ [] → u.wake = true ∨ r ∈ s.signals ∨ u.phase = .woken
  paired : u.Paired
  /-- After `Close` a view is there only while a request to drop it waits. -/
  closing : s.closed = true → u.Holds → ∃ code goAway done, .dropView code goAway done ∈ u.pending

def RequestInv (s : StackState) : Prop := ∀ r u, s.sups.get r = some u → SupInv s r u

variable {s' : StackState}

theorem SupInv.congr (h : SupInv s r u) (hclosed : s'.closed = s.closed)
    (hsignals : r ∈ s.signals → r ∈ s'.signals) : SupInv s' r u :=
  ⟨h.drained, h.left, fun hne => (h.awake hne).imp_right (.imp_left hsignals), h.paired, hclosed ▸ h.closing⟩

theorem SupInv.turn (h : SupInv s r u) (hshape : u.Shape) {reqs : List Request} {gone : List ViewRef}
    (hturn : Turn s u u' reqs gone) (hclosed : s'.closed = s.closed) (hsignals : s'.signals = s.signals) : SupInv s' r u' := by
  cases hturn with
  | wake hphase =>
    refine ⟨fun _ => h.drained (.inl hphase), nofun, fun _ => .inr (.inr rfl), ?_, ?_⟩
    · exact fun _ => h.paired (.inl (by rw [hphase]; trivial))
    rw [hclosed]
    rintro hc (hholds | hholds)
    · exact h.closing hc (.inl hholds)
    · exact absurd rfl hholds
  | fetch hphase =>
    have hreqs : u.reqs = [] := h.drained (.inr (.inl hphase))
    refine ⟨?_, nofun, fun hne => absurd rfl hne, ?_, ?_⟩
    · rintro (hp | hp | hp) <;> cases hp
    · exact fun _ => h.paired (.inl (by rw [hphase]; trivial))
    rw [hclosed]
    rintro hc (hholds | hholds)
    · obtain ⟨code, goAway, done, hmem⟩ := h.closing hc (.inl hholds)
      unfold pending at hmem ⊢
      rw [hreqs, nil_append] at hmem
      exact ⟨code, goAway, done, mem_append_left _ hmem⟩
    · exact absurd rfl hholds
  | go hphase hphase' hselect hid hinbox hwake hreqs hdrop hshift =>
    have hlive : u'.phase ≠ .exited := hshift.ne_exited
    refine ⟨?_, fun hp => absurd hp hlive, ?_, hshift.paired hshape h.paired, ?_⟩
    · rintro (hp | hp | hp)
      · exact hselect hp
      · exact absurd hp hphase'
      · exact absurd hp hlive
    · rw [hinbox, hwake, hsignals]
      intro hne
      rcases h.awake hne with hw | hsig | hp
      · exact .inl hw
      · exact .inr (.inl hsig)
      · exact absurd hp hphase
    · rw [hclosed]
      intro hc hholds
      obtain ⟨code, goAway, done, hmem⟩ := h.closing hc (hshift.holds hc hholds)
      unfold pending at hmem ⊢
      rw [hreqs, append_assoc] at hmem
      rcases mem_append.mp hmem with hmem | hmem
      · exact absurd hholds (hdrop code goAway done hmem)
      · rw [hinbox]
        exact ⟨code, goAway, done, hmem⟩

/-- A request is appended. -/
theorem SupInv.append (h : SupInv s r u) (hlive : u.phase ≠ .exited) (req : Request) (hsignal : r ∈ s'.signals)
    (hclosing : s'.closed = true → s.closed = true ∨ ∃ code goAway done, req = .dropView code goAway done) :
    SupInv s' r { u with inbox := u.inbox ++ [req] } := by
  refine ⟨h.drained, fun hp => absurd hp hlive, fun _ => .inr (.inl hsignal), h.paired, fun hc hholds => ?_⟩
  rcases hclosing hc with hc | ⟨code, goAway, done, rfl⟩
  · obtain ⟨code, goAway, done, hmem⟩ := h.closing hc hholds
    refine ⟨code, goAway, done, ?_⟩
    show _ ∈ u.reqs ++ (u.inbox ++ [req])
    rw [← append_assoc]
    exact mem_append_left _ hmem
  · refine ⟨code, goAway, done, ?_⟩
    show _ ∈ u.reqs ++ (u.inbox ++ [_])
    exact mem_append_right _ (mem_append_right _ (mem_singleton.mpr rfl))

/-- A supervisor after the one at `r` was replaced by `u'`. -/
theorem requestInv_set (h : RequestInv s) (hsups : s'.sups = s.sups.set r u')
    (hself : SupInv s' r u') (hother : ∀ r' u, r' ≠ r → SupInv s r' u → SupInv s' r' u) : RequestInv s' := by
  intro r' v hv
  rw [hsups, Map.get_set] at hv
  split at hv
  · rename_i hr
    cases hv
    rw [hr]
    exact hself
  · rename_i hr
    exact hother r' v hr (h r' v hv)

theorem requestInv_step (hinv : Inv s) (h : RequestInv s) (op : StackOp) : RequestInv (s.step op) := by
  have hexited : ∀ r u, s.sups.get r = some u → s.peers.get u.id = some r → u.phase ≠ .exited := by
    intro r u hu hlive
    obtain ⟨v, hv, _, hne⟩ := hinv.table u.id r hlive
    rw [hu] at hv
    cases hv
    exact hne
  cases moves_step hinv op with
  | aside hsups hpeers hclosed hsignals hID hins houts =>
    intro r u hu
    rw [hsups] at hu
    exact (h r u hu).congr hclosed (hsignals r u hu)
  | turn r u u' reqs gone hu hturn hframe hins houts =>
    refine requestInv_set h hframe.sups ?_ fun r' v _ hv => ?_
    · exact (h r u hu).turn (hinv.shape r u hu) hturn hframe.closed hframe.signals
    · exact hv.congr hframe.closed fun hr => hframe.signals ▸ hr
  | exit r u hu hphase hreqs hinbox hconn hsups hpeers hclosed hsignals hID hins houts =>
    refine requestInv_set h hsups ?_ fun r' v _ hv => hv.congr hclosed fun hr => hsignals ▸ hr
    refine ⟨fun _ => hreqs, fun _ => hinbox, fun hne => absurd hinbox hne, fun _ => ?_, ?_⟩
    · exact (h r u hu).paired (.inl (by rw [hphase]; trivial))
    rintro _ (hholds | hholds)
    · exact absurd hconn hholds
    · exact absurd rfl hholds
  | append r u req hu hlive hsups hpeers hclosed hsignals hID hins houts =>
    refine requestInv_set h hsups ?_ fun r' v _ hv => hv.congr hclosed fun hr => ?_
    · refine (h r u hu).append (hexited r u hu hlive) req ?_ fun hc => .inl (hclosed ▸ hc)
      rw [hsignals]
      exact mem_append_right _ (mem_singleton.mpr rfl)
    · rw [hsignals]
      exact mem_append_left _ hr
  | start id req hnone hopen hsups hpeers hclosed hsignals hID hins houts =>
    refine requestInv_set h hsups ?_ fun r' v _ hv => hv.congr hclosed fun hr => ?_
    · refine ⟨fun _ => rfl, nofun, fun _ => .inr (.inl ?_), fun _ => rfl, fun hc => ?_⟩
      · rw [hsignals]
        exact mem_append_right _ (mem_singleton.mpr rfl)
      · rw [hclosed, hopen] at hc
        cases hc
    · rw [hsignals]
      exact mem_append_left _ hr
  | close hopen hclosed hsups hpeers hsignals hID hins houts =>
    intro r v hv
    rw [hsups, Map.get_mapVals] at hv
    obtain ⟨u, hu, rfl⟩ := map_eq_some_iff.mp hv
    split
    · rename_i hlive
      refine (h r u hu).append (hexited r u hu hlive) _ ?_ fun _ => .inr ⟨_, _, _, rfl⟩
      rw [hsignals]
      refine mem_append_right _ ?_
      exact mem_map.mpr ⟨(u.id, r), Map.mem_entries.mpr hlive, rfl⟩
    -- a supervisor that is not in the table has exited
    rename_i hgone
    have hexit : u.phase = .exited := by
      by_contra hne
      exact hgone (hinv.live r u hu hne)
    have hold := h r u hu
    refine ⟨hold.drained, hold.left, fun hne => absurd (hold.left hexit) hne, hold.paired, ?_⟩
    rintro _ (hholds | hholds)
    · exact absurd ((hinv.shape r u hu).exited hexit) hholds
    · rw [hexit] at hholds
      exact absurd rfl hholds
  | signal r u hu hsups hpeers hclosed hsignals hID hins houts =>
    refine requestInv_set h hsups ?_ fun r' v hr' hv => hv.congr hclosed fun hr => ?_
    · have hold := h r u hu
      exact ⟨hold.drained, hold.left, fun _ => .inl rfl, hold.paired, hclosed ▸ hold.closing⟩
    · rw [hsignals]
      exact (mem_erase_of_ne hr').mpr hr

/-! ## The queue of a supervisor -/

/-- The requests that wait for a supervisor. -/
def pendingFor (s : StackState) (r : SupRef) : List Request := ((s.sups.get r).map (·.pending)).getD []

theorem pendingFor_set (hsups : s'.sups = s.sups.set r u') (r' : SupRef) :
    s'.pendingFor r' = if r' = r then u'.pending else s.pendingFor r' := by
  unfold pendingFor
  rw [hsups, Map.get_set]
  split <;> rfl

theorem pendingFor_of_get (hu : s.sups.get r = some u) : s.pendingFor r = u.pending := by
  unfold pendingFor
  rw [hu]
  rfl

/-- **One step of the queue**: what waits and what is appended is what runs and what waits then. -/
theorem pending_step (hinv : Inv s) (h : RequestInv s) (op : StackOp) (r : SupRef) :
    s.pendingFor r ++ logOf r (s.posts op) = logOf r (s.runs op) ++ (s.step op).pendingFor r := by
  cases moves_step hinv op with
  | aside hsups hpeers hclosed hsignals hID hins houts =>
    rw [hins, houts]
    unfold pendingFor
    rw [hsups, logOf_nil, append_nil, nil_append]
  | turn r' u u' reqs gone hu hturn hframe hins houts =>
    rw [hins, houts, logOf_nil, append_nil, logOf_map_pair, pendingFor_set hframe.sups]
    by_cases hr : r = r'
    · subst hr
      rw [if_pos rfl, if_pos rfl, pendingFor_of_get hu]
      exact hturn.queue fun hphase => (h r u hu).drained (.inr (.inl hphase))
    · rw [if_neg (Ne.symm hr), if_neg hr, nil_append]
  | exit r' u hu hphase hreqs hinbox hconn hsups hpeers hclosed hsignals hID hins houts
  | signal r' u hu hsups hpeers hclosed hsignals hID hins houts =>
    rw [hins, houts, logOf_nil, append_nil, nil_append, pendingFor_set hsups]
    by_cases hr : r = r'
    · subst hr
      rw [if_pos rfl, pendingFor_of_get hu]
      rfl
    · rw [if_neg hr]
  | append r' u req hu hlive hsups hpeers hclosed hsignals hID hins houts =>
    rw [hins, houts, logOf_nil, nil_append, logOf_singleton, pendingFor_set hsups]
    by_cases hr : r = r'
    · subst hr
      rw [if_pos rfl, if_pos rfl, pendingFor_of_get hu]
      unfold pending
      rw [append_assoc]
    · rw [if_neg (Ne.symm hr), if_neg hr, append_nil]
  | start id req hnone hopen hsups hpeers hclosed hsignals hID hins houts =>
    rw [hins, houts, logOf_nil, nil_append, logOf_singleton, pendingFor_set hsups]
    by_cases hr : r = s.nextSup
    · subst hr
      rw [if_pos rfl, if_pos rfl]
      unfold pendingFor
      rw [hinv.fresh _ le_rfl]
      rfl
    · rw [if_neg (Ne.symm hr), if_neg hr, append_nil]
  | close hopen hclosed hsups hpeers hsignals hID hins houts =>
    rw [hins, houts, logOf_nil, nil_append]
    unfold pendingFor
    rw [hsups, Map.get_mapVals]
    cases hu : s.sups.get r with
    | none =>
      have hnot : ∀ k, s.peers.get k = some r → k = "" := by
        intro k hk
        obtain ⟨u, hu', _⟩ := hinv.table k r hk
        rw [hu] at hu'
        cases hu'
      rw [logOf_entries hnot, if_neg fun hk => ?_]
      · rfl
      obtain ⟨u, hu', _⟩ := hinv.table _ r hk
      rw [hu] at hu'
      cases hu'
    | some u =>
      have hkey : ∀ k, s.peers.get k = some r → k = u.id := by
        intro k hk
        obtain ⟨u', hu', hid, _⟩ := hinv.table k r hk
        rw [hu] at hu'
        cases hu'
        exact hid.symm
      rw [logOf_entries hkey, map_some, map_some]
      by_cases hlive : s.peers.get u.id = some r
      · rw [if_pos hlive, if_pos hlive]
        show u.reqs ++ u.inbox ++ _ = u.reqs ++ (u.inbox ++ _)
        rw [append_assoc]
      · rw [if_neg hlive, if_neg hlive, append_nil]
        rfl

theorem requestInv_init (self : PeerID) (registry : Registry) : RequestInv (init self registry) :=
  fun _ _ hu => nomatch hu

theorem requestInv_run (self : PeerID) (registry : Registry) (ops : List StackOp) :
    Inv (exec step (init self registry) ops) ∧ RequestInv (exec step (init self registry) ops) :=
  exec_invariant (I := fun s => Inv s ∧ RequestInv s) step
    (fun _ op h => ⟨inv_step h.1 op, requestInv_step h.1 h.2 op⟩)
    ⟨inv_init self registry, requestInv_init self registry⟩ ops

/-- A supervisor that holds a view is in the table. -/
theorem live_of_holds (hinv : Inv s) (hu : s.sups.get r = some u) (hholds : u.Holds) : s.peers.get u.id = some r := by
  refine hinv.live r u hu fun hexit => ?_
  rcases hholds with h | h
  · exact h ((hinv.shape r u hu).exited hexit)
  · rw [hexit] at h
    exact h rfl

/-- A supervisor leaves the table with nothing to run and without a view. -/
theorem left_table (hinv : Inv s) (h : RequestInv s) (op : StackOp) {id : PeerID} (hr : s.peers.get id = some r)
    (hgone : (s.step op).peers.get id ≠ some r) :
    ∃ u, s.sups.get r = some u ∧ u.pending = [] ∧ u.conn = none ∧ u.info = none := by
  cases moves_step hinv op with
  | aside hsups hpeers _ _ _ _ _ => exact absurd (hpeers ▸ hr) hgone
  | turn _ _ _ _ _ _ _ hframe _ _ => exact absurd (hframe.peers ▸ hr) hgone
  | append _ _ _ _ _ _ hpeers _ _ _ _ _ | close _ _ _ hpeers _ _ _ _ | signal _ _ _ _ hpeers _ _ _ _ _ => exact absurd (hpeers ▸ hr) hgone
  | start id' _ hnone _ _ hpeers _ _ _ _ _ =>
    refine absurd ?_ hgone
    have hne : id ≠ id' := by
      rintro rfl
      rw [hnone] at hr
      cases hr
    rw [hpeers, Map.get_set, if_neg hne]
    exact hr
  | exit r' u hu hphase hreqs hinbox hconn _ hpeers _ _ _ _ _ =>
    have hid : id = u.id := by
      by_contra hne
      rw [hpeers, Map.get_del, if_neg hne] at hgone
      exact hgone hr
    have hsame : r = r' := by
      have hlive := hinv.live r' u hu (by rw [hphase]; nofun)
      rw [← hid, hr] at hlive
      exact some.inj hlive
    subst hsame
    refine ⟨u, hu, ?_, hconn, ?_⟩
    · unfold pending
      rw [hreqs, hinbox, append_nil]
    have hpaired := (h r u hu).paired (.inl (by rw [hphase]; trivial))
    rw [hconn] at hpaired
    exact not_isSome_iff_eq_none.mp (by rw [hpaired]; nofun)

/-- Once the stack is closed it stays so, and no view is admitted. -/
theorem closed_step (hinv : Inv s) (hclosed : s.closed = true) (op : StackOp) :
    (s.step op).closed = true ∧ (s.step op).nextID = s.nextID ∧
      ∀ r u' v, (s.step op).sups.get r = some u' → u'.conn = some v → ∃ u, s.sups.get r = some u ∧
        (u.conn = some v ∨ ∃ a, u.phase.admitting = some a ∧ a.view = v) := by
  -- a supervisor that is as before, but for its queue
  have hset : ∀ {r : SupRef} {u u' : Supervisor}, s.sups.get r = some u → (s.step op).sups = s.sups.set r u' →
      (∀ v, u'.conn = some v → u.conn = some v ∨ ∃ a, u.phase.admitting = some a ∧ a.view = v) → ∀ r' w v, (s.step op).sups.get r' = some w → w.conn = some v →
        ∃ u, s.sups.get r' = some u ∧ (u.conn = some v ∨ ∃ a, u.phase.admitting = some a ∧ a.view = v) := by
    intro r u u' hu hsups hconn r' w v hw hv
    rw [hsups, Map.get_set] at hw
    split at hw
    · rename_i hr
      cases hw
      exact ⟨u, hr ▸ hu, hconn v hv⟩
    · exact ⟨w, hw, .inl hv⟩
  cases moves_step hinv op with
  | aside hsups _ hcl _ hID _ _ =>
    refine ⟨hcl.trans hclosed, hID, fun r u' v hu' hv => ⟨u', hsups ▸ hu', .inl hv⟩⟩
  | turn r u u' reqs gone hu hturn hframe _ _ =>
    refine ⟨hframe.closed.trans hclosed, hframe.nextID hclosed, hset hu hframe.sups fun v hv => ?_⟩
    cases hturn with
    | wake _ => exact .inl hv
    | fetch _ => exact .inl hv
    | go _ _ _ _ _ _ _ _ hshift => exact hshift.conn hclosed hv
  | exit r u hu _ _ _ _ hsups _ hcl _ hID _ _ | append r u req hu _ hsups _ hcl _ hID _ _ =>
    exact ⟨hcl.trans hclosed, hID, hset hu hsups fun v hv => .inl hv⟩
  | start _ _ _ hopen _ _ _ _ _ _ _ | close hopen _ _ _ _ _ _ _ =>
    rw [hopen] at hclosed
    cases hclosed
  | signal r u hu hsups _ hcl _ hID _ _ =>
    exact ⟨hcl.trans hclosed, hID, hset hu hsups fun v hv => .inl hv⟩

/-- **The requests to supervisors, and their views**, in every interleaving of the stack's methods, `post`,
signals, supervisors, handles and consumers.

* What was appended to an inbox, in order, is what the supervisor has begun to run, in order, and what still
  waits.  A supervisor for which requests wait is in the table, and if it waits in its select, a wake-up is there
  or on its way.
* A supervisor leaves the table with no request waiting and without a view, so no two supervisors of one peer
  have a view.
* Between requests the info is there exactly if the view is.
* After `Close` no view is admitted, and a supervisor for which no request waits has no view. -/
theorem requests_run_once (self : PeerID) (registry : Registry) (ops : List StackOp) :
    let s := exec step (init self registry) ops
    (∀ r, trace step (fun s op => logOf r (s.posts op)) (init self registry) ops =
      trace step (fun s op => logOf r (s.runs op)) (init self registry) ops ++ s.pendingFor r) ∧
    (∀ r u, s.sups.get r = some u → u.pending ≠ [] → s.peers.get u.id = some r ∧
      (u.phase = .select → u.wake = true ∨ r ∈ s.signals)) ∧
    (∀ op id r, s.peers.get id = some r → (s.step op).peers.get id ≠ some r →
      ∃ u, s.sups.get r = some u ∧ u.pending = [] ∧ u.conn = none ∧ u.info = none) ∧
    (∀ r r' u u', s.sups.get r = some u → s.sups.get r' = some u' → u.id = u'.id → u.Holds → u'.Holds → r = r') ∧
    (∀ r u, s.sups.get r = some u → u.phase.between = true → u.info.isSome = u.conn.isSome) ∧
    (s.closed = true →
      (∀ op, (s.step op).closed = true ∧ (s.step op).nextID = s.nextID ∧
        ∀ r u' v, (s.step op).sups.get r = some u' → u'.conn = some v → ∃ u, s.sups.get r = some u ∧
          (u.conn = some v ∨ ∃ a, u.phase.admitting = some a ∧ a.view = v)) ∧
      ∀ r u, s.sups.get r = some u → u.pending = [] → ¬ u.Holds) := by
  intro s
  obtain ⟨hinv, h⟩ : Inv s ∧ RequestInv s := requestInv_run self registry ops
  refine ⟨fun r => ?_, fun r u hu hne => ?_, fun op id r hr hgone => left_table hinv h op hr hgone,
    fun r r' u u' hu hu' hid hholds hholds' => ?_, fun r u hu hbetween => ?_, fun hclosed => ⟨?_, ?_⟩⟩
  · have hfifo : [] ++ trace step (fun s op => logOf r (s.posts op)) (init self registry) ops =
        trace step (fun s op => logOf r (s.runs op)) (init self registry) ops ++ s.pendingFor r :=
      trace_fifo (I := fun s => Inv s ∧ RequestInv s) (fun s => s.pendingFor r)
        (fun _ op h => ⟨inv_step h.1 op, requestInv_step h.1 h.2 op⟩) (fun _ op h => pending_step h.1 h.2 op r)
        ⟨inv_init self registry, requestInv_init self registry⟩ ops
    exact hfifo
  · have hold := h r u hu
    have hlive : u.phase ≠ .exited := by
      intro hexit
      refine hne ?_
      unfold pending
      rw [hold.drained (.inr (.inr hexit)), hold.left hexit]
      rfl
    refine ⟨hinv.live r u hu hlive, fun hselect => ?_⟩
    have hinbox : u.inbox ≠ [] := by
      intro hnil
      refine hne ?_
      unfold pending
      rw [hold.drained (.inl hselect), hnil]
      rfl
    rcases hold.awake hinbox with hw | hsig | hwoken
    · exact .inl hw
    · exact .inr hsig
    · rw [hselect] at hwoken
      cases hwoken
  · have hlive := live_of_holds hinv hu hholds
    have hlive' := live_of_holds hinv hu' hholds'
    rw [← hid, hlive] at hlive'
    exact some.inj hlive'
  · refine (h r u hu).paired ?_
    cases hphase : u.phase with
    | select | woken | draining => exact .inl trivial
    | exited => exact .inr rfl
    | dropping hs d | adding a cs hs | reading d attached | checking hs => rw [hphase] at hbetween; cases hbetween
  · exact fun op => closed_step hinv hclosed op
  · intro r u hu hpending hholds
    obtain ⟨code, goAway, done, hmem⟩ := (h r u hu).closing hclosed hholds
    rw [hpending] at hmem
    exact absurd hmem not_mem_nil

end Invariant

/-- The stack is closed after a view was admitted and while its handle is made; the supervisor runs on until
nothing waits. -/
def closedEarly : List StackOp :=
  [.attach viewOfQ, .signal 0, .select 0 .wake, .work 0, .work 0, .close, .attach viewOfQ, .work 0, .work 0, .work 0,
    .work 0, .work 0, .signal 0, .select 0 .wake, .work 0, .work 0]

theorem requests_run_once_closed :
    let s := exec step (init "p" oneFamily) closedEarly
    trace step (fun s op => logOf 0 (s.runs op)) (init "p" oneFamily) closedEarly =
        [.attach 0, .dropView .closing true none] ∧
      ∀ u, s.sups.get 0 = some u → ¬ u.Holds := by
  intro s
  obtain ⟨hfifo, _, _, _, _, hclosing⟩ := requests_run_once "p" oneFamily closedEarly
  have hposts : trace step (fun s op => logOf 0 (s.posts op)) (init "p" oneFamily) closedEarly =
      [.attach 0, .dropView .closing true none] := by decide +kernel
  have hpending : s.pendingFor 0 = [] := by decide +kernel
  have hclosed : s.closed = true := by decide +kernel
  refine ⟨?_, fun u hu => (hclosing hclosed).2 0 u hu ?_⟩
  · have hall := hfifo 0
    rw [hposts, hpending, append_nil] at hall
    exact hall.symm
  · rw [← pendingFor_of_get hu]
    exact hpending

end StackState

end EthP2P.Stack
