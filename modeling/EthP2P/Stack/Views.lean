/-
# EthP2P.Stack.Views — where a supervisor has its views, and what it has told

A supervisor has up to two views in hand: its present one, which it may be dropping, and the one whose
attach it has begun.  `Hold` is that part of its state, and `Carry` says what one of its steps does to
it: which request begins to run, which attach has got its result, which waiting `Disconnect` has been
answered and which views have been handed to be released.  Everything about the fate of single views is
read off `passes_step`.
-/
import EthP2P.Stack.Requests

namespace EthP2P.Stack

open Lib Wire Phase

/-! ## Views in hand -/

/-- The view whose attach has begun and has not got its result. -/
def Phase.attached : Phase → Option ViewRef
  | .dropping _ drop => drop.admission.map (·.view)
  | .adding a _ _ => some a.view
  | .reading _ attached => attached
  | _ => none

/-- The view that is being dropped, and who waits for that. -/
def Phase.dropped : Phase → Option (ViewRef × Option DoneRef)
  | .dropping _ drop => some (drop.view, drop.done)
  | _ => none

/-- The views a supervisor has in hand. -/
structure Hold where
  conn : Option ViewRef := none
  attached : Option ViewRef := none
  dropped : Option (ViewRef × Option DoneRef) := none
  deriving DecidableEq

/-- The view is the present one, or is being attached or dropped. -/
def Hold.Has (h : Hold) (v : ViewRef) : Prop :=
  h.conn = some v ∨ h.attached = some v ∨ ∃ done, h.dropped = some (v, done)

def Supervisor.hold (u : Supervisor) : Hold := ⟨u.conn, u.phase.attached, u.phase.dropped⟩

/-- What a step adds to the results of attaches, to the answered `Disconnect`s and to the views to be
released. -/
structure Deeds where
  results : List (ViewRef × Option AttachError) := []
  finished : List DoneRef := []
  released : List (ViewRef × Option DoneRef) := []

namespace StackState

def hold (s : StackState) (r : SupRef) : Hold := ((s.sups.get r).map Supervisor.hold).getD {}

/-- What one step of supervisor `u` does with its views. -/
inductive Carry (s : StackState) (u : Supervisor) : Hold → Hold → List Request → Deeds → Prop
  | keep {h : Hold} {reqs : List Request} (hreqs : ∀ req ∈ reqs, req.Other) : Carry s u h h reqs {}
  | refuse {conn : Option ViewRef} {ref : ViewRef} {v : View} {code : Code} {result : Option AttachError}
      (hview : s.views.get ref = some v) (hrejected : s.rejection u v = some (code, result)) :
      Carry s u ⟨conn, none, none⟩ ⟨conn, none, none⟩ [.attach ref]
        { results := [(ref, result)], released := [(ref, none)] }
  | lost {conn : Option ViewRef} {ref : ViewRef} (hview : s.views.get ref = none) :
      Carry s u ⟨conn, none, none⟩ ⟨conn, none, none⟩ [.attach ref] {}
  | enter {ref : ViewRef} {v : View} (hview : s.views.get ref = some v) (hpasses : s.rejection u v = none) :
      Carry s u ⟨none, none, none⟩ ⟨some ref, some ref, none⟩ [.attach ref] {}
  | displace {ref w : ViewRef} {v : View} (hview : s.views.get ref = some v)
      (hpasses : s.rejection u v = none) :
      Carry s u ⟨some w, none, none⟩ ⟨none, some ref, some (w, none)⟩ [.attach ref] {}
  /-- There is nothing to drop. -/
  | idle {code : Code} {goAway : Bool} {done : Option DoneRef} :
      Carry s u ⟨none, none, none⟩ ⟨none, none, none⟩ [.dropView code goAway done]
        { finished := done.toList }
  | drop {reqs : List Request} {w : ViewRef} {done : Option DoneRef}
      (hreqs : (∃ code goAway, reqs = [.dropView code goAway done]) ∨ done = none ∧ ∀ req ∈ reqs, req.Other) :
      Carry s u ⟨some w, none, none⟩ ⟨none, none, some (w, done)⟩ reqs {}
  | release {attached : Option ViewRef} {w : ViewRef} {done : Option DoneRef} :
      Carry s u ⟨none, attached, some (w, done)⟩ ⟨attached, attached, none⟩ []
        { released := [(w, done)] }
  | finish {conn : Option ViewRef} {v : ViewRef} :
      Carry s u ⟨conn, some v, none⟩ ⟨conn, none, none⟩ [] { results := [(v, none)] }

/-- The step did `d`. -/
structure Does (s s' : StackState) (d : Deeds) : Prop where
  results : s'.results = s.results ++ d.results
  finished : s'.finished = s.finished ++ d.finished
  released : s'.released.map (fun x => (x.view, x.done)) = s.released.map (fun x => (x.view, x.done)) ++ d.released

/-- What the supervisors' steps leave alone. -/
structure Keeps (s s' : StackState) : Prop where
  self : s'.self = s.self
  closed : s'.closed = s.closed
  dials : s'.dials = s.dials
  nextView : s'.nextView = s.nextView
  nextDone : s'.nextDone = s.nextDone
  views : ∀ ref v, s.views.get ref = some v → ∃ v', s'.views.get ref = some v' ∧ v'.outbound = v.outbound
  known : ∀ ref v, s'.views.get ref = some v → ∃ v, s.views.get ref = some v

/-- A step that is not one of the stack's own methods. -/
def StackOp.internal : StackOp → Bool
  | .attach _ | .disconnect _ | .close | .dial _ _ => false
  | _ => true

/-- **All that an internal step can do** to the views in hand. -/
inductive Passes (s s' : StackState) (outs : List (SupRef × Request)) : Prop
  | aside (hhold : ∀ r, s'.hold r = s.hold r) (hdoes : Does s s' {}) (hkeeps : Keeps s s') (houts : outs = [])
  | turn (r : SupRef) (u : Supervisor) (reqs : List Request) (d : Deeds) (hu : s.sups.get r = some u)
      (hother : ∀ r', r' ≠ r → s'.hold r' = s.hold r') (hcarry : Carry s u (s.hold r) (s'.hold r) reqs d)
      (hdoes : Does s s' d) (hkeeps : Keeps s s') (houts : outs = reqs.map fun req => (r, req))

section Hold

variable {s s' : StackState} {r : SupRef} {u u' : Supervisor}

theorem hold_of_get (hu : s.sups.get r = some u) : s.hold r = u.hold := by
  simp [hold, hu]

theorem hold_set (hsups : s'.sups = s.sups.set r u') (r' : SupRef) :
    s'.hold r' = if r' = r then u'.hold else s.hold r' := by
  simp only [hold, hsups, Map.get_set]
  split <;> rfl

/-- Nothing is told in the step. -/
theorem Does.none (hresults : s'.results = s.results) (hfinished : s'.finished = s.finished)
    (hreleased : s'.released = s.released) : Does s s' {} :=
  ⟨by simp [hresults], by simp [hfinished], by simp [hreleased]⟩

theorem Keeps.of_views (hself : s'.self = s.self) (hclosed : s'.closed = s.closed)
    (hdials : s'.dials = s.dials) (hnextView : s'.nextView = s.nextView)
    (hnextDone : s'.nextDone = s.nextDone) (hviews : s'.views = s.views) : Keeps s s' :=
  ⟨hself, hclosed, hdials, hnextView, hnextDone, fun _ v hv => ⟨v, hviews ▸ hv, rfl⟩, fun _ v hv => ⟨v, hviews ▸ hv⟩⟩

/-- One view changes, but for its direction. -/
theorem Keeps.of_view (hself : s'.self = s.self) (hclosed : s'.closed = s.closed)
    (hdials : s'.dials = s.dials) (hnextView : s'.nextView = s.nextView)
    (hnextDone : s'.nextDone = s.nextDone) {ref : ViewRef} {v v' : View} (hv : s.views.get ref = some v)
    (hviews : s'.views = s.views.set ref v') (hout : v'.outbound = v.outbound) : Keeps s s' := by
  refine ⟨hself, hclosed, hdials, hnextView, hnextDone, fun ref' w hw => ?_, fun ref' w hw => ?_⟩
  · rw [hviews, Map.get_set]
    by_cases hr : ref' = ref
    · subst hr
      cases hv.symm.trans hw
      exact ⟨v', if_pos rfl, hout⟩
    · exact ⟨w, (if_neg hr).trans hw, rfl⟩
  · rw [hviews, Map.get_set] at hw
    by_cases hr : ref' = ref
    · exact ⟨v, hr ▸ hv⟩
    · exact ⟨w, (if_neg hr).symm.trans hw⟩

theorem passes_same (s : StackState) : Passes s s [] :=
  .aside (fun _ => rfl) (.none rfl rfl rfl) (.of_views rfl rfl rfl rfl rfl rfl) rfl

end Hold

/-! ## The supervisor's steps -/

section Work

variable {s s' : StackState} {r : SupRef} {u u' : Supervisor} {reqs : List Request} {o : Out}

/-- A supervisor between requests has at most its present view in hand. -/
theorem hold_draining (hphase : u.phase = .draining) : u.hold = ⟨u.conn, none, none⟩ := by
  simp [Supervisor.hold, hphase, attached, dropped]

theorem Act.keeps (hact : Act s r u reqs u' o) : Keeps s (s.turned r u' o) := by
  cases hact with
  | read _ _ hview | token _ _ hview => exact .of_view rfl rfl rfl rfl rfl hview rfl rfl
  | _ => exact .of_views rfl rfl rfl rfl rfl rfl

/-- What an act does with the views is read off the phases before and after it. -/
theorem Act.carry (hshape : u.Shape) (hact : Act s r u reqs u' o) :
    Carry s u u.hold u'.hold reqs ⟨o.results, o.finished, o.released.map fun x => (x.view, x.done)⟩ := by
  have hkeep {w : Supervisor} {reqs : List Request} (hhold : w.hold = u.hold) (hreqs : ∀ req ∈ reqs, req.Other) :
      Carry s u u.hold w.hold reqs {} := by
    rw [hhold]
    exact .keep hreqs
  cases hact with
  | wake hphase | fetch hphase | rest hphase | exit hphase | endHandle hphase | addHandle hphase | store hphase
  | turnAround hphase | pass hphase | found hphase | token hphase =>
    exact hkeep (by simp [Supervisor.hold, hphase, attached, dropped]) (by simp)
  | read => exact hkeep rfl (by simp)
  | stale hphase _ hstale =>
    cases hstale with
    | attach hnone =>
      rw [hold_draining hphase]
      exact .lost hnone
    | goAway | header | closed => exact hkeep (hold_draining hphase).symm (by simp [Request.Other])
  | refuse hphase _ hview hrejected =>
    rw [hold_draining hphase]
    exact .refuse hview hrejected
  | enter hphase _ henters hconn =>
    obtain ⟨hview, hpasses, rfl, _⟩ := henters
    rw [hold_draining hphase, hconn]
    exact .enter hview hpasses
  | displace hphase _ henters hconn =>
    obtain ⟨hview, hpasses, rfl, _⟩ := henters
    rw [hold_draining hphase, hconn]
    exact .displace hview hpasses
  | noView hreqs _ hconn =>
    obtain ⟨hphase, code, goAway, rfl⟩ | ⟨hphase, rfl, rfl⟩ := hreqs
    · simp only [Supervisor.hold, hphase, hconn, attached, dropped]
      exact .idle
    · exact hkeep (by simp [Supervisor.hold, hphase, attached, dropped]) (by simp)
  | @drop _ _ v _ _ _ _ hphase _ hconn _ hdone =>
    have hhold : u.hold = ⟨some v, none, none⟩ := by
      obtain ⟨hphase, _⟩ | ⟨hphase | hphase, _⟩ := hphase
      all_goals simp [Supervisor.hold, hphase, hconn, attached, dropped]
    rw [hhold]
    exact .drop hdone
  | header hphase | push hphase | check hphase =>
    exact hkeep (by simp [Supervisor.hold, hphase, attached, dropped]) (by simp [Request.Other])
  | @ended drop hphase hnone =>
    have hconn := hshape.dropping _ _ hphase
    simp only [Supervisor.hold, hphase, hconn, hnone, attached, dropped]
    exact .release
  | @replaced drop a hphase hsome =>
    have hconn := hshape.dropping _ _ hphase
    simp only [Supervisor.hold, hphase, hconn, hsome, attached, dropped, Supervisor.install]
    exact .release
  | @endReads attached hphase =>
    cases attached with
    | none => exact hkeep (by simp [Supervisor.hold, hphase, attached, dropped]) (by simp)
    | some v =>
      simp only [Supervisor.hold, hphase, attached, dropped]
      exact .finish

theorem passes_acts (h : Inv s) (hu : s.sups.get r = some u) (hacts : Acts s r u reqs s') :
    Passes s s' (reqs.map fun req => (r, req)) := by
  obtain ⟨rfl, rfl, _⟩ | ⟨u', o, hact, rfl⟩ := hacts
  · exact passes_same s'
  have hdoes : Does s (s.turned r u' o) ⟨o.results, o.finished, o.released.map fun x => (x.view, x.done)⟩ :=
    ⟨rfl, rfl, List.map_append⟩
  have hsups : (s.turned r u' o).sups = s.sups.set r u' := rfl
  refine .turn r u reqs _ hu (fun r' hr' => ?_) ?_ hdoes hact.keeps rfl
  · rw [hold_set hsups, if_neg hr']
  · rw [hold_set hsups, if_pos rfl, hold_of_get hu]
    exact hact.carry (h.shape r u hu)

end Work

/-! ## All internal steps -/

section All

variable {s : StackState}

/-- A supervisor changes only what has nothing to do with its views. -/
theorem hold_set_same {s' : StackState} {r : SupRef} {u u' : Supervisor} (hu : s.sups.get r = some u)
    (hsups : s'.sups = s.sups.set r u') (hhold : u'.hold = u.hold) (r' : SupRef) : s'.hold r' = s.hold r' := by
  rw [hold_set hsups]
  split
  · rename_i hr
    rw [hr, hhold, hold_of_get hu]
  · rfl

theorem passes_post (s₀ s : StackState) (hsups : s.sups = s₀.sups) (hdoes : Does s₀ s {})
    (hkeeps : Keeps s₀ s) (r : SupRef) (req : Request) (dropped : StackState → StackState)
    (hdropped : Passes s₀ (dropped s) []) : Passes s₀ (s.post r req dropped) [] := by
  unfold post
  cases hu : s.sups.get r with
  | none =>
    refine .aside (fun r' => ?_) hdoes hkeeps rfl
    simp only [hold, hsups]
  | some u =>
    dsimp only
    split
    · refine .aside (fun r' => ?_) ⟨hdoes.results, hdoes.finished, hdoes.released⟩
        ⟨hkeeps.self, hkeeps.closed, hkeeps.dials, hkeeps.nextView, hkeeps.nextDone, hkeeps.views, hkeeps.known⟩ rfl
      have hset : (s.append r u req).sups = s₀.sups.set r { u with inbox := u.inbox ++ [req] } := by
        rw [← hsups]
        rfl
      have hu₀ : s₀.sups.get r = some u := hsups ▸ hu
      exact hold_set_same hu₀ hset rfl r'
    · exact hdropped

theorem passes_step (h : Inv s) {op : StackOp} (hop : op.internal = true) : Passes s (s.step op) (s.runs op) := by
  have haside : ∀ {s' : StackState}, s'.sups = s.sups → Does s s' {} → Keeps s s' → Passes s s' [] := by
    intro s' hsups hdoes hkeeps
    refine .aside (fun r => ?_) hdoes hkeeps rfl
    simp only [hold, hsups]
  cases op with
  | attach | disconnect | close | dial => cases hop
  | signal r =>
    simp only [step, withSup]
    split
    · split
      · exact haside rfl (.none rfl rfl rfl) (.of_views rfl rfl rfl rfl rfl rfl)
      · rename_i u hu
        exact .aside (hold_set_same hu rfl rfl) (.none rfl rfl rfl) (.of_views rfl rfl rfl rfl rfl rfl) rfl
    · exact passes_same s
  | select r case => exact step_select (P := (Passes s · [])) (passes_same s) r case (passes_acts h)
  | work r =>
    simp only [step, withSup]
    split
    · rename_i hnone
      have hruns : s.runs (.work r) = [] := by simp only [runs, hnone]
      rw [hruns]
      exact passes_same s
    rename_i u hu
    obtain ⟨reqs, hacts⟩ := acts_work s r u
    rw [runs_acts hu hacts]
    exact passes_acts h hu hacts
  | next c => exact haside rfl (.none rfl rfl rfl) (.of_views rfl rfl rfl rfl rfl rfl)
  | closeHandle k code =>
    simp only [step, closeHandle]
    split <;> exact haside rfl (.none rfl rfl rfl) (.of_views rfl rfl rfl rfl rfl rfl)
  | postClosed r =>
    simp only [step]
    split
    · exact passes_post s { s with closings := s.closings.erase r } rfl (.none rfl rfl rfl)
        (.of_views rfl rfl rfl rfl rfl rfl) r .handleClosed id (haside rfl (.none rfl rfl rfl) (.of_views rfl rfl rfl rfl rfl rfl))
    · exact passes_same s
  | arrive ref d =>
    simp only [step, withView]
    split
    · exact haside rfl (.none rfl rfl rfl) (.of_views rfl rfl rfl rfl rfl rfl)
    rename_i v hv
    refine haside rfl (.none rfl rfl rfl) (.of_view rfl rfl rfl rfl rfl hv rfl ?_)
    split <;> rfl
  | connDone ref code =>
    simp only [step, withView]
    split
    · exact passes_same s
    · rename_i v hv
      exact haside rfl (.none rfl rfl rfl) (.of_view rfl rfl rfl rfl rfl hv rfl rfl)
  | headerDone i sel =>
    simp only [step]
    cases hread : s.headerReads[i]? with
    | none => exact passes_same s
    | some read =>
      exact passes_post s { s with headerReads := s.headerReads.eraseIdx i } rfl (.none rfl rfl rfl)
        (.of_views rfl rfl rfl rfl rfl rfl) read.sup (.headerRead read.view read.dir read.stream sel) _
        (haside rfl (.none rfl rfl rfl) (.of_views rfl rfl rfl rfl rfl rfl))
  | goAwayDone i result =>
    simp only [step]
    cases hread : s.goAwayReads[i]? with
    | none => exact passes_same s
    | some read =>
      cases result with
      | none => exact haside rfl (.none rfl rfl rfl) (.of_views rfl rfl rfl rfl rfl rfl)
      | some result =>
        exact passes_post s { s with goAwayReads := s.goAwayReads.eraseIdx i } rfl (.none rfl rfl rfl)
          (.of_views rfl rfl rfl rfl rfl rfl) read.1 (.goAwayRead read.2 result.1 result.2) id (haside rfl (.none rfl rfl rfl) (.of_views rfl rfl rfl rfl rfl rfl))

end All

end StackState

end EthP2P.Stack
