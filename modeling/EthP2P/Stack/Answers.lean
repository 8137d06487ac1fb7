/-
# EthP2P.Stack.Answers — what those who wait for a supervisor can rely on

`Connect` waits for the result of its view's attach, and `Disconnect` for the drop it asked for.  Both are
requests in the queue of a supervisor (`asks`).  This module follows them through the internal steps:

* an attach that waits has not begun and has no result (`Waits`);
* an admitted view is in the hands of the supervisor its peer has in the table, or was handed to be released
  (`Admits`);
* whoever was admitted before a drop was asked for has been released when the drop is answered (`Drops`), and a
  view whose attach was asked for after a drop is not the one that it takes (`Spares`).
-/
import EthP2P.Stack.Views

namespace EthP2P.Stack

open Lib Wire Request List

/-- An attach or a drop. -/
def Request.isAsk : Request → Bool
  | .attach _ | .dropView _ _ _ => true
  | _ => false

namespace StackState

/-- The attaches and drops that wait for a supervisor, in the order in which they will run. -/
def asks (s : StackState) (r : SupRef) : List Request := (s.pendingFor r).filter isAsk

section Internal

variable {s : StackState} {op : StackOp}

/-- Internal steps ask for nothing. -/
theorem posts_internal (hop : op.internal = true) : ∀ x ∈ s.posts op, x.2.isAsk = false := by
  intro x hx
  cases op with
  | attach | disconnect | close | dial => cases hop
  | postClosed r =>
    simp only [posts] at hx
    split at hx
    · rw [mem_singleton.mp hx]
      rfl
    · cases hx
  | headerDone i sel =>
    simp only [posts] at hx
    split at hx
    · cases hx
    split at hx
    · rw [mem_singleton.mp hx]
      rfl
    · cases hx
  | goAwayDone i result =>
    simp only [posts] at hx
    split at hx
    · split at hx
      · rw [mem_singleton.mp hx]
        rfl
      · cases hx
    · cases hx
  | signal | select | work | next | closeHandle | arrive | connDone => cases hx

theorem logOf_filter_posts (hop : op.internal = true) (r : SupRef) : (logOf r (s.posts op)).filter isAsk = [] := by
  rw [filter_eq_nil_iff]
  intro req hreq
  rw [posts_internal hop _ (mem_logOf.mp hreq)]
  exact Bool.false_ne_true

/-- What waits after an internal step is what waited before, without what has begun to run. -/
theorem asks_internal (hinv : Inv s) (h : RequestInv s) (hop : op.internal = true) (r : SupRef) :
    s.asks r = (logOf r (s.runs op)).filter isAsk ++ (s.step op).asks r := by
  have hpending := congrArg (filter isAsk) (pending_step hinv h op r)
  rw [filter_append, filter_append, logOf_filter_posts hop, append_nil] at hpending
  exact hpending

/-- What one internal step does to the views in hand and to what waits. -/
inductive Advance (s s' : StackState) : Prop
  | aside (hhold : ∀ r, s'.hold r = s.hold r) (hasks : ∀ r, s'.asks r = s.asks r) (hdoes : Does s s' {})
  | turn (r : SupRef) (u : Supervisor) (reqs : List Request) (d : Deeds) (hu : s.sups.get r = some u)
      (hother : ∀ r', r' ≠ r → s'.hold r' = s.hold r' ∧ s'.asks r' = s.asks r')
      (hcarry : Carry s u (s.hold r) (s'.hold r) reqs d)
      (hasks : s.asks r = reqs.filter isAsk ++ s'.asks r) (hdoes : Does s s' d)

theorem advance_internal (hinv : Inv s) (h : RequestInv s) (hop : op.internal = true) :
    Advance s (s.step op) ∧ Keeps s (s.step op) := by
  have hasks := asks_internal hinv h hop
  cases passes_step hinv hop with
  | aside hhold hdoes hkeeps houts =>
    refine ⟨.aside hhold (fun r => ?_) hdoes, hkeeps⟩
    have := hasks r
    rw [houts] at this
    exact this.symm
  | turn r u reqs d hu hother hcarry hdoes hkeeps houts =>
    refine ⟨.turn r u reqs d hu (fun r' hr' => ⟨hother r' hr', ?_⟩) hcarry ?_ hdoes, hkeeps⟩
    · have := hasks r'
      rw [houts, logOf_map_pair, if_neg (Ne.symm hr')] at this
      exact this.symm
    have := hasks r
    rw [houts, logOf_map_pair, if_pos rfl] at this
    exact this

/-- A supervisor leaves the table with empty hands. -/
theorem peers_step (hinv : Inv s) (op : StackOp) {id : PeerID} {r : SupRef}
    (hr : s.peers.get id = some r) : (s.step op).peers.get id = some r ∨ s.hold r = {} := by
  cases moves_step hinv op with
  | aside _ hpeers => exact .inl (hpeers ▸ hr)
  | turn _ _ _ _ _ _ _ hframe => exact .inl (hframe.peers ▸ hr)
  | append _ _ _ _ _ _ hpeers | close _ _ _ hpeers | signal _ _ _ _ hpeers => exact .inl (hpeers ▸ hr)
  | start id' _ hnone _ _ hpeers =>
    refine .inl ?_
    have hne : id ≠ id' := by
      rintro rfl
      rw [hnone] at hr
      cases hr
    rw [hpeers, Map.get_set, if_neg hne]
    exact hr
  | exit r' u hu hphase _ _ hconn _ hpeers =>
    rw [hpeers, Map.get_del]
    split
    · rename_i hid
      have hlive := hinv.live r' u hu (by simp [hphase])
      rw [← hid, hr] at hlive
      cases hlive
      refine .inr ?_
      rw [hold_of_get hu, hold_draining hphase, hconn]
    · exact .inl hr

end Internal

/-! ## Attaches that wait -/

/-- The view was handed to be released. -/
def Gone (s : StackState) (v : ViewRef) : Prop := v ∈ s.released.map (·.view)

/-- The channel that a `Disconnect` waits on is closed, or will be by the release of its view. -/
def Answered (s : StackState) (k : DoneRef) : Prop :=
  k ∈ s.finished ∨ ∃ x ∈ s.released, x.done = some k

/-- An attach that waits does so once, has not begun and has no result. -/
structure Waits (s : StackState) : Prop where
  once : ∀ r ref, (s.asks r).count (.attach ref) ≤ 1
  home : ∀ r r' ref, .attach ref ∈ s.asks r → .attach ref ∈ s.asks r' → r = r'
  fresh : ∀ r ref, .attach ref ∈ s.asks r → ref < s.nextView
  unanswered : ∀ r ref, .attach ref ∈ s.asks r → ref ∉ s.results.map Prod.fst
  unattached : ∀ r r' ref, .attach ref ∈ s.asks r → (s.hold r').attached ≠ some ref
  inHand : ∀ r ref, (s.hold r).Has ref → ref < s.nextView
  gone : ∀ ref, s.Gone ref → ref < s.nextView
  answered : ∀ ref ∈ s.results.map Prod.fst, ref < s.nextView
  /-- Outside the drop of its predecessor a view whose attach has begun is the present one. -/
  present : ∀ r ref, (s.hold r).attached = some ref → (s.hold r).dropped = none → (s.hold r).conn = some ref

section Carry

variable {s : StackState} {u : Supervisor} {h h' : Hold} {reqs : List Request} {d : Deeds}

variable {ref v : ViewRef}

section

variable (hcarry : Carry s u h h' reqs d)
include hcarry

/-- An attach is begun when its request runs. -/
theorem Carry.attached (hatt : h'.attached = some ref) : h.attached = some ref ∨ reqs = [.attach ref] := by
  cases hcarry with
  | enter | displace =>
    cases hatt
    exact .inr rfl
  | keep | release => exact .inl hatt
  | refuse | lost | idle | drop | finish => cases hatt

/-- An attach gets its result when its request runs or at its end. -/
theorem Carry.results (hres : ref ∈ d.results.map Prod.fst) : h.attached = some ref ∨ reqs = [.attach ref] := by
  cases hcarry with
  | refuse =>
    rw [mem_singleton.mp hres]
    exact .inr rfl
  | finish =>
    rw [mem_singleton.mp hres]
    exact .inl rfl
  | _ => cases hres

/-- An attach fails when a check rejects its view. -/
theorem Carry.failed {e : AttachError} (hres : (ref, some e) ∈ d.results) :
    reqs = [.attach ref] ∧ ∃ v code, s.views.get ref = some v ∧ s.rejection u v = some (code, some e) := by
  cases hcarry with
  | refuse hview hrejected =>
    obtain ⟨rfl, rfl⟩ := Prod.mk.inj (mem_singleton.mp hres)
    exact ⟨rfl, _, _, hview, hrejected⟩
  | finish => simp at hres
  | _ => cases hres

theorem Carry.present (hold : ∀ ref, h.attached = some ref → h.dropped = none → h.conn = some ref)
    (hatt : h'.attached = some ref) (hdrop : h'.dropped = none) : h'.conn = some ref := by
  cases hcarry with
  | keep => exact hold ref hatt hdrop
  | enter | release => exact hatt
  | displace | drop => cases hdrop
  | refuse | lost | idle | finish => cases hatt

/-- A view in hand stays so until it is handed to be released. -/
theorem Carry.has (hold : ∀ ref, h.attached = some ref → h.dropped = none → h.conn = some ref)
    (hv : h.Has v) : h'.Has v ∨ v ∈ d.released.map Prod.fst := by
  cases hcarry with
  | keep | refuse | lost | idle => exact .inl hv
  | enter =>
    rcases hv with hv | hv | ⟨_, hv⟩ <;> cases hv
  | displace | drop =>
    rcases hv with hv | hv | ⟨_, hv⟩
    · cases hv
      exact .inl (.inr (.inr ⟨_, rfl⟩))
    · cases hv
    · cases hv
  | release =>
    rcases hv with hv | hv | ⟨_, hv⟩
    · cases hv
    · exact .inl (.inr (.inl hv))
    · obtain ⟨rfl, _⟩ := Prod.mk.inj (Option.some.inj hv)
      exact .inr (mem_singleton.mpr rfl)
  | finish =>
    rcases hv with hv | hv | ⟨_, hv⟩
    · exact .inl (.inl hv)
    · exact .inl (.inl (hold v hv rfl))
    · cases hv

/-- A view comes into hand when its attach runs. -/
theorem Carry.taken (hv : h'.Has v) : h.Has v ∨ reqs = [.attach v] := by
  cases hcarry with
  | keep | refuse | lost | idle => exact .inl hv
  | enter =>
    rcases hv with hv | hv | ⟨_, hv⟩
    · cases hv
      exact .inr rfl
    · cases hv
      exact .inr rfl
    · cases hv
  | displace =>
    rcases hv with hv | hv | ⟨_, hv⟩
    · cases hv
    · cases hv
      exact .inr rfl
    · obtain ⟨rfl, _⟩ := Prod.mk.inj (Option.some.inj hv)
      exact .inl (.inl rfl)
  | drop =>
    rcases hv with hv | hv | ⟨_, hv⟩
    · cases hv
    · cases hv
    · obtain ⟨rfl, _⟩ := Prod.mk.inj (Option.some.inj hv)
      exact .inl (.inl rfl)
  | release =>
    rcases hv with hv | hv | ⟨_, hv⟩
    · exact .inl (.inr (.inl hv))
    · exact .inl (.inr (.inl hv))
    · cases hv
  | finish =>
    rcases hv with hv | hv | ⟨_, hv⟩
    · exact .inl (.inl hv)
    · cases hv
    · cases hv

/-- A view is released that was in hand or is refused. -/
theorem Carry.released (hv : v ∈ d.released.map Prod.fst) : h.Has v ∨ reqs = [.attach v] := by
  cases hcarry with
  | refuse =>
    rw [mem_singleton.mp hv]
    exact .inr rfl
  | release =>
    rw [mem_singleton.mp hv]
    exact .inl (.inr (.inr ⟨_, rfl⟩))
  | _ => cases hv

end

/-- A view that passes the checks is in hand. -/
theorem Carry.admitted {v : View} (hcarry : Carry s u h h' [.attach ref] d)
    (hview : s.views.get ref = some v) (hpasses : s.rejection u v = none) : h'.Has ref := by
  generalize hreqs : [Request.attach ref] = reqs at hcarry
  cases hcarry with
  | keep hother =>
    subst hreqs
    exact absurd (hother _ mem_cons_self) id
  | refuse hview' hrejected =>
    cases hreqs
    cases hview.symm.trans hview'
    rw [hpasses] at hrejected
    cases hrejected
  | lost hview' =>
    cases hreqs
    rw [hview] at hview'
    cases hview'
  | enter =>
    cases hreqs
    exact .inl rfl
  | displace =>
    cases hreqs
    exact .inr (.inl rfl)
  | drop hcause =>
    subst hreqs
    rcases hcause with ⟨_, _, heq⟩ | ⟨_, hother⟩
    · cases heq
    · exact absurd (hother _ mem_cons_self) id
  | idle | release | finish => cases hreqs

end Carry

section Steps

variable {s s' : StackState}

variable {d : Deeds} {v ref : ViewRef} {k : DoneRef} {r : SupRef} {h h' : Hold} {reqs : List Request}
  {u : Supervisor}

theorem Does.gone (hdoes : Does s s' d) : Gone s' v ↔ Gone s v ∨ v ∈ d.released.map Prod.fst := by
  have h := congrArg (map Prod.fst) hdoes.released
  rw [map_append, map_map, map_map] at h
  unfold Gone
  rw [← mem_append]
  exact iff_of_eq (congrArg (v ∈ ·) h)

theorem Does.answered (hdoes : Does s s' d) :
    Answered s' k ↔ Answered s k ∨ k ∈ d.finished ∨ ∃ v, (v, some k) ∈ d.released := by
  have hmem : ∀ t : StackState, (∃ x ∈ t.released, x.done = some k) ↔
      ∃ v, (v, some k) ∈ t.released.map (fun x => (x.view, x.done)) := by
    intro t
    constructor
    · rintro ⟨x, hx, hdone⟩
      exact ⟨x.view, mem_map.mpr ⟨x, hx, by rw [hdone]⟩⟩
    rintro ⟨v, hv⟩
    obtain ⟨x, hx, heq⟩ := mem_map.mp hv
    exact ⟨x, hx, (Prod.mk.inj heq).2⟩
  unfold Answered
  rw [hmem s', hmem s, hdoes.finished, hdoes.released]
  simp only [mem_append, exists_or]
  tauto

theorem Does.taken (hdoes : Does s s' d) {x : Release} (hx : x ∈ s'.released) (hk : x.done = some k) :
    (∃ y ∈ s.released, y.view = x.view ∧ y.done = some k) ∨ (x.view, some k) ∈ d.released := by
  have hmem : (x.view, some k) ∈ s'.released.map fun x => (x.view, x.done) :=
    mem_map.mpr ⟨x, hx, by rw [hk]⟩
  rw [hdoes.released] at hmem
  refine (mem_append.mp hmem).imp_left fun hmem => ?_
  obtain ⟨y, hy, heq⟩ := mem_map.mp hmem
  exact ⟨y, hy, (Prod.mk.inj heq).1, (Prod.mk.inj heq).2⟩

/-- What a step does to one supervisor. -/
theorem Advance.sup (hadv : Advance s s') (r : SupRef) : (s'.hold r = s.hold r ∧ s'.asks r = s.asks r) ∨
    ∃ u reqs d, Carry s u (s.hold r) (s'.hold r) reqs d ∧ s.asks r = reqs.filter isAsk ++ s'.asks r ∧ Does s s' d := by
  cases hadv with
  | aside hhold hasks _ => exact .inl ⟨hhold r, hasks r⟩
  | turn r' u reqs d hu hother hcarry hasks hdoes =>
    by_cases hr : r = r'
    · subst hr
      exact .inr ⟨u, reqs, d, hcarry, hasks, hdoes⟩
    · exact .inl (hother r hr)

/-- What waits after a step waited before. -/
theorem Advance.asks (hadv : Advance s s') (r : SupRef) : s'.asks r <:+ s.asks r := by
  rcases hadv.sup r with ⟨_, hasks⟩ | ⟨_, _, _, _, hasks, _⟩
  · exact ⟨[], hasks⟩
  · exact ⟨_, hasks.symm⟩

theorem Advance.mem_asks (hadv : Advance s s') {req : Request} (h : req ∈ s'.asks r) :
    req ∈ s.asks r := (hadv.asks r).subset h

/-- The attach of `ref` waited before the step and no longer does. -/
def Starts (s s' : StackState) (r : SupRef) (ref : ViewRef) : Prop :=
  .attach ref ∈ s.asks r ∧ ∀ r', .attach ref ∉ s'.asks r'

/-- An attach that runs waits nowhere any more. -/
theorem Waits.starts (h : Waits s) (hadv : Advance s s')
    (hcons : s.asks r = .attach ref :: s'.asks r) : Starts s s' r ref := by
  have hmem : .attach ref ∈ s.asks r := hcons ▸ mem_cons_self
  refine ⟨hmem, fun r' hr' => ?_⟩
  obtain rfl := h.home r' r ref (hadv.mem_asks hr') hmem
  have hcount := h.once r' ref
  rw [hcons, count_cons_self] at hcount
  have hpos := count_pos_iff.mpr hr'
  omega

theorem Waits.attached (h : Waits s) (hadv : Advance s s')
    (hatt : (s'.hold r).attached = some ref) : (s.hold r).attached = some ref ∨ Starts s s' r ref := by
  rcases hadv.sup r with ⟨hhold, _⟩ | ⟨_, _, _, hcarry, hasks, _⟩
  · exact .inl (hhold ▸ hatt)
  refine (hcarry.attached hatt).imp_right ?_
  rintro rfl
  exact h.starts hadv hasks

theorem Waits.results (h : Waits s) (hadv : Advance s s') (hres : ref ∈ s'.results.map Prod.fst) :
    ref ∈ s.results.map Prod.fst ∨ ∃ r, (s.hold r).attached = some ref ∨ Starts s s' r ref := by
  have hadv' := hadv
  cases hadv with
  | aside _ _ hdoes =>
    rw [hdoes.results, append_nil] at hres
    exact .inl hres
  | turn r u reqs d hu hother hcarry hasks hdoes =>
    rw [hdoes.results, map_append] at hres
    refine (mem_append.mp hres).imp_right fun hres => ⟨r, ?_⟩
    refine (hcarry.results hres).imp_right ?_
    rintro rfl
    exact h.starts hadv' hasks

/-- What is in hand after a step was so before, or its attach runs. -/
theorem Waits.taken (h : Waits s) (hadv : Advance s s')
    (hhas : (s'.hold r).Has ref) : (s.hold r).Has ref ∨ Starts s s' r ref := by
  rcases hadv.sup r with ⟨hhold, _⟩ | ⟨_, _, _, hcarry, hasks, _⟩
  · exact .inl (hhold ▸ hhas)
  refine (hcarry.taken hhas).imp_right ?_
  rintro rfl
  exact h.starts hadv hasks

theorem Waits.released (h : Waits s) (hadv : Advance s s') (hgone : s'.Gone ref) :
    s.Gone ref ∨ ∃ r, (s.hold r).Has ref ∨ Starts s s' r ref := by
  have hadv' := hadv
  cases hadv with
  | aside _ _ hdoes => exact .inl (by simpa using hdoes.gone.mp hgone)
  | turn r u reqs d hu hother hcarry hasks hdoes =>
    refine (hdoes.gone.mp hgone).imp_right fun hrel => ⟨r, ?_⟩
    refine (hcarry.released hrel).imp_right ?_
    rintro rfl
    exact h.starts hadv' hasks

theorem Waits.advance (h : Waits s) (hadv : Advance s s') (hkeeps : Keeps s s') : Waits s' := by
  have hstarts : ∀ {r ref}, Starts s s' r ref → ref < s.nextView := fun hs => h.fresh _ _ hs.1
  constructor
  case once => exact fun r ref => ((hadv.asks r).sublist.count_le _).trans (h.once r ref)
  case home => exact fun r r' ref hr hr' => h.home r r' ref (hadv.mem_asks hr) (hadv.mem_asks hr')
  case fresh =>
    intro r ref hr
    rw [hkeeps.nextView]
    exact h.fresh r ref (hadv.mem_asks hr)
  case unanswered =>
    intro r ref hr hres
    rcases h.results hadv hres with hres | ⟨r', hatt | hs⟩
    · exact h.unanswered r ref (hadv.mem_asks hr) hres
    · exact h.unattached r r' ref (hadv.mem_asks hr) hatt
    · exact hs.2 r hr
  case unattached =>
    intro r r' ref hr hatt
    rcases h.attached hadv hatt with hatt | hs
    · exact h.unattached r r' ref (hadv.mem_asks hr) hatt
    · exact hs.2 r hr
  case inHand =>
    intro r ref hhas
    rw [hkeeps.nextView]
    exact (h.taken hadv hhas).elim (h.inHand r ref) hstarts
  case gone =>
    intro ref hgone
    rw [hkeeps.nextView]
    rcases h.released hadv hgone with hgone | ⟨r, hhas | hs⟩
    · exact h.gone ref hgone
    · exact h.inHand r ref hhas
    · exact hstarts hs
  case answered =>
    intro ref hres
    rw [hkeeps.nextView]
    rcases h.results hadv hres with hres | ⟨r, hatt | hs⟩
    · exact h.answered ref hres
    · exact h.inHand r ref (.inr (.inl hatt))
    · exact hstarts hs
  case present =>
    intro r ref hatt hdrop
    rcases hadv.sup r with ⟨hhold, _⟩ | ⟨_, _, _, hcarry, _⟩
    · rw [hhold] at hatt hdrop ⊢
      exact h.present r ref hatt hdrop
    · exact hcarry.present (h.present r) hatt hdrop

theorem Advance.gone (hadv : Advance s s') (hv : s.Gone v) : s'.Gone v := by
  cases hadv with
  | aside _ _ hdoes | turn _ _ _ _ _ _ _ _ hdoes => exact hdoes.gone.mpr (.inl hv)

/-! ## Views that were admitted -/

/-- Every admitted view is in the hands of its peer's supervisor, or gone. -/
def Admits (s : StackState) (admitted : List (PeerID × ViewRef)) : Prop :=
  ∀ x ∈ admitted, s.Gone x.2 ∨ ∃ r, s.peers.get x.1 = some r ∧ (s.hold r).Has x.2

/-- A drop that has been asked for. -/
def Knows (s : StackState) (k : DoneRef) : Prop :=
  (∃ r code goAway, .dropView code goAway (some k) ∈ s.asks r) ∨
    (∃ r w, (s.hold r).dropped = some (w, some k)) ∨ s.Answered k

/-- Who was admitted before a drop was asked for is in the supervisor's hands while it waits; when its view is
being dropped only that one is left, and when it is answered all of them are gone. -/
structure Drops (s : StackState) (before : DoneRef → List ViewRef) : Prop where
  fresh : ∀ k, s.Knows k → k < s.nextDone
  waiting : ∀ r code goAway k, .dropView code goAway (some k) ∈ s.asks r → ∀ v ∈ before k, s.Gone v ∨ (s.hold r).Has v
  dropping : ∀ r w k, (s.hold r).dropped = some (w, some k) → ∀ v ∈ before k, s.Gone v ∨ v = w
  answered : ∀ k, s.Answered k → ∀ v ∈ before k, s.Gone v

/-- An attach that will run before a drop is an early one for it. -/
def Precedes (early : DoneRef → ViewRef → Prop) : Request → Request → Prop
  | .attach w, .dropView _ _ (some k) => early k w
  | _, _ => True

/-- A drop takes early views only. -/
structure Spares (s : StackState) (early : DoneRef → ViewRef → Prop) : Prop where
  inHand : ∀ r code goAway k, .dropView code goAway (some k) ∈ s.asks r → ∀ v, (s.hold r).Has v → early k v
  ahead : ∀ r, (s.asks r).Pairwise (Precedes early)
  dropping : ∀ r w k, (s.hold r).dropped = some (w, some k) → early k w
  taken : ∀ x ∈ s.released, ∀ k, x.done = some k → early k x.view

theorem Advance.has (hadv : Advance s s') (hw : Waits s) (hv : (s.hold r).Has v) : (s'.hold r).Has v ∨ s'.Gone v := by
  rcases hadv.sup r with ⟨hhold, _⟩ | ⟨_, _, _, hcarry, _, hdoes⟩
  · exact .inl (hhold ▸ hv)
  refine (hcarry.has (hw.present r) hv).imp_right fun hrel => ?_
  exact hdoes.gone.mpr (.inr hrel)

/-- A drop with a waiting caller begins by its request. -/
theorem Carry.dropped (hcarry : Carry s u h h' reqs d) {w : ViewRef} (hdrop : h'.dropped = some (w, some k)) :
    h.dropped = some (w, some k) ∨
      ∃ code goAway, reqs = [.dropView code goAway (some k)] ∧ h = ⟨some w, none, none⟩ := by
  cases hcarry with
  | keep => exact .inl hdrop
  | refuse | lost | enter | idle | release | finish => cases hdrop
  | displace => simp at hdrop
  | @drop reqs w' done hreqs =>
    cases hdrop
    rcases hreqs with ⟨code, goAway, rfl⟩ | ⟨hnone, _⟩
    · exact .inr ⟨code, goAway, rfl, rfl⟩
    · cases hnone

/-- A waiting caller is answered when there is nothing to drop or its view is handed to be released. -/
theorem Carry.answers (hcarry : Carry s u h h' reqs d) (hk : k ∈ d.finished ∨ ∃ v, (v, some k) ∈ d.released) :
    (∃ code goAway, reqs = [.dropView code goAway (some k)] ∧ h = {}) ∨
      ∃ w, h.dropped = some (w, some k) ∧ w ∈ d.released.map Prod.fst := by
  cases hcarry with
  | keep | lost | enter | displace | drop | finish => simp at hk
  | refuse => simp at hk
  | @idle code goAway done =>
    obtain rfl : done = some k := by simpa using hk
    exact .inl ⟨code, goAway, rfl, rfl⟩
  | @release attached w done =>
    obtain ⟨v, rfl, rfl⟩ : ∃ v, v = w ∧ done = some k := by
      rcases hk with hk | ⟨v, hk⟩
      · cases hk
      · exact ⟨v, by simpa [eq_comm] using hk⟩
    exact .inr ⟨v, rfl, by simp⟩

theorem Advance.knows (hadv : Advance s s') (hk : s'.Knows k) : s.Knows k := by
  rcases hk with ⟨r, code, goAway, hk⟩ | ⟨r, w, hd⟩ | hk
  · exact .inl ⟨r, code, goAway, hadv.mem_asks hk⟩
  · rcases hadv.sup r with ⟨hhold, _⟩ | ⟨_, _, _, hcarry, hasks, _⟩
    · exact .inr (.inl ⟨r, w, hhold ▸ hd⟩)
    rcases hcarry.dropped hd with hold | ⟨code, goAway, rfl, _⟩
    · exact .inr (.inl ⟨r, w, hold⟩)
    · exact .inl ⟨r, code, goAway, hasks ▸ mem_cons_self⟩
  · cases hadv with
    | aside _ _ hdoes => exact .inr (.inr (by simpa using hdoes.answered.mp hk))
    | turn r u reqs d hu hother hcarry hasks hdoes =>
      rcases hdoes.answered.mp hk with hk | hk
      · exact .inr (.inr hk)
      rcases hcarry.answers hk with ⟨code, goAway, rfl, _⟩ | ⟨w, hdrop, _⟩
      · exact .inl ⟨r, code, goAway, hasks ▸ mem_cons_self⟩
      · exact .inr (.inl ⟨r, w, hdrop⟩)

theorem Drops.advance {before : DoneRef → List ViewRef} (h : Drops s before) (hw : Waits s)
    (hadv : Advance s s') (hkeeps : Keeps s s') : Drops s' before := by
  constructor
  case fresh =>
    intro k hk
    rw [hkeeps.nextDone]
    exact h.fresh k (hadv.knows hk)
  case waiting =>
    intro r code goAway k hk v hv
    rcases h.waiting r code goAway k (hadv.mem_asks hk) v hv with hgone | hhas
    · exact .inl (hadv.gone hgone)
    · exact (hadv.has hw hhas).symm
  case dropping =>
    intro r w k hd v hv
    have hgone : s.Gone v ∨ v = w := by
      rcases hadv.sup r with ⟨hhold, _⟩ | ⟨_, _, _, hcarry, hasks, _⟩
      · exact h.dropping r w k (hhold ▸ hd) v hv
      rcases hcarry.dropped hd with hold | ⟨code, goAway, rfl, hold⟩
      · exact h.dropping r w k hold v hv
      -- the drop was waiting and runs now: it takes the one view in hand
      have hask : .dropView code goAway (some k) ∈ s.asks r := hasks ▸ mem_cons_self
      refine (h.waiting r code goAway k hask v hv).imp_right fun hhas => ?_
      rw [hold] at hhas
      simpa [Hold.Has, eq_comm] using hhas
    exact hgone.imp_left hadv.gone
  case answered =>
    intro k hk v hv
    have hadv' := hadv
    cases hadv with
    | aside _ _ hdoes =>
      refine hadv'.gone (h.answered k ?_ v hv)
      simpa using hdoes.answered.mp hk
    | turn r u reqs d hu hother hcarry hasks hdoes =>
      rcases hdoes.answered.mp hk with hk | hk
      · exact hadv'.gone (h.answered k hk v hv)
      rcases hcarry.answers hk with ⟨code, goAway, rfl, hold⟩ | ⟨w, hdrop, hw⟩
      · have hask : .dropView code goAway (some k) ∈ s.asks r := hasks ▸ mem_cons_self
        refine (h.waiting r code goAway k hask v hv).elim hadv'.gone fun hhas => ?_
        rw [hold] at hhas
        simp [Hold.Has] at hhas
      · rcases h.dropping r w k hdrop v hv with hgone | rfl
        · exact hadv'.gone hgone
        · exact hdoes.gone.mpr (.inr hw)

/-- What is released for a waiting caller was being dropped for it. -/
theorem Carry.takes (hcarry : Carry s u h h' reqs d) {w : ViewRef} (hw : (w, some k) ∈ d.released) :
    h.dropped = some (w, some k) := by
  cases hcarry with
  | refuse => simp at hw
  | release =>
    obtain ⟨rfl, rfl⟩ := Prod.mk.inj (mem_singleton.mp hw)
    rfl
  | _ => cases hw

theorem Spares.advance {early : DoneRef → ViewRef → Prop} (h : Spares s early) (hadv : Advance s s') :
    Spares s' early := by
  have hahead : ∀ r, (s'.asks r).Pairwise (Precedes early) :=
    fun r => (h.ahead r).sublist (hadv.asks r).sublist
  cases hadv with
  | aside hhold hasks hdoes =>
    refine ⟨fun r code goAway k hk v hv => ?_, hahead, fun r w k hd => ?_, fun x hx k hk => ?_⟩
    · exact h.inHand r code goAway k (hasks r ▸ hk) v (hhold r ▸ hv)
    · exact h.dropping r w k (hhold r ▸ hd)
    rcases hdoes.taken hx hk with ⟨y, hy, hview, hdone⟩ | hrel
    · exact hview ▸ h.taken y hy k hdone
    · cases hrel
  | turn r u reqs d hu hother hcarry hasks hdoes =>
    refine ⟨fun r' code goAway k hk v hv => ?_, hahead, fun r' w k hd => ?_, fun x hx k hk => ?_⟩
    · by_cases hr : r' = r
      · subst hr
        have hmem : .dropView code goAway (some k) ∈ s.asks r' := hasks ▸ mem_append_right _ hk
        rcases hcarry.taken hv with hhas | rfl
        · exact h.inHand r' code goAway k hmem v hhas
        -- its attach stood before the drop
        have hpair := h.ahead r'
        rw [hasks] at hpair
        exact (pairwise_cons.mp hpair).1 _ hk
      · rw [(hother r' hr).1] at hv
        rw [(hother r' hr).2] at hk
        exact h.inHand r' code goAway k hk v hv
    · by_cases hr : r' = r
      · subst hr
        rcases hcarry.dropped hd with hold | ⟨code, goAway, rfl, hold⟩
        · exact h.dropping r' w k hold
        · exact h.inHand r' code goAway k (hasks ▸ mem_cons_self) w (by rw [hold]; exact .inl rfl)
      · exact h.dropping r' w k ((hother r' hr).1 ▸ hd)
    · rcases hdoes.taken hx hk with ⟨y, hy, hview, hdone⟩ | hrel
      · exact hview ▸ h.taken y hy k hdone
      · exact h.dropping r x.view k (hcarry.takes hrel)

end Steps

/-! ## Calls of the stack's methods -/

/-- What a method does: it appends requests, and releases a view that comes too late. -/
structure Calls (s s' : StackState) (adds : SupRef → List Request) : Prop where
  hold : ∀ r, s'.hold r = s.hold r
  asks : ∀ r, s'.asks r = s.asks r ++ adds r
  results : s'.results = s.results
  finished : s'.finished = s.finished
  released : ∃ late : List Release, s'.released = s.released ++ late ∧ ∀ x ∈ late, x.done = none ∧ x.view < s'.nextView
  peers : ∀ id r, s.peers.get id = some r → s'.peers.get id = some r
  nextView : s.nextView ≤ s'.nextView
  nextDone : s.nextDone ≤ s'.nextDone

/-- What a method appends to the inbox of a supervisor. -/
def asked (s : StackState) (op : StackOp) (r : SupRef) : List Request :=
  (logOf r (s.posts op)).filter isAsk

variable {op : StackOp} {r : SupRef} {s : StackState}

theorem mem_asked {req : Request} (h : req ∈ s.asked op r) : (r, req) ∈ s.posts op := mem_logOf.mp (mem_of_mem_filter h)

section Calls

variable {s s' : StackState} {adds : SupRef → List Request}

theorem calls_step (hinv : Inv s) (h : RequestInv s) (op : StackOp) (hop : op.internal = false) :
    Calls s (s.step op) (s.asked op) := by
  have hasks : ∀ r, (s.step op).asks r = s.asks r ++ s.asked op r := by
    intro r
    have hruns : s.runs op = [] := by
      cases op with
      | attach | disconnect | close | dial => rfl
      | _ => cases hop
    have hpending := congrArg (filter isAsk) (pending_step hinv h op r)
    rw [hruns, logOf_nil, nil_append, filter_append] at hpending
    exact hpending.symm
  cases op with
  | attach v =>
    by_cases hclosed : s.closed = true
    · have heq : s.step (.attach v) = { s with
          views := s.views.set s.nextView v
          nextView := s.nextView + 1
          released := s.released ++ [{ view := s.nextView, code := .closing, goAway := true }] } := by
        simp [step, attach, hclosed]
      rw [heq] at hasks ⊢
      refine ⟨fun _ => rfl, hasks, rfl, rfl, ⟨_, rfl, fun x hx => ?_⟩, fun _ _ hr => hr, by simp, le_rfl⟩
      rw [mem_singleton.mp hx]
      exact ⟨rfl, Nat.lt_succ_self _⟩
    cases hr : s.peers.get v.peer with
    | some r =>
      obtain ⟨u, hu, _, _⟩ := hinv.table _ _ hr
      have heq : s.step (.attach v) = { s with
          views := s.views.set s.nextView v
          nextView := s.nextView + 1 }.append r u (.attach s.nextView) := by
        simp [step, attach, hclosed, hr, hu]
      rw [heq] at hasks ⊢
      exact ⟨hold_set_same hu rfl rfl, hasks, rfl, rfl, ⟨[], (append_nil _).symm, by simp⟩,
        fun _ _ hr => hr, Nat.le_succ _, le_rfl⟩
    | none =>
      have heq : s.step (.attach v) = { s with
          views := s.views.set s.nextView v
          nextView := s.nextView + 1
          peers := s.peers.set v.peer s.nextSup
          nextSup := s.nextSup + 1 }.append s.nextSup { id := v.peer } (.attach s.nextView) := by
        simp [step, attach, hclosed, hr]
      rw [heq] at hasks ⊢
      refine ⟨fun r => ?_, hasks, rfl, rfl, ⟨[], (append_nil _).symm, by simp⟩,
        fun id r hid => ?_, Nat.le_succ _, le_rfl⟩
      · -- a supervisor that has just been started has nothing in hand
        have hset : ∀ s' : StackState, s'.sups =
            s.sups.set s.nextSup { id := v.peer, inbox := [.attach s.nextView] } →
            s'.hold r = s.hold r := by
          intro s' hsups
          rw [hold_set hsups]
          split
          · rename_i hr'
            subst hr'
            simp only [hold, hinv.fresh s.nextSup le_rfl]
            rfl
          · rfl
        exact hset _ rfl
      · have hne : id ≠ v.peer := by
          rintro rfl
          rw [hr] at hid
          cases hid
        show (s.peers.set v.peer s.nextSup).get id = some r
        rw [Map.get_set, if_neg hne]
        exact hid
  | disconnect id =>
    obtain ⟨dials, _, ⟨heq, _⟩ | ⟨r, u, _, hu, heq⟩⟩ := disconnect_cases s id
    · rw [show s.step (.disconnect id) = _ from heq] at hasks ⊢
      exact ⟨fun _ => rfl, hasks, rfl, rfl, ⟨[], (append_nil _).symm, by simp⟩, fun _ _ hr => hr, le_rfl,
        le_rfl⟩
    rw [show s.step (.disconnect id) = _ from heq] at hasks ⊢
    exact ⟨hold_set_same hu rfl rfl, hasks, rfl, rfl, ⟨[], (append_nil _).symm, by simp⟩,
      fun _ _ hr => hr, le_rfl, Nat.le_succ _⟩
  | close =>
    by_cases hclosed : s.closed = true
    · rw [show s.step .close = s by simp [step, close, hclosed]] at hasks ⊢
      exact ⟨fun _ => rfl, hasks, rfl, rfl, ⟨[], (append_nil _).symm, by simp⟩, fun _ _ hr => hr, le_rfl,
        le_rfl⟩
    have heq : s.step .close = { s with
        closed := true
        sups := s.sups.mapVals fun r u =>
          if s.peers.get u.id = some r then
            { u with inbox := u.inbox ++ [.dropView .closing true none] }
          else u
        signals := s.signals ++ s.peers.entries.map Prod.snd } := by
      simp [step, close, hclosed]
    rw [heq] at hasks ⊢
    refine ⟨fun r => ?_, hasks, rfl, rfl, ⟨[], (append_nil _).symm, by simp⟩, fun _ _ hr => hr, le_rfl,
      le_rfl⟩
    simp only [hold, Map.get_mapVals]
    cases s.sups.get r with
    | none => rfl
    | some u =>
      simp only [Option.map_some]
      split <;> rfl
  | dial id d =>
    exact ⟨fun _ => rfl, hasks, rfl, rfl, ⟨[], (append_nil _).symm, by simp⟩, fun _ _ hr => hr, le_rfl,
      le_rfl⟩
  | _ => cases hop

theorem Calls.gone (hc : Calls s s' adds) {v : ViewRef} (hv : s.Gone v) : s'.Gone v := by
  obtain ⟨late, hreleased, _⟩ := hc.released
  unfold Gone
  rw [hreleased, map_append]
  exact mem_append_left _ hv

theorem Calls.gone_back (hc : Calls s s' adds) {v : ViewRef} (hv : s'.Gone v) : s.Gone v ∨ v < s'.nextView := by
  obtain ⟨late, hreleased, hlate⟩ := hc.released
  unfold Gone at hv
  rw [hreleased, map_append] at hv
  refine (mem_append.mp hv).imp_right fun hv => ?_
  obtain ⟨x, hx, rfl⟩ := mem_map.mp hv
  exact (hlate x hx).2

theorem Calls.answered (hc : Calls s s' adds) {k : DoneRef} : s'.Answered k ↔ s.Answered k := by
  obtain ⟨late, hreleased, hlate⟩ := hc.released
  unfold Answered
  rw [hc.finished, hreleased]
  refine or_congr_right ⟨?_, ?_⟩
  · rintro ⟨x, hx, hk⟩
    rcases mem_append.mp hx with hx | hx
    · exact ⟨x, hx, hk⟩
    · rw [(hlate x hx).1] at hk
      cases hk
  · rintro ⟨x, hx, hk⟩
    exact ⟨x, mem_append_left _ hx, hk⟩

theorem Calls.mem_asks (hc : Calls s s' adds) {req : Request} (hreq : req ∈ s'.asks r) :
    req ∈ s.asks r ∨ req ∈ adds r := by
  rw [hc.asks r] at hreq
  exact mem_append.mp hreq

/-- At most one attach is appended, of a view that is new. -/
theorem Waits.calls (h : Waits s) (hc : Calls s s' adds) (target : SupRef)
    (hadds : ∀ r ref, .attach ref ∈ adds r → r = target ∧ ref = s.nextView ∧ ref < s'.nextView)
    (hcount : ∀ r ref, (adds r).count (.attach ref) ≤ 1) : Waits s' := by
  have hle := hc.nextView
  have hnew : ∀ {r r' ref}, .attach ref ∈ adds r → .attach ref ∉ s.asks r' := by
    intro r r' ref hr hr'
    exact (h.fresh r' ref hr').ne (hadds r ref hr).2.1
  constructor
  case once =>
    intro r ref
    rw [hc.asks, count_append]
    by_cases hr : .attach ref ∈ adds r
    · rw [count_eq_zero.mpr (hnew hr)]
      have hone := hcount r ref
      omega
    · rw [count_eq_zero.mpr hr]
      exact h.once r ref
  case home =>
    intro r r' ref hr hr'
    rcases hc.mem_asks hr with hr | hr <;> rcases hc.mem_asks hr' with hr' | hr'
    · exact h.home r r' ref hr hr'
    · exact absurd hr (hnew hr')
    · exact absurd hr' (hnew hr)
    · exact (hadds r ref hr).1.trans (hadds r' ref hr').1.symm
  case fresh =>
    intro r ref hr
    rcases hc.mem_asks hr with hr | hr
    · exact (h.fresh r ref hr).trans_le hle
    · exact (hadds r ref hr).2.2
  case unanswered =>
    intro r ref hr hres
    rw [hc.results] at hres
    rcases hc.mem_asks hr with hr | hr
    · exact h.unanswered r ref hr hres
    · exact (h.answered ref hres).ne (hadds r ref hr).2.1
  case unattached =>
    intro r r' ref hr hatt
    rw [hc.hold] at hatt
    rcases hc.mem_asks hr with hr | hr
    · exact h.unattached r r' ref hr hatt
    · exact (h.inHand r' ref (.inr (.inl hatt))).ne (hadds r ref hr).2.1
  case inHand =>
    intro r ref hhas
    rw [hc.hold] at hhas
    exact (h.inHand r ref hhas).trans_le hle
  case gone =>
    intro ref hgone
    exact (hc.gone_back hgone).elim (fun hgone => (h.gone ref hgone).trans_le hle) id
  case answered =>
    intro ref hres
    rw [hc.results] at hres
    exact (h.answered ref hres).trans_le hle
  case present =>
    intro r ref hatt hdrop
    rw [hc.hold] at hatt hdrop ⊢
    exact h.present r ref hatt hdrop

theorem Waits.unasked (h : Waits s) (hc : Calls s s' adds) (hadds : ∀ {r ref}, .attach ref ∉ adds r) : Waits s' :=
  h.calls hc 0 (fun _ _ hr => absurd hr hadds) fun _ _ => (count_eq_zero.mpr hadds).trans_le (Nat.zero_le _)

theorem Admits.calls {admitted : List (PeerID × ViewRef)} (h : Admits s admitted) (hc : Calls s s' adds) :
    Admits s' admitted := by
  intro x hx
  rcases h x hx with hgone | ⟨r, hr, hhas⟩
  · exact .inl (hc.gone hgone)
  refine .inr ⟨r, hc.peers _ _ hr, ?_⟩
  rw [hc.hold]
  exact hhas

theorem Calls.knows (hc : Calls s s' adds) {k : DoneRef} (hk : s'.Knows k) :
    s.Knows k ∨ ∃ r code goAway, .dropView code goAway (some k) ∈ adds r := by
  rcases hk with ⟨r, code, goAway, hk⟩ | ⟨r, w, hd⟩ | hk
  · exact (hc.mem_asks hk).imp (fun hk => .inl ⟨r, code, goAway, hk⟩) fun hk => ⟨r, code, goAway, hk⟩
  · exact .inl (.inr (.inl ⟨r, w, hc.hold r ▸ hd⟩))
  · exact .inl (.inr (.inr (hc.answered.mp hk)))

/-- A drop that is asked for finds everybody it was asked about. -/
theorem Drops.calls {before before' : DoneRef → List ViewRef} (h : Drops s before) (hc : Calls s s' adds)
    (hold : ∀ k < s.nextDone, before' k = before k)
    (hadds : ∀ r code goAway k, .dropView code goAway (some k) ∈ adds r →
      k < s'.nextDone ∧ ∀ v ∈ before' k, s.Gone v ∨ (s.hold r).Has v) : Drops s' before' := by
  constructor
  case fresh =>
    intro k hk
    rcases hc.knows hk with hk | ⟨r, code, goAway, hk⟩
    · exact (h.fresh k hk).trans_le hc.nextDone
    · exact (hadds r code goAway k hk).1
  case waiting =>
    intro r code goAway k hk v hv
    rw [hc.hold]
    refine Or.imp_left hc.gone ?_
    rcases hc.mem_asks hk with hk | hk
    · rw [hold k (h.fresh k (.inl ⟨r, code, goAway, hk⟩))] at hv
      exact h.waiting r code goAway k hk v hv
    · exact (hadds r code goAway k hk).2 v hv
  case dropping =>
    intro r w k hd v hv
    rw [hc.hold] at hd
    rw [hold k (h.fresh k (.inr (.inl ⟨r, w, hd⟩)))] at hv
    exact (h.dropping r w k hd v hv).imp_left hc.gone
  case answered =>
    intro k hk v hv
    have hk' := hc.answered.mp hk
    rw [hold k (h.fresh k (.inr (.inr hk')))] at hv
    exact hc.gone (h.answered k hk' v hv)

/-- An attach that is asked for is behind every drop, and a drop is asked for when everybody else is early. -/
theorem Spares.calls {early early' : DoneRef → ViewRef → Prop} {before : DoneRef → List ViewRef}
    (h : Spares s early) (hw : Waits s) (hd : Drops s before) (hc : Calls s s' adds)
    (hold : ∀ k < s.nextDone, ∀ v < s.nextView, early k v → early' k v)
    (hadds : ∀ r code goAway k, .dropView code goAway (some k) ∈ adds r → ∀ v < s.nextView, early' k v)
    (hordered : ∀ r, (adds r).Pairwise (Precedes early')) : Spares s' early' := by
  constructor
  case inHand =>
    intro r code goAway k hk v hv
    rw [hc.hold] at hv
    rcases hc.mem_asks hk with hk | hk
    · exact hold k (hd.fresh k (.inl ⟨r, code, goAway, hk⟩)) v (hw.inHand r v hv) (h.inHand r code goAway k hk v hv)
    · exact hadds r code goAway k hk v (hw.inHand r v hv)
  case ahead =>
    intro r
    rw [hc.asks, pairwise_append]
    refine ⟨?_, hordered r, ?_⟩
    · refine (h.ahead r).imp_of_mem ?_
      rintro (_ | _ | _ | _ | _) (_ | ⟨_, _, _ | k⟩ | _ | _ | _) ha hb hprec <;> try trivial
      exact hold k (hd.fresh k (.inl ⟨r, _, _, hb⟩)) _ (hw.fresh r _ ha) hprec
    · rintro (_ | _ | _ | _ | _) ha (_ | ⟨_, _, _ | k⟩ | _ | _ | _) hb <;> try trivial
      exact hadds r _ _ k hb _ (hw.fresh r _ ha)
  case dropping =>
    intro r w k hdrop
    rw [hc.hold] at hdrop
    exact hold k (hd.fresh k (.inr (.inl ⟨r, w, hdrop⟩))) w (hw.inHand r w (.inr (.inr ⟨_, hdrop⟩)))
      (h.dropping r w k hdrop)
  case taken =>
    intro x hx k hk
    obtain ⟨late, hreleased, hlate⟩ := hc.released
    rw [hreleased] at hx
    rcases mem_append.mp hx with hx | hx
    · exact hold k (hd.fresh k (.inr (.inr (.inr ⟨x, hx, hk⟩)))) x.view
        (hw.gone _ (mem_map_of_mem hx)) (h.taken x hx k hk)
    · rw [(hlate x hx).1] at hk
      cases hk

end Calls

/-! ## Admission -/

/-- The view that a step admits, with its peer. -/
def admits (s : StackState) (op : StackOp) : List (PeerID × ViewRef) :=
  match s.runs op with
  | [(r, .attach ref)] =>
    match s.sups.get r, s.views.get ref with
    | some u, some v => if (s.rejection u v).isNone then [(u.id, ref)] else []
    | _, _ => []
  | _ => []

theorem mem_admits {x : PeerID × ViewRef} (hx : x ∈ s.admits op) :
    ∃ r u v, s.runs op = [(r, .attach x.2)] ∧ s.sups.get r = some u ∧ s.views.get x.2 = some v ∧
      s.rejection u v = none ∧ x.1 = u.id := by
  unfold admits at hx
  split at hx
  · rename_i r ref hruns
    split at hx
    · rename_i u v hu hv
      split at hx
      · rename_i hrej
        rw [mem_singleton.mp hx]
        exact ⟨r, u, v, hruns, hu, hv, by simpa using hrej, rfl⟩
      · cases hx
    · cases hx
  · cases hx

/-- Supervisors keep their peers. -/
theorem id_step (hinv : Inv s) (op : StackOp) {u : Supervisor}
    (hu : s.sups.get r = some u) : ∃ u', (s.step op).sups.get r = some u' ∧ u'.id = u.id := by
  have hset : ∀ {s' : StackState} {r' : SupRef} {w w' : Supervisor}, s.sups.get r' = some w →
      s'.sups = s.sups.set r' w' → w'.id = w.id → ∃ u', s'.sups.get r = some u' ∧ u'.id = u.id := by
    intro s' r' w w' hw hsups hid
    rw [hsups, Map.get_set]
    by_cases hr : r = r'
    · subst hr
      cases hu.symm.trans hw
      exact ⟨w', if_pos rfl, hid⟩
    · exact ⟨u, (if_neg hr).trans hu, rfl⟩
  cases moves_step hinv op with
  | aside hsups => exact ⟨u, hsups ▸ hu, rfl⟩
  | turn r' w w' reqs gone hw hturn hframe =>
    refine hset hw hframe.sups ?_
    cases hturn with
    | wake | fetch => rfl
    | go _ _ _ hid => exact hid
  | exit r' w hw _ _ _ _ hsups | append r' w req hw _ hsups | signal r' w hw hsups => exact hset hw hsups rfl
  | start id req hnone hopen hsups =>
    have hne : r ≠ s.nextSup := by
      rintro rfl
      rw [hinv.fresh _ le_rfl] at hu
      cases hu
    exact ⟨u, by rw [hsups, Map.get_set, if_neg hne]; exact hu, rfl⟩
  | close _ _ hsups =>
    rw [hsups, Map.get_mapVals, hu]
    refine ⟨_, rfl, ?_⟩
    dsimp only
    split <;> rfl

/-- Who has a view in hand is in the table. -/
theorem live_of_has (hinv : Inv s) {u : Supervisor} (hu : s.sups.get r = some u)
    {v : ViewRef} (hv : (s.hold r).Has v) : s.peers.get u.id = some r := by
  refine hinv.live r u hu fun hexit => ?_
  rw [hold_of_get hu] at hv
  simp [Hold.Has, Supervisor.hold, hexit, (hinv.shape r u hu).exited hexit, Phase.attached, Phase.dropped] at hv

theorem Admits.internal {admitted : List (PeerID × ViewRef)}
    (h : Admits s admitted) (hinv : Inv s) (hreq : RequestInv s) (hw : Waits s) (hop : op.internal = true) :
    Admits (s.step op) (admitted ++ s.admits op) := by
  intro x hx
  rcases mem_append.mp hx with hx | hx
  · -- admitted before: what is in hand stays there, and the table keeps whoever has something in hand
    have hadv := (advance_internal hinv hreq hop).1
    rcases h x hx with hgone | ⟨r, hr, hhas⟩
    · exact .inl (hadv.gone hgone)
    rcases hadv.has hw hhas with hhas' | hgone
    · refine .inr ⟨r, (peers_step hinv op hr).resolve_right fun hempty => ?_, hhas'⟩
      rw [hempty] at hhas
      simp [Hold.Has] at hhas
    · exact .inl hgone
  obtain ⟨r, u, v, hruns, hu, hv, hrej, hid⟩ := mem_admits hx
  have hhas : ((s.step op).hold r).Has x.2 := by
    cases passes_step hinv hop with
    | aside _ _ _ houts =>
      rw [hruns] at houts
      cases houts
    | turn r' u' reqs d hu' hother hcarry hdoes hkeeps houts =>
      rw [hruns] at houts
      obtain ⟨rfl, rfl⟩ : r = r' ∧ reqs = [.attach x.2] := by
        cases reqs with
        | nil => cases houts
        | cons req rest =>
          simp only [map_cons, cons.injEq, Prod.mk.injEq, nil_eq, map_eq_nil_iff] at houts
          obtain ⟨⟨rfl, rfl⟩, rfl⟩ := houts
          exact ⟨rfl, rfl⟩
      cases hu.symm.trans hu'
      exact hcarry.admitted hv hrej
  obtain ⟨u', hu', hid'⟩ := id_step hinv op hu
  refine .inr ⟨r, ?_, hhas⟩
  rw [hid, ← hid']
  exact live_of_has (inv_step hinv op) hu' hhas

end StackState

end EthP2P.Stack
