/-
# EthP2P.Transport.CloseCode — what the ethp2p view says about its end

`CloseCode` (`transport/conn.go`) reads the cause of the view's context and turns it into a code.  The
cause is recorded by the release that claimed the view, a step after the claim; the context is a child
of the QUIC connection's own, so a connection that closes in between leaves its own error as the cause.

Who closes the connection in between can only be the other view's release.  As long as that one comes
after the cause is recorded, `CloseCode` reports the code of the call that claimed the view:
`closeCode_of_run`.  `cause_lost` is a run where it does not wait.
-/
import EthP2P.Transport.Release

namespace EthP2P.Transport

open Lib Wire Transport.System List

/-! ## Reading the cause -/

/-- The error a QUIC connection's context ends with, as far as the view looks at it. -/
inductive ConnError where
  /-- `*quic.ApplicationError`. -/
  | application (remote : Bool) (errorCode : Nat)
  /-- Any other error, with what `net.Error.Timeout` says of it. -/
  | other (timeout : Bool)
  deriving DecidableEq, Repr

/-- The errors that `CloseCode` tells apart. -/
inductive ViewError where
  /-- `*ViewClosedError`. -/
  | viewClosedError (code : Code) (remote : Bool)
  /-- `ErrViewClosed` itself. -/
  | errViewClosed
  | connection (err : ConnError)
  deriving DecidableEq, Repr

/-- The error behind a cause; `raw` is the cause of the QUIC connection's own context. -/
def Cause.error (raw : ConnError) : Cause → ViewError
  | .connection => .connection raw
  | .viewClosed => .errViewClosed
  | .closedWith code => .viewClosedError code false

/-- `ethp2pError`: a remote close with a defined stack code becomes a `ViewClosedError`. -/
def ethp2pError : ViewError → ViewError
  | .connection (.application remote raw) =>
    if !remote || raw &&& 1 != 0 then .connection (.application remote raw)
    else
      let code := Code.parseCode raw
      if code.wire ≠ raw then .connection (.application remote raw) else .viewClosedError code true
  | err => err

/-- `TimeoutOr`. -/
def timeoutOr (err : Option ViewError) (other : Code) : Code :=
  if err = some (.connection (.other true)) then .timeout else other

namespace Conn

variable (s : Conn)

/-- `CloseCode`, with the cause of the QUIC connection's context and whether the endpoint has ended. -/
def closeCode (raw : ConnError) (endpointDone : Bool) : Code :=
  let err := (s.ctx .ethp2p).map fun cause => ethp2pError (cause.error raw)
  match err with
  | some (.viewClosedError code _) => code
  | err => if endpointDone then .closing else timeoutOr err .unspecified

theorem closeCode_closedWith {code : Code} (h : s.ctx .ethp2p = some (.closedWith code))
    (raw : ConnError) (endpointDone : Bool) : s.closeCode raw endpointDone = code := by
  simp only [closeCode, h]
  rfl

end Conn

/-! ## The runs -/

/-- The view whose release is about to close the connection, if the task is that release. -/
def Task.closing : Task → Option Side
  | .release c (.closeConn :: _) => some c.want
  | _ => none

namespace System

/-- The QUIC connection ends only because one of the releases closed it. -/
def ClosedHere (p : System) : Event → Prop
  | .connDone => p.shared.closes ≠ []
  | _ => True

/-- The libp2p release closes the connection only after the cause of the ethp2p view is recorded. -/
def CauseFirst (p : System) : Event → Prop
  | .run i _ => (p.tasks[i]?).bind Task.closing = some .libp2p → (p.shared.ctx .ethp2p).isSome = true
  | _ => True

instance decidableClosedHere (p : System) : ∀ e, Decidable (p.ClosedHere e)
  | .connDone => inferInstanceAs (Decidable (p.shared.closes ≠ []))
  | .closeWithCode _ | .closeWithError _ _ | .acceptStream | .nextStream | .nextUniStream | .viewDone _
  | .run _ _ => .isTrue trivial

instance decidableCauseFirst (p : System) : ∀ e, Decidable (p.CauseFirst e)
  | .run i _ => inferInstanceAs (Decidable ((p.tasks[i]?).bind Task.closing = some .libp2p →
      (p.shared.ctx .ethp2p).isSome = true))
  | .closeWithCode _ | .closeWithError _ _ | .acceptStream | .nextStream | .nextUniStream | .viewDone _
  | .connDone => .isTrue trivial

end System

/-! ## Where a cause comes from -/

/-- A call for the ethp2p view comes with a code. -/
def CloseCall.Coded (c : CloseCall) : Prop := c.want = .ethp2p → ∃ code, c.cause = .closedWith code

/-- The invariant of the shared state: a cause is that of a claimed release, and a connection that was
closed left it in place. -/
structure Caused (s : Conn) : Prop where
  coded : ∀ c ∈ s.released, c.Coded
  cause : ∀ cause, s.ctx .ethp2p = some cause → ∃ c ∈ s.released, c.want = .ethp2p ∧ c.cause = cause
  closed : s.closes ≠ [] → (s.ctx .ethp2p).isSome = true
  ended : s.rawDone = true → s.closes ≠ []

/-- The assertion of a task: the ethp2p release records the cause before all else. -/
def Records (s : Conn) : Task → Prop
  | .closeSide c => c.Coded
  | .release c work => c ∈ s.released ∧ (c.want = .ethp2p → work.head? = some .cancel ∨ (s.ctx .ethp2p).isSome = true)
  | _ => True

/-- What any step may do to what the tasks rely on here. -/
structure Extends (s s' : Conn) : Prop where
  released : ∀ c ∈ s.released, c ∈ s'.released
  ctx : (s.ctx .ethp2p).isSome = true → (s'.ctx .ethp2p).isSome = true

theorem Extends.of_same {s s' : Conn} (hreleased : s'.released = s.released) (hctx : s'.ctx = s.ctx) : Extends s s' :=
  ⟨fun _ hc => hreleased ▸ hc, fun hsome => hctx ▸ hsome⟩

theorem Records.extends {s s' : Conn} {t : Task} (h : Records s t) (he : Extends s s') : Records s' t := by
  cases t with
  | closeSide c => exact h
  | release c work => exact ⟨he.released c h.1, fun hc => (h.2 hc).imp_right he.ctx⟩
  | _ => trivial

/-- The tasks of streams only read the contexts. -/
theorem contexts_step {s : Conn} {t : Task} (ht : t.isClose = false) (o : Outcome) :
    (s.step t o).1.ctx = s.ctx ∧ (s.step t o).1.rawDone = s.rawDone := by
  have hpush : ∀ q r, (s.pushOrReset q r).ctx = s.ctx ∧ (s.pushOrReset q r).rawDone = s.rawDone := by
    intro q r
    unfold Conn.pushOrReset
    split <;> exact ⟨rfl, rfl⟩
  have hpop : ∀ (q : QueueName) (found : Conn → StreamRef → Conn × List Task) (empty : List Task),
      (∀ s r, (found s r).1.ctx = s.ctx ∧ (found s r).1.rawDone = s.rawDone) →
      (s.pop q found empty).1.ctx = s.ctx ∧ (s.pop q found empty).1.rawDone = s.rawDone := by
    intro q found empty hfound
    unfold Conn.pop
    split
    · exact hfound _ _
    · exact ⟨rfl, rfl⟩
  cases t with
  | closeSide | release => cases ht
  | uniPush r => exact hpush _ r
  | push r v => exact hpush v.bidi r
  | acceptStream => exact hpop _ _ _ fun _ _ => ⟨rfl, rfl⟩
  | nextPop q => exact hpop q _ _ fun _ _ => ⟨rfl, rfl⟩
  | uniAccepted r | deliver r v | acceptHolds r | next q =>
    simp only [Conn.step]
    split <;> exact ⟨rfl, rfl⟩
  | drainUni | acceptBidi | classify r => cases o <;> exact ⟨rfl, rfl⟩
  | drainBidi =>
    cases o <;> simp only [Conn.step] <;> split <;> exact ⟨rfl, rfl⟩
  | acceptWait =>
    cases o with
    | ready | ended =>
      simp only [Conn.step]
      split <;> exact ⟨rfl, rfl⟩
    | stream | fail | classified | classifyError | cancelled => exact ⟨rfl, rfl⟩

section Step

variable {s : Conn} (h : Caused s)

include h

theorem Caused.quiet {s' : Conn} (hq : Quiet s s') (hctx : s'.ctx = s.ctx) (hraw : s'.rawDone = s.rawDone) :
    Caused s' := by
  refine ⟨?_, ?_, ?_, ?_⟩
  · rw [hq.released]
    exact h.coded
  · rw [hq.released, hctx]
    exact h.cause
  · rw [hq.closes, hctx]
    exact h.closed
  · rw [hq.closes, hraw]
    exact h.ended

theorem Caused.claim (hs : s.Claims) {c : CloseCall} (hc : c.Coded) :
    Caused (s.claim c).1 ∧ Extends s (s.claim c).1 ∧ ∀ u ∈ (s.claim c).2, Records (s.claim c).1 u := by
  rcases claim_cases hs c with ⟨_, heq⟩ | ⟨_, heq⟩
  · rw [heq]
    refine ⟨⟨?_, ?_, h.closed, h.ended⟩, ⟨fun d hd => mem_append_left _ hd, fun hctx => hctx⟩, ?_⟩
    · intro d hd
      rcases mem_append.mp hd with hd | hd
      · exact h.coded d hd
      · rw [mem_singleton.mp hd]
        exact hc
    · intro cause hcause
      obtain ⟨d, hd, hwant, heq'⟩ := h.cause cause hcause
      exact ⟨d, mem_append_left _ hd, hwant, heq'⟩
    · intro u hu
      obtain rfl := mem_singleton.mp hu
      exact ⟨mem_append_right _ (mem_singleton_self c), fun _ => .inl rfl⟩
  · rw [heq]
    exact ⟨⟨h.coded, h.cause, h.closed, h.ended⟩, .of_same rfl rfl, fun u hu => by cases hu⟩

/-- One part of a release.  The cause is recorded first; after that the connection may be closed. -/
theorem Caused.perform {c : CloseCall} {w : Work} {work : List Work} (hc : Records s (.release c (w :: work)))
    (hguard : w = .closeConn → c.want = .libp2p → (s.ctx .ethp2p).isSome = true) :
    Caused (s.perform c work w).1 ∧ Extends s (s.perform c work w).1 ∧
      (c.want = .ethp2p → ((s.perform c work w).1.ctx .ethp2p).isSome = true) := by
  -- every part but the first finds the cause recorded
  have hrecorded : w ≠ .cancel → c.want = .ethp2p → (s.ctx .ethp2p).isSome = true := by
    intro hw hwant
    rcases hc.2 hwant with hhead | hctx
    · exact absurd (Option.some.inj hhead) hw
    · exact hctx
  cases w with
  | cancel =>
    have hctx : (s.cancel c.want c.cause).ctx .ethp2p
        = if c.want = .ethp2p then some ((s.ctx .ethp2p).getD c.cause) else s.ctx .ethp2p := by
      simp only [Conn.cancel, Function.update_apply]
      cases c.want <;> rfl
    refine ⟨⟨h.coded, ?_, ?_, h.ended⟩, ⟨fun _ hd => hd, ?_⟩, ?_⟩
    · intro cause hcause
      rw [show (s.perform c work .cancel).1.ctx .ethp2p = _ from hctx] at hcause
      split at hcause
      · rename_i hwant
        cases hold : s.ctx .ethp2p with
        | none =>
          rw [hold] at hcause
          exact ⟨c, hc.1, hwant, Option.some.inj hcause⟩
        | some old =>
          rw [hold] at hcause
          exact h.cause cause (hold.trans hcause)
      · exact h.cause cause hcause
    · intro hcloses
      rw [show (s.perform c work .cancel).1.ctx .ethp2p = _ from hctx]
      split
      · rfl
      · exact h.closed hcloses
    · intro hsome
      rw [show (s.perform c work .cancel).1.ctx .ethp2p = _ from hctx]
      split
      · rfl
      · exact hsome
    · intro hwant
      rw [show (s.perform c work .cancel).1.ctx .ethp2p = _ from hctx, if_pos hwant]
      rfl
  | closeConn =>
    have hsome : (s.ctx .ethp2p).isSome = true := by
      cases hwant : c.want with
      | libp2p => exact hguard rfl hwant
      | ethp2p => exact hrecorded Work.noConfusion hwant
    refine ⟨⟨h.coded, h.cause, fun _ => hsome, fun _ => ?_⟩, .of_same rfl rfl, fun _ => hsome⟩
    simp [Conn.perform]
  | closeQueue q | reset r =>
    exact ⟨⟨h.coded, h.cause, h.closed, h.ended⟩, .of_same rfl rfl, hrecorded Work.noConfusion⟩

/-- **One step of any task**, if the libp2p release waits for the cause. -/
theorem caused_step (hs : s.Claims) {t : Task} (ht : Records s t)
    (hguard : t.closing = some .libp2p → (s.ctx .ethp2p).isSome = true) (o : Outcome) :
    Caused (s.step t o).1 ∧ Extends s (s.step t o).1 ∧ ∀ u ∈ (s.step t o).2, Records (s.step t o).1 u := by
  cases hclose : t.isClose with
  | false =>
    obtain ⟨hquiet, htasks⟩ := Quiet.step (s := s) hclose o
    obtain ⟨hctx, hraw⟩ := contexts_step (s := s) hclose o
    refine ⟨h.quiet hquiet hctx hraw, .of_same hquiet.released hctx, ?_⟩
    intro u hu
    have hu := htasks u hu
    cases u with
    | closeSide | release => cases hu
    | _ => trivial
  | true =>
    cases t with
    | closeSide c => exact h.claim hs ht
    | release c work =>
      cases work with
      | nil =>
        refine ⟨⟨h.coded, h.cause, h.closed, h.ended⟩, .of_same rfl rfl, ?_⟩
        intro u hu
        cases hu
      | cons w work =>
        have hwait : w = .closeConn → c.want = .libp2p → (s.ctx .ethp2p).isSome = true := by
          rintro rfl hwant
          exact hguard (congrArg some hwant)
        obtain ⟨⟨hcoded, hcause, hclosed, hended⟩, ⟨hrel, hctx⟩, hdone⟩ := h.perform ht hwait
        refine ⟨⟨hcoded, hcause, hclosed, hended⟩, ⟨hrel, hctx⟩, ?_⟩
        intro u hu
        rw [mem_singleton.mp hu]
        exact ⟨hrel c ht.1, fun hwant => .inr (hdone hwant)⟩
    | _ => cases hclose

end Step

namespace System

variable {p : System}

/-- The claims, and the causes with them. -/
structure Attributed (p : System) : Prop where
  inv : p.Inv
  caused : p.Asserted (fun s => s.Claims ∧ Caused s) Records

theorem attributed_init : Attributed init := by
  refine ⟨inv_init, ⟨inv_init.ordered.1.claims, ?_⟩, ?_⟩
  · exact ⟨by simp [init], by simp [init], by simp [init], by simp [init]⟩
  intro t ht
  simp only [init, mem_cons, not_mem_nil, or_false] at ht
  rcases ht with rfl | rfl <;> trivial

theorem Attributed.callClose (h : p.Attributed) {want : Side} {cause : Cause} (code : Nat) (reason : String)
    (hcoded : want = .ethp2p → ∃ code, cause = .closedWith code) :
    Attributed (p.callClose want code reason cause) := by
  have hinv := h.inv.callClose want code reason cause
  obtain ⟨⟨_, hcaused⟩, htasks⟩ := h.caused
  have hcalled : Pool.Asserted (fun s => s.Claims ∧ Caused s) Records
      ⟨{ p.shared with calls := p.shared.calls + 1 }, p.tasks⟩ := by
    refine ⟨⟨hinv.ordered.1.claims, ?_⟩, fun t ht => (htasks t ht).extends (.of_same rfl rfl)⟩
    exact ⟨hcaused.coded, hcaused.cause, hcaused.closed, hcaused.ended⟩
  exact ⟨hinv, hcalled.spawn hcoded⟩

theorem Attributed.spawn (h : p.Attributed) {t : Task} (hstreams : t.streams = 0)
    (hclose : t.isClose = false) : Attributed (p.spawn t) := by
  refine ⟨h.inv.spawn hstreams hclose, h.caused.spawn ?_⟩
  cases t with
  | closeSide | release => cases hclose
  | _ => trivial

theorem Attributed.step (h : p.Attributed) {e : Event} (hhere : p.ClosedHere e) (hfirst : p.CauseFirst e) :
    Attributed (p.step e) := by
  have hinv := h.inv.step e
  obtain ⟨⟨hclaims, hcaused⟩, htasks⟩ := h.caused
  cases e with
  | closeWithCode code => exact h.callClose _ _ fun _ => ⟨code, rfl⟩
  | closeWithError code reason => exact h.callClose _ _ fun hwant => by cases hwant
  | acceptStream | nextStream | nextUniStream => exact h.spawn rfl rfl
  | connDone =>
    refine ⟨hinv, ⟨hinv.ordered.1.claims, ?_⟩, fun t ht => (htasks t ht).extends (.of_same rfl rfl)⟩
    exact ⟨hcaused.coded, hcaused.cause, hcaused.closed, fun _ => hhere⟩
  | viewDone v =>
    refine ⟨hinv, ?_⟩
    simp only [System.step]
    split
    · rename_i hraw
      -- the connection was closed here, so the view's cause is recorded and stays
      have hsome := hcaused.closed (hcaused.ended hraw)
      have hctx : (p.shared.cancel v .connection).ctx .ethp2p = p.shared.ctx .ethp2p := by
        obtain ⟨cause, hcause⟩ := Option.isSome_iff_exists.mp hsome
        simp only [Conn.cancel, Function.update_apply]
        split
        · rename_i hv
          rw [← hv, hcause]
          rfl
        · rfl
      refine ⟨⟨⟨hclaims.bits, hclaims.distinct, hclaims.first, hclaims.claimed⟩,
        hcaused.coded, ?_, ?_, hcaused.ended⟩, fun t ht => (htasks t ht).extends ⟨fun _ hc => hc, ?_⟩⟩
      · rw [hctx]
        exact hcaused.cause
      · rw [hctx]
        exact hcaused.closed
      · rw [hctx]
        exact fun h => h
    · exact h.caused
  | run i o =>
    refine ⟨hinv, Pool.run_asserts_guarded Conn.step
      (G := fun s t => t.closing = some .libp2p → (s.ctx .ethp2p).isSome = true) ?_ ?_ h.caused ?_ o⟩
    · intro s t o hguard hs ht
      obtain ⟨hcaused, _, hnew⟩ := caused_step hs.2 hs.1 ht hguard o
      exact ⟨⟨claims_step hs.1 t o, hcaused⟩, hnew⟩
    · intro s t o u hguard hs ht hu
      exact hu.extends (caused_step hs.2 hs.1 ht hguard o).2.1
    · intro t ht hclosing
      apply hfirst
      rw [ht]
      exact hclosing

/-- **The code of a released view.**  If the connection is ended by its releases only, and the libp2p
release never closes it before the cause of the ethp2p view is recorded, then a view that is done reports
the code of the one call that claimed it. -/
theorem closeCode_of_run (events : List Event) (hhere : Along step ClosedHere init events)
    (hfirst : Along step CauseFirst init events) (raw : ConnError) (endpointDone : Bool)
    (hdone : ((exec step init events).shared.ctx .ethp2p).isSome = true) :
    ∃ c code, c ∈ (exec step init events).shared.released ∧ c.want = .ethp2p ∧
      c.cause = .closedWith code ∧
      (∀ d ∈ (exec step init events).shared.released, d.want = .ethp2p → d = c) ∧
      (exec step init events).shared.closeCode raw endpointDone = code := by
  have h : Attributed (exec step init events) :=
    (hhere.and hfirst).invariant (fun _ _ h hok => h.step hok.1 hok.2) attributed_init
  obtain ⟨⟨hclaims, hcaused⟩, _⟩ := h.caused
  obtain ⟨cause, hcause⟩ := Option.isSome_iff_exists.mp hdone
  obtain ⟨c, hc, hwant, rfl⟩ := hcaused.cause cause hcause
  obtain ⟨code, hcode⟩ := hcaused.coded c hc hwant
  refine ⟨c, code, hc, hwant, hcode, ?_, ?_⟩
  · intro d hd hdwant
    exact inj_on_of_nodup_map hclaims.distinct hd hc (hdwant.trans hwant.symm)
  · exact Conn.closeCode_closedWith _ (hcode ▸ hcause) raw endpointDone

/-- Both views are released at once: the ethp2p release claims, then the libp2p release runs up to the
close of the connection, `steps` steps of the ethp2p release after its claim. -/
def bothRelease (steps : Nat) : List Event :=
  [.closeWithCode .refused, .run 0 .ready] ++ replicate steps (.run 0 .ready) ++
    [.closeWithError 0 "", .run 0 .ready, .run 0 .ready, .run 0 .ready, .connDone, .viewDone .ethp2p]

-- the ethp2p release records its cause one step after its claim
theorem closeCode_recorded :
    Along step ClosedHere init (bothRelease 1) ∧ Along step CauseFirst init (bothRelease 1) ∧
      (exec step init (bothRelease 1)).shared.closes = [(0, "")] ∧
      ∃ c code, c ∈ (exec step init (bothRelease 1)).shared.released ∧ c.want = .ethp2p ∧
        c.cause = .closedWith code ∧
        (∀ d ∈ (exec step init (bothRelease 1)).shared.released, d.want = .ethp2p → d = c) ∧
        (exec step init (bothRelease 1)).shared.closeCode (.application false 0) false = code :=
  ⟨by decide, by decide, by decide,
    closeCode_of_run (bothRelease 1) (by decide) (by decide) (.application false 0) false (by decide)⟩

/-- The libp2p release closes the connection before the ethp2p release has recorded its cause: the view
ends with the connection's error, and its code is lost. -/
theorem cause_lost :
    Along step ClosedHere init (bothRelease 0) ∧
      (exec step init (bothRelease 0)).shared.released.map (fun c => (c.want, c.cause))
        = [(.ethp2p, .closedWith .refused), (.libp2p, .viewClosed)] ∧
      (exec step init (bothRelease 0)).shared.closes = [(0, "")] ∧
      (exec step init (bothRelease 0)).shared.ctx .ethp2p = some .connection ∧
      (exec step init (bothRelease 0)).shared.closeCode (.application false 0) false = .unspecified := by
  decide

end System

end EthP2P.Transport
