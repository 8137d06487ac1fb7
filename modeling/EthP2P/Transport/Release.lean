/-
# EthP2P.Transport.Release — releasing the two views of a connection

Any number of close calls race on a connection whose dispatchers keep pushing streams and whose
consumers keep taking them.  Three balances over the pool of tasks carry the result: every stream
QUIC handed out is in exactly one place, every close call is in exactly one place, and the right to
close the connection exists once, from the claim of the second view on.  What a release has already
done is an assertion of its task that no other task disturbs.
-/
import EthP2P.Transport.Conn
import Mathlib.Data.Multiset.Range
import Mathlib.Algebra.Order.Group.Multiset
import Mathlib.Tactic.Abel

namespace EthP2P.Transport

open Lib Wire Function Transport.Task Conn CloseCall Pool List

/-! ## Every stream is in one place -/

/-- The stream a part of a release work still has to reset. -/
def Work.streams : Work → Multiset StreamRef
  | .reset r => {r}
  | _ => 0

/-- The streams in a goroutine's hands. -/
def Task.streams : Task → Multiset StreamRef
  | .uniAccepted r | .uniPush r | .classify r | .deliver r _ | .push r _ | .acceptHolds r => {r}
  | .release _ work => (work.map Work.streams).sum
  | _ => 0

namespace Conn

/-- The streams that wait in a queue. -/
def queued (s : Conn) : Multiset StreamRef :=
  (s.queue .libp2pStreams).items + (s.queue .ethp2pBidi).items + (s.queue .ethp2pUni).items

/-- The streams that no goroutine holds. -/
def settled (s : Conn) : Multiset StreamRef :=
  s.queued + s.returned + (s.resets.map Prod.fst : List StreamRef) + (s.unclassified.map Prod.fst : List StreamRef)

section Streams

variable (s : Conn)

variable (q : QueueName) (Q : StreamQueue StreamRef)

theorem queued_setQueue : (s.setQueue q Q).queued + (s.queue q).items = s.queued + Q.items := by
  cases q with
  | libp2pStreams | ethp2pBidi | ethp2pUni =>
    simp only [queued, setQueue, update_self, ne_eq, reduceCtorEq, not_false_eq_true, update_of_ne]
    abel

theorem settled_setQueue : (s.setQueue q Q).settled + (s.queue q).items = s.settled + Q.items := by
  have h := queued_setQueue s q Q
  calc (s.setQueue q Q).settled + (s.queue q).items
      = ((s.setQueue q Q).queued + (s.queue q).items) + s.returned +
          (s.resets.map Prod.fst : List StreamRef) +
          (s.unclassified.map Prod.fst : List StreamRef) := by
        simp only [settled, setQueue]
        abel
    _ = s.settled + Q.items := by
        rw [h]
        simp only [settled]
        abel

variable (r : StreamRef)

theorem settled_reset (code : Code) : (s.reset r code).settled = s.settled + {r} := by
  simp only [settled, reset, queued, map_append, map_cons, map_nil, ← Multiset.coe_add, Multiset.coe_singleton]
  abel

theorem settled_return (r : StreamRef) :
    ({ s with returned := s.returned ++ [r] } : Conn).settled = s.settled + {r} := by
  simp only [settled, queued, ← Multiset.coe_add, Multiset.coe_singleton]
  abel

theorem settled_classifyFailed (peerReset timeout : Bool) :
    (s.classifyFailed r peerReset timeout).settled = s.settled + {r} := by
  simp only [settled, classifyFailed, giveToken, queued, map_append, map_cons, map_nil,
    ← Multiset.coe_add, Multiset.coe_singleton]
  abel

theorem settled_pushOrReset : (s.pushOrReset q r).settled = s.settled + {r} := by
  unfold pushOrReset
  rcases (s.queue q).push_cases r with ⟨hp, _⟩ | ⟨hp, _, _, hitems⟩
  · generalize (s.queue q).push r = res at hp
    obtain ⟨b, Q⟩ := res
    obtain rfl : b = false := hp
    exact settled_reset s r .closing
  generalize (s.queue q).push r = res at hp hitems
  obtain ⟨b, Q⟩ := res
  obtain rfl : b = true := hp
  have h := settled_setQueue s q Q
  rw [show Q.items = (s.queue q).items ++ [r] from hitems, ← Multiset.coe_add, Multiset.coe_singleton] at h
  -- the old items stand on both sides
  have h' : (s.setQueue q Q).settled + (s.queue q).items
      = s.settled + {r} + (s.queue q).items := by
    rw [h]
    abel
  exact add_right_cancel h'

end Streams

/-- A step of a task trades streams between the settled ones and its own hands, and takes in the
streams QUIC hands out. -/
def Trades (s : Conn) (t : Task) (res : Conn × List Task) : Prop :=
  res.1.settled + (res.2.map streams).sum + Multiset.range s.accepted =
    s.settled + t.streams + Multiset.range res.1.accepted

section Trades

variable {s : Conn} {t : Task}

variable {res : Conn × List Task}

section

variable (hacc : res.1.accepted = s.accepted)
include hacc

theorem Trades.of_same
    (h : res.1.settled + (res.2.map streams).sum = s.settled + t.streams) : Trades s t res := by
  unfold Trades
  rw [hacc, h]

/-- A step that moves no stream. -/
theorem Trades.of_idle (hset : res.1.settled = s.settled) (h : (res.2.map streams).sum = t.streams) :
    Trades s t res :=
  .of_same hacc (by rw [hset, h])

/-- A step that lets go of the stream in its hands. -/
theorem Trades.of_settles (hset : res.1.settled = s.settled + t.streams) (h : (res.2.map streams).sum = 0) :
    Trades s t res :=
  .of_same hacc (by rw [hset, h, add_zero])

end

theorem trades_pop {q : QueueName} {found : Conn → StreamRef → Conn × List Task}
    {empty : List Task} (ht : t.streams = 0) (hempty : (empty.map streams).sum = 0)
    (hacc : ∀ s r, (found s r).1.accepted = s.accepted)
    (hfound : ∀ s r, (found s r).1.settled + ((found s r).2.map streams).sum = s.settled + {r}) :
    Trades s t (s.pop q found empty) := by
  have hset := settled_setQueue s q (s.queue q).tryPop.2
  unfold pop
  rcases (s.queue q).tryPop_cases with ⟨hnone, hsame⟩ | ⟨item, hsome, hitems, _⟩
  · generalize (s.queue q).tryPop = res at hnone hsame hset
    obtain ⟨r, Q⟩ := res
    obtain rfl : r = none := hnone
    obtain rfl : Q = s.queue q := hsame
    refine .of_idle rfl (add_right_cancel hset) ?_
    rw [ht]
    exact hempty
  generalize (s.queue q).tryPop = res at hsome hitems hset
  obtain ⟨r, Q⟩ := res
  obtain rfl : r = some item := hsome
  refine .of_same (hacc _ _) ?_
  simp only at hitems hset ⊢
  have h : (s.setQueue q Q).settled + {item} + Q.items = s.settled + Q.items := by
    rw [← hset, hitems, ← Multiset.cons_coe, ← Multiset.singleton_add]
    abel
  rw [hfound, ht, add_zero]
  exact add_right_cancel h

theorem trades_perform (s : Conn) (c : CloseCall) (work : List Work) (w : Work) :
    Trades s (.release c (w :: work))
      ({ (s.perform c work w).1 with worked := s.worked ++ [(c, w)] }, [.release c (s.perform c work w).2]) := by
  cases w with
  | cancel | closeConn => exact .of_idle rfl rfl (by simp [perform, streams, Work.streams])
  | reset r =>
    refine .of_same rfl ?_
    have h := settled_reset s r .closing
    simp only [perform, streams, Work.streams, map_cons, map_nil, sum_cons, sum_nil, add_zero]
    calc (s.reset r .closing).settled + (work.map Work.streams).sum
        = s.settled + {r} + (work.map Work.streams).sum := by rw [h]
      _ = s.settled + ({r} + (work.map Work.streams).sum) := add_assoc _ _ _
  | closeQueue q =>
    refine .of_same rfl ?_
    have h := settled_setQueue s q (s.queue q).close.2
    -- the queued streams become resets to be done, one for each
    have hbatch : ∀ items : List StreamRef,
        ((items.map Work.reset).map Work.streams).sum = (items : Multiset StreamRef) := by
      intro items
      induction items with
      | nil => rfl
      | cons r items ih =>
        rw [map_cons, map_cons, sum_cons, ih]
        rfl
    simp only [perform, streams, Work.streams, map_cons, map_nil, sum_cons,
      sum_nil, add_zero, map_append, sum_append, zero_add, StreamQueue.close,
      hbatch] at h ⊢
    calc (s.setQueue q { s.queue q with closed := true, items := [] }).settled +
          ((s.queue q).items + (work.map Work.streams).sum)
        = (s.setQueue q { s.queue q with closed := true, items := [] }).settled +
          (s.queue q).items + (work.map Work.streams).sum := (add_assoc _ _ _).symm
      _ = s.settled + (work.map Work.streams).sum := by
          rw [h, Multiset.coe_nil, add_zero]

/-- A stream QUIC hands out gets the next number. -/
theorem trades_accept {tasks : List Task} (ht : t.streams = 0)
    (htasks : (tasks.map streams).sum = {s.accepted}) :
    Trades s t ({ s with accepted := s.accepted + 1 }, tasks) := by
  unfold Trades
  simp only [htasks, ht, Multiset.range_succ, ← Multiset.singleton_add]
  change s.settled + _ + _ = _
  abel

theorem trades_claim (s : Conn) (c : CloseCall) : Trades s (.closeSide c) (s.claim c) := by
  unfold claim
  split
  · refine .of_idle rfl rfl ?_
    have hqueues : ∀ qs : List QueueName, ((qs.map Work.closeQueue).map Work.streams).sum = 0 := by
      intro qs
      induction qs with
      | nil => rfl
      | cons q qs ih => simpa [Work.streams] using ih
    cases hlast : (s.claimRelease c.want).2 with
    | true | false => simpa [streams, releaseWork, Work.streams] using hqueues c.want.queues
  · exact .of_idle rfl rfl rfl

/-- **No step loses or copies a stream.** -/
theorem step_trades (s : Conn) (t : Task) (o : Outcome) : Trades s t (s.step t o) := by
  cases t with
  | drainUni | acceptBidi =>
    cases o with
    | stream => exact trades_accept rfl (by simp [streams])
    | fail | classified | classifyError | ready | cancelled | ended => exact .of_idle rfl rfl rfl
  | uniAccepted r | deliver r v =>
    simp only [step]
    split
    · exact .of_settles rfl (settled_reset s r .closing) rfl
    · exact .of_idle rfl rfl rfl
  | uniPush r =>
    refine .of_settles ?_ (settled_pushOrReset s .ethp2pUni r) rfl
    simp only [step, pushOrReset]
    split <;> rfl
  | drainBidi =>
    cases o with
    | ended =>
      simp only [step]
      split <;> exact .of_idle rfl rfl rfl
    | stream | fail | classified | classifyError | ready | cancelled =>
      simp only [step]
      split <;> exact .of_idle rfl rfl rfl
  | classify r =>
    cases o with
    | classified v => exact .of_idle rfl rfl rfl
    | classifyError peerReset timeout =>
      exact .of_settles rfl (settled_classifyFailed s r peerReset timeout) rfl
    | stream | fail | ready | cancelled | ended => exact .of_idle rfl rfl rfl
  | push r v =>
    refine .of_settles ?_ (settled_pushOrReset s v.bidi r) rfl
    simp only [step, pushOrReset, giveToken]
    split <;> rfl
  | acceptStream =>
    exact trades_pop rfl rfl (fun _ _ => rfl) (fun s r => by simp [streams])
  | acceptWait =>
    cases o with
    | ready =>
      simp only [step]
      split
      · exact .of_idle rfl (add_right_cancel (settled_setQueue s .libp2pStreams _)) rfl
      · exact .of_idle rfl rfl rfl
    | ended =>
      simp only [step]
      split <;> exact .of_idle rfl rfl rfl
    | stream | fail | classified | classifyError | cancelled => exact .of_idle rfl rfl rfl
  | acceptHolds r =>
    simp only [step]
    split
    · exact .of_settles rfl (settled_reset s r .closing) rfl
    · exact .of_settles rfl (settled_return s r) rfl
  | next q =>
    simp only [step]
    split <;> exact .of_idle rfl rfl rfl
  | nextPop q =>
    refine trades_pop rfl rfl (fun _ _ => rfl) fun s r => ?_
    simpa using settled_return s r
  | closeSide c => exact trades_claim s c
  | release c work =>
    cases work with
    | nil => exact .of_idle rfl rfl rfl
    | cons w work => exact trades_perform s c work w

end Trades

end Conn

/-- Every stream QUIC handed out is settled or in the hands of one goroutine. -/
def System.Balanced (p : System) : Prop :=
  p.shared.settled + p.held streams = Multiset.range p.shared.accepted

theorem System.Balanced.run {p : System} (h : p.Balanced) (i : Nat) (o : Outcome) :
    System.Balanced (run Conn.step p i o) := by
  refine run_frame Conn.step streams
    (Φ := fun s m => s.settled + m = Multiset.range s.accepted) (fun s t o m hs => ?_) h i o
  have htrade : _ = _ := Conn.step_trades s t o
  generalize s.step t o = res at htrade ⊢
  have hsum : res.1.settled + ((res.2.map streams).sum + m) + Multiset.range s.accepted
      = Multiset.range res.1.accepted + Multiset.range s.accepted := by
    calc res.1.settled + ((res.2.map streams).sum + m) + Multiset.range s.accepted
        = res.1.settled + (res.2.map streams).sum + Multiset.range s.accepted + m := by abel
      _ = s.settled + t.streams + Multiset.range res.1.accepted + m := by rw [htrade]
      _ = Multiset.range res.1.accepted + (s.settled + (t.streams + m)) := by abel
      _ = Multiset.range res.1.accepted + Multiset.range s.accepted := by rw [hs]
  exact add_right_cancel hsum

/-! ## Claims -/

/-- The bits of the views in a list. -/
def bits (views : List Side) : UInt32 := views.foldr (fun v b => v.bit ||| b) 0

/-- There are two views. -/
theorem sides_cases {views : List Side} (h : views.Nodup) :
    views = [] ∨ (∃ v, views = [v]) ∨ ∃ v w, v ≠ w ∧ views = [v, w] := by
  rcases views with _ | ⟨a, _ | ⟨b, _ | ⟨c, rest⟩⟩⟩
  · exact .inl rfl
  · exact .inr (.inl ⟨a, rfl⟩)
  · exact .inr (.inr ⟨a, b, by simpa using h, rfl⟩)
  · cases a <;> cases b <;> cases c <;> simp at h

variable {s : Conn} {c : CloseCall}

/-- `claimRelease` reads the bitfield right: it reports the first claim of each view, and the last
of the two. -/
theorem claimRelease_spec {views : List Side} (hbits : s.closed = bits views)
    (hnodup : views.Nodup) (want : Side) :
    ((s.claimRelease want).1 = true ∧ want ∉ views ∧
      ((s.claimRelease want).2 = true ↔ views ≠ []) ∧ s.closed ||| want.bit = bits (views ++ [want])) ∨
    ((s.claimRelease want).1 = false ∧ want ∈ views ∧ s.closed ||| want.bit = bits views) := by
  unfold claimRelease
  rw [hbits]
  rcases sides_cases hnodup with rfl | ⟨v, rfl⟩ | ⟨v, w, hne, rfl⟩
  · cases want <;> decide
  · cases v <;> cases want <;> decide
  · cases v <;> cases w <;> cases want <;> first | exact absurd rfl hne | decide

/-- The bitfield, the attempts and the first of them for each view agree. -/
structure Conn.Claims (s : Conn) : Prop where
  bits : s.closed = bits (s.released.map want)
  distinct : (s.released.map want).Nodup
  first : ∀ c ∈ s.released, s.attempts.find? (fun d => d.want == c.want) = some c
  claimed : ∀ c ∈ s.attempts, c.want ∈ s.released.map want

/-- The right to close the connection, as a task of a release may still have it. -/
def Task.closesConn : Task → Nat
  | .release _ work => work.count .closeConn
  | _ => 0

/-- A close call that has not claimed yet. -/
def Task.calling : Task → Multiset Nat
  | .closeSide c => {c.id}
  | _ => 0

/-- The tasks of a close call. -/
def Task.isClose : Task → Bool
  | .closeSide _ | .release _ _ => true
  | _ => false

/-- What the tasks of streams leave alone: all that a release looks at.  A closed queue at most loses
items. -/
structure Quiet (s s' : Conn) : Prop where
  closed : s'.closed = s.closed
  calls : s'.calls = s.calls
  attempts : s'.attempts = s.attempts
  released : s'.released = s.released
  worked : s'.worked = s.worked
  finished : s'.finished = s.finished
  closes : s'.closes = s.closes
  queues : ∀ q, (s'.queue q).closed = (s.queue q).closed ∧
    ((s.queue q).closed = true → (s'.queue q).items <:+ (s.queue q).items)

namespace Quiet

variable {s : Conn}

theorem of_queue {s' : Conn} (h : s' = { s with
      rawDone := s'.rawDone, ctx := s'.ctx, biSem := s'.biSem, accepted := s'.accepted
      returned := s'.returned, resets := s'.resets, unclassified := s'.unclassified }) : Quiet s s' := by
  rw [h]
  exact ⟨rfl, rfl, rfl, rfl, rfl, rfl, rfl, fun q => ⟨rfl, fun _ => suffix_refl _⟩⟩

theorem setQueue {q : QueueName} {Q : StreamQueue StreamRef} (hclosed : Q.closed = (s.queue q).closed)
    (hitems : (s.queue q).closed = true → Q.items <:+ (s.queue q).items) : Quiet s (s.setQueue q Q) := by
  refine ⟨rfl, rfl, rfl, rfl, rfl, rfl, rfl, fun k => ?_⟩
  by_cases hk : k = q
  · subst hk
    simpa [Conn.setQueue] using ⟨hclosed, hitems⟩
  · simp [Conn.setQueue, hk]

theorem trans {s' s'' : Conn} (h : Quiet s s') (h' : Quiet s' s'') : Quiet s s'' where
  closed := h'.closed.trans h.closed
  calls := h'.calls.trans h.calls
  attempts := h'.attempts.trans h.attempts
  released := h'.released.trans h.released
  worked := h'.worked.trans h.worked
  finished := h'.finished.trans h.finished
  closes := h'.closes.trans h.closes
  queues q := by
    obtain ⟨hc, hi⟩ := h.queues q
    obtain ⟨hc', hi'⟩ := h'.queues q
    exact ⟨hc'.trans hc, fun hq => (hi' (hc ▸ hq)).trans (hi hq)⟩

theorem refl (s : Conn) : Quiet s s := of_queue rfl

theorem pushOrReset (q : QueueName) (r : StreamRef) : Quiet s (s.pushOrReset q r) := by
  unfold Conn.pushOrReset
  rcases (s.queue q).push_cases r with ⟨hp, _⟩ | ⟨hp, hopen, hclosed, _⟩
  · generalize (s.queue q).push r = res at hp
    obtain ⟨b, Q⟩ := res
    obtain rfl : b = false := hp
    exact of_queue rfl
  generalize (s.queue q).push r = res at hp hclosed
  obtain ⟨b, Q⟩ := res
  obtain rfl : b = true := hp
  refine setQueue (hclosed.trans hopen.symm) fun hq => ?_
  rw [hopen] at hq
  cases hq

theorem pop {q : QueueName} {found : Conn → StreamRef → Conn × List Task} {empty : List Task}
    (hfound : ∀ s r, Quiet s (found s r).1 ∧ ∀ u ∈ (found s r).2, u.isClose = false)
    (hempty : ∀ u ∈ empty, u.isClose = false) :
    Quiet s (s.pop q found empty).1 ∧ ∀ u ∈ (s.pop q found empty).2, u.isClose = false := by
  unfold Conn.pop
  rcases (s.queue q).tryPop_cases with ⟨hnone, hsame⟩ | ⟨item, hsome, hitems, hclosed⟩
  · generalize (s.queue q).tryPop = res at hnone hsame
    obtain ⟨r, Q⟩ := res
    obtain rfl : r = none := hnone
    obtain rfl : Q = s.queue q := hsame
    exact ⟨setQueue rfl fun _ => suffix_refl _, hempty⟩
  generalize (s.queue q).tryPop = res at hsome hitems hclosed
  obtain ⟨r, Q⟩ := res
  obtain rfl : r = some item := hsome
  have hset : Quiet s (s.setQueue q Q) := by
    refine setQueue hclosed fun _ => ?_
    rw [hitems]
    exact suffix_cons item Q.items
  exact ⟨hset.trans (hfound _ _).1, (hfound _ _).2⟩

/-- The tasks of streams are quiet and start no close call. -/
theorem step {t : Task} (ht : t.isClose = false) (o : Outcome) :
    Quiet s (s.step t o).1 ∧ ∀ u ∈ (s.step t o).2, u.isClose = false := by
  cases t with
  | closeSide | release => cases ht
  | drainUni => cases o <;> exact ⟨of_queue rfl, by simp [Conn.step, isClose]⟩
  | uniAccepted r | deliver r v | acceptHolds r | next q =>
    simp only [Conn.step]
    split <;> exact ⟨of_queue rfl, by simp [isClose]⟩
  | uniPush r => exact ⟨pushOrReset .ethp2pUni r, by simp [Conn.step, isClose]⟩
  | drainBidi =>
    cases o <;> simp only [Conn.step] <;> split <;>
      exact ⟨of_queue rfl, by simp [isClose]⟩
  | acceptBidi | classify r => cases o <;> exact ⟨of_queue rfl, by simp [Conn.step, isClose]⟩
  | push r v =>
    exact ⟨(pushOrReset v.bidi r).trans (of_queue rfl), by simp [Conn.step]⟩
  | acceptStream =>
    exact pop (fun _ _ => ⟨refl _, by simp [isClose]⟩) (by simp [isClose])
  | nextPop q => exact pop (fun _ _ => ⟨of_queue rfl, by simp⟩) (by simp)
  | acceptWait =>
    cases o with
    | ready =>
      simp only [Conn.step]
      split
      · exact ⟨setQueue rfl fun _ => suffix_refl _, by simp [isClose]⟩
      · exact ⟨refl s, by simp [isClose]⟩
    | ended =>
      simp only [Conn.step]
      split <;> exact ⟨refl s, by simp [isClose]⟩
    | stream | fail | classified | classifyError | cancelled =>
      exact ⟨refl s, by simp [Conn.step, isClose]⟩

end Quiet

theorem Task.no_close {t : Task} (h : t.isClose = false) : t.closesConn = 0 ∧ t.calling = 0 := by
  cases t with
  | closeSide | release => cases h
  | _ => exact ⟨rfl, rfl⟩

theorem Task.sum_no_close {tasks : List Task} (h : ∀ u ∈ tasks, u.isClose = false) :
    (tasks.map closesConn).sum = 0 ∧ (tasks.map calling).sum = 0 := by
  induction tasks with
  | nil => exact ⟨rfl, rfl⟩
  | cons t tasks ih =>
    obtain ⟨hconn, hcall⟩ := ih fun u hu => h u (mem_cons_of_mem t hu)
    obtain ⟨hconn', hcall'⟩ := no_close (h t mem_cons_self)
    simp [hconn, hcall, hconn', hcall']

section Claim

variable {s : Conn} (h : s.Claims) (c : CloseCall)

include h

/-- The first claim of a view makes it released and starts its release; a later one is only noted. -/
theorem claim_cases :
    (c.want ∉ s.released.map want ∧
      s.claim c = ({ s with
          closed := bits ((s.released ++ [c]).map want)
          attempts := s.attempts ++ [c]
          released := s.released ++ [c] },
        [.release c (releaseWork c.want (s.released ≠ []))])) ∨
    (c.want ∈ s.released.map want ∧ s.claim c = ({ s with attempts := s.attempts ++ [c] }, [])) := by
  unfold claim
  rcases claimRelease_spec h.bits h.distinct c.want with
    ⟨hfirst, hnew, hlast, hbits⟩ | ⟨hfirst, hold, hbits⟩
  · refine .inl ⟨hnew, ?_⟩
    have hlast' : (s.claimRelease c.want).2 = decide (s.released ≠ []) := by
      rw [Bool.eq_iff_iff, hlast]
      simp
    rw [hfirst, if_pos rfl, hlast', hbits]
    simp
  · refine .inr ⟨hold, ?_⟩
    rw [hfirst, hbits, ← h.bits]
    rfl

theorem claims_claim : (s.claim c).1.Claims := by
  have hkept : ∀ d ∈ s.released,
      (s.attempts ++ [c]).find? (fun e => e.want == d.want) = some d := by
    intro d hd
    rw [find?_append, h.first d hd]
    rfl
  rcases claim_cases h c with ⟨hnew, heq⟩ | ⟨hold, heq⟩
  · rw [heq]
    refine ⟨rfl, ?_, fun d hd => ?_, fun d hd => ?_⟩
    · rw [map_append]
      exact h.distinct.append (by simp) (by simpa using hnew)
    · rcases mem_append.mp hd with hd | hd
      · exact hkept d hd
      -- nobody tried this view before
      obtain rfl : d = c := by simpa using hd
      have hnone : s.attempts.find? (fun e => e.want == d.want) = none := by
        rw [find?_eq_none]
        intro e he heq
        exact hnew (beq_iff_eq.mp heq ▸ h.claimed e he)
      simp [find?_append, hnone]
    · rw [map_append, mem_append]
      rcases mem_append.mp hd with hd | hd
      · exact .inl (h.claimed d hd)
      · exact .inr (by simpa using mem_singleton.mp hd ▸ rfl)
  · rw [heq]
    refine ⟨h.bits, h.distinct, hkept, fun d hd => ?_⟩
    rcases mem_append.mp hd with hd | hd
    · exact h.claimed d hd
    · rw [mem_singleton.mp hd]
      exact hold

end Claim

/-! ## What a release has done -/

/-- The release of `c` has `work` left: it closed the queues that are not in it, and if it released
the second view it closed the connection or still has to. -/
structure Releasing (s : Conn) (c : CloseCall) (work : List Work) : Prop where
  claimed : c ∈ s.released
  queues : ∀ q ∈ c.want.queues, .closeQueue q ∈ work ∨ (s.queue q).closed = true
  second : .closeConn ∈ work → ∃ c₁, s.released = [c₁, c]
  closing : ∀ c₁, s.released = [c₁, c] → .closeConn ∈ work ∨ s.closes ≠ []

/-- The assertion of a task. -/
def Relies (s : Conn) : Task → Prop
  | .release c work => Releasing s c work
  | _ => True

/-- The invariant of the shared state. -/
structure Ordered (s : Conn) : Prop where
  claims : s.Claims
  worked : ∀ cw ∈ s.worked, cw.1 ∈ s.released
  closes : ∀ r ∈ s.closes, ∃ c₁ c₂, s.released = [c₁, c₂] ∧ r = (c₂.code, c₂.reason)
  finished : ∀ c ∈ s.finished, Releasing s c []
  empty : ∀ q, (s.queue q).closed = true → (s.queue q).items = []

/-- What any step may do to what releases rely on. -/
structure Grows (s s' : Conn) : Prop where
  released : s'.released = s.released ∨ ∃ d, s'.released = s.released ++ [d] ∧ d.want ∉ s.released.map want
  queues : ∀ q, (s.queue q).closed = true → (s'.queue q).closed = true
  closes : s.closes ≠ [] → s'.closes ≠ []

variable {s' : Conn}

theorem Quiet.grows (h : Quiet s s') : Grows s s' where
  released := .inl h.released
  queues q hq := (h.queues q).1.trans hq
  closes hc := by rwa [h.closes]

/-- Once both views are released no other claim is a first one. -/
theorem Conn.Claims.full (h : s.Claims) {c₁ c₂ : CloseCall} (hr : s.released = [c₁, c₂])
    (v : Side) : v ∈ s.released.map want := by
  have hne : c₁.want ≠ c₂.want := by simpa [hr] using h.distinct
  rw [hr]
  revert hne
  simp only [map_cons, map_nil, mem_cons, not_mem_nil, or_false]
  cases c₁.want <;> cases c₂.want <;> cases v <;> decide

theorem Releasing.grows {work : List Work} (h : Releasing s c work)
    (hs : s.Claims) (hg : Grows s s') : Releasing s' c work := by
  have hqueues : ∀ q ∈ c.want.queues, Work.closeQueue q ∈ work ∨ (s'.queue q).closed = true :=
    fun q hq => (h.queues q hq).imp_right (hg.queues q)
  rcases hg.released with hsame | ⟨d, hnew, hd⟩
  · refine ⟨hsame ▸ h.claimed, hqueues, ?_, ?_⟩
    · rw [hsame]
      exact h.second
    · rw [hsame]
      exact fun c₁ hc => (h.closing c₁ hc).imp_right hg.closes
  refine ⟨hnew ▸ mem_append_left _ h.claimed, hqueues, fun hw => ?_, fun c₁ hc => ?_⟩
  · obtain ⟨c₁, hr⟩ := h.second hw
    exact absurd (hs.full hr d.want) hd
  -- the new claim would be the one of `c`, which is an old one
  rw [hnew] at hc
  obtain rfl : d = c := by simpa using congrArg getLast? hc
  exact absurd (mem_map_of_mem h.claimed) hd

theorem Relies.grows {t : Task} (h : Relies s t) (hs : s.Claims) (hg : Grows s s') : Relies s' t := by
  cases t with
  | release c work => exact Releasing.grows h hs hg
  | _ => trivial

theorem Quiet.ordered (hq : Quiet s s') (h : Ordered s) : Ordered s' where
  claims := by
    refine ⟨?_, ?_, ?_, ?_⟩
    · rw [hq.closed, hq.released]
      exact h.claims.bits
    · rw [hq.released]
      exact h.claims.distinct
    · rw [hq.released, hq.attempts]
      exact h.claims.first
    · rw [hq.released, hq.attempts]
      exact h.claims.claimed
  worked := by
    rw [hq.worked, hq.released]
    exact h.worked
  closes := by
    rw [hq.closes, hq.released]
    exact h.closes
  finished c hc := (h.finished c (hq.finished ▸ hc)).grows h.claims hq.grows
  empty q hc := by
    obtain ⟨hsame, hitems⟩ := hq.queues q
    rw [hsame] at hc
    have hsuffix := hitems hc
    rw [h.empty q hc] at hsuffix
    exact suffix_nil.mp hsuffix

/-- What one part of the work of `c` does to what releases rely on. -/
structure Performs (s s' : Conn) (c : CloseCall) (w : Work) : Prop where
  closed : s'.closed = s.closed
  attempts : s'.attempts = s.attempts
  released : s'.released = s.released
  finished : s'.finished = s.finished
  worked : s'.worked = s.worked ++ [(c, w)]
  closes : s'.closes = if w = .closeConn then s.closes ++ [(c.code, c.reason)] else s.closes
  queues : ∀ q, s'.queue q = if w = .closeQueue q then { s.queue q with closed := true, items := [] } else s.queue q

theorem performs (s : Conn) (c : CloseCall) (work : List Work) (w : Work) :
    Performs s { (s.perform c work w).1 with worked := s.worked ++ [(c, w)] } c w := by
  cases w with
  | cancel | reset r => exact ⟨rfl, rfl, rfl, rfl, rfl, by simp [perform, cancel, reset],
      fun q => by simp [perform, cancel, reset]⟩
  | closeConn => exact ⟨rfl, rfl, rfl, rfl, rfl, by simp [perform], fun q => by simp [perform]⟩
  | closeQueue q =>
    refine ⟨rfl, rfl, rfl, rfl, rfl, by simp [perform, setQueue], fun k => ?_⟩
    by_cases hk : k = q
    · subst hk
      simp [perform, setQueue, StreamQueue.close]
    · simp [perform, setQueue, hk, Ne.symm hk]

/-- The rest of the work: closing a queue adds resets to it and nothing else. -/
theorem perform_work (s : Conn) (c : CloseCall) (work : List Work) (w : Work) :
    ∃ streams : List StreamRef, (s.perform c work w).2 = streams.map .reset ++ work := by
  cases w with
  | closeQueue q => exact ⟨(s.queue q).items, rfl⟩
  | cancel | closeConn | reset => exact ⟨[], rfl⟩

theorem Performs.grows {w : Work} (hp : Performs s s' c w) :
    Grows s s' where
  released := .inl hp.released
  queues q hq := by
    rw [hp.queues]
    split
    · rfl
    · exact hq
  closes hc := by
    rw [hp.closes]
    split
    · simp
    · exact hc

/-- A part of the work is done: what it was about holds now, the rest is still to do. -/
theorem Performs.releasing {w : Work} {work : List Work}
    {streams : List StreamRef} (hp : Performs s s' c w) (hc : Releasing s c (w :: work)) :
    Releasing s' c (streams.map .reset ++ work) := by
  refine ⟨hp.released ▸ hc.claimed, fun q hq => ?_, fun hw => ?_, fun c₁ hr => ?_⟩
  · rcases hc.queues q hq with hmem | hclosed
    · rcases mem_cons.mp hmem with rfl | hmem
      · rw [hp.queues, if_pos rfl]
        exact .inr rfl
      · exact .inl (mem_append_right _ hmem)
    · exact .inr (hp.grows.queues q hclosed)
  · rw [hp.released]
    rcases mem_append.mp hw with hw | hw
    · simp at hw
    · exact hc.second (mem_cons_of_mem w hw)
  · rw [hp.released] at hr
    rcases hc.closing c₁ hr with hmem | hclosed
    · rcases mem_cons.mp hmem with rfl | hmem
      · rw [hp.closes, if_pos rfl]
        exact .inr (by simp)
      · exact .inl (mem_append_right _ hmem)
    · exact .inr (hp.grows.closes hclosed)

section Ordered

variable {s : Conn} (h : Ordered s)

include h

/-- A claim, and what the release it may start can rely on. -/
theorem ordered_claim (c : CloseCall) :
    Ordered (s.claim c).1 ∧ Grows s (s.claim c).1 ∧ ∀ u ∈ (s.claim c).2, Relies (s.claim c).1 u := by
  have hclaims := claims_claim h.claims c
  rcases claim_cases h.claims c with ⟨hnew, heq⟩ | ⟨hold, heq⟩
  · rw [heq] at hclaims ⊢
    have hg : Grows s { s with
        closed := bits ((s.released ++ [c]).map want)
        attempts := s.attempts ++ [c]
        released := s.released ++ [c] } :=
      ⟨.inr ⟨c, rfl, hnew⟩, fun _ hq => hq, fun hc => hc⟩
    refine ⟨⟨hclaims, fun cw hcw => mem_append_left _ (h.worked cw hcw), fun r hr => ?_,
      fun d hd => (h.finished d hd).grows h.claims hg, h.empty⟩, hg, fun u hu => ?_⟩
    · -- a connection already closed leaves no view to claim
      obtain ⟨c₁, c₂, hrel, _⟩ := h.closes r hr
      exact absurd (h.claims.full hrel c.want) hnew
    obtain rfl := mem_singleton.mp hu
    refine ⟨mem_append_right _ (by simp), fun q hq => .inl ?_, fun hw => ?_, fun c₁ hc => .inl ?_⟩
    · exact mem_cons_of_mem _ (mem_append_right _ (mem_map_of_mem hq))
    · -- the connection is to be closed, so exactly one view was released before
      have hsome : s.released ≠ [] := by
        intro hnil
        simp [releaseWork, hnil] at hw
      rcases sides_cases h.claims.distinct with hnil | ⟨v, hone⟩ | ⟨v, w, hne, htwo⟩
      · exact absurd (map_eq_nil_iff.mp hnil) hsome
      · obtain ⟨c₁, hc₁, _⟩ := map_eq_singleton_iff.mp hone
        exact ⟨c₁, by simp [hc₁]⟩
      refine absurd ?_ hnew
      rw [htwo]
      revert hne
      cases v <;> cases w <;> cases c.want <;> decide
    · have hsome : s.released ≠ [] := by
        rintro hnil
        simp [hnil] at hc
      simp [releaseWork, hsome]
  · rw [heq] at hclaims ⊢
    have hg : Grows s { s with attempts := s.attempts ++ [c] } :=
      ⟨.inl rfl, fun _ hq => hq, fun hc => hc⟩
    refine ⟨⟨hclaims, h.worked, h.closes, fun d hd => (h.finished d hd).grows h.claims hg, h.empty⟩, hg, fun u hu => ?_⟩
    cases hu

theorem Performs.ordered {w : Work} {work : List Work}
    (hp : Performs s s' c w) (hc : Releasing s c (w :: work)) : Ordered s' where
  claims := by
    refine ⟨?_, ?_, ?_, ?_⟩ <;> simp only [hp.closed, hp.released, hp.attempts]
    exacts [h.claims.bits, h.claims.distinct, h.claims.first, h.claims.claimed]
  worked cw hcw := by
    rw [hp.worked] at hcw
    rw [hp.released]
    rcases mem_append.mp hcw with hcw | hcw
    · exact h.worked cw hcw
    · rw [mem_singleton.mp hcw]
      exact hc.claimed
  closes r hr := by
    rw [hp.closes] at hr
    rw [hp.released]
    split at hr
    · rename_i hw
      rcases mem_append.mp hr with hr | hr
      · exact h.closes r hr
      -- only the release of the second view has this work to do
      obtain ⟨c₁, hrel⟩ := hc.second (hw ▸ mem_cons_self)
      exact ⟨c₁, c, hrel, mem_singleton.mp hr⟩
    · exact h.closes r hr
  finished d hd := (h.finished d (hp.finished ▸ hd)).grows h.claims hp.grows
  empty q hq := by
    rw [hp.queues] at hq ⊢
    split
    · rfl
    rename_i hw
    rw [if_neg hw] at hq
    exact h.empty q hq

/-- **One step of any task** keeps the invariant, gives the tasks it leaves behind their assertions
and changes what others rely on only as `Grows` says. -/
theorem ordered_step {t : Task} (ht : Relies s t) (o : Outcome) :
    Ordered (s.step t o).1 ∧ Grows s (s.step t o).1 ∧ ∀ u ∈ (s.step t o).2, Relies (s.step t o).1 u := by
  cases hclose : t.isClose with
  | false =>
    obtain ⟨hquiet, htasks⟩ := Quiet.step (s := s) hclose o
    refine ⟨hquiet.ordered h, hquiet.grows, fun u hu => ?_⟩
    have := htasks u hu
    cases u with
    | release => cases this
    | _ => trivial
  | true =>
    cases t with
    | closeSide c => exact ordered_claim h c
    | release c work =>
      cases work with
      | nil =>
        have hg : Grows s { s with finished := s.finished ++ [c] } :=
          ⟨.inl rfl, fun _ hq => hq, fun hc => hc⟩
        refine ⟨⟨⟨h.claims.bits, h.claims.distinct, h.claims.first, h.claims.claimed⟩, h.worked,
          h.closes, fun d hd => ?_, h.empty⟩, hg, fun u hu => by cases hu⟩
        rcases mem_append.mp hd with hd | hd
        · exact (h.finished d hd).grows h.claims hg
        · rw [mem_singleton.mp hd]
          exact Releasing.grows ht h.claims hg
      | cons w work =>
        have hp := performs s c work w
        obtain ⟨streams, hwork⟩ := perform_work s c work w
        refine ⟨hp.ordered h ht, hp.grows, fun u hu => ?_⟩
        rw [mem_singleton.mp hu, hwork]
        exact hp.releasing ht
    | _ => cases hclose

end Ordered

/-! ## The right to close the connection, and the calls -/

theorem claims_step (h : s.Claims) (t : Task) (o : Outcome) : (s.step t o).1.Claims := by
  have hsame : ∀ {s' : Conn}, s'.closed = s.closed → s'.released = s.released →
      s'.attempts = s.attempts → s'.Claims := by
    intro s' hclosed hreleased hattempts
    refine ⟨?_, ?_, ?_, ?_⟩ <;> simp only [hclosed, hreleased, hattempts]
    exacts [h.bits, h.distinct, h.first, h.claimed]
  cases hclose : t.isClose with
  | false =>
    obtain ⟨hquiet, _⟩ := Quiet.step (s := s) hclose o
    exact hsame hquiet.closed hquiet.released hquiet.attempts
  | true =>
    cases t with
    | closeSide c => exact claims_claim h c
    | release c work =>
      cases work with
      | nil => exact hsame rfl rfl rfl
      | cons w work =>
        have hp := performs s c work w
        exact hsame hp.closed hp.released hp.attempts
    | _ => cases hclose

/-- The number of times the connection is to be closed, as the claims have it. -/
def Conn.closesDue (s : Conn) : Nat := if s.released.length = 2 then 1 else 0

/-- A step spends the right to close the connection by closing it; the claim of the second view
creates it. -/
theorem step_closesDue (h : s.Claims) (t : Task) (o : Outcome) :
    (s.step t o).1.closes.length + ((s.step t o).2.map closesConn).sum + s.closesDue =
      s.closes.length + t.closesConn + (s.step t o).1.closesDue := by
  cases hclose : t.isClose with
  | false =>
    obtain ⟨hquiet, htasks⟩ := Quiet.step (s := s) hclose o
    rw [(sum_no_close htasks).1, (no_close hclose).1, hquiet.closes, closesDue, closesDue, hquiet.released]
  | true =>
    cases t with
    | closeSide c =>
      change (s.claim c).1.closes.length + ((s.claim c).2.map closesConn).sum + _ = _ + 0 + (s.claim c).1.closesDue
      rcases claim_cases h c with ⟨hnew, heq⟩ | ⟨_, heq⟩
      · rw [heq]
        have hqueues : ∀ qs : List QueueName,
            (qs.map Work.closeQueue).count .closeConn = 0 := by
          intro qs
          rw [count_eq_zero]
          simp
        rcases sides_cases h.distinct with hnil | ⟨v, hone⟩ | ⟨v, w, hne, htwo⟩
        · have : s.released = [] := map_eq_nil_iff.mp hnil
          simp [closesConn, releaseWork, closesDue, this, hqueues]
        · obtain ⟨d, hd, _⟩ := map_eq_singleton_iff.mp hone
          simp [closesConn, releaseWork, closesDue, hd, hqueues]
        refine absurd ?_ hnew
        rw [htwo]
        revert hne
        cases v <;> cases w <;> cases c.want <;> decide
      · rw [heq]
        simp [closesDue]
    | release c work =>
      cases work with
      | nil => rfl
      | cons w work =>
        have hp := performs s c work w
        obtain ⟨streams, hwork⟩ := perform_work s c work w
        have hresets : (streams.map Work.reset).count .closeConn = 0 := by
          rw [count_eq_zero]
          simp
        simp only [step, hp.closes, closesDue, hp.released, map_cons,
          map_nil, sum_cons, sum_nil, closesConn, hwork, count_append,
          hresets, count_cons, beq_iff_eq]
        split
        · rw [length_append, length_singleton]
          omega
        · omega
    | _ => cases hclose

/-- A close call is counted once, while it has not claimed and afterwards. -/
theorem step_calls (h : s.Claims) (t : Task) (o : Outcome) :
    (s.step t o).1.calls = s.calls ∧
    (((s.step t o).1.attempts.map CloseCall.id : List Nat) : Multiset Nat) + ((s.step t o).2.map calling).sum =
    ((s.attempts.map CloseCall.id : List Nat) : Multiset Nat) + t.calling := by
  cases hclose : t.isClose with
  | false =>
    obtain ⟨hquiet, htasks⟩ := Quiet.step (s := s) hclose o
    rw [(sum_no_close htasks).2, (no_close hclose).2, hquiet.attempts]
    exact ⟨hquiet.calls, rfl⟩
  | true =>
    cases t with
    | closeSide c =>
      change (s.claim c).1.calls = s.calls ∧
        (((s.claim c).1.attempts.map CloseCall.id : List Nat) : Multiset Nat) +
          ((s.claim c).2.map calling).sum = _ + {c.id}
      rcases claim_cases h c with ⟨_, heq⟩ | ⟨_, heq⟩
      · rw [heq]
        exact ⟨rfl, by simp [calling, ← Multiset.coe_add]⟩
      · rw [heq]
        exact ⟨rfl, by simp [← Multiset.coe_add]⟩
    | release c work =>
      cases work with
      | nil => exact ⟨rfl, rfl⟩
      | cons w work =>
        have hp := performs s c work w
        refine ⟨?_, ?_⟩
        · cases w <;> rfl
        · simp only [step, hp.attempts]
          rfl
    | _ => cases hclose

/-! ## Whole runs -/

namespace System

/-- The invariant of a connection with everything that runs on it. -/
structure Inv (p : System) : Prop where
  balanced : p.Balanced
  numbered : ((p.shared.attempts.map CloseCall.id : List Nat) : Multiset Nat) + p.held calling =
    Multiset.range p.shared.calls
  right : p.shared.closes.length + p.held closesConn = p.shared.closesDue
  ordered : p.Asserted Ordered Relies

theorem inv_init : Inv init where
  balanced := rfl
  numbered := rfl
  right := rfl
  ordered := by
    refine ⟨⟨⟨rfl, by simp [init], by simp [init], by simp [init]⟩, by simp [init], by simp [init],
      by simp [init], fun _ _ => rfl⟩, fun t ht => ?_⟩
    simp only [init, mem_cons, not_mem_nil, or_false] at ht
    rcases ht with rfl | rfl <;> trivial

variable {p : System}

theorem Inv.run (h : p.Inv) (i : Nat) (o : Outcome) : Inv (run Conn.step p i o) where
  balanced := h.balanced.run i o
  numbered := by
    refine (run_frame Conn.step calling
      (Φ := fun s m => s.Claims ∧ ((s.attempts.map CloseCall.id : List Nat) : Multiset Nat) + m =
        Multiset.range s.calls) (fun s t o m hs => ?_) ⟨h.ordered.1.claims, h.numbered⟩ i o).2
    obtain ⟨hcalls, hmove⟩ := step_calls hs.1 t o
    refine ⟨claims_step hs.1 t o, ?_⟩
    rw [hcalls, ← hs.2, ← add_assoc, hmove, add_assoc]
  right := by
    refine (run_frame Conn.step closesConn
      (Φ := fun s n => s.Claims ∧ s.closes.length + n = s.closesDue) (fun s t o n hs => ?_)
      ⟨h.ordered.1.claims, h.right⟩ i o).2
    have hmove := step_closesDue hs.1 t o
    refine ⟨claims_step hs.1 t o, ?_⟩
    have hsum := hs.2
    omega
  ordered :=
    run_asserts Conn.step
      (fun _ _ o hs ht => ⟨(ordered_step hs ht o).1, (ordered_step hs ht o).2.2⟩)
      (fun _ _ o _ hs ht hu => Relies.grows hu hs.claims (ordered_step hs ht o).2.1) h.ordered i o

/-- A consumer's call joins the pool with empty hands. -/
theorem Inv.spawn (h : p.Inv) {t : Task} (hstreams : t.streams = 0) (hclose : t.isClose = false) :
    Inv (p.spawn t) := by
  have ht := no_close hclose
  refine ⟨?_, ?_, ?_, h.ordered.spawn ?_⟩
  · change _ + _ = _
    rw [held_spawn, hstreams, zero_add]
    exact h.balanced
  · rw [held_spawn, ht.2, zero_add]
    exact h.numbered
  · rw [held_spawn, ht.1, zero_add]
    exact h.right
  · cases t with
    | release => cases hclose
    | _ => trivial

/-- What happens to the contexts touches nothing else. -/
theorem Inv.contexts (h : p.Inv) (rawDone : Bool) (ctx : Side → Option Cause) :
    Inv ⟨{ p.shared with rawDone := rawDone, ctx := ctx }, p.tasks⟩ := by
  have hquiet : Quiet p.shared { p.shared with rawDone := rawDone, ctx := ctx } := .of_queue rfl
  exact ⟨h.balanced, h.numbered, h.right, hquiet.ordered h.ordered.1,
    fun t ht => (h.ordered.2 t ht).grows h.ordered.1.claims hquiet.grows⟩

theorem Inv.callClose (h : p.Inv) (want : Side) (code : Nat) (reason : String) (cause : Cause) :
    Inv (p.callClose want code reason cause) := by
  have hgrows : Grows p.shared { p.shared with calls := p.shared.calls + 1 } :=
    ⟨.inl rfl, fun _ hq => hq, fun hc => hc⟩
  have hclaims := h.ordered.1.claims
  refine ⟨?_, ?_, ?_, Asserted.spawn ⟨?_, fun t ht => ?_⟩ trivial⟩
  · change _ + _ = _
    rw [System.callClose, held_spawn]
    change _ + (0 + _) = _
    rw [zero_add]
    exact h.balanced
  · have hnum := h.numbered
    rw [System.callClose, Pool.held_spawn]
    simp only [Pool.spawn, calling, Multiset.range_succ, ← Multiset.singleton_add, ← hnum]
    change _ + ({p.shared.calls} + p.held calling) = _
    abel
  · rw [System.callClose, held_spawn]
    change _ + (0 + _) = _
    rw [zero_add]
    exact h.right
  · exact ⟨⟨hclaims.bits, hclaims.distinct, hclaims.first, hclaims.claimed⟩, h.ordered.1.worked,
      h.ordered.1.closes, fun c hc => (h.ordered.1.finished c hc).grows hclaims hgrows,
      h.ordered.1.empty⟩
  · exact (h.ordered.2 t ht).grows hclaims hgrows

theorem Inv.step (h : p.Inv) (e : Event) : Inv (p.step e) := by
  cases e with
  | closeWithCode code | closeWithError code reason => exact h.callClose _ _ _ _
  | acceptStream | nextStream | nextUniStream => exact h.spawn rfl rfl
  | connDone => exact h.contexts true p.shared.ctx
  | viewDone v =>
    simp only [System.step]
    split
    · exact h.contexts p.shared.rawDone _
    · exact h
  | run i o => exact h.run i o

/-- **The property.**  The connection is closed at most once, by the call that released the second
view, with that call's code and reason, and it is closed when that call is done.  Release work is
done by the first call of each view only.  Every stream QUIC handed out is in one place, so it is
returned once or reset once or neither, and the queues of a view whose release is done are empty. -/
structure Released (p : System) : Prop where
  closedOnce : p.shared.closes.length ≤ 1
  closedBySecond : ∀ r ∈ p.shared.closes, ∃ c₁ c₂, p.shared.released = [c₁, c₂] ∧
    c₁.want ≠ c₂.want ∧ r = (c₂.code, c₂.reason)
  closedWhenReleased : ∀ c₁ c₂, p.shared.released = [c₁, c₂] → c₂ ∈ p.shared.finished →
    p.shared.closes = [(c₂.code, c₂.reason)]
  distinctCalls : (p.shared.attempts.map CloseCall.id).Nodup
  firstOnly : ∀ cw ∈ p.shared.worked, p.shared.attempts.find? (fun d => d.want == cw.1.want) = some cw.1
  onePlace : p.Balanced
  takenOnce : (p.shared.returned ++ p.shared.resets.map Prod.fst).Nodup
  drained : ∀ c ∈ p.shared.finished, ∀ q ∈ c.want.queues, (p.shared.queue q).items = []

theorem Inv.released (h : p.Inv) : p.Released where
  closedOnce := by
    have hright := h.right
    unfold closesDue at hright
    split at hright <;> omega
  closedBySecond r hr := by
    obtain ⟨c₁, c₂, hrel, heq⟩ := h.ordered.1.closes r hr
    have hne : c₁.want ≠ c₂.want := by simpa [hrel] using h.ordered.1.claims.distinct
    exact ⟨c₁, c₂, hrel, hne, heq⟩
  closedWhenReleased c₁ c₂ hrel hfin := by
    have hne : p.shared.closes ≠ [] := by
      rcases (h.ordered.1.finished c₂ hfin).closing c₁ hrel with hmem | hne
      · cases hmem
      · exact hne
    -- one close at most, and every close is the second call's
    have hright := h.right
    simp only [closesDue, hrel, length_cons, length_nil] at hright
    obtain ⟨r, rest, hcons⟩ := exists_cons_of_ne_nil hne
    obtain ⟨d₁, d₂, hrel', hr⟩ := h.ordered.1.closes r (hcons ▸ mem_cons_self)
    rw [hrel] at hrel'
    obtain ⟨rfl, rfl⟩ : c₁ = d₁ ∧ c₂ = d₂ := by simpa using hrel'
    have hrest : rest = [] := by
      rw [hcons, length_cons] at hright
      exact length_eq_zero_iff.mp (by simp at hright; omega)
    rw [hcons, hrest, hr]
  distinctCalls := by
    have hle : ((p.shared.attempts.map CloseCall.id : List Nat) : Multiset Nat) ≤
        Multiset.range p.shared.calls := h.numbered ▸ Multiset.le_add_right _ _
    exact Multiset.coe_nodup.mp (Multiset.nodup_of_le hle (Multiset.nodup_range _))
  firstOnly cw hcw := h.ordered.1.claims.first cw.1 (h.ordered.1.worked cw hcw)
  onePlace := h.balanced
  takenOnce := by
    have hle : ((p.shared.returned ++ p.shared.resets.map Prod.fst : List StreamRef) :
        Multiset StreamRef) ≤ Multiset.range p.shared.accepted := by
      rw [← h.balanced, ← Multiset.coe_add]
      refine le_trans ?_ (Multiset.le_add_right _ _)
      refine le_trans ?_ (Multiset.le_add_right _ _)
      rw [add_assoc]
      exact Multiset.le_add_left _ _
    exact Multiset.coe_nodup.mp (Multiset.nodup_of_le hle (Multiset.nodup_range _))
  drained c hc q hq := by
    rcases (h.ordered.1.finished c hc).queues q hq with hmem | hclosed
    · cases hmem
    · exact h.ordered.1.empty q hclosed

/-- **Releasing a shared connection.**  In every interleaving of close calls, dispatchers,
classifications and consumers the property holds at every point. -/
theorem released_of_run (events : List Event) : Released (exec System.step init events) :=
  (exec_invariant System.step (I := Inv) (fun _ e h => h.step e) inv_init events).released

-- libp2p is released first, with a stream still being classified for it; the ethp2p release closes
-- the connection with its own code, and the late stream is reset by its own goroutine
example :
    let events : List Event := [.run 0 .ready, .run 0 .stream, .closeWithError 0 "done", .run 0 .ready,
      .run 0 .ready, .run 0 .ready, .run 0 .ready, .run 0 (.classified .libp2p), .run 0 .ready,
      .closeWithCode .closing, .run 0 .ready, .run 0 .ready, .run 0 .ready]
    let p := exec System.step init events
    p.shared.closes = [(20, "Closing")] ∧ p.shared.resets = [(0, .closing)] ∧ p.shared.returned = [] := by
  decide

end System

end EthP2P.Transport
