/-
# EthP2P.Transport.Conn — one QUIC connection shared by the libp2p and the ethp2p view

`Conn` (`transport/conn.go`) splits one QUIC connection into two views.  Incoming streams are accepted
by two dispatchers, `drainUni` and `drainBidi`; a bidirectional stream is classified in a goroutine of
its own, and every stream then waits in a `streamQueue` (`transport/queue.go`) of the view it belongs
to until `NextStream`, `NextUniStream` or libp2p's `AcceptStream` takes it.  Each view is released by
`closeSide`, and the one that releases the second view closes the connection.

All of this runs concurrently.  The model is a pool of tasks over the connection's shared state: one
task for each dispatcher, classification goroutine and call, one step for each atomic action (an
atomic read-modify-write, a queue operation under its mutex, a read of a context, an answer of QUIC).
Streams are numbered in the order in which QUIC hands them out.
-/
import EthP2P.Lib.Pool
import EthP2P.Lib.Runs
import EthP2P.Wire.Codes
import Mathlib.Logic.Function.Basic

namespace EthP2P.Transport

open Lib Wire

/-! ## Stream queues -/

/-- `streamQueue`; `ready` says that the one-element wake channel holds its token. -/
structure StreamQueue (α : Type) where
  items : List α := []
  closed : Bool := false
  ready : Bool := false
  deriving DecidableEq

namespace StreamQueue

variable {α : Type} (q : StreamQueue α)

def signal : StreamQueue α := { q with ready := true }

def push (item : α) : Bool × StreamQueue α :=
  if q.closed then (false, q) else (true, signal { q with items := q.items ++ [item] })

/-- `tryPop`; a queue that stays non-empty stays signaled. -/
def tryPop : Option α × StreamQueue α :=
  match q.items with
  | [] => (none, q)
  | item :: items =>
    (some item, if items.isEmpty then { q with items := [] } else signal { q with items := items })

/-- `close`: the caller takes over what is queued. -/
def close : List α × StreamQueue α := (q.items, { q with closed := true, items := [] })

theorem push_cases (item : α) :
    (q.push item).1 = false ∧ q.closed = true ∨
    (q.push item).1 = true ∧ q.closed = false ∧ (q.push item).2.closed = false ∧
      (q.push item).2.items = q.items ++ [item] := by
  unfold push
  cases q.closed with
  | true => exact .inl ⟨rfl, rfl⟩
  | false => exact .inr ⟨rfl, rfl, rfl, rfl⟩

theorem tryPop_cases :
    q.tryPop.1 = none ∧ q.tryPop.2 = q ∨
    ∃ item, q.tryPop.1 = some item ∧ q.items = item :: q.tryPop.2.items ∧ q.tryPop.2.closed = q.closed := by
  unfold tryPop
  cases hq : q.items with
  | nil => exact .inl ⟨rfl, rfl⟩
  | cons item items =>
    refine .inr ⟨item, rfl, ?_⟩
    cases items with
    | nil => exact ⟨rfl, rfl⟩
    | cons next rest => exact ⟨rfl, rfl⟩

end StreamQueue

/-! ## The shared state -/

/-- `side`, one view of the connection. -/
inductive Side where
  | libp2p
  | ethp2p
  deriving DecidableEq, Repr

/-- The bit of a view in `Conn.closed`. -/
def Side.bit : Side → UInt32
  | .libp2p => 1
  | .ethp2p => 2

/-- The three delivery queues of a connection. -/
inductive QueueName where
  | libp2pStreams
  | ethp2pBidi
  | ethp2pUni
  deriving DecidableEq, Repr

/-- The queues a view's release drains, in the order in which it does. -/
def Side.queues : Side → List QueueName
  | .libp2p => [.libp2pStreams]
  | .ethp2p => [.ethp2pBidi, .ethp2pUni]

/-- Where a classified bidirectional stream goes. -/
def Side.bidi : Side → QueueName
  | .libp2p => .libp2pStreams
  | .ethp2p => .ethp2pBidi

/-- Why a view's context ended. -/
inductive Cause where
  | connection
  /-- `ErrViewClosed`, the cause of a released libp2p view. -/
  | viewClosed
  /-- `&ViewClosedError{Code: code}`. -/
  | closedWith (code : Code)
  deriving DecidableEq, Repr

/-- The number of a stream in QUIC's order of acceptance. -/
abbrev StreamRef := Nat

/-- One call of `CloseWithCode` or of libp2p's `CloseWithError`, with the arguments it hands to
`closeSide`.  Calls are numbered. -/
structure CloseCall where
  id : Nat
  want : Side
  code : Nat
  reason : String
  cause : Cause
  deriving DecidableEq, Repr

/-- The parts of the release work of `closeSide`. -/
inductive Work where
  | cancel
  | closeConn
  | closeQueue (q : QueueName)
  | reset (s : StreamRef)
  deriving DecidableEq, Repr

def maxStreamsPendingClassify : Nat := 4

/-- The fields of `Conn` that its goroutines share.  What follows `accepted` is history; no function
of the model reads it. -/
structure Conn where
  /-- `closed`, the bitfield of released views. -/
  closed : UInt32 := 0
  /-- The QUIC connection's own context has ended. -/
  rawDone : Bool := false
  /-- `libp2pCtx` and `ethp2pCtx`: the cause, once the context has ended. -/
  ctx : Side → Option Cause := fun _ => none
  queue : QueueName → StreamQueue StreamRef := fun _ => {}
  /-- The tokens in `biSem`. -/
  biSem : Nat := maxStreamsPendingClassify
  /-- The number of streams QUIC has handed out. -/
  accepted : Nat := 0
  /-- The close calls made so far. -/
  calls : Nat := 0
  /-- The calls that executed `claimRelease`, in order, and those of them that came first. -/
  attempts : List CloseCall := []
  released : List CloseCall := []
  /-- Release work done, by whom. -/
  worked : List (CloseCall × Work) := []
  /-- The first calls of their view that have returned. -/
  finished : List CloseCall := []
  /-- `CloseWithError` on the QUIC connection: code and reason. -/
  closes : List (Nat × String) := []
  /-- The streams returned by `NextStream`, `NextUniStream` and `AcceptStream`. -/
  returned : List StreamRef := []
  resets : List (StreamRef × Code) := []
  /-- The streams whose classification failed, with the code they were cancelled with, if any. -/
  unclassified : List (StreamRef × Option Code) := []

namespace Conn

variable (s : Conn)

def setQueue (q : QueueName) (Q : StreamQueue StreamRef) : Conn :=
  { s with queue := Function.update s.queue q Q }

/-- `CancelRead` and, on a bidirectional stream, `CancelWrite` with the code. -/
def reset (r : StreamRef) (code : Code) : Conn := { s with resets := s.resets ++ [(r, code)] }

def giveToken : Conn := { s with biSem := s.biSem + 1 }

/-- A cancel of a view's context; the first cause stays. -/
def cancel (v : Side) (cause : Cause) : Conn :=
  { s with ctx := Function.update s.ctx v (some ((s.ctx v).getD cause)) }

/-- `claimRelease`: was this call the first for its view, and are both views released now. -/
def claimRelease (want : Side) : Bool × Bool :=
  (s.closed &&& want.bit == 0, s.closed ||| want.bit == Side.libp2p.bit ||| Side.ethp2p.bit)

end Conn

/-! ## The goroutines -/

/-- What a goroutine has still to do. -/
inductive Task where
  /-- `drainUni`, waiting for a stream; holding one; about to push it. -/
  | drainUni
  | uniAccepted (r : StreamRef)
  | uniPush (r : StreamRef)
  /-- `drainBidi`, waiting for a token; waiting for a stream. -/
  | drainBidi
  | acceptBidi
  /-- The goroutine of one bidirectional stream, in `classifyBi`; knowing its view; about to push. -/
  | classify (r : StreamRef)
  | deliver (r : StreamRef) (v : Side)
  | push (r : StreamRef) (v : Side)
  /-- libp2p's `AcceptStream`, at the head of its loop; in the `select`; holding a stream. -/
  | acceptStream
  | acceptWait
  | acceptHolds (r : StreamRef)
  /-- `NextStream` and `NextUniStream`, before and after the check of the context. -/
  | next (q : QueueName)
  | nextPop (q : QueueName)
  /-- `closeSide`, before `claimRelease`; with the rest of its release work. -/
  | closeSide (c : CloseCall)
  | release (c : CloseCall) (work : List Work)
  deriving DecidableEq, Repr

/-- What QUIC, the caller's context or the `select` of a task answers. -/
inductive Outcome where
  | stream
  | fail
  | classified (v : Side)
  | classifyError (peerReset timeout : Bool)
  | ready
  | cancelled
  | ended
  deriving DecidableEq, Repr

/-- The release work of the first caller for a view, in the order of `closeSide`: the connection is
closed before the queued streams are reset. -/
def releaseWork (want : Side) (last : Bool) : List Work :=
  .cancel :: ((if last then [.closeConn] else []) ++ want.queues.map .closeQueue)

namespace Conn

variable (s : Conn)

/-- The next part of a release.  Closing a queue takes its streams over, to be reset one by one. -/
def perform (c : CloseCall) (work : List Work) : Work → Conn × List Work
  | .cancel => (s.cancel c.want c.cause, work)
  | .closeConn => ({ s with closes := s.closes ++ [(c.code, c.reason)] }, work)
  | .closeQueue q =>
    (s.setQueue q (s.queue q).close.2, (s.queue q).close.1.map .reset ++ work)
  | .reset r => (s.reset r .closing, work)

/-- The claim at the start of `closeSide`. -/
def claim (c : CloseCall) : Conn × List Task :=
  let s' := { s with closed := s.closed ||| c.want.bit, attempts := s.attempts ++ [c] }
  if (s.claimRelease c.want).1 then
    ({ s' with released := s.released ++ [c] }, [.release c (releaseWork c.want (s.claimRelease c.want).2)])
  else (s', [])

/-- `tryPop` on a queue by a task that goes on as `found` says. -/
def pop (q : QueueName) (found : Conn → StreamRef → Conn × List Task) (empty : List Task) : Conn × List Task :=
  match (s.queue q).tryPop with
  | (some r, Q) => found (s.setQueue q Q) r
  | (none, Q) => (s.setQueue q Q, empty)

/-- A dispatcher's push; a stream the closed queue refuses is reset. -/
def pushOrReset (q : QueueName) (r : StreamRef) : Conn :=
  match (s.queue q).push r with
  | (true, Q) => s.setQueue q Q
  | (false, _) => s.reset r .closing

/-- A failed `classifyBi`. -/
def classifyFailed (r : StreamRef) (peerReset timeout : Bool) : Conn :=
  let code : Option Code :=
    if s.rawDone then none
    else if peerReset then some .unspecified
    else if timeout then some .timeout else some .badSelector
  giveToken { s with unclassified := s.unclassified ++ [(r, code)] }

/-- One atomic step of a task.  A task that the outcome does not concern waits on. -/
def step (s : Conn) (t : Task) (o : Outcome) : Conn × List Task :=
  match t with
  | .drainUni =>
    match o with
    | .stream => ({ s with accepted := s.accepted + 1 }, [.uniAccepted s.accepted])
    | .fail => (s, [])
    | _ => (s, [.drainUni])
  | .uniAccepted r =>
    if (s.ctx .ethp2p).isSome then (s.reset r .closing, [.drainUni]) else (s, [.uniPush r])
  | .uniPush r => (s.pushOrReset .ethp2pUni r, [.drainUni])
  | .drainBidi =>
    match o with
    | .ended => if s.rawDone then (s, []) else (s, [.drainBidi])
    | _ =>
      if 0 < s.biSem then ({ s with biSem := s.biSem - 1 }, [.acceptBidi]) else (s, [.drainBidi])
  | .acceptBidi =>
    match o with
    | .stream => ({ s with accepted := s.accepted + 1 }, [.classify s.accepted, .drainBidi])
    | .fail => (s.giveToken, [])
    | _ => (s, [.acceptBidi])
  | .classify r =>
    match o with
    | .classified v => (s, [.deliver r v])
    | .classifyError peerReset timeout => (s.classifyFailed r peerReset timeout, [])
    | _ => (s, [.classify r])
  | .deliver r v =>
    if (s.ctx v).isSome then ((s.reset r .closing).giveToken, []) else (s, [.push r v])
  | .push r v => ((s.pushOrReset v.bidi r).giveToken, [])
  | .acceptStream => s.pop .libp2pStreams (fun s r => (s, [.acceptHolds r])) [.acceptWait]
  | .acceptWait =>
    match o with
    | .ready =>
      if (s.queue .libp2pStreams).ready then
        (s.setQueue .libp2pStreams { s.queue .libp2pStreams with ready := false }, [.acceptStream])
      else (s, [.acceptWait])
    | .cancelled => (s, [])
    | .ended => if (s.ctx .libp2p).isSome then (s, []) else (s, [.acceptWait])
    | _ => (s, [.acceptWait])
  | .acceptHolds r =>
    if (s.ctx .libp2p).isSome then (s.reset r .closing, [])
    else ({ s with returned := s.returned ++ [r] }, [])
  | .next q => if (s.ctx .ethp2p).isSome then (s, []) else (s, [.nextPop q])
  | .nextPop q => s.pop q (fun s r => ({ s with returned := s.returned ++ [r] }, [])) []
  | .closeSide c => s.claim c
  | .release c [] => ({ s with finished := s.finished ++ [c] }, [])
  | .release c (w :: work) =>
    ({ (s.perform c work w).1 with worked := s.worked ++ [(c, w)] }, [.release c (s.perform c work w).2])

end Conn

/-! ## The connection with everything that runs on it -/

/-- What happens to a connection from outside, and the steps of its tasks. -/
inductive Event where
  | closeWithCode (code : Code)
  | closeWithError (code : Nat) (reason : String)
  | acceptStream
  | nextStream
  | nextUniStream
  /-- The QUIC connection ends, for whatever reason; the contexts of the views follow it. -/
  | connDone
  | viewDone (v : Side)
  | run (i : Nat) (o : Outcome)
  deriving DecidableEq, Repr

abbrev System := Pool Conn Task

namespace System

/-- A connection whose dispatchers have been started. -/
def init : System := ⟨{}, [.drainBidi, .drainUni]⟩

/-- A new close call, with the arguments it passes to `closeSide`. -/
def callClose (p : System) (want : Side) (code : Nat) (reason : String) (cause : Cause) : System :=
  Pool.spawn ⟨{ p.shared with calls := p.shared.calls + 1 }, p.tasks⟩
    (.closeSide ⟨p.shared.calls, want, code, reason, cause⟩)

def step (p : System) : Event → System
  | .closeWithCode code => callClose p .ethp2p code.wire code.string (.closedWith code)
  | .closeWithError code reason => callClose p .libp2p code reason .viewClosed
  | .acceptStream => p.spawn .acceptStream
  | .nextStream => p.spawn (.next .ethp2pBidi)
  | .nextUniStream => p.spawn (.next .ethp2pUni)
  | .connDone => { p with shared := { p.shared with rawDone := true } }
  | .viewDone v => if p.shared.rawDone then { p with shared := p.shared.cancel v .connection } else p
  | .run i o => Pool.run Conn.step p i o

end System

end EthP2P.Transport
