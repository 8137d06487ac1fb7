/-
# EthP2P.Stack.Connect — dial attempts and who waits for them

`Stack.Connect` and `Stack.Disconnect` (`stack.go`) run in their callers' goroutines.  The first caller of `Connect`
for a peer puts a dial attempt into the dial table and drives it: it dials one endpoint after the other, runs the
handshake, hands the view to the peer's supervisor and waits for the result of the admission.  Other callers wait
for the attempt, and one of them may take over with a new attempt if the driver's context ended.  `Disconnect` marks
the attempt in flight, cancels it, asks the supervisor to drop the peer's view and waits for that.

The model is a pool of tasks, one for each call, over the state of the stack.  A step of a task is one hold of the
stack's mutex or one wait; what the network answers (the outcome of a dial and of a handshake) is free, and so are
the moments at which contexts end, inbound views arrive and the supervisors go on.

Some of the shared state is history, which no step reads: which attempt made which view, in which order views were
admitted, and what was the case when a `Disconnect` took the mutex.
-/
import EthP2P.Lib.Pool
import EthP2P.Stack.Answers

namespace EthP2P.Stack

open Lib Wire

/-- The identity of a `*dialAttempt`.  Attempts are numbered in the order in which they start. -/
abbrev AttemptRef := Nat

/-- The identity of a call of `Connect` and of its context. -/
abbrev CallRef := Nat

/-- What the loop over the endpoints collects. -/
inductive DialFailure where
  /-- `dialCtx.Err()`. -/
  | context
  /-- An error of `transport.Dial`. -/
  | dial
  /-- `transport.ErrDialLegacyPeer`. -/
  | legacy
  | handshake
  | attach (e : AttachError)
  deriving DecidableEq, Repr

inductive ConnectError where
  | text (message : String)
  /-- `ErrStackClosed`. -/
  | stackClosed
  /-- `ErrDisconnected`. -/
  | disconnected
  /-- `ctx.Err()`. -/
  | context
  /-- `errors.Join(failures...)`. -/
  | joined (failures : List DialFailure)
  deriving DecidableEq, Repr

/-- A call of `Connect`. -/
structure Caller where
  call : CallRef
  record : Record
  /-- The number of the record's QUIC endpoints. -/
  endpoints : Nat
  deriving DecidableEq, Repr

def Caller.id (c : Caller) : PeerID := c.record.peerID

/-- What was the case when a `Disconnect` took the mutex. -/
structure Lock where
  id : PeerID
  /-- The peer's attempt in the dial table. -/
  inFlight : Option AttemptRef
  /-- The views admitted so far. -/
  admitted : List (PeerID × ViewRef)
  /-- The number of attempts started so far. -/
  started : AttemptRef
  deriving DecidableEq, Repr

/-- The views of the peer that had been admitted. -/
def Lock.views (lock : Lock) : List ViewRef := (lock.admitted.filter (·.1 = lock.id)).map Prod.snd

namespace StackState

/-- A view of the peer is admitted. -/
def connected (s : StackState) (id : PeerID) : Bool :=
  (s.peers.get id).any fun r => (s.sups.get r).any (·.info.isSome)

/-- `s.peers[id].updateRecord(rec)`. -/
def noteRecord (s : StackState) (id : PeerID) (rec : Record) : StackState :=
  match s.peers.get id with
  | none => s
  | some r => s.withSup r fun u => s.setSup r (u.updateRecord (some rec))

end StackState

/-! ## The shared state -/

structure Connecting where
  stack : StackState
  /-- The attempts of the dial table; what they say is in the stack's `dials`. -/
  attempts : Map PeerID AttemptRef := ∅
  nextAttempt : AttemptRef := 0
  /-- State and error of the attempts whose `done` is closed. -/
  ended : Map AttemptRef (DialState × Option ConnectError) := ∅
  /-- The attempts whose `cancel` was called. -/
  cancelled : List AttemptRef := []
  /-- The calls whose context has ended. -/
  ctxDone : List CallRef := []
  nextCall : CallRef := 0
  /-- What calls of `Connect` returned. -/
  connects : List (CallRef × Option ConnectError) := []
  -- history
  producer : Map ViewRef AttemptRef := ∅
  admitted : List (PeerID × ViewRef) := []
  /-- The calls of `Disconnect`, from the moment they took the mutex. -/
  locks : List Lock := []
  /-- Those that wait for a supervisor. -/
  waiting : Map DoneRef Lock := ∅
  /-- Those that have returned. -/
  disconnects : List Lock := []

/-- What a goroutine has still to do. -/
inductive Task where
  /-- `Connect`: the beginning of its loop. -/
  | enter (c : Caller)
  /-- `Connect`: waiting for another caller's attempt. -/
  | wait (c : Caller) (d : AttemptRef)
  /-- `Connect`: that attempt has ended. -/
  | woken (c : Caller) (d : AttemptRef)
  /-- `Connect`: `n` endpoints to dial. -/
  | dial (c : Caller) (d : AttemptRef) (n : Nat) (failures : List DialFailure)
  /-- `Connect`: in `transport.Dial`. -/
  | dialing (c : Caller) (d : AttemptRef) (n : Nat) (failures : List DialFailure)
  | handshake (c : Caller) (d : AttemptRef) (n : Nat) (failures : List DialFailure)
  | attach (c : Caller) (d : AttemptRef) (n : Nat) (failures : List DialFailure) (v : View)
  /-- `Connect`: waiting for the result of the attach. -/
  | await (c : Caller) (d : AttemptRef) (n : Nat) (failures : List DialFailure) (ref : ViewRef)
  /-- `Connect`: after the loop over the endpoints. -/
  | finish (c : Caller) (d : AttemptRef) (failures : List DialFailure)
  | disconnect (id : PeerID)
  /-- `Disconnect`: waiting for the supervisor. -/
  | disconnecting (k : DoneRef)

/-- What a task is answered by the network, or which case of a select it takes. -/
inductive Outcome where
  | ok
  | fail
  | legacy
  | view (v : View)

namespace Connecting

variable (s : Connecting) (c : Caller)

/-- `Connect` returns. -/
def ret (err : Option ConnectError) : Connecting :=
  { s with connects := s.connects ++ [(c.call, err)] }

def noteRecord (s : Connecting) (c : Caller) : Connecting :=
  { s with stack := s.stack.noteRecord c.id c.record }

/-- `dialCtx.Err() != nil`: the attempt was cancelled or its driver's context has ended. -/
def dialCtxDone (d : AttemptRef) : Bool := d ∈ s.cancelled || c.call ∈ s.ctxDone

/-- The first hold of the mutex in `Connect`'s loop. -/
def enter : Connecting × List Task :=
  if s.stack.closed then (s.ret c (some .stackClosed), [])
  else if s.stack.connected c.id then ((s.noteRecord c).ret c none, [])
  else if c.call ∈ s.ctxDone then (s.ret c (some .context), [])
  else
    match s.attempts.get c.id with
    | some d => (s, [.wait c d])
    | none =>
      let d := s.nextAttempt
      ({ s with
          stack := s.stack.step (.dial c.id (some { record := c.record }))
          attempts := s.attempts.set c.id d
          nextAttempt := d + 1 }, [.dial c d c.endpoints []])

/-- The second hold of the mutex, by a caller that waited. -/
def woken (d : AttemptRef) : Connecting × List Task :=
  if s.stack.connected c.id then ((s.noteRecord c).ret c none, [])
  else if s.stack.closed then (s.ret c (some .stackClosed), [])
  else
    match s.ended.get d with
    | none => (s, [.wait c d])
    | some (state, err) =>
      if state = .driverGone ∧ c.call ∉ s.ctxDone then (s, [.enter c]) else (s.ret c err, [])

/-- `s.attach(v, result)`, by the driver of an attempt. -/
def attach (s : Connecting) (c : Caller) (d : AttemptRef) (n : Nat) (failures : List DialFailure) (v : View) :
    Connecting × List Task :=
  let ref := s.stack.nextView
  let s' := { s with
    stack := s.stack.step (.attach { v with peer := c.id, outbound := true })
    producer := s.producer.set ref d }
  if s.stack.closed then (s', [.finish c d failures]) else (s', [.await c d n failures ref])

/-- The state of the peer's attempt. -/
def dialState (id : PeerID) : DialState := ((s.stack.dials.get id).map (·.state)).getD .inFlight

/-- The outcome of an attempt: what the last hold of the mutex in `Connect` writes to its `state` and `err`. -/
def result (failures : List DialFailure) : DialState × Option ConnectError :=
  let (state, err) :=
    if s.stack.closed then (s.dialState c.id, some .stackClosed)
    -- the attempt's own view, or one that beat it under the duplicate rule
    else if s.stack.connected c.id then (s.dialState c.id, none)
    else if s.dialState c.id = .disconnected then (s.dialState c.id, some .disconnected)
    else
      (if c.call ∈ s.ctxDone then .driverGone else s.dialState c.id,
        some (if failures.isEmpty then .text "admitted view closed before Connect completed" else .joined failures))
  (if state = .inFlight then .done else state, err)

/-- The last hold of the mutex by the driver of an attempt. -/
def finish (d : AttemptRef) (failures : List DialFailure) : Connecting × List Task :=
  let stack := if !s.stack.closed && s.stack.connected c.id then s.stack.noteRecord c.id c.record else s.stack
  let s' := { s with
    stack := stack.step (.dial c.id none)
    attempts := s.attempts.del c.id
    ended := s.ended.set d (s.result c failures)
    cancelled := s.cancelled ++ [d] }
  (s'.ret c (s.result c failures).2, [])

/-- `Disconnect`, up to its wait. -/
def disconnect (s : Connecting) (id : PeerID) : Connecting × List Task :=
  let s' := { s with
    stack := s.stack.step (.disconnect id)
    cancelled := s.cancelled ++ if s.dialState id = DialState.inFlight then (s.attempts.get id).toList else [] }
  match s.stack.peers.get id with
  | none => (s', [])
  | some _ => (s', [.disconnecting s.stack.nextDone])

/-- The channel that a `Disconnect` waits on may be closed. -/
def answered (k : DoneRef) : Bool :=
  decide (k ∈ s.stack.finished) || s.stack.released.any (·.done = some k)

/-- The next step of a task. -/
def step (t : Task) (o : Outcome) : Connecting × List Task :=
  match t, o with
  | .enter c, _ => s.enter c
  | .wait c d, .ok => if (s.ended.get d).isSome then (s, [.woken c d]) else (s, [.wait c d])
  | .wait c d, _ => if c.call ∈ s.ctxDone then (s.ret c (some .context), []) else (s, [.wait c d])
  | .woken c d, _ => s.woken c d
  | .dial c d 0 failures, _ => (s, [.finish c d failures])
  | .dial c d (n + 1) failures, _ =>
    if s.dialCtxDone c d then (s, [.finish c d (failures ++ [.context])]) else (s, [.dialing c d n failures])
  | .dialing c d n failures, .ok => (s, [.handshake c d n failures])
  -- every endpoint reaches the same libp2p-only peer
  | .dialing c d _ failures, .legacy => (s, [.finish c d (failures ++ [.legacy])])
  | .dialing c d n failures, _ => (s, [.dial c d n (failures ++ [.dial])])
  | .handshake c d n failures, .view v => (s, [.attach c d n failures v])
  | .handshake c d n failures, _ => (s, [.dial c d n (failures ++ [.handshake])])
  | .attach c d n failures v, _ => s.attach c d n failures v
  | .await c d n failures ref, _ =>
    match s.stack.results.find? (·.1 = ref) with
    | none => (s, [t])
    | some (_, none) => (s, [.finish c d failures])
    | some (_, some e) => (s, [.dial c d n (failures ++ [.attach e])])
  | .finish c d failures, _ => s.finish c d failures
  | .disconnect id, _ => s.disconnect id
  | .disconnecting k, _ =>
    if s.answered k then (s, []) else (s, [t])

/-- What a `Disconnect` finds when it takes the mutex. -/
def lockOf (s : Connecting) (peer : PeerID) : Lock :=
  { id := peer, inFlight := s.attempts.get peer, admitted := s.admitted, started := s.nextAttempt }

/-- The history of a step of `t` that left `r`.  A call of `Disconnect` is in it whatever its steps do: it takes the
mutex in the first one, and has returned after the one that leaves no task. -/
def noted (s : Connecting) (t : Task) (r : Connecting × List Task) : Connecting :=
  match t with
  | .disconnect id =>
    let s' := { r.1 with locks := r.1.locks ++ [s.lockOf id] }
    match r.2 with
    | .disconnecting k :: _ => { s' with waiting := s'.waiting.set k (s.lockOf id) }
    | _ => { s' with disconnects := s'.disconnects ++ [s.lockOf id] }
  | .disconnecting k =>
    if r.2.isEmpty then { r.1 with disconnects := r.1.disconnects ++ (r.1.waiting.get k).toList } else r.1
  | _ => r.1

/-- The next step of a task, with its history. -/
def advance (t : Task) (o : Outcome) : Connecting × List Task := (s.noted t (s.step t o), (s.step t o).2)

end Connecting

/-! ## All events -/

abbrev ConnectPool := Pool Connecting Task

inductive ConnectEvent where
  /-- A call of `Connect`, with the number of the record's endpoints. -/
  | connect (record : Record) (endpoints : Nat)
  /-- A call of `Disconnect`. -/
  | disconnect (id : PeerID)
  /-- The context of a caller ends. -/
  | cancel (call : CallRef)
  /-- The handshake of an inbound view ended. -/
  | accept (v : View)
  | close
  /-- A step of a supervisor, a consumer or the network. -/
  | op (o : StackState.StackOp)
  /-- Task `i` goes on. -/
  | run (i : Nat) (o : Outcome)

namespace ConnectPool

/-- A stack without calls. -/
def init (self : PeerID) (registry : Registry) : ConnectPool := ⟨{ stack := .init self registry }, []⟩

/-- `Connect`, up to its loop. -/
def connect (p : ConnectPool) (record : Record) (endpoints : Nat) : ConnectPool :=
  let c : Caller := { call := p.shared.nextCall, record := record, endpoints := endpoints }
  let s := { p.shared with nextCall := p.shared.nextCall + 1 }
  if c.id = s.stack.self then { p with shared := s.ret c (some (.text "cannot connect to self")) }
  else if endpoints = 0 then { p with shared := s.ret c (some (.text "record has no QUIC endpoints")) }
  else { p with shared := s }.spawn (.enter c)

/-- `Close`, up to the wait: the attempts are cancelled and the supervisors told. -/
def close (s : Connecting) : Connecting :=
  if s.stack.closed then s
  else { s with
    stack := s.stack.step .close
    cancelled := s.cancelled ++ s.attempts.entries.map Prod.snd }

def event (p : ConnectPool) : ConnectEvent → ConnectPool
  | .connect record endpoints => p.connect record endpoints
  | .disconnect id => p.spawn (.disconnect id)
  | .cancel call => { p with shared := { p.shared with ctxDone := p.shared.ctxDone ++ [call] } }
  | .accept v =>
    { p with shared := { p.shared with stack := p.shared.stack.step (.attach { v with outbound := false }) } }
  | .close => { p with shared := close p.shared }
  | .op o =>
    if o.internal then
      { p with shared := { p.shared with
        stack := p.shared.stack.step o
        admitted := p.shared.admitted ++ p.shared.stack.admits o } }
    else p
  | .run i o => Pool.run Connecting.advance p i o

end ConnectPool

end EthP2P.Stack
