/-
# EthP2P.Broadcast.Queue — the queues of incoming streams

`fifo` (`broadcast/queue.go`) and the transport's `streamQueue` hand streams from the goroutines that accept them to
the loops that read them.  Both are queues with one wake token, and `queues_deliver` is what that gives.
-/
import EthP2P.Lib.WakeQueue
import EthP2P.Transport.Conn

namespace EthP2P.Broadcast

open Lib Transport

/-- `fifo`; `ready` says that the one-element wake channel holds its token. -/
structure Fifo (T : Type) where
  items : List T := []
  ready : Bool := false
  closed : Bool := false

namespace Fifo

variable {T : Type} (q : Fifo T)

def signal : Fifo T := { q with ready := true }

def push (v : T) : Bool × Fifo T :=
  if q.closed then (false, q) else (true, signal { q with items := q.items ++ [v] })

def pop : Option T × Fifo T :=
  match q.items with
  | [] => (none, q)
  | v :: items => (some v, if 0 < items.length then signal { q with items := items } else { q with items := items })

/-- The loop of `close`: the front is moved to `pending` until nothing is left. -/
def drain (pending : List T) : List T → List T
  | [] => pending
  | v :: items => drain (pending ++ [v]) items

def close : List T × Fifo T := (drain [] q.items, { q with items := [], closed := true })

theorem drain_eq (pending items : List T) : drain pending items = pending ++ items := by
  induction items generalizing pending with
  | nil => simp [drain]
  | cons v items ih => simp [drain, ih]

def wakeQueue : WakeQueue (Fifo T) T where
  items := items
  closed := closed
  ready := ready
  push := push
  pop := pop
  close := close
  take q := { q with ready := false }
  push_closed q v hc := by simp [push, hc]
  push_open q v hc := by simp [push, hc, signal]
  pop_nil q hnil := by simp [pop, hnil]
  pop_cons q v vs hitems := by
    cases vs with
    | nil => simp [pop, hitems]
    | cons w vs => simp [pop, hitems, signal]
  close_all q := ⟨drain_eq [] q.items, rfl, rfl⟩
  take_token _ := ⟨rfl, rfl⟩

end Fifo

/-- `streamQueue` as such a queue. -/
def streamWakeQueue (T : Type) : WakeQueue (StreamQueue T) T where
  items := (·.items)
  closed := (·.closed)
  ready := (·.ready)
  push := StreamQueue.push
  pop := StreamQueue.tryPop
  close := StreamQueue.close
  take q := { q with ready := false }
  push_closed q v hc := by simp [StreamQueue.push, hc]
  push_open q v hc := by simp [StreamQueue.push, hc, StreamQueue.signal]
  pop_nil q hnil := by simp [StreamQueue.tryPop, hnil]
  pop_cons q v vs hitems := by
    cases vs with
    | nil => simp [StreamQueue.tryPop, hitems]
    | cons w vs => simp [StreamQueue.tryPop, hitems, StreamQueue.signal]
  close_all _ := ⟨rfl, rfl, rfl⟩
  take_token _ := ⟨rfl, rfl⟩

/-- **Both queues deliver**, whatever the producers and the consumers do and in whatever order. -/
theorem queues_deliver (T : Type) : (Fifo.wakeQueue (T := T)).Delivers {} ∧ (streamWakeQueue T).Delivers {} :=
  ⟨WakeQueue.delivers _ rfl, WakeQueue.delivers _ rfl⟩

end EthP2P.Broadcast
