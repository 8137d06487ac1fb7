/-
# EthP2P.Stack.Family — delivery of peer events to one family

A `Family` (`family.go`) delivers the events of all its peer handles through one queue: each handle
comes up, delivers its streams and goes down, and the handles take turns through a ring that holds a
handle at most once.  `addPeer`, `push`, `closePeer` and `Next` run under the family's mutex, so each
is one atomic function of the family's state.

What the source writes through a `*peerDelivery` is an update of the delivery in `deliveries`, and
its `*list.Element` is the element's number in the ring.  The counters `queued` are a total function:
a missing key of the Go map reads as zero.
-/
import Mathlib.Logic.Function.Basic
import EthP2P.Lib.Maps
import EthP2P.Lib.Ring
import EthP2P.Wire.Codes

namespace EthP2P.Stack

open Lib Wire

abbrev Protocol := Nat

/-- The identity of a received stream. -/
abbrev StreamRef := Nat

structure ProtocolSpec where
  protocol : Protocol
  /-- The bound on streams classified but not yet returned by `Next`. -/
  maxQueued : Int
  deriving DecidableEq, Repr

/-- The protocols of a family, as `Register` admits them. -/
structure FamilySpec where
  protocols : List ProtocolSpec
  nonempty : protocols ≠ []
  ascending : (protocols.map (·.protocol)).Pairwise (· < ·)
  limits : ∀ s ∈ protocols, 1 ≤ s.maxQueued

/-- The queue limit of a protocol the family owns, and 0 for any other. -/
def FamilySpec.maxQueued (f : FamilySpec) (protocol : Protocol) : Int :=
  ((f.protocols.find? (·.protocol = protocol)).map (·.maxQueued)).getD 0

structure PendingStream where
  protocol : Protocol
  stream : StreamRef
  deriving DecidableEq, Repr

structure PeerDelivery where
  /-- The identity of the remote peer this handle is for. -/
  peer : PeerID
  up : Bool := false
  down : Bool := false
  code : Code := .unspecified
  streams : List PendingStream := []
  queued : Protocol → Int := fun _ => 0
  /-- The handle's element in the ring. -/
  ready : Option Nat := none
  /-- The handle's context has ended. -/
  ctxDone : Bool := false

namespace PeerDelivery

/-- A stream is appended and counted. -/
def enqueue (d : PeerDelivery) (pending : PendingStream) : PeerDelivery :=
  { d with
    streams := d.streams ++ [pending]
    queued := Function.update d.queued pending.protocol (d.queued pending.protocol + 1) }

/-- The first stream is taken; `streams` are those after it. -/
def dequeue (d : PeerDelivery) (pending : PendingStream) (streams : List PendingStream) : PeerDelivery :=
  { d with
    streams := streams
    queued := Function.update d.queued pending.protocol (d.queued pending.protocol - 1) }

/-- The terminal state: context ended, nothing queued. -/
def ended (d : PeerDelivery) (code : Code) : PeerDelivery :=
  { d with down := true, code := code, ctxDone := true, streams := [], queued := fun _ => 0 }

end PeerDelivery

/-- One delivery to a family; the handle it is for stands beside it. -/
inductive Event where
  | peerUp
  | streamIn (pending : PendingStream)
  | peerDown (code : Code)
  deriving DecidableEq, Repr

/-- A stream reset by `cancelReceived`, and the code. -/
abbrev Reset := StreamRef × Code

structure Family where
  spec : FamilySpec
  /-- The wake channel holds a token. -/
  wake : Bool := false
  ready : Lib.Ring HandleRef := ∅
  deliveries : Map HandleRef PeerDelivery := ∅

namespace Family

variable (f : Family)

def signal : Family := { f with wake := true }

/-- Write the delivery of `h`. -/
def store (h : HandleRef) (d : PeerDelivery) : Family :=
  { f with deliveries := f.deliveries.set h d }

/-- `d.ready = f.ready.PushBack(d)`. -/
def pushBack (f : Family) (h : HandleRef) (d : PeerDelivery) : Family :=
  { f with ready := f.ready.pushBack h }.store h { d with ready := some f.ready.next }

/-- `d.schedule()`. -/
def schedule (h : HandleRef) (d : PeerDelivery) : Family :=
  (if d.ready.isNone then f.pushBack h d else f.store h d).signal

def addPeer (h : HandleRef) (id : PeerID) : Family := f.schedule h { peer := id }

/-- `push`, with the resets it makes after releasing the mutex. -/
def push (h : HandleRef) (d : PeerDelivery) (pending : PendingStream) : Family × List Reset :=
  if d.down then (f, [(pending.stream, .unsupportedSelector)])
  else if d.queued pending.protocol ≥ f.spec.maxQueued pending.protocol then
    (f, [(pending.stream, .unspecified)])
  else (f.schedule h (d.enqueue pending), [])

/-- `closePeer`, with the resets it makes after releasing the mutex. -/
def closePeer (h : HandleRef) (d : PeerDelivery) (code resetCode : Code) : Bool × Family × List Reset :=
  if d.down then (false, f, [])
  else
    let f' :=
      if !d.up then
        match d.ready with
        | some t =>
          { f with ready := f.ready.remove t }.store h { d.ended code with ready := none }
        | none => f.store h (d.ended code)
      else f.schedule h (d.ended code)
    (true, f', d.streams.map fun p => (p.stream, resetCode))

/-- The end of `Next`: a handle with more to deliver goes to the back of the ring. -/
def requeue (h : HandleRef) (d : PeerDelivery) : Family :=
  if !d.streams.isEmpty || d.down then f.pushBack h d else f.store h d

/-- What `Next` does with the delivery `d` of the handle `h` it took from the ring. -/
def deliver (h : HandleRef) (d : PeerDelivery) : Event × Family :=
  if !d.up then (.peerUp, f.requeue h { d with ready := none, up := true })
  else
    match d.streams with
    | pending :: streams =>
      (.streamIn pending, f.requeue h { d.dequeue pending streams with ready := none })
    | [] => (.peerDown d.code, f.store h { d with ready := none })

def Next : Option (HandleRef × Event) × Family :=
  match f.ready.front with
  | none => (none, f)
  | some (t, h) =>
    match f.deliveries.get h with
    | none => (none, f)
    | some d =>
      let r := { f with ready := f.ready.remove t }.deliver h d
      (some (h, r.1), r.2)

/-! ## The cases of `closePeer` and `deliver` -/

section Cases

variable {f : Family} {h : HandleRef} {d : PeerDelivery}

theorem closePeer_of_waiting (hdown : d.down = false) (hup : d.up = false) {t : Nat}
    (ht : d.ready = some t) (code resetCode : Code) :
    f.closePeer h d code resetCode =
      (true, { f with ready := f.ready.remove t }.store h { d.ended code with ready := none },
        d.streams.map fun p => (p.stream, resetCode)) := by
  simp [closePeer, hdown, hup, ht]

theorem closePeer_of_up (hdown : d.down = false) (hup : d.up = true) (code resetCode : Code) :
    f.closePeer h d code resetCode =
      (true, f.schedule h (d.ended code), d.streams.map fun p => (p.stream, resetCode)) := by
  simp [closePeer, hdown, hup]

theorem deliver_of_waiting (hup : d.up = false) :
    f.deliver h d = (.peerUp, f.requeue h { d with ready := none, up := true }) := by
  simp [deliver, hup]

theorem deliver_of_stream (hup : d.up = true) {p : PendingStream} {streams : List PendingStream}
    (hstreams : d.streams = p :: streams) :
    f.deliver h d = (.streamIn p, f.requeue h { d.dequeue p streams with ready := none }) := by
  simp [deliver, hup, hstreams]

theorem deliver_of_down (hup : d.up = true) (hstreams : d.streams = []) :
    f.deliver h d = (.peerDown d.code, f.store h { d with ready := none }) := by
  simp [deliver, hup, hstreams]

end Cases

end Family

end EthP2P.Stack
