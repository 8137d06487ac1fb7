/-
# EthP2P.Broadcast.PeerLoops — the control loop and the data loop of one connection

A `PeerConn` serves its sessions with two goroutines (`broadcast/peer_ctrl.go`).  The control loop takes
the transitions of the control state and writes them to the peer; each time a session opens or ends it
sends a slot update down the bounded channel `slotCh`.  The data loop applies these updates to its own
slot map, looks for a registered outbox that holds a chunk, and sends that chunk.

The outboxes themselves and the chunk a data loop is sending are shared with the sessions; they are part of
the world of the channel (`EthP2P.Broadcast.Session`).
-/
import EthP2P.Broadcast.CtrlWriter
import EthP2P.Broadcast.Engine

namespace EthP2P.Broadcast

open Lib Wire

def slotUpdateCap : Nat := 32

/-- Where the data loop is. -/
inductive DataPhase where
  /-- Applying the pending slot updates. -/
  | draining
  /-- Looking for a chunk; these slots are left to visit. -/
  | scanning (keys : List SessionKey)
  /-- Sending a chunk, or handing its result to the session's channel. -/
  | sending
  /-- Waiting for a slot update, a wake-up or the end of the connection. -/
  | waiting
  | stopped
  deriving DecidableEq, Repr

/-- A `PeerConn` with its two outbound loops.  `latest` is history only, no function reads it. -/
structure Conn extends PeerLink where
  writer : Writer := {}
  /-- The control loop has found nothing to do and waits for the `ready` token. -/
  ctrlWaiting : Bool := false
  /-- Slot updates of the event being handled that the control loop has still to send. -/
  updates : List SlotUpdate := []
  slotCh : List SlotUpdate := []
  slots : Map SessionKey OutboxRef := ∅
  data : DataPhase := .draining
  wakeCh : Bool := false
  latest : SessionKey → Latest := fun _ => .never

namespace Conn

/-- What a call asks for, given what was asked for before. -/
def ask (latest : SessionKey → Latest) : CtrlOutState.SessionCall → SessionKey → Latest
  | .openSession e => Function.update latest e.key (.opened e.chunkOutbox false)
  | .closeSession key => Function.update latest key .closed
  | .closeSessionStream key => Function.update latest key (latest key).closeStream
  | .setRouting _ => latest

/-- A session calls the control state. -/
def request (call : CtrlOutState.SessionCall) (c : Conn) : Conn :=
  { c with ctrlState := c.ctrlState.call call, latest := ask c.latest call }

/-- The engine announces or withdraws a channel. -/
def announce (id : ChannelID) (present : Bool) (c : Conn) : Conn :=
  { c with ctrlState := c.ctrlState.announce id present }

/-- A non-blocking send on the one-element channel `wakeCh`. -/
def wake (c : Conn) : Conn := { c with wakeCh := true }

/-- `p.cancel()`. -/
def cancel (c : Conn) : Conn := { c with ctxDone := true }

/-- `p.stop()`. -/
def stop (c : Conn) : Conn := { c with ctxDone := true, ctrlState := c.ctrlState.stop }

/-! ## The control loop -/

/-- One round of `runCtrlLoop`: take a transition and handle it, up to the slot updates it sends. -/
def ctrlNext (o₁ o₂ : Order ChannelID) (f : Faults) (c : Conn) : Conn :=
  if c.ctxDone || c.ctrlWaiting || !c.updates.isEmpty then c
  else
    match c.ctrlState.next o₁ o₂ with
    | (none, ctrlState) => { c with ctrlState := ctrlState, ctrlWaiting := true }
    | (some evt, ctrlState) =>
      let h := c.writer.handleCtrl f evt
      { c with
        ctrlState := ctrlState
        writer := h.writer
        updates := h.updates
        ctxDone := h.cancel }

/-- The control loop takes the `ready` token. -/
def ctrlWake (c : Conn) : Conn :=
  if c.ctrlWaiting && c.ctrlState.ready then
    { c with ctrlWaiting := false, ctrlState := { c.ctrlState with ready := false } }
  else c

/-- The control loop sends one slot update; it waits while `slotCh` is full. -/
def ctrlPush (c : Conn) : Conn :=
  match c.updates with
  | [] => c
  | upd :: rest =>
    if c.slotCh.length < slotUpdateCap then
      { c with updates := rest, slotCh := c.slotCh ++ [upd] }
    else c

/-- The control loop gives up sending because the connection has ended. -/
def ctrlAbandon (c : Conn) : Conn := if c.ctxDone then { c with updates := [] } else c

/-! ## The data loop, apart from the chunks -/

/-- Apply a slot update, in the drain at the top of the loop or out of the wait at its end. -/
def dataApply (c : Conn) : Conn :=
  match c.data, c.slotCh with
  | .draining, upd :: rest => { c with slots := applySlot c.slots upd, slotCh := rest }
  | .waiting, upd :: rest =>
    { c with slots := applySlot c.slots upd, slotCh := rest, data := .draining }
  | _, _ => c

/-- The drain is over; visit the slots in some order. -/
def dataScan (o : Order SessionKey) (c : Conn) : Conn :=
  match c.data, c.slotCh with
  | .draining, [] => { c with data := .scanning (c.slots.range o) }
  | _, _ => c

/-- Leave the wait, by a wake-up or because the connection has ended. -/
def dataWake (c : Conn) : Conn :=
  if c.data = .waiting && c.wakeCh then { c with data := .draining, wakeCh := false } else c

def dataStop (c : Conn) : Conn :=
  if c.data = .waiting && c.ctxDone then { c with data := .stopped } else c

end Conn

end EthP2P.Broadcast
