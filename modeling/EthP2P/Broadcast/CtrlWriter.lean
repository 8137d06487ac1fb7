/-
# EthP2P.Broadcast.CtrlWriter — what the control loop does with the control state

`runCtrlLoop` (`broadcast/peer_ctrl.go`) takes the transitions of `CtrlOutState.next` one at a time
and performs them: it owns the map of outbound SESS streams, and it tells the data loop which chunk
outbox serves which session through slot updates.  This module models that writer (`handleCtrl`),
write failures included, and composes it with the control state.

The result is about whole histories of the control state, however far the writer lags: once `next`
has nothing left, the slot map and the stream map are what the *latest* `openSession`,
`closeSession` and `closeSessionStream` of each key asked for.  The coalesced flags lose this in two
situations, which `CtrlSystem.Coalesces` excludes:

* a key that the writer has open, whose pending re-open was closed again before the writer caught
  up: `next` hands out the close and keeps the pending open, which it hands out afterwards;
* a re-open without a close in between that inherits a stream close of the previous open.
-/
import EthP2P.Lib.Runs
import EthP2P.Broadcast.CtrlOut

namespace EthP2P.Broadcast

open Lib Wire Function CtrlOutState

/-! ## The writer -/

/-- One outbound stream, numbered in the order of opening. -/
abbrev StreamRef := Nat

/-- What the control loop has done to the peer's streams. -/
inductive WireOp where
  | subscribe (channelID : ChannelID)
  | unsubscribe (channelID : ChannelID)
  | openFrame (stream : StreamRef) (key : SessionKey) (preamble initialUpdate : Bytes)
  | updateFrame (stream : StreamRef) (data : Bytes)
  | fin (stream : StreamRef)
  | cancelWrite (stream : StreamRef) (code : Code)
  | cancelCtrlOut (code : Code)
  deriving DecidableEq, Repr

/-- The control loop's own state: `sessions` holds each open outbound SESS stream. -/
structure Writer where
  sessions : Map SessionKey StreamRef := ∅
  nextStream : StreamRef := 0
  wire : List WireOp := []

/-- `slotUpdate`; no slot means that the slot is removed. -/
structure SlotUpdate where
  key : SessionKey
  slot : Option OutboxRef
  deriving DecidableEq, Repr

def applySlot (slots : Map SessionKey OutboxRef) (upd : SlotUpdate) : Map SessionKey OutboxRef :=
  match upd.slot with
  | some slot => slots.set upd.key slot
  | none => slots.del upd.key

/-- Which of the calls into the transport fail while one event is handled, and whether with a
timeout. -/
structure Faults where
  close : Bool := false
  openStream : Bool := false
  write : Bool := false
  timeout : Bool := false

/-- `streamFailureCode`. -/
def Faults.code (f : Faults) : Code := if f.timeout then .timeout else .unspecified

/-- The outcome of handling one event: the updates are sent to the data loop in order, and `cancel`
says that the peer context was cancelled. -/
structure Handled where
  writer : Writer
  updates : List SlotUpdate := []
  cancel : Bool := false

namespace Writer

/-- `s.Close()`, and `CancelWrite` if that fails. -/
def closeStream (f : Faults) (stream : StreamRef) : WireOp :=
  if f.close then .cancelWrite stream f.code else .fin stream

def handleSessionOpen (f : Faults) (e : PeerOpenSession) (w : Writer) : Handled :=
  let (w, removed) := match w.sessions.get e.key with
    | some previous =>
      ({ w with sessions := w.sessions.del e.key, wire := w.wire ++ [closeStream f previous] },
        [{ key := e.key, slot := none : SlotUpdate }])
    | none => (w, [])
  if f.openStream then { writer := w, updates := removed, cancel := true }
  else
    let stream := w.nextStream
    let w := { w with nextStream := stream + 1 }
    if f.write then
      { writer := { w with wire := w.wire ++ [.cancelWrite stream f.code] }
        updates := removed
        cancel := true }
    else
      { writer := { w with
          sessions := w.sessions.set e.key stream
          wire := w.wire ++ [.openFrame stream e.key e.preamble e.initialRouting] }
        updates := removed ++ [{ key := e.key, slot := some e.chunkOutbox }] }

def handleSendRoutingUpdate (f : Faults) (e : PeerSendRouting) (w : Writer) : Handled :=
  match w.sessions.get e.key with
  | none => { writer := w }
  | some stream =>
    if f.write then
      -- a failed update costs this stream only
      { writer := { w with
          sessions := w.sessions.del e.key
          wire := w.wire ++ [.cancelWrite stream f.code] } }
    else { writer := { w with wire := w.wire ++ [.updateFrame stream e.update] } }

/-- `writeCtrl`: a failed write on the BCAST stream ends the peer. -/
def writeCtrl (f : Faults) (op : WireOp) (w : Writer) : Handled :=
  if f.write then
    { writer := { w with wire := w.wire ++ [.cancelCtrlOut f.code] }, cancel := true }
  else { writer := { w with wire := w.wire ++ [op] } }

def handleSessionDone (f : Faults) (key : SessionKey) (w : Writer) : Handled :=
  let wire := match w.sessions.get key with
    | some stream => w.wire ++ [closeStream f stream]
    | none => w.wire
  { writer := { w with sessions := w.sessions.del key, wire := wire }
    updates := [{ key := key, slot := none }] }

def handleCtrl (f : Faults) (evt : PeerCtrlEvent) (w : Writer) : Handled :=
  match evt with
  | .openSession e => w.handleSessionOpen f e
  | .sendRouting e => w.handleSendRoutingUpdate f e
  | .subscribe id => w.writeCtrl f (.subscribe id)
  | .unsubscribe id => w.writeCtrl f (.unsubscribe id)
  | .closeSession key => w.handleSessionDone f key
  | .closeStream key =>
    match w.sessions.get key with
    | some stream =>
      { writer := { w with
          sessions := w.sessions.del key
          wire := w.wire ++ [.cancelWrite stream .reconstructed] } }
    | none => { writer := w }

/-- The streams and slots a fault-free event leaves, key by key. -/
theorem handleSessionOpen_get (e : PeerOpenSession) (w : Writer)
    (slots : Map SessionKey OutboxRef) (k : SessionKey) :
    ((w.handleSessionOpen {} e).writer.sessions.get k).isSome = (decide (k = e.key) || (w.sessions.get k).isSome) ∧
    ((w.handleSessionOpen {} e).updates.foldl applySlot slots).get k =
      if k = e.key then some e.chunkOutbox else slots.get k := by
  unfold handleSessionOpen
  cases hprev : w.sessions.get e.key with
  | none | some previous =>
    by_cases hk : k = e.key <;> simp [applySlot, hk]

theorem handleSessionDone_get (key : SessionKey) (w : Writer)
    (slots : Map SessionKey OutboxRef) (k : SessionKey) :
    ((w.handleSessionDone {} key).writer.sessions.get k).isSome = (!decide (k = key) && (w.sessions.get k).isSome) ∧
    ((w.handleSessionDone {} key).updates.foldl applySlot slots).get k = if k = key then none else slots.get k := by
  by_cases hk : k = key <;> simp [handleSessionDone, applySlot, hk]

theorem handleCloseStream_get (key : SessionKey) (w : Writer) (k : SessionKey) :
    ((w.handleCtrl {} (.closeStream key)).writer.sessions.get k).isSome =
      (!decide (k = key) && (w.sessions.get k).isSome) ∧
    (w.handleCtrl {} (.closeStream key)).updates = [] := by
  simp only [handleCtrl]
  split
  · by_cases hk : k = key <;> simp [hk]
  · rename_i hkey
    by_cases hk : k = key <;> simp [hk, hkey]

/-- Routing updates and channel frames move neither streams nor slots. -/
theorem handleCtrl_other {evt : PeerCtrlEvent} (w : Writer)
    (hopen : ∀ e, evt ≠ .openSession e) (hclose : ∀ key, evt ≠ .closeSession key)
    (hstream : ∀ key, evt ≠ .closeStream key) :
    (w.handleCtrl {} evt).writer.sessions = w.sessions ∧ (w.handleCtrl {} evt).updates = [] := by
  cases evt with
  | openSession e => exact absurd rfl (hopen e)
  | closeSession key => exact absurd rfl (hclose key)
  | closeStream key => exact absurd rfl (hstream key)
  | subscribe id | unsubscribe id => exact ⟨rfl, rfl⟩
  | sendRouting e =>
    simp only [handleCtrl, handleSendRoutingUpdate]
    split <;> exact ⟨rfl, rfl⟩

end Writer

/-! ## Histories of the control state with its writer -/

/-- What the latest `openSession` or `closeSession` of a key asked for; an open remembers whether a
`closeSessionStream` followed it. -/
inductive Latest where
  | never
  | opened (outbox : OutboxRef) (streamClosed : Bool)
  | closed
  deriving DecidableEq, Repr

namespace Latest

/-- The slot the data loop should hold. -/
def slot : Latest → Option OutboxRef
  | .opened outbox _ => some outbox
  | _ => none

/-- Should the writer hold a live SESS stream. -/
def live : Latest → Bool
  | .opened _ streamClosed => !streamClosed
  | _ => false

/-- A `closeSessionStream` after the latest open. -/
def closeStream : Latest → Latest
  | .opened outbox _ => .opened outbox true
  | l => l

end Latest

/-- The operations on the control state of one live peer. -/
inductive CtrlOp where
  | openSession (e : PeerOpenSession)
  | closeSession (key : SessionKey)
  | closeSessionStream (key : SessionKey)
  | setRouting (e : PeerSendRouting)
  | announce (id : ChannelID) (present : Bool)
  | next (o₁ o₂ : Order ChannelID)

/-- The control state, its writer and the data loop's slots; `latest` is history only, no function
of the model reads it. -/
structure CtrlSystem where
  ctrl : CtrlOutState := .new
  writer : Writer := {}
  slots : Map SessionKey OutboxRef := ∅
  latest : SessionKey → Latest := fun _ => .never

namespace CtrlSystem

/-- One `next`, its event handled without write failures and its slot updates applied. -/
def deliver (x : CtrlSystem) (r : Option PeerCtrlEvent × CtrlOutState) : CtrlSystem :=
  match r.1 with
  | none => { x with ctrl := r.2 }
  | some evt =>
    { x with
      ctrl := r.2
      writer := (x.writer.handleCtrl {} evt).writer
      slots := (x.writer.handleCtrl {} evt).updates.foldl applySlot x.slots }

def step (x : CtrlSystem) : CtrlOp → CtrlSystem
  | .openSession e =>
    { x with
      ctrl := x.ctrl.openSession e
      latest := update x.latest e.key (.opened e.chunkOutbox false) }
  | .closeSession key =>
    { x with ctrl := x.ctrl.closeSession key, latest := update x.latest key .closed }
  | .closeSessionStream key =>
    { x with
      ctrl := x.ctrl.closeSessionStream key
      latest := update x.latest key (x.latest key).closeStream }
  | .setRouting e => { x with ctrl := (x.ctrl.setRouting e).2 }
  | .announce id present => { x with ctrl := x.ctrl.announce id present }
  | .next o₁ o₂ => x.deliver (x.ctrl.next o₁ o₂)

/-- How sessions use the control state: a stream is closed only while its session is open. -/
def Allowed (x : CtrlSystem) : CtrlOp → Prop
  | .closeSessionStream key => (x.latest key).slot.isSome
  | _ => True

/-- The two situations in which the coalesced flags lose the latest wish do not arise: `next` finds
no closed session that is open at the writer and has a pending open, and a session is not re-opened
over a stream close that its predecessor left behind. -/
def Coalesces (x : CtrlSystem) : CtrlOp → Prop
  | .next _ _ => ∀ e ∈ x.ctrl.sessions.entries, e.2.close = true → e.2.opened = true → e.2.pendingOpen = none
  | .openSession e => ∀ e' ∈ x.ctrl.sessions.entries, e'.1 = e.key → e'.2.closeStream = true → e'.2.close = true
  | _ => True

instance (x : CtrlSystem) : ∀ op, Decidable (x.Allowed op)
  | .closeSessionStream key => inferInstanceAs (Decidable ((x.latest key).slot.isSome = true))
  | .openSession _ | .closeSession _ | .setRouting _ | .announce _ _ | .next _ _ => .isTrue trivial

instance (x : CtrlSystem) : ∀ op, Decidable (x.Coalesces op)
  | .next _ _ => inferInstanceAs (Decidable (∀ e ∈ x.ctrl.sessions.entries,
      e.2.close = true → e.2.opened = true → e.2.pendingOpen = none))
  | .openSession e => inferInstanceAs (Decidable (∀ e' ∈ x.ctrl.sessions.entries,
      e'.1 = e.key → e'.2.closeStream = true → e'.2.close = true))
  | .closeSession _ | .closeSessionStream _ | .setRouting _ | .announce _ _ => .isTrue trivial

/-- **The property.** If `next` reports nothing left, slots and streams are what the latest calls
asked for; and an open is handed to the writer only while it is the latest wish for its key. -/
def Settles (x : CtrlSystem) : Prop :=
  ∀ o₁ o₂ : Order ChannelID,
    ((x.ctrl.next o₁ o₂).1 = none → ∀ key, x.slots.get key = (x.latest key).slot ∧
      (x.writer.sessions.get key).isSome = (x.latest key).live) ∧
    ∀ e, (x.ctrl.next o₁ o₂).1 = some (.openSession e) → (x.latest e.key).slot = some e.chunkOutbox

/-! ## The invariant behind it, key by key -/

/-- A key with a coalesced entry `out`: its latest wish `l`, the data loop's slot and whether the
writer holds a stream. -/
structure EntryInv (key : SessionKey) (l : Latest) (out : SessionOut) (slot : Option OutboxRef)
    (live : Bool) : Prop where
  unopened : out.opened = false → slot = none ∧ live = false
  closing : out.close = true → l.slot = none
  pending : ∀ e, out.close = false → out.pendingOpen = some e → l = .opened e.chunkOutbox out.closeStream
  written : out.close = false → out.pendingOpen = none →
    ∃ outbox streamClosed, l = .opened outbox streamClosed ∧ out.opened = true ∧
      slot = some outbox ∧ (out.closeStream = true → streamClosed = true) ∧
      (out.closeStream = false → live = !streamClosed)
  named : ∀ e, out.pendingOpen = some e → e.key = key

/-- One key, with or without an entry. -/
def KeyInv (key : SessionKey) (l : Latest) (entry : Option SessionOut)
    (slot : Option OutboxRef) (live : Bool) : Prop :=
  match entry with
  | none => slot = none ∧ live = false ∧ l.slot = none
  | some out => EntryInv key l out slot live

@[simp] theorem keyInv_some {key : SessionKey} {l : Latest} {out : SessionOut}
    {slot : Option OutboxRef} {live : Bool} :
    KeyInv key l (some out) slot live ↔ EntryInv key l out slot live := Iff.rfl

/-- The invariant of the whole system. -/
structure Inv (x : CtrlSystem) : Prop where
  running : x.ctrl.closed = false
  keys : ∀ key, KeyInv key (x.latest key) (x.ctrl.sessions.get key) (x.slots.get key) (x.writer.sessions.get key).isSome

theorem inv_init : Inv {} where
  running := rfl
  keys _ := ⟨rfl, rfl, rfl⟩

section Keys

variable {key : SessionKey} {l : Latest} {entry : Option SessionOut} {slot : Option OutboxRef}
  {live : Bool} {n : Nat}

/-- Only an entry that was handed to the writer has a slot or a stream. -/
theorem KeyInv.of_unopened (h : KeyInv key l entry slot live)
    (ho : (entry.getD { order := n }).opened = false) : slot = none ∧ live = false := by
  cases entry with
  | none => exact ⟨h.1, h.2.1⟩
  | some out => exact EntryInv.unopened h ho

variable {e : PeerOpenSession}

theorem KeyInv.named (h : KeyInv key l entry slot live)
    (he : (entry.getD { order := n }).pendingOpen = some e) : e.key = key := by
  cases entry with
  | none => cases he
  | some out => exact EntryInv.named h e he

/-- Phase 1 keeps the invariant of a key it does not hand out. -/
theorem KeyInv.keptOrDropped {m m' : Map SessionKey SessionOut}
    (h : KeyInv key l (m.get key) slot live) (hk : KeptOrDropped m m' key) : KeyInv key l (m'.get key) slot live := by
  rcases hk with heq | ⟨hnone, out, hout, hc, ho⟩
  · rw [heq]; exact h
  rw [hout] at h
  rw [hnone]
  exact ⟨(EntryInv.unopened h ho).1, (EntryInv.unopened h ho).2, EntryInv.closing h hc⟩

theorem KeyInv.openSession (h : KeyInv e.key l entry slot live)
    (hc : ∀ out, entry = some out → out.closeStream = true → out.close = true) :
    KeyInv e.key (.opened e.chunkOutbox false) (some ((entry.getD { order := n }).reopen e)) slot live := by
  have hstream : ((entry.getD { order := n }).reopen e).closeStream = false := by
    cases entry with
    | none => rfl
    | some out =>
      have := hc out rfl
      cases hcl : out.close <;> simp_all [SessionOut.reopen]
  have hclose : ((entry.getD { order := n }).reopen e).close = false := by
    unfold SessionOut.reopen
    split <;> simp_all
  have hopened : ((entry.getD { order := n }).reopen e).opened =
      (entry.getD { order := n }).opened := by
    unfold SessionOut.reopen
    split <;> rfl
  have hpending : ∀ e', ((entry.getD { order := n }).reopen e).pendingOpen = some e' → e = e' :=
    fun e' he => Option.some.inj he
  constructor
  · intro ho
    exact h.of_unopened (hopened ▸ ho)
  · intro hcl
    rw [hclose] at hcl
    cases hcl
  · intro e' _ he
    rw [← hpending e' he, hstream]
  · intro _ he
    cases he
  · intro e' he
    rw [← hpending e' he]

section

variable (h : KeyInv key l entry slot live)
include h

theorem KeyInv.closeSession :
    KeyInv key .closed (some { entry.getD { order := n } with close := true }) slot live where
  unopened ho := h.of_unopened ho
  closing _ := rfl
  pending _ hcl := nomatch hcl
  written hcl := nomatch hcl
  named _ he := h.named he

theorem KeyInv.closeSessionStream (hopen : l.slot.isSome) :
    KeyInv key l.closeStream (some { entry.getD { order := n } with closeStream := true }) slot live := by
  cases entry with
  | none =>
    rw [h.2.2] at hopen
    cases hopen
  | some out =>
    have hout : EntryInv key l out slot live := h
    have hclose : out.close = false := by
      cases hcl : out.close with
      | false => rfl
      | true =>
        rw [hout.closing hcl] at hopen
        cases hopen
    refine ⟨hout.unopened, fun hcl => ?_, fun e _ he => ?_, fun _ he => ?_, hout.named⟩
    · rw [show out.close = true from hcl] at hclose
      cases hclose
    · rw [hout.pending e hclose he]
      rfl
    · obtain ⟨outbox, streamClosed, rfl, ho, hslot, _, _⟩ := hout.written hclose he
      exact ⟨outbox, true, rfl, ho, hslot, fun _ => rfl, fun hfalse => nomatch hfalse⟩

/-- Nothing but the routing of an entry changes. -/
theorem KeyInv.routing (c : Prop) [Decidable c] (r : Option Bytes) :
    KeyInv key l (entry.map fun out => if c then { out with routing := r } else out) slot live := by
  cases entry with
  | none => exact h
  | some out =>
    have hout : EntryInv key l out slot live := h
    rw [Option.map_some]
    split
    · exact ⟨hout.unopened, hout.closing, hout.pending, hout.written, hout.named⟩
    · exact hout

end

/-- The writer was handed the pending open. -/
theorem EntryInv.handOpen {out : SessionOut}
    (h : EntryInv key l out slot live) (hclose : out.close = false) (he : out.pendingOpen = some e) :
    EntryInv key l { out with pendingOpen := none, opened := true } (some e.chunkOutbox) true := by
  refine ⟨nofun, h.closing, nofun, fun _ _ => ?_, nofun⟩
  refine ⟨e.chunkOutbox, out.closeStream, h.pending e hclose he, rfl, rfl, id, fun hs => ?_⟩
  rw [show out.closeStream = false from hs]
  rfl

/-- The writer was handed the stream close. -/
theorem EntryInv.handCloseStream {out : SessionOut} (h : EntryInv key l out slot live)
    (hclose : out.close = false) (he : out.pendingOpen = none) (hs : out.closeStream = true) :
    EntryInv key l { out with closeStream := false } slot false := by
  obtain ⟨outbox, streamClosed, hl, ho, hslot, hclosed, _⟩ := h.written hclose he
  refine ⟨fun hn => ?_, h.closing, fun e _ hp => ?_, fun _ _ => ?_, h.named⟩
  · rw [show out.opened = false from hn] at ho
    cases ho
  · rw [show out.pendingOpen = some e from hp] at he
    cases he
  · refine ⟨outbox, streamClosed, hl, ho, hslot, nofun, fun _ => ?_⟩
    rw [hclosed hs]
    rfl

end Keys

/-! ## One step -/

/-- A delivery that moves neither streams nor slots. -/
theorem inv_deliver_other {x : CtrlSystem} {evt : PeerCtrlEvent} {ctrl : CtrlOutState}
    (hrun : ctrl.closed = false) (hopen : ∀ e, evt ≠ .openSession e) (hclose : ∀ key, evt ≠ .closeSession key)
    (hstream : ∀ key, evt ≠ .closeStream key)
    (hkeys : ∀ k, KeyInv k (x.latest k) (ctrl.sessions.get k) (x.slots.get k)
      (x.writer.sessions.get k).isSome) : Inv (x.deliver (some evt, ctrl)) := by
  obtain ⟨hsessions, hupdates⟩ := x.writer.handleCtrl_other hopen hclose hstream
  refine ⟨hrun, fun k => ?_⟩
  simp only [deliver, hsessions, hupdates, List.foldl_nil]
  exact hkeys k

section Step

variable {x : CtrlSystem} (h : Inv x)

include h

theorem inv_openSession {e : PeerOpenSession} (hc : x.Coalesces (.openSession e)) :
    Inv (x.step (.openSession e)) where
  running := by simpa [step] using h.running
  keys k := by
    simp only [step, get_openSession h.running, update_apply]
    by_cases hk : k = e.key
    · subst hk
      rw [if_pos rfl, if_pos rfl]
      exact (h.keys e.key).openSession fun out hout =>
        hc (e.key, out) (Map.mem_entries.mpr hout) rfl
    · rw [if_neg hk, if_neg hk]
      exact h.keys k

theorem inv_closeSession (key : SessionKey) : Inv (x.step (.closeSession key)) where
  running := by simpa [step] using h.running
  keys k := by
    simp only [step, get_closeSession h.running, update_apply]
    by_cases hk : k = key
    · subst hk
      rw [if_pos rfl, if_pos rfl]
      exact (h.keys k).closeSession
    · rw [if_neg hk, if_neg hk]
      exact h.keys k

variable {key : SessionKey} {m : Map SessionKey SessionOut} {out : SessionOut} {ctrl : CtrlOutState}

theorem inv_closeSessionStream (ha : x.Allowed (.closeSessionStream key)) :
    Inv (x.step (.closeSessionStream key)) where
  running := by simpa [step] using h.running
  keys k := by
    simp only [step, get_closeSessionStream h.running, update_apply]
    by_cases hk : k = key
    · subst hk
      rw [if_pos rfl, if_pos rfl]
      exact (h.keys k).closeSessionStream ha
    · rw [if_neg hk, if_neg hk]
      exact h.keys k

theorem inv_setRouting (e : PeerSendRouting) : Inv (x.step (.setRouting e)) where
  running := by simpa [step] using h.running
  keys k := by
    simp only [step, get_setRouting h.running]
    exact (h.keys k).routing _ _

theorem inv_announce (id : ChannelID) (present : Bool) : Inv (x.step (.announce id present)) where
  running := by simpa [step] using h.running
  keys k := by
    simp only [step, get_announce h.running]
    exact (h.keys k).routing _ _

/-- After a phase 1 that handed out nothing, an entry left is not closed and is as it was. -/
theorem entry_of_settled (hm : Settled x.ctrl.sessions m) {k : SessionKey} (hk : m.get k = some out) :
    out.close = false ∧ EntryInv k (x.latest k) out (x.slots.get k) (x.writer.sessions.get k).isSome := by
  have hinv := (h.keys k).keptOrDropped (hm k).1
  rw [hk] at hinv
  exact ⟨(hm k).2 out hk, hinv⟩

theorem inv_deliver_closeSession (hrun : ctrl.closed = false) (hk : x.ctrl.sessions.get key = some out)
    (hclose : out.close = true) (hgone : ctrl.sessions.get key = none)
    (hrest : ∀ k, k ≠ key → KeptOrDropped x.ctrl.sessions ctrl.sessions k) :
    Inv (x.deliver (some (.closeSession key), ctrl)) := by
  refine ⟨hrun, fun k => ?_⟩
  obtain ⟨hlive, hslot⟩ := x.writer.handleSessionDone_get key x.slots k
  simp only [deliver, Writer.handleCtrl, hlive, hslot]
  by_cases hkk : k = key
  · subst hkk
    have hinv := h.keys k
    rw [hk] at hinv
    rw [hgone]
    simpa [KeyInv] using EntryInv.closing hinv hclose
  · simpa [hkk] using (h.keys k).keptOrDropped (hrest k hkk)

theorem inv_deliver_openSession {e : PeerOpenSession} (hrun : ctrl.closed = false)
    (hm : Settled x.ctrl.sessions m) (hk : m.get key = some out) (he : out.pendingOpen = some e)
    (hctrl : ctrl.sessions = m.set key { out with pendingOpen := none, opened := true }) :
    Inv (x.deliver (some (.openSession e), ctrl)) := by
  obtain ⟨hclose, hout⟩ := entry_of_settled h hm hk
  obtain rfl : e.key = key := hout.named e he
  refine ⟨hrun, fun k => ?_⟩
  obtain ⟨hlive, hslot⟩ := x.writer.handleSessionOpen_get e x.slots k
  simp only [deliver, Writer.handleCtrl, hlive, hslot, hctrl, Map.get_set]
  by_cases hkk : k = e.key
  · subst hkk
    simpa using hout.handOpen hclose he
  · simpa [hkk] using (h.keys k).keptOrDropped (hm k).1

theorem inv_deliver_closeStream (hrun : ctrl.closed = false)
    (hm : Settled x.ctrl.sessions m) (hk : m.get key = some out)
    (he : out.pendingOpen = none) (hs : out.closeStream = true)
    (hctrl : ctrl.sessions = m.set key { out with closeStream := false }) :
    Inv (x.deliver (some (.closeStream key), ctrl)) := by
  obtain ⟨hclose, hout⟩ := entry_of_settled h hm hk
  refine ⟨hrun, fun k => ?_⟩
  obtain ⟨hlive, hupdates⟩ := x.writer.handleCloseStream_get key k
  simp only [deliver, hlive, hupdates, List.foldl_nil, hctrl, Map.get_set]
  by_cases hkk : k = key
  · subst hkk
    simpa using hout.handCloseStream hclose he hs
  · simpa [hkk] using (h.keys k).keptOrDropped (hm k).1

theorem inv_next {o₁ o₂ : Order ChannelID} (hc : x.Coalesces (.next o₁ o₂)) : Inv (x.step (.next o₁ o₂)) := by
  have hrun : (x.ctrl.next o₁ o₂).2.closed = false := by simpa using h.running
  have hspec := next_spec h.running o₁ o₂
  change Inv (x.deliver (x.ctrl.next o₁ o₂))
  generalize x.ctrl.next o₁ o₂ = r at hrun hspec
  obtain ⟨evt, ctrl⟩ := r
  have hsettled : ∀ {m}, Settled x.ctrl.sessions m → ∀ k,
      KeyInv k (x.latest k) (m.get k) (x.slots.get k) (x.writer.sessions.get k).isSome :=
    fun hm k => (h.keys k).keptOrDropped (hm k).1
  cases hspec with
  | closeSession hk hclose hopened hself hrest _ =>
    rw [hc _ (Map.mem_entries.mpr hk) hclose hopened] at hself
    exact inv_deliver_closeSession h hrun hk hclose hself hrest
  | unsubscribe hm _ _ _ _ | subscribe hm _ _ _ _ _ => exact inv_deliver_other hrun nofun nofun nofun (hsettled hm)
  | session hm hphase _ _ =>
    rcases sessionPhases_cases hphase with
      ⟨key, out, e, hk, he, rfl, hctrl⟩ | ⟨hno, ⟨key, out, hk, hs, ho, rfl, hctrl⟩ | ⟨_, hlast⟩⟩
    · exact inv_deliver_openSession h hrun hm hk he hctrl
    · exact inv_deliver_closeStream h hrun hm hk (hno key out hk) hs hctrl
    rcases hlast with ⟨key, out, upd, hk, hr, ho, rfl, hctrl⟩ | ⟨_, rfl, hctrl⟩
    · refine inv_deliver_other hrun nofun nofun nofun fun k => ?_
      have hroute := (hsettled hm k).routing (k = key) none
      change KeyInv k _ (sessions _ |>.get k) _ _
      rw [show ctrl.sessions = _ from hctrl, Map.get_set]
      by_cases hkk : k = key
      · subst hkk
        simpa [hk] using hroute
      · simpa [hkk] using hroute
    · refine ⟨hrun, fun k => ?_⟩
      have hkeys := hsettled hm k
      rw [← show ctrl.sessions = _ from hctrl] at hkeys
      exact hkeys

theorem inv_step {op : CtrlOp} (ha : x.Allowed op) (hc : x.Coalesces op) : Inv (x.step op) := by
  cases op with
  | openSession e => exact inv_openSession h hc
  | closeSession key => exact inv_closeSession h key
  | closeSessionStream key => exact inv_closeSessionStream h ha
  | setRouting e => exact inv_setRouting h e
  | announce id present => exact inv_announce h id present
  | next o₁ o₂ => exact inv_next h hc

end Step

/-! ## Whole histories -/

/-- A session phase that hands out nothing leaves only entries the writer has caught up with. -/
theorem caughtUp {key : SessionKey} {l : Latest} {out : SessionOut} {slot : Option OutboxRef}
    {live : Bool} (h : EntryInv key l out slot live) (hclose : out.close = false)
    (hpending : out.pendingOpen = none) (hstream : out.opened = true → out.closeStream = false) :
    slot = l.slot ∧ live = l.live := by
  obtain ⟨outbox, streamClosed, rfl, ho, hslot, _, hlive⟩ := h.written hclose hpending
  exact ⟨hslot, hlive (hstream ho)⟩

theorem settles_of_inv {x : CtrlSystem} (h : Inv x) : x.Settles := by
  intro o₁ o₂
  have hspec := next_spec h.running o₁ o₂
  generalize x.ctrl.next o₁ o₂ = r at hspec
  obtain ⟨evt, ctrl⟩ := r
  cases hspec with
  | closeSession | unsubscribe | subscribe => exact ⟨nofun, nofun⟩
  | @session _ m _ hm hphase _ _ =>
    rcases sessionPhases_cases hphase with
      ⟨key, out, e, hk, he, rfl, _⟩ | ⟨hno, ⟨key, out, _, _, _, rfl, _⟩ | ⟨hns, hlast⟩⟩
    · obtain ⟨hclose, hout⟩ := entry_of_settled h hm hk
      refine ⟨nofun, fun e' he' => ?_⟩
      obtain rfl : e = e' := by simpa using he'
      rw [hout.named e he, hout.pending e hclose he]
      rfl
    · exact ⟨nofun, nofun⟩
    rcases hlast with ⟨key, out, upd, _, _, _, rfl, _⟩ | ⟨_, rfl, _⟩
    · exact ⟨nofun, nofun⟩
    refine ⟨fun _ key => ?_, nofun⟩
    cases hk : m.get key with
    | none =>
      have hinv := (h.keys key).keptOrDropped (hm key).1
      rw [hk] at hinv
      obtain ⟨hslot, hlive, hl⟩ := hinv
      refine ⟨hslot.trans hl.symm, hlive.trans ?_⟩
      cases hlat : x.latest key with
      | opened outbox streamClosed => rw [hlat] at hl; cases hl
      | never | closed => rfl
    | some out =>
      obtain ⟨hclose, hout⟩ := entry_of_settled h hm hk
      exact caughtUp hout hclose (hno key out hk) (hns key out hk)

/-- **Coalescing loses nothing.** After every history of allowed operations in which the two lossy
situations do not arise, an exhausted `next` means that every slot and every stream is what the
latest calls of its key asked for, and `next` never opens a session that is not wanted any more. -/
theorem settled_of_run {ops : List CtrlOp} (h : Along step (fun x op => x.Allowed op ∧ x.Coalesces op) {} ops) :
    ∀ pre, pre <+: ops → (exec step {} pre).Settles := by
  rintro pre ⟨post, rfl⟩
  refine settles_of_inv (Along.invariant (fun x op hinv hop => ?_) inv_init (Along.append_iff.mp h).1)
  exact inv_step hinv hop.1 hop.2

/-- Two generations of one session, and a `next` in stored order, for the concrete histories. -/
def openA : PeerOpenSession := ⟨"ch", "m", [], [], 1⟩

@[inherit_doc openA] def openB : PeerOpenSession := ⟨"ch", "m", [], [], 2⟩

@[inherit_doc openA] def nextStored : CtrlOp := .next (.stored _) (.stored _)

theorem settled_of_run_reopen :
    Along step (fun x op => x.Allowed op ∧ x.Coalesces op) {}
      [.openSession openA, nextStored, .closeSessionStream openA.key, .closeSession openA.key,
        nextStored, .openSession openB, nextStored] ∧
    (exec step {} [.openSession openA, nextStored, .closeSessionStream openA.key,
      .closeSession openA.key, nextStored, .openSession openB, nextStored]).Settles :=
  ⟨by decide, settled_of_run (by decide) _ (List.prefix_refl _)⟩

/-- The writer has the session open; it is closed, re-opened and closed again before the writer
catches up.  The writer is then told to close it and afterwards to open it: the closed session ends
with a slot and a live stream that nothing will ever close. -/
theorem reopened_after_close :
    let ops := [.openSession openA, nextStored, .closeSession openA.key, .openSession openB,
      .closeSession openA.key, nextStored, nextStored]
    let x := exec step {} ops
    Along step (fun x op => x.Allowed op) {} ops ∧
    (x.ctrl.next (.stored _) (.stored _)).1 = none ∧ x.latest openA.key = .closed ∧
    x.slots.get openA.key = some openB.chunkOutbox ∧
    (x.writer.sessions.get openA.key).isSome = true ∧ ¬ x.Settles := by
  refine ⟨by decide, by decide, by decide, by decide, by decide, fun hs => ?_⟩
  have hslot := ((hs (.stored _) (.stored _)).1 (by decide) openA.key).1
  revert hslot
  decide

end CtrlSystem

end EthP2P.Broadcast
