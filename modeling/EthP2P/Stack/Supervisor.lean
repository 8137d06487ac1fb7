/-
# EthP2P.Stack.Supervisor — who owns the views of a peer

The stack keeps one supervisor goroutine per remote peer (`supervisor.go`).  It admits views,
replaces them, ends them, and is the only code that adds peer handles to the families.  Its inbox,
the table of supervisors and the dial table are shared under the stack's mutex; consumers reach the
handles through the families' mutexes.

The model is a step relation whose steps are the critical sections of the source: each hold of the
stack's mutex, of a family's mutex or of a transport queue's mutex is one step, and everything a
supervisor does between two of them (its own fields are its own) belongs to the step before.  Where
`run` stands between two steps is its `Phase`, so the loops of `dropView`, `attach`, `handleClosed`
and `readHeaders` are interleaved with every other party one handle, one family and one stream at
a time.

What the network decides is a label of the step: when views arrive and end, when streams arrive,
how a header read ends and what the peer's control stream says.
-/
import EthP2P.Stack.Delivery

namespace EthP2P.Stack

open Lib Wire Function

abbrev FamilyCode := Nat

/-- The identity of a view: a `*transport.Conn` and its control session. -/
abbrev ViewRef := Nat

/-- The identity of a `*peerSupervisor`. -/
abbrev SupRef := Nat

/-- The identity of a channel `Disconnect` waits on. -/
abbrev DoneRef := Nat

/-- `control.ControlFamily`. -/
def controlFamily : FamilyCode := 0

/-- The stream headers read at once per direction on one view. -/
def maxHeaderReads : Int := 4

structure Selector where
  family : FamilyCode
  protocol : Protocol
  deriving DecidableEq, Repr

/-- A peer handle: its family and its number there. -/
structure Handle where
  family : FamilyCode
  ref : HandleRef
  deriving DecidableEq, Repr

/-- The families of a started stack, in the order of registration. -/
structure Registry where
  codes : List FamilyCode
  nodup : codes.Nodup
  noControl : controlFamily ∉ codes
  spec : FamilyCode → FamilySpec

/-- What a supervisor reads of a node record. -/
structure Record where
  peerID : PeerID
  seq : Nat
  deriving DecidableEq, Repr

/-- The record of a Hello, as `enr.Decode` sees it. -/
inductive HelloRecord where
  | absent
  | malformed
  | decoded (record : Record)
  deriving DecidableEq, Repr

inductive Dir where
  | uni
  | bidi
  deriving DecidableEq, Repr

/-- A view whose handshake has ended: the connection and the peer's Hello. -/
structure View where
  peer : PeerID
  outbound : Bool
  record : HelloRecord := .absent
  /-- The families of the Hello, which `readHello` validated as strictly ascending. -/
  families : List FamilyCode
  ascending : families.Pairwise (· < ·)
  /-- The streams queued by the transport. -/
  queue : Dir → List StreamRef := fun _ => []
  /-- The queue's wake channel holds a token. -/
  token : Dir → Bool := fun _ => false
  /-- `Done` is closed, with this `CloseCode`. -/
  done : Option Code := none

/-- `sharedWith`, on a sorted list. -/
def View.sharedWith (v : View) (code : FamilyCode) : Bool := v.families.contains code

structure ConnInfo where
  id : Nat
  peer : PeerID
  outbound : Bool
  deriving DecidableEq, Repr

inductive DialState where
  | inFlight
  | disconnected
  | driverGone
  | done
  deriving DecidableEq, Repr

structure DialAttempt where
  record : Record
  state : DialState := .inFlight
  deriving DecidableEq, Repr

/-- Why `attach` did not take a view. -/
inductive AttachError where
  | viewClosed (code : Code)
  | stackClosed
  | disconnected
  deriving DecidableEq, Repr

/-! ## Supervisors -/

/-- A closure in a supervisor's inbox. -/
inductive Request where
  | attach (v : ViewRef)
  /-- Posted by `Disconnect` and by the stack's `Close`. -/
  | dropView (code : Code) (goAway : Bool) (done : Option DoneRef)
  /-- Posted by the reader of the view's control stream. -/
  | goAwayRead (v : ViewRef) (code : Code) (goAway : Bool)
  /-- Posted by a header read; no selector if it failed. -/
  | headerRead (v : ViewRef) (d : Dir) (stream : StreamRef) (sel : Option Selector)
  /-- Posted by a handle's `Close`. -/
  | handleClosed
  deriving DecidableEq, Repr

/-- A view that passed the admission checks, with the families shared with the peer. -/
structure Admission where
  view : ViewRef
  info : ConnInfo
  families : List FamilyCode
  nodup : families.Nodup

/-- What `dropView` still needs after it has ended the handles; `admission` is the view that takes
the place of this one. -/
structure Drop where
  view : ViewRef
  code : Code
  goAway : Bool
  done : Option DoneRef := none
  admission : Option Admission := none

/-- Where a supervisor's `run` stands. -/
inductive Phase where
  /-- Blocked in the select. -/
  | select
  /-- The wake token was taken, the inbox not yet. -/
  | woken
  /-- About to run the next drained request or, after the last, to test for exit. -/
  | draining
  /-- In `dropView`'s loop, with the handles still to end. -/
  | dropping (handles : List Handle) (drop : Drop)
  /-- In `attach`'s loop, with the families still to tell and the handles made. -/
  | adding (admission : Admission) (families : List FamilyCode) (handles : List Handle)
  /-- In `readHeaders`; `attached` is the view whose attach ends with it. -/
  | reading (d : Dir) (attached : Option ViewRef)
  /-- In `handleClosed`'s loop, with the handles still to test. -/
  | checking (handles : List Handle)
  | exited

structure Supervisor where
  id : PeerID
  record : Option Record := none
  /-- The wake channel holds a token. -/
  wake : Bool := false
  inbox : List Request := []
  info : Option ConnInfo := none
  conn : Option ViewRef := none
  routes : Map Selector Handle := ∅
  handles : List Handle := []
  reading : Dir → Int := fun _ => 0
  /-- The requests drained from the inbox and not yet run. -/
  reqs : List Request := []
  phase : Phase := .select

namespace Supervisor

variable (u : Supervisor)

/-- `updateRecord` keeps the higher sequence number. -/
def updateRecord (rec : Option Record) : Supervisor :=
  match rec with
  | none => u
  | some rec =>
    match u.record with
    | none => { u with record := some rec }
    | some old => if rec.seq > old.seq then { u with record := some rec } else u

/-- The beginning of `dropView`: the view is taken out of the supervisor's fields.  Without a view
there is nothing to drop, and `done` is closed at once. -/
def dropView (code : Code) (goAway : Bool) (done : Option DoneRef) (admission : Option Admission) :
    Supervisor × List DoneRef :=
  match u.conn with
  | none => ({ u with phase := .draining }, done.toList)
  | some v =>
    ({ u with
        conn := none
        routes := ∅
        handles := []
        reading := fun _ => 0
        phase := .dropping u.handles
          { view := v, code := code, goAway := goAway, done := done, admission := admission } }, [])

/-- The view becomes the supervisor's; its handles are made next. -/
def install (a : Admission) : Supervisor :=
  { u with conn := some a.view, phase := .adding a a.families [] }

end Supervisor

/-! ## The stack -/

/-- A view handed to `closeView` or rejected: the code, whether GOAWAY is sent, and the channel
closed once it is released. -/
structure Release where
  view : ViewRef
  code : Code
  goAway : Bool
  done : Option DoneRef := none
  deriving DecidableEq, Repr

/-- A header read in progress. -/
structure HeaderRead where
  sup : SupRef
  view : ViewRef
  dir : Dir
  stream : StreamRef
  deriving DecidableEq, Repr

structure StackState where
  /-- `transport.PeerID()`. -/
  self : PeerID
  registry : Registry
  /-- The stack's context has ended. -/
  closed : Bool := false
  family : FamilyCode → Delivery
  peers : Map PeerID SupRef := ∅
  /-- Every supervisor ever started. -/
  sups : Map SupRef Supervisor := ∅
  nextSup : SupRef := 0
  views : Map ViewRef View := ∅
  nextView : ViewRef := 0
  dials : Map PeerID DialAttempt := ∅
  /-- A `uint64` in the source: it wraps only after `2 ^ 64` admitted connections. -/
  nextID : Nat := 0
  nextStream : StreamRef := 0
  nextDone : DoneRef := 0
  /-- The supervisor of each handle. -/
  owner : Map Handle SupRef := ∅
  /-- Inbox appends whose `signal` is still to come. -/
  signals : List SupRef := []
  /-- `Peer.Close` calls that ended their handle and have not posted yet. -/
  closings : List SupRef := []
  headerReads : List HeaderRead := []
  goAwayReads : List (SupRef × ViewRef) := []
  released : List Release := []
  /-- Channels closed by a `dropView` that found no view. -/
  finished : List DoneRef := []
  /-- What `attach` returned. -/
  results : List (ViewRef × Option AttachError) := []
  /-- Streams reset by supervisors. -/
  resets : List Reset := []

namespace StackState

/-- A started stack without peers. -/
def init (self : PeerID) (registry : Registry) : StackState :=
  { self := self, registry := registry, family := fun c => .init (registry.spec c) }

variable (s : StackState) (r : SupRef) (u : Supervisor)

def setSup : StackState :=
  { s with sups := s.sups.set r u }

/-- One operation on one family. -/
def onFamily (c : FamilyCode) (op : DeliveryOp) : StackState :=
  { s with family := update s.family c ((s.family c).step op) }

/-- Append a request under the stack's mutex; the signal follows after it is released. -/
def append (req : Request) : StackState :=
  { s.setSup r { u with inbox := u.inbox ++ [req] } with signals := s.signals ++ [r] }

/-- `post`, with what the caller does if the supervisor has exited. -/
def post (req : Request) (dropped : StackState → StackState) : StackState :=
  match s.sups.get r with
  | none => s
  | some u => if s.peers.get u.id = some r then s.append r u req else dropped s

/-! ### `Stack` methods -/

/-- `Stack.attach`, for a view whose handshake ended; the caller releases a view that is not
taken. -/
def attach (s : StackState) (v : View) : StackState :=
  let ref := s.nextView
  let s := { s with views := s.views.set ref v, nextView := ref + 1 }
  if s.closed then
    { s with released := s.released ++ [{ view := ref, code := .closing, goAway := true }] }
  else
    match s.peers.get v.peer with
    | some r =>
      match s.sups.get r with
      | some u => s.append r u (.attach ref)
      | none => s
    | none =>
      let s' := { s with peers := s.peers.set v.peer s.nextSup, nextSup := s.nextSup + 1 }
      s'.append s.nextSup { id := v.peer } (.attach ref)

def disconnect (id : PeerID) : StackState :=
  let s :=
    match s.dials.get id with
    | some d =>
      if d.state = .inFlight then
        { s with dials := s.dials.set id { d with state := .disconnected } }
      else s
    | none => s
  match s.peers.get id with
  | none => s
  | some r =>
    match s.sups.get r with
    | none => s
    | some u =>
      { s with nextDone := s.nextDone + 1 }.append r u (.dropView .closing true (some s.nextDone))

/-- The attempt after a `Disconnect`. -/
def marked (d : DialAttempt) : DialAttempt :=
  if d.state = .inFlight then { d with state := .disconnected } else d

/-- Only the dial table changes before the table of supervisors is read. -/
theorem disconnect_cases (id : PeerID) : ∃ dials,
    (∀ peer, dials.get peer = if peer = id then (s.dials.get id).map marked else s.dials.get peer) ∧
    ((s.disconnect id = { s with dials := dials } ∧ ∀ r, s.peers.get id = some r → s.sups.get r = none) ∨
    ∃ r u, s.peers.get id = some r ∧ s.sups.get r = some u ∧
      s.disconnect id = { s with dials := dials, nextDone := s.nextDone + 1 }.append r u
        (.dropView .closing true (some s.nextDone))) := by
  have hsame : ∀ d, s.dials.get id = d → d.map marked = d → ∀ peer,
      s.dials.get peer = if peer = id then d.map marked else s.dials.get peer := by
    intro d hd hmarked peer
    split
    · rename_i hpeer
      rw [hpeer, hd, hmarked]
    · rfl
  -- the attempt in flight, if there is one, is marked
  obtain ⟨dials, hget, hdials⟩ : ∃ dials : Map PeerID DialAttempt,
      (∀ peer, dials.get peer = if peer = id then (s.dials.get id).map marked else s.dials.get peer) ∧
      ∀ d, s.dials.get id = d → (match d with
      | some d =>
        if d.state = .inFlight then { s with dials := s.dials.set id { d with state := .disconnected } } else s
      | none => s) = { s with dials := dials } := by
    cases hd : s.dials.get id with
    | none => exact ⟨s.dials, hsame none hd rfl, by rintro d rfl; rfl⟩
    | some d =>
      by_cases hflight : d.state = .inFlight
      · refine ⟨_, fun peer => ?_, by rintro d' rfl; simp only [if_pos hflight]; rfl⟩
        rw [Map.get_set, Option.map_some, marked, if_pos hflight]
      · refine ⟨s.dials, hsame _ hd ?_, by rintro d' rfl; simp only [if_neg hflight]⟩
        rw [Option.map_some, marked, if_neg hflight]
  refine ⟨dials, hget, ?_⟩
  unfold disconnect
  rw [hdials _ rfl]
  cases hr : s.peers.get id with
  | none => exact .inl ⟨by simp only [hr], by simp⟩
  | some r =>
    cases hu : s.sups.get r with
    | none => exact .inl ⟨by simp only [hr, hu], by simp [hu]⟩
    | some u => exact .inr ⟨r, u, rfl, hu, by simp only [hr, hu]⟩

/-- `Close`, up to the wait: every supervisor in the table is told to drop its view. -/
def close : StackState :=
  if s.closed then s
  else
    { s with
      closed := true
      sups := s.sups.mapVals fun r u =>
        if s.peers.get u.id = some r then
          { u with inbox := u.inbox ++ [.dropView .closing true none] }
        else u
      signals := s.signals ++ s.peers.entries.map Prod.snd }

/-! ### The supervisor's steps -/

/-- The Hello's record is absent, or decodes to the peer's own. -/
def recordFits (id : PeerID) : HelloRecord → Bool
  | .absent => true
  | .malformed => false
  | .decoded rec => rec.peerID = id

/-- The registered families the peer shares. -/
def sharedFamilies (v : View) : List FamilyCode :=
  s.registry.codes.filter v.sharedWith

/-- The admission checks: the code and the error of a view that is rejected. -/
def rejection (v : View) : Option (Code × Option AttachError) :=
  if !recordFits u.id v.record then
    some (.controlViolation, some (.viewClosed .controlViolation))
  else if (s.sharedFamilies v).isEmpty then
    some (.noSharedProtocols, some (.viewClosed .noSharedProtocols))
  else if s.closed then some (.closing, some .stackClosed)
  else if v.outbound && (s.dials.get u.id).any (·.state = .disconnected) then
    some (.closing, some .disconnected)
  else
    match u.conn, u.info with
    | some _, some info =>
      -- opposite directions: keep the view dialed by the lower peer
      if info.outbound ≠ v.outbound ∧ v.outbound ≠ decide (s.self < u.id) then
        some (.duplicate, none)
      else none
    | _, _ => none

/-- The peer's record of a Hello. -/
def helloRecord : HelloRecord → Option Record
  | .decoded rec => some rec
  | _ => none

/-- `sup.attach`, up to the first handle it ends or makes. -/
def supAttach (ref : ViewRef) (v : View) : StackState :=
  match s.rejection u v with
  | some (code, result) =>
    { s.setSup r { u with phase := .draining } with
      released := s.released ++ [{ view := ref, code := code, goAway := true }]
      results := s.results ++ [(ref, result)] }
  | none =>
    let info : ConnInfo := { id := s.nextID + 1, peer := u.id, outbound := v.outbound }
    let a : Admission :=
      { view := ref, info := info, families := s.sharedFamilies v, nodup := s.registry.nodup.filter _ }
    let u := { u with info := some info }
    let u := (u.updateRecord ((s.dials.get u.id).map (·.record))).updateRecord
      (helloRecord v.record)
    let u := if u.conn.isSome then (u.dropView .duplicate true none (some a)).1 else u.install a
    { s.setSup r u with nextID := s.nextID + 1 }

/-- `dropView` up to the first handle it ends. -/
def supDrop (code : Code) (goAway : Bool) (done : Option DoneRef) : StackState :=
  let p := u.dropView code goAway done none
  { s.setSup r p.1 with finished := s.finished ++ p.2 }

/-- `headerRead`, up to `readHeaders`. -/
def supHeader (v : ViewRef) (d : Dir) (stream : StreamRef) (sel : Option Selector) : StackState :=
  if u.conn ≠ some v then
    { s.setSup r { u with phase := .draining } with
      resets := s.resets ++ if sel.isSome then [(stream, .closing)] else [] }
  else
    let u := { u with reading := update u.reading d (u.reading d - 1) }
    let s' := s.setSup r { u with phase := .reading .uni none }
    match sel with
    | none => s'
    | some sel =>
      if sel.family = controlFamily then
        { s.supDrop r u .controlViolation true none with
          resets := s.resets ++ [(stream, .controlViolation)] }
      else
        match u.routes.get sel with
        | none => { s' with resets := s.resets ++ [(stream, .unsupportedSelector)] }
        | some h => s'.onFamily h.family (.push h.ref sel.protocol)

/-- One drained request. -/
def serve : Request → StackState
  | .attach v =>
    match s.views.get v with
    | none => s.setSup r { u with phase := .draining }
    | some view => s.supAttach r u v view
  | .dropView code goAway done => s.supDrop r u code goAway done
  | .goAwayRead v code goAway =>
    if u.conn = some v then s.supDrop r u code goAway none
    else s.setSup r { u with phase := .draining }
  | .headerRead v d stream sel => s.supHeader r u v d stream sel
  | .handleClosed =>
    if u.conn.isNone then s.setSup r { u with phase := .draining }
    else s.setSup r { u with phase := .checking u.handles }

/-- The end of an iteration of `run`: without a view and without work the supervisor leaves the
table. -/
def tryExit : StackState :=
  if u.conn.isNone && u.inbox.isEmpty then
    { s.setSup r { u with phase := .exited } with peers := s.peers.del u.id }
  else s.setSup r { u with phase := .select }

/-- The routes of the handles an attach made. -/
def routesOf (registry : Registry) (handles : List Handle) : Map Selector Handle :=
  handles.foldl (fun m h =>
    (registry.spec h.family).protocols.foldl (fun m p => m.set ⟨h.family, p.protocol⟩ h) m) ∅

/-- One stream of `readHeaders`' loop, or the end of a direction. -/
def readHeader (d : Dir) (attached : Option ViewRef) : StackState :=
  let done :=
    match d with
    | .uni => s.setSup r { u with phase := .reading .bidi attached }
    | .bidi =>
      { s.setSup r { u with phase := .draining } with
        results := s.results ++ (attached.map fun v => (v, none)).toList }
  match u.conn with
  | none => done
  | some ref =>
    match s.views.get ref with
    | none => done
    | some view =>
      match view.queue d with
      | [] => done
      | stream :: rest =>
        if u.reading d ≥ maxHeaderReads ∨ view.done.isSome then done
        else
          let view := { view with
            queue := update view.queue d rest
            -- a non-empty queue stays signaled
            token := update view.token d (view.token d || !rest.isEmpty) }
          { s.setSup r { u with reading := update u.reading d (u.reading d + 1) } with
            views := s.views.set ref view
            headerReads := s.headerReads ++ [⟨r, ref, d, stream⟩] }

/-- The handle's `down`, under its family's mutex. -/
def isDown (h : Handle) : Bool :=
  ((s.family h.family).family.deliveries.get h.ref).any (·.down)

/-- The next step of a supervisor that is not blocked in the select. -/
def work : StackState :=
  match u.phase with
  | .select | .exited => s
  | .woken => s.setSup r { u with reqs := u.inbox, inbox := [], phase := .draining }
  | .draining =>
    match u.reqs with
    | [] => s.tryExit r u
    | req :: reqs => s.serve r { u with reqs := reqs } req
  | .dropping (h :: hs) drop =>
    (s.setSup r { u with phase := .dropping hs drop }).onFamily h.family (.closePeer h.ref drop.code .closing)
  | .dropping [] drop =>
    let u := { u with info := none }
    let u :=
      match drop.admission with
      | some a => u.install a
      | none => { u with phase := .draining }
    { s.setSup r u with
      released := s.released ++ [⟨drop.view, drop.code, drop.goAway, drop.done⟩] }
  | .adding a (c :: cs) handles =>
    let h : Handle := ⟨c, (s.family c).nextHandle⟩
    { (s.setSup r { u with phase := .adding a cs (handles ++ [h]) }).onFamily c (.addPeer u.id) with
      owner := s.owner.set h r }
  | .adding a [] handles =>
    { s.setSup r { u with
        routes := routesOf s.registry handles
        handles := handles
        info := some a.info
        phase := .reading .uni (some a.view) } with
      goAwayReads := s.goAwayReads ++ [(r, a.view)] }
  | .reading d attached => s.readHeader r u d attached
  | .checking (h :: hs) =>
    s.setSup r { u with phase := if s.isDown h then .checking hs else .draining }
  | .checking [] => s.supDrop r u .noSharedProtocols true none

/-- The cases of `run`'s select. -/
inductive SelectCase where
  | wake
  | streams (d : Dir)
  | done
  deriving DecidableEq, Repr

/-- A case of the select, if it is ready. -/
def select : SelectCase → StackState
  | .wake =>
    if u.wake then s.setSup r { u with wake := false, phase := .woken } else s
  | .streams d =>
    match u.conn with
    | none => s
    | some ref =>
      match s.views.get ref with
      | none => s
      | some view =>
        if view.token d then
          { s.setSup r { u with phase := .reading .uni none } with
            views := s.views.set ref { view with token := update view.token d false } }
        else s
  | .done =>
    match u.conn with
    | none => s
    | some ref =>
      match (s.views.get ref).bind (·.done) with
      | none => s
      | some code => s.supDrop r u code false none

/-! ### All steps -/

inductive StackOp where
  /-- A view's handshake ended and `Stack.attach` takes it. -/
  | attach (v : View)
  | disconnect (id : PeerID)
  | close
  /-- `Connect` writes the dial table. -/
  | dial (id : PeerID) (d : Option DialAttempt)
  | signal (r : SupRef)
  | select (r : SupRef) (case : SelectCase)
  | work (r : SupRef)
  /-- A consumer's `Next`. -/
  | next (c : FamilyCode)
  /-- A consumer's `Peer.Close`, which ends the handle. -/
  | closeHandle (h : Handle) (code : Code)
  /-- The rest of a `Peer.Close`. -/
  | postClosed (r : SupRef)
  /-- The transport queues a stream. -/
  | arrive (v : ViewRef) (d : Dir)
  /-- The view's connection ends. -/
  | connDone (v : ViewRef) (code : Code)
  /-- A header read in progress ends. -/
  | headerDone (i : Nat) (sel : Option Selector)
  /-- The reader of a control stream ends, with what `readGoAway` reports. -/
  | goAwayDone (i : Nat) (result : Option (Code × Bool))

/-- Apply `f` to a supervisor. -/
def withSup (f : Supervisor → StackState) : StackState :=
  match s.sups.get r with
  | none => s
  | some u => f u

def withView (ref : ViewRef) (f : View → View) : StackState :=
  match s.views.get ref with
  | none => s
  | some v => { s with views := s.views.set ref (f v) }

/-- `Peer.Close`: the first call on a handle ends it and will post to the supervisor. -/
def closeHandle (h : Handle) (code : Code) : StackState :=
  let s' := s.onFamily h.family (.closePeer h.ref code .unsupportedSelector)
  if s.isDown h then s'
  else { s' with closings := s.closings ++ (s.owner.get h).toList }

def step : StackOp → StackState
  | .attach v => s.attach v
  | .disconnect id => s.disconnect id
  | .close => s.close
  | .dial id d =>
    { s with dials := match d with | some d => s.dials.set id d | none => s.dials.del id }
  | .signal r =>
    if r ∈ s.signals then
      { s with signals := s.signals.erase r }.withSup r fun u =>
        { s with signals := s.signals.erase r }.setSup r { u with wake := true }
    else s
  | .select r case =>
    s.withSup r fun u =>
      match u.phase with
      | .select => s.select r u case
      | _ => s
  | .work r => s.withSup r fun u => s.work r u
  | .next c => s.onFamily c .next
  | .closeHandle h code => s.closeHandle h code
  | .postClosed r =>
    if r ∈ s.closings then
      { s with closings := s.closings.erase r }.post r .handleClosed id
    else s
  | .arrive ref d =>
    { s with nextStream := s.nextStream + 1 }.withView ref fun v =>
      if v.done.isSome then v
      else { v with
        queue := update v.queue d (v.queue d ++ [s.nextStream])
        token := update v.token d true }
  | .connDone ref code => s.withView ref fun v => { v with done := some (v.done.getD code) }
  | .headerDone i sel =>
    match s.headerReads[i]? with
    | none => s
    | some read =>
      { s with headerReads := s.headerReads.eraseIdx i }.post read.sup
        (.headerRead read.view read.dir read.stream sel) fun s =>
          { s with resets := s.resets ++ if sel.isSome then [(read.stream, Code.closing)] else [] }
  | .goAwayDone i result =>
    match s.goAwayReads[i]? with
    | none => s
    | some (r, v) =>
      let s' := { s with goAwayReads := s.goAwayReads.eraseIdx i }
      match result with
      | none => s'
      | some (code, goAway) => s'.post r (.goAwayRead v code goAway) id

end StackState

end EthP2P.Stack
