/-
# EthP2P.Broadcast.CtrlOut — the coalesced outbound control state of one peer

`ctrlOutState` (`broadcast/ctrl_out.go`) keeps, for one remote peer, the channels and sessions it
*should* be told about, coalesced into a few flags per key, while the control loop that writes to the
peer lags behind.  Sessions and the engine move the wanted state; `next` hands the loop one
transition at a time in phase order: session closes, unsubscribes, subscribes, session opens, stream
closes, routing updates.

The model keeps every field and branch of the source.  A Go map is a `Map`; a `range` over it visits
the keys in an order the language does not fix, so `next` takes the orders of its two channel loops.
The `order` counter is a `Nat`: it would have to wrap around at `2^64` sessions to differ.
-/
import EthP2P.Lib.Maps
import EthP2P.Wire.Codes

namespace EthP2P.Broadcast

open Lib Wire Map

abbrev ChannelID := String
abbrev MessageID := String

/-- The identity of one `chan peerSendChunk`, allocated by a session when it attaches a peer. -/
abbrev OutboxRef := Nat

structure SessionKey where
  channelID : ChannelID
  messageID : MessageID
  deriving DecidableEq, Repr

structure PeerOpenSession where
  channelID : ChannelID
  messageID : MessageID
  preamble : Bytes
  initialRouting : Bytes
  chunkOutbox : OutboxRef
  deriving DecidableEq, Repr

/-- `sessionKey{channelID: event.channelID, messageID: event.messageID}`. -/
def PeerOpenSession.key (e : PeerOpenSession) : SessionKey := ⟨e.channelID, e.messageID⟩

structure PeerSendRouting where
  channelID : ChannelID
  messageID : MessageID
  update : Bytes
  deriving DecidableEq, Repr

def PeerSendRouting.key (e : PeerSendRouting) : SessionKey := ⟨e.channelID, e.messageID⟩

/-- `peerCtrlEvent`: one transition handed to the control loop. -/
inductive PeerCtrlEvent where
  | openSession (e : PeerOpenSession)
  | sendRouting (e : PeerSendRouting)
  | subscribe (channelID : ChannelID)
  | unsubscribe (channelID : ChannelID)
  | closeSession (key : SessionKey)
  | closeStream (key : SessionKey)
  deriving DecidableEq, Repr

structure ChannelOut where
  want : Bool := false
  announced : Bool := false
  retire : Bool := false
  deriving DecidableEq, Repr

/-- The peer should know, or no longer know, the channel.  A channel that is wanted again before its
withdrawal was written needs a fresh start: an unsubscribe first. -/
def ChannelOut.setWant (present : Bool) (c : ChannelOut) : ChannelOut :=
  if present then { c with retire := c.retire || (c.announced && !c.want), want := true }
  else { c with want := false }

theorem ChannelOut.setWant_setWant (present : Bool) (c : ChannelOut) :
    (c.setWant present).setWant present = c.setWant present := by
  cases present <;> simp [ChannelOut.setWant]

structure SessionOut where
  pendingOpen : Option PeerOpenSession := none
  /-- The source's `open`: the last open of this key was handed out and not closed since. -/
  opened : Bool := false
  routing : Option Bytes := none
  closeStream : Bool := false
  close : Bool := false
  order : Nat
  deriving DecidableEq, Repr

/-- A fresh open of a key replaces its closed generation. -/
def SessionOut.reopen (event : PeerOpenSession) (out : SessionOut) : SessionOut :=
  let out := if out.close then
    { out with closeStream := false, routing := none, close := false } else out
  { out with pendingOpen := some event }

structure CtrlOutState where
  /-- The one-element wake channel holds its token. -/
  ready : Bool := false
  closed : Bool := false
  channels : Map ChannelID ChannelOut := ∅
  sessions : Map SessionKey SessionOut := ∅
  /-- A `uint64` in the source: it wraps only after `2 ^ 64` entries, and only their order is read. -/
  nextOrder : Nat := 0

namespace CtrlOutState

/-- `newCtrlOutState`. -/
def new : CtrlOutState := {}

/-- A non-blocking send on the one-element channel `ready`. -/
def signal (s : CtrlOutState) : CtrlOutState := { s with ready := true }

/-- The entry of `key`, or the fresh one the source's `session(key)` would create. -/
def entry (s : CtrlOutState) (key : SessionKey) : SessionOut :=
  (s.sessions.get key).getD { order := s.nextOrder + 1 }

/-- Apply `f` to `s.session(key)`, the entry of `key`, created with the next order if absent. -/
def session (s : CtrlOutState) (key : SessionKey) (f : SessionOut → SessionOut) : CtrlOutState :=
  match s.sessions.get key with
  | some out => { s with sessions := s.sessions.set key (f out) }
  | none =>
    { s with
      nextOrder := s.nextOrder + 1
      sessions := s.sessions.set key (f { order := s.nextOrder + 1 }) }

/-- `announceInitial`: the channel set already carried by the handshake. -/
def announceInitial (s : CtrlOutState) (ids : List ChannelID) : CtrlOutState :=
  if s.closed then s
  else
    { s with
      channels := ids.foldl (fun m id =>
        if (m.get id).isNone then m.set id { want := true, announced := true } else m)
        s.channels }

def announce (s : CtrlOutState) (id : ChannelID) (present : Bool) : CtrlOutState :=
  if s.closed then s
  else
    let channels := s.channels.set id (((s.channels.get id).getD {}).setWant present)
    if present then signal { s with channels := channels }
    else
      -- leaving a channel also withdraws the routing updates of its sessions
      signal { s with
        channels := channels
        sessions := s.sessions.mapVals fun key out =>
          if key.channelID = id then { out with routing := none } else out }

def openSession (s : CtrlOutState) (event : PeerOpenSession) : CtrlOutState :=
  if s.closed then s else signal (s.session event.key (SessionOut.reopen event))

def closeSession (s : CtrlOutState) (key : SessionKey) : CtrlOutState :=
  if s.closed then s else signal (s.session key fun out => { out with close := true })

def closeSessionStream (s : CtrlOutState) (key : SessionKey) : CtrlOutState :=
  if s.closed then s else signal (s.session key fun out => { out with closeStream := true })

/-- `setRouting`, with its result: was the update taken. -/
def setRouting (s : CtrlOutState) (event : PeerSendRouting) : Bool × CtrlOutState :=
  if s.closed then (false, s)
  else match s.sessions.get event.key with
    | none => (false, s)
    | some out =>
      (true, signal { s with
        sessions := s.sessions.set event.key { out with routing := some event.update } })

/-- The calls a session makes on the control state of an attached peer. -/
inductive SessionCall where
  | openSession (e : PeerOpenSession)
  | closeSession (key : SessionKey)
  | closeSessionStream (key : SessionKey)
  | setRouting (e : PeerSendRouting)
  deriving DecidableEq, Repr

def call (s : CtrlOutState) : SessionCall → CtrlOutState
  | .openSession e => s.openSession e
  | .closeSession key => s.closeSession key
  | .closeSessionStream key => s.closeSessionStream key
  | .setRouting e => (s.setRouting e).2

/-- `ctrlOutState.close`: the peer ends, and nothing is handed out any more. -/
def stop (s : CtrlOutState) : CtrlOutState :=
  { s with closed := true, channels := ∅, sessions := ∅ }

/-! ## `next` -/

/-- The entry of least `order` among those that match. -/
def firstSession (sessions : Map SessionKey SessionOut) (sel : SessionOut → Bool) :
    Option (SessionKey × SessionOut) :=
  sessions.entries.foldl (fun first e =>
    if sel e.2 && first.all (fun f => e.2.order < f.2.order) then some e else first) none

/-- Phase 1, a loop that drops closed sessions which never reached the writer and returns at the
first one that did.  Every round removes an entry or returns, so the number of entries is enough
fuel (`closePhase_none`). -/
def closePhase : Nat → Map SessionKey SessionOut → Option SessionKey × Map SessionKey SessionOut
  | 0, m => (none, m)
  | fuel + 1, m =>
    match firstSession m (·.close) with
    | none => (none, m)
    | some (key, out) =>
      if out.pendingOpen.isSome && !out.opened then closePhase fuel (m.del key)
      else if !out.opened then closePhase fuel (m.del key)
      else
        (some key, if out.pendingOpen.isNone then m.del key else m.set key { out with close := false, opened := false })

/-- Phase 2: the first visited channel that has to be retired, dropping spent entries on the way. -/
def unsubscribePhase : List ChannelID → Map ChannelID ChannelOut →
    Option ChannelID × Map ChannelID ChannelOut
  | [], m => (none, m)
  | id :: rest, m =>
    match m.get id with
    | none => unsubscribePhase rest m
    | some out =>
      if !out.want && !out.announced && !out.retire then unsubscribePhase rest (m.del id)
      else if out.retire || (!out.want && out.announced) then
        (some id, if !out.want then m.del id else m.set id { out with announced := false, retire := false })
      else unsubscribePhase rest m

/-- Phase 3: the first visited channel that is wanted and not yet announced. -/
def subscribePhase : List ChannelID → Map ChannelID ChannelOut →
    Option ChannelID × Map ChannelID ChannelOut
  | [], m => (none, m)
  | id :: rest, m =>
    match m.get id with
    | none => subscribePhase rest m
    | some out =>
      if out.want && !out.announced then (some id, m.set id { out with announced := true })
      else subscribePhase rest m

/-- Phases 4 to 6: session opens, stream closes, routing updates. -/
def sessionPhases (m : Map SessionKey SessionOut) : Option PeerCtrlEvent × Map SessionKey SessionOut :=
  match firstSession m (·.pendingOpen.isSome) with
  | some (key, out) =>
    (out.pendingOpen.map .openSession, m.set key { out with pendingOpen := none, opened := true })
  | none =>
    match firstSession m (fun out => out.closeStream && out.opened) with
    | some (key, out) => (some (.closeStream key), m.set key { out with closeStream := false })
    | none =>
      match firstSession m (fun out => out.routing.isSome && out.opened) with
      | some (key, out) =>
        (some (.sendRouting ⟨key.channelID, key.messageID, out.routing.getD []⟩),
          m.set key { out with routing := none })
      | none => (none, m)

/-- `ctrlOutState.next`: one transition, marked consumed before the caller writes it.  `o₁` and
`o₂` are the orders in which the unsubscribe and the subscribe loop visit the channels. -/
def next (o₁ o₂ : Order ChannelID) (s : CtrlOutState) : Option PeerCtrlEvent × CtrlOutState :=
  if s.closed then (none, s)
  else
    match closePhase s.sessions.keys.length s.sessions with
    | (some key, sessions) => (some (.closeSession key), { s with sessions := sessions })
    | (none, sessions) =>
      match unsubscribePhase (s.channels.range o₁) s.channels with
      | (some id, channels) =>
        (some (.unsubscribe id), { s with sessions := sessions, channels := channels })
      | (none, channels) =>
        match subscribePhase (channels.range o₂) channels with
        | (some id, channels) =>
          (some (.subscribe id), { s with sessions := sessions, channels := channels })
        | (none, _) =>
          ((sessionPhases sessions).1, { s with sessions := (sessionPhases sessions).2, channels := channels })

/-! ## What the selection and the phases do -/

private theorem firstSession_fold (sel : SessionOut → Bool)
    (es : List (SessionKey × SessionOut)) (acc : Option (SessionKey × SessionOut)) :
    let r := es.foldl (fun first e =>
      if sel e.2 && first.all (fun f => e.2.order < f.2.order) then some e else first) acc
    (r = none → acc = none ∧ ∀ e ∈ es, sel e.2 = false) ∧
    (∀ f, r = some f → acc = some f ∨ f ∈ es ∧ sel f.2 = true) := by
  induction es generalizing acc with
  | nil => exact ⟨fun h => ⟨h, by simp⟩, fun f hf => .inl hf⟩
  | cons e es ih =>
    simp only [List.foldl_cons]
    split
    · rename_i hsel
      obtain ⟨hnone, hsome⟩ := ih (some e)
      refine ⟨fun h => absurd (hnone h).1 (by simp), fun f hf => ?_⟩
      rcases hsome f hf with h | ⟨hmem, h⟩
      · simp only [Bool.and_eq_true] at hsel
        cases h
        exact .inr ⟨by simp, hsel.1⟩
      · exact .inr ⟨by simp [hmem], h⟩
    rename_i hsel
    obtain ⟨hnone, hsome⟩ := ih acc
    refine ⟨fun h => ?_, fun f hf => ?_⟩
    · obtain ⟨hacc, hall⟩ := hnone h
      subst hacc
      refine ⟨rfl, ?_⟩
      simp only [Option.all_none, Bool.and_true, Bool.not_eq_true] at hsel
      exact List.forall_mem_cons.mpr ⟨hsel, hall⟩
    · rcases hsome f hf with h | ⟨hmem, h⟩
      · exact .inl h
      · exact .inr ⟨by simp [hmem], h⟩

variable {key : SessionKey} {m : Map SessionKey SessionOut} {out : SessionOut} {id : ChannelID}
  {m' : Map ChannelID ChannelOut} {ids : List ChannelID}

variable {sel : SessionOut → Bool}

theorem firstSession_some (h : firstSession m sel = some (key, out)) : m.get key = some out ∧ sel out = true := by
  rcases (firstSession_fold sel m.entries none).2 _ h with h | ⟨hmem, hsel⟩
  · cases h
  · exact ⟨mem_entries.mp hmem, hsel⟩

theorem firstSession_none (h : firstSession m sel = none) (hk : m.get key = some out) : sel out = false :=
  ((firstSession_fold sel m.entries none).1 h).2 _ (mem_entries.mpr hk)

/-- The entry of `k` is untouched, or was a closed session that never reached the writer and is
gone. -/
def KeptOrDropped (m m' : Map SessionKey SessionOut) (k : SessionKey) : Prop :=
  m'.get k = m.get k ∨ m'.get k = none ∧ ∃ out, m.get k = some out ∧ out.close = true ∧ out.opened = false

theorem KeptOrDropped.of_erase {m' : Map SessionKey SessionOut} {k : SessionKey}
    (hk : m.get key = some out) (hc : out.close = true)
    (ho : out.opened = false) (h : KeptOrDropped (m.del key) m' k) : KeptOrDropped m m' k := by
  unfold KeptOrDropped at h
  rw [get_del] at h
  by_cases hkk : k = key
  · subst hkk
    simp only [if_true] at h
    rcases h with h | ⟨_, _, hcontra, _⟩
    · exact .inr ⟨h, out, hk, hc, ho⟩
    · cases hcontra
  · simpa [KeptOrDropped, hkk] using h

/-- Phase 1 that finds nothing to hand out leaves no closed session. -/
theorem closePhase_none {fuel : Nat} {m' : Map SessionKey SessionOut}
    (hfuel : m.keys.length ≤ fuel) (h : closePhase fuel m = (none, m')) :
    ∀ k, KeptOrDropped m m' k ∧ ∀ out, m'.get k = some out → out.close = false := by
  induction fuel generalizing m with
  | zero =>
    cases h
    refine fun k => ⟨.inl rfl, fun out hk => ?_⟩
    have : 0 < m'.keys.length := List.length_pos_of_mem (mem_keys_of_get hk)
    omega
  | succ fuel ih =>
    unfold closePhase at h
    split at h
    · rename_i hfirst
      cases h
      exact fun k => ⟨.inl rfl, fun out hk => firstSession_none hfirst hk⟩
    rename_i key out hfirst
    obtain ⟨hk, hc⟩ := firstSession_some hfirst
    have hlt := length_keys_del_lt hk
    by_cases ho : out.opened = true
    · simp [ho] at h
    simp only [Bool.not_eq_true] at ho
    simp only [ho, Bool.not_false, Bool.and_true, if_true, ite_self] at h
    have := ih (by omega) h
    exact fun k => ⟨(this k).1.of_erase hk hc ho, (this k).2⟩

/-- Phase 1 that hands out `key` hands out a closed session the writer knows; a pending open of it
survives. -/
theorem closePhase_some {fuel : Nat} {m' : Map SessionKey SessionOut} (h : closePhase fuel m = (some key, m')) :
    ∃ out, m.get key = some out ∧ out.close = true ∧ out.opened = true ∧
      m'.get key = (if out.pendingOpen.isNone then none else some { out with close := false, opened := false }) ∧
      ∀ k, k ≠ key → KeptOrDropped m m' k := by
  induction fuel generalizing m with
  | zero => simp [closePhase] at h
  | succ fuel ih =>
    unfold closePhase at h
    split at h
    · simp at h
    rename_i first out hfirst
    obtain ⟨hk, hc⟩ := firstSession_some hfirst
    by_cases ho : out.opened = true
    · simp only [ho, Bool.not_true, Bool.and_false, Bool.false_eq_true, if_false, Prod.mk.injEq,
        Option.some.injEq] at h
      obtain ⟨rfl, rfl⟩ := h
      refine ⟨out, hk, hc, ho, ?_, fun k hkk => .inl ?_⟩
      · split <;> simp
      · split <;> simp [hkk]
    simp only [Bool.not_eq_true] at ho
    simp only [ho, Bool.not_false, Bool.and_true, if_true, ite_self] at h
    obtain ⟨out', hk', hc', ho', hself, hrest⟩ := ih h
    have hne : key ≠ first := by
      rintro rfl
      simp at hk'
    rw [get_del, if_neg hne] at hk'
    exact ⟨out', hk', hc', ho', hself, fun k hkk => (hrest k hkk).of_erase hk hc ho⟩

/-- The channel entry of `k` is untouched, or was spent (neither wanted nor announced) and is
gone. -/
def KeptOrSpent (m m' : Map ChannelID ChannelOut) (k : ChannelID) : Prop :=
  m'.get k = m.get k ∨ m'.get k = none ∧ m.get k = some {}

theorem KeptOrSpent.of_erase {m : Map ChannelID ChannelOut} {k : ChannelID}
    (hid : m.get id = some {}) (h : KeptOrSpent (m.del id) m' k) : KeptOrSpent m m' k := by
  unfold KeptOrSpent at h
  rw [get_del] at h
  by_cases hk : k = id
  · subst hk
    simp only [if_true] at h
    rcases h with h | ⟨_, hcontra⟩
    · exact .inr ⟨h, hid⟩
    · cases hcontra
  · simpa [KeptOrSpent, hk] using h

private theorem spent_eq {out : ChannelOut} (h : (!out.want && !out.announced && !out.retire) = true) :
    out = {} := by
  obtain ⟨w, a, r⟩ := out
  cases w <;> cases a <;> cases r <;> simp_all

/-- Phase 2 that hands out `id` hands out a channel the peer knows and that is unwanted or due for
a fresh start. -/
theorem unsubscribePhase_some {m : Map ChannelID ChannelOut} (h : unsubscribePhase ids m = (some id, m')) :
    ∃ out, m.get id = some out ∧
      (out.retire = true ∨ out.want = false ∧ out.announced = true) ∧
      m'.get id = (if out.want then some { out with announced := false, retire := false } else none) ∧
      ∀ k, k ≠ id → KeptOrSpent m m' k := by
  induction ids generalizing m with
  | nil => simp [unsubscribePhase] at h
  | cons c rest ih =>
    unfold unsubscribePhase at h
    split at h
    · exact ih h
    rename_i out hc
    split at h
    · rename_i hspent
      rw [spent_eq hspent] at hc
      obtain ⟨out', hk', hcond, hself, hrest⟩ := ih h
      have hne : id ≠ c := by
        rintro rfl
        simp at hk'
      rw [get_del, if_neg hne] at hk'
      exact ⟨out', hk', hcond, hself, fun k hk => (hrest k hk).of_erase hc⟩
    split at h
    · rename_i hcond
      simp only [Prod.mk.injEq, Option.some.injEq] at h
      obtain ⟨rfl, rfl⟩ := h
      refine ⟨out, hc, by simpa using hcond, ?_, fun k hk => .inl ?_⟩
      · cases hw : out.want <;> simp
      · split <;> simp [hk]
    · exact ih h

/-- Phase 2 that finds nothing leaves, among the visited channels, only wanted ones that need no
fresh start. -/
theorem unsubscribePhase_none {m : Map ChannelID ChannelOut} (h : unsubscribePhase ids m = (none, m')) :
    ∀ k, KeptOrSpent m m' k ∧ (k ∈ ids → ∀ out, m'.get k = some out → out.want = true ∧ out.retire = false) := by
  induction ids generalizing m with
  | nil =>
    cases h
    exact fun k => ⟨.inl rfl, by simp⟩
  | cons c rest ih =>
    unfold unsubscribePhase at h
    split at h
    · rename_i hc
      intro k
      obtain ⟨hkept, hwant⟩ := ih h k
      refine ⟨hkept, fun hk out hout => ?_⟩
      rcases List.mem_cons.mp hk with rfl | hk
      · rcases hkept with hkept | ⟨hkept, _⟩
        · rw [hkept, hc] at hout; cases hout
        · rw [hkept] at hout; cases hout
      · exact hwant hk out hout
    rename_i out hc
    split at h
    · rename_i hspent
      rw [spent_eq hspent] at hc
      intro k
      obtain ⟨hkept, hwant⟩ := ih h k
      refine ⟨hkept.of_erase hc, fun hk out' hout => ?_⟩
      rcases List.mem_cons.mp hk with rfl | hk
      · rcases hkept with hkept | ⟨hkept, _⟩
        · rw [hkept] at hout; simp at hout
        · rw [hkept] at hout; cases hout
      · exact hwant hk out' hout
    rename_i hspent
    split at h
    · simp at h
    rename_i hcond
    intro k
    obtain ⟨hkept, hwant⟩ := ih h k
    refine ⟨hkept, fun hk out' hout => ?_⟩
    rcases List.mem_cons.mp hk with rfl | hk
    · rcases hkept with hkept | ⟨hkept, _⟩
      · rw [hkept, hc] at hout
        cases hout
        revert hspent hcond
        cases out.want <;> cases out.announced <;> cases out.retire <;> simp
      · rw [hkept] at hout; cases hout
    · exact hwant hk out' hout

theorem subscribePhase_some {m : Map ChannelID ChannelOut} (h : subscribePhase ids m = (some id, m')) :
    ∃ out, m.get id = some out ∧ out.want = true ∧ out.announced = false ∧
      m' = m.set id { out with announced := true } := by
  induction ids with
  | nil => simp [subscribePhase] at h
  | cons c rest ih =>
    unfold subscribePhase at h
    split at h
    · exact ih h
    rename_i out hc
    split at h
    · rename_i hcond
      simp only [Prod.mk.injEq, Option.some.injEq] at h
      obtain ⟨rfl, rfl⟩ := h
      simp only [Bool.and_eq_true, Bool.not_eq_true'] at hcond
      exact ⟨out, hc, hcond.1, hcond.2, rfl⟩
    · exact ih h

theorem subscribePhase_none {m : Map ChannelID ChannelOut} (h : subscribePhase ids m = (none, m')) :
    ∀ k ∈ ids, ∀ out, m.get k = some out → out.want = true → out.announced = true := by
  induction ids with
  | nil => simp
  | cons c rest ih =>
    unfold subscribePhase at h
    split at h
    · rename_i hc
      intro k hk out hout
      rcases List.mem_cons.mp hk with rfl | hk
      · rw [hc] at hout; cases hout
      · exact ih h k hk out hout
    rename_i out hc
    split at h
    · simp at h
    rename_i hcond
    intro k hk out' hout hwant
    rcases List.mem_cons.mp hk with rfl | hk
    · rw [hc] at hout
      cases hout
      simpa [hwant] using hcond
    · exact ih h k hk out' hout hwant

/-- What phases 4 to 6 hand out: the phases are tried in order, so a stream close means that no open
is pending and a routing update that no stream close is due either. -/
theorem sessionPhases_cases {m' : Map SessionKey SessionOut} {r : Option PeerCtrlEvent}
    (h : sessionPhases m = (r, m')) :
    (∃ key out e, m.get key = some out ∧ out.pendingOpen = some e ∧ r = some (.openSession e) ∧
      m' = m.set key { out with pendingOpen := none, opened := true }) ∨
    (∀ k out, m.get k = some out → out.pendingOpen = none) ∧
      ((∃ key out, m.get key = some out ∧ out.closeStream = true ∧ out.opened = true ∧
        r = some (.closeStream key) ∧ m' = m.set key { out with closeStream := false }) ∨
      (∀ k out, m.get k = some out → out.opened = true → out.closeStream = false) ∧
        ((∃ key out upd, m.get key = some out ∧ out.routing = some upd ∧ out.opened = true ∧
          r = some (.sendRouting ⟨key.channelID, key.messageID, upd⟩) ∧
          m' = m.set key { out with routing := none }) ∨
        (∀ k out, m.get k = some out → out.opened = true → out.routing = none) ∧ r = none ∧ m' = m)) := by
  unfold sessionPhases at h
  split at h
  · rename_i key out hfirst
    obtain ⟨hk, hsel⟩ := firstSession_some hfirst
    obtain ⟨e, he⟩ := Option.isSome_iff_exists.mp hsel
    simp only [he, Option.map_some, Prod.mk.injEq] at h
    exact .inl ⟨key, out, e, hk, he, h.1.symm, h.2.symm⟩
  rename_i hopen
  refine .inr ⟨fun k out hk => by simpa using firstSession_none hopen hk, ?_⟩
  split at h
  · rename_i key out hfirst
    obtain ⟨hk, hsel⟩ := firstSession_some hfirst
    simp only [Bool.and_eq_true] at hsel
    simp only [Prod.mk.injEq] at h
    exact .inl ⟨key, out, hk, hsel.1, hsel.2, h.1.symm, h.2.symm⟩
  rename_i hstream
  refine .inr ⟨fun k out hk ho => by simpa [ho] using firstSession_none hstream hk, ?_⟩
  split at h
  · rename_i key out hfirst
    obtain ⟨hk, hsel⟩ := firstSession_some hfirst
    simp only [Bool.and_eq_true] at hsel
    obtain ⟨upd, hupd⟩ := Option.isSome_iff_exists.mp hsel.1
    simp only [hupd, Option.getD_some, Prod.mk.injEq] at h
    exact .inl ⟨key, out, upd, hk, hupd, hsel.2, h.1.symm, h.2.symm⟩
  · rename_i hrouting
    simp only [Prod.mk.injEq] at h
    refine .inr ⟨fun k out hk ho => ?_, h.1.symm, h.2.symm⟩
    simpa [ho] using firstSession_none hrouting hk

/-- `m'` is `m` after a phase 1 that handed out nothing. -/
def Settled (m m' : Map SessionKey SessionOut) : Prop :=
  ∀ k, KeptOrDropped m m' k ∧ ∀ out, m'.get k = some out → out.close = false

/-- Every channel entry is wanted, announced and not due for a fresh start. -/
def AllAnnounced (m : Map ChannelID ChannelOut) : Prop :=
  ∀ k out, m.get k = some out → out.want = true ∧ out.announced = true ∧ out.retire = false

/-- **All that one `next` of an open control state can do**, by the event it hands out. -/
inductive NextSpec (s : CtrlOutState) : Option PeerCtrlEvent → CtrlOutState → Prop
  | closeSession {key : SessionKey} {out : SessionOut} {s' : CtrlOutState}
      (hk : s.sessions.get key = some out) (hclose : out.close = true)
      (hopened : out.opened = true)
      (hself : s'.sessions.get key = (if out.pendingOpen.isNone then none
        else some { out with close := false, opened := false }))
      (hrest : ∀ k, k ≠ key → KeptOrDropped s.sessions s'.sessions k)
      (hchannels : s'.channels = s.channels) : NextSpec s (some (.closeSession key)) s'
  | unsubscribe {id : ChannelID} {out : ChannelOut} {s' : CtrlOutState}
      (hsessions : Settled s.sessions s'.sessions) (hid : s.channels.get id = some out)
      (hcond : out.retire = true ∨ out.want = false ∧ out.announced = true)
      (hself : s'.channels.get id = (if out.want then some { out with announced := false, retire := false } else none))
      (hrest : ∀ k, k ≠ id → KeptOrSpent s.channels s'.channels k) :
      NextSpec s (some (.unsubscribe id)) s'
  | subscribe {id : ChannelID} {out : ChannelOut} {s' : CtrlOutState}
      {channels : Map ChannelID ChannelOut}
      (hsessions : Settled s.sessions s'.sessions)
      (hrest : ∀ k, KeptOrSpent s.channels channels k) (hid : channels.get id = some out)
      (hwant : out.want = true) (hannounced : out.announced = false)
      (hchannels : s'.channels = channels.set id { out with announced := true }) :
      NextSpec s (some (.subscribe id)) s'
  | session {r : Option PeerCtrlEvent} {sessions : Map SessionKey SessionOut} {s' : CtrlOutState}
      (hsessions : Settled s.sessions sessions) (hphase : sessionPhases sessions = (r, s'.sessions))
      (hrest : ∀ k, KeptOrSpent s.channels s'.channels k) (hall : AllAnnounced s'.channels) :
      NextSpec s r s'

/-- The phases of `next`, in order. -/
theorem next_spec {s : CtrlOutState} (hopen : s.closed = false) (o₁ o₂ : Order ChannelID) :
    NextSpec s (next o₁ o₂ s).1 (next o₁ o₂ s).2 := by
  unfold next
  simp only [hopen, Bool.false_eq_true, if_false]
  split
  · rename_i key sessions hphase
    obtain ⟨out, hk, hclose, hopened, hself, hrest⟩ := closePhase_some hphase
    exact .closeSession hk hclose hopened hself hrest rfl
  rename_i sessions hphase
  have hsettled : Settled s.sessions sessions := closePhase_none le_rfl hphase
  split
  · rename_i id channels hunsub
    obtain ⟨out, hid, hcond, hself, hrest⟩ := unsubscribePhase_some hunsub
    exact .unsubscribe hsettled hid hcond hself hrest
  rename_i channels hunsub
  have hkept := unsubscribePhase_none hunsub
  split
  · rename_i id channels' hsub
    obtain ⟨out, hid, hwant, hann, hins⟩ := subscribePhase_some hsub
    exact .subscribe hsettled (fun k => (hkept k).1) hid hwant hann hins
  rename_i hsub
  have hann := subscribePhase_none hsub
  refine .session hsettled rfl (fun k => (hkept k).1) fun k out hk => ?_
  -- a channel still present was visited by both loops
  have hmem' : k ∈ channels.keys := mem_keys_of_get hk
  have hmem : k ∈ s.channels.keys := by
    rcases (hkept k).1 with heq | ⟨hgone, _⟩
    · exact mem_keys_of_get (heq ▸ hk)
    · rw [hgone] at hk; cases hk
  obtain ⟨hwant, hret⟩ := (hkept k).2 (mem_range.mpr hmem) out hk
  exact ⟨hwant, hann k (mem_range.mpr hmem') out hk hwant, hret⟩

@[simp] theorem next_closed (o₁ o₂ : Order ChannelID) (s : CtrlOutState) : (next o₁ o₂ s).2.closed = s.closed := by
  unfold next
  split
  · rfl
  split
  · rfl
  split
  · rfl
  · split <;> rfl

/-! ## Pointwise reading of the updates -/

theorem get_session (s : CtrlOutState) (key k : SessionKey) (f : SessionOut → SessionOut) :
    (s.session key f).sessions.get k = if k = key then some (f (s.entry key)) else s.sessions.get k := by
  unfold session entry
  cases hk : s.sessions.get key with
  | none | some out => simp

theorem session_closed (s : CtrlOutState) (key : SessionKey) (f : SessionOut → SessionOut) :
    (s.session key f).closed = s.closed := by
  unfold session
  split <;> rfl

section Closed

variable (s : CtrlOutState)

@[simp] theorem openSession_closed (e : PeerOpenSession) : (s.openSession e).closed = s.closed := by
  unfold openSession
  split
  · rfl
  · exact session_closed s e.key _

@[simp] theorem closeSession_closed (key : SessionKey) : (s.closeSession key).closed = s.closed := by
  unfold closeSession
  split
  · rfl
  · exact session_closed s key _

@[simp] theorem closeSessionStream_closed (key : SessionKey) : (s.closeSessionStream key).closed = s.closed := by
  unfold closeSessionStream
  split
  · rfl
  · exact session_closed s key _

@[simp] theorem setRouting_closed (e : PeerSendRouting) : (s.setRouting e).2.closed = s.closed := by
  unfold setRouting
  split
  · rfl
  · split <;> rfl

@[simp] theorem announceInitial_closed (ids : List ChannelID) : (s.announceInitial ids).closed = s.closed := by
  unfold announceInitial
  split <;> rfl

@[simp] theorem announce_closed (id : ChannelID) (present : Bool) : (s.announce id present).closed = s.closed := by
  unfold announce
  split
  · rfl
  · split <;> rfl

@[simp] theorem foldl_announce_closed (ids : List ChannelID) (present : Bool) :
    (ids.foldl (·.announce · present) s).closed = s.closed := by
  induction ids generalizing s with
  | nil => rfl
  | cons id ids ih => rw [List.foldl_cons, ih, announce_closed]

end Closed

section Running

variable {s : CtrlOutState} (hopen : s.closed = false)

include hopen

theorem get_openSession (e : PeerOpenSession) (k : SessionKey) :
    (s.openSession e).sessions.get k = if k = e.key then some ((s.entry e.key).reopen e) else s.sessions.get k := by
  simp only [openSession, hopen, Bool.false_eq_true, if_false]
  exact get_session s e.key k _

theorem get_closeSession (key k : SessionKey) :
    (s.closeSession key).sessions.get k =
      if k = key then some { s.entry key with close := true } else s.sessions.get k := by
  simp only [closeSession, hopen, Bool.false_eq_true, if_false]
  exact get_session s key k _

theorem get_closeSessionStream (key k : SessionKey) :
    (s.closeSessionStream key).sessions.get k =
      if k = key then some { s.entry key with closeStream := true } else s.sessions.get k := by
  simp only [closeSessionStream, hopen, Bool.false_eq_true, if_false]
  exact get_session s key k _

/-- A routing update touches the routing of its own session only. -/
theorem get_setRouting (e : PeerSendRouting) (k : SessionKey) :
    (s.setRouting e).2.sessions.get k = (s.sessions.get k).map fun out =>
      if k = e.key then { out with routing := some e.update } else out := by
  simp only [setRouting, hopen, Bool.false_eq_true, if_false]
  split
  · rename_i hnone
    by_cases hk : k = e.key
    · simp [hk, hnone]
    · simp [hk]
  rename_i out hout
  by_cases hk : k = e.key
  · simp [signal, hk, hout]
  · simp [signal, hk]

/-- Announcing a channel touches no session, withdrawing one touches routing only. -/
theorem get_announce (id : ChannelID) (present : Bool) (k : SessionKey) :
    (s.announce id present).sessions.get k = (s.sessions.get k).map fun out =>
      if !present && k.channelID = id then { out with routing := none } else out := by
  simp only [announce, hopen, Bool.false_eq_true, if_false]
  cases present with
  | true | false => simp [signal]

theorem channels_announce (id : ChannelID) (present : Bool) :
    (s.announce id present).channels = s.channels.set id (((s.channels.get id).getD {}).setWant present) := by
  simp only [announce, hopen, Bool.false_eq_true, if_false]
  cases present <;> rfl

/-- Announcing a list of channels one after the other. -/
theorem get_foldl_announce (ids : List ChannelID) (present : Bool) (k : ChannelID) :
    (ids.foldl (·.announce · present) s).channels.get k =
      if k ∈ ids then some (((s.channels.get k).getD {}).setWant present)
      else s.channels.get k := by
  induction ids generalizing s with
  | nil => simp
  | cons id ids ih =>
    rw [List.foldl_cons, ih (by simpa using hopen), channels_announce hopen]
    by_cases hk : k = id
    · subst hk
      simp [ChannelOut.setWant_setWant]
    · simp [hk]

theorem get_announceInitial (ids : List ChannelID) (k : ChannelID) :
    (s.announceInitial ids).channels.get k =
      if s.channels.get k = none ∧ k ∈ ids then some { want := true, announced := true }
      else s.channels.get k := by
  simp only [announceInitial, hopen, Bool.false_eq_true, if_false]
  generalize s.channels = m
  induction ids generalizing m with
  | nil => simp
  | cons id ids ih =>
    rw [List.foldl_cons, ih]
    by_cases hk : k = id
    · subst hk
      cases hm : m.get k with
      | none => simp
      | some c => simp [hm]
    have hget : (if (m.get id).isNone = true then
        m.set id { want := true, announced := true } else m).get k = m.get k := by
      split <;> simp [hk]
    rw [hget]
    simp [hk]

end Running

section Channels

variable (s : CtrlOutState)

/-- The calls of a session leave the channels alone. -/
@[simp] theorem session_channels (key : SessionKey) (f : SessionOut → SessionOut) :
    (s.session key f).channels = s.channels := by
  unfold session
  split <;> rfl

@[simp] theorem openSession_channels (e : PeerOpenSession) : (s.openSession e).channels = s.channels := by
  unfold openSession
  split
  · rfl
  · exact session_channels s e.key _

@[simp] theorem closeSession_channels (key : SessionKey) : (s.closeSession key).channels = s.channels := by
  unfold closeSession
  split
  · rfl
  · exact session_channels s key _

@[simp] theorem closeSessionStream_channels (key : SessionKey) :
    (s.closeSessionStream key).channels = s.channels := by
  unfold closeSessionStream
  split
  · rfl
  · exact session_channels s key _

@[simp] theorem setRouting_channels (e : PeerSendRouting) : (s.setRouting e).2.channels = s.channels := by
  unfold setRouting
  split
  · rfl
  · split <;> rfl

@[simp] theorem call_channels (f : SessionCall) : (s.call f).channels = s.channels := by
  cases f <;> simp [call]

@[simp] theorem call_closed (f : SessionCall) : (s.call f).closed = s.closed := by
  cases f <;> simp [call]

end Channels

end CtrlOutState

end EthP2P.Broadcast
