/-
# EthP2P.Rs.Bounds — every index is within its slice

A slice index out of range ends the program, while the model's reads and writes there do nothing.  So the calls
are written once more with every index checked: in the chunk array, the peers' counters, the bitmaps and the
planner's entries; `none` is an index out of range.  In a state whose records fit together the checked call comes
to the state of the call (`Sound.callIn_eq`), and so, with the records themselves, after any sequence of calls
(`consistent_of_run`).
-/
import EthP2P.Rs.Inventory

namespace EthP2P.Rs

open Lib Wire Broadcast List

section Slices

variable {A : Type} {l : List A} {i : Int}

/-- `l[i]`. -/
def atIn (l : List A) (i : Int) : Option A := if i < 0 then none else l[i.toNat]?

/-- `l[i] = f(l[i])`. -/
def modifyIn (l : List A) (i : Int) (f : A → A) : Option (List A) :=
  if 0 ≤ i ∧ i < l.length then some (l.modify i.toNat f) else none

theorem atIn_eq (hi : 0 ≤ i) (hlt : i < l.length) (d : A) : atIn l i = some (l.getD i.toNat d) := by
  rw [atIn, if_neg hi.not_gt, getD_eq_getElem?_getD, getElem?_eq_getElem (by omega)]
  rfl

theorem modifyIn_eq (hi : 0 ≤ i) (hlt : i < l.length) (f : A → A) : modifyIn l i f = some (l.modify i.toNat f) :=
  if_pos ⟨hi, hlt⟩

end Slices

namespace Bitmap

variable {b : Bitmap} {i : Int}

/-- `Get`. -/
def getIn (b : Bitmap) (i : Int) : Option Bool :=
  if i ≥ b.length * 8 then some false else (atIn b (i / 8)).map fun x => x &&& mask i.toNat != 0

/-- Write a bit by `f`. -/
def writeIn (b : Bitmap) (i : Int) (f : UInt8 → UInt8 → UInt8) : Option Bitmap :=
  if i ≥ b.length * 8 then some b else modifyIn b (i / 8) (f · (mask i.toNat))

/-- `Set`. -/
def setIn (b : Bitmap) (i : Int) : Option Bitmap := b.writeIn i (· ||| ·)

/-- `Unset`. -/
def unsetIn (b : Bitmap) (i : Int) : Option Bitmap := b.writeIn i (· &&& ~~~ ·)

theorem getIn_eq (hi : 0 ≤ i) : b.getIn i = some (b.get i.toNat) := by
  obtain ⟨n, rfl⟩ := Int.eq_ofNat_of_zero_le hi
  unfold getIn get
  by_cases hn : n ≥ b.length * 8
  · rw [if_pos (by omega), if_pos (by simpa using hn)]
  · rw [if_neg (by omega), if_neg (by simpa using hn), atIn_eq (by omega) (by omega) 0]
    rfl

theorem writeIn_eq (hi : 0 ≤ i) (f : UInt8 → UInt8 → UInt8) : b.writeIn i f =
    some (if i.toNat ≥ b.length * 8 then b else List.modify b (i.toNat / 8) (f · (mask i.toNat))) := by
  obtain ⟨n, rfl⟩ := Int.eq_ofNat_of_zero_le hi
  unfold writeIn
  by_cases hn : n ≥ b.length * 8
  · rw [if_pos (by omega), if_pos (by simpa using hn)]
  · rw [if_neg (by omega), if_neg (by simpa using hn), modifyIn_eq (by omega) (by omega)]
    rfl

theorem setIn_eq (hi : 0 ≤ i) : b.setIn i = some (b.set i.toNat) := writeIn_eq hi _

theorem unsetIn_eq (hi : 0 ≤ i) : b.unsetIn i = some (b.unset i.toNat) := writeIn_eq hi _

end Bitmap

/-! ## The planner -/

namespace EmitPlanner

def modifyIn (h : EmitPlanner) (i : Nat) (f : EmitEntry → EmitEntry) : Option EmitPlanner :=
  (Rs.modifyIn h.entries i f).map fun entries => { h with entries := entries }

/-- `Insert`. -/
def InsertIn (h : EmitPlanner) (ec : EmitEntry) : Option EmitPlanner :=
  match h.idToIndex.get ec.idx with
  | some i => do heap.fixIn (← h.modifyIn i fun _ => ec) i
  | none => heap.heapPushIn h ec

/-- `addTimes`. -/
def addTimesIn (h : EmitPlanner) (id delta : Int) : Option EmitPlanner :=
  match h.idToIndex.get id with
  | none => some h
  | some i => do heap.fixIn (← h.modifyIn i fun ec => { ec with times := ec.times + delta }) i

/-- `AddSent`. -/
def AddSentIn (h : EmitPlanner) (id delta : Int) : Option EmitPlanner :=
  match h.idToIndex.get id with
  | none => some h
  | some i => h.modifyIn i fun ec => { ec with sent := ec.sent + delta }

theorem len_swap (h : EmitPlanner) (i j : Nat) : heap.len (heap.swap h i j) = heap.len h := by
  simp [heap, len, swap]

section
variable {h : EmitPlanner} {m : Int → Option EmitEntry} (hh : h.Holds m)

include hh

theorem Holds.modifyIn_eq {id : Int} {i : Nat} (hi : h.idToIndex.get id = some i) (f : EmitEntry → EmitEntry) :
    h.modifyIn i f = some (h.modify i f) := by
  obtain ⟨e, he, _⟩ := hh.positioned id i hi
  have hlt : i < h.entries.length := (List.getElem?_eq_some_iff.mp he).1
  rw [modifyIn, Rs.modifyIn_eq (by omega) (by omega)]
  rfl

/-- A changed entry travels within the planner. -/
theorem Holds.fixIn_eq {id : Int} {i : Nat} (hi : h.idToIndex.get id = some i) (f : EmitEntry → EmitEntry) :
    (do heap.fixIn (← h.modifyIn i f) i) = some (heap.fix (h.modify i f) i) := by
  obtain ⟨e, he, _⟩ := hh.positioned id i hi
  have hlen : heap.len (h.modify i f) = h.entries.length := by simp [heap, len, EmitPlanner.modify]
  rw [hh.modifyIn_eq hi, Option.bind_eq_bind, Option.bind_some]
  exact HeapInterface.fixIn_eq len_swap (hlen ▸ (List.getElem?_eq_some_iff.mp he).1)

theorem Holds.insertIn_eq (ec : EmitEntry) : h.InsertIn ec = some (h.Insert ec) := by
  unfold InsertIn Insert
  cases hi : h.idToIndex.get ec.idx with
  | some i => exact hh.fixIn_eq hi _
  | none => exact HeapInterface.heapPushIn_eq len_swap ec (by simp [heap, len, EmitPlanner.push])

theorem Holds.addTimesIn_eq (id delta : Int) : h.addTimesIn id delta = some (h.addTimes id delta) := by
  unfold addTimesIn EmitPlanner.addTimes
  cases hi : h.idToIndex.get id with
  | none => rfl
  | some i => exact hh.fixIn_eq hi _

theorem Holds.addSentIn_eq (id delta : Int) : h.AddSentIn id delta = some (h.AddSent id delta) := by
  unfold AddSentIn AddSent
  cases hi : h.idToIndex.get id with
  | none => rfl
  | some i => exact hh.modifyIn_eq hi _

theorem Holds.insertAllIn_eq (ecs : List EmitEntry) : ecs.foldlM InsertIn h = some (ecs.foldl Insert h) := by
  induction ecs generalizing h m with
  | nil => rfl
  | cons ec ecs ih =>
    rw [foldlM_cons, hh.insertIn_eq ec, Option.bind_eq_bind, Option.bind_some]
    exact ih (hh.insert ec)

end

/-- There is something to take from a planner that has a first entry. -/
theorem popFrontIn_eq {h : EmitPlanner} {ec : EmitEntry} (htop : h.Top = some ec) :
    ∃ r, h.PopFront = some r ∧ heap.heapPopIn h = some r := by
  have hpos : 0 < heap.len h := by
    apply length_pos_iff.mpr
    rintro hnil
    rw [EmitPlanner.Top, hnil] at htop
    cases htop
  have hlen := HeapInterface.len_downLoop len_swap (heap.len h - 1 + 1) (h := heap.swap h 0 (heap.len h - 1)) (i := 0)
    (n := heap.len h - 1) (by rwa [len_swap]) (by rw [len_swap]; omega)
  rw [len_swap] at hlen
  have hne := length_pos_iff.mp (hpos.trans_eq hlen.symm)
  obtain ⟨r, hr⟩ : ∃ r, h.PopFront = some r := ⟨_, congrArg (Option.map _) (getLast?_eq_some_getLast hne)⟩
  exact ⟨r, hr, (HeapInterface.heapPopIn_eq len_swap hpos).trans hr⟩

end EmitPlanner

/-! ## The strategy -/

/-- The sends that are under way and needless. -/
def PeerState.needlessIn (ps : PeerState) : Option (List Bool) :=
  (range ps.inflight.length).mapM fun idx : Nat => do
    some (decide ((← atIn ps.inflight idx) > 0) && (← ps.bitmap.getIn idx))

theorem PeerState.needlessIn_eq (ps : PeerState) : ∃ needless, ps.needlessIn = some needless := by
  have hall : ∀ l : List Nat, (∀ idx ∈ l, idx < ps.inflight.length) → ∃ needless, (l.mapM fun idx : Nat =>
      (do some (decide ((← atIn ps.inflight idx) > 0) && (← ps.bitmap.getIn idx)) : Option Bool)) = some needless := by
    intro l hl
    induction l with
    | nil => exact ⟨[], rfl⟩
    | cons idx l ih =>
      obtain ⟨needless, heq⟩ := ih fun i hi => hl i (mem_cons_of_mem _ hi)
      have hlt := hl idx mem_cons_self
      rw [mapM_cons, heq, atIn_eq (Int.natCast_nonneg idx) (by omega) 0, Bitmap.getIn_eq (Int.natCast_nonneg idx)]
      exact ⟨_, rfl⟩
  exact hall _ fun _ => mem_range.mp

namespace State

open EmitPlanner

/-- `ineligible`. -/
def ineligibleIn (s : State) (ps : PeerState) (ec : EmitEntry) : Option Bool := do
  some ((← ps.bitmap.getIn ec.idx) || decide ((← atIn ps.inflight ec.idx) > 0) ||
    (!s.isOrigin && decide (ec.sent ≥ s.config.forwardMultiplier)))

/-- The search for an eligible chunk. -/
def searchIn (s : State) (ps : PeerState) : Nat → EmitPlanner → List EmitEntry →
    Option (Option EmitEntry × EmitPlanner × List EmitEntry)
  | 0, h, skipped => some (none, h, skipped)
  | fuel + 1, h, skipped =>
    match h.Top with
    | none => some (none, h, skipped)
    | some ec => do
      if ← s.ineligibleIn ps ec then
        let (ec, h) ← heap.heapPopIn h
        s.searchIn ps fuel h (skipped ++ [ec])
      else some (some ec, h, skipped)

/-- `allocate`. -/
def allocateIn (s : State) (peer : PeerID) (ps : PeerState) :
    Option (State × Option (ChunkIdent × Option Bytes)) := do
  let (found, h, skipped) ← s.searchIn ps (s.emitPlanner.len + 1) s.emitPlanner []
  let h ← skipped.foldlM InsertIn h
  match found with
  | none => some ({ s with emitPlanner := h }, none)
  | some ec =>
    let data ← atIn s.chunks ec.idx
    let inflight ← modifyIn ps.inflight ec.idx (· + 1)
    let h ← h.addTimesIn ec.idx 1
    some ({ s with emitPlanner := h, peers := s.peers.set peer { ps with inflight := inflight } },
      some (⟨ec.idx⟩, data))

/-- One round of `PollChunks`. -/
def pollIn (acc : List (ChunkDispatch ChunkIdent) × State) (peer : PeerID) :
    Option (List (ChunkDispatch ChunkIdent) × State) :=
  match acc.2.peers.get peer with
  | none => some acc
  | some ps =>
    if ps.completed then some acc
    else do
      match ← acc.2.allocateIn peer ps with
      | (s, none) => some (acc.1, s)
      | (s, some (chunkID, data)) => some (acc.1 ++ [⟨peer, chunkID, data.getD []⟩], s)

/-- `place`. -/
def placeIn (s : State) (peer : PeerID) (idx : Int) (data : Bytes) : Option State := do
  let s := { s with
    chunks := ← modifyIn s.chunks idx fun _ => some data
    have_ := ← s.have_.setIn idx
    routingDirty := true
    emitPlanner := ← s.emitPlanner.InsertIn { idx := idx, priority := s.chunkPriority idx.toNat } }
  match s.peers.get peer with
  | none => some s
  | some ps => some { s with peers := s.peers.set peer { ps with bitmap := ← ps.bitmap.setIn idx } }

/-- `TakeChunk`. -/
def takeIn (s : State) (peer : PeerID) (index : Int) (data : Bytes) : Option State :=
  if s.outOfRange index || s.complete then some s
  else do
    if (← atIn s.chunks index).isSome then some s
    else
      let s ← s.placeIn peer index data
      some (if !s.complete && s.enough then { s with complete := true } else s)

/-- `RoutingUpdate`. -/
def routingIn (s : State) (peer : PeerID) (update : Option Bitmap) : Option State :=
  match s.peers.get peer with
  | none => some s
  | some ps => do
    let ps := match update with
      | some update => { ps with bitmap := ps.bitmap.or update }
      | none => ps
    let _ ← ps.needlessIn
    some { s with peers := s.peers.set peer ps }

/-- `ChunkSent`. -/
def sentIn (s : State) (peer : PeerID) (handle : ChunkHandle) (err : Option SendError) : Option State :=
  match s.peers.get peer with
  | none => some s
  | some ps =>
    let idx := int64 handle
    if s.outOfRange idx then some s
    else do
      if (← atIn ps.inflight idx) ≤ 0 then some s
      else
        let inflight ← modifyIn ps.inflight idx (· - 1)
        match err with
        | none =>
          let bitmap ← ps.bitmap.setIn idx
          let h ← (if s.isOrigin then some s.emitPlanner else s.emitPlanner.AddSentIn idx 1)
          some { s with
            peers := s.peers.set peer { ps with inflight := inflight, bitmap := bitmap }, emitPlanner := h }
        | some _ =>
          let bitmap ← ps.bitmap.unsetIn idx
          let h ← s.emitPlanner.addTimesIn idx (-1)
          some { s with
            peers := s.peers.set peer { ps with inflight := inflight, bitmap := bitmap }, emitPlanner := h }

/-- The state after a call whose indices are all in range. -/
def callIn (s : State) : Call → Option State
  | .attach peer => some (s.AttachPeer peer)
  | .detach peer completed => some (s.DetachPeer peer completed)
  | .take peer chunkID data => s.takeIn peer chunkID.index data
  | .routing peer update => s.routingIn peer update
  | .poll o => ((s.peers.range o).foldlM pollIn ([], s)).map Prod.snd
  | .pollRouting force => some (s.PollRouting force).2
  | .sent peer handle err => s.sentIn peer handle err

section

variable {s : State} {m m' : Int → Option EmitEntry} {ps : PeerState} (h : s.Sound m)
include h

section Peer

variable {q : PeerID} (hget : s.peers.get q = some ps) {i : Int} (hi : 0 ≤ i) (hlt : i < s.totalChunks)
include hget hlt

/-- A tracked chunk has a counter at every peer. -/
theorem Sound.lt_inflight : i < ps.inflight.length := by
  have := h.inflight q ps hget
  omega

include hi

theorem Sound.inflightIn_eq : atIn ps.inflight i = some (ps.inflight.getD i.toNat 0) :=
  atIn_eq hi (h.lt_inflight hget hlt) 0

theorem Sound.ineligibleIn_eq (ec : EmitEntry) (hec : ec.idx = i) :
    s.ineligibleIn ps ec = some (s.ineligible ps ec) := by
  subst hec
  simp only [ineligibleIn, Bitmap.getIn_eq hi, h.inflightIn_eq hget hi hlt, Option.bind_eq_bind, Option.bind_some]
  rfl

end Peer

/-- The entries that the search takes out were planned, so their indices are those of chunks. -/
theorem Sound.searchIn_eq {q : PeerID} (hget : s.peers.get q = some ps) (fuel : Nat)
    {planner : EmitPlanner} (hh : planner.Holds m') (hsub : ∀ id e, m' id = some e → m id = some e)
    (skipped : List EmitEntry) :
    s.searchIn ps fuel planner skipped = some (s.search ps fuel planner skipped) := by
  induction fuel generalizing planner m' skipped with
  | zero => rfl
  | succ fuel ih =>
    unfold searchIn search
    cases htop : planner.Top with
    | none => rfl
    | some ec =>
    obtain ⟨hnonneg, hlt⟩ := h.inRange _ _ (hsub _ _ (hh.top htop))
    obtain ⟨r, hpop, hpopIn⟩ := popFrontIn_eq htop
    simp only [h.ineligibleIn_eq hget hnonneg hlt ec rfl, hpop, hpopIn, Option.bind_eq_bind, Option.bind_some]
    split
    · obtain ⟨_, hh'⟩ := hh.popFront hpop
      refine ih hh' (fun id e' he' => ?_) _
      by_cases hid : id = r.1.idx
      · rw [hid, Function.update_self] at he'
        cases he'
      · rw [Function.update_of_ne hid] at he'
        exact hsub id e' he'
    · rfl

theorem Sound.allocateIn_eq {q : PeerID} (hget : s.peers.get q = some ps) :
    s.allocateIn q ps = some (s.allocate q ps) := by
  have hsearch := h.searchIn_eq hget (s.emitPlanner.len + 1) h.planner (fun _ _ he => he) []
  have hnone : restored m [] = m := rfl
  obtain ⟨⟨m'', hh'', hrest⟩, hfound⟩ :=
    search_restores (s := s) ps (s.emitPlanner.len + 1) h.planner hnone fun _ _ h => h
  unfold allocateIn allocate
  rw [hsearch, Option.bind_eq_bind, Option.bind_some]
  generalize s.search ps (s.emitPlanner.len + 1) s.emitPlanner [] = found at *
  obtain ⟨found, planner, skipped⟩ := found
  have hback : (skipped.foldl Insert planner).Holds m := hrest ▸ holds_restored skipped hh''
  simp only [hh''.insertAllIn_eq, Option.bind_eq_bind, Option.bind_some]
  cases found with
  | none => rfl
  | some ec =>
    obtain ⟨hplanned, _⟩ := hfound ec rfl
    obtain ⟨hnonneg, hlt⟩ := h.inRange _ _ hplanned
    have hchunks := h.length
    simp only [atIn_eq (l := s.chunks) hnonneg (by omega) none, hback.addTimesIn_eq,
      modifyIn_eq hnonneg (h.lt_inflight hget hlt), Option.bind_some]
    rfl

theorem Sound.pollIn_eq (ds : List (ChunkDispatch ChunkIdent)) (peers : List PeerID) :
    peers.foldlM pollIn (ds, s) = some (peers.foldl State.poll (ds, s)) := by
  induction peers generalizing s m ds with
  | nil => rfl
  | cons peer peers ih =>
    have hone : pollIn (ds, s) peer = some (State.poll (ds, s) peer) := by
      unfold pollIn State.poll
      dsimp only
      cases hget : s.peers.get peer with
      | none => rfl
      | some ps =>
      simp only [h.allocateIn_eq hget, Option.bind_eq_bind, Option.bind_some]
      cases ps.completed with
      | true => rfl
      | false => rcases s.allocate peer ps with ⟨t, _ | ⟨chunkID, data⟩⟩ <;> rfl
    obtain ⟨d, t, m', heq, hr⟩ := poll_round h.planner ds peer
    rw [foldlM_cons, foldl_cons, hone, Option.bind_eq_bind, Option.bind_some, heq]
    exact ih (h.round hr).1 (ds ++ d)

theorem Sound.placeIn_eq (peer : PeerID) {i : Int} (hi : 0 ≤ i) (hlt : i < s.totalChunks) (data : Bytes) :
    s.placeIn peer i data = some (s.place peer i.toNat data) := by
  have hchunks := h.length
  simp only [placeIn, place, onPeer, modifyIn_eq (l := s.chunks) hi (by omega), Bitmap.setIn_eq hi,
    h.planner.insertIn_eq, Option.bind_eq_bind, Option.bind_some, set_eq_modify, Int.toNat_of_nonneg hi]
  cases s.peers.get peer <;> rfl

theorem Sound.takeIn_eq (peer : PeerID) (chunkID : ChunkIdent) (data : Bytes) :
    s.takeIn peer chunkID.index data = some (s.TakeChunk peer chunkID data).state := by
  unfold takeIn TakeChunk
  by_cases hrange : s.outOfRange chunkID.index = true
  · simp [hrange]
  by_cases hcomplete : s.complete = true
  · simp [hrange, hcomplete]
  obtain ⟨hi, hlt⟩ : 0 ≤ chunkID.index ∧ chunkID.index < s.totalChunks := by
    simpa [outOfRange] using hrange
  have hchunks := h.length
  simp only [hrange, hcomplete, Bool.or_false, atIn_eq (l := s.chunks) hi (by omega) none,
    h.placeIn_eq peer hi hlt data, Option.bind_eq_bind, Option.bind_some]
  cases (s.chunks.getD chunkID.index.toNat none).isSome <;> rfl

omit h in
theorem routingIn_eq (peer : PeerID) (update : Option Bitmap) :
    s.routingIn peer update = some (s.RoutingUpdate peer update).1 := by
  unfold routingIn RoutingUpdate
  cases s.peers.get peer with
  | none => rfl
  | some ps =>
  cases update with
  | none =>
    obtain ⟨needless, heq⟩ := ps.needlessIn_eq
    simp only [heq, Option.bind_eq_bind, Option.bind_some]
  | some update =>
    obtain ⟨needless, heq⟩ := PeerState.needlessIn_eq { ps with bitmap := ps.bitmap.or update }
    simp only [heq, Option.bind_eq_bind, Option.bind_some]

theorem Sound.sentIn_eq (peer : PeerID) (handle : ChunkHandle) (err : Option SendError) :
    s.sentIn peer handle err = some (s.ChunkSent peer handle err) := by
  unfold sentIn ChunkSent
  cases hget : s.peers.get peer with
  | none => rfl
  | some ps =>
  by_cases hrange : s.outOfRange (int64 handle) = true
  · simp only [hrange, if_true]
  obtain ⟨hi, hlt⟩ : 0 ≤ int64 handle ∧ int64 handle < s.totalChunks := by
    simpa [outOfRange] using hrange
  simp only [hrange, Bool.false_eq_true, if_false, h.inflightIn_eq hget hi hlt,
    modifyIn_eq hi (h.lt_inflight hget hlt), Bitmap.setIn_eq hi, Bitmap.unsetIn_eq hi, h.planner.addSentIn_eq,
    h.planner.addTimesIn_eq, Option.bind_eq_bind, Option.bind_some]
  by_cases hzero : ps.inflight.getD (int64 handle).toNat 0 ≤ 0
  · simp only [hzero, if_true]
  simp only [hzero, if_false]
  cases err with
  | none => cases s.isOrigin <;> rfl
  | some err => rfl

/-- **No call indexes out of range.** -/
theorem Sound.callIn_eq (c : Call) : s.callIn c = some (s.call c) := by
  cases c with
  | attach peer | detach peer completed | pollRouting force => rfl
  | take peer chunkID data => exact h.takeIn_eq peer chunkID data
  | routing peer update => exact routingIn_eq peer update
  | poll o =>
    rw [callIn, h.pollIn_eq]
    rfl
  | sent peer handle err => exact h.sentIn_eq peer handle err

end

/-! ## Runs -/

/-- What the records of a strategy say is the same. -/
structure Consistent (s : State) : Prop where
  /-- A bit of `have` is set where a chunk is held, and the planner has an entry for it. -/
  held : ∀ i : Nat, s.have_.get i = true ↔ (s.chunks.getD i none).isSome = true
  planned : ∀ i : Int, (s.emitPlanner.lookup i).isSome = true ↔ 0 ≤ i ∧ (s.chunks.getD i.toNat none).isSome = true
  beyond : ∀ i : Nat, s.totalChunks ≤ i → s.have_.get i = false
  progress : s.Progress.1 = present s.chunks
  complete : s.isOrigin = false → (s.complete = true ↔ s.preamble.dataChunks ≤ present s.chunks)
  binary : ∀ q ps, s.peers.get q = some ps → ∀ n ∈ ps.inflight, n = 0 ∨ n = 1
  times : ∀ (i : Nat) e, s.emitPlanner.lookup i = some e → flying s.peers i ≤ e.times
  inBounds : ∀ c, s.callIn c = some (s.call c)

variable {s : State}

theorem Stocked.consistent {m : Int → Option EmitEntry} (h : s.Stocked m) : s.Consistent where
  held i := by rw [h.holdings.held i]
  planned i := by
    rw [← h.sound.planner.model]
    constructor
    · intro hsome
      obtain ⟨e, he⟩ := Option.isSome_iff_exists.mp hsome
      have hnonneg := (h.sound.inRange i e he).1
      refine ⟨hnonneg, ?_⟩
      rw [← h.sound.planned, Int.toNat_of_nonneg hnonneg]
      exact hsome
    · rintro ⟨hnonneg, hheld⟩
      rw [← h.sound.planned, Int.toNat_of_nonneg hnonneg] at hheld
      exact hheld
  beyond i hi := by
    have hlen := h.sound.length
    rw [h.holdings.held, getD_eq_getElem?_getD, getElem?_eq_none (by omega)]
    rfl
  progress := h.holdings.progress
  complete := h.holdings.complete
  binary q ps hget n hn := by
    obtain ⟨i, hi⟩ := getElem?_of_mem hn
    have hcount := h.flights.binary q ps hget i
    rwa [getD_eq_getElem?_getD, hi] at hcount
  times i e he := by
    rw [← h.sound.planner.model] at he
    exact h.flights.times i e he
  inBounds := h.sound.callIn_eq

/-- Nothing is stored any more: the chunks, their bitmap and the planned chunks stay. -/
structure Frozen (s t : State) : Prop where
  chunks : t.chunks = s.chunks
  have_ : t.have_ = s.have_
  planned : ∀ i, (t.emitPlanner.lookup i).isSome = (s.emitPlanner.lookup i).isSome
  complete : t.complete = true

theorem Consistent.frozen {t : State} (hs : s.Consistent) (ht : t.Consistent) (hk : Kept s t)
    (hcomplete : s.complete = true) : Frozen s t where
  chunks := hk.chunks
  have_ := hk.have_
  planned i := by rw [Bool.eq_iff_iff, ht.planned, hs.planned, hk.chunks]
  complete := hk.complete.trans hcomplete

/-- The entries are those of a map after any calls. -/
theorem stocked_exec (h : ∃ m, s.Stocked m) (calls : List Call) : ∃ m, (exec call s calls).Stocked m := by
  refine exec_invariant (I := fun t => ∃ m, t.Stocked m) call ?_ h calls
  rintro t c ⟨m, hm⟩
  exact hm.call c

/-- **One inventory.**  After any sequence of calls on a new strategy the records are consistent, and from a
state in which it is complete no further calls change what is held. -/
theorem consistent_of_run {env : Env} (hR : env.reedSolomon.Fills) (hs : s.Started env) (calls : List Call) :
    (exec call s calls).Consistent ∧
      ((exec call s calls).complete = true → ∀ more : List Call,
        Frozen (exec call s calls) (exec call (exec call s calls) more)) := by
  have hstocked := stocked_exec (stocked_started hR hs) calls
  obtain ⟨m, hm⟩ := hstocked
  refine ⟨hm.consistent, fun hcomplete more => ?_⟩
  obtain ⟨m', hm'⟩ := stocked_exec ⟨m, hm⟩ more
  exact hm.consistent.frozen hm'.consistent (kept_exec ⟨m, hm.sound⟩ hcomplete more) hcomplete

/-- A relay of two chunks takes both, with a send of the first under way and a report that is no chunk's. -/
theorem consistent_of_run_two :
    let calls : List Call := [.take "b" ⟨0⟩ [], .attach "a", .poll (.stored PeerID), .take "b" ⟨1⟩ [7],
      .sent "a" 5 none]
    (smallRelay {}).Started ⟨repetition, fun _ => []⟩ ∧ (exec call (smallRelay {}) calls).complete = true ∧
      (exec call (smallRelay {}) calls).Consistent ∧
      ((exec call (smallRelay {}) calls).complete = true → ∀ more : List Call,
        Frozen (exec call (smallRelay {}) calls) (exec call (exec call (smallRelay {}) calls) more)) := by
  intro calls
  have hR : (Env.mk repetition fun _ => []).reedSolomon.Fills := repetition_fills
  exact ⟨smallRelay_started _ {}, by decide +kernel, consistent_of_run hR (smallRelay_started _ {}) calls⟩

end State

end EthP2P.Rs
