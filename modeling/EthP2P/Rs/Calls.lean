/-
# EthP2P.Rs.Calls — a strategy under any sequence of calls

The session decides when to call its strategy, and the network what it is called with.  `Sound` is what holds
after any sequence of calls: the planner stores an entry for each chunk that is held and for no other, and
every peer's bitmap and counters have room for all chunks.  `Round` says what one peer's turn in `PollChunks`
does.

What a strategy knows a peer to hold it never sends there: `known_not_dispatched`, as long as no send of a
chunk fails after the peer has announced it.  `cancelled_dispatched_again` is a run where one does: the report of
the cancelled send takes back what the announcement said.
-/
import EthP2P.Rs.Knowledge

namespace EthP2P.Rs

open Lib Wire Broadcast Function State Bitmap EmitPlanner List

/-- The calls that change a strategy. -/
inductive Call where
  | attach (peer : PeerID)
  | detach (peer : PeerID) (completed : Bool)
  | take (peer : PeerID) (chunkID : ChunkIdent) (data : Bytes)
  | routing (peer : PeerID) (update : Option Bitmap)
  | poll (o : Order PeerID)
  | pollRouting (force : Bool)
  | sent (peer : PeerID) (handle : ChunkHandle) (err : Option SendError)

namespace State

def call (s : State) : Call → State
  | .attach peer => s.AttachPeer peer
  | .detach peer completed => s.DetachPeer peer completed
  | .take peer chunkID data => (s.TakeChunk peer chunkID data).state
  | .routing peer update => (s.RoutingUpdate peer update).1
  | .poll o => (s.PollChunks o).2
  | .pollRouting force => (s.PollRouting force).2
  | .sent peer handle err => s.ChunkSent peer handle err

/-- A strategy as one of the constructors returns it. -/
def Started (env : Env) (s : State) : Prop :=
  (∃ config payload, newOriginStrategy env config payload = .ok s) ∨
    ∃ config seed preamble, newRelayStrategy config seed preamble = .ok s

/-! ## What holds after any calls -/

/-- The entries `m` of the planner are those of the held chunks, and each peer's state fits the message. -/
structure Sound (s : State) (m : Int → Option EmitEntry) : Prop where
  nonneg : 0 ≤ s.totalChunks
  fits : s.totalChunks < 2 ^ 63
  planner : s.emitPlanner.Holds m
  length : (s.chunks.length : Int) = s.totalChunks
  planned : ∀ i : Nat, (m i).isSome = (s.chunks.getD i none).isSome
  inRange : ∀ id e, m id = some e → 0 ≤ id ∧ id < s.totalChunks
  bitmap : ∀ q ps, s.peers.get q = some ps → ps.bitmap.length = bytesFor s.totalChunks.toNat
  inflight : ∀ q ps, s.peers.get q = some ps → ps.inflight.length = s.totalChunks.toNat

/-- The peer's bitmap and counters are as long. -/
def SameShape (ps ps' : PeerState) : Prop :=
  ps'.bitmap.length = ps.bitmap.length ∧ ps'.inflight.length = ps.inflight.length

theorem SameShape.refl (ps : PeerState) : SameShape ps ps := ⟨rfl, rfl⟩

section
variable {s t : State} {m m' : Int → Option EmitEntry}

/-- The calls that neither attach, detach nor store. -/
theorem Sound.frame (h : s.Sound m) (htotal : t.totalChunks = s.totalChunks) (hchunks : t.chunks = s.chunks)
    (hplanner : t.emitPlanner.Holds m') (hdom : ∀ id, (m' id).isSome = (m id).isSome)
    (hpeers : PeersRel SameShape s.peers t.peers) : t.Sound m' := by
  refine ⟨?_, ?_, hplanner, ?_, ?_, ?_, ?_, ?_⟩
  · rw [htotal]
    exact h.nonneg
  · rw [htotal]
    exact h.fits
  · rw [htotal, hchunks]
    exact h.length
  · intro i
    rw [hdom, hchunks]
    exact h.planned i
  · intro id e he
    obtain ⟨e', he'⟩ := Option.isSome_iff_exists.mp ((hdom id).symm.trans (by rw [he]; rfl))
    rw [htotal]
    exact h.inRange id e' he'
  · intro q ps hget
    obtain ⟨ps₀, hps₀, hlen, _⟩ := hpeers.back q ps hget
    rw [hlen, htotal]
    exact h.bitmap q ps₀ hps₀
  · intro q ps hget
    obtain ⟨ps₀, hps₀, _, hlen⟩ := hpeers.back q ps hget
    rw [hlen, htotal]
    exact h.inflight q ps₀ hps₀

/-- The peers change, and each that is left or new fits the message. -/
theorem Sound.peers (h : s.Sound m) {peers : Map PeerID PeerState}
    (hpeers : ∀ q ps, peers.get q = some ps → ps.bitmap.length = bytesFor s.totalChunks.toNat ∧
      ps.inflight.length = s.totalChunks.toNat) : Sound { s with peers := peers } m :=
  ⟨h.nonneg, h.fits, h.planner, h.length, h.planned, h.inRange, fun q ps hget => (hpeers q ps hget).1,
    fun q ps hget => (hpeers q ps hget).2⟩

variable {ps : PeerState} {idx : Nat} {peer : PeerID}

section

variable (h : s.Sound m)
include h

/-- A bit of the message is within the bitmap. -/
theorem Sound.room {q : PeerID} (hget : s.peers.get q = some ps) {i : Nat}
    (hi : (i : Int) < s.totalChunks) : i < ps.bitmap.length * 8 := by
  rw [h.bitmap q ps hget, bytesFor]
  omega

theorem Sound.attach (peer : PeerID) : (s.AttachPeer peer).Sound m := by
  apply h.peers
  intro q ps hget
  rw [Map.get_set] at hget
  split at hget
  · cases hget
    exact ⟨length_new _, length_replicate⟩
  · exact ⟨h.bitmap q ps hget, h.inflight q ps hget⟩

theorem Sound.detach (peer : PeerID) (completed : Bool) : (s.DetachPeer peer completed).Sound m := by
  unfold DetachPeer
  split
  · exact h
  rename_i ps hget
  split
  · exact h.frame rfl rfl h.planner (fun _ => rfl) (.set SameShape.refl hget ⟨rfl, rfl⟩)
  apply h.peers
  intro q ps' hget'
  rw [Map.get_del] at hget'
  split at hget'
  · cases hget'
  · exact ⟨h.bitmap q ps' hget', h.inflight q ps' hget'⟩

theorem Sound.routing (peer : PeerID) (update : Option Bitmap) : (s.RoutingUpdate peer update).1.Sound m := by
  unfold RoutingUpdate
  split
  · exact h
  rename_i ps hget
  refine h.frame rfl rfl h.planner (fun _ => rfl) (.set SameShape.refl hget ?_)
  cases update with
  | none => exact ⟨rfl, rfl⟩
  | some update => exact ⟨length_or _ _, rfl⟩

theorem Sound.pollRouting (force : Bool) : (s.PollRouting force).2.Sound m := by
  unfold PollRouting
  split
  · exact h.frame rfl rfl h.planner (fun _ => rfl) (.refl SameShape.refl _)
  · exact h

end

/-! ### Storing -/

/-- What `TakeChunk` stores: the chunk was not held, and its entry is new. -/
structure Stores (s : State) (peer : PeerID) (idx : Nat) (t : State) : Prop where
  inRange : (idx : Int) < s.totalChunks
  missing : (s.chunks.getD idx none).isSome = false
  total : t.totalChunks = s.totalChunks
  config : t.config = s.config
  isOrigin : t.isOrigin = s.isOrigin
  chunks : ∃ data, t.chunks = s.chunks.set idx (some data)
  planner : t.emitPlanner = s.emitPlanner.Insert { idx := idx, priority := s.chunkPriority idx }
  peers : t.peers = match s.peers.get peer with
    | none => s.peers
    | some ps => s.peers.set peer { ps with bitmap := ps.bitmap.set idx }

/-- `TakeChunk` stores the chunk or does nothing. -/
theorem take_cases (s : State) (peer : PeerID) (chunkID : ChunkIdent) (data : Bytes) :
    ((s.TakeChunk peer chunkID data).state = s ∧ (s.TakeChunk peer chunkID data).verdict ≠ .accepted) ∨
      0 ≤ chunkID.index ∧ s.Stores peer chunkID.index.toNat (s.TakeChunk peer chunkID data).state := by
  unfold TakeChunk
  split
  · exact .inl ⟨rfl, Verdict.noConfusion⟩
  rename_i hrange
  split
  · exact .inl ⟨rfl, Verdict.noConfusion⟩
  split
  · exact .inl ⟨rfl, Verdict.noConfusion⟩
  rename_i hmissing
  unfold outOfRange at hrange
  simp only [Bool.or_eq_true, decide_eq_true_eq, not_or, not_lt, ge_iff_le, not_le] at hrange
  refine .inr ⟨hrange.1, ?_⟩
  have hidx : ((chunkID.index.toNat : Nat) : Int) = chunkID.index := Int.toNat_of_nonneg hrange.1
  have hplace : s.Stores peer chunkID.index.toNat (s.place peer chunkID.index.toNat data) := by
    unfold place onPeer
    dsimp only
    cases hget : s.peers.get peer with
    | none | some ps => exact ⟨by omega, by simpa using hmissing, rfl, rfl, rfl, ⟨data, rfl⟩, rfl, by rw [hget]⟩
  dsimp only
  unfold store
  dsimp only
  split
  · exact ⟨hplace.inRange, hplace.missing, hplace.total, hplace.config, hplace.isOrigin, hplace.chunks,
      hplace.planner, hplace.peers⟩
  · exact hplace

theorem Stores.shape (h : s.Stores peer idx t) : PeersRel SameShape s.peers t.peers := by
  rw [h.peers]
  cases hget : s.peers.get peer with
  | none => exact .refl SameShape.refl _
  | some ps => exact .set SameShape.refl hget ⟨length_set _ _, rfl⟩

theorem Sound.stores (h : s.Sound m) (ht : s.Stores peer idx t) :
    t.Sound (update m idx (some { idx := idx, priority := s.chunkPriority idx })) := by
  obtain ⟨data, hchunks⟩ := ht.chunks
  have hsizes := ht.shape
  have hroom : idx < s.chunks.length := by
    have hlen := h.length
    have hidx := ht.inRange
    omega
  refine ⟨?_, ?_, ?_, ?_, ?_, ?_, ?_, ?_⟩
  · rw [ht.total]
    exact h.nonneg
  · rw [ht.total]
    exact h.fits
  · rw [ht.planner]
    exact h.planner.insert { idx := idx, priority := s.chunkPriority idx }
  · rw [ht.total, hchunks, List.length_set]
    exact h.length
  · intro i
    rw [hchunks, getD_eq_getElem?_getD, getElem?_set]
    by_cases hi : i = idx
    · subst hi
      rw [update_self, if_pos rfl, if_pos hroom]
      rfl
    have hne : (i : Int) ≠ idx := by
      exact_mod_cast hi
    rw [update_of_ne hne, if_neg (Ne.symm hi), ← getD_eq_getElem?_getD]
    exact h.planned i
  · intro id e he
    rw [ht.total]
    by_cases hid : id = idx
    · rw [hid]
      exact ⟨Int.natCast_nonneg _, ht.inRange⟩
    · rw [update_of_ne hid] at he
      exact h.inRange id e he
  · intro q ps hget
    obtain ⟨ps₀, hps₀, hlen, _⟩ := hsizes.back q ps hget
    rw [hlen, ht.total]
    exact h.bitmap q ps₀ hps₀
  · intro q ps hget
    obtain ⟨ps₀, hps₀, _, hlen⟩ := hsizes.back q ps hget
    rw [hlen, ht.total]
    exact h.inflight q ps₀ hps₀

theorem Sound.take (h : s.Sound m) (peer : PeerID) (chunkID : ChunkIdent) (data : Bytes) :
    ∃ m', (s.TakeChunk peer chunkID data).state.Sound m' := by
  rcases take_cases s peer chunkID data with ⟨hsame, _⟩ | ⟨_, hstores⟩
  · rw [hsame]
    exact ⟨m, h⟩
  · exact ⟨_, h.stores hstores⟩

/-! ### Reports -/

/-- The peer's state after a report about a send that was in flight. -/
def reported (ps : PeerState) (idx : Nat) (err : Option SendError) : PeerState :=
  { ps with
    inflight := ps.inflight.modify idx (· - 1)
    bitmap := match err with
      | none => ps.bitmap.set idx
      | some _ => ps.bitmap.unset idx }

/-- The planner after such a report. -/
def replanned (s : State) (idx : Nat) (err : Option SendError) : EmitPlanner :=
  match err with
  | none => if s.isOrigin then s.emitPlanner else s.emitPlanner.AddSent idx 1
  | some _ => s.emitPlanner.Decrement idx

/-- A chunk is in flight to a peer. -/
structure InFlight (s : State) (peer : PeerID) (idx : Nat) (ps : PeerState) : Prop where
  attached : s.peers.get peer = some ps
  inRange : (idx : Int) < s.totalChunks
  inflight : 0 < ps.inflight.getD idx 0

theorem InFlight.chunkSent (h : s.InFlight peer idx ps)
    {handle : ChunkHandle} (hhandle : int64 handle = idx) (err : Option SendError) :
    s.ChunkSent peer handle err =
      { s with peers := s.peers.set peer (reported ps idx err), emitPlanner := s.replanned idx err } := by
  have hin : s.outOfRange (idx : Int) = false := by
    have hidx := h.inRange
    simp only [outOfRange, Bool.or_eq_false_iff, decide_eq_false_iff_not]
    omega
  have hflight := h.inflight
  rw [ChunkSent, h.attached]
  dsimp only
  rw [hhandle, hin, if_neg Bool.false_ne_true, Int.toNat_natCast, if_neg (by omega)]
  cases err with
  | none | some e => rfl

/-- A report that changes anything is about a send in flight. -/
theorem chunkSent_cases (s : State) (peer : PeerID) (handle : ChunkHandle) (err : Option SendError) :
    s.ChunkSent peer handle err = s ∨ ∃ idx ps, int64 handle = (idx : Nat) ∧ s.InFlight peer idx ps := by
  cases hget : s.peers.get peer with
  | none =>
    left
    rw [ChunkSent, hget]
  | some ps =>
    by_cases hrange : s.outOfRange (int64 handle) = true
    · left
      rw [ChunkSent, hget]
      dsimp only
      rw [if_pos hrange]
    by_cases hflight : ps.inflight.getD (int64 handle).toNat 0 ≤ 0
    · left
      rw [ChunkSent, hget]
      dsimp only
      rw [if_neg hrange, if_pos hflight]
    right
    unfold outOfRange at hrange
    simp only [Bool.or_eq_true, decide_eq_true_eq, not_or, not_lt, ge_iff_le, not_le] at hrange
    have hnat : int64 handle = ((int64 handle).toNat : Nat) := (Int.toNat_of_nonneg hrange.1).symm
    refine ⟨(int64 handle).toNat, ps, hnat, hget, ?_, by omega⟩
    rw [← hnat]
    exact hrange.2

/-- A chunk's entry after a report. -/
def settled (s : State) (err : Option SendError) (e : EmitEntry) : EmitEntry :=
  match err with
  | none => if s.isOrigin then e else { e with sent := e.sent + 1 }
  | some _ => { e with times := e.times - 1 }

/-- A failed send takes its allocation back. -/
theorem times_settled (s : State) (err : Option SendError) (e : EmitEntry) :
    (s.settled err e).times = e.times - if err = none then 0 else 1 := by
  cases err with
  | none =>
    unfold settled
    dsimp only
    split <;> simp
  | some err => simp [settled]

theorem sent_settled (hrelay : s.isOrigin = false) (err : Option SendError) (e : EmitEntry) :
    (s.settled err e).sent = e.sent + if err = none then 1 else 0 := by
  cases err with
  | none => simp [settled, hrelay]
  | some err => simp [settled]

/-- The map of the planner's entries after a report. -/
def accounted (s : State) (m : Int → Option EmitEntry) (idx : Nat) (err : Option SendError) :
    Int → Option EmitEntry :=
  update m idx ((m idx).map (s.settled err))

theorem Sound.replanned (h : s.Sound m) (idx : Nat) (err : Option SendError) :
    (s.replanned idx err).Holds (s.accounted m idx err) := by
  cases he : m idx with
  | none =>
    have hsame : s.accounted m idx err = m := by
      rw [accounted, he]
      exact update_eq_self_iff.mpr he.symm
    rw [hsame]
    cases err with
    | none =>
      unfold State.replanned
      dsimp only
      split
      · exact h.planner
      · rw [addSent_none h.planner he]
        exact h.planner
    | some err =>
      have hnone := addTimes_none h.planner he (-1)
      unfold State.replanned
      rw [Decrement, hnone]
      exact h.planner
  | some e =>
    unfold accounted
    rw [he, Option.map_some]
    cases err with
    | none =>
      unfold State.replanned settled
      dsimp only
      split
      · rw [← he, update_eq_self]
        exact h.planner
      · exact h.planner.addSent he 1
    | some err => exact h.planner.addTimes he (-1)

theorem isSome_accounted (s : State) (m : Int → Option EmitEntry) (idx : Nat) (err : Option SendError) (id : Int) :
    (s.accounted m idx err id).isSome = (m id).isSome := by
  unfold accounted
  by_cases hid : id = idx
  · rw [hid, update_self, Option.isSome_map]
  · rw [update_of_ne hid]

theorem sameShape_reported (ps : PeerState) (idx : Nat) (err : Option SendError) :
    SameShape ps (reported ps idx err) := by
  cases err with
  | none => exact ⟨length_set _ _, length_modify ..⟩
  | some e => exact ⟨length_unset _ _, length_modify ..⟩

theorem Sound.inFlight (h : s.Sound m)
    (hf : s.InFlight peer idx ps) {handle : ChunkHandle} (hhandle : int64 handle = idx) (err : Option SendError) :
    (s.ChunkSent peer handle err).Sound (s.accounted m idx err) := by
  rw [hf.chunkSent hhandle]
  exact h.frame rfl rfl (h.replanned idx err) (isSome_accounted s m idx err)
    (.set SameShape.refl hf.attached (sameShape_reported ps idx err))

theorem Sound.sent (h : s.Sound m) (peer : PeerID) (handle : ChunkHandle) (err : Option SendError) :
    ∃ m', (s.ChunkSent peer handle err).Sound m' := by
  rcases chunkSent_cases s peer handle err with hsame | ⟨idx, ps, hhandle, hf⟩
  · rw [hsame]
    exact ⟨m, h⟩
  · exact ⟨_, h.inFlight hf hhandle err⟩

/-! ### Polls -/

/-- Entries taken out of a planner, put back in order. -/
def restored (m : Int → Option EmitEntry) (skipped : List EmitEntry) : Int → Option EmitEntry :=
  skipped.foldl (fun m e => update m e.idx (some e)) m

variable (skipped : List EmitEntry)

theorem holds_restored {h : EmitPlanner} (hh : h.Holds m) : (skipped.foldl Insert h).Holds (restored m skipped) := by
  induction skipped generalizing h m with
  | nil => exact hh
  | cons e skipped ih => exact ih (hh.insert e)

/-- What is put back does not depend on what was elsewhere. -/
theorem restored_congr {id : Int} (hid : m id = m' id) : restored m skipped id = restored m' skipped id := by
  induction skipped generalizing m m' with
  | nil => exact hid
  | cons e skipped ih =>
    apply ih
    dsimp only
    by_cases he : id = e.idx
    · rw [he, update_self, update_self]
    · rw [update_of_ne he, update_of_ne he]
      exact hid

/-- The search takes entries out and keeps them; what it finds is an entry that may go to the peer. -/
theorem search_restores (ps : PeerState) (fuel : Nat) {h : EmitPlanner} {skipped : List EmitEntry}
    (hh : h.Holds m') (hrest : restored m' skipped = m) (hsub : ∀ id e, m' id = some e → m id = some e) :
    (∃ m'', (s.search ps fuel h skipped).2.1.Holds m'' ∧ restored m'' (s.search ps fuel h skipped).2.2 = m) ∧
      ∀ ec, (s.search ps fuel h skipped).1 = some ec → m ec.idx = some ec ∧ s.ineligible ps ec = false := by
  induction fuel generalizing h skipped m' with
  | zero => exact ⟨⟨m', hh, hrest⟩, by simp [search]⟩
  | succ fuel ih =>
    unfold search
    split
    · exact ⟨⟨m', hh, hrest⟩, by simp⟩
    rename_i ec htop
    split
    · split
      · exact ⟨⟨m', hh, hrest⟩, by simp⟩
      rename_i e h' hpop
      obtain ⟨he, hh'⟩ := hh.popFront hpop
      refine ih hh' ?_ ?_
      · -- the entry goes to the end of the skipped ones, so it is put back last
        funext id
        rw [restored, foldl_append]
        show update (restored (update m' e.idx none) skipped) e.idx (some e) id = m id
        by_cases hid : id = e.idx
        · rw [hid, update_self, hsub _ _ he]
        · rw [update_of_ne hid, ← hrest]
          exact restored_congr skipped (update_of_ne hid _ _)
      · intro id e' he'
        by_cases hid : id = e.idx
        · rw [hid, update_self] at he'
          cases he'
        · rw [update_of_ne hid] at he'
          exact hsub id e' he'
    · rename_i heligible
      refine ⟨⟨m', hh, hrest⟩, ?_⟩
      intro ec' hec
      cases hec
      exact ⟨hsub _ _ (hh.top htop), by simpa using heligible⟩

/-- What one peer's turn does: nothing but a reordering of the planner, or one chunk goes to the peer. -/
inductive Round (s : State) (m : Int → Option EmitEntry) (peer : PeerID) :
    List (ChunkDispatch ChunkIdent) → State → (Int → Option EmitEntry) → Prop where
  | none (h : EmitPlanner) (hh : h.Holds m) : Round s m peer [] { s with emitPlanner := h } m
  | dispatch (ps : PeerState) (ec : EmitEntry) (h : EmitPlanner) (data : Bytes)
      (attached : s.peers.get peer = some ps) (planned : m ec.idx = some ec)
      (eligible : s.ineligible ps ec = false)
      (hh : h.Holds (update m ec.idx (some { ec with times := ec.times + 1 }))) :
      Round s m peer [⟨peer, ⟨ec.idx⟩, data⟩]
        { s with
          emitPlanner := h
          peers := s.peers.set peer { ps with inflight := ps.inflight.modify ec.idx.toNat (· + 1) } }
        (update m ec.idx (some { ec with times := ec.times + 1 }))

theorem poll_round (hh : s.emitPlanner.Holds m) (ds : List (ChunkDispatch ChunkIdent)) (peer : PeerID) :
    ∃ d t m', poll (ds, s) peer = (ds ++ d, t) ∧ s.Round m peer d t m' := by
  have hidle : s.Round m peer [] s m := .none s.emitPlanner hh
  unfold poll
  dsimp only
  split
  · exact ⟨[], s, m, by rw [append_nil], hidle⟩
  rename_i ps hget
  split
  · exact ⟨[], s, m, by rw [append_nil], hidle⟩
  have hnone : restored m [] = m := rfl
  obtain ⟨⟨m'', hh'', hrest⟩, hfound⟩ :=
    search_restores (s := s) ps (s.emitPlanner.len + 1) hh hnone fun _ _ h => h
  unfold allocate
  dsimp only
  generalize s.search ps (s.emitPlanner.len + 1) s.emitPlanner [] = found at *
  have hback : (found.2.2.foldl Insert found.2.1).Holds m := by
    rw [← hrest]
    exact holds_restored found.2.2 hh''
  cases hf : found.1 with
  | none => exact ⟨[], _, m, by rw [append_nil], .none _ hback⟩
  | some ec =>
    obtain ⟨hplanned, heligible⟩ := hfound ec hf
    exact ⟨_, _, _, rfl, .dispatch ps ec _ _ hget hplanned heligible (hback.addTimes hplanned 1)⟩

/-- A property of strategy, entries and dispatches that every turn keeps holds after a poll. -/
theorem pollChunks_rounds {I : List (ChunkDispatch ChunkIdent) → State → (Int → Option EmitEntry) → Prop}
    (hplanner : ∀ {ds t m}, I ds t m → t.emitPlanner.Holds m)
    (hround : ∀ {ds t m peer d t' m'}, I ds t m → t.Round m peer d t' m' → I (ds ++ d) t' m')
    (o : Order PeerID) (hs : I [] s m) : ∃ m', I (s.PollChunks o).1 (s.PollChunks o).2 m' := by
  have hloop : ∀ (peers : List PeerID) (ds : List (ChunkDispatch ChunkIdent)) (t : State)
      (m : Int → Option EmitEntry), I ds t m →
      ∃ m', I (peers.foldl poll (ds, t)).1 (peers.foldl poll (ds, t)).2 m' := by
    intro peers
    induction peers with
    | nil =>
      intro ds t m h
      exact ⟨m, h⟩
    | cons peer peers ih =>
      intro ds t m h
      obtain ⟨d, t', m', heq, hr⟩ := poll_round (hplanner h) ds peer
      rw [foldl_cons, heq]
      exact ih _ _ _ (hround h hr)
  exact hloop _ [] s m hs

variable {d : List (ChunkDispatch ChunkIdent)}

theorem Sound.round (h : s.Sound m) (hr : s.Round m peer d t m') :
    t.Sound m' ∧ ∀ id, (m' id).isSome = (m id).isSome := by
  cases hr with
  | none planner hh => exact ⟨h.frame rfl rfl hh (fun _ => rfl) (.refl SameShape.refl _), fun _ => rfl⟩
  | dispatch ps ec planner data attached planned eligible hh =>
    have hdom : ∀ id, (update m ec.idx (some { ec with times := ec.times + 1 }) id).isSome
        = (m id).isSome := by
      intro id
      by_cases hid : id = ec.idx
      · rw [hid, update_self, planned]
        rfl
      · rw [update_of_ne hid]
    exact ⟨h.frame rfl rfl hh hdom (.set SameShape.refl attached ⟨rfl, length_modify ..⟩), hdom⟩

/-- A poll dispatches held chunks only. -/
theorem Sound.poll (h : s.Sound m) (o : Order PeerID) :
    ∃ m', (s.PollChunks o).2.Sound m' ∧ ∀ d ∈ (s.PollChunks o).1, (m d.chunkID.index).isSome := by
  let I (ds : List (ChunkDispatch ChunkIdent)) (t : State) (m' : Int → Option EmitEntry) : Prop :=
    t.Sound m' ∧ (∀ id, (m' id).isSome = (m id).isSome) ∧ ∀ d ∈ ds, (m d.chunkID.index).isSome
  have hround : ∀ {ds t m₁ peer d t' m₂}, I ds t m₁ → t.Round m₁ peer d t' m₂ → I (ds ++ d) t' m₂ := by
    intro ds t m₁ peer d t' m₂ hI hr
    obtain ⟨hsound, hdom, hds⟩ := hI
    obtain ⟨hsound', hdom'⟩ := hsound.round hr
    refine ⟨hsound', fun id => (hdom' id).trans (hdom id), ?_⟩
    intro x hx
    rcases mem_append.mp hx with hx | hx
    · exact hds x hx
    cases hr with
    | none h hh => cases hx
    | dispatch ps ec planner data attached planned eligible hh =>
      obtain rfl := mem_singleton.mp hx
      rw [← hdom, planned]
      rfl
  have hstart : I [] s m := ⟨h, fun _ => rfl, by simp⟩
  obtain ⟨m', hsound, _, hdispatched⟩ := pollChunks_rounds (I := I) (fun hI => hI.1.planner) hround o hstart
  exact ⟨m', hsound, hdispatched⟩

theorem Sound.indexed (h : s.Sound m) : s.emitPlanner.Indexed := by
  intro e he
  obtain ⟨k, hk⟩ := getElem?_of_mem he
  obtain ⟨hnonneg, hlt⟩ := h.inRange _ _ (h.planner.of_entry hk)
  have hfits := h.fits
  exact ⟨hnonneg, by omega⟩

theorem Sound.call (h : s.Sound m) (c : Call) : ∃ m', (s.call c).Sound m' := by
  cases c with
  | attach peer => exact ⟨m, h.attach peer⟩
  | detach peer completed => exact ⟨m, h.detach peer completed⟩
  | take peer chunkID data => exact h.take peer chunkID data
  | routing peer update => exact ⟨m, h.routing peer update⟩
  | poll o =>
    obtain ⟨m', hsound, _⟩ := h.poll o
    exact ⟨m', hsound⟩
  | pollRouting force => exact ⟨m, h.pollRouting force⟩
  | sent peer handle err => exact h.sent peer handle err

/-- What no call changes. -/
structure Fixed (s t : State) : Prop where
  total : t.totalChunks = s.totalChunks
  isOrigin : t.isOrigin = s.isOrigin
  config : t.config = s.config

theorem Fixed.refl (s : State) : Fixed s s := ⟨rfl, rfl, rfl⟩

theorem Fixed.trans {u : State} (h : Fixed s t) (h' : Fixed t u) : Fixed s u :=
  ⟨h'.total.trans h.total, h'.isOrigin.trans h.isOrigin, h'.config.trans h.config⟩

/-- Nothing that is held changes. -/
structure Kept (s t : State) : Prop extends Fixed s t where
  preamble : t.preamble = s.preamble
  chunks : t.chunks = s.chunks
  have_ : t.have_ = s.have_
  complete : t.complete = s.complete

theorem Kept.refl (s : State) : Kept s s := ⟨.refl s, rfl, rfl, rfl, rfl⟩

theorem Kept.trans {u : State} (h : Kept s t) (h' : Kept t u) : Kept s u :=
  ⟨h.toFixed.trans h'.toFixed, h'.preamble.trans h.preamble, h'.chunks.trans h.chunks, h'.have_.trans h.have_,
    h'.complete.trans h.complete⟩

/-- The peer's turn leaves what is held. -/
theorem Round.kept (hr : s.Round m peer d t m') : Kept s t := by
  cases hr with
  | none planner hh | dispatch ps ec planner data attached planned eligible hh =>
    exact ⟨⟨rfl, rfl, rfl⟩, rfl, rfl, rfl, rfl⟩

theorem Sound.kept_poll (h : s.Sound m) (o : Order PeerID) : Kept s (s.PollChunks o).2 := by
  obtain ⟨m', hkept, _⟩ := pollChunks_rounds (I := fun _ t m' => Kept s t ∧ t.Sound m') (fun hI => hI.2.planner)
    (fun hI hr => ⟨hI.1.trans hr.kept, (hI.2.round hr).1⟩) o ⟨.refl s, h⟩
  exact hkept

/-- Every call but one that takes a chunk leaves what is held. -/
theorem Sound.kept (h : s.Sound m) (c : Call) :
    Kept s (s.call c) ∨ ∃ peer chunkID data, c = .take peer chunkID data := by
  cases c with
  | attach peer => exact .inl ⟨⟨rfl, rfl, rfl⟩, rfl, rfl, rfl, rfl⟩
  | detach peer completed =>
    refine .inl ?_
    change Kept s (s.DetachPeer peer completed)
    unfold DetachPeer
    split
    · exact .refl s
    split <;> exact ⟨⟨rfl, rfl, rfl⟩, rfl, rfl, rfl, rfl⟩
  | take peer chunkID data => exact .inr ⟨peer, chunkID, data, rfl⟩
  | routing peer update =>
    refine .inl ?_
    change Kept s (s.RoutingUpdate peer update).1
    unfold RoutingUpdate
    split
    · exact .refl s
    · exact ⟨⟨rfl, rfl, rfl⟩, rfl, rfl, rfl, rfl⟩
  | poll o => exact .inl (h.kept_poll o)
  | pollRouting force =>
    refine .inl ?_
    change Kept s (s.PollRouting force).2
    unfold PollRouting
    split
    · exact ⟨⟨rfl, rfl, rfl⟩, rfl, rfl, rfl, rfl⟩
    · exact .refl s
  | sent peer handle err =>
    refine .inl ?_
    change Kept s (s.ChunkSent peer handle err)
    rcases chunkSent_cases s peer handle err with hsame | ⟨idx, ps, hhandle, hf⟩
    · rw [hsame]
      exact .refl s
    · rw [hf.chunkSent hhandle]
      exact ⟨⟨rfl, rfl, rfl⟩, rfl, rfl, rfl, rfl⟩

theorem Sound.fixed (h : s.Sound m) (c : Call) : Fixed s (s.call c) := by
  rcases h.kept c with hkept | ⟨peer, chunkID, data, rfl⟩
  · exact hkept.toFixed
  rcases take_cases s peer chunkID data with ⟨hsame, _⟩ | ⟨_, hstores⟩
  · change Fixed s (s.TakeChunk peer chunkID data).state
    rw [hsame]
    exact .refl s
  · exact ⟨hstores.total, hstores.isOrigin, hstores.config⟩

end

/-! ### New strategies -/

/-- The entries of the first `n` chunks. -/
def firstChunks (n : Nat) (id : Int) : Option EmitEntry :=
  if 0 ≤ id ∧ id < n then some { idx := id } else none

theorem holds_firstChunks (n : Nat) :
    ((range n).foldl (fun h (i : Nat) => Insert h { idx := i }) {}).Holds (firstChunks n) := by
  induction n with
  | zero =>
    have hnone : firstChunks 0 = fun _ => none := by
      funext id
      rw [firstChunks, if_neg (by omega)]
    rw [hnone]
    exact holds_empty
  | succ n ih =>
    rw [range_succ, foldl_append]
    have hnext : firstChunks (n + 1) = update (firstChunks n) n (some { idx := n }) := by
      funext id
      unfold firstChunks
      by_cases hid : id = n
      · rw [hid, update_self, if_pos (by omega)]
      rw [update_of_ne hid]
      by_cases hlt : 0 ≤ id ∧ id < n
      · rw [if_pos hlt, if_pos (by omega)]
      · rw [if_neg hlt, if_neg (by omega)]
    rw [hnext]
    exact ih.insert { idx := n }

variable {s : State}

theorem sound_origin {env : Env} (hR : env.reedSolomon.Fills) {config : Config} {payload : Bytes}
    (h : newOriginStrategy env config payload = .ok s) : s.Sound (firstChunks s.chunks.length) ∧ s.peers = ∅ := by
  obtain ⟨pre, c, msg, shards, out, _, hnew, _, _, hout, _, hchunks, htotal, hpeers, hplanner, _⟩ := newOrigin_calls h
  obtain ⟨hd, hp, hsum⟩ := hR.new_bounds _ _ hnew
  have hlen : (out.length : Int) = pre.dataChunks + pre.parityChunks := by
    rw [hR.encoded _ _ _ _ hout]
    omega
  have hfit : pre.totalChunks = pre.dataChunks + pre.parityChunks := int64_of_fits ⟨by omega, by omega⟩
  have hcount : s.chunks.length = out.length := by rw [hchunks, length_map]
  refine ⟨⟨?_, ?_, ?_, ?_, ?_, ?_, ?_, ?_⟩, hpeers⟩
  · omega
  · omega
  · rw [hplanner, hcount]
    exact holds_firstChunks _
  · omega
  · intro i
    rw [hcount, hchunks, firstChunks, getD_eq_getElem?_getD, getElem?_map]
    by_cases hi : i < out.length
    · rw [if_pos (by omega), getElem?_eq_getElem hi]
      rfl
    · rw [if_neg (by omega), getElem?_eq_none (by omega)]
      rfl
  · intro id e he
    unfold firstChunks at he
    split at he
    · omega
    · cases he
  · intro q ps hget
    rw [hpeers] at hget
    cases hget
  · intro q ps hget
    rw [hpeers] at hget
    cases hget

theorem sound_relay {config : Config} {seed : UInt64} {preamble : Option Preamble}
    (h : newRelayStrategy config seed preamble = .ok s) : s.Sound (fun _ => none) ∧ s.peers = ∅ := by
  unfold newRelayStrategy at h
  split at h
  · cases h
  rename_i p
  split at h
  · cases h
  rename_i hwell
  cases h
  have hfits := (fits_int64 (p.dataChunks + p.parityChunks)).2
  have htotal : (p.chunkHashes.length : Int) = p.totalChunks := by omega
  have hnonneg : 0 ≤ p.totalChunks := by omega
  refine ⟨⟨hnonneg, hfits, holds_empty, ?_, ?_, by simp, ?_, ?_⟩, rfl⟩
  · dsimp only
    rw [length_replicate]
    omega
  · intro i
    dsimp only
    rw [getD_eq_getElem?_getD, getElem?_replicate]
    split <;> rfl
  · intro q ps hget
    cases hget
  · intro q ps hget
    cases hget

theorem Started.sound {env : Env} (hR : env.reedSolomon.Fills) (h : s.Started env) : ∃ m, s.Sound m := by
  rcases h with ⟨config, payload, horigin⟩ | ⟨config, seed, preamble, hrelay⟩
  · exact ⟨_, (sound_origin hR horigin).1⟩
  · exact ⟨_, (sound_relay hrelay).1⟩

theorem sound_exec (h : ∃ m, s.Sound m) (calls : List Call) : ∃ m, (exec call s calls).Sound m := by
  refine exec_invariant (I := fun t => ∃ m, t.Sound m) call ?_ h calls
  intro t c ht
  obtain ⟨m, hm⟩ := ht
  exact hm.call c

theorem fixed_exec (h : ∃ m, s.Sound m) (calls : List Call) : Fixed s (exec call s calls) := by
  refine (exec_invariant (I := fun t => (∃ m, t.Sound m) ∧ Fixed s t) call ?_ ⟨h, .refl s⟩ calls).2
  rintro t c ⟨⟨m, hm⟩, hfixed⟩
  exact ⟨hm.call c, hfixed.trans (hm.fixed c)⟩

/-! ## What a peer is known to hold -/

/-- The peer is attached, and its bit for the chunk is set. -/
def Marked (s : State) (p : PeerID) (i : Nat) : Prop :=
  ∃ ps, s.peers.get p = some ps ∧ ps.bitmap.get i = true

/-- The call tells the strategy that `p` holds chunk `i`. -/
def Learns (s : State) (p : PeerID) (i : Nat) : Call → Prop
  | .routing q (some update) => q = p ∧ update.get i = true
  | .take q chunkID data => q = p ∧ chunkID.index = i ∧ (s.TakeChunk q chunkID data).verdict = .accepted
  | _ => False

/-- The call does not end or renew the attachment of `p`. -/
def KeepsAttached (p : PeerID) : Call → Prop
  | .attach q => q ≠ p
  | .detach q completed => q ≠ p ∨ completed = true
  | _ => True

/-- No send in flight fails whose chunk the peer is known to hold. -/
def FailsUnknown (s : State) : Call → Prop
  | .sent q handle (some _) => ∀ ps ∈ s.peers.get q, 0 ≤ int64 handle →
      0 < ps.inflight.getD (int64 handle).toNat 0 → ps.bitmap.get (int64 handle).toNat = false
  | _ => True

instance (p : PeerID) (c : Call) : Decidable (KeepsAttached p c) :=
  match c with
  | .attach q => inferInstanceAs (Decidable (q ≠ p))
  | .detach q completed => inferInstanceAs (Decidable (q ≠ p ∨ completed = true))
  | .take .. | .routing .. | .poll _ | .pollRouting _ | .sent .. => .isTrue trivial

instance (s : State) (c : Call) : Decidable (s.FailsUnknown c) :=
  match c with
  | .sent q handle (some _) => inferInstanceAs (Decidable (∀ ps ∈ s.peers.get q, 0 ≤ int64 handle →
      0 < ps.inflight.getD (int64 handle).toNat 0 → ps.bitmap.get (int64 handle).toNat = false))
  | .sent _ _ none | .attach _ | .detach .. | .take .. | .routing .. | .poll _ | .pollRouting _ => .isTrue trivial

section
variable {s t : State} {m : Int → Option EmitEntry} {p : PeerID} {i : Nat}

variable {q : PeerID}

section

variable (h : s.Marked p i)
include h

/-- A change of one peer's state that does not clear the bit. -/
theorem Marked.set {ps ps' : PeerState} (hget : s.peers.get q = some ps)
    (hpeers : t.peers = s.peers.set q ps') (hbit : ps.bitmap.get i = true → ps'.bitmap.get i = true) :
    t.Marked p i := by
  obtain ⟨ps₀, hps₀, hbit₀⟩ := h
  by_cases hq : p = q
  · subst hq
    cases hget.symm.trans hps₀
    exact ⟨ps', by rw [hpeers, Map.get_set, if_pos rfl], hbit hbit₀⟩
  · exact ⟨ps₀, by rw [hpeers, Map.get_set, if_neg hq]; exact hps₀, hbit₀⟩

/-- A change of another peer. -/
theorem Marked.other (hq : q ≠ p) (hpeers : ∀ r, r ≠ q → t.peers.get r = s.peers.get r) : t.Marked p i := by
  obtain ⟨ps, hps, hbit⟩ := h
  exact ⟨ps, by rw [hpeers p (Ne.symm hq)]; exact hps, hbit⟩

theorem Marked.detach {completed : Bool} (hq : q ≠ p ∨ completed = true) : (s.DetachPeer q completed).Marked p i := by
  unfold DetachPeer
  split
  · exact h
  rename_i ps hget
  split
  · exact h.set hget rfl id
  rename_i hcompleted
  have hne : q ≠ p := hq.resolve_right hcompleted
  refine h.other hne ?_
  intro r hr
  dsimp only
  rw [Map.get_del, if_neg hr]

theorem Marked.stores (hs : s.Sound m) {peer : PeerID} {idx : Nat} (ht : s.Stores peer idx t) : t.Marked p i := by
  have hpeers := ht.peers
  cases hget : s.peers.get peer with
  | none =>
    rw [hget] at hpeers
    obtain ⟨ps, hps, hbit⟩ := h
    exact ⟨ps, by rw [hpeers]; exact hps, hbit⟩
  | some ps =>
    rw [hget] at hpeers
    refine h.set hget hpeers ?_
    intro hbit
    rw [get_set (hs.room hget ht.inRange), hbit, Bool.or_true]

theorem Marked.routing (peer : PeerID) (update : Option Bitmap) : (s.RoutingUpdate peer update).1.Marked p i := by
  unfold RoutingUpdate
  split
  · exact h
  rename_i ps hget
  refine h.set hget rfl ?_
  intro hbit
  cases update with
  | none => exact hbit
  | some update =>
    have hroom : i < ps.bitmap.length * 8 := by
      by_contra hlen
      rw [get_of_length_le (by omega)] at hbit
      cases hbit
    dsimp only
    rw [get_or hroom, hbit, Bool.true_or]

theorem Marked.sent (hs : s.Sound m) {peer : PeerID} {handle : ChunkHandle}
    {err : Option SendError} (hfails : s.FailsUnknown (.sent peer handle err)) :
    (s.ChunkSent peer handle err).Marked p i := by
  rcases chunkSent_cases s peer handle err with hsame | ⟨idx, ps, hhandle, hf⟩
  · rw [hsame]
    exact h
  rw [hf.chunkSent hhandle]
  refine h.set hf.attached rfl ?_
  intro hbit
  cases err with
  | none =>
    show (ps.bitmap.set idx).get i = true
    rw [get_set (hs.room hf.attached hf.inRange), hbit, Bool.or_true]
  | some e =>
    -- the bit that is cleared is one that was clear
    have hclear : ps.bitmap.get idx = false := by
      have hunknown := hfails ps hf.attached (by omega)
      rw [hhandle, Int.toNat_natCast] at hunknown
      exact hunknown hf.inflight
    show (ps.bitmap.unset idx).get i = true
    rw [get_unset_of_not hclear]
    exact hbit

theorem Marked.call (hs : s.Sound m) {c : Call} (hkeeps : KeepsAttached p c)
    (hfails : s.FailsUnknown c) : (s.call c).Marked p i := by
  cases c with
  | attach q =>
    refine h.other hkeeps ?_
    intro r hr
    show (s.peers.set q _).get r = s.peers.get r
    rw [Map.get_set, if_neg hr]
  | detach q completed => exact h.detach hkeeps
  | take q chunkID data =>
    rcases take_cases s q chunkID data with ⟨hsame, _⟩ | ⟨_, hstores⟩
    · show (s.TakeChunk q chunkID data).state.Marked p i
      rw [hsame]
      exact h
    · exact h.stores hs hstores
  | routing q update => exact h.routing q update
  | poll o =>
    have hbits := (still_pollChunks o hs.indexed).1.bits
    obtain ⟨ps, hps, hbit⟩ := h
    obtain ⟨ps', hps', hsame⟩ := hbits.forth p ps hps
    exact ⟨ps', hps', (hsame.2 i).trans hbit⟩
  | pollRouting force =>
    show (s.PollRouting force).2.Marked p i
    unfold PollRouting
    split <;> exact h
  | sent q handle err => exact h.sent hs hfails

end

/-- What an attached peer announces or delivers is marked, unless it is no chunk of the message. -/
theorem Learns.marked (hs : s.Sound m) {c : Call} (hattached : (s.peers.get p).isSome)
    (h : s.Learns p i c) (hi : (i : Int) < s.totalChunks) : (s.call c).Marked p i := by
  obtain ⟨ps, hget⟩ := Option.isSome_iff_exists.mp hattached
  have hroom := hs.room hget hi
  cases c with
  | routing q update =>
    cases update with
    | none => exact absurd h id
    | some update =>
      obtain ⟨rfl, hbit⟩ := h
      refine ⟨{ ps with bitmap := ps.bitmap.or update }, ?_, ?_⟩
      · simp [call, RoutingUpdate, hget]
      · dsimp only
        rw [get_or hroom, hbit, Bool.or_true]
  | take q chunkID data =>
    obtain ⟨rfl, hidx, haccepted⟩ := h
    rcases take_cases s q chunkID data with ⟨_, hverdict⟩ | ⟨_, hstores⟩
    · exact absurd haccepted hverdict
    rw [hidx, Int.toNat_natCast] at hstores
    have hpeers := hstores.peers
    rw [hget] at hpeers
    refine ⟨{ ps with bitmap := ps.bitmap.set i }, ?_, ?_⟩
    · show (s.TakeChunk q chunkID data).state.peers.get q = _
      rw [hpeers, Map.get_set, if_pos rfl]
    dsimp only
    rw [get_set hroom]
    simp
  | attach q | detach q completed | poll o | pollRouting force | sent q handle err => exact absurd h id

/-- A poll sends nothing to a peer that is marked to hold it. -/
theorem Marked.not_dispatched (h : s.Marked p i) (hs : s.Sound m) (o : Order PeerID)
    {d : ChunkDispatch ChunkIdent} (hd : d ∈ (s.PollChunks o).1) (hpeer : d.peer = p) : d.chunkID.index ≠ i := by
  obtain ⟨_, hclear⟩ := (still_pollChunks o hs.indexed).2 d hd
  obtain ⟨ps, hps, hbit⟩ := h
  intro heq
  have hfalse := hclear ps (by rw [hpeer]; exact hps)
  rw [heq, Int.toNat_natCast, hbit] at hfalse
  cases hfalse

end

end State

/-- **What a peer is known to hold it is not sent.**  After an attached peer `p` has announced chunk `i` or has
delivered it first, no poll dispatches `i` to `p` while `p` stays attached, as long as no send fails whose chunk
the receiving peer is known to hold. -/
theorem known_not_dispatched {env : Env} (hR : env.reedSolomon.Fills) {s : State} (hs : s.Started env)
    {pre mid : List Call} {c : Call} {p : PeerID} {i : Nat} (o : Order PeerID)
    (hattached : ((exec call s pre).peers.get p).isSome) (hlearns : (exec call s pre).Learns p i c)
    (hmid : Along call (fun t c => KeepsAttached p c ∧ t.FailsUnknown c) (exec call s (pre ++ [c])) mid) :
    ∀ d ∈ ((exec call s (pre ++ [c] ++ mid)).PollChunks o).1, d.peer = p → d.chunkID.index ≠ i := by
  obtain ⟨m, hpre⟩ := sound_exec (hs.sound hR) pre
  have hlearned : ∃ m, (exec call s (pre ++ [c])).Sound m := sound_exec (hs.sound hR) _
  have hstart : exec call s (pre ++ [c]) = (exec call s pre).call c := by simp
  rw [exec_append]
  intro d hd hpeer heq
  by_cases hi : (i : Int) < (exec call s pre).totalChunks
  · have hmarked : (exec call s (pre ++ [c])).Marked p i := by
      rw [hstart]
      exact hlearns.marked hpre hattached hi
    -- the mark stays, call by call
    have hstep : ∀ (t : State) (c : Call), ((∃ m, t.Sound m) ∧ t.Marked p i) → (KeepsAttached p c ∧ t.FailsUnknown c) →
        (∃ m, (t.call c).Sound m) ∧ (t.call c).Marked p i := by
      rintro t c ⟨⟨m, hm⟩, hmark⟩ ⟨hkeeps, hfails⟩
      exact ⟨hm.call c, hmark.call hm hkeeps hfails⟩
    obtain ⟨⟨m', hm'⟩, hend⟩ :=
      hmid.invariant (I := fun t => (∃ m, Sound t m) ∧ Marked t p i) hstep ⟨hlearned, hmarked⟩
    exact hend.not_dispatched hm' o hd hpeer heq
  · -- there is no such chunk, so none is held or sent
    obtain ⟨m', hm'⟩ := sound_exec hlearned mid
    have htotal := (fixed_exec hlearned mid).total
    obtain ⟨_, _, hheld⟩ := hm'.poll o
    obtain ⟨e, he⟩ := Option.isSome_iff_exists.mp (hheld d hd)
    have hlt := (hm'.inRange _ _ he).2
    rw [htotal, hstart, (hpre.fixed c).total, heq] at hlt
    exact hi hlt

/-- A message of two chunks. -/
def smallPreamble : Preamble := { dataChunks := 2, chunkHashes := [[], []] }

/-- A new relay for it. -/
def smallRelay (config : Config) : State where
  config := config.forRelay
  preamble := smallPreamble
  isOrigin := false
  totalChunks := 2
  chunks := [none, none]
  have_ := .new 2

theorem smallRelay_started (env : Env) (config : Config) : (smallRelay config).Started env :=
  .inr ⟨config, 0, some smallPreamble, rfl⟩

/-- Chunk 0 arrives from `b` and is dispatched to `a`. -/
def dispatchedToA : List Call := [.take "b" ⟨0⟩ [], .attach "a", .poll (.stored PeerID)]

/-- While chunk 0 is on its way to `a`, `a` announces it; the send is cancelled for that and reported, and the
next poll dispatches chunk 0 to `a` again. -/
theorem cancelled_dispatched_again :
    let s := exec call (smallRelay {}) dispatchedToA
    (s.peers.get "a").isSome ∧ s.Learns "a" 0 (.routing "a" (some [1])) ∧
      (s.RoutingUpdate "a" (some [1])).2 = [0] ∧
      ∃ d ∈ ((exec call s [.routing "a" (some [1]), .sent "a" 0 (some .cancelled)]).PollChunks
        (.stored PeerID)).1, d.peer = "a" ∧ d.chunkID.index = 0 := by
  refine ⟨by decide +kernel, ⟨rfl, by decide⟩, by decide +kernel, by decide +kernel⟩

/-- The send of chunk 0 succeeds, one of chunk 1 fails: `a` is offered chunk 1 again and chunk 0 not. -/
theorem known_not_dispatched_two :
    let calls : List Call := [.sent "a" 0 none, .take "b" ⟨1⟩ [], .poll (.stored PeerID),
      .sent "a" 1 (some .writeFail)]
    let ds := ((exec call (smallRelay {}) (dispatchedToA ++ [.routing "a" (some [1])] ++ calls)).PollChunks
      (.stored PeerID)).1
    (∀ d ∈ ds, d.peer = "a" → d.chunkID.index ≠ 0) ∧ ds.map (·.chunkID.index) = [1] := by
  intro calls ds
  refine ⟨?_, by decide +kernel⟩
  have hR : (Env.mk repetition fun _ => []).reedSolomon.Fills := repetition_fills
  exact known_not_dispatched hR (smallRelay_started _ {}) (.stored PeerID) (by decide +kernel) ⟨rfl, by decide⟩
    (by decide +kernel)

end EthP2P.Rs
