/-
# EthP2P.Rs.Inventory — one inventory, kept four times

What a strategy holds is recorded in its chunk array, in the bitmap `have`, in the planner and in the flag
`complete`; what is under way is recorded in the peers' counters and in the planner's `Times`.  The network
decides which operation comes next and with which arguments.

Whatever it chooses, the records agree (`Stocked.call`): `Holdings` is about the first four and `Flights` about
the other two.  A relay that is complete stores nothing more, so a running `Decode` reads chunks that no longer
change (`kept_exec`).
-/
import EthP2P.Rs.Ledger

namespace EthP2P.Rs

open Lib Wire Broadcast Function Bitmap

/-! ## Counting the held chunks -/

theorem Bitmap.length_foldl_set (l : List Nat) (b : Bitmap) : (l.foldl set b).length = b.length := by
  induction l generalizing b with
  | nil => rfl
  | cons i l ih =>
    rw [List.foldl_cons, ih]
    exact length_set b i

theorem Bitmap.get_foldl_set {l : List Nat} {b : Bitmap} (hl : ∀ i ∈ l, i < b.length * 8) (j : Nat) :
    (l.foldl set b).get j = (decide (j ∈ l) || b.get j) := by
  induction l generalizing b with
  | nil => simp
  | cons i l ih =>
    rw [List.foldl_cons, ih (fun k hk => by rw [length_set]; exact hl k (List.mem_cons_of_mem i hk)),
      get_set (hl i List.mem_cons_self)]
    by_cases hj : j = i
    · simp [hj]
    · simp [hj]

/-- The first `n` bits are set, and no other. -/
theorem Bitmap.get_allOnes (n i : Nat) : (allOnes n).get i = decide (i < n) := by
  have hroom : ∀ i ∈ List.range n, i < (new n).length * 8 := by
    intro i hi
    rw [length_new, bytesFor]
    have := List.mem_range.mp hi
    omega
  unfold allOnes
  rw [get_foldl_set hroom, get_new, Bool.or_false]
  simp

/-- The chunks present are the positions of the array where one is. -/
theorem present_eq_countP (chunks : List (Option Bytes)) :
    present chunks = (List.range chunks.length).countP fun i => (chunks.getD i none).isSome := by
  have hlist : (List.range chunks.length).map (fun i => chunks.getD i none) = chunks := by
    apply List.ext_getElem
    · simp
    · intro i h₁ h₂
      simp [List.getD_eq_getElem?_getD, List.getElem?_eq_getElem h₂]
  unfold present
  conv_lhs => rw [← hlist]
  rw [List.countP_map]
  rfl

/-- A bitmap that is set where a chunk is held has as many bits as there are chunks. -/
theorem onesCount_eq_present {b : Bitmap} {chunks : List (Option Bytes)}
    (h : ∀ i, b.get i = (chunks.getD i none).isSome) : b.onesCount = present chunks := by
  rw [present_eq_countP, List.countP_eq_length_filter]
  apply onesCount_eq_length (List.nodup_range.filter _)
  intro i
  rw [List.mem_filter, List.mem_range, h i]
  refine ⟨And.right, fun hheld => ⟨?_, hheld⟩⟩
  by_contra hlen
  rw [List.getD_eq_getElem?_getD, List.getElem?_eq_none (by omega)] at hheld
  cases hheld

/-! ## What is held -/

namespace State

/-- The bitmap is that of the chunks, and a relay knows when it has enough. -/
structure Holdings (s : State) : Prop where
  size : s.have_.length = bytesFor s.totalChunks.toNat
  held : ∀ i : Nat, s.have_.get i = (s.chunks.getD i none).isSome
  complete : s.isOrigin = false → (s.complete = true ↔ s.preamble.dataChunks ≤ present s.chunks)

section
variable {s t : State} {m m' : Int → Option EmitEntry}

theorem Holdings.kept (h : s.Holdings) (hk : Kept s t) : t.Holdings := by
  refine ⟨?_, ?_, ?_⟩
  · rw [hk.have_, hk.total]
    exact h.size
  · rw [hk.have_, hk.chunks]
    exact h.held
  · rw [hk.isOrigin, hk.complete, hk.preamble, hk.chunks]
    exact h.complete

theorem Holdings.progress (h : s.Holdings) : s.Progress.1 = present s.chunks := by
  show ((s.have_.onesCount : Nat) : Int) = _
  rw [onesCount_eq_present h.held]

/-- A chunk that is stored: the strategy was not complete, and it is now if it has enough. -/
structure Adds (s : State) (idx : Nat) (t : State) : Prop where
  open_ : s.complete = false
  preamble : t.preamble = s.preamble
  have_ : t.have_ = s.have_.set idx
  complete : t.complete = true ↔ s.preamble.dataChunks ≤ (s.have_.set idx).onesCount

/-- `TakeChunk` stores the chunk or does nothing. -/
theorem take_adds (s : State) (peer : PeerID) (chunkID : ChunkIdent) (data : Bytes) :
    (s.TakeChunk peer chunkID data).state = s ∨
      s.Stores peer chunkID.index.toNat (s.TakeChunk peer chunkID data).state ∧
        s.Adds chunkID.index.toNat (s.TakeChunk peer chunkID data).state := by
  rcases take_cases s peer chunkID data with ⟨hsame, _⟩ | ⟨_, hstores⟩
  · exact .inl hsame
  by_cases hsame : (s.TakeChunk peer chunkID data).state = s
  · exact .inl hsame
  refine .inr ⟨hstores, ?_⟩
  unfold TakeChunk at hsame ⊢
  split at hsame
  · exact absurd rfl hsame
  rename_i hrange
  rw [if_neg hrange]
  split at hsame
  · exact absurd rfl hsame
  rename_i hopen
  rw [if_neg hopen]
  split at hsame
  · exact absurd rfl hsame
  rename_i hmissing
  rw [if_neg hmissing]
  have hopen : s.complete = false := by simpa using hopen
  have hplace : (s.place peer chunkID.index.toNat data).complete = false ∧
      (s.place peer chunkID.index.toNat data).preamble = s.preamble ∧
      (s.place peer chunkID.index.toNat data).have_ = s.have_.set chunkID.index.toNat := by
    unfold place onPeer
    dsimp only
    split <;> exact ⟨hopen, rfl, rfl⟩
  dsimp only [store]
  rw [hplace.1]
  by_cases henough : (s.place peer chunkID.index.toNat data).enough = true
  · rw [henough]
    refine ⟨hopen, hplace.2.1, hplace.2.2, iff_of_true rfl ?_⟩
    rw [← hplace.2.1, ← hplace.2.2]
    exact of_decide_eq_true henough
  rw [Bool.not_eq_true] at henough
  rw [henough]
  refine ⟨hopen, hplace.2.1, hplace.2.2, ?_⟩
  rw [← hplace.2.1, ← hplace.2.2]
  refine iff_of_false (by simp [hplace.1]) ?_
  exact of_decide_eq_false henough

theorem Holdings.adds (h : s.Holdings) (hs : s.Sound m) {peer : PeerID} {idx : Nat} (hstores : s.Stores peer idx t)
    (hadds : s.Adds idx t) : t.Holdings := by
  obtain ⟨data, hchunks⟩ := hstores.chunks
  have hin := hstores.inRange
  have hroom : idx < s.have_.length * 8 := by
    rw [h.size, bytesFor]
    omega
  have hlen : idx < s.chunks.length := by
    have := hs.length
    omega
  have hheld : ∀ i : Nat, t.have_.get i = (t.chunks.getD i none).isSome := by
    intro i
    rw [hadds.have_, get_set hroom, hchunks, List.getD_eq_getElem?_getD, List.getElem?_set]
    by_cases hi : i = idx
    · subst hi
      rw [if_pos rfl, if_pos hlen]
      simp
    · rw [if_neg (Ne.symm hi), ← List.getD_eq_getElem?_getD, h.held i]
      simp [hi]
  refine ⟨?_, hheld, ?_⟩
  · rw [hadds.have_, length_set, hstores.total]
    exact h.size
  · intro _
    rw [hadds.complete, hadds.preamble, ← hadds.have_, onesCount_eq_present hheld]

/-- Every call but one that stores a chunk leaves what is held. -/
theorem kept_call (h : s.Sound m) (c : Call) :
    Kept s (s.call c) ∨ ∃ peer idx, s.Stores peer idx (s.call c) ∧ s.Adds idx (s.call c) := by
  rcases h.kept c with hkept | ⟨peer, chunkID, data, rfl⟩
  · exact .inl hkept
  rcases take_adds s peer chunkID data with hsame | hstored
  · refine .inl ?_
    change Kept s (s.TakeChunk peer chunkID data).state
    rw [hsame]
    exact .refl s
  · exact .inr ⟨peer, chunkID.index.toNat, hstored⟩

theorem Holdings.call (h : s.Holdings) (hs : s.Sound m) (c : Call) : (s.call c).Holdings := by
  rcases kept_call hs c with hkept | ⟨peer, idx, hstores, hadds⟩
  · exact h.kept hkept
  · exact h.adds hs hstores hadds

/-- What is complete stays as it is. -/
theorem Kept.of_complete (h : s.Sound m) (hcomplete : s.complete = true) (c : Call) : Kept s (s.call c) := by
  rcases kept_call h c with hkept | ⟨peer, idx, _, hadds⟩
  · exact hkept
  have hopen := hadds.open_
  rw [hcomplete] at hopen
  cases hopen

theorem kept_exec (h : ∃ m, s.Sound m) (hcomplete : s.complete = true) (calls : List Call) :
    Kept s (exec State.call s calls) := by
  refine (exec_invariant (I := fun t => (∃ m, t.Sound m) ∧ Kept s t) State.call ?_ ⟨h, .refl s⟩ calls).2
  rintro t c ⟨⟨m, hm⟩, hkept⟩
  exact ⟨hm.call c, hkept.trans (.of_complete hm (hkept.complete.trans hcomplete) c)⟩

end

/-! ## What is under way -/

/-- The number of sends of a chunk that the attached peers count as in flight. -/
def flying (peers : Map PeerID PeerState) (i : Nat) : Int := peers.total fun ps => ps.inflight.getD i 0

/-- Each counter is zero or one, and together they are no more than the allocations of the chunk. -/
structure Flights (peers : Map PeerID PeerState) (m : Int → Option EmitEntry) : Prop where
  binary : ∀ q ps, peers.get q = some ps → ∀ i : Nat, ps.inflight.getD i 0 = 0 ∨ ps.inflight.getD i 0 = 1
  unplanned : ∀ i : Nat, m i = none → ∀ q ps, peers.get q = some ps → ps.inflight.getD i 0 = 0
  times : ∀ (i : Nat) e, m i = some e → flying peers i ≤ e.times

section
variable {peers : Map PeerID PeerState} {m : Int → Option EmitEntry} {q : PeerID} {ps ps' : PeerState}

/-- The peer's counters, and those of all others. -/
theorem flying_set (peers : Map PeerID PeerState) (q : PeerID) (ps : PeerState) (i : Nat) :
    flying (peers.set q ps) i = ps.inflight.getD i 0 + flying (peers.del q) i :=
  Map.total_set _ peers q ps

theorem flying_del (hget : peers.get q = some ps) (i : Nat) :
    flying peers i = ps.inflight.getD i 0 + flying (peers.del q) i :=
  (Map.total_del (fun ps : PeerState => ps.inflight.getD i 0) hget).symm

/-- No counter of the chunk is set. -/
theorem flying_eq_zero {i : Nat} (h : ∀ q ps, peers.get q = some ps → ps.inflight.getD i 0 = 0) :
    flying peers i = 0 := by
  apply Map.total_eq_zero
  intro q ps hget
  exact h q ps hget

theorem Flights.nonneg (h : Flights peers m) (hget : peers.get q = some ps) (i : Nat) : 0 ≤ ps.inflight.getD i 0 := by
  rcases h.binary q ps hget i with hzero | hone
  · omega
  · omega

/-- A peer goes. -/
theorem Flights.del (h : Flights peers m) (q : PeerID) : Flights (peers.del q) m := by
  have hsub : ∀ p ps, (peers.del q).get p = some ps → peers.get p = some ps := by
    intro p ps hget
    rw [Map.get_del] at hget
    split at hget
    · cases hget
    · exact hget
  refine ⟨fun p ps hget => h.binary p ps (hsub p ps hget),
    fun i hi p ps hget => h.unplanned i hi p ps (hsub p ps hget), fun i e he => ?_⟩
  have htimes := h.times i e he
  cases hget : peers.get q with
  | none =>
    have hsame : flying (peers.del q) i = flying peers i := Map.total_del_of_none _ hget
    rw [hsame]
    exact htimes
  | some ps =>
    have hsum := flying_del hget i
    have hpos := h.nonneg hget i
    omega

/-- A peer comes, or comes again, with counters that the entries allow beside those of the others. -/
theorem Flights.set (h : Flights (peers.del q) m)
    (hbinary : ∀ i : Nat, ps.inflight.getD i 0 = 0 ∨ ps.inflight.getD i 0 = 1)
    (hunplanned : ∀ i : Nat, m i = none → ps.inflight.getD i 0 = 0)
    (htimes : ∀ (i : Nat) e, m i = some e → ps.inflight.getD i 0 + flying (peers.del q) i ≤ e.times) :
    Flights (peers.set q ps) m := by
  have hother : ∀ p ps', p ≠ q → (peers.set q ps).get p = some ps' → (peers.del q).get p = some ps' := by
    intro p ps' hp hget
    rw [Map.get_set, if_neg hp] at hget
    rw [Map.get_del, if_neg hp]
    exact hget
  have hself : ∀ ps', (peers.set q ps).get q = some ps' → ps' = ps := by
    intro ps' hget
    rw [Map.get_set, if_pos rfl] at hget
    exact (Option.some.inj hget).symm
  refine ⟨?_, ?_, ?_⟩
  · intro p ps' hget
    by_cases hp : p = q
    · subst hp
      rw [hself ps' hget]
      exact hbinary
    · exact h.binary p ps' (hother p ps' hp hget)
  · intro i hi p ps' hget
    by_cases hp : p = q
    · subst hp
      rw [hself ps' hget]
      exact hunplanned i hi
    · exact h.unplanned i hi p ps' (hother p ps' hp hget)
  · intro i e he
    rw [flying_set]
    exact htimes i e he

section

variable (h : Flights peers m)
include h

/-- A peer starts with all counters at zero. -/
theorem Flights.attach (q : PeerID) (hzero : ∀ i : Nat, ps.inflight.getD i 0 = 0) : Flights (peers.set q ps) m := by
  have hdel := h.del q
  refine hdel.set (fun i => .inl (hzero i)) (fun i _ => hzero i) fun i e he => ?_
  rw [hzero, zero_add]
  exact hdel.times i e he

/-- A peer's counters stay. -/
theorem Flights.same (hget : peers.get q = some ps) (hsame : ps'.inflight = ps.inflight) :
    Flights (peers.set q ps') m := by
  refine (h.del q).set ?_ ?_ ?_
  · rw [hsame]
    exact h.binary q ps hget
  · intro i hi
    rw [hsame]
    exact h.unplanned i hi q ps hget
  · intro i e he
    rw [hsame, ← flying_del hget]
    exact h.times i e he

/-- A chunk that was not planned is. -/
theorem Flights.plan {idx : Nat} (hnone : m idx = none) {e : EmitEntry} (he : 0 ≤ e.times) :
    Flights peers (update m idx (some e)) := by
  refine ⟨h.binary, ?_, ?_⟩
  · intro i hi
    by_cases hidx : (i : Int) = idx
    · rw [hidx, update_self] at hi
      cases hi
    · rw [update_of_ne hidx] at hi
      exact h.unplanned i hi
  intro i e' he'
  rcases Ledger.update_cases he' with ⟨hidx, hnew⟩ | ⟨_, hold⟩
  · cases hnew
    have hi : m i = none := by
      rw [hidx]
      exact hnone
    rw [flying_eq_zero (h.unplanned i hi)]
    exact he
  · exact h.times i e' hold

/-- A counter and the entry of its chunk change together. -/
theorem Flights.change (hget : peers.get q = some ps) {idx : Nat} {e e' : EmitEntry}
    (hplanned : m idx = some e) {δ : Int} (hidx : idx < ps.inflight.length)
    (hps : ps'.inflight = ps.inflight.modify idx (· + δ))
    (hbinary : ps.inflight.getD idx 0 + δ = 0 ∨ ps.inflight.getD idx 0 + δ = 1) (htimes : e.times + δ ≤ e'.times) :
    Flights (peers.set q ps') (update m idx (some e')) := by
  have hcount : ∀ i : Nat, ps'.inflight.getD i 0 = ps.inflight.getD i 0 + if i = idx then δ else 0 := by
    intro i
    rw [hps, Ledger.getD_modify hidx]
    split
    · rfl
    · omega
  -- the other peers do not see the change of the entry
  have hdel : Flights (peers.del q) (update m idx (some e')) := by
    have hold := h.del q
    have hfly := h.times idx e hplanned
    have hsum := flying_del hget idx
    refine ⟨hold.binary, ?_, ?_⟩
    · intro i hi
      by_cases hii : (i : Int) = idx
      · rw [hii, update_self] at hi
        cases hi
      · rw [update_of_ne hii] at hi
        exact hold.unplanned i hi
    intro i e'' he''
    rcases Ledger.update_cases he'' with ⟨hii, hnew⟩ | ⟨_, hrest⟩
    · cases hnew
      obtain rfl : i = idx := Int.ofNat_inj.mp hii
      omega
    · exact hold.times i e'' hrest
  refine hdel.set ?_ ?_ ?_
  · intro i
    rw [hcount]
    split
    · rename_i hi
      rw [hi]
      exact hbinary
    · rw [add_zero]
      exact h.binary q ps hget i
  · intro i hi
    have hne : (i : Int) ≠ idx := by
      intro heq
      rw [heq, update_self] at hi
      cases hi
    rw [update_of_ne hne] at hi
    rw [hcount, if_neg (fun heq => hne (by rw [heq])), add_zero]
    exact h.unplanned i hi q ps hget
  · intro i e'' he''
    rw [hcount]
    have hsum := flying_del hget i
    rcases Ledger.update_cases he'' with ⟨hii, hnew⟩ | ⟨hii, hrest⟩
    · cases hnew
      obtain rfl : i = idx := Int.ofNat_inj.mp hii
      have hold := h.times i e hplanned
      rw [if_pos rfl]
      omega
    · have hold := h.times i e'' hrest
      rw [if_neg (fun heq => hii (by rw [heq]))]
      omega

end

end

/-! ## The invariant -/

/-- All records agree. -/
structure Stocked (s : State) (m : Int → Option EmitEntry) : Prop where
  sound : s.Sound m
  holdings : s.Holdings
  flights : Flights s.peers m

section
variable {s t : State} {m m' : Int → Option EmitEntry}

section

variable (h : s.Stocked m)
include h

theorem Stocked.round {peer : PeerID} {d : List (ChunkDispatch ChunkIdent)}
    (hr : s.Round m peer d t m') : t.Stocked m' := by
  have hsound := (h.sound.round hr).1
  have hholdings := h.holdings.kept hr.kept
  refine ⟨hsound, hholdings, ?_⟩
  cases hr with
  | none planner hh => exact h.flights
  | dispatch ps ec planner data attached planned eligible hh =>
    obtain ⟨hnonneg, hlt⟩ := h.sound.inRange _ _ planned
    obtain ⟨idx, hidx⟩ := Int.eq_ofNat_of_zero_le hnonneg
    have hlen := h.sound.inflight peer ps attached
    unfold ineligible at eligible
    simp only [Bool.or_eq_false_iff, decide_eq_false_iff_not] at eligible
    have hfree : ps.inflight.getD idx 0 = 0 := by
      have hle := eligible.1.2
      rw [hidx, Int.toNat_natCast] at hle
      have := h.flights.nonneg attached idx
      omega
    rw [hidx] at planned ⊢
    exact h.flights.change attached planned (δ := 1) (by omega) (by simp) (by omega) (le_refl _)

theorem Stocked.poll (o : Order PeerID) : ∃ m', (s.PollChunks o).2.Stocked m' :=
  pollChunks_rounds (I := fun _ t m' => t.Stocked m') (fun hI => hI.sound.planner) (fun hI hr => hI.round hr) o h

theorem Stocked.take (peer : PeerID) (chunkID : ChunkIdent) (data : Bytes) :
    ∃ m', (s.call (.take peer chunkID data)).Stocked m' := by
  have hholdings := h.holdings.call h.sound (.take peer chunkID data)
  change (s.TakeChunk peer chunkID data).state.Holdings at hholdings
  change ∃ m', (s.TakeChunk peer chunkID data).state.Stocked m'
  rcases take_adds s peer chunkID data with hsame | ⟨hstores, _⟩
  · rw [hsame]
    exact ⟨m, h⟩
  generalize chunkID.index.toNat = idx at hstores
  have hnone : m idx = none := by
    have hplanned := h.sound.planned idx
    rw [hstores.missing] at hplanned
    simpa using hplanned
  have hplan := h.flights.plan hnone (e := { idx := idx, priority := s.chunkPriority idx }) (le_refl _)
  refine ⟨_, h.sound.stores hstores, hholdings, ?_⟩
  rw [hstores.peers]
  cases hget : s.peers.get peer with
  | none => exact hplan
  | some ps => exact hplan.same hget rfl

theorem Stocked.sent (peer : PeerID) (handle : ChunkHandle) (err : Option SendError) :
    ∃ m', (s.call (.sent peer handle err)).Stocked m' := by
  have hholdings := h.holdings.call h.sound (.sent peer handle err)
  change (s.ChunkSent peer handle err).Holdings at hholdings
  change ∃ m', (s.ChunkSent peer handle err).Stocked m'
  rcases chunkSent_cases s peer handle err with hsame | ⟨idx, ps, hhandle, hf⟩
  · rw [hsame]
    exact ⟨m, h⟩
  -- a chunk in flight is planned, and its counter goes from one to zero
  have hone : ps.inflight.getD idx 0 = 1 := by
    have hpos := hf.inflight
    rcases h.flights.binary peer ps hf.attached idx with hzero | hone
    · omega
    · exact hone
  obtain ⟨e, he⟩ : ∃ e, m idx = some e := by
    cases hm : m idx with
    | none =>
      have hzero := h.flights.unplanned idx hm peer ps hf.attached
      omega
    | some e => exact ⟨e, rfl⟩
  have hlen := h.sound.inflight peer ps hf.attached
  have hin := hf.inRange
  refine ⟨_, h.sound.inFlight hf hhandle err, hholdings, ?_⟩
  rw [hf.chunkSent hhandle, accounted, he, Option.map_some]
  refine h.flights.change hf.attached he (δ := -1) (by omega) ?_ (by omega) ?_
  · cases err with
    | none | some err => rfl
  rw [times_settled]
  split <;> omega

theorem Stocked.call (c : Call) : ∃ m', (s.call c).Stocked m' := by
  have hholdings := h.holdings.call h.sound c
  cases c with
  | attach peer =>
    refine ⟨m, h.sound.attach peer, hholdings, h.flights.attach peer ?_⟩
    intro i
    rw [List.getD_eq_getElem?_getD, List.getElem?_replicate]
    split <;> rfl
  | detach peer completed =>
    refine ⟨m, h.sound.detach peer completed, hholdings, ?_⟩
    change Flights (s.DetachPeer peer completed).peers m
    unfold DetachPeer
    split
    · exact h.flights
    rename_i ps hget
    split
    · exact h.flights.same hget rfl
    · exact h.flights.del peer
  | take peer chunkID data => exact h.take peer chunkID data
  | routing peer update =>
    refine ⟨m, h.sound.routing peer update, hholdings, ?_⟩
    change Flights (s.RoutingUpdate peer update).1.peers m
    unfold RoutingUpdate
    split
    · exact h.flights
    rename_i ps hget
    refine h.flights.same hget ?_
    cases update with
    | none => rfl
    | some update => rfl
  | poll o => exact h.poll o
  | pollRouting force =>
    refine ⟨m, h.sound.pollRouting force, hholdings, ?_⟩
    change Flights (s.PollRouting force).2.peers m
    unfold PollRouting
    split <;> exact h.flights
  | sent peer handle err => exact h.sent peer handle err

end

/-! ### New strategies -/

theorem flights_empty (m : Int → Option EmitEntry) (hm : ∀ i e, m i = some e → 0 ≤ e.times) :
    Flights (∅ : Map PeerID PeerState) m := by
  refine ⟨?_, ?_, ?_⟩
  · intro q ps hget
    cases hget
  · intro i _ q ps hget
    cases hget
  intro i e he
  show (∅ : Map PeerID PeerState).total (fun ps => ps.inflight.getD i 0) ≤ e.times
  rw [Map.total_empty]
  exact hm i e he

theorem holdings_origin {env : Env} {config : Config} {payload : Bytes} (hs : s.Sound m)
    (h : newOriginStrategy env config payload = .ok s) : s.Holdings := by
  obtain ⟨pre, c, msg, shards, out, _, _, _, _, _, _, hchunks, htotal, _, _, horigin, hhave⟩ := newOrigin_calls h
  rw [← htotal] at hhave
  have hlen := hs.length
  rw [hchunks, List.length_map] at hlen
  refine ⟨?_, ?_, ?_⟩
  · rw [hhave, allOnes, length_foldl_set]
    exact length_new _
  · intro i
    rw [hhave, get_allOnes, hchunks, List.getD_eq_getElem?_getD, List.getElem?_map]
    by_cases hi : i < out.length
    · rw [List.getElem?_eq_getElem hi]
      exact decide_eq_true (by omega)
    · rw [List.getElem?_eq_none (by omega)]
      exact decide_eq_false (by omega)
  · intro hrelay
    rw [horigin] at hrelay
    cases hrelay

theorem holdings_relay {config : Config} {seed : UInt64} {preamble : Option Preamble}
    (h : newRelayStrategy config seed preamble = .ok s) : s.Holdings := by
  unfold newRelayStrategy at h
  split at h
  · cases h
  rename_i p
  split at h
  · cases h
  rename_i hwell
  cases h
  have hnone : ∀ i : Nat, (List.replicate p.totalChunks.toNat (none : Option Bytes)).getD i none = none := by
    intro i
    rw [List.getD_eq_getElem?_getD, List.getElem?_replicate]
    split <;> rfl
  refine ⟨length_new _, ?_, ?_⟩
  · intro i
    dsimp only
    rw [hnone, get_new]
    rfl
  intro _
  refine iff_of_false Bool.false_ne_true ?_
  have hempty : present (List.replicate p.totalChunks.toNat (none : Option Bytes)) = 0 := by
    rw [present, List.countP_replicate]
    rfl
  dsimp only
  rw [hempty]
  omega

theorem stocked_started {env : Env} (hR : env.reedSolomon.Fills) (h : s.Started env) : ∃ m, s.Stocked m := by
  rcases h with ⟨config, payload, horigin⟩ | ⟨config, seed, preamble, hrelay⟩
  · obtain ⟨hsound, hpeers⟩ := sound_origin hR horigin
    refine ⟨_, hsound, holdings_origin hsound horigin, ?_⟩
    rw [hpeers]
    apply flights_empty
    intro i e he
    unfold firstChunks at he
    split at he
    · cases he
      exact le_refl _
    · cases he
  · obtain ⟨hsound, hpeers⟩ := sound_relay hrelay
    refine ⟨_, hsound, holdings_relay hrelay, ?_⟩
    rw [hpeers]
    exact flights_empty _ (by simp)

end

end State

end EthP2P.Rs
