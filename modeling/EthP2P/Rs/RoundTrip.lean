/-
# EthP2P.Rs.RoundTrip — a relay recovers the origin's payload

From the encoder through the preamble's wire form, the hash check, the bookkeeping of accepted chunks and
the decoder: a relay that is offered chunks of an origin, in any order, with repetitions, from any peers
and in between any other calls of the strategy, accepts each index once until it has as many as there
are data chunks, and then decodes exactly the payload.

The relay's state is described by the list `got` of the indices it accepted (`Collects`).  Only
`TakeChunk` changes what the description mentions; all other methods are framed out in one lemma.
-/
import Mathlib.Data.Finset.Card
import Mathlib.Data.List.Forall2
import EthP2P.Rs.Shape

namespace EthP2P.Rs

open Lib Wire Broadcast List Preamble

/-! ## Offering chunks -/

/-- A chunk as the session hands it to its strategy (`handleChunkData`, `acceptChunk`): one that is held
is not even verified.  The verdict and whether the strategy reports completeness. -/
def State.offer (env : Env) (s : State) (peer : PeerID) (chunkID : ChunkIdent) (data : Bytes) :
    State × Verdict × Bool :=
  if s.HaveChunk chunkID then (s, .redundant, false)
  else
    match s.VerifyChunk env peer chunkID data with
    | .accepted =>
      let r := s.TakeChunk peer chunkID data
      (r.state, r.verdict, r.complete)
    | verdict => (s, verdict, false)

/-- The calls of a relay's strategy; an offered chunk is one of the origin's. -/
inductive RelayOp where
  | offer (peer : PeerID) (i : Nat)
  | attachPeer (peer : PeerID)
  | detachPeer (peer : PeerID) (completed : Bool)
  | routingUpdate (peer : PeerID) (update : Bitmap)
  | pollChunks (o : Order PeerID)
  | pollRouting (force : Bool)
  | chunkSent (peer : PeerID) (handle : ChunkHandle) (err : Option SendError)

/-- A relay and the indices it was offered. -/
structure Relay where
  state : State
  offered : List Nat := []

def Relay.step (env : Env) (origin : State) (x : Relay) : RelayOp → Relay
  | .offer peer i =>
    match origin.chunks[i]?.join with
    | some data =>
      { state := (x.state.offer env peer ⟨i⟩ data).1, offered := x.offered ++ [i] }
    | none => x
  | .attachPeer peer => { x with state := x.state.AttachPeer peer }
  | .detachPeer peer completed => { x with state := x.state.DetachPeer peer completed }
  | .routingUpdate peer update => { x with state := (x.state.RoutingUpdate peer (some update)).1 }
  | .pollChunks o => { x with state := (x.state.PollChunks o).2 }
  | .pollRouting force => { x with state := (x.state.PollRouting force).2 }
  | .chunkSent peer handle err => { x with state := x.state.ChunkSent peer handle err }

/-! ## What the other methods leave alone -/

namespace State

/-- The fields that describe what was received. -/
structure Frame (s s' : State) : Prop where
  preamble : s'.preamble = s.preamble
  totalChunks : s'.totalChunks = s.totalChunks
  chunks : s'.chunks = s.chunks
  have_ : s'.have_ = s.have_
  complete : s'.complete = s.complete

theorem Frame.refl (s : State) : Frame s s := ⟨rfl, rfl, rfl, rfl, rfl⟩

theorem Frame.trans {s s' s'' : State} (h : Frame s s') (h' : Frame s' s'') : Frame s s'' :=
  ⟨h'.preamble.trans h.preamble, h'.totalChunks.trans h.totalChunks, h'.chunks.trans h.chunks,
    h'.have_.trans h.have_, h'.complete.trans h.complete⟩

variable (s : State)

variable (peer : PeerID)

theorem onPeer_frame (f : PeerState → PeerState) : Frame s (s.onPeer peer f) := by
  unfold onPeer
  split
  · exact .refl s
  · exact ⟨rfl, rfl, rfl, rfl, rfl⟩

/-- Placing a chunk changes two of the fields. -/
theorem place_fields (i : Nat) (data : Bytes) :
    (s.place peer i data).preamble = s.preamble ∧
      (s.place peer i data).totalChunks = s.totalChunks ∧
      (s.place peer i data).chunks = s.chunks.set i (some data) ∧
      (s.place peer i data).have_ = s.have_.set i ∧
      (s.place peer i data).complete = s.complete := by
  obtain ⟨h1, h2, h3, h4, h5⟩ := onPeer_frame { s with
    chunks := s.chunks.set i (some data)
    have_ := s.have_.set i
    routingDirty := true
    emitPlanner := s.emitPlanner.Insert { idx := i, priority := s.chunkPriority i } } peer
      fun ps => { ps with bitmap := ps.bitmap.set i }
  exact ⟨h1, h2, h3, h4, h5⟩

theorem detachPeer_frame (completed : Bool) : Frame s (s.DetachPeer peer completed) := by
  unfold DetachPeer
  split
  · exact .refl s
  split <;> exact ⟨rfl, rfl, rfl, rfl, rfl⟩

theorem routingUpdate_frame (update : Option Bitmap) : Frame s (s.RoutingUpdate peer update).1 := by
  unfold RoutingUpdate
  split
  · exact .refl s
  · exact ⟨rfl, rfl, rfl, rfl, rfl⟩

theorem allocate_frame (ps : PeerState) : Frame s (s.allocate peer ps).1 := by
  unfold allocate
  dsimp only
  split <;> exact ⟨rfl, rfl, rfl, rfl, rfl⟩

theorem poll_frame (acc : List (ChunkDispatch ChunkIdent) × State) (peer : PeerID) :
    Frame acc.2 (poll acc peer).2 := by
  unfold poll
  split
  · exact .refl _
  rename_i ps hps
  split
  · exact .refl _
  have hframe := allocate_frame acc.2 peer ps
  split
  · rename_i s' hs'
    rw [hs'] at hframe
    exact hframe
  rename_i s' chunkID data hs'
  rw [hs'] at hframe
  exact hframe

theorem pollChunks_frame (o : Order PeerID) : Frame s (s.PollChunks o).2 := by
  have hfold : ∀ (peers : List PeerID) (acc : List (ChunkDispatch ChunkIdent) × State),
      Frame s acc.2 → Frame s (peers.foldl poll acc).2 := by
    intro peers
    induction peers with
    | nil => exact fun acc h => h
    | cons peer peers ih =>
      intro acc h
      exact ih _ (h.trans (poll_frame acc peer))
  exact hfold _ ([], s) (.refl s)

theorem pollRouting_frame (force : Bool) : Frame s (s.PollRouting force).2 := by
  unfold PollRouting
  split
  · exact ⟨rfl, rfl, rfl, rfl, rfl⟩
  · exact .refl s

theorem chunkSent_frame (handle : ChunkHandle) (err : Option SendError) : Frame s (s.ChunkSent peer handle err) := by
  unfold ChunkSent
  split
  · exact .refl s
  dsimp only
  split
  · exact .refl s
  split
  · exact .refl s
  split <;> exact ⟨rfl, rfl, rfl, rfl, rfl⟩

end State

/-! ## What a relay holds -/

/-- The relay accepted exactly the chunks `got` of the encoding `out`. -/
structure Collects (pre : Preamble) (d p : Nat) (out : List Bytes) (got : List Nat) (s : State) :
    Prop where
  preamble : s.preamble = pre
  total : s.totalChunks = d + p
  nodup : got.Nodup
  range : ∀ i ∈ got, i < d + p
  bound : got.length ≤ d
  size : s.chunks.length = d + p
  chunks : ∀ i, i < d + p → s.chunks[i]? = some (if i ∈ got then out[i]? else none)
  room : d + p ≤ s.have_.length * 8
  held : ∀ i, s.have_.get i = true ↔ i ∈ got
  complete : s.complete = decide (d ≤ got.length)

namespace Collects

variable {env : Env} {payload : Bytes} {pre : Preamble} {d p n : Nat} {shards out : List Bytes}
  {got : List Nat} {s s' : State} {i : Nat} {data : Bytes}

section

variable (h : Collects pre d p out got s)
include h

theorem of_frame (hf : s.Frame s') : Collects pre d p out got s' := by
  obtain ⟨h1, h2, h3, h4, h5, h6, h7, h8, h9, h10⟩ := h
  refine ⟨hf.preamble.trans h1, hf.totalChunks.trans h2, h3, h4, h5, ?_, ?_, ?_, ?_, hf.complete.trans h10⟩
  · rw [hf.chunks]
    exact h6
  · rw [hf.chunks]
    exact h7
  · rw [hf.have_]
    exact h8
  · rw [hf.have_]
    exact h9

/-- The index of one of the chunks passes the range check. -/
theorem inRange (hi : i < d + p) : s.outOfRange (i : Int) = false := by
  unfold State.outOfRange
  rw [h.total]
  simp
  omega

theorem haveChunk (hi : i < d + p) : s.HaveChunk ⟨i⟩ = decide (i ∈ got) := by
  rw [State.HaveChunk, h.inRange hi, Bool.false_or, Int.toNat_natCast]
  by_cases hgot : i ∈ got
  · rw [(h.held i).mpr hgot]
    simp [hgot]
  · rw [Bool.eq_false_iff.mpr fun hget => hgot ((h.held i).mp hget)]
    simp [hgot]

/-- Every chunk of the encoding passes the hash check. -/
theorem verifyChunk (hi : i < d + p)
    (hhashes : pre.chunkHashes = out.map env.sha256) (hdata : out[i]? = some data)
    (peer : PeerID) : s.VerifyChunk env peer ⟨i⟩ data = .accepted := by
  have hhash : s.preamble.chunkHashes[i]? = some (env.sha256 data) := by
    rw [h.preamble, hhashes, getElem?_map, hdata]
    rfl
  simp [State.VerifyChunk, State.verifyChunk, h.inRange hi, hhash]

theorem nodup_concat (hnew : i ∉ got) : (got ++ [i]).Nodup := by
  rw [nodup_append]
  refine ⟨h.nodup, nodup_singleton i, fun a ha b hb => ?_⟩
  rw [mem_singleton.mp hb]
  rintro rfl
  exact hnew ha

theorem held_place (hi : i < d + p) (peer : PeerID) (j : Nat) :
    (s.place peer i data).have_.get j = true ↔ j ∈ got ++ [i] := by
  have hroom : i < s.have_.length * 8 := Nat.lt_of_lt_of_le hi h.room
  rw [(s.place_fields peer i data).2.2.2.1, Bitmap.get_set hroom, mem_append,
    mem_singleton, Bool.or_eq_true, decide_eq_true_iff, h.held j, or_comm]

/-- With the chunk in place there are enough when `got` lacked one. -/
theorem enough_place (hpre : pre.dataChunks = d) (hi : i < d + p) (hnew : i ∉ got) (peer : PeerID) :
    (s.place peer i data).enough = decide (d ≤ (got ++ [i]).length) := by
  have hcount : (s.place peer i data).have_.onesCount = (got ++ [i]).length :=
    Bitmap.onesCount_eq_length (h.nodup_concat hnew) fun j => (h.held_place hi peer j).symm
  rw [State.enough, hcount, (s.place_fields peer i data).1, h.preamble, hpre, decide_eq_decide]
  omega

/-- Storing a chunk that was not held. -/
theorem store (hpre : pre.dataChunks = d) (hi : i < d + p)
    (hnew : i ∉ got) (hmore : got.length < d) (hdata : out[i]? = some data) (peer : PeerID) :
    Collects pre d p out (got ++ [i]) (s.store peer i data) := by
  obtain ⟨h1, h2, h3, h4, h5⟩ := s.place_fields peer i data
  have hopen : (s.place peer i data).complete = false := by
    rw [h5, h.complete]
    simpa using hmore
  have hstore : s.store peer i data =
      { s.place peer i data with complete := decide (d ≤ (got ++ [i]).length) } := by
    rw [State.store, hopen, h.enough_place hpre hi hnew]
    split
    · rename_i hdone
      rw [show decide (d ≤ (got ++ [i]).length) = true by simpa using hdone]
    · rename_i hmore
      rw [show decide (d ≤ (got ++ [i]).length) = false by simpa using hmore, ← hopen]
  rw [hstore]
  refine ⟨h1.trans h.preamble, h2.trans h.total, h.nodup_concat hnew, fun j hj => ?_, ?_, ?_,
    fun j hj => ?_, ?_, h.held_place hi peer, rfl⟩
  · rcases mem_append.mp hj with hj | hj
    · exact h.range j hj
    · rw [mem_singleton.mp hj]
      exact hi
  · rw [length_append, length_singleton]
    omega
  · change (s.place peer i data).chunks.length = _
    rw [h3, length_set]
    exact h.size
  · change (s.place peer i data).chunks[j]? = _
    rw [h3, getElem?_set, h.size, h.chunks j hj]
    by_cases hij : i = j
    · subst hij
      simp [hi, hdata]
    · have hmem : (j ∈ got ++ [i]) = (j ∈ got) := by simp [Ne.symm hij]
      simp [hij, hmem]
  · change d + p ≤ (s.place peer i data).have_.length * 8
    rw [h4, Bitmap.length_set]
    exact h.room

/-- `TakeChunk` before completeness: a chunk that is not held is accepted, and the last one needed
completes. -/
theorem takeChunk_new (hi : i < d + p) (hnew : i ∉ got) (hmore : got.length < d) (peer : PeerID) :
    s.TakeChunk peer ⟨i⟩ data =
      { state := s.store peer i data
        verdict := .accepted
        complete := (s.store peer i data).complete
        cancelsGroup := true } := by
  have hopen : s.complete = false := by
    rw [h.complete]
    simpa using hmore
  have hempty : s.chunks[i]?.getD none = none := by
    rw [h.chunks i hi, if_neg hnew]
    rfl
  simp [State.TakeChunk, h.inRange hi, hopen, hempty]

/-- `TakeChunk` of a chunk that is held, or after completeness, is redundant. -/
theorem takeChunk_redundant (hi : i < d + p)
    (hout : out.length = d + p) (hold : i ∈ got ∨ d ≤ got.length) (peer : PeerID) :
    s.TakeChunk peer ⟨i⟩ data =
      { state := s, verdict := .redundant, complete := false, cancelsGroup := false } := by
  by_cases hdone : d ≤ got.length
  · have hcomplete : s.complete = true := by
      rw [h.complete]
      simpa using hdone
    simp [State.TakeChunk, h.inRange hi, hcomplete]
  have hgot : i ∈ got := hold.resolve_right hdone
  have hfull : s.chunks[i]?.getD none = some (out.get ⟨i, by omega⟩) := by
    rw [h.chunks i hi, if_pos hgot, getElem?_eq_getElem (by omega)]
    rfl
  simp [State.TakeChunk, h.inRange hi, hfull]

end

/-! ## Decoding -/

theorem survives (h : Collects pre d p out got s) (hout : out.length = d + p) : Survives out s.chunks := by
  rw [Survives, forall₂_iff_get]
  refine ⟨hout.trans h.size.symm, fun i hi hi' => ?_⟩
  have hget := h.chunks i (by omega)
  rw [getElem?_eq_getElem hi'] at hget
  have hval := Option.some.inj hget
  simp only [get_eq_getElem]
  rw [hval]
  split
  · right
    exact getElem?_eq_getElem hi
  · left
    rfl

theorem present_eq (h : Collects pre d p out got s) (hout : out.length = d + p) : present s.chunks = got.length := by
  have hchunks : s.chunks = (List.range (d + p)).map fun i => if i ∈ got then out[i]? else none := by
    apply List.ext_getElem?
    intro i
    by_cases hi : i < d + p
    · rw [h.chunks i hi]
      simp [hi]
    · rw [List.getElem?_eq_none (by rw [h.size]; omega)]
      simp [hi]
  rw [present, hchunks, List.countP_map, List.countP_eq_length_filter]
  apply List.Perm.length_eq
  rw [List.perm_ext_iff_of_nodup (List.nodup_range.filter _) h.nodup]
  intro i
  rw [mem_filter, mem_range]
  constructor
  · rintro ⟨_, hsome⟩
    by_contra hnot
    simp [hnot] at hsome
  intro hgot
  have hi := h.range i hgot
  refine ⟨hi, ?_⟩
  simp [hgot, hout, hi]

/-- With enough chunks of a coded message, `Decode` returns the payload. -/
theorem decode (hR : env.reedSolomon.Lawful) (hc : Coded env payload d p n shards out)
    (h : Collects (preambleOf env payload d p out) d p out got s) (hdone : d ≤ got.length) :
    s.Decode env = .ok payload := by
  obtain ⟨hcount, htake, hequal⟩ := hR.encode_shape d p n shards out hc.encoded hc.count hc.equal
  obtain ⟨full, hfull, hdata⟩ := hR.reconstructs d p n shards out s.chunks hc.encoded hc.count
    hc.equal hc.length (h.survives hcount) (by rw [h.present_eq hcount]; exact hdone)
  have hjoin : (full.take d).map (fun o => o.getD []) = shards.take d := by
    rw [hdata, map_map, ← htake]
    simp
  have hlen : ((shards.take d).flatten).length = d * n := by
    have hmap : (shards.take d).map length = replicate d n := by
      rw [eq_replicate_iff]
      refine ⟨by simp [hc.count], fun m hm => ?_⟩
      obtain ⟨b, hb, rfl⟩ := mem_map.mp hm
      exact hc.equal b (mem_of_mem_take hb)
    rw [length_flatten, hmap, sum_replicate_nat]
  obtain ⟨first, hhead, hfirst⟩ : ∃ first, full.head? = some first ∧ (first.getD []).length = n := by
    obtain ⟨k, rfl⟩ := Nat.exists_eq_succ_of_ne_zero hc.data.ne'
    cases out with
    | nil =>
      rw [length_nil] at hcount
      omega
    | cons b out =>
      cases full with
      | nil => simp at hdata
      | cons o full =>
        have ho : o = some b := by simpa using congrArg head? hdata
        refine ⟨o, rfl, ?_⟩
        rw [ho]
        exact hequal b mem_cons_self
  -- the capacity `Decode` allocates does not overflow
  have hcap : ¬(int64 ((d : Int) * (n : Int)) < 0 ∨ int64 ((d : Int) * (n : Int)) > maxAlloc) := by
    have hle : d * n ≤ n * (d + p) := by
      rw [Nat.mul_comm d n]
      exact Nat.mul_le_mul_left n (Nat.le_add_right d p)
    have hsmall := hc.small
    unfold maxAlloc at hsmall ⊢
    rw [← Int.natCast_mul, int64_of_fits ⟨by omega, by omega⟩]
    omega
  have henough : ¬(full.length : Int) < d := by
    have htaken := congrArg length hdata
    simp only [length_take, length_map, hcount] at htaken
    omega
  have hmlen : ¬((payload.length : Int) ≤ 0 ∨ (payload.length : Int) > (d * n : Nat)) := by
    have hpos := hc.nonempty
    have hroom := hc.room
    omega
  simp only [State.Decode, State.joined, h.preamble, preambleOf, Int.toNat_natCast, hfull, hc.accepted,
    hjoin, hhead, hfirst, hlen, Bool.true_eq_false, if_false, if_neg hcap, if_neg henough, if_neg hmlen,
    hc.joined, ne_eq, not_true_eq_false]

end Collects

/-! ## Runs -/

/-- A relay collected the first `d` different indices it was offered. -/
structure Gathers (pre : Preamble) (d p : Nat) (out : List Bytes) (got : List Nat) (x : Relay) :
    Prop where
  collects : Collects pre d p out got x.state
  offered : ∀ i ∈ x.offered, i < d + p
  subset : ∀ i ∈ got, i ∈ x.offered
  all : got.length < d → ∀ i ∈ x.offered, i ∈ got

namespace Gathers

variable {env : Env} {payload : Bytes} {pre : Preamble} {d p n : Nat} {shards out : List Bytes}
  {got : List Nat} {x : Relay} {i : Nat}

section

variable (h : Gathers pre d p out got x)
include h

theorem of_frame {s : State} (hf : x.state.Frame s) : Gathers pre d p out got { x with state := s } :=
  ⟨h.collects.of_frame hf, h.offered, h.subset, h.all⟩

/-- Before completeness the relay holds every index it was offered. -/
theorem card_eq (hmore : got.length < d) : x.offered.toFinset.card = got.length := by
  have hsame : x.offered.toFinset = got.toFinset := by
    ext i
    rw [mem_toFinset, mem_toFinset]
    exact ⟨h.all hmore i, h.subset i⟩
  rw [hsame, toFinset_card_of_nodup h.collects.nodup]

theorem card_lt_iff : x.offered.toFinset.card < d ↔ got.length < d := by
  constructor
  · intro hcard
    by_contra hdone
    have hsub : got.toFinset ⊆ x.offered.toFinset := by
      intro i hi
      rw [mem_toFinset] at hi ⊢
      exact h.subset i hi
    have hle := Finset.card_le_card hsub
    rw [toFinset_card_of_nodup h.collects.nodup] at hle
    omega
  · intro hmore
    rw [h.card_eq hmore]
    exact hmore

/-- A chunk is offered: the new one is taken, any other is redundant. -/
theorem offer (hpre : pre.dataChunks = d)
    (hhashes : pre.chunkHashes = out.map env.sha256) (hout : out.length = d + p) {data : Bytes}
    (hdata : out[i]? = some data) (peer : PeerID) :
    ∃ got', Gathers pre d p out got'
      { state := (x.state.offer env peer ⟨i⟩ data).1, offered := x.offered ++ [i] } := by
  have hi : i < d + p := by
    rw [← hout]
    exact (List.getElem?_eq_some_iff.mp hdata).1
  have hoffered : ∀ j ∈ x.offered ++ [i], j < d + p := by
    intro j hj
    rcases mem_append.mp hj with hj | hj
    · exact h.offered j hj
    · rw [mem_singleton.mp hj]
      exact hi
  -- an index already held, or one too many, changes nothing
  have hsame : (i ∈ got ∨ d ≤ got.length) → (x.state.offer env peer ⟨i⟩ data).1 = x.state →
      Gathers pre d p out got
        { state := (x.state.offer env peer ⟨i⟩ data).1, offered := x.offered ++ [i] } := by
    intro hold hstate
    rw [hstate]
    refine ⟨h.collects, hoffered, fun j hj => mem_append_left _ (h.subset j hj), fun hmore j hj => ?_⟩
    rcases mem_append.mp hj with hj | hj
    · exact h.all hmore j hj
    · rw [mem_singleton.mp hj]
      exact hold.resolve_right (by omega)
  by_cases hgot : i ∈ got
  · refine ⟨got, hsame (.inl hgot) ?_⟩
    rw [State.offer, h.collects.haveChunk hi, if_pos (by simpa using hgot)]
  have hoffer : (x.state.offer env peer ⟨i⟩ data).1 = (x.state.TakeChunk peer ⟨i⟩ data).state := by
    rw [State.offer, h.collects.haveChunk hi, if_neg (by simpa using hgot),
      h.collects.verifyChunk hi hhashes hdata peer]
  by_cases hmore : got.length < d
  · refine ⟨got ++ [i], ?_⟩
    rw [hoffer, h.collects.takeChunk_new hi hgot hmore]
    refine ⟨h.collects.store hpre hi hgot hmore hdata peer, hoffered, fun j hj => ?_, fun _ j hj => ?_⟩
    · exact mem_append.mpr ((mem_append.mp hj).imp_left (h.subset j))
    · exact mem_append.mpr ((mem_append.mp hj).imp_left (h.all hmore j))
  · refine ⟨got, hsame (.inr (by omega)) ?_⟩
    rw [hoffer, h.collects.takeChunk_redundant hi hout (.inr (by omega))]

theorem step (hpre : pre.dataChunks = d)
    (hhashes : pre.chunkHashes = out.map env.sha256) (hout : out.length = d + p) {origin : State}
    (horigin : origin.chunks = out.map some) (op : RelayOp) :
    ∃ got', Gathers pre d p out got' (x.step env origin op) := by
  cases op with
  | offer peer i =>
    simp only [Relay.step]
    cases hdata : origin.chunks[i]?.join with
    | none => exact ⟨got, h⟩
    | some data =>
      refine h.offer hpre hhashes hout ?_ peer
      rw [horigin, getElem?_map] at hdata
      cases hget : out[i]? with
      | none => rw [hget] at hdata; cases hdata
      | some b => rw [hget] at hdata; exact hdata
  | attachPeer peer => exact ⟨got, h.of_frame ⟨rfl, rfl, rfl, rfl, rfl⟩⟩
  | detachPeer peer completed => exact ⟨got, h.of_frame (State.detachPeer_frame _ peer completed)⟩
  | routingUpdate peer update =>
    exact ⟨got, h.of_frame (State.routingUpdate_frame _ peer (some update))⟩
  | pollChunks o => exact ⟨got, h.of_frame (State.pollChunks_frame _ o)⟩
  | pollRouting force => exact ⟨got, h.of_frame (State.pollRouting_frame _ force)⟩
  | chunkSent peer handle err =>
    exact ⟨got, h.of_frame (State.chunkSent_frame _ peer handle err)⟩

theorem run (hpre : pre.dataChunks = d)
    (hhashes : pre.chunkHashes = out.map env.sha256) (hout : out.length = d + p) {origin : State}
    (horigin : origin.chunks = out.map some) (ops : List RelayOp) :
    ∃ got', Gathers pre d p out got' (exec (Relay.step env origin) x ops) :=
  exec_invariant (I := fun y => ∃ got', Gathers pre d p out got' y) _
    (fun _ op ⟨_, hy⟩ => hy.step hpre hhashes hout horigin op) ⟨got, h⟩ ops

end

end Gathers

/-- The preamble of a coded message survives the wire. -/
theorem unmarshal_preambleOf {env : Env} {payload : Bytes} {d p n : Nat} {shards out : List Bytes}
    (hc : Coded env payload d p n shards out) (hlen : payload.length < 2 ^ 31)
    {codec : ProtoCodec PbPreamble} (hcodec : codec.RoundTrips) {wire : Bytes}
    (hwire : (preambleOf env payload d p out).marshal codec = some wire) :
    unmarshal codec wire = some (preambleOf env payload d p out) := by
  have htotal := hc.total
  have hpb : ofPb (preambleOf env payload d p out).toPb = preambleOf env payload d p out := by
    simp only [toPb, ofPb, preambleOf]
    rw [int32_of_fits (by omega) (by omega), int32_of_fits (by omega) (by omega),
      int32_of_fits (by omega) (by exact_mod_cast hlen)]
  rw [unmarshal, hcodec _ _ hwire, Option.map_some, hpb]

/-- A relay built from that preamble has collected nothing. -/
theorem newRelay_spec {env : Env} {payload : Bytes} {d p n : Nat} {shards out : List Bytes}
    (hc : Coded env payload d p n shards out) (hout : out.length = d + p) (config : Config) (seed : UInt64) :
    ∃ relay, newRelayStrategy config seed (some (preambleOf env payload d p out)) = .ok relay ∧
      Gathers (preambleOf env payload d p out) d p out [] { state := relay } := by
  have hd := hc.data
  have htot := hc.total
  have htotal : (preambleOf env payload d p out).totalChunks = (d : Int) + p := by
    show int64 ((d : Int) + p) = d + p
    exact int64_of_fits ⟨by omega, by omega⟩
  have hnat : (preambleOf env payload d p out).totalChunks.toNat = d + p := by
    rw [htotal]
    omega
  have hwell : ¬((preambleOf env payload d p out).dataChunks ≤ 0 ∨
      (preambleOf env payload d p out).parityChunks < 0 ∨
      ((preambleOf env payload d p out).chunkHashes.length : Int) ≠ (preambleOf env payload d p out).totalChunks) := by
    rw [htotal]
    simp only [preambleOf, length_map, hout]
    omega
  refine ⟨_, if_neg hwell, ?_, (by simp), (by simp), by simp⟩
  refine ⟨rfl, ?_, .nil, (by simp), Nat.zero_le d, ?_, fun i hi => ?_, ?_, fun i => ?_, ?_⟩
  · dsimp only
    rw [htotal]
  · rw [length_replicate, hnat]
  · simp [hnat, hi]
  · rw [hnat, Bitmap.length_new, Bitmap.bytesFor]
    omega
  · rw [Bitmap.get_new]
    simp
  · simp [hd.ne']

/-- **A relay recovers the payload.**  Whenever an origin is built for a payload, every relay built from
its preamble on the wire, offered the origin's chunks in any order, with any repetitions, from any peers
and in between any other calls, accepts each index the first time it is offered until it has
`DataChunks` different ones, rejects every repetition and everything after that, reports completeness
exactly on the `DataChunks`-th different index, and from then on decodes the payload. -/
theorem relay_recovers_payload (env : Env) (hR : env.reedSolomon.Lawful)
    (codec : ProtoCodec PbPreamble) (hcodec : codec.RoundTrips) (config relayConfig : Config)
    (payload : Bytes) (hlen : payload.length < 2 ^ 31) (origin : State)
    (horigin : newOriginStrategy env config payload = .ok origin) (wire : Bytes)
    (hwire : origin.preamble.marshal codec = some wire) (seed : UInt64) :
    ∃ preamble relay, unmarshal codec wire = some preamble ∧
      newRelayStrategy relayConfig seed (some preamble) = .ok relay ∧
      ∀ ops : List RelayOp,
        let x := exec (Relay.step env origin) { state := relay } ops
        let distinct := x.offered.toFinset.card
        (∀ (peer : PeerID) (i : Nat) (data : Bytes), origin.chunks[i]? = some (some data) →
          (i ∉ x.offered → (distinct : Int) < origin.preamble.dataChunks →
            x.state.HaveChunk ⟨i⟩ = false ∧ x.state.VerifyChunk env peer ⟨i⟩ data = .accepted ∧
            (x.state.TakeChunk peer ⟨i⟩ data).verdict = .accepted ∧
            (x.state.TakeChunk peer ⟨i⟩ data).complete =
              decide ((distinct : Int) + 1 = origin.preamble.dataChunks)) ∧
          (i ∈ x.offered ∨ origin.preamble.dataChunks ≤ distinct →
            (x.state.offer env peer ⟨i⟩ data).2 = (.redundant, false) ∧
            (x.state.TakeChunk peer ⟨i⟩ data).verdict = .redundant ∧
            (x.state.TakeChunk peer ⟨i⟩ data).complete = false)) ∧
        (origin.preamble.dataChunks ≤ distinct → x.state.Decode env = .ok payload) := by
  obtain ⟨d, p, n, shards, out, hc, hpre, hchunks, _⟩ := newOrigin_spec hR hlen horigin
  obtain ⟨hout, _, _⟩ := hR.encode_shape d p n shards out hc.encoded hc.count hc.equal
  rw [hpre] at hwire ⊢
  obtain ⟨relay, hrelay, hempty⟩ := newRelay_spec hc hout relayConfig seed
  refine ⟨_, relay, unmarshal_preambleOf hc hlen hcodec hwire, hrelay, fun ops => ?_⟩
  intro x distinct
  obtain ⟨got, h⟩ := hempty.run rfl rfl hout hchunks ops
  have hdata : ∀ {i : Nat} {data : Bytes}, origin.chunks[i]? = some (some data) →
      out[i]? = some data := by
    intro i data hget
    rw [hchunks, getElem?_map] at hget
    exact Option.map_injective (Option.some_injective _) hget
  have hlt : (distinct : Int) < (preambleOf env payload d p out).dataChunks ↔ got.length < d := by
    rw [← h.card_lt_iff]
    exact Int.ofNat_lt
  refine ⟨fun peer i data hget => ⟨fun hnew hmore => ?_, fun hold => ?_⟩, fun hdone => ?_⟩
  · -- a new index before completeness
    have hmore := hlt.mp hmore
    have hi : i < d + p := by
      rw [← hout]
      exact (List.getElem?_eq_some_iff.mp (hdata hget)).1
    have hgot : i ∉ got := fun hmem => hnew (h.subset i hmem)
    have hstore := h.collects.store rfl hi hgot hmore (hdata hget) peer
    refine ⟨?_, h.collects.verifyChunk hi rfl (hdata hget) peer, ?_, ?_⟩
    · rw [h.collects.haveChunk hi]
      simpa using hgot
    · rw [h.collects.takeChunk_new hi hgot hmore]
    rw [h.collects.takeChunk_new hi hgot hmore]
    dsimp only
    rw [hstore.complete, decide_eq_decide, show distinct = got.length from h.card_eq hmore]
    simp only [preambleOf, length_append, length_singleton]
    omega
  · -- a repetition, or an index too many
    have hi : i < d + p := by
      rw [← hout]
      exact (List.getElem?_eq_some_iff.mp (hdata hget)).1
    have hold : i ∈ got ∨ d ≤ got.length := by
      by_cases hmore : got.length < d
      · rcases hold with hseen | hdone
        · exact .inl (h.all hmore i hseen)
        · exact absurd (hlt.mpr hmore) (by omega)
      · exact .inr (by omega)
    have htake : x.state.TakeChunk peer ⟨i⟩ data =
        { state := x.state, verdict := .redundant, complete := false, cancelsGroup := false } :=
      h.collects.takeChunk_redundant hi hout hold peer
    refine ⟨?_, by rw [htake], by rw [htake]⟩
    rw [State.offer, h.collects.verifyChunk hi rfl (hdata hget) peer, htake]
    split <;> rfl
  · refine h.collects.decode hR hc ?_
    by_contra hmore
    exact absurd (hlt.mpr (by omega)) (by omega)

/-! ### A parity code -/

/-- Bytewise sum of two shards. -/
def xorShards (a b : Bytes) : Bytes := zipWith (· ^^^ ·) a b

theorem xorShards_cancel {a b : Bytes} (h : a.length = b.length) :
    xorShards a (xorShards a b) = b ∧ xorShards b (xorShards a b) = a := by
  induction a generalizing b with
  | nil =>
    rw [eq_nil_of_length_eq_zero h.symm]
    exact ⟨rfl, rfl⟩
  | cons x a ih =>
    cases b with
    | nil => cases h
    | cons y b =>
      obtain ⟨hb, ha⟩ := ih (Nat.succ.inj h)
      simp only [xorShards, zipWith_cons_cons] at ha hb ⊢
      rw [ha, hb, ← UInt8.xor_assoc, UInt8.xor_self, UInt8.zero_xor, UInt8.xor_comm x y, ← UInt8.xor_assoc,
        UInt8.xor_self, UInt8.zero_xor]
      exact ⟨rfl, rfl⟩

/-- The Reed-Solomon code with two data shards and one parity shard, their sum. -/
def parity : ReedSolomon where
  new d p := decide (d = 2 ∧ p = 1)
  encode
    | 2, 1, [a, b, _] => some [a, b, xorShards a b]
    | _, _, _ => none
  reconstructData
    | 2, 1, [some a, some b, c] => some [some a, some b, c]
    | 2, 1, [some a, none, some c] => some [some a, some (xorShards a c), some c]
    | 2, 1, [none, some b, some c] => some [some (xorShards b c), some b, some c]
    | _, _, _ => none

theorem parity_encode {d p : Nat} {shards out : List Bytes} (h : parity.encode d p shards = some out) :
    d = 2 ∧ p = 1 ∧ ∃ a b c, shards = [a, b, c] ∧ out = [a, b, xorShards a b] := by
  simp only [parity] at h
  split at h
  · rename_i a b c
    exact ⟨rfl, rfl, a, b, c, rfl, (Option.some.inj h).symm⟩
  · cases h

theorem parity_lawful : parity.Lawful where
  new_bounds d p h := by
    have h : d = 2 ∧ p = 1 := of_decide_eq_true h
    omega
  encode_shape d p n shards out h hcount hequal := by
    obtain ⟨rfl, rfl, a, b, c, rfl, rfl⟩ := parity_encode h
    simp only [mem_cons, not_mem_nil, or_false, forall_eq_or_imp, forall_eq] at hequal ⊢
    refine ⟨rfl, rfl, hequal.1, hequal.2.1, ?_⟩
    simp [xorShards, hequal.1, hequal.2.1]
  reconstructs d p n shards out rest h hcount hequal hn hsurvives hpresent := by
    obtain ⟨rfl, rfl, a, b, c, rfl, rfl⟩ := parity_encode h
    have hlen : a.length = b.length := (hequal a (by simp)).trans (hequal b (by simp)).symm
    obtain ⟨hb, ha⟩ := xorShards_cancel hlen
    -- two of the three shards are there
    cases hsurvives with
    | cons h₁ hrest =>
      cases hrest with
      | cons h₂ hrest =>
        cases hrest with
        | cons h₃ hrest =>
          cases hrest
          rcases h₁ with rfl | rfl <;> rcases h₂ with rfl | rfl <;> rcases h₃ with rfl | rfl <;>
            simp_all [present, parity]

/-- The sum of the bytes as a hash, and the parity code. -/
def parityEnv : Env := { reedSolomon := parity, sha256 := fun b => [b.foldl (· + ·) 0] }

/-- Two data chunks and one parity chunk. -/
def twoAndOne : Config := { dataShards := 2, parityShards := 1 }

/-- The preamble of the payload `ethp2p!`, and its protobuf encoding. -/
def parityPreamble : PbPreamble :=
  { numData := 2, numParity := 1, length := 7, hashes := [[177], [195], [20]], hash := [116] }

def parityWire : Bytes := [8, 2, 16, 1, 24, 7, 34, 1, 177, 34, 1, 195, 34, 1, 20, 42, 1, 116]

/-- A codec that knows this message. -/
def parityCodec : ProtoCodec PbPreamble where
  marshal a := if a = parityPreamble then some parityWire else none
  unmarshal bytes := if bytes = parityWire then some parityPreamble else none

theorem parityCodec_roundTrips : parityCodec.RoundTrips := by
  intro a bytes h
  simp only [parityCodec, Option.ite_none_right_eq_some, Option.some.injEq] at h ⊢
  exact ⟨h.2.symm, h.1.symm⟩

/-- The payload `ethp2p!`: the parity chunk and one data chunk are enough. -/
theorem relay_recovers_payload_parity :
    ∃ origin relay : State,
      newOriginStrategy parityEnv twoAndOne [101, 116, 104, 112, 50, 112, 33] = .ok origin ∧
      ((Relay.step parityEnv origin { state := relay } (.offer "a" 2)).state.TakeChunk "b" ⟨0⟩
        [101, 116, 104, 112]).complete = true ∧
      (exec (Relay.step parityEnv origin) { state := relay } [.offer "a" 2, .offer "b" 0]).state.Decode
        parityEnv = .ok [101, 116, 104, 112, 50, 112, 33] := by
  obtain ⟨origin, horigin, hchunks, hwire, hdata⟩ : ∃ origin,
      newOriginStrategy parityEnv twoAndOne [101, 116, 104, 112, 50, 112, 33] = .ok origin ∧
      origin.chunks = [some [101, 116, 104, 112], some [50, 112, 33, 0], some [87, 4, 73, 112]] ∧
      origin.preamble.marshal parityCodec = some parityWire ∧ origin.preamble.dataChunks = 2 :=
    ⟨_, rfl, by decide, by decide, by decide⟩
  obtain ⟨preamble, relay, _, _, hrun⟩ := relay_recovers_payload parityEnv parity_lawful parityCodec
    parityCodec_roundTrips twoAndOne twoAndOne _ (by decide) origin horigin _ hwire 0
  refine ⟨origin, relay, horigin, ?_, ?_⟩
  · obtain ⟨_, _, _, hcomplete⟩ := ((hrun [.offer "a" 2]).1 "b" 0 [101, 116, 104, 112]
      (by rw [hchunks]; rfl)).1 (by simp [Relay.step, hchunks, exec]) (by rw [hdata]; simp [Relay.step, hchunks, exec])
    refine hcomplete.trans ?_
    rw [hdata]
    simp [Relay.step, hchunks, exec]
  · refine (hrun [.offer "a" 2, .offer "b" 0]).2 ?_
    rw [hdata]
    simp [Relay.step, hchunks, exec]

/-! ### A repetition code -/

/-- The Reed-Solomon code with one data shard: every shard is a copy of it. -/
def repetition : ReedSolomon where
  new d p := decide (d = 1 ∧ 0 ≤ p ∧ p ≤ 65535)
  encode d p shards := if d = 1 then shards.head?.map (replicate (d + p)) else none
  reconstructData d p shards :=
    if d = 1 then (shards.find? (·.isSome)).map (replicate (d + p)) else none

/-- The identity as a hash, and the repetition code. -/
def copies : Env := { reedSolomon := repetition, sha256 := id }

/-- Chunks of four bytes: a payload of three is one data chunk and one parity chunk. -/
def fourBytes : Config := { chunkLen := 4 }

/-- The preamble of the payload `[7, 8, 9]`. -/
def copiesPreamble : PbPreamble :=
  { numData := 1, numParity := 1, length := 3, hashes := [[7, 8, 9, 0], [7, 8, 9, 0]],
    hash := [7, 8, 9] }

/-- A codec for this one message. -/
def copiesCodec : ProtoCodec PbPreamble where
  marshal a := if a = copiesPreamble then some [1] else none
  unmarshal bytes := if bytes = [1] then some copiesPreamble else none

/-- A codec for chunk indices of one byte. -/
def byteCodec : ProtoCodec Int where
  marshal i := some [UInt8.ofNat i.toNat]
  unmarshal data := data.head?.map fun b => (b.toNat : Int)

/-- The scheme whose messages are `[7, 8, 9]`. -/
def copiesScheme : Scheme State ChunkIdent Bitmap Preamble :=
  scheme copies byteCodec copiesCodec fourBytes

end EthP2P.Rs
