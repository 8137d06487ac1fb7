/-
# EthP2P.Rs.Dispatch — which chunk goes to which peer

`PollChunks` gives every peer one turn.  In its turn a peer gets the first chunk of the planner that it may
have; the search takes out what the peer may not have and puts it back afterwards.

`Turn` says what a turn is for: the peer gets a chunk exactly when one of the held chunks is eligible for it, of
the eligible ones none comes before it, and nothing else changes.  `Turns` chains the turns of one poll.  In
every state that calls can reach a poll is such a chain (`polls_in_turns`), because the planner is in order in
all of them.
-/
import EthP2P.Rs.Inventory

namespace EthP2P.Rs

open Lib Wire Broadcast PeerState EmitPlanner List

namespace State

/-! ## What a turn is for -/

/-- Chunk `i`, held and planned as `e`, may go to the peer: the peer is not known to have it, it is not under
way to it, and a relay has not used up its budget. -/
structure Eligible (s : State) (ps : PeerState) (i : Nat) (e : EmitEntry) : Prop where
  held : (s.chunks.getD i none).isSome = true
  planned : s.emitPlanner.lookup i = some e
  unknown : ps.bitmap.get i = false
  free : ps.inflight.getD i 0 ≤ 0
  budget : s.isOrigin = false → e.sent < s.config.forwardMultiplier

/-- One peer's turn. -/
inductive Turn (s : State) (peer : PeerID) : List (ChunkDispatch ChunkIdent) → State → Prop where
  /-- The peer is not attached, or has completed. -/
  | absent (h : ∀ ps, s.peers.get peer = some ps → ps.completed = true) : Turn s peer [] s
  /-- No chunk is eligible; the planner stores the same entries. -/
  | idle (ps : PeerState) (planner : EmitPlanner) (attached : s.peers.get peer = some ps)
      (active : ps.completed = false) (none : ∀ i e, ¬ s.Eligible ps i e)
      (entries : ∀ id, planner.lookup id = s.emitPlanner.lookup id) :
      Turn s peer [] { s with emitPlanner := planner }
  /-- Chunk `i` goes to the peer: no eligible chunk is strictly below it in the order of the planner. -/
  | dispatch (ps : PeerState) (planner : EmitPlanner) (i : Nat) (e : EmitEntry) (data : Bytes)
      (attached : s.peers.get peer = some ps) (active : ps.completed = false) (eligible : s.Eligible ps i e)
      (least : ∀ j e', s.Eligible ps j e' → ¬ e'.key < e.key) (held : s.chunks.getD i none = some data)
      (entries : ∀ id, planner.lookup id =
        if id = i then some { e with times := e.times + 1 } else s.emitPlanner.lookup id) :
      Turn s peer [⟨peer, ⟨i⟩, data⟩]
        { s with
          emitPlanner := planner
          peers := s.peers.set peer { ps with inflight := ps.inflight.modify i (· + 1) } }

/-- The turns of the peers, one after another. -/
inductive Turns : State → List PeerID → List (ChunkDispatch ChunkIdent) → State → Prop where
  | nil (s : State) : Turns s [] [] s
  | cons {s t u : State} {peer : PeerID} {peers : List PeerID} {d ds : List (ChunkDispatch ChunkIdent)}
      (turn : Turn s peer d t) (rest : Turns t peers ds u) : Turns s (peer :: peers) (d ++ ds) u

section
variable {s t u : State} {m m' : Int → Option EmitEntry} {ps : PeerState}

variable {d : List (ChunkDispatch ChunkIdent)}

/-- A turn changes no peer but its own, and that one neither comes nor goes nor completes. -/
theorem Turn.standing {peer : PeerID} (h : s.Turn peer d t) (q : PeerID) :
    (t.peers.get q).map completed = (s.peers.get q).map completed := by
  cases h with
  | absent h | idle ps planner attached active none entries => rfl
  | dispatch ps planner i e data attached active eligible least held entries =>
    dsimp only
    rw [Map.get_set]
    split
    · rename_i hq
      rw [hq, attached]
      rfl
    · rfl

/-- The dispatches of a turn: at most one, to the peer, which is attached and has not completed. -/
theorem Turn.dispatches {peer : PeerID} (h : s.Turn peer d t) :
    d.map (·.peer) = [] ∨ d.map (·.peer) = [peer] ∧ (s.peers.get peer).map completed = some false := by
  cases h with
  | absent h | idle ps planner attached active none entries => exact .inl rfl
  | dispatch ps planner i e data attached active eligible least held entries =>
    refine .inr ⟨rfl, ?_⟩
    rw [attached, Option.map_some, active]

/-- The receivers of a poll are some of the peers, in their order, attached and not completed. -/
theorem Turns.receivers {peers : List PeerID} {ds : List (ChunkDispatch ChunkIdent)} (h : Turns s peers ds t) :
    (ds.map (·.peer)).Sublist peers ∧ ∀ d ∈ ds, (s.peers.get d.peer).map completed = some false := by
  induction h with
  | nil s => exact ⟨.refl _, by simp⟩
  | @cons s t u peer peers d ds turn rest ih =>
    obtain ⟨hsub, hstanding⟩ := ih
    have hrest : ∀ x ∈ ds, (s.peers.get x.peer).map completed = some false := by
      intro x hx
      rw [← turn.standing]
      exact hstanding x hx
    rw [map_append]
    rcases turn.dispatches with hnone | ⟨hone, hactive⟩
    · rw [hnone, nil_append]
      refine ⟨hsub.cons peer, fun x hx => ?_⟩
      rw [map_eq_nil_iff.mp hnone] at hx
      exact hrest x hx
    rw [hone]
    refine ⟨hsub.cons_cons peer, fun x hx => ?_⟩
    rcases mem_append.mp hx with hx | hx
    · have hpeer : x.peer ∈ d.map (·.peer) := mem_map_of_mem hx
      rw [hone] at hpeer
      rw [mem_singleton.mp hpeer]
      exact hactive
    · exact hrest x hx

/-! ## The search -/

/-- In a planner in order the search finds nothing only if there is nothing to find, and what it finds is not
above anything else it could have found. -/
theorem search_least (ps : PeerState) (fuel : Nat) {planner : EmitPlanner} (skipped : List EmitEntry)
    (hh : planner.Holds m') (ho : planner.Ordered) (hfuel : planner.len < fuel)
    (hskip : ∀ id e, m id = some e → m' id = some e ∨ s.ineligible ps e = true) :
    (s.search ps fuel planner skipped).2.1.Ordered ∧
      ((s.search ps fuel planner skipped).1 = none → ∀ id e, m id = some e → s.ineligible ps e = true) ∧
      ∀ ec, (s.search ps fuel planner skipped).1 = some ec →
        ∀ id e, m id = some e → s.ineligible ps e = false → ec.key ≤ e.key := by
  induction fuel generalizing planner m' skipped with
  | zero => omega
  | succ fuel ih =>
    unfold search
    split
    · -- the planner is empty, so everything was skipped
      rename_i htop
      refine ⟨ho, fun _ id e he => ?_, by simp⟩
      rcases hskip id e he with hm' | hinel
      · obtain ⟨i, _, hi, _⟩ := hh.position hm'
        rw [head?_eq_none_iff.mp htop] at hi
        cases hi
      · exact hinel
    rename_i ec htop
    split
    · rename_i hinel
      obtain ⟨planner', hpop, ho', hlen⟩ := ho.popFront htop
      obtain ⟨hec, hh'⟩ := hh.popFront hpop
      rw [hpop]
      apply ih _ hh' ho' (by omega)
      intro id e he
      rcases hskip id e he with hm' | hinel'
      · by_cases hid : id = ec.idx
        · rw [hid, hec] at hm'
          rw [← Option.some.inj hm']
          exact .inr hinel
        · rw [Function.update_of_ne hid]
          exact .inl hm'
      · exact .inr hinel'
    · rename_i helig
      refine ⟨ho, by simp, ?_⟩
      intro ec' hec' id e he hel
      cases hec'
      rcases hskip id e he with hm' | hinel
      · exact ho.top_le hh htop hm'
      · rw [hel] at hinel
        cases hinel

theorem Sound.eligible_iff (h : s.Sound m) {i : Nat} {e : EmitEntry} :
    s.Eligible ps i e ↔ m i = some e ∧ s.ineligible ps e = false := by
  have hmodel : m i = s.emitPlanner.lookup i := h.planner.model i
  constructor
  · intro hel
    have he : m i = some e := hmodel.trans hel.planned
    have hidx : e.idx = i := h.planner.idx_eq he
    refine ⟨he, ?_⟩
    unfold ineligible
    rw [hidx, Int.toNat_natCast, hel.unknown, Bool.false_or, Bool.or_eq_false_iff, Bool.and_eq_false_iff]
    refine ⟨decide_eq_false (by have := hel.free; omega), ?_⟩
    cases horigin : s.isOrigin with
    | true => exact .inl rfl
    | false =>
      have := hel.budget horigin
      exact .inr (decide_eq_false (by omega))
  rintro ⟨he, hel⟩
  have hidx : e.idx = i := h.planner.idx_eq he
  unfold ineligible at hel
  rw [hidx, Int.toNat_natCast, Bool.or_eq_false_iff, Bool.or_eq_false_iff, Bool.and_eq_false_iff] at hel
  refine ⟨?_, hmodel.symm.trans he, hel.1.1, ?_, fun hrelay => ?_⟩
  · rw [← h.planned, he]
    rfl
  · have := of_decide_eq_false hel.1.2
    omega
  rcases hel.2 with horigin | hbudget
  · rw [hrelay] at horigin
    cases horigin
  · have := of_decide_eq_false hbudget
    omega

/-- **One turn of `PollChunks`**, in a state whose planner is in order. -/
theorem Sound.turn (h : s.Sound m) (ho : s.emitPlanner.Ordered) (ds : List (ChunkDispatch ChunkIdent))
    (peer : PeerID) :
    ∃ d t, State.poll (ds, s) peer = (ds ++ d, t) ∧ s.Turn peer d t ∧ (∃ m', t.Sound m') ∧ t.emitPlanner.Ordered := by
  have hsame : s.Turn peer [] s → ∃ d t, (ds, s) = (ds ++ d, t) ∧ s.Turn peer d t ∧ (∃ m', t.Sound m') ∧
      t.emitPlanner.Ordered := fun hturn => ⟨[], s, by rw [append_nil], hturn, ⟨m, h⟩, ho⟩
  unfold State.poll
  dsimp only
  split
  · rename_i hget
    apply hsame
    refine .absent fun ps hps => ?_
    rw [hget] at hps
    cases hps
  rename_i ps hget
  split
  · rename_i hcompleted
    apply hsame
    refine .absent fun ps' hps' => ?_
    cases hget.symm.trans hps'
    exact hcompleted
  rename_i hactive
  rw [Bool.not_eq_true] at hactive
  have hnone : restored m [] = m := rfl
  obtain ⟨⟨m'', hh'', hrest⟩, hfound⟩ :=
    search_restores (s := s) ps (s.emitPlanner.len + 1) h.planner hnone fun _ _ h => h
  obtain ⟨hordered, hempty, hleast⟩ := search_least (s := s) (m := m) ps
    (s.emitPlanner.len + 1) [] h.planner ho (Nat.lt_succ_self _) fun _ _ he => .inl he
  unfold allocate
  dsimp only
  generalize s.search ps (s.emitPlanner.len + 1) s.emitPlanner [] = found at *
  have hback : (found.2.2.foldl Insert found.2.1).Holds m := by
    rw [← hrest]
    exact holds_restored found.2.2 hh''
  have hplanner := hordered.foldl_insert hh'' found.2.2
  cases hf : found.1 with
  | none =>
    have hround : s.Round m peer [] _ m := .none _ hback
    refine ⟨[], _, by rw [append_nil], .idle ps _ hget hactive ?_ ?_, ⟨m, (h.round hround).1⟩,
      hplanner⟩
    · intro i e hel
      obtain ⟨he, hel⟩ := h.eligible_iff.mp hel
      have := hempty hf i e he
      rw [hel] at this
      cases this
    · intro id
      rw [← hback.model, h.planner.model]
  | some ec =>
    obtain ⟨hplanned, heligible⟩ := hfound ec hf
    obtain ⟨i, hi⟩ := Int.eq_ofNat_of_zero_le (h.inRange _ _ hplanned).1
    have hround : s.Round m peer _ _ _ := .dispatch ps ec _ ((s.chunks.getD ec.idx.toNat none).getD []) hget
      hplanned heligible (hback.addTimes hplanned 1)
    have hsound := (h.round hround).1
    have hnext := hplanner.addTimes hback ec.idx 1
    have htimes := hback.addTimes hplanned 1
    dsimp only at hsound ⊢
    rw [hi] at hplanned htimes hsound hnext ⊢
    rw [Int.toNat_natCast] at hsound ⊢
    have hel : s.Eligible ps i ec := h.eligible_iff.mpr ⟨hplanned, heligible⟩
    obtain ⟨data, hdata⟩ := Option.isSome_iff_exists.mp hel.held
    rw [hdata, Option.getD_some]
    refine ⟨_, _, rfl, .dispatch ps _ i ec data hget hactive hel ?_ hdata ?_, ⟨_, hsound⟩, hnext⟩
    · intro j e' hel'
      obtain ⟨he', hel'⟩ := h.eligible_iff.mp hel'
      exact not_lt.mpr (hleast ec hf j e' he' hel')
    intro id
    change lookup (addTimes _ (i : Int) 1) id = _
    rw [← htimes.model, Function.update_apply, h.planner.model, ← hi]

theorem Sound.turns (h : s.Sound m) (ho : s.emitPlanner.Ordered) (ds : List (ChunkDispatch ChunkIdent))
    (peers : List PeerID) :
    ∃ d, (peers.foldl State.poll (ds, s)).1 = ds ++ d ∧ Turns s peers d (peers.foldl State.poll (ds, s)).2 ∧
      (peers.foldl State.poll (ds, s)).2.emitPlanner.Ordered := by
  induction peers generalizing s m ds with
  | nil => exact ⟨[], by simp, .nil s, ho⟩
  | cons peer peers ih =>
    obtain ⟨d, t, heq, hturn, ⟨m', hsound⟩, hordered⟩ := h.turn ho ds peer
    obtain ⟨d', hds, hturns, hend⟩ := ih hsound hordered (ds ++ d)
    rw [foldl_cons, heq]
    exact ⟨d ++ d', by rw [hds, append_assoc], .cons hturn hturns, hend⟩

/-! ## The planner stays in order -/

theorem Sound.ordered_call (h : s.Sound m) (ho : s.emitPlanner.Ordered) (c : Call) :
    (s.call c).emitPlanner.Ordered := by
  cases c with
  | attach peer => exact ho
  | detach peer completed =>
    change (s.DetachPeer peer completed).emitPlanner.Ordered
    unfold DetachPeer
    split
    · exact ho
    split <;> exact ho
  | take peer chunkID data =>
    change (s.TakeChunk peer chunkID data).state.emitPlanner.Ordered
    rcases take_cases s peer chunkID data with ⟨hsame, _⟩ | ⟨_, hstores⟩
    · rw [hsame]
      exact ho
    · rw [hstores.planner]
      exact ho.insert h.planner _
  | routing peer update =>
    change (s.RoutingUpdate peer update).1.emitPlanner.Ordered
    unfold RoutingUpdate
    split <;> exact ho
  | poll o => exact (h.turns ho [] _).choose_spec.2.2
  | pollRouting force =>
    change (s.PollRouting force).2.emitPlanner.Ordered
    unfold PollRouting
    split <;> exact ho
  | sent peer handle err =>
    change (s.ChunkSent peer handle err).emitPlanner.Ordered
    rcases chunkSent_cases s peer handle err with hsame | ⟨idx, ps, hhandle, hf⟩
    · rw [hsame]
      exact ho
    rw [hf.chunkSent hhandle]
    change (s.replanned idx err).Ordered
    unfold State.replanned
    cases err with
    | none =>
      dsimp only
      split
      · exact ho
      · exact ho.addSent _ _
    | some err => exact ho.addTimes h.planner _ _

theorem ordered_started {env : Env} (h : s.Started env) : s.emitPlanner.Ordered := by
  have hempty : Ordered {} := by
    intro k hk0 hk
    cases hk
  rcases h with ⟨config, payload, horigin⟩ | ⟨config, seed, preamble, hrelay⟩
  · obtain ⟨pre, c, msg, shards, out, _, _, _, _, _, _, _, _, _, hplanner, _⟩ := newOrigin_calls horigin
    have hentries := hempty.foldl_insert holds_empty ((range out.length).map fun i : Nat => { idx := (i : Int) })
    rw [foldl_map] at hentries
    rw [hplanner]
    exact hentries
  unfold newRelayStrategy at hrelay
  split at hrelay
  · cases hrelay
  split at hrelay
  · cases hrelay
  · cases hrelay
    exact hempty

end

/-- **What `PollChunks` does.**  In every state that calls on a new strategy can reach, a poll is a chain of
turns of all its peers; its receivers are distinct, attached, and have not completed. -/
theorem polls_in_turns {env : Env} (hR : env.reedSolomon.Fills) {s : State} (hs : s.Started env)
    (calls : List Call) (o : Order PeerID) :
    let t := exec call s calls
    Turns t (t.peers.range o) (t.PollChunks o).1 (t.PollChunks o).2 ∧
      (∀ peer, peer ∈ t.peers.range o ↔ (t.peers.get peer).isSome = true) ∧
      ((t.PollChunks o).1.map (·.peer)).Nodup ∧
      ∀ d ∈ (t.PollChunks o).1, (t.peers.get d.peer).map completed = some false := by
  intro t
  have hreach : (∃ m, t.Sound m) ∧ t.emitPlanner.Ordered := by
    refine exec_invariant (I := fun t => (∃ m, t.Sound m) ∧ t.emitPlanner.Ordered) call ?_
      ⟨hs.sound hR, ordered_started hs⟩ calls
    rintro t c ⟨⟨m, hm⟩, ho⟩
    exact ⟨hm.call c, hm.ordered_call ho c⟩
  obtain ⟨⟨m, hm⟩, ho⟩ := hreach
  obtain ⟨d, hd, hturns, _⟩ := hm.turns ho [] (t.peers.range o)
  rw [nil_append] at hd
  rw [← hd] at hturns
  obtain ⟨hsub, hactive⟩ := hturns.receivers
  refine ⟨hturns, fun peer => ?_, hsub.nodup (Map.range_nodup o _), hactive⟩
  rw [Map.mem_range, Map.mem_keys, Option.isSome_iff_exists]

/-- A relay with one chunk and two peers: each gets it. -/
theorem polls_in_turns_two :
    let calls : List Call := [.take "b" ⟨0⟩ [7], .attach "a", .attach "c"]
    let t := exec call (smallRelay {}) calls
    ((t.PollChunks (.stored PeerID)).1.map fun d => (d.chunkID.index, d.data)) = [(0, [7]), (0, [7])] ∧
      Turns t (t.peers.range (.stored PeerID)) (t.PollChunks (.stored PeerID)).1 (t.PollChunks (.stored PeerID)).2 ∧
      (∀ peer, peer ∈ t.peers.range (.stored PeerID) ↔ (t.peers.get peer).isSome = true) ∧
      ((t.PollChunks (.stored PeerID)).1.map (·.peer)).Nodup ∧
      ∀ d ∈ (t.PollChunks (.stored PeerID)).1, (t.peers.get d.peer).map completed = some false := by
  intro calls t
  have hR : (Env.mk repetition fun _ => []).reedSolomon.Fills := repetition_fills
  exact ⟨by decide +kernel, polls_in_turns hR (smallRelay_started _ {}) calls (.stored PeerID)⟩

end State

end EthP2P.Rs
