/-
# EthP2P.Rs.Ledger — the planner's counters against what was sent

`Times` counts the allocations of a chunk and `Sent` its confirmed sends; the peers' counters say which sends
are under way.  A `Ledger` keeps beside the strategy what really happened: the dispatches that have not been
reported, and the chunks reported as sent.

The two agree (`counters_agree`) as long as no peer loses its state, by a detachment or by being attached anew,
while a dispatch to it is unreported: the report then finds no counter to undo (`failure_leaves_trace`).

The forward budget is checked against confirmed sends only, and so two dispatches of the last one exceed it
(`budget_exceeded`).  A relay sends a chunk as often as configured (`forwards_within_budget`) as long as a poll finds,
before each peer's turn, that what the peer may get has room for one more dispatch beside those unreported.
-/
import EthP2P.Rs.Calls

namespace EthP2P.Rs

open Lib Wire Broadcast Function State List

structure Ledger where
  state : State
  /-- The dispatches not yet reported. -/
  unreported : List (PeerID × ChunkHandle) := []
  /-- The chunks of the dispatches reported without an error. -/
  delivered : List ChunkHandle := []

namespace Ledger

/-- A dispatch as it will be reported. -/
def due (d : ChunkDispatch ChunkIdent) : PeerID × ChunkHandle := (d.peer, d.chunkID.handle)

def call (w : Ledger) (c : Call) : Ledger where
  state := w.state.call c
  unreported := match c with
    | .poll o => w.unreported ++ (w.state.PollChunks o).1.map due
    | .sent peer handle _ => w.unreported.erase (peer, handle)
    | _ => w.unreported
  delivered := match c with
    | .sent _ handle none => handle :: w.delivered
    | _ => w.delivered

/-- One peer's turn in a poll. -/
def turn (w : Ledger) (peer : PeerID) : Ledger :=
  let (ds, t) := State.poll ([], w.state) peer
  { w with state := t, unreported := w.unreported ++ ds.map due }

/-- The dispatches of a chunk that are not yet reported. -/
def pending (w : Ledger) (i : Nat) : Nat := w.unreported.countP (·.2 == i)

/-- The dispatches of a chunk that were reported without an error. -/
def successes (w : Ledger) (i : Nat) : Nat := w.delivered.count i

/-- A report is of a dispatch that has not been reported. -/
def Reports (w : Ledger) : Call → Prop
  | .sent peer handle _ => (peer, handle) ∈ w.unreported
  | _ => True

/-- No peer is detached or attached anew while a dispatch to it is unreported. -/
def Settled (w : Ledger) : Call → Prop
  | .attach peer => ∀ r ∈ w.unreported, r.1 ≠ peer
  | .detach peer completed => completed = true ∨ ∀ r ∈ w.unreported, r.1 ≠ peer
  | _ => True

/-! ## The counters -/

/-- The planner's counters and the peers' are those of the ledger. -/
structure Agrees (w : Ledger) (m : Int → Option EmitEntry) : Prop where
  sound : w.state.Sound m
  times : ∀ (i : Nat) e, m i = some e → e.times = w.pending i + w.successes i
  sent : w.state.isOrigin = false → ∀ (i : Nat) e, m i = some e → e.sent = w.successes i
  unplanned : ∀ i : Nat, m i = none → w.pending i = 0 ∧ w.successes i = 0
  inflight : ∀ q ps, w.state.peers.get q = some ps → ∀ i : Nat, ps.inflight.getD i 0 = w.unreported.count (q, i)
  attached : ∀ r ∈ w.unreported, (w.state.peers.get r.1).isSome

section
variable {w : Ledger} {m m' : Int → Option EmitEntry}

/-- The peer's counters are the same. -/
def SameFlights (ps ps' : PeerState) : Prop := ps'.inflight = ps.inflight

theorem SameFlights.refl (ps : PeerState) : SameFlights ps ps := rfl

/-- A call that reports and plans nothing. -/
theorem Agrees.frame (h : w.Agrees m) {t : State} (ht : t.Sound m) (horigin : t.isOrigin = w.state.isOrigin)
    (hinflight : ∀ q ps, t.peers.get q = some ps → ∀ i : Nat, ps.inflight.getD i 0 = w.unreported.count (q, i))
    (hattached : ∀ r ∈ w.unreported, (t.peers.get r.1).isSome) : Agrees { w with state := t } m := by
  refine ⟨ht, h.times, ?_, h.unplanned, hinflight, hattached⟩
  intro hrelay
  exact h.sent (horigin.symm.trans hrelay)

/-- Peers that keep their counters agree as before. -/
theorem Agrees.flights (h : w.Agrees m) {peers : Map PeerID PeerState}
    (hpeers : PeersRel SameFlights w.state.peers peers) :
    (∀ q ps, peers.get q = some ps → ∀ i : Nat, ps.inflight.getD i 0 = w.unreported.count (q, i)) ∧
      ∀ r ∈ w.unreported, (peers.get r.1).isSome := by
  refine ⟨?_, ?_⟩
  · intro q ps hget i
    obtain ⟨ps₀, hget₀, hsame⟩ := hpeers.back q ps hget
    rw [hsame]
    exact h.inflight q ps₀ hget₀ i
  intro r hr
  obtain ⟨ps, hget⟩ := Option.isSome_iff_exists.mp (h.attached r hr)
  obtain ⟨ps', hget', _⟩ := hpeers.forth r.1 ps hget
  rw [hget']
  rfl

variable {peer : PeerID} {handle : ChunkHandle}

theorem Agrees.attach (h : w.Agrees m) (hsettled : ∀ r ∈ w.unreported, r.1 ≠ peer) :
    (w.call (.attach peer)).Agrees m := by
  refine h.frame (h.sound.attach peer) rfl ?_ ?_
  · intro q ps hget i
    have hget : (w.state.peers.set peer _).get q = some ps := hget
    rw [Map.get_set] at hget
    split at hget
    · rename_i hq
      cases hget
      have hcount : w.unreported.count (q, i) = 0 := by
        rw [count_eq_zero]
        intro hmem
        exact hsettled _ hmem hq
      rw [hcount, getD_eq_getElem?_getD, getElem?_replicate]
      split <;> rfl
    · exact h.inflight q ps hget i
  · intro r hr
    show ((w.state.peers.set peer _).get r.1).isSome
    rw [Map.get_set, if_neg (hsettled r hr)]
    exact h.attached r hr

theorem Agrees.detach (h : w.Agrees m) {completed : Bool}
    (hsettled : completed = true ∨ ∀ r ∈ w.unreported, r.1 ≠ peer) : (w.call (.detach peer completed)).Agrees m := by
  have hsound := h.sound.detach peer completed
  show Agrees { w with state := w.state.DetachPeer peer completed } m
  unfold DetachPeer at hsound ⊢
  split at hsound
  · exact h
  rename_i ps hget
  split at hsound
  · rename_i hcompleted
    obtain ⟨hinflight, hattached⟩ :=
      h.flights (.set SameFlights.refl hget (rfl : SameFlights ps { ps with completed := true }))
    rw [if_pos hcompleted]
    exact h.frame hsound rfl hinflight hattached
  rename_i hcompleted
  rw [if_neg hcompleted]
  have hgone := hsettled.resolve_left hcompleted
  refine h.frame hsound rfl ?_ ?_
  · intro q ps' hget' i
    have hget' : (w.state.peers.del peer).get q = some ps' := hget'
    rw [Map.get_del] at hget'
    split at hget'
    · cases hget'
    · exact h.inflight q ps' hget' i
  · intro r hr
    show ((w.state.peers.del peer).get r.1).isSome
    rw [Map.get_del, if_neg (hgone r hr)]
    exact h.attached r hr

theorem Agrees.routing (h : w.Agrees m) (peer : PeerID) (update : Option Bitmap) :
    (w.call (.routing peer update)).Agrees m := by
  have hpeers : PeersRel SameFlights w.state.peers (w.state.RoutingUpdate peer update).1.peers := by
    unfold RoutingUpdate
    split
    · exact .refl SameFlights.refl _
    rename_i ps hget
    refine .set SameFlights.refl hget ?_
    cases update with
    | none | some update => exact SameFlights.refl ps
  have horigin : (w.state.RoutingUpdate peer update).1.isOrigin = w.state.isOrigin := by
    unfold RoutingUpdate
    split <;> rfl
  obtain ⟨hinflight, hattached⟩ := h.flights hpeers
  exact h.frame (h.sound.routing peer update) horigin hinflight hattached

theorem Agrees.pollRouting (h : w.Agrees m) (force : Bool) : (w.call (.pollRouting force)).Agrees m := by
  have hsound := h.sound.pollRouting force
  show Agrees { w with state := (w.state.PollRouting force).2 } m
  unfold PollRouting at hsound ⊢
  split at hsound
  · rename_i hdirty
    rw [if_pos hdirty]
    exact h.frame hsound rfl h.inflight h.attached
  rename_i hclean
  rw [if_neg hclean]
  exact h

/-- The counters of a chunk do not depend on another chunk's entry. -/
theorem update_cases {id : Int} {i : Nat} {new : Option EmitEntry} {e : EmitEntry}
    (he : update m id new i = some e) : (i : Int) = id ∧ new = some e ∨ (i : Int) ≠ id ∧ m i = some e := by
  by_cases hi : (i : Int) = id
  · rw [hi, update_self] at he
    exact .inl ⟨hi, he⟩
  · rw [update_of_ne hi] at he
    exact .inr ⟨hi, he⟩

theorem Agrees.take (h : w.Agrees m) (peer : PeerID) (chunkID : ChunkIdent) (data : Bytes) :
    ∃ m', (w.call (.take peer chunkID data)).Agrees m' := by
  rcases take_cases w.state peer chunkID data with ⟨hsame, _⟩ | ⟨_, hstores⟩
  · refine ⟨m, ?_⟩
    show Agrees { w with state := (w.state.TakeChunk peer chunkID data).state } m
    rw [hsame]
    exact h
  -- the chunk was not held, so it was never dispatched
  generalize chunkID.index.toNat = idx at hstores
  have hnone : m idx = none := by
    have hplanned := h.sound.planned idx
    rw [hstores.missing] at hplanned
    simpa using hplanned
  obtain ⟨hpending, hsuccesses⟩ := h.unplanned idx hnone
  have hpeers : PeersRel SameFlights w.state.peers (w.state.TakeChunk peer chunkID data).state.peers := by
    rw [hstores.peers]
    cases hget : w.state.peers.get peer with
    | none => exact .refl SameFlights.refl _
    | some ps => exact .set SameFlights.refl hget (SameFlights.refl ps)
  obtain ⟨hinflight, hattached⟩ := h.flights hpeers
  refine ⟨_, h.sound.stores hstores, ?_, ?_, ?_, hinflight, hattached⟩
  · intro i e he
    rcases update_cases he with ⟨hi, hnew⟩ | ⟨_, hold⟩
    · cases hnew
      obtain rfl : i = idx := Int.ofNat_inj.mp hi
      show (0 : Int) = w.pending i + w.successes i
      omega
    · exact h.times i e hold
  · intro hrelay i e he
    rcases update_cases he with ⟨hi, hnew⟩ | ⟨_, hold⟩
    · cases hnew
      obtain rfl : i = idx := Int.ofNat_inj.mp hi
      show (0 : Int) = w.successes i
      omega
    · exact h.sent (hstores.isOrigin.symm.trans hrelay) i e hold
  · intro i hi
    have hne : (i : Int) ≠ idx := by
      intro heq
      rw [heq, update_self] at hi
      cases hi
    rw [update_of_ne hne] at hi
    exact h.unplanned i hi

/-! ### Reports -/

theorem pending_erase {r : PeerID × ChunkHandle} (hr : r ∈ w.unreported) (i : Nat) :
    (w.unreported.erase r).countP (·.2 == i) + (if i = r.2 then 1 else 0) = w.pending i := by
  have hperm := perm_cons_erase hr
  rw [pending, hperm.countP_eq, countP_cons]
  by_cases hi : i = r.2
  · simp [hi]
  · have hne : (r.2 == i) = false := by simpa using Ne.symm hi
    simp [hi, hne]

/-- The unreported dispatches are of planned chunks and under way. -/
theorem Agrees.inFlight (h : w.Agrees m) (hr : (peer, handle) ∈ w.unreported) :
    ∃ ps e, w.state.InFlight peer handle ps ∧ int64 handle = handle ∧ m handle = some e := by
  have hpos : 0 < w.pending handle := by
    rw [pending, countP_pos_iff]
    exact ⟨_, hr, by simp⟩
  obtain ⟨e, he⟩ : ∃ e, m handle = some e := by
    cases hm : m handle with
    | none =>
      have hzero := (h.unplanned handle hm).1
      omega
    | some e => exact ⟨e, rfl⟩
  obtain ⟨ps, hget⟩ := Option.isSome_iff_exists.mp (h.attached _ hr)
  have hin := (h.sound.inRange _ _ he).2
  have hfits := h.sound.fits
  have hcount : 0 < w.unreported.count (peer, handle) := count_pos_iff.mpr hr
  refine ⟨ps, e, ⟨hget, hin, ?_⟩, int64_of_fits ⟨by omega, by omega⟩, he⟩
  rw [h.inflight peer ps hget]
  omega

/-- A counter is changed. -/
theorem getD_modify {l : List Int} {k : Nat} (hk : k < l.length) (f : Int → Int) (i : Nat) :
    (l.modify k f).getD i 0 = if i = k then f (l.getD i 0) else l.getD i 0 := by
  rw [getD_eq_getElem?_getD, getElem?_modify, getD_eq_getElem?_getD]
  by_cases hi : i = k
  · subst hi
    rw [getElem?_eq_getElem hk]
    simp
  · simp [hi, Ne.symm hi]

theorem pending_report (err : Option SendError) (hr : (peer, handle) ∈ w.unreported) (i : Nat) :
    (w.call (.sent peer handle err)).pending i + (if i = handle then 1 else 0) = w.pending i :=
  pending_erase hr i

theorem successes_report (w : Ledger) (peer : PeerID) (handle : ChunkHandle) (err : Option SendError) (i : Nat) :
    (w.call (.sent peer handle err)).successes i
      = w.successes i + if i = handle then (if err = none then 1 else 0) else 0 := by
  cases err with
  | none =>
    show (handle :: w.delivered).count i = _
    rw [count_cons]
    by_cases hi : i = handle
    · simp [hi, successes]
    · have hne : (handle == i) = false := by simpa using Ne.symm hi
      simp [hi, hne, successes]
  | some err => simp [successes, call]

/-- The counters of the peers after a report are of what is left unreported. -/
theorem Agrees.inflight_report (h : w.Agrees m) {ps ps' : PeerState} (hps : w.state.peers.get peer = some ps)
    (hidx : handle < ps.inflight.length) (hr : (peer, handle) ∈ w.unreported) (err : Option SendError) {q : PeerID}
    (hget : (w.state.peers.set peer (reported ps handle err)).get q = some ps') (i : Nat) :
    ps'.inflight.getD i 0 = ((w.unreported.erase (peer, handle)).count (q, i) : Nat) := by
  rw [Map.get_set] at hget
  by_cases hq : q = peer
  · rw [if_pos hq] at hget
    subst hq
    cases hget
    have hcount : 0 < w.unreported.count (q, handle) := count_pos_iff.mpr hr
    show (ps.inflight.modify handle (· - 1)).getD i 0 = _
    rw [getD_modify hidx, h.inflight q ps hps i]
    by_cases hi : i = handle
    · subst hi
      rw [if_pos rfl, count_erase_self]
      omega
    · have hne : (q, i) ≠ (q, handle) := fun heq => hi (congrArg Prod.snd heq)
      rw [if_neg hi, count_erase_of_ne hne]
  · rw [if_neg hq] at hget
    have hne : (q, i) ≠ (peer, handle) := fun heq => hq (congrArg Prod.fst heq)
    rw [count_erase_of_ne hne]
    exact h.inflight q ps' hget i

theorem Agrees.report (h : w.Agrees m) (err : Option SendError)
    (hr : (peer, handle) ∈ w.unreported) : ∃ m', (w.call (.sent peer handle err)).Agrees m' := by
  obtain ⟨ps, e, hf, hhandle, he⟩ := h.inFlight hr
  have hstate : (w.call (.sent peer handle err)).state = { w.state with
      peers := w.state.peers.set peer (reported ps handle err)
      emitPlanner := w.state.replanned handle err } := hf.chunkSent hhandle err
  have hpending := pending_report err hr
  have hsuccesses := w.successes_report peer handle err
  -- the entry of the chunk is the only one that changes
  have hentry : ∀ (i : Nat) e', w.state.accounted m handle err i = some e' →
      i = handle ∧ e' = w.state.settled err e ∨ i ≠ handle ∧ m i = some e' := by
    intro i e' he'
    rcases update_cases he' with ⟨hi, hnew⟩ | ⟨hi, hold⟩
    · rw [he] at hnew
      exact .inl ⟨Int.ofNat_inj.mp hi, (Option.some.inj hnew).symm⟩
    · exact .inr ⟨fun heq => hi (by rw [heq]), hold⟩
  refine ⟨_, h.sound.inFlight hf hhandle err, ?_, ?_, ?_, ?_, ?_⟩
  · intro i e' he'
    have hp := hpending i
    have hs := hsuccesses i
    rcases hentry i e' he' with ⟨rfl, rfl⟩ | ⟨hne, hold⟩
    · have htimes := h.times i e he
      rw [if_pos rfl] at hs hp
      rw [times_settled]
      split
      · rename_i herr
        rw [if_pos herr] at hs
        omega
      rename_i herr
      rw [if_neg herr] at hs
      omega
    · have htimes := h.times i e' hold
      rw [if_neg hne] at hs hp
      omega
  · intro hrelay i e' he'
    have hs := hsuccesses i
    have hrelay' : w.state.isOrigin = false := by
      rw [hstate] at hrelay
      exact hrelay
    rcases hentry i e' he' with ⟨rfl, rfl⟩ | ⟨hne, hold⟩
    · have hsent := h.sent hrelay' i e he
      rw [if_pos rfl] at hs
      rw [sent_settled hrelay', hsent, hs]
      push_cast
      split <;> rfl
    · rw [if_neg hne] at hs
      rw [hs]
      exact h.sent hrelay' i e' hold
  · intro i hi
    have hsome := w.state.isSome_accounted m handle err i
    rw [hi] at hsome
    have hold : m i = none := by simpa using hsome
    have hne : i ≠ handle := by
      rintro rfl
      rw [he] at hold
      cases hold
    have hp := hpending i
    have hs := hsuccesses i
    rw [if_neg hne] at hs hp
    have hzero := h.unplanned i hold
    omega
  · intro q ps' hget
    rw [hstate] at hget
    refine h.inflight_report hf.attached ?_ hr err hget
    rw [h.sound.inflight peer ps hf.attached]
    exact Int.lt_toNat.mpr hf.inRange
  · intro r hmem
    have hmem : r ∈ w.unreported.erase (peer, handle) := hmem
    have hold := h.attached r (mem_of_mem_erase hmem)
    rw [hstate]
    show ((w.state.peers.set peer _).get r.1).isSome
    rw [Map.get_set]
    split
    · rfl
    · exact hold

/-! ### Polls -/

theorem poll_append (ds : List (ChunkDispatch ChunkIdent)) (t : State) (peer : PeerID) :
    State.poll (ds, t) peer = (ds ++ (State.poll ([], t) peer).1, (State.poll ([], t) peer).2) := by
  unfold State.poll
  dsimp only
  split
  · rw [append_nil]
  split
  · rw [append_nil]
  split <;> simp

/-- **A poll is a turn for each peer.** -/
theorem call_poll (w : Ledger) (o : Order PeerID) : w.call (.poll o) = exec turn w (w.state.peers.range o) := by
  have hloop : ∀ (peers : List PeerID) (ds : List (ChunkDispatch ChunkIdent)) (t : State),
      exec turn { w with state := t, unreported := w.unreported ++ ds.map due } peers = { w with
        state := (peers.foldl State.poll (ds, t)).2
        unreported := w.unreported ++ (peers.foldl State.poll (ds, t)).1.map due } := by
    intro peers
    induction peers with
    | nil =>
      intro ds t
      rfl
    | cons peer peers ih =>
      intro ds t
      rw [exec_cons, foldl_cons, poll_append, ← ih, map_append, ← append_assoc]
      rfl
  have hall := hloop (w.state.peers.range o) [] w.state
  rw [map_nil, append_nil] at hall
  exact hall.symm

theorem turn_round (hh : w.state.emitPlanner.Holds m) (peer : PeerID) :
    ∃ d t m', w.turn peer = { w with state := t, unreported := w.unreported ++ d.map due } ∧
      w.state.Round m peer d t m' := by
  obtain ⟨d, t, m', heq, hr⟩ := poll_round hh [] peer
  exact ⟨d, t, m', by rw [turn, heq]; rfl, hr⟩

/-- The chunk of an entry, as its dispatch is reported. -/
theorem due_entry (hs : w.state.Sound m) {ec : EmitEntry} (planned : m ec.idx = some ec) (data : Bytes) :
    ∃ idx : Nat, ec.idx = idx ∧ [(⟨peer, ⟨ec.idx⟩, data⟩ : ChunkDispatch ChunkIdent)].map due = [(peer, idx)] ∧
      idx < w.state.totalChunks.toNat := by
  obtain ⟨hnonneg, hlt⟩ := hs.inRange _ _ planned
  have hfits := hs.fits
  obtain ⟨idx, hidx⟩ := Int.eq_ofNat_of_zero_le hnonneg
  have hhandle : ChunkIdent.handle ⟨ec.idx⟩ = idx := by
    show (ec.idx % 2 ^ 64).toNat = idx
    omega
  exact ⟨idx, hidx, by simp [due, hhandle], by omega⟩

theorem pending_dispatch (w : Ledger) (peer : PeerID) (idx i : Nat) :
    (w.unreported ++ [(peer, idx)]).countP (·.2 == i) = w.pending i + if i = idx then 1 else 0 := by
  rw [countP_append, countP_singleton, pending]
  by_cases hi : i = idx
  · simp [hi]
  · simp [hi, Ne.symm hi]

/-- A dispatch is added to the ledger. -/
theorem Agrees.round (h : w.Agrees m) {d : List (ChunkDispatch ChunkIdent)} {t : State}
    (hr : w.state.Round m peer d t m') :
    Agrees { w with state := t, unreported := w.unreported ++ d.map due } m' := by
  have hsound := (h.sound.round hr).1
  cases hr with
  | none planner hh =>
    rw [map_nil, append_nil]
    exact ⟨hsound, h.times, h.sent, h.unplanned, h.inflight, h.attached⟩
  | dispatch ps ec planner data attached planned eligible hh =>
    obtain ⟨idx, hidx, hdue, hlt⟩ := due_entry h.sound planned data
    rw [hdue]
    have hlen : idx < ps.inflight.length := by
      rw [h.sound.inflight peer ps attached]
      exact hlt
    have hpending := w.pending_dispatch peer idx
    have hcast : ∀ i : Nat, (i : Int) = ec.idx ↔ i = idx := by
      intro i
      omega
    refine ⟨hsound, ?_, ?_, ?_, ?_, ?_⟩
    · intro i e he
      show e.times = ((w.unreported ++ [(peer, idx)]).countP (·.2 == i) : Nat) + w.successes i
      rw [hpending]
      rcases update_cases he with ⟨hi, hnew⟩ | ⟨hi, hold⟩
      · cases hnew
        have htimes := h.times i ec (hi ▸ planned)
        rw [if_pos ((hcast i).mp hi)]
        dsimp only
        omega
      · have htimes := h.times i e hold
        rw [if_neg (fun heq => hi ((hcast i).mpr heq))]
        omega
    · intro hrelay i e he
      rcases update_cases he with ⟨hi, hnew⟩ | ⟨_, hold⟩
      · cases hnew
        exact h.sent hrelay i ec (hi ▸ planned)
      · exact h.sent hrelay i e hold
    · intro i hi
      show (w.unreported ++ [(peer, idx)]).countP (·.2 == i) = 0 ∧ w.successes i = 0
      have hne : (i : Int) ≠ ec.idx := by
        intro heq
        rw [heq, update_self] at hi
        cases hi
      rw [update_of_ne hne] at hi
      rw [hpending, if_neg (fun heq => hne ((hcast i).mpr heq))]
      exact h.unplanned i hi
    · intro q ps' hget i
      show ps'.inflight.getD i 0 = ((w.unreported ++ [(peer, idx)]).count (q, i) : Nat)
      have hget' : (w.state.peers.set peer _).get q = some ps' := hget
      rw [count_append, count_singleton]
      rw [Map.get_set] at hget'
      by_cases hq : q = peer
      · rw [if_pos hq] at hget'
        subst hq
        cases hget'
        show (ps.inflight.modify ec.idx.toNat (· + 1)).getD i 0 = _
        rw [hidx, Int.toNat_natCast, getD_modify hlen, h.inflight q ps attached i]
        by_cases hi : i = idx
        · simp [hi]
        · simp [hi, Ne.symm hi]
      · rw [if_neg hq] at hget'
        have hne : ((peer, idx) == (q, i)) = false := by
          simp [Ne.symm hq]
        rw [hne, if_neg Bool.false_ne_true, Nat.add_zero]
        exact h.inflight q ps' hget' i
    · intro r hmem
      show ((w.state.peers.set peer _).get r.1).isSome
      rw [Map.get_set]
      split
      · rfl
      rename_i hne
      rcases mem_append.mp hmem with hmem | hmem
      · exact h.attached r hmem
      · rw [mem_singleton.mp hmem] at hne
        exact absurd rfl hne

theorem Agrees.poll (h : w.Agrees m) (o : Order PeerID) : ∃ m', (w.call (.poll o)).Agrees m' := by
  rw [call_poll]
  refine exec_invariant turn (I := fun w => ∃ m, Agrees w m) ?_ ⟨m, h⟩ _
  rintro w peer ⟨m, hm⟩
  obtain ⟨d, t, m', heq, hr⟩ := turn_round hm.sound.planner peer
  rw [heq]
  exact ⟨m', hm.round hr⟩

theorem Agrees.call (h : w.Agrees m) {c : Call} (hreports : w.Reports c) (hsettled : w.Settled c) :
    ∃ m', (w.call c).Agrees m' := by
  cases c with
  | attach peer => exact ⟨m, h.attach hsettled⟩
  | detach peer completed => exact ⟨m, h.detach hsettled⟩
  | take peer chunkID data => exact h.take peer chunkID data
  | routing peer update => exact ⟨m, h.routing peer update⟩
  | poll o => exact h.poll o
  | pollRouting force => exact ⟨m, h.pollRouting force⟩
  | sent peer handle err => exact h.report err hreports

end

/-! ## Runs -/

variable {s : State} {config : Config}

/-- A strategy before its first call. -/
theorem agrees_start {m : Int → Option EmitEntry} (hs : s.Sound m) (hpeers : s.peers = ∅)
    (hfresh : ∀ (i : Nat) e, m i = some e → e.times = 0 ∧ e.sent = 0) : Agrees { state := s } m := by
  refine ⟨hs, ?_, ?_, ?_, ?_, ?_⟩
  · intro i e he
    exact (hfresh i e he).1
  · intro _ i e he
    exact (hfresh i e he).2
  · intro i _
    exact ⟨rfl, rfl⟩
  · intro q ps hget
    dsimp only at hget
    rw [hpeers] at hget
    cases hget
  · intro r hr
    cases hr

variable {seed : UInt64} {preamble : Option Preamble}

theorem agrees_relay (h : newRelayStrategy config seed preamble = .ok s) : Agrees { state := s } fun _ => none := by
  obtain ⟨hsound, hpeers⟩ := sound_relay h
  exact agrees_start hsound hpeers (by simp)

theorem agrees_started {env : Env} (hR : env.reedSolomon.Fills) (h : s.Started env) :
    ∃ m, Agrees { state := s } m := by
  rcases h with ⟨config, payload, horigin⟩ | ⟨config, seed, preamble, hrelay⟩
  · obtain ⟨hsound, hpeers⟩ := sound_origin hR horigin
    refine ⟨_, agrees_start hsound hpeers ?_⟩
    intro i e he
    unfold firstChunks at he
    split at he
    · cases he
      exact ⟨rfl, rfl⟩
    · cases he
  · exact ⟨_, agrees_relay hrelay⟩

instance (w : Ledger) (c : Call) : Decidable (w.Reports c) :=
  match c with
  | .sent peer handle _ => inferInstanceAs (Decidable ((peer, handle) ∈ w.unreported))
  | .attach _ | .detach .. | .take .. | .routing .. | .poll _ | .pollRouting _ => .isTrue trivial

instance (w : Ledger) (c : Call) : Decidable (w.Settled c) :=
  match c with
  | .attach peer => inferInstanceAs (Decidable (∀ r ∈ w.unreported, r.1 ≠ peer))
  | .detach peer completed => inferInstanceAs (Decidable (completed = true ∨ ∀ r ∈ w.unreported, r.1 ≠ peer))
  | .sent .. | .take .. | .routing .. | .poll _ | .pollRouting _ => .isTrue trivial

/-- **The planner counts what happened.**  In every run that reports each dispatch at most once and takes no peer's
state away while a dispatch to it is unreported, `Times` of a held chunk is the number of its unreported and
its successful dispatches, and `Sent` on a relay the number of the successful ones. -/
theorem counters_agree {env : Env} (hR : env.reedSolomon.Fills) (hs : s.Started env) {calls : List Call}
    (hrun : Along call (fun w c => w.Reports c ∧ w.Settled c) { state := s } calls) :
    let w := exec call { state := s } calls
    ∀ i : Nat, (w.state.chunks.getD i none).isSome → ∃ e, w.state.emitPlanner.lookup i = some e ∧
      e.times = w.pending i + w.successes i ∧ (w.state.isOrigin = false → e.sent = w.successes i) := by
  intro w i hheld
  have hstep : ∀ (w : Ledger) (c : Call), (∃ m, w.Agrees m) → w.Reports c ∧ w.Settled c →
      ∃ m, (w.call c).Agrees m := by
    rintro w c ⟨m, hm⟩ ⟨hreports, hsettled⟩
    exact hm.call hreports hsettled
  obtain ⟨m, hm⟩ := hrun.invariant (I := fun w => ∃ m, Agrees w m) hstep (agrees_started hR hs)
  have hplanned := hm.sound.planned i
  rw [hheld] at hplanned
  obtain ⟨e, he⟩ := Option.isSome_iff_exists.mp hplanned
  refine ⟨e, ?_, hm.times i e he, fun hrelay => hm.sent hrelay i e he⟩
  rw [← hm.sound.planner.model]
  exact he

/-- Chunk 0 goes to `a`, which is detached before the send is reported. -/
def detachedEarly (err : Option SendError) : List Call :=
  dispatchedToA ++ [.detach "a" false, .sent "a" 0 err]

/-- A send that fails after its peer was detached stays in `Times`, and one that succeeds is missing in
`Sent`. -/
theorem failure_leaves_trace :
    let w (err : Option SendError) := exec call { state := smallRelay {} } (detachedEarly err)
    (∀ err ∈ [none, some SendError.peerGone], Along call Reports { state := smallRelay {} } (detachedEarly err)) ∧
      ((w (some .peerGone)).state.emitPlanner.lookup 0).map (·.times) = some 1 ∧
      (w (some .peerGone)).pending 0 + (w (some .peerGone)).successes 0 = 0 ∧
      ((w none).state.emitPlanner.lookup 0).map (·.sent) = some 0 ∧ (w none).successes 0 = 1 := by
  decide +kernel

/-- A send to `a` fails and one to `b` succeeds, and `a` is then detached. -/
theorem counters_agree_two :
    let calls : List Call := [.attach "a", .attach "b", .take "c" ⟨0⟩ [], .poll (.stored PeerID),
      .sent "a" 0 (some .writeFail), .detach "a" false, .sent "b" 0 none]
    let w := exec call { state := smallRelay {} } calls
    (∃ e, w.state.emitPlanner.lookup (0 : Nat) = some e ∧ e.times = w.pending 0 + w.successes 0 ∧
      (w.state.isOrigin = false → e.sent = w.successes 0)) ∧ w.pending 0 = 0 ∧ w.successes 0 = 1 := by
  intro calls w
  refine ⟨?_, by decide +kernel, by decide +kernel⟩
  have hR : (Env.mk repetition fun _ => []).reedSolomon.Fills := repetition_fills
  have hrun : Along call (fun w c => w.Reports c ∧ w.Settled c) { state := smallRelay {} } calls := by
    decide +kernel
  exact counters_agree hR (smallRelay_started _ {}) hrun 0 (by decide +kernel)

/-! ## The forward budget -/

/-- What the peer may get, if it takes part in the poll, has room for one more dispatch in the budget. -/
abbrev HasRoom (w : Ledger) (peer : PeerID) : Prop :=
  ∀ ps ∈ w.state.peers.get peer, ps.completed = false → ∀ e ∈ w.state.emitPlanner.entries,
    w.state.ineligible ps e = false →
      (w.successes e.idx.toNat + w.pending e.idx.toNat : Int) < w.state.config.forwardMultiplier

/-- A poll finds room before each peer's turn. -/
def Room (w : Ledger) : Call → Prop
  | .poll o => Along turn HasRoom w (w.state.peers.range o)
  | _ => True

instance (w : Ledger) (c : Call) : Decidable (w.Room c) :=
  match c with
  | .poll o => Along.decidable w (w.state.peers.range o)
  | .attach _ | .detach .. | .take .. | .routing .. | .sent .. | .pollRouting _ => .isTrue trivial

/-- A relay whose successful and unreported dispatches of any chunk stay within the budget. -/
structure Within (config : Config) (w : Ledger) : Prop where
  sound : ∃ m, w.state.Sound m
  config_eq : w.state.config = config
  bound : ∀ i, (w.successes i + w.pending i : Int) ≤ config.forwardMultiplier

theorem Within.turn {w : Ledger} (h : w.Within config) {peer : PeerID} (hroom : w.HasRoom peer) :
    (w.turn peer).Within config := by
  by_cases hidle : ∃ ps, w.state.peers.get peer = some ps ∧ ps.completed = true
  · obtain ⟨ps, hget, hcompleted⟩ := hidle
    have hsame : w.turn peer = w := by simp [Ledger.turn, State.poll, hget, hcompleted]
    rwa [hsame]
  obtain ⟨m, hm⟩ := h.sound
  obtain ⟨d, t, m', heq, hr⟩ := turn_round hm.planner peer
  rw [heq]
  refine ⟨⟨m', (hm.round hr).1⟩, hr.kept.config.trans h.config_eq, ?_⟩
  cases hr with
  | none planner hh =>
    rw [map_nil, append_nil]
    exact h.bound
  | dispatch ps ec planner data attached planned eligible hh =>
    have hactive : ps.completed = false := Bool.eq_false_iff.mpr fun hc => hidle ⟨ps, attached, hc⟩
    obtain ⟨k, -, hentry⟩ := Option.bind_eq_some_iff.mp ((hm.planner.model ec.idx).symm.trans planned)
    have hbelow := hroom ps attached hactive ec (mem_of_getElem? hentry) eligible
    obtain ⟨idx, hidx, hdue, -⟩ := due_entry hm planned data
    rw [hidx, Int.toNat_natCast, h.config_eq] at hbelow
    intro i
    have hbound := h.bound i
    have hpending := w.pending_dispatch peer idx i
    show (w.successes i : Int) + ((w.unreported ++ _).countP (·.2 == i) : Nat) ≤ _
    rw [hdue]
    split at hpending
    · rename_i hi
      rw [← hi] at hbelow
      omega
    · omega

theorem Within.call {w : Ledger} (h : w.Within config) {c : Call} (hreports : w.Reports c) (hroom : w.Room c) :
    (w.call c).Within config := by
  obtain ⟨m, hm⟩ := h.sound
  by_cases hpoll : ∃ o, c = .poll o
  · obtain ⟨o, rfl⟩ := hpoll
    rw [call_poll]
    exact hroom.invariant (fun w peer hw hok => hw.turn hok) h
  refine ⟨hm.call c, (hm.fixed c).config.trans h.config_eq, fun i => ?_⟩
  have hbound := h.bound i
  cases c with
  | poll o => exact absurd ⟨o, rfl⟩ hpoll
  | sent peer handle err =>
    have hpending := pending_report err hreports i
    have hsuccesses := w.successes_report peer handle err i
    split at hpending
    · rename_i hi
      rw [if_pos hi] at hsuccesses
      split at hsuccesses
      · omega
      · omega
    · rename_i hi
      rw [if_neg hi] at hsuccesses
      omega
  | attach peer | detach peer completed | take peer chunkID data | routing peer update
  | pollRouting force => exact hbound

theorem forRelay_multiplier (config : Config) : config.forRelay.forwardMultiplier
    = if config.forwardMultiplier ≤ 0 then 4 else config.forwardMultiplier := by
  unfold Config.forRelay
  split <;> rfl

theorem newRelay_config (h : newRelayStrategy config seed preamble = .ok s) : s.config = config.forRelay := by
  unfold newRelayStrategy at h
  split at h
  · cases h
  split at h <;> cases h
  rfl

/-- **A relay forwards a chunk as often as configured.**  In every run of a relay that reports each dispatch at most
once and polls where every chunk a peer may get has room for one more dispatch beside those sent and unreported, the
successful sends of a chunk stay within the forward multiplier. -/
theorem forwards_within_budget (hs : newRelayStrategy config seed preamble = .ok s) {calls : List Call}
    (hrun : Along call (fun w c => w.Reports c ∧ w.Room c) { state := s } calls) (i : Nat) :
    ((exec call { state := s } calls).successes i : Int)
      ≤ if config.forwardMultiplier ≤ 0 then 4 else config.forwardMultiplier := by
  rw [← forRelay_multiplier]
  have hstart : Within config.forRelay { state := s } := by
    refine ⟨⟨_, (sound_relay hs).1⟩, newRelay_config hs, fun i => ?_⟩
    show (0 : Int) + 0 ≤ _
    rw [forRelay_multiplier]
    split <;> omega
  have hend := hrun.invariant (fun w c hw hok => hw.call hok.1 hok.2) hstart
  have hbound := hend.bound i
  omega

/-- With a budget of one, chunk 0 is dispatched to both peers at once and reaches both. -/
theorem budget_exceeded :
    let config : Config := { forwardMultiplier := 1 }
    let calls : List Call := [.attach "a", .attach "b", .take "c" ⟨0⟩ [], .poll (.stored PeerID),
      .sent "a" 0 none, .sent "b" 0 none]
    newRelayStrategy config 0 (some smallPreamble) = .ok (smallRelay config) ∧
      Along call (fun w c => w.Reports c ∧ w.Settled c) { state := smallRelay config } calls ∧
      (exec call { state := smallRelay config } calls).successes 0 = 2 := by
  refine ⟨rfl, by decide +kernel, by decide +kernel⟩

/-- By default two peers get the chunk at a time, and the fifth finds the budget used. -/
theorem forwards_within_budget_two :
    let calls : List Call := [.take "c" ⟨0⟩ [], .attach "a", .attach "b", .poll (.stored PeerID),
      .sent "a" 0 none, .sent "b" 0 none, .attach "d", .attach "e", .poll (.stored PeerID),
      .sent "d" 0 none, .attach "f", .sent "e" 0 none, .poll (.stored PeerID)]
    let w := exec call { state := smallRelay {} } calls
    (w.successes 0 : Int) ≤ 4 ∧ w.successes 0 = 4 ∧ w.pending 0 = 0 := by
  intro calls w
  have hrun : Along call (fun w c => w.Reports c ∧ w.Room c) { state := smallRelay {} } calls := by decide +kernel
  have hs : newRelayStrategy {} 0 (some smallPreamble) = .ok (smallRelay {}) := rfl
  exact ⟨forwards_within_budget hs hrun 0, by decide +kernel, by decide +kernel⟩

end Ledger

end EthP2P.Rs
