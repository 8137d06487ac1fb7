/-
# EthP2P.Rs.Knowledge — what a strategy knows of a peer's inventory

A strategy keeps, for every attached peer, a bitmap of the chunks that the peer holds.  An update of the
peer's routing is merged into it, and the polls that follow take nothing back: a chunk is only dispatched to a
peer whose bit for it is not set, so the report of a refused dispatch clears a bit that was clear
(`still_chunks`).  This rests on the planner handing out indices that survive the conversion to a handle and
back (`Indexed`).

`open_is_merged` joins this with the invariant of the channel: after the OPEN of a member, the session's
strategy knows every chunk of the opener's initial update, as long as no SESS stream of that peer for that
message has ended while the session went on.  `second_open_ignored` is a run where one has.
-/
import EthP2P.Broadcast.Joining
import EthP2P.Rs.Verified

namespace EthP2P.Rs

open Lib Wire Broadcast Channel EmitPlanner Bitmap State List Option HeapInterface

/-! ## The planner's indices -/

/-- The index is the same after its way through a handle. -/
def EmitEntry.Indexed (e : EmitEntry) : Prop := 0 ≤ e.idx ∧ e.idx < 2 ^ 63

namespace EmitPlanner

variable {h h' : EmitPlanner} {e : EmitEntry}

def Indexed (h : EmitPlanner) : Prop := ∀ e ∈ h.entries, e.Indexed

theorem Indexed.entry (hh : h.Indexed) (i : Nat) : (h.entry i).Indexed := by
  unfold EmitPlanner.entry
  rw [getD_eq_getElem?_getD]
  cases hi : h.entries[i]? with
  | none => exact ⟨le_refl _, by decide⟩
  | some e => exact hh e (mem_of_getElem? hi)

theorem Indexed.swap (hh : h.Indexed) (i j : Nat) : (h.swap i j).Indexed := by
  intro e he
  rcases mem_or_eq_of_mem_set he with he | rfl
  · rcases mem_or_eq_of_mem_set he with he | rfl
    · exact hh e he
    · exact hh.entry j
  · exact hh.entry i

theorem indexed_swap {m : Nat} (h : EmitPlanner) (i j : Nat) (_ : i < m) (_ : j < m) (hh : h.Indexed) :
    (heap.swap h i j).Indexed := hh.swap i j

section

variable (hh : h.Indexed)
include hh

theorem Indexed.push (he : e.Indexed) : (h.push e).Indexed := by
  intro e' he'
  rcases mem_append.mp he' with he' | he'
  · exact hh e' he'
  · rw [mem_singleton.mp he']
    exact he

theorem Indexed.modify (i : Nat) {f : EmitEntry → EmitEntry}
    (hf : ∀ e, e.Indexed → (f e).Indexed) : (h.modify i f).Indexed := by
  intro e he
  obtain ⟨j, hj⟩ := getElem?_of_mem he
  simp only [EmitPlanner.modify, getElem?_modify] at hj
  cases hget : h.entries[j]? with
  | none =>
    rw [hget] at hj
    cases hj
  | some e₀ =>
    have he₀ := hh e₀ (mem_of_getElem? hget)
    rw [hget] at hj
    simp only [Option.map_eq_map, Option.map_some, Option.some.injEq] at hj
    split at hj
    · rw [← hj]
      exact hf e₀ he₀
    · rw [← hj]
      exact he₀

theorem Indexed.insert (he : e.Indexed) : (h.Insert e).Indexed := by
  unfold Insert
  split
  · rename_i i _
    have hmodify : (h.modify i fun _ => e).Indexed := hh.modify i fun _ _ => he
    exact keeps_fix indexed_swap hmodify (Nat.lt_add_right _ (Nat.lt_succ_self i)) (Nat.le_add_left _ _)
  · exact keeps_up indexed_swap (hh.push he) (Nat.lt_succ_self _)

theorem Indexed.addTimes (id delta : Int) : (h.addTimes id delta).Indexed := by
  unfold EmitPlanner.addTimes
  split
  · exact hh
  rename_i i _
  have hmodify : (h.modify i fun ec => { ec with times := ec.times + delta }).Indexed :=
    hh.modify i fun _ he => he
  exact keeps_fix indexed_swap hmodify (Nat.lt_add_right _ (Nat.lt_succ_self i)) (Nat.le_add_left _ _)

theorem Indexed.addSent (id delta : Int) : (h.AddSent id delta).Indexed := by
  unfold AddSent
  split
  · exact hh
  · exact hh.modify _ fun _ he => he

theorem Indexed.popFront (hpop : h.PopFront = some (e, h')) : e.Indexed ∧ h'.Indexed := by
  obtain ⟨h₀, hh₀, hlast⟩ := keeps_heapPop indexed_swap hh (Nat.succ_pos _) (Nat.le_succ _) hpop
  obtain ⟨e', he', heq⟩ := map_eq_some_iff.mp hlast
  obtain ⟨rfl, rfl⟩ := Prod.mk.inj heq
  exact ⟨hh₀ e' (mem_of_getLast? he'), fun e he => hh₀ e (mem_of_mem_dropLast he)⟩

end

theorem Indexed.foldl_insert (l : List EmitEntry) (hl : ∀ e ∈ l, e.Indexed) (hh : h.Indexed) :
    (l.foldl Insert h).Indexed := by
  induction l generalizing h with
  | nil => exact hh
  | cons e l ih =>
    exact ih (fun e' he' => hl e' (mem_cons_of_mem _ he')) (hh.insert (hl e mem_cons_self))

end EmitPlanner

/-! ## What a call leaves of the peers' inventories -/

/-- The same peers are attached, and what is known of each is related by `r`. -/
structure PeersRel (r : PeerState → PeerState → Prop) (peers peers' : Map PeerID PeerState) : Prop where
  forth : ∀ q ps, peers.get q = some ps → ∃ ps', peers'.get q = some ps' ∧ r ps ps'
  back : ∀ q ps', peers'.get q = some ps' → ∃ ps, peers.get q = some ps ∧ r ps ps'

/-- The bitmap is as long. -/
def SameSize (ps ps' : PeerState) : Prop := ps'.bitmap.length = ps.bitmap.length

/-- Reading the bitmap gives the same. -/
def SameBits (ps ps' : PeerState) : Prop :=
  ps'.bitmap.length = ps.bitmap.length ∧ ∀ i, ps'.bitmap.get i = ps.bitmap.get i

theorem SameSize.refl (ps : PeerState) : SameSize ps ps := rfl

theorem SameBits.refl (ps : PeerState) : SameBits ps ps := ⟨rfl, fun _ => rfl⟩

theorem SameBits.trans {a b c : PeerState} (h : SameBits a b) (h' : SameBits b c) : SameBits a c :=
  ⟨h'.1.trans h.1, fun i => (h'.2 i).trans (h.2 i)⟩

namespace PeersRel

variable {r : PeerState → PeerState → Prop} {as bs cs : Map PeerID PeerState}

theorem refl (hr : ∀ ps, r ps ps) (as : Map PeerID PeerState) : PeersRel r as as :=
  ⟨fun _ ps hget => ⟨ps, hget, hr ps⟩, fun _ ps hget => ⟨ps, hget, hr ps⟩⟩

theorem trans (hr : ∀ {a b c}, r a b → r b c → r a c) (h : PeersRel r as bs) (h' : PeersRel r bs cs) :
    PeersRel r as cs := by
  refine ⟨fun q ps hget => ?_, fun q ps hget => ?_⟩
  · obtain ⟨ps', hget', hps'⟩ := h.forth q ps hget
    obtain ⟨ps'', hget'', hps''⟩ := h'.forth q ps' hget'
    exact ⟨ps'', hget'', hr hps' hps''⟩
  obtain ⟨ps', hget', hps'⟩ := h'.back q ps hget
  obtain ⟨ps'', hget'', hps''⟩ := h.back q ps' hget'
  exact ⟨ps'', hget'', hr hps'' hps'⟩

/-- One peer's state is replaced. -/
theorem set (hr : ∀ ps, r ps ps) {p : PeerID} {ps ps' : PeerState} (hget : as.get p = some ps)
    (hps : r ps ps') : PeersRel r as (as.set p ps') := by
  refine ⟨fun q a ha => ?_, fun q a ha => ?_⟩
  · rw [Map.get_set]
    split
    · rename_i hq
      rw [hq, hget] at ha
      exact ⟨ps', rfl, some.inj ha ▸ hps⟩
    · exact ⟨a, ha, hr a⟩
  rw [Map.get_set] at ha
  split at ha
  · rename_i hq
    rw [hq]
    exact ⟨ps, hget, some.inj ha ▸ hps⟩
  · exact ⟨a, ha, hr a⟩

theorem imp {r' : PeerState → PeerState → Prop} (hr : ∀ {a b}, r a b → r' a b) (h : PeersRel r as bs) :
    PeersRel r' as bs := by
  refine ⟨fun q ps hget => ?_, fun q ps hget => ?_⟩
  · obtain ⟨ps', hget', hps⟩ := h.forth q ps hget
    exact ⟨ps', hget', hr hps⟩
  · obtain ⟨ps', hget', hps⟩ := h.back q ps hget
    exact ⟨ps', hget', hr hps⟩

end PeersRel

/-- A call that neither attaches nor detaches: bitmaps keep their size, and the planner its indices. -/
structure Steady (s t : State) : Prop where
  total : t.totalChunks = s.totalChunks
  planner : s.totalChunks < 2 ^ 63 → s.emitPlanner.Indexed → t.emitPlanner.Indexed
  sizes : PeersRel SameSize s.peers t.peers

/-- A call that takes nothing back of what is known of the peers. -/
structure Still (s t : State) : Prop where
  total : t.totalChunks = s.totalChunks
  planner : t.emitPlanner.Indexed
  bits : PeersRel SameBits s.peers t.peers

theorem Still.steady {s t : State} (h : Still s t) : Steady s t :=
  ⟨h.total, fun _ _ => h.planner, h.bits.imp And.left⟩

namespace State

variable {s t : State}

variable (peer : PeerID)

theorem steady_place {idx : Nat} (hidx : (idx : Int) < s.totalChunks) (data : Bytes) :
    Steady s (s.place peer idx data) := by
  have hplanner : s.totalChunks < 2 ^ 63 → s.emitPlanner.Indexed →
      (s.emitPlanner.Insert { idx := idx, priority := s.chunkPriority idx }).Indexed := by
    intro hfits hs
    exact hs.insert ⟨Int.natCast_nonneg _, by dsimp only; omega⟩
  unfold place onPeer
  dsimp only
  split
  · exact ⟨rfl, hplanner, .refl SameSize.refl _⟩
  · rename_i ps hget
    exact ⟨rfl, hplanner, .set SameSize.refl hget (length_set _ _)⟩

theorem steady_take (chunkID : ChunkIdent) (data : Bytes) : Steady s (s.TakeChunk peer chunkID data).state := by
  have hrefl : Steady s s := ⟨rfl, fun _ h => h, .refl SameSize.refl _⟩
  unfold TakeChunk
  split
  · exact hrefl
  rename_i hrange
  split
  · exact hrefl
  split
  · exact hrefl
  have hidx : ((chunkID.index.toNat : Nat) : Int) < s.totalChunks := by
    unfold outOfRange at hrange
    simp only [Bool.or_eq_true, decide_eq_true_eq, not_or] at hrange
    omega
  obtain ⟨htotal, hplanner, hsizes⟩ := steady_place peer hidx data
  dsimp only
  unfold store
  dsimp only
  split <;> exact ⟨htotal, hplanner, hsizes⟩

theorem steady_routingUpdate (update : Bitmap) : Steady s (s.RoutingUpdate peer (some update)).1 := by
  unfold RoutingUpdate
  split
  · exact ⟨rfl, fun _ h => h, .refl SameSize.refl _⟩
  · rename_i ps hget
    exact ⟨rfl, fun _ h => h, .set SameSize.refl hget (length_or _ _)⟩

theorem steady_chunkSent (handle : ChunkHandle) (err : Option SendError) :
    Steady s (s.ChunkSent peer handle err) := by
  have hrefl : Steady s s := ⟨rfl, fun _ h => h, .refl SameSize.refl _⟩
  unfold ChunkSent
  split
  · exact hrefl
  rename_i ps hget
  dsimp only
  split
  · exact hrefl
  split
  · exact hrefl
  split
  · refine ⟨rfl, fun _ hs => ?_, .set SameSize.refl hget (length_set _ _)⟩
    dsimp only
    split
    · exact hs
    · exact hs.addSent _ _
  · exact ⟨rfl, fun _ hs => hs.addTimes _ _, .set SameSize.refl hget (length_unset _ _)⟩

/-! ### Polls -/

/-- What the search finds may go to the peer, and no index is lost. -/
theorem search_spec (ps : PeerState) (fuel : Nat) {h : EmitPlanner} {skipped : List EmitEntry}
    (hh : h.Indexed) (hskipped : ∀ e ∈ skipped, e.Indexed) :
    (s.search ps fuel h skipped).2.1.Indexed ∧ (∀ e ∈ (s.search ps fuel h skipped).2.2, e.Indexed) ∧
      ∀ ec, (s.search ps fuel h skipped).1 = some ec → ec.Indexed ∧ ps.bitmap.get ec.idx.toNat = false := by
  induction fuel generalizing h skipped with
  | zero => exact ⟨hh, hskipped, nofun⟩
  | succ fuel ih =>
    unfold search
    split
    · exact ⟨hh, hskipped, nofun⟩
    rename_i ec htop
    split
    · split
      · exact ⟨hh, hskipped, nofun⟩
      rename_i e h' hpop
      obtain ⟨he, hh'⟩ := hh.popFront hpop
      refine ih hh' fun e' he' => ?_
      rcases mem_append.mp he' with he' | he'
      · exact hskipped e' he'
      · rw [mem_singleton.mp he']
        exact he
    · rename_i heligible
      refine ⟨hh, hskipped, fun ec' hec => ?_⟩
      cases hec
      refine ⟨hh _ (mem_of_mem_head? htop), ?_⟩
      unfold ineligible at heligible
      simp only [Bool.or_eq_true, not_or, Bool.not_eq_true] at heligible
      exact heligible.1.1

/-- A dispatch has an index, and goes to a peer that is not known to hold the chunk. -/
def Wanted (s : State) (d : ChunkDispatch ChunkIdent) : Prop :=
  (0 ≤ d.chunkID.index ∧ d.chunkID.index < 2 ^ 63) ∧
    ∀ ps, s.peers.get d.peer = some ps → ps.bitmap.get d.chunkID.index.toNat = false

/-- A turn of a poll asks for what the peer lacks. -/
theorem still_poll {acc : List (ChunkDispatch ChunkIdent) × State} (h : Still s acc.2)
    (hwanted : ∀ d ∈ acc.1, s.Wanted d) : Still s (poll acc peer).2 ∧ ∀ d ∈ (poll acc peer).1, s.Wanted d := by
  unfold poll
  split
  · exact ⟨h, hwanted⟩
  rename_i ps hget
  split
  · exact ⟨h, hwanted⟩
  obtain ⟨hplanner, hskipped, hfound⟩ := search_spec (s := acc.2) ps (acc.2.emitPlanner.len + 1)
    h.planner (fun e (he : e ∈ []) => absurd he not_mem_nil)
  unfold allocate
  dsimp only
  generalize acc.2.search ps (acc.2.emitPlanner.len + 1) acc.2.emitPlanner [] = found at *
  have hinserted := Indexed.foldl_insert found.2.2 hskipped hplanner
  cases hf : found.1 with
  | none => exact ⟨⟨h.total, hinserted, h.bits⟩, hwanted⟩
  | some ec =>
    obtain ⟨hec, hclear⟩ := hfound ec hf
    refine ⟨⟨h.total, hinserted.addTimes _ _,
      h.bits.trans SameBits.trans (.set SameBits.refl hget ⟨rfl, fun _ => rfl⟩)⟩, fun d hd => ?_⟩
    rcases mem_append.mp hd with hd | hd
    · exact hwanted d hd
    rw [mem_singleton.mp hd]
    refine ⟨hec, fun ps₀ hps₀ => ?_⟩
    -- the bit is the one that was read before the polls
    obtain ⟨ps', hps', hbits⟩ := h.bits.forth peer ps₀ hps₀
    cases hget.symm.trans hps'
    rw [← hbits.2]
    exact hclear

theorem still_pollChunks (o : Order PeerID) (hs : s.emitPlanner.Indexed) :
    Still s (s.PollChunks o).2 ∧ ∀ d ∈ (s.PollChunks o).1, s.Wanted d := by
  have hloop : ∀ (peers : List PeerID) (acc : List (ChunkDispatch ChunkIdent) × State), Still s acc.2 →
      (∀ d ∈ acc.1, s.Wanted d) →
      Still s (peers.foldl poll acc).2 ∧ ∀ d ∈ (peers.foldl poll acc).1, s.Wanted d := by
    intro peers
    induction peers with
    | nil => exact fun acc h hw => ⟨h, hw⟩
    | cons peer peers ih =>
      intro acc h hw
      obtain ⟨h', hw'⟩ := still_poll peer h hw
      exact ih _ h' hw'
  exact hloop _ ([], s) ⟨rfl, hs, .refl SameBits.refl _⟩ fun d hd => absurd hd not_mem_nil

theorem int64_handle {ci : ChunkIdent} (h : 0 ≤ ci.index ∧ ci.index < 2 ^ 63) :
    int64 (ci.handle : Int) = ci.index := by
  have hmod : ci.index % 2 ^ 64 = ci.index := Int.emod_eq_of_lt h.1 (by omega)
  unfold ChunkIdent.handle
  rw [hmod, Int.toNat_of_nonneg h.1, int64_of_fits ⟨by omega, h.2⟩]

/-- The report of a refused dispatch clears a bit that was clear. -/
theorem still_refused {d : ChunkDispatch ChunkIdent} (hd : s.Wanted d) (h : Still s t) (err : SendError) :
    Still s (t.ChunkSent d.peer d.chunkID.handle (some err)) := by
  unfold ChunkSent
  split
  · exact h
  rename_i ps hget
  dsimp only
  rw [int64_handle hd.1]
  split
  · exact h
  split
  · exact h
  have hclear : ps.bitmap.get d.chunkID.index.toNat = false := by
    obtain ⟨ps₀, hps₀, hbits⟩ := h.bits.back d.peer ps hget
    rw [hbits.2]
    exact hd.2 ps₀ hps₀
  have hset : SameBits ps { ps with
      inflight := ps.inflight.modify d.chunkID.index.toNat (· - 1)
      bitmap := ps.bitmap.unset d.chunkID.index.toNat } :=
    ⟨length_unset _ _, get_unset_of_not hclear⟩
  exact ⟨h.total, h.planner.addTimes _ _, h.bits.trans SameBits.trans (.set SameBits.refl hget hset)⟩

end State

section Sessions

variable {env : Env} {ident : ProtoCodec Int} {codec : ProtoCodec PbPreamble} {config : Config}

variable {s : State} {sess sess' : Session State} {p : PeerID}

/-- **A poll for chunks takes nothing back**, whichever dispatches are refused. -/
theorem still_chunks (o : Order PeerID) (hs : s.emitPlanner.Indexed)
    {refused : List (ChunkDispatch ChunkIdent × SendError)} (h : ∀ r ∈ refused, r.1 ∈ (s.PollChunks o).1) :
    Still s (reportAll (scheme env ident codec config) (s.PollChunks o).2 refused) := by
  obtain ⟨hpoll, hwanted⟩ := still_pollChunks o hs
  have hloop : ∀ (l : List (ChunkDispatch ChunkIdent × SendError)) (t : State),
      (∀ r ∈ l, r.1 ∈ (s.PollChunks o).1) → Still s t →
      Still s (reportAll (scheme env ident codec config) t l) := by
    intro l
    induction l with
    | nil => exact fun t _ ht => ht
    | cons r l ih =>
      intro t hl ht
      refine ih _ (fun r' hr' => hl r' (mem_cons_of_mem _ hr')) ?_
      exact still_refused (hwanted _ (hl r mem_cons_self)) ht r.2
  exact hloop refused _ h hpoll

theorem still_pollRouting (force : Bool) (hs : s.emitPlanner.Indexed) : Still s (s.PollRouting force).2 := by
  unfold PollRouting
  split <;> exact ⟨rfl, hs, .refl SameBits.refl _⟩

/-! ## The strategies of the sessions -/

/-- The strategy of a session: whoever is attached to the session is attached to the strategy, and every
bitmap has room for all chunks. -/
structure Tracks (sess : Session State) : Prop where
  fits : sess.strategy.totalChunks < 2 ^ 63
  planner : sess.strategy.emitPlanner.Indexed
  sized : ∀ q ps, sess.strategy.peers.get q = some ps → ps.bitmap.length = bytesFor sess.strategy.totalChunks.toNat
  peers : ∀ q, (sess.peers.get q).isSome = true → (sess.strategy.peers.get q).isSome = true

theorem Tracks.steady (h : Tracks sess) (hpeers : sess'.peers = sess.peers)
    (hsteady : Steady sess.strategy sess'.strategy) : Tracks sess' := by
  refine ⟨?_, hsteady.planner h.fits h.planner, fun q ps hget => ?_, fun q hq => ?_⟩
  · rw [hsteady.total]
    exact h.fits
  · obtain ⟨ps₀, hps₀, hlen⟩ := hsteady.sizes.back q ps hget
    rw [hlen, hsteady.total]
    exact h.sized q ps₀ hps₀
  · obtain ⟨ps₀, hps₀⟩ := isSome_iff_exists.mp (h.peers q (hpeers ▸ hq))
    obtain ⟨ps, hps, _⟩ := hsteady.sizes.forth q ps₀ hps₀
    rw [hps]
    rfl

theorem Tracks.poll (h : Tracks sess) (hpoll : Session.Poll (scheme env ident codec config) sess sess') :
    Tracks sess' ∧ Still sess.strategy sess'.strategy := by
  have hstill : sess'.peers = sess.peers ∧ Still sess.strategy sess'.strategy := by
    cases hpoll with
    | books hcore =>
      have hfields := congrArg (fun s : Session State => (s.peers, s.strategy)) hcore
      obtain ⟨hpeers, hstrategy⟩ : sess'.peers = sess.peers ∧ sess'.strategy = sess.strategy := by
        simpa [Session.core] using hfields
      rw [hstrategy]
      exact ⟨hpeers, rfl, h.planner, .refl SameBits.refl _⟩
    | routing force => exact ⟨rfl, still_pollRouting force h.planner⟩
    | chunks o hrefused => exact ⟨rfl, still_chunks o h.planner hrefused⟩
  exact ⟨h.steady hstill.1 hstill.2.steady, hstill.2⟩

theorem Tracks.turn (h : Tracks sess)
    (hturn : Session.Turn (scheme env ident codec config) True sess sess') : Tracks sess' := by
  cases hturn with
  | poll hpoll => exact (h.poll hpoll).1
  | verify peer chunk data => exact h.steady rfl ⟨rfl, fun _ h => h, .refl SameSize.refl _⟩
  | take _ => exact h.steady rfl (steady_take _ _ _)
  | routing peer update => exact h.steady rfl (steady_routingUpdate peer update)
  | sent peer handle err => exact h.steady rfl (steady_chunkSent peer handle err)
  | stage _ _ => exact ⟨h.fits, h.planner, h.sized, h.peers⟩
  | @join pid sp hnew =>
    refine ⟨h.fits, h.planner, fun q ps hget => ?_, fun q hq => ?_⟩
    · have hget : (sess.strategy.peers.set pid _).get q = some ps := hget
      rw [Map.get_set] at hget
      split at hget
      · cases hget
        exact length_new _
      · exact h.sized q ps hget
    show ((sess.strategy.peers.set pid _).get q).isSome = true
    dsimp only at hq
    rw [Map.get_set] at hq ⊢
    split
    · rfl
    rename_i hne
    rw [if_neg hne] at hq
    exact h.peers q hq
  | drop pid =>
    show Tracks { sess with
      peers := sess.peers.del pid
      strategy := sess.strategy.DetachPeer pid false }
    unfold DetachPeer
    split
    · rename_i hnone
      refine ⟨h.fits, h.planner, h.sized, fun q hq => ?_⟩
      dsimp only at hq
      rw [Map.get_del] at hq
      split at hq
      · cases hq
      · exact h.peers q hq
    rw [if_neg (by decide)]
    refine ⟨h.fits, h.planner, fun q ps hget => ?_, fun q hq => ?_⟩
    · dsimp only at hget
      rw [Map.get_del] at hget
      split at hget
      · cases hget
      · exact h.sized q ps hget
    dsimp only at hq ⊢
    rw [Map.get_del] at hq ⊢
    split at hq
    · cases hq
    rename_i hne
    rw [if_neg hne]
    exact h.peers q hq
  | @complete pid sp hget =>
    have hdetach : Steady sess.strategy (sess.strategy.DetachPeer pid true) := by
      unfold DetachPeer
      split
      · exact ⟨rfl, fun _ h => h, .refl SameSize.refl _⟩
      rename_i ps hps
      rw [if_pos rfl]
      exact ⟨rfl, fun _ h => h, .set SameSize.refl hps rfl⟩
    have htracks : Tracks { sess with strategy := sess.strategy.DetachPeer pid true } :=
      h.steady rfl hdetach
    refine ⟨htracks.fits, htracks.planner, htracks.sized, fun q hq => htracks.peers q ?_⟩
    dsimp only at hq ⊢
    rw [Map.get_set] at hq
    split at hq
    · rename_i hq'
      rw [hq', hget]
      rfl
    · exact hq

theorem tracks_of_arises (hR : env.reedSolomon.Fills)
    (h : sess.Arises (scheme env ident codec config) True) : Tracks sess := by
  induction h with
  | @relay s seed p hpreamble hnew hstage hpeers =>
    have hnew' : (newRelayStrategy config seed (some p)).toOption = some s.strategy := hnew
    unfold newRelayStrategy at hnew'
    dsimp only at hnew'
    split at hnew'
    · cases hnew'
    have hstrategy := some.inj hnew'
    refine ⟨?_, ?_, fun q ps hget => ?_, fun q hq => ?_⟩
    · rw [← hstrategy]
      exact (fits_int64 _).2
    · rw [← hstrategy]
      exact fun e he => absurd he not_mem_nil
    · rw [← hstrategy] at hget
      cases hget
    · rw [hpeers] at hq
      cases hq
  | @origin s payload p hnew hstage hpeers =>
    have hok : newOriginStrategy env config payload = .ok s.strategy := by
      obtain ⟨strategy, hstrategy, heq⟩ := map_eq_some_iff.mp hnew
      obtain ⟨rfl, _⟩ := Prod.mk.inj heq
      cases hres : newOriginStrategy env config payload with
      | error e =>
        rw [hres] at hstrategy
        cases hstrategy
      | ok strategy =>
        rw [hres] at hstrategy
        rw [some.inj hstrategy]
    obtain ⟨pre, c, msg, shards, out, _, hrs, _, _, hout, _, _, htotal, hnone, hplanner, _⟩ := newOrigin_calls hok
    obtain ⟨hd, hp, hbound⟩ := hR.new_bounds _ _ hrs
    have hcount := hR.encoded _ _ _ _ hout
    refine ⟨?_, ?_, fun q ps hget => ?_, fun q hq => ?_⟩
    · rw [htotal]
      exact (fits_int64 _).2
    · rw [hplanner, ← foldl_map (f := fun i : Nat => ({ idx := i } : EmitEntry)) (g := Insert)]
      refine Indexed.foldl_insert _ (fun e he => ?_) fun e he => absurd he not_mem_nil
      obtain ⟨i, hi, rfl⟩ := mem_map.mp he
      have hi := mem_range.mp hi
      refine ⟨Int.natCast_nonneg _, ?_⟩
      dsimp only
      omega
    · rw [hnone] at hget
      cases hget
    · rw [hpeers] at hq
      cases hq
  | turn _ hturn ih => exact ih.turn hturn

/-! ## Updates -/

/-- The strategy knows that `p` has every chunk of `update`. -/
def State.Knows (s : State) (p : PeerID) (update : Bitmap) : Prop :=
  ∃ ps, s.peers.get p = some ps ∧ ∀ i : Nat, (i : Int) < s.totalChunks → update.get i = true → ps.bitmap.get i = true

theorem State.Knows.still {t : State} {update : Bitmap} (h : s.Knows p update)
    (hstill : Still s t) : t.Knows p update := by
  obtain ⟨ps, hget, hbits⟩ := h
  obtain ⟨ps', hget', hsame⟩ := hstill.bits.forth p ps hget
  refine ⟨ps', hget', fun i hi hupdate => ?_⟩
  rw [hsame.2]
  exact hbits i (hstill.total ▸ hi) hupdate

theorem knows_routingUpdate (h : Tracks sess) (hpeer : (sess.peers.get p).isSome = true) (update : Bitmap) :
    (sess.strategy.RoutingUpdate p (some update)).1.Knows p update := by
  obtain ⟨ps, hps⟩ := isSome_iff_exists.mp (h.peers p hpeer)
  unfold RoutingUpdate
  rw [hps]
  dsimp only
  refine ⟨{ ps with bitmap := ps.bitmap.or update }, ?_, fun i hi hupdate => ?_⟩
  · rw [Map.get_set, if_pos rfl]
  have hsize := h.sized p ps hps
  have hroom : i < ps.bitmap.length * 8 := by
    rw [hsize, bytesFor]
    dsimp only at hi
    omega
  dsimp only
  rw [get_or hroom, hupdate, Bool.or_true]

/-- What was merged is known. -/
theorem knows_of_merged (hR : env.reedSolomon.Fills) {data : Bytes}
    (h : sess.Merged (scheme env ident codec config) p data) : sess.strategy.Knows p data := by
  obtain ⟨s, update, harises, hpeer, hupdate, hpolls⟩ := h
  obtain rfl : data = update := some.inj hupdate
  have htracks := tracks_of_arises hR harises
  have hmerged : Tracks { s with strategy := (s.strategy.RoutingUpdate p (some data)).1 } :=
    htracks.steady rfl (steady_routingUpdate p data)
  have hknows := knows_routingUpdate htracks hpeer data
  suffices hall : Tracks sess ∧ sess.strategy.Knows p data from hall.2
  induction hpolls with
  | refl => exact ⟨hmerged, hknows⟩
  | tail _ hpoll ih =>
    obtain ⟨htracks', hstill⟩ := ih.1.poll hpoll
    exact ⟨htracks', ih.2.still hstill⟩

/-- What the handling of an OPEN leaves, when members are attached. -/
theorem open_known (hR : env.reedSolomon.Fills) {luck : Nat → Chance} {x : Channel State}
    {msg : SessOpen} (hinv : x.JoinInv msg.objectId p) (hlineage : x.Lineage (scheme env ident codec config) True)
    (hdue : x.due = some (.sessionOpen p msg)) {c : ConnRef} (hmember : x.members.get p = some c)
    (haccepts : x.Accepts (scheme env ident codec config) luck msg) :
    ∃ sess, (x.next (scheme env ident codec config) luck).sessions.get msg.objectId = some sess ∧
      (sess.peers.get p).isSome = true ∧ sess.strategy.Knows p msg.initialUpdate := by
  obtain ⟨rest, _, _, hhandle⟩ := next_of_some (scheme env ident codec config) luck hdue
  rw [hhandle]
  have hpop : (x.onWorld fun w => { w with inbox := rest }).Lineage (scheme env ident codec config) True :=
    hlineage.of_same rfl
  have hjoined : (x.onWorld fun w => { w with inbox := rest }).Includes msg.objectId p :=
    (hinv.joined c hmember).of_same rfl
  obtain ⟨sess, hget, hpeer, hmerged⟩ :=
    open_merges hpop hjoined hmember (hinv.named c hmember) haccepts
  refine ⟨sess, hget, hpeer, ?_⟩
  by_cases hempty : msg.initialUpdate = []
  · -- an empty update says nothing
    have hvouches : Vouches (scheme env ident codec config) True (.sessionOpen p msg : Event State) :=
      trivial
    have harises := lineage_handle hpop hvouches msg.objectId sess hget
    obtain ⟨ps, hps⟩ := isSome_iff_exists.mp ((tracks_of_arises hR harises).peers p hpeer)
    refine ⟨ps, hps, fun i _ hi => ?_⟩
    rw [hempty] at hi
    cases hi
  · exact knows_of_merged hR (hmerged hempty msg.initialUpdate rfl)

end Sessions

/-- **The OPEN of a member is merged.**  In every state that a channel of this code reaches, the handling of an
OPEN of a member, for a session that exists or with a preamble that is accepted, leaves the opener attached to
the session, and the session's strategy knows every chunk of the initial update to be held by the opener.  The
condition is about the SESS streams of this peer for this message: whenever one of them ended, the session
ended too. -/
theorem open_is_merged (env : Env) (hR : env.reedSolomon.Fills) (ident : ProtoCodec Int)
    (codec : ProtoCodec PbPreamble) (config : Config) (luck : Nat → Chance) (channelID : ChannelID)
    (ids : ConnRef → PeerID) (sub : Option Subscription) (p : PeerID) (msg : SessOpen)
    (ops : List (Op State)) (hops : Along (step (scheme env ident codec config) luck)
      (Lasts msg.objectId p) (.init channelID ids sub) ops) :
    let sch := scheme env ident codec config
    let x := exec (step sch luck) (.init channelID ids sub) ops
    x.due = some (.sessionOpen p msg) → ∀ c, x.members.get p = some c → x.Accepts sch luck msg →
      ∃ sess, (x.next sch luck).sessions.get msg.objectId = some sess ∧
        (sess.peers.get p).isSome = true ∧ sess.strategy.Knows p msg.initialUpdate := by
  intro sch x hdue c hmember haccepts
  have hinv : x.JoinInv msg.objectId p :=
    joinInv_run sch luck msg.objectId p channelID ids sub hops
  have hlineage : x.Lineage sch True :=
    lineage_run sch luck True channelID ids sub fun op _ => unwatched_true op
  exact open_known hR hinv hlineage hdue hmember haccepts

/-- `a` and `b` join, and `a` opens the message. -/
def bothOpen : List (Op State) :=
  [.post (.peerChange ⟨"a", some 0⟩), .post (.peerChange ⟨"b", some 1⟩), .next, .next,
    .post (.sessionOpen "a" ⟨"m", [1], []⟩), .next]

theorem open_is_merged_pair :
    let x := pairRun (bothOpen ++ [.post (.sessionOpen "a" ⟨"m", [1], [2]⟩)])
    ∃ sess, (x.next copiesScheme storedChance).sessions.get "m" = some sess ∧
      (sess.peers.get "a").isSome = true ∧ sess.strategy.Knows "a" [2] := by
  have hdue : (pairRun (bothOpen ++ [.post (.sessionOpen "a" ⟨"m", [1], [2]⟩)])).due =
      some (.sessionOpen "a" ⟨"m", [1], [2]⟩) := by
    rfl
  have hmember : (pairRun (bothOpen ++ [.post (.sessionOpen "a" ⟨"m", [1], [2]⟩)])).members.get "a" =
      some 0 := by decide +kernel
  have hsession : ((pairRun (bothOpen ++ [.post (.sessionOpen "a" ⟨"m", [1], [2]⟩)])).sessions.get
      "m").isSome = true := by decide +kernel
  have hops : Along (step copiesScheme storedChance) (Lasts "m" "a") pairInit
      (bothOpen ++ [.post (.sessionOpen "a" ⟨"m", [1], [2]⟩)]) := by
    decide +kernel
  unfold pairRun pairInit at *
  exact open_is_merged copies repetition_fills byteCodec copiesCodec fourBytes storedChance "c" _ _ "a"
    ⟨"m", [1], [2]⟩ _ hops hdue 0 hmember (.inl (isSome_iff_ne_none.mp hsession))

/-- The SESS stream of `a` ends, and `a` opens the message again: it is a member and the session is there, but
`a` is not attached, and its update is lost. -/
theorem second_open_ignored :
    let x := pairRun (bothOpen ++ [.post (.peerSessionEnded "m" "a" 0), .next,
      .post (.sessionOpen "a" ⟨"m", [1], [2]⟩)])
    let y := x.next copiesScheme storedChance
    x.due = some (.sessionOpen "a" ⟨"m", [1], [2]⟩) ∧ x.members.get "a" = some 0 ∧
      (y.sessions.get "m").map (fun sess => ((sess.peers.get "a").isSome, (sess.strategy.peers.get "a").isSome)) =
        some (false, false) := by
  refine ⟨rfl, ?_, ?_⟩
  · decide +kernel
  · decide +kernel

end EthP2P.Rs
