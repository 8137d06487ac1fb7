/-
# EthP2P.Rs.Verified — a relay holds and returns only what its preamble vouches for

Peers choose the preamble of a relay session and every byte that follows it.  Whatever they send, each chunk
that the relay holds has the hash that the preamble lists for its index, `Decode` indexes no slice out of
range and asks for no impossible allocation, and what it returns has the length and the hash of the preamble.

The argument has three parts.  `Holds` is what a relay's strategy keeps through its calls, and all calls but
`TakeChunk` are framed out.  `Holds.decode` reads the safety of `Decode` off it.  `relay_chunks_verified`
places both in the channel: every session of a reachable state arises from a new one by such calls.

Of the Reed-Solomon library it is assumed that a call returns, that `New` bounds the number of shards, that
the calls work in place, and that `ReconstructData` fills in shards of the size that the others have
(`ReedSolomon.Fills`).  The hash is
any function on byte strings.
-/
import EthP2P.Broadcast.Ancestry

namespace EthP2P.Rs

open Lib Wire Broadcast Channel Preamble

/-- What decoding relies on, whatever the shards contain. -/
structure ReedSolomon.Fills (R : ReedSolomon) : Prop where
  new_bounds : ∀ d p, R.new d p = true → 0 < d ∧ 0 ≤ p ∧ d + p ≤ 65536
  /-- `Encode` wants as many shards as there are, and fills them in place. -/
  encoded : ∀ d p shards out, R.encode d p shards = some out → out.length = d + p
  /-- So does `ReconstructData`. -/
  in_place : ∀ d p shards out, R.reconstructData d p shards = some out → shards.length = d + p → out.length = d + p
  /-- A shard that is filled in is as long as one that was there. -/
  sizes : ∀ d p shards out, R.reconstructData d p shards = some out →
    ∀ s, some s ∈ out → ∃ t, some t ∈ shards ∧ s.length = t.length

/-! ## What a relay's strategy keeps -/

/-- The counts of the preamble agree with the slice of chunks, and every chunk that is held was admitted and
verified. -/
structure State.Holds (env : Env) (s : State) : Prop where
  data : 0 < s.preamble.dataChunks
  parity : 0 ≤ s.preamble.parityChunks
  size : (s.chunks.length : Int) = s.preamble.dataChunks + s.preamble.parityChunks
  chunks : ∀ (i : Nat) (data : Bytes), s.chunks[i]? = some (some data) →
    s.preamble.chunkHashes[i]? = some (env.sha256 data) ∧ data.length ≤ maxChunkDataSize

namespace State.Holds

variable {env : Env} {s t : State}

theorem of_frame (h : s.Holds env) (hf : s.Frame t) : t.Holds env := by
  refine ⟨?_, ?_, ?_, ?_⟩
  · rw [hf.preamble]
    exact h.data
  · rw [hf.preamble]
    exact h.parity
  · rw [hf.chunks, hf.preamble]
    exact h.size
  · rw [hf.chunks, hf.preamble]
    exact h.chunks

/-- A new relay holds nothing. -/
theorem newRelay (env : Env) {config : Config} {seed : UInt64} {p : Preamble}
    (hd : FitsInt32 p.dataChunks) (hp : FitsInt32 p.parityChunks)
    (h : newRelayStrategy config seed (some p) = .ok s) : s.Holds env ∧ s.preamble = p := by
  unfold newRelayStrategy at h
  dsimp only at h
  split at h
  · cases h
  rename_i hwell
  cases h
  -- the counts are 32-bit fields, so their sum does not wrap
  have htotal : p.totalChunks = p.dataChunks + p.parityChunks := by
    refine int64_of_fits ?_
    unfold FitsInt32 at hd hp
    constructor
    · omega
    · omega
  refine ⟨⟨by dsimp only; omega, by dsimp only; omega, ?_, fun i data hget => ?_⟩, rfl⟩
  · dsimp only
    rw [List.length_replicate, htotal]
    omega
  dsimp only at hget
  rw [List.getElem?_replicate] at hget
  split at hget
  · cases hget
  · cases hget

/-- A verified chunk is put where its hash is listed. -/
theorem take (h : s.Holds env) {peer : PeerID} {chunkID : ChunkIdent} {data : Bytes}
    (hverified : s.VerifyChunk env peer chunkID data = .accepted) (hsize : data.length ≤ maxChunkDataSize) :
    (s.TakeChunk peer chunkID data).state.Holds env := by
  have hhash : s.preamble.chunkHashes[chunkID.index.toNat]? = some (env.sha256 data) := by
    unfold VerifyChunk verifyChunk at hverified
    split at hverified
    · cases hverified
    split at hverified
    · cases hverified
    split at hverified
    · cases hverified
    rename_i hash hget
    split at hverified
    · rename_i heq
      rw [hget, heq]
    · cases hverified
  have hstore : (s.store peer chunkID.index.toNat data).preamble = s.preamble ∧
      (s.store peer chunkID.index.toNat data).chunks = s.chunks.set chunkID.index.toNat (some data) := by
    obtain ⟨hpreamble, _, hchunks, _⟩ := place_fields s peer chunkID.index.toNat data
    unfold store
    dsimp only
    split <;> exact ⟨hpreamble, hchunks⟩
  unfold TakeChunk
  split
  · exact h
  split
  · exact h
  split
  · exact h
  dsimp only
  refine ⟨?_, ?_, ?_, fun i data' hget => ?_⟩
  · rw [hstore.1]
    exact h.data
  · rw [hstore.1]
    exact h.parity
  · rw [hstore.2, hstore.1, List.length_set]
    exact h.size
  rw [hstore.2, List.getElem?_set] at hget
  rw [hstore.1]
  split at hget
  · rename_i hi
    split at hget
    · cases hget
      exact ⟨hi ▸ hhash, hsize⟩
    · cases hget
  · exact h.chunks i data' hget

/-- Decoding does not panic, and what it returns is what the preamble describes. -/
theorem decode (h : s.Holds env) (hR : env.reedSolomon.Fills) :
    s.Decode env ≠ .error .panicked ∧ ∀ payload, s.Decode env = .ok payload →
      (payload.length : Int) = s.preamble.messageLength ∧ env.sha256 payload = s.preamble.messageHash := by
  unfold Decode
  dsimp only
  split
  · exact ⟨nofun, nofun⟩
  rename_i hnew
  obtain ⟨hd, hp, htotal⟩ := hR.new_bounds _ _ (by simpa using hnew)
  split
  · exact ⟨nofun, nofun⟩
  rename_i shards hshards
  have hcount : s.chunks.length = s.preamble.dataChunks.toNat + s.preamble.parityChunks.toNat := by
    have hsize := h.size
    omega
  have hlen := hR.in_place _ _ _ _ hshards hcount
  have hjoined : joined shards s.preamble.dataChunks =
      .ok ((shards.take s.preamble.dataChunks.toNat).map fun o => o.getD []).flatten :=
    if_neg (by omega)
  split
  · rename_i hnil
    rw [List.head?_eq_none_iff.mp hnil, List.length_nil] at hlen
    omega
  rename_i first hfirst
  -- the first shard is as long as one that was admitted
  have hsmall : (first.getD []).length ≤ maxChunkDataSize := by
    cases first with
    | none => exact Nat.zero_le _
    | some shard =>
      obtain ⟨t, ht, heq⟩ := hR.sizes _ _ _ _ hshards shard (List.mem_of_mem_head? hfirst)
      obtain ⟨i, hi⟩ := List.getElem?_of_mem ht
      rw [Option.getD_some, heq]
      exact (h.chunks i t hi).2
  have hcap : 0 ≤ s.preamble.dataChunks * ((first.getD []).length : Int) ∧
      s.preamble.dataChunks * ((first.getD []).length : Int) ≤ 65536 * 2 ^ 20 := by
    constructor
    · exact Int.mul_nonneg hd.le (Int.natCast_nonneg _)
    · refine mul_le_mul (by omega) ?_ (Int.natCast_nonneg _) (by decide)
      exact_mod_cast hsmall
  rw [int64_of_fits ⟨by omega, by omega⟩, if_neg (by unfold maxAlloc; omega), hjoined]
  dsimp only
  split
  · exact ⟨nofun, nofun⟩
  rename_i hmessage
  split
  · exact ⟨nofun, nofun⟩
  rename_i hhash
  refine ⟨nofun, fun payload hpayload => ?_⟩
  cases hpayload
  refine ⟨?_, not_not.mp hhash⟩
  rw [List.length_take]
  omega

end State.Holds

/-! ## In the channel -/

section Sessions

variable {env : Env} {ident : ProtoCodec Int} {codec : ProtoCodec PbPreamble} {config : Config}

theorem reportAll_frame (s : State) (refused : List (ChunkDispatch ChunkIdent × SendError)) :
    s.Frame (reportAll (scheme env ident codec config) s refused) := by
  unfold reportAll
  exact foldl_rel (r := State.Frame) State.Frame.refl State.Frame.trans
    (fun s r => s.chunkSent_frame r.1.peer r.1.chunkID.handle (some r.2)) refused s

/-- A session that is not an origin has a relay's strategy, made from its preamble. -/
def Relays (env : Env) (codec : ProtoCodec PbPreamble) (sess : Session State) : Prop :=
  sess.stage ≠ .origin → sess.strategy.Holds env ∧ unmarshal codec sess.preamble = some sess.strategy.preamble

theorem Relays.frame {sess sess' : Session State} (h : Relays env codec sess)
    (hstage : sess'.stage = sess.stage) (hpreamble : sess'.preamble = sess.preamble)
    (hframe : sess.strategy.Frame sess'.strategy) : Relays env codec sess' := by
  intro hrelay
  obtain ⟨hholds, hmade⟩ := h (hstage ▸ hrelay)
  refine ⟨hholds.of_frame hframe, ?_⟩
  rw [hpreamble, hframe.preamble]
  exact hmade

/-- One change of a session, made without verification workers. -/
theorem Relays.turn {sess sess' : Session State} (h : Relays env codec sess)
    (hturn : Session.Turn (scheme env ident codec config) False sess sess') : Relays env codec sess' := by
  cases hturn with
  | poll hpoll =>
    cases hpoll with
    | books hcore =>
      obtain ⟨hstage, hpreamble, hstrategy⟩ : sess'.stage = sess.stage ∧ sess'.preamble = sess.preamble ∧
          sess'.strategy = sess.strategy := by
        have hfields := congrArg (fun s : Session State => (s.stage, s.preamble, s.strategy)) hcore
        simpa [Session.core] using hfields
      refine h.frame hstage hpreamble ?_
      rw [hstrategy]
      exact .refl _
    | routing force => exact h.frame rfl rfl (sess.strategy.pollRouting_frame force)
    | chunks o hrefused =>
      exact h.frame rfl rfl ((sess.strategy.pollChunks_frame o).trans (reportAll_frame _ _))
  | verify peer chunk data => exact h.frame rfl rfl (.refl _)
  | @take peer chunk data hchecked =>
    obtain ⟨hsize, before, hverified⟩ := hchecked.resolve_left id
    obtain ⟨haccepted, rfl⟩ := Prod.mk.inj hverified
    intro hrelay
    obtain ⟨hholds, hmade⟩ := h hrelay
    have hpreamble : (sess.strategy.TakeChunk peer chunk data).state.preamble = sess.strategy.preamble := by
      unfold State.TakeChunk State.store
      dsimp only
      have hplace := (sess.strategy.place_fields peer chunk.index.toNat data).1
      split
      · rfl
      split
      · rfl
      split
      · rfl
      split <;> exact hplace
    refine ⟨hholds.take haccepted hsize, ?_⟩
    show unmarshal codec sess.preamble = some (sess.strategy.TakeChunk peer chunk data).state.preamble
    rw [hpreamble]
    exact hmade
  | routing peer update => exact h.frame rfl rfl (sess.strategy.routingUpdate_frame peer (some update))
  | sent peer handle err => exact h.frame rfl rfl (sess.strategy.chunkSent_frame peer handle err)
  | stage hbefore hafter => exact fun _ => h hbefore
  | join sp hnew => exact h.frame rfl rfl ⟨rfl, rfl, rfl, rfl, rfl⟩
  | drop pid => exact h.frame rfl rfl (sess.strategy.detachPeer_frame pid false)
  | complete hget => exact h.frame rfl rfl (sess.strategy.detachPeer_frame _ true)

theorem relays_of_arises {sess : Session State}
    (h : sess.Arises (scheme env ident codec config) False) : Relays env codec sess := by
  induction h with
  | @relay s seed p hpreamble hnew hstage hpeers =>
    intro _
    -- the fields of a preamble that was read are 32-bit integers
    obtain ⟨pb, hpb, rfl⟩ := Option.map_eq_some_iff.mp hpreamble
    have hok : newRelayStrategy config seed (some (ofPb pb)) = .ok s.strategy := by
      have hnew' : (newRelayStrategy config seed (some (ofPb pb))).toOption = some s.strategy := hnew
      cases hres : newRelayStrategy config seed (some (ofPb pb)) with
      | error e =>
        rw [hres] at hnew'
        cases hnew'
      | ok strategy =>
        rw [hres] at hnew'
        rw [Option.some.inj hnew']
    obtain ⟨hholds, hmade⟩ := State.Holds.newRelay env (pb.fits _ (by simp [ofPb])) (pb.fits _ (by simp [ofPb])) hok
    exact ⟨hholds, hmade ▸ hpreamble⟩
  | origin hnew hstage hpeers => exact fun hrelay => absurd hstage hrelay
  | turn _ hturn ih => exact ih.turn hturn

end Sessions

/-- **A relay holds only verified chunks, and decodes safely.**  In every state that a channel of this code
reaches, whatever preambles, chunk identifiers and payloads the peers send: a session that is not our own
publication was made from a preamble that was read off the wire, every chunk it holds has the hash listed
for its index, `Decode` does not panic, and a payload that `Decode` returns has the length and the hash of
the preamble.  The strategy has no verification workers, so no chunk is accepted by a `verifyResult`. -/
theorem relay_chunks_verified (env : Env) (hR : env.reedSolomon.Fills) (ident : ProtoCodec Int)
    (codec : ProtoCodec PbPreamble) (config : Config) (luck : Nat → Chance) (channelID : ChannelID)
    (ids : ConnRef → PeerID) (sub : Option Subscription) (ops : List (Op State))
    (hops : ∀ op ∈ ops, Unwatched False op) :
    let x := exec (step (scheme env ident codec config) luck) (.init channelID ids sub) ops
    ∀ m sess, x.sessions.get m = some sess → sess.stage ≠ .origin →
      unmarshal codec sess.preamble = some sess.strategy.preamble ∧
      (∀ (i : Nat) (data : Bytes), sess.strategy.chunks[i]? = some (some data) →
        sess.strategy.preamble.chunkHashes[i]? = some (env.sha256 data)) ∧
      sess.strategy.Decode env ≠ .error .panicked ∧
      ∀ payload, sess.strategy.Decode env = .ok payload →
        (payload.length : Int) = sess.strategy.preamble.messageLength ∧
          env.sha256 payload = sess.strategy.preamble.messageHash := by
  intro x m sess hget hrelay
  have harises := lineage_run (scheme env ident codec config) luck False channelID ids sub hops m sess hget
  obtain ⟨hholds, hmade⟩ := relays_of_arises harises hrelay
  exact ⟨hmade, fun i data hi => (hholds.chunks i data hi).1, hholds.decode hR⟩

theorem repetition_fills : repetition.Fills where
  new_bounds d p h := by
    have h : d = 1 ∧ 0 ≤ p ∧ p ≤ 65535 := of_decide_eq_true h
    omega
  encoded d p shards out h := by
    simp only [repetition] at h
    split at h
    · obtain ⟨o, _, rfl⟩ := Option.map_eq_some_iff.mp h
      exact List.length_replicate ..
    · cases h
  in_place d p shards out h hcount := by
    simp only [repetition] at h
    split at h
    · obtain ⟨o, _, rfl⟩ := Option.map_eq_some_iff.mp h
      exact List.length_replicate ..
    · cases h
  sizes d p shards out h s hs := by
    simp only [repetition] at h
    split at h
    · obtain ⟨o, ho, rfl⟩ := Option.map_eq_some_iff.mp h
      rw [← List.eq_of_mem_replicate hs] at ho
      exact ⟨s, List.mem_of_find?_eq_some ho, rfl⟩
    · cases h

/-- The relay that received the parity chunk holds it under its hash, and decodes. -/
theorem relay_chunks_verified_copies :
    ∃ sess, (pairRun relayDecodes).sessions.get "m" = some sess ∧ sess.stage = .decoding ∧
      sess.strategy.chunks[1]? = some (some [7, 8, 9, 0]) ∧
      sess.strategy.preamble.chunkHashes[1]? = some [7, 8, 9, 0] ∧
      sess.strategy.Decode copies ≠ .error .panicked := by
  obtain ⟨sess, hget, hstage, hchunk⟩ : ∃ sess,
      (pairRun relayDecodes).sessions.get "m" = some sess ∧ sess.stage = .decoding ∧
        sess.strategy.chunks[1]? = some (some [7, 8, 9, 0]) := by
    cases h : (pairRun relayDecodes).sessions.get "m" with
    | none => exact absurd h (by decide +kernel)
    | some sess =>
      have hdone : ((pairRun relayDecodes).sessions.get "m").map
          (fun sess => (sess.stage, sess.strategy.chunks[1]?)) =
          some (.decoding, some (some [7, 8, 9, 0])) := by decide +kernel
      rw [h] at hdone
      obtain ⟨h₁, h₂⟩ := Prod.mk.inj (Option.some.inj hdone)
      exact ⟨sess, rfl, h₁, h₂⟩
  have hrelay : sess.stage ≠ .origin := by
    rw [hstage]
    nofun
  have hops : ∀ op ∈ relayDecodes, Unwatched False op := by
    intro op hop
    simp only [relayDecodes, List.mem_cons, List.not_mem_nil, or_false] at hop
    rcases hop with rfl | rfl | rfl | rfl | rfl | rfl | rfl | rfl | rfl | rfl | rfl | rfl
    all_goals trivial
  unfold pairRun pairInit at hget ⊢
  obtain ⟨_, hhash, hsafe, _⟩ := relay_chunks_verified copies repetition_fills byteCodec copiesCodec fourBytes
    storedChance _ _ _ relayDecodes hops "m" sess hget hrelay
  exact ⟨sess, hget, hstage, hchunk, hhash 1 _ hchunk, hsafe⟩

end EthP2P.Rs
