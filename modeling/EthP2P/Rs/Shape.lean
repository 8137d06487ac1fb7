/-
# EthP2P.Rs.Shape — what an origin hands to the Reed-Solomon library

Whenever `newOriginStrategy` succeeds, its arithmetic did not overflow and its padding is long enough:
the shards are `d + p` blocks of one positive length, and the first `d` of them joined begin with the
payload (`newOrigin_spec`).  This is the only place where the machine arithmetic of `initPreamble`
matters; every later argument works with the numbers `d`, `p` and `n` found here.
-/
import Mathlib.Tactic.Ring
import EthP2P.Rs.Strategy

namespace EthP2P.Rs

open Lib Wire

/-! ## Arithmetic of `initPreamble` -/

/-- Rounded-up division, as long as the sum of the operands is at most `2^63`: at exactly `2^63` the
wrap of the sum is undone by the wrap of the subtraction. -/
theorem divCeil_spec {n d q : Int} (hn : 0 ≤ n) (hd : 0 < d) (hsum : n + d ≤ 2 ^ 63)
    (hfit : d < 2 ^ 63) (h : divCeil n d = .ok q) : 0 ≤ q ∧ n ≤ d * q ∧ d * q ≤ n + d - 1 := by
  have hdiv : int64 ((int64 (int64 (n + d) - 1)).tdiv d) = q := by
    unfold divCeil at h
    rw [if_neg (by omega)] at h
    exact Except.ok.inj h
  have hnum : int64 (int64 (n + d) - 1) = n + d - 1 := by
    by_cases hmax : n + d = 2 ^ 63
    · rw [hmax]
      decide
    · rw [int64_of_fits (x := n + d) ⟨by omega, by omega⟩, int64_of_fits ⟨by omega, by omega⟩]
  have hpos : 0 ≤ n + d - 1 := by omega
  rw [hnum, Int.tdiv_eq_ediv_of_nonneg hpos] at hdiv
  have hq : 0 ≤ (n + d - 1) / d := Int.ediv_nonneg hpos hd.le
  have hle : (n + d - 1) / d ≤ n + d - 1 := Int.ediv_le_self _ hpos
  rw [int64_of_fits ⟨by omega, by omega⟩] at hdiv
  have hlower := Int.mul_ediv_self_le (x := n + d - 1) (k := d) (by omega)
  have hupper := Int.lt_mul_ediv_self_add (x := n + d - 1) (k := d) hd
  rw [hdiv] at hlower hupper hq
  exact ⟨hq, by omega, hlower⟩

/-- Beyond `2^63` the quotient is not positive. -/
theorem divCeil_overflow {n d q : Int} (hn : n < 2 ^ 31) (hn0 : 0 ≤ n) (hsum : 2 ^ 63 < n + d)
    (hfit : d < 2 ^ 63) (h : divCeil n d = .ok q) : q ≤ 0 := by
  have hdiv : int64 ((int64 (int64 (n + d) - 1)).tdiv d) = q := by
    unfold divCeil at h
    rw [if_neg (by omega)] at h
    exact Except.ok.inj h
  have hnum : int64 (int64 (n + d) - 1) = -(2 ^ 64 + 1 - n - d) := by
    rw [int64_sub_period (n + d), int64_of_fits (x := n + d - 2 ^ 64) ⟨by omega, by omega⟩,
      int64_of_fits ⟨by omega, by omega⟩]
    omega
  have hpos : 0 ≤ 2 ^ 64 + 1 - n - d := by omega
  have hquot : 0 ≤ (2 ^ 64 + 1 - n - d) / d := Int.ediv_nonneg hpos (by omega)
  have hle : (2 ^ 64 + 1 - n - d) / d ≤ 2 ^ 64 + 1 - n - d := Int.ediv_le_self _ hpos
  rw [hnum, Int.neg_tdiv, Int.tdiv_eq_ediv_of_nonneg hpos, int64_of_fits ⟨by omega, by omega⟩] at hdiv
  omega

/-- What the admission of the code's parameters and the length checks leave of `initPreamble`: the
data chunks hold the message, the message is not empty, and the product of the chunk length and the
number of chunks stays below `2^64`. -/
theorem initPreamble_spec {cfg : Config} {n c : Int} {pre : Preamble} (hn : 0 ≤ n)
    (hn' : n < 2 ^ 31) (h : initPreamble cfg n = .ok (pre, c)) (hd : 0 < pre.dataChunks)
    (hp : 0 ≤ pre.parityChunks) (htotal : pre.dataChunks + pre.parityChunks ≤ 65536) (hc : 1 ≤ c) :
    pre.messageLength = n ∧ 0 < n ∧ n ≤ pre.dataChunks * c ∧ c * (pre.dataChunks + pre.parityChunks) < 2 ^ 64 := by
  unfold initPreamble at h
  split at h
  · -- the number of shards is configured and the length derived
    cases hq : divCeil n cfg.dataShards with
    | error e => simp [hq, bind, Except.bind] at h
    | ok q =>
      simp only [hq, bind, Except.bind, pure, Except.pure, Except.ok.injEq, Prod.mk.injEq] at h
      obtain ⟨rfl, hlen⟩ := h
      dsimp only at hd hp htotal ⊢
      obtain ⟨hq0, hlower, hupper⟩ := divCeil_spec hn hd (by omega) (by omega) hq
      have hqd : q ≤ cfg.dataShards * q := le_mul_of_one_le_left hq0 hd
      obtain ⟨hqc, hcq, hzero⟩ : q ≤ c ∧ c < q + 64 ∧ (q = 0 → c = 0) := by
        rw [Int.tmod_eq_emod_of_nonneg hq0, Int.tmod_eq_emod_of_nonneg (by omega)] at hlen
        split at hlen
        · rw [int64_of_fits ⟨by omega, by omega⟩] at hlen
          omega
        · omega
      have hpos : 0 < n := by
        by_contra hneg
        have hnil : q = 0 := by
          by_contra hne
          have hone : cfg.dataShards ≤ cfg.dataShards * q :=
            le_mul_of_one_le_right hd.le (by omega)
          omega
        have := hzero hnil
        omega
      have hgrow : cfg.dataShards * q ≤ cfg.dataShards * c := mul_le_mul_of_nonneg_left hqc hd.le
      have hprod : c * (cfg.dataShards + cfg.parityShards) ≤ 2 ^ 33 * 65536 :=
        mul_le_mul (by omega) htotal (by omega) (by omega)
      exact ⟨rfl, hpos, by omega, by omega⟩
  · -- the length is configured and the number of shards derived
    have hcfit : FitsInt64 cfg.chunkLen := cfg.fits _ (by simp)
    cases hq : divCeil n cfg.chunkLen with
    | error e => simp [hq, bind, Except.bind] at h
    | ok q =>
      simp only [hq, bind, Except.bind, pure, Except.pure, Except.ok.injEq, Prod.mk.injEq] at h
      obtain ⟨rfl, rfl⟩ := h
      dsimp only at hd hp htotal ⊢
      have hsum : n + cfg.chunkLen ≤ 2 ^ 63 := by
        by_contra hover
        have := divCeil_overflow hn' hn (by omega) hcfit.2 hq
        omega
      obtain ⟨_, hlower, hupper⟩ := divCeil_spec hn (by omega) hsum hcfit.2 hq
      have hone : cfg.chunkLen ≤ cfg.chunkLen * q := le_mul_of_one_le_right (by omega) hd
      rw [mul_comm q, mul_add]
      exact ⟨rfl, by omega, hlower, by omega⟩

/-! ## A successful origin -/

/-- The coded message behind an origin: `d` data and `p` parity shards of `n` bytes, encoded to
`out`. -/
structure Coded (env : Env) (payload : Bytes) (d p n : Nat) (shards out : List Bytes) : Prop where
  data : 0 < d
  length : 0 < n
  total : d + p ≤ 65536
  nonempty : 0 < payload.length
  accepted : env.reedSolomon.new d p = true
  encoded : env.reedSolomon.encode d p shards = some out
  count : shards.length = d + p
  equal : ∀ s ∈ shards, s.length = n
  /-- The data shards joined begin with the payload. -/
  joined : ((shards.take d).flatten).take payload.length = payload
  room : payload.length ≤ d * n
  small : ((n * (d + p) : Nat) : Int) ≤ maxAlloc

/-- The preamble of a coded message. -/
def preambleOf (env : Env) (payload : Bytes) (d p : Nat) (out : List Bytes) : Preamble where
  dataChunks := d
  parityChunks := p
  messageLength := payload.length
  chunkHashes := out.map env.sha256
  messageHash := env.sha256 payload

variable {payload : Bytes}

/-- The calls of a successful `newOriginStrategy`. -/
theorem newOrigin_calls {env : Env} {config : Config} {origin : State}
    (h : newOriginStrategy env config payload = .ok origin) :
    ∃ pre c msg shards out, initPreamble config payload.length = .ok (pre, c) ∧
      env.reedSolomon.new pre.dataChunks pre.parityChunks = true ∧
      padded payload (int64 (c * pre.totalChunks)) (int64 (int64 (c * pre.totalChunks) - payload.length)) = .ok msg ∧
      chunked msg c = .ok shards ∧
      env.reedSolomon.encode pre.dataChunks.toNat pre.parityChunks.toNat shards = some out ∧
      origin.preamble = { pre with
        chunkHashes := out.map env.sha256, messageHash := env.sha256 payload } ∧
      origin.chunks = out.map some ∧ origin.totalChunks = pre.totalChunks ∧ origin.peers = ∅ ∧
      origin.emitPlanner = (List.range out.length).foldl (fun h (i : Nat) => h.Insert { idx := i }) {} ∧
      origin.isOrigin = true ∧ origin.have_ = .allOnes pre.totalChunks.toNat := by
  unfold newOriginStrategy at h
  simp only [bind, Except.bind] at h
  split at h
  · cases h
  rename_i r hinit
  obtain ⟨pre, c⟩ := r
  dsimp only at h
  split at h
  · cases h
  rename_i hnew
  split at h
  · cases h
  rename_i msg hmsg
  split at h
  · cases h
  rename_i shards hshards
  split at h
  · cases h
  rename_i out hout
  cases h
  exact ⟨pre, c, msg, shards, out, hinit, by simpa using hnew, hmsg, hshards, hout, rfl,
    rfl, rfl, rfl, rfl, rfl, rfl⟩

/-- `padded` succeeds only for a length that did not wrap and has room for the payload. -/
theorem padded_spec {msg : Bytes} {N : Nat} (hlen : payload.length < 2 ^ 31) (hN : (N : Int) < 2 ^ 64)
    (h : padded payload (int64 N) (int64 (int64 N - payload.length)) = .ok msg) :
    payload.length ≤ N ∧ (N : Int) ≤ maxAlloc ∧ msg = payload ++ List.replicate (N - payload.length) 0 := by
  unfold padded at h
  split at h
  · cases h
  rename_i hok
  obtain ⟨hgrow, hok⟩ := not_or.mp hok
  obtain ⟨hnonneg, halloc⟩ := not_or.mp hok
  have hreal : int64 (N : Int) = N :=
    int64_eq_of_nonneg (Int.natCast_nonneg _) hN (not_lt.mp hnonneg)
  have hbound : (N : Int) < 2 ^ 63 := by
    have := (fits_int64 (N : Int)).2
    rwa [hreal] at this
  have hsub : int64 ((N : Int) - payload.length) = N - payload.length :=
    int64_of_fits ⟨by omega, by omega⟩
  rw [hreal, hsub] at hgrow h
  rw [hreal] at halloc
  have hroom : payload.length ≤ N := by omega
  refine ⟨hroom, not_lt.mp halloc, ?_⟩
  rw [← Except.ok.inj h, show ((N : Int) - payload.length).toNat = N - payload.length by omega]

theorem newOrigin_spec {env : Env} (hR : env.reedSolomon.Lawful) {config : Config} (hlen : payload.length < 2 ^ 31)
    {origin : State} (h : newOriginStrategy env config payload = .ok origin) :
    ∃ d p n shards out, Coded env payload d p n shards out ∧
      origin.preamble = preambleOf env payload d p out ∧ origin.chunks = out.map some ∧
      origin.totalChunks = d + p := by
  obtain ⟨pre, c, msg, shards, out, hinit, hnew, hmsg, hshards, hout, hpre, hchunks, htot, _, _⟩ :=
    newOrigin_calls h
  obtain ⟨hd, hp, htotal⟩ := hR.new_bounds _ _ hnew
  have hc : 1 ≤ c := by
    unfold chunked at hshards
    split at hshards
    · cases hshards
    · omega
  obtain ⟨hmlen, hpos, hroom, hprod⟩ :=
    initPreamble_spec (Int.natCast_nonneg _) (by exact_mod_cast hlen) hinit hd hp htotal hc
  have hsum : pre.totalChunks = pre.dataChunks + pre.parityChunks :=
    int64_of_fits ⟨by omega, by omega⟩
  rw [hsum] at hmsg htot
  -- name the three numbers as naturals
  obtain ⟨d, hd'⟩ := Int.eq_ofNat_of_zero_le hd.le
  obtain ⟨p, hp'⟩ := Int.eq_ofNat_of_zero_le hp
  obtain ⟨n, hn'⟩ := Int.eq_ofNat_of_zero_le (show 0 ≤ c by omega)
  rw [hd', hp', hn'] at hmsg hprod
  rw [hd', hn'] at hroom
  rw [hn'] at hshards hc
  rw [hd', hp'] at hnew hout htot htotal
  rw [hd'] at hd
  have hmul : (n : Int) * (d + p) = ((n * (d + p) : Nat) : Int) := by push_cast; rfl
  rw [hmul] at hmsg hprod
  obtain ⟨hfill, hsmall, hmsg⟩ := padded_spec hlen hprod hmsg
  have hmsglen : msg.length = n * (d + p) := by
    rw [hmsg, List.length_append, List.length_replicate]
    omega
  have hn : 0 < n := by omega
  have hshards : blocks n msg = shards := by
    unfold chunked at hshards
    rw [if_neg (by omega)] at hshards
    exact Except.ok.inj hshards
  have hroom' : payload.length ≤ d * n := by exact_mod_cast hroom
  refine ⟨d, p, n, shards, out, ⟨by exact_mod_cast hd, hn, by exact_mod_cast htotal,
    by exact_mod_cast hpos, hnew, hout, ?_, ?_, ?_, hroom', hsmall⟩, ?_, hchunks, htot⟩
  · rw [← hshards]
    exact length_blocks hn hmsglen
  · intro s hs
    rw [← hshards] at hs
    exact length_of_mem_blocks hn hmsglen hs
  · rw [← hshards, flatten_take_blocks hn hmsglen (Nat.le_add_right d p), List.take_take,
      Nat.min_eq_left hroom', hmsg, List.take_left]
  · rw [hpre, preambleOf, hd', hp', hmlen]

end EthP2P.Rs
