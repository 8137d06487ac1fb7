/-
# EthP2P.Rs.Types — configuration, preamble and the outside world of the Reed-Solomon code

The preamble (`types.go`) describes a coded message to a relay; its integers travel as 32-bit fields.
Integer arithmetic is Go's: it wraps at 64 bits, division truncates, and a division by zero is a panic.

Three things lie outside the program.  The Reed-Solomon library is a record of functions, and
`ReedSolomon.Lawful` says what its documentation promises: the parameters it accepts, that encoding fills
in the parity shards and leaves the rest alone, and that any `d` shards determine the data.  The
protobuf codec is a pair of functions that round-trip, and SHA-256 is any function on byte strings.
-/
import EthP2P.Lib.GoInt
import EthP2P.Lib.Blocks
import EthP2P.Wire.Codes

namespace EthP2P.Rs

open Lib Wire

/-- The largest slice the runtime allocates; asking for more is a panic. -/
def maxAlloc : Int := 2 ^ 48

/-- How a function of the package fails. -/
inductive Failure where
  | panicked
  | encoder
  | encode
  | nilPreamble
  | malformedPreamble
  | reconstruct
  | messageLength
  | messageHash
  deriving DecidableEq, Repr

/-! ## The outside world -/

/-- `klauspost/reedsolomon`, for given numbers of data and parity shards.  A missing shard is
`none`. -/
structure ReedSolomon where
  /-- `New` succeeds. -/
  new : Int → Int → Bool
  encode : Nat → Nat → List Bytes → Option (List Bytes)
  reconstructData : Nat → Nat → List (Option Bytes) → Option (List (Option Bytes))

/-- `have_` is obtained from the shards `all` by leaving some out. -/
def Survives (all : List Bytes) (have_ : List (Option Bytes)) : Prop :=
  List.Forall₂ (fun s o => o = none ∨ o = some s) all have_

/-- The number of shards that are present. -/
def present (shards : List (Option Bytes)) : Nat := shards.countP (·.isSome)

/-- What the library documents. -/
structure ReedSolomon.Lawful (R : ReedSolomon) : Prop where
  /-- At least one data shard, no negative number of parity shards, at most 65536 in all. -/
  new_bounds : ∀ d p, R.new d p = true → 0 < d ∧ 0 ≤ p ∧ d + p ≤ 65536
  /-- The parity shards are overwritten, the data shards and all lengths stay. -/
  encode_shape : ∀ d p n shards out, R.encode d p shards = some out → shards.length = d + p →
    (∀ s ∈ shards, s.length = n) →
    out.length = d + p ∧ out.take d = shards.take d ∧ ∀ s ∈ out, s.length = n
  /-- Any `d` shards of an encoding, non-empty and of one length, give back the data shards. -/
  reconstructs : ∀ d p n shards out rest, R.encode d p shards = some out →
    shards.length = d + p → (∀ s ∈ shards, s.length = n) → 0 < n → Survives out rest →
    d ≤ present rest →
    ∃ full, R.reconstructData d p rest = some full ∧ full.take d = (out.take d).map some

/-- The protobuf message of a preamble. -/
structure PbPreamble where
  numData : Int
  numParity : Int
  length : Int
  hashes : List Bytes
  hash : Bytes
  /-- The integers are 32-bit fields. -/
  fits : ∀ x ∈ [numData, numParity, length], FitsInt32 x := by decide
  deriving DecidableEq, Repr

/-- `proto.Marshal` and `proto.Unmarshal` of a message type. -/
structure ProtoCodec (A : Type) where
  marshal : A → Option Bytes
  unmarshal : Bytes → Option A

/-- What is marshalled is read back. -/
def ProtoCodec.RoundTrips {A : Type} (c : ProtoCodec A) : Prop :=
  ∀ a bytes, c.marshal a = some bytes → c.unmarshal bytes = some a

/-! ## Configuration -/

structure Config where
  dataShards : Int := 16
  parityShards : Int := 16
  chunkLen : Int := 0
  bitmapThreshold : Int := 50
  forwardMultiplier : Int := 4
  disableBitmap : Bool := false
  /-- The fields are machine integers. -/
  fits : ∀ x ∈ [dataShards, parityShards, chunkLen, bitmapThreshold, forwardMultiplier], FitsInt64 x := by decide

/-- `Config.Validate`; the error is the text of the first check that fails. -/
def Config.Validate (c : Config) : Except String Unit :=
  if c.dataShards < 0 ∨ c.parityShards < 0 ∨ c.chunkLen < 0 ∨ c.bitmapThreshold < 0 ∨
      c.forwardMultiplier < 0 then
    .error "RS config fields must be non-negative"
  else if c.chunkLen = 0 ∧ (c.dataShards = 0 ∨ c.parityShards = 0) then
    .error "data_shards and parity_shards must be positive when chunk_len is zero"
  else .ok ()

/-- A relay's configuration: a forward multiplier that is not positive means 4. -/
def Config.forRelay (c : Config) : Config :=
  if h : c.forwardMultiplier ≤ 0 then
    { c with
      forwardMultiplier := 4
      fits := by
        intro x hx
        have hfits := c.fits
        simp only [List.mem_cons, List.not_mem_nil, or_false] at hx hfits
        rcases hx with rfl | rfl | rfl | rfl | rfl
        · exact hfits _ (by simp)
        · exact hfits _ (by simp)
        · exact hfits _ (by simp)
        · exact hfits _ (by simp)
        · decide }
  else c

/-! ## Chunk identifiers and preambles -/

structure ChunkIdent where
  index : Int
  deriving DecidableEq, Repr

structure Preamble where
  dataChunks : Int := 0
  parityChunks : Int := 0
  messageLength : Int := 0
  chunkHashes : List Bytes := []
  messageHash : Bytes := []
  deriving DecidableEq, Repr

namespace Preamble

def totalChunks (p : Preamble) : Int := int64 (p.dataChunks + p.parityChunks)

/-- The message `Marshal` writes. -/
def toPb (p : Preamble) : PbPreamble :=
  { numData := int32 p.dataChunks
    numParity := int32 p.parityChunks
    length := int32 p.messageLength
    hashes := p.chunkHashes
    hash := p.messageHash
    fits := by
      intro x hx
      simp only [List.mem_cons, List.not_mem_nil, or_false] at hx
      rcases hx with rfl | rfl | rfl
      · exact fits_int32 _
      · exact fits_int32 _
      · exact fits_int32 _ }

/-- The preamble `Unmarshal` fills in. -/
def ofPb (pb : PbPreamble) : Preamble :=
  { dataChunks := pb.numData
    parityChunks := pb.numParity
    messageLength := pb.length
    chunkHashes := pb.hashes
    messageHash := pb.hash }

def marshal (codec : ProtoCodec PbPreamble) (p : Preamble) : Option Bytes := codec.marshal p.toPb

def unmarshal (codec : ProtoCodec PbPreamble) (data : Bytes) : Option Preamble :=
  (codec.unmarshal data).map ofPb

end Preamble

def divCeil (n d : Int) : Except Failure Int :=
  if d = 0 then .error .panicked else .ok (int64 ((int64 (int64 (n + d) - 1)).tdiv d))

/-- The preamble's counts for a message of `msgLen` bytes, and the length of a chunk. -/
def initPreamble (cfg : Config) (msgLen : Int) : Except Failure (Preamble × Int) :=
  if cfg.chunkLen = 0 then do
    let preamble : Preamble :=
      { messageLength := msgLen
        dataChunks := cfg.dataShards
        parityChunks := cfg.parityShards }
    let chunkLen ← divCeil msgLen preamble.dataChunks
    -- with 256 shards or more the library works on blocks of 64 bytes
    let chunkLen :=
      if preamble.totalChunks ≥ 256 then int64 (chunkLen + (64 - chunkLen.tmod 64).tmod 64)
      else chunkLen
    return (preamble, chunkLen)
  else do
    let dataChunks ← divCeil msgLen cfg.chunkLen
    return ({ messageLength := msgLen, dataChunks := dataChunks, parityChunks := dataChunks }, cfg.chunkLen)

end EthP2P.Rs
