/-
# EthP2P.Broadcast.Strategy — the interface between sessions and erasure codes

A strategy (`types.go`) is the per-session object that decides which chunks are useful, when a message
can be decoded and what is sent to whom.  A session only ever calls its methods, so here a strategy is a
record of pure functions over a state type `S`, for chunk identifiers `C` and routing states `R`.

What a method does outside its own state is part of its result: `takeChunk` says whether it cancelled
the dedup group it was handed.  A method that iterates a map takes the order of the iteration.
-/
import EthP2P.Lib.Maps
import EthP2P.Wire.Codes

namespace EthP2P.Broadcast

open Lib Wire

/-- The result of processing an inbound chunk. -/
inductive Verdict where
  | accepted
  | redundant
  | decoding
  | surplus
  | invalid
  | pending
  deriving DecidableEq, Repr

/-- The token that correlates a send with its completion. -/
abbrev ChunkHandle := Nat

/-- Why a chunk was not sent. -/
inductive SendError where
  | marshal
  | peerGone
  | slotFull
  | writeFail
  | cancelled
  deriving DecidableEq, Repr

/-- A chunk directed to a peer. -/
structure ChunkDispatch (C : Type*) where
  peer : PeerID
  chunkID : C
  data : Bytes
  deriving DecidableEq, Repr

/-- What `TakeChunk` returns and does. -/
structure TakeResult (S : Type*) where
  state : S
  verdict : Verdict
  complete : Bool
  /-- A non-nil error was returned. -/
  failed : Bool := false
  /-- The dedup group was cancelled. -/
  cancelsGroup : Bool

/-- A type with a wire form (`Wire`). -/
structure WireForm (A : Type*) where
  marshal : A → Option Bytes
  unmarshal : Bytes → Option A

/-- The methods of a strategy. -/
structure Strategy (S C R : Type*) where
  haveChunk : S → C → Bool
  dedupKey : S → C → Option Bytes
  attachPeer : S → PeerID → S
  detachPeer : S → PeerID → Bool → S
  verifyChunk : S → PeerID → C → Bytes → Verdict × S
  takeChunk : S → PeerID → C → Bytes → TakeResult S
  /-- The handles of the sends that are no longer needed, and whether an error was returned. -/
  routingUpdate : S → PeerID → R → S × List ChunkHandle × Bool
  pollChunks : Order PeerID → S → List (ChunkDispatch C) × S
  pollRouting : S → Bool → Option R × S
  chunkSent : S → PeerID → ChunkHandle → Option SendError → S
  progress : S → Int × Int
  /-- The decoded message, or nothing on an error. -/
  decode : S → Option Bytes

/-- A scheme: how strategies are made, and the wire forms of its types.  `newRelay` also draws a random
number. -/
structure Scheme (S C R P : Type*) where
  methods : Strategy S C R
  newOrigin : Bytes → Option (S × P)
  newRelay : UInt64 → P → Option S
  handle : C → ChunkHandle
  chunkIdent : WireForm C
  routing : WireForm R
  preamble : WireForm P

end EthP2P.Broadcast
