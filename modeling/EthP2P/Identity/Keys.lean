/-
# EthP2P.Identity.Keys — node identity keys (`identity/identity.go`)

The curve library and `protowire` are records of the operations the package calls; what a result
assumes of them is stated with that result (`Verifies`, `ReadsKeys`, `Protowire.Lawful`).  On top of
them are the package's own parts: the length checks of `ParsePubKey` and `VerifyHash`, the libp2p
encoding of a key, and the peer ID, which holds that encoding.
-/
import Mathlib.Logic.Basic
import EthP2P.Lib.Varint
import EthP2P.Wire.Codes

namespace EthP2P.Identity

open Lib Wire

/-- `protowire`: what the `Append` functions append, and what the `Consume` functions return with the rest of their
input, `none` where their length is negative.  A tag is the number of a field and its type. -/
structure Protowire where
  appendVarint : Nat → Bytes
  appendTag : Nat × Nat → Bytes
  appendBytes : Bytes → Bytes
  consumeVarint : Bytes → Option (Nat × Bytes)
  consumeTag : Bytes → Option ((Nat × Nat) × Bytes)
  consumeBytes : Bytes → Option (Bytes × Bytes)
  consumeFieldValue : Nat → Nat → Bytes → Option Bytes

/-- An implementation, for fields that are varints or bytes. -/
def Protowire.plain : Protowire :=
  let consumeVarint (b : Bytes) : Option (Nat × Bytes) :=
    match readVarint b with
    | (.ok v, rest) => some (v, rest)
    | (.error _, _) => none
  let consumeBytes (b : Bytes) : Option (Bytes × Bytes) :=
    (consumeVarint b).bind fun r => if r.1 > r.2.length then none else some (r.2.take r.1, r.2.drop r.1)
  { appendVarint := varint
    appendTag t := varint (8 * t.1 + t.2)
    appendBytes data := varint data.length ++ data
    consumeVarint
    consumeBytes
    consumeTag b := (consumeVarint b).bind fun r =>
      if r.1 / 8 < 1 ∨ r.1 / 8 ≥ 2 ^ 31 then none else some ((r.1 / 8, r.1 % 8), r.2)
    consumeFieldValue _ typ b :=
      if typ = 0 then (consumeVarint b).map (·.2) else if typ = 2 then (consumeBytes b).map (·.2) else none }

/-- The operations of the curve library, and `protowire`. -/
structure Secp256k1 (Priv Pub : Type) extends Protowire where
  pubKey : Priv → Pub
  serializeCompressed : Pub → Bytes
  parsePubKey : Bytes → Option Pub
  /-- A recovery byte, then the two scalars of the signature. -/
  signCompact : Priv → Bytes → Bytes
  /-- `SetByteSlice` reports an overflow, or the scalar is zero. -/
  badScalar : Bytes → Bool
  overHalfOrder : Bytes → Bool
  /-- Verification of the two scalars over a hash. -/
  verify : Bytes → Bytes → Bytes → Pub → Bool

/-- Why `ParsePubKey` refused a key. -/
inductive KeyError where
  | length (got : Nat)
  | point
  deriving DecidableEq, Repr

namespace Secp256k1

variable {Priv Pub : Type} (lib : Secp256k1 Priv Pub)

/-- `secp256k1.PubKeyBytesLenCompressed`. -/
def compressedLen : Nat := 33

def SignHash (key : Priv) (hash : Bytes) : Bytes := (lib.signCompact key hash).drop 1

def ParsePubKey (compressed : Bytes) : Except KeyError Pub :=
  if compressed.length ≠ compressedLen then .error (.length compressed.length)
  else
    match lib.parsePubKey compressed with
    | none => .error .point
    | some key => .ok key

/-- A 64-byte signature whose second scalar is in the lower half. -/
def VerifyHash (key : Pub) (hash signature : Bytes) : Bool :=
  if signature.length ≠ 64 then false
  else
    let r := signature.take 32
    let s := signature.drop 32
    if lib.badScalar r || lib.badScalar s || lib.overHalfOrder s then false
    else lib.verify hash r s key

def secp256k1KeyType : Nat := 2

/-- The libp2p `PublicKey` message: the key type in field 1, a varint, and the compressed key in field 2. -/
def Marshal (key : Pub) : Bytes :=
  lib.appendTag (1, 0) ++ lib.appendVarint secp256k1KeyType ++ lib.appendTag (2, 2) ++
    lib.appendBytes (lib.serializeCompressed key)

/-- The identity multihash of the key's encoding. -/
def PeerID (key : Pub) : Bytes :=
  let raw := lib.Marshal key
  [0] ++ lib.appendVarint raw.length ++ raw

/-- Signatures verify. -/
def Verifies : Prop := ∀ key hash, lib.VerifyHash (lib.pubKey key) hash (lib.SignHash key hash) = true

/-- The library parses what it serializes. -/
def ReadsKeys : Prop := ∀ key, (lib.serializeCompressed key).length = compressedLen ∧
  lib.parsePubKey (lib.serializeCompressed key) = some key

theorem length_of_verifyHash {key : Pub} {hash signature : Bytes}
    (h : lib.VerifyHash key hash signature = true) : signature.length = 64 := by
  unfold VerifyHash at h
  split at h
  · cases h
  · rename_i hlen
    exact not_not.mp hlen

theorem parsePubKey_serialize (h : lib.ReadsKeys) (key : Pub) :
    lib.ParsePubKey (lib.serializeCompressed key) = .ok key := by
  obtain ⟨hlen, hparse⟩ := h key
  simp [ParsePubKey, hlen, hparse]

end Secp256k1

end EthP2P.Identity
