/-
# EthP2P.Wire.Codes — names shared by the layers, and stream outcome codes

A stream ends with a code from one of two namespaces, the stack's or the protocol's
(`wire/wire.go`).  Broadcast defines two protocol codes of its own (`broadcast/protocol.go`).
-/

namespace EthP2P

/-- The authenticated identity of a remote peer (`identity.PeerID`). -/
abbrev PeerID := String

/-- The identity of a family peer handle (`*ethp2p.Peer`). -/
abbrev HandleRef := Nat

end EthP2P

namespace EthP2P.Wire

/-- A byte string. -/
abbrev Bytes := List UInt8

/-- A stream outcome; `protocol` selects the namespace of `value`. -/
structure Code where
  value : Nat
  protocol : Bool := false
  deriving DecidableEq, Repr

namespace Code

def unspecified : Code := { value := 0 }
def refused : Code := { value := 1 }
def timeout : Code := { value := 2 }
def badSelector : Code := { value := 8 }
def unsupportedSelector : Code := { value := 9 }
def closing : Code := { value := 10 }
def controlViolation : Code := { value := 11 }
def noSharedProtocols : Code := { value := 12 }
def duplicate : Code := { value := 13 }

/-- A protocol-namespace code. -/
def protocolCode (value : Nat) : Code := { value := value, protocol := true }

/-- Broadcast: ends a SESS stream after the sender reconstructed its message. -/
def reconstructed : Code := protocolCode 1

/-- Broadcast: ends a CHUNK stream whose chunk the receiver no longer needs. -/
def redundant : Code := protocolCode 2

/-- `Code.Wire`: the QUIC application error code.  Codes are built from the named values or parsed
from 64 bits, so the shift loses nothing. -/
def wire (c : Code) : Nat := if c.protocol then c.value <<< 1 ||| 1 else c.value <<< 1

/-- `stackCodeNames`. -/
def stackCodeNames : List (Nat × String) :=
  [(0, "Unspecified"), (1, "Refused"), (2, "Timeout"), (8, "BadSelector"),
    (9, "UnsupportedSelector"), (10, "Closing"), (11, "ControlViolation"),
    (12, "NoSharedProtocols"), (13, "Duplicate")]

/-- `ParseCode`: the code of a received QUIC application error code. -/
def parseCode (raw : Nat) : Code :=
  if raw &&& 1 ≠ 0 then { value := raw >>> 1, protocol := true }
  else if (stackCodeNames.lookup (raw >>> 1)).isSome then { value := raw >>> 1 }
  else unspecified

/-- `Code.String`. -/
def string (c : Code) : String :=
  if c.protocol then "protocol value " ++ toString c.value
  else (stackCodeNames.lookup c.value).getD ""

end Code

end EthP2P.Wire
