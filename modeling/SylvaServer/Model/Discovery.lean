/-
  `server::discovery`: the signed answer to `GET /.well-known/sylva-discovery`.
-/
import SylvaServer.Codec.LengthPrefix
import SylvaServer.Model.Values

namespace SylvaServer.Discovery

/-- Bumped whenever the layout of the signed payload changes. -/
def payloadVersion : UInt32 := 1

/-- Keeps a discovery signature from being valid where similar bytes are signed. -/
def domain : Bytes := utf8 "sylva.discovery.v1"

def maxNonceLen : Nat := 256

/-- Append a field behind its length, which `as u32` cuts off. -/
def pushField (out field : Bytes) : Bytes :=
  out ++ LengthPrefix.be 4 (UInt32.ofNat field.length).toNat ++ field

/-- The bytes the server signs and the client rebuilds. -/
def canonicalBytes (nonce : String) (publicKey : Bytes) (grpcPort : UInt16)
    (name : String) : Bytes :=
  let out := pushField [] domain
  let out := pushField out (LengthPrefix.be 4 payloadVersion.toNat)
  let out := pushField out (utf8 nonce)
  let out := pushField out publicKey
  let out := pushField out (LengthPrefix.be 2 grpcPort.toNat)
  pushField out (utf8 name)

/-- What the handler finds in its state; `sign` is `SigningKey::sign`. -/
structure DiscoveryState where
  instanceName : String
  grpcPort : UInt16
  serverIdentity : Bytes
  sign : Bytes → Bytes

structure DiscoveryResponse where
  name : String
  grpcPort : UInt16
  serverIdentityPublic : String
  nonce : String
  signature : String
  payloadVersion : UInt32

/-- The handler; no answer means `400 Bad Request`. -/
def handler (state : DiscoveryState) (nonce : String) : Option DiscoveryResponse :=
  if (utf8 nonce).length > maxNonceLen then none
  else
    let payload := canonicalBytes nonce state.serverIdentity state.grpcPort state.instanceName
    some
      { name := state.instanceName
        grpcPort := state.grpcPort
        serverIdentityPublic := hex state.serverIdentity
        nonce := nonce
        signature := hex (state.sign payload)
        payloadVersion := payloadVersion }

end SylvaServer.Discovery
