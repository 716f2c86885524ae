/-
  The `Machine` gRPC service: registration with proof of possession, and telemetry.
-/
import SylvaServer.Model.Audit
import SylvaServer.Model.Context

namespace SylvaServer

open ReadCommitted ReadCommitted.Prog

namespace MachineService

/-! ## Messages -/

structure RegisterMachineRequest where
  machineIdentityPublic : Bytes
  platform : String
  label : String
  signature : Bytes

structure ProtoMachineSession where
  machineId : String
  token : String
  expiresAt : String
deriving DecidableEq

structure TelemetryBlob where
  kind : String
  recipientKeyId : Bytes
  seq : UInt64
  ciphertext : Bytes
  signature : Bytes
deriving DecidableEq

/-! ## Proof of possession -/

/-- The bytes a machine signs to prove that it holds the private key for `publicKey`. -/
def canonicalMachineBytes (publicKey : Bytes) (platform label : String) : Bytes :=
  utf8 "sylva-machine-registration:v1\n" ++ publicKey ++ [10] ++ utf8 platform ++ [10] ++ utf8 label

/-- Verify a machine's Ed25519 signature of itself. -/
def verifyPop (lib : Libs) (publicKey : Bytes) (platform label : String)
    (signature : Bytes) : Bool :=
  publicKey.length == 32 && lib.ed25519Key publicKey && signature.length == 64 &&
    lib.verifyStrict publicKey (canonicalMachineBytes publicKey platform label) signature

/-! ## The handlers -/

variable (ctx : PlatformContext)

/-- The writes of a registration, in one transaction. -/
def registerMachine.write (req : RegisterMachineRequest) : Rpc ProtoMachineSession := do
  beginTx.mapError fun _ => internal "register_machine:begin"
  let machineId ← (inTx (MachineRepository.registerOrUpdate req.machineIdentityPublic
    (trim req.platform) (trim req.label))).mapError fun _ => internal "register_machine:upsert"
  let session ← (MachineSessionRepository.create ctx.lib machineId Auth.defaultSessionTtl).mapError
    fun _ => internal "register_machine:session"
  -- a system event: no user is the actor
  let _ ← (Audit.append ctx.lib none none "machine_registered" (.object
    [("machine_id", .str machineId.toString), ("platform", .str req.platform)])).mapError
    fun _ => internal "register_machine:audit"
  commitTx.mapError fun _ => internal "register_machine:commit"
  pure { machineId := machineId.toString, token := session.2,
         expiresAt := session.1.expiresAt.toRfc3339 }

def registerMachine (metadata : Metadata) (req : RegisterMachineRequest) :
    Rpc ProtoMachineSession := do
  let clientKey := rateKey metadata ctx.trustProxy
  let allowed ← ctx.authRateLimiter.allowed clientKey
  if !allowed then
    fail tooManyAttempts
  else if (trim req.platform).isEmpty || (trim req.label).isEmpty then
    fail ⟨.invalidArgument, "platform and label are required"⟩
  else if !verifyPop ctx.lib req.machineIdentityPublic req.platform req.label req.signature then do
    ctx.authRateLimiter.recordFailure clientKey
    fail ⟨.permissionDenied, "invalid machine identity signature"⟩
  else
    registerMachine.write ctx req

/-- The token of a machine; every failure looks like a bad header here. -/
def machineToken (metadata : Metadata) : Except Status String :=
  match metadata.authorization with
  | none => .error invalidAuthorization
  | some raw =>
    match (headerText raw).bind (stripPrefix "Bearer ") with
    | none => .error invalidAuthorization
    | some rest =>
      let token := trim rest
      if token.isEmpty then .error invalidAuthorization else .ok token

/-- Resolve the bearer token into the id of the calling machine. -/
def authenticateMachine (metadata : Metadata) : Rpc Uuid := do
  let token ← ofExcept (machineToken metadata)
  let session ← (onPool (MachineSessionRepository.findActive ctx.lib token)).mapError
    fun _ => invalidSession
  match session with
  | none => fail invalidSession
  | some session => pure session.machineId

def checkIn (metadata : Metadata) : Rpc Unit := do
  let machineId ← authenticateMachine ctx metadata
  (onPool (MachineRepository.touchCheckin machineId)).mapError fun _ => internal "check_in"

/-- `i64::try_from(seq).unwrap_or(i64::MAX)`. -/
def seqToI64 (seq : UInt64) : Int :=
  if seq.toNat ≤ 9223372036854775807 then seq.toNat else 9223372036854775807

def newTelemetry (b : TelemetryBlob) : NewTelemetry where
  kind := b.kind
  recipientKeyId := b.recipientKeyId
  seq := seqToI64 b.seq
  ciphertext := b.ciphertext
  signature := b.signature

def reportTelemetry (metadata : Metadata) (blobs : List TelemetryBlob) : Rpc Unit := do
  let machineId ← authenticateMachine ctx metadata
  let blobs := blobs.map newTelemetry
  if blobs.isEmpty then
    pure ()
  else
    (MachineTelemetryRepository.insert machineId blobs).mapError fun _ =>
      internal "report_telemetry"

end MachineService

end SylvaServer
