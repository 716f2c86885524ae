/-
  What the gRPC services share: the context, request metadata, `authenticate` and the parsing
  helpers.
-/
import SylvaServer.Model.Auth
import SylvaServer.Model.Identity
import SylvaServer.Model.RateLimit

namespace SylvaServer

open ReadCommitted ReadCommitted.Prog

/-- What a handler finds in its `PlatformContext` besides the pool. -/
structure PlatformContext where
  lib : Libs
  authRateLimiter : RateLimiter
  trustProxy : Bool

/-- The metadata of a request and the address of its socket peer. -/
structure Metadata where
  authorization : Option Bytes
  xForwardedFor : Option Bytes
  remoteAddr : Option String

/-- `HeaderValue::to_str`: visible ASCII and tabs only. -/
def headerText (value : Bytes) : Option String :=
  if value.all fun b => (32 ≤ b && b < 127) || b == 9 then
    some (String.ofList (value.map fun b => Char.ofNat b.toNat))
  else none

/-- The client-IP key for rate-limiting an unauthenticated RPC. -/
def rateKey (metadata : Metadata) (trustProxy : Bool) : String :=
  let peer := metadata.remoteAddr.getD "direct"
  if trustProxy then
    match metadata.xForwardedFor.bind headerText with
    | none => peer
    | some text =>
      let first := trim (String.ofList (text.toList.takeWhile (· != ',')))
      if first.isEmpty then peer else first
  else peer

def missingAuthorization : Status := ⟨.unauthenticated, "missing_authorization"⟩

def invalidAuthorization : Status := ⟨.unauthenticated, "invalid_authorization"⟩

def invalidSession : Status := ⟨.unauthenticated, "invalid_session"⟩

def tooManyAttempts : Status := ⟨.resourceExhausted, "too many attempts; try again later"⟩

/-- The token of `authorization: Bearer <token>`. -/
def bearerToken (metadata : Metadata) : Except Status String :=
  match metadata.authorization with
  | none => .error missingAuthorization
  | some raw =>
    match (headerText raw).bind (stripPrefix "Bearer ") with
    | none => .error invalidAuthorization
    | some rest =>
      let token := trim rest
      if token.isEmpty then .error invalidAuthorization else .ok token

/-- Resolve the bearer token into a user; the activity bump is never fatal. -/
def authenticate (lib : Libs) (metadata : Metadata) : Rpc User := do
  let token ← ofExcept (bearerToken metadata)
  let session ← (onPool (SessionRepository.findActive lib token)).mapError fun _ => invalidSession
  match session with
  | none => fail invalidSession
  | some session =>
    let user ← (onPool (UserRepository.findById session.userId)).mapError fun _ => invalidSession
    match user with
    | none => fail invalidSession
    | some user =>
      let _ ← (onPool (SessionRepository.touchLastSeen session.id)).attempt
      pure user

def parseUuid (lib : Libs) (value field : String) : Except Status Uuid :=
  match lib.parseUuid (trim value) with
  | some id => .ok id
  | none => .error ⟨.invalidArgument, field ++ " must be a UUID"⟩

/-- A blank value counts as absent. -/
def parseOptUuid (lib : Libs) (value : Option String) (field : String) :
    Except Status (Option Uuid) :=
  match value.map trim with
  | none => .ok none
  | some v => if v.isEmpty then .ok none else (parseUuid lib v field).map some

/-! ## A small instance for concrete runs -/

namespace Sample

def uuid (n : UInt8) : Uuid := Uuid.ofByte n

/-- The owner of the instance; her password is "correct horse". -/
def ann : User where
  id := uuid 1
  email := "Ann@example.org"
  displayName := "Ann"
  lifecycle := .active
  instanceRole := .owner
  kind := .member
  locale := none
  createdAt := ⟨0⟩
  updatedAt := ⟨0⟩

def annCredential : Credential where
  userId := ann.id
  passwordHash := hex (List.replicate 32 0) ++ "$correct horse"
  createdAt := ⟨0⟩
  updatedAt := ⟨0⟩

def annSession : Session where
  id := uuid 2
  userId := ann.id
  tokenHash := Libs.sample.sha256 (utf8 "a1b2")
  createdAt := ⟨0⟩
  expiresAt := ⟨DateTime.hours 24⟩
  revokedAt := none
  userAgent := none
  ipAddress := none
  lastSeenAt := some ⟨0⟩
  label := none

/-- An app with one resource type. -/
def tasks : RegisteredApp where
  id := uuid 3
  appIdentifier := "garden.ubivera.tasks"
  displayName := "Tasks"
  publisher := "Ubivera, LLC"
  appPublicKey := List.replicate 32 7
  schemaVersion := 1
  resourceTypes := ["task"]
  status := "enabled"
  registeredBy := some ann.id
  createdAt := ⟨0⟩
  updatedAt := ⟨0⟩

def db : Db := ⟨fun
  | .users => [ann]
  | .credentials => [annCredential]
  | .sessions => [annSession]
  | .registeredApps => [tasks]
  | _ => []⟩

/-- A request with Ann's session. -/
def asAnn : Metadata := ⟨some (utf8 "Bearer a1b2"), none, some "203.0.113.7"⟩

/-- A server with a token bucket of four, refilled at once. -/
def context : PlatformContext where
  lib := Libs.sample
  authRateLimiter := { capacity := 4, refillPerMs := 4, refill_nonneg := zero_le_four }
  trustProxy := false

/-- Everything goes well in the first second; `id` is the next random UUID. -/
def calm (id : UInt8) : Choice Env SqlError := ⟨Env.at 0 0 id, none⟩

/-- One request takes `n` such steps. -/
def steps {Pid : Type} (i : Pid) (id : UInt8) (n : ℕ) : List (Pid × Choice Env SqlError) :=
  List.replicate n (i, calm id)

end Sample

end SylvaServer
