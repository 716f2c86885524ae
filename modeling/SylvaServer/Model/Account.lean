/-
  The `Account` gRPC service: bootstrap, login and the account's own changes.

  A handler with a long tail is cut where the source has a blank line: the tail has its own
  name under the handler's.
-/
import SylvaServer.Model.Audit
import SylvaServer.Model.Context

namespace SylvaServer

open ReadCommitted ReadCommitted.Prog

namespace Account

/-! ## Messages -/

structure DeviceEnrollment where
  deviceLabel : String
  platform : String
  devicePublicKey : Bytes
  machineLabel : String

structure BootstrapRequest where
  email : String
  displayName : String
  password : String
  keyMaterial : Option UserKeyMaterial
  device : Option DeviceEnrollment

structure LoginRequest where
  email : String
  password : String

structure UpdateEmailRequest where
  newEmail : String
  currentPassword : String

structure ChangePasswordRequest where
  currentPassword : String
  newPassword : String
  newMasterKeyWrapped : Bytes
  newKdfSalt : Bytes
  newKdfParams : String

structure ProtoSession where
  token : String
  userId : String
  expiresAt : String
deriving DecidableEq

inductive LoginResponse where
  | session (s : ProtoSession)
  | mfaRequired (mfaChallengeToken : String) (methods : List String)

structure ProtoDevice where
  deviceId : String
  deviceLabel : String
  platform : String
  machineId : String
  createdAt : String
  lastSeenAt : String
  revokedAt : String
deriving DecidableEq

structure Profile where
  userId : String
  email : String
  displayName : String
  instanceRole : String
deriving DecidableEq

/-! ## Helpers -/

def actorOf (user : User) : Audit.Actor where
  userId := user.id
  displayName := user.displayName

def profileOf (user : User) : Profile where
  userId := user.id.toString
  email := user.email
  displayName := user.displayName
  instanceRole := match user.instanceRole with
    | .owner => "owner"
    | .admin => "admin"
    | .member => "member"

def deviceToProto (d : Device) : ProtoDevice where
  deviceId := d.id.toString
  deviceLabel := d.deviceLabel
  platform := d.platform
  machineId := (d.machineId.map Uuid.toString).getD ""
  createdAt := d.createdAt.toRfc3339
  lastSeenAt := (d.lastSeenAt.map DateTime.toRfc3339).getD ""
  revokedAt := (d.revokedAt.map DateTime.toRfc3339).getD ""

def validateDevice (dev : DeviceEnrollment) : Except Status Unit :=
  if (trim dev.deviceLabel).isEmpty || (trim dev.platform).isEmpty ||
      dev.devicePublicKey.isEmpty then
    .error ⟨.invalidArgument, "device_label, platform, and device_public_key are required"⟩
  else .ok ()

/-- A field of a request that must be there. -/
def required {α : Type} (field : Option α) (message : String) : Except Status α :=
  match field with
  | some a => .ok a
  | none => .error ⟨.invalidArgument, message⟩

/-- Create a machine and a device enrollment within the caller's transaction. -/
def enrollDevice (user : User) (dev : DeviceEnrollment) : Rpc ProtoDevice := do
  let machineLabel := if (trim dev.machineLabel).isEmpty then dev.deviceLabel else dev.machineLabel
  let machine ← (inTx (MachineRepository.create machineLabel dev.platform (some user.id))).mapError
    fun _ => internal "enroll:machine"
  let device ← (inTx (DeviceRepository.register
    { userId := user.id
      machineId := some machine.id
      deviceLabel := dev.deviceLabel
      platform := dev.platform
      devicePublicKey := dev.devicePublicKey })).mapError fun _ => internal "enroll:device"
  pure (deviceToProto device)

variable (ctx : PlatformContext)

/-! ## Bootstrap -/

/-- The writes of a bootstrap, in one transaction. -/
def bootstrap.create (email displayName phc : String) (km : UserKeyMaterial)
    (dev : DeviceEnrollment) : Rpc ProtoSession := do
  beginTx.mapError fun _ => internal "bootstrap:begin"
  let user ← (inTx (UserRepository.create ctx.lib email displayName .owner .active)).mapError
    fun _ => internal "bootstrap:user"
  (inTx (Auth.createCredentials user.id phc)).mapError fun _ => internal "bootstrap:credentials"
  (inTx (UserKeyRepository.create user.id km)).mapError fun _ => internal "bootstrap:keys"
  let device ← enrollDevice user dev
  let _ ← (Audit.append ctx.lib (some (actorOf user)) none "owner_bootstrapped" (.object
    [("email", .str user.email), ("device_id", .str device.deviceId)])).mapError
    fun _ => internal "bootstrap:audit"
  let session ← (SessionRepository.create ctx.lib user.id Auth.defaultSessionTtl none none).mapError
    fun _ => internal "bootstrap:session"
  commitTx.mapError fun _ => internal "bootstrap:commit"
  pure
    { token := session.2, userId := user.id.toString, expiresAt := session.1.expiresAt.toRfc3339 }

/-- Past the first-owner gate. -/
def bootstrap.afterGate (email displayName password : String) (km : UserKeyMaterial)
    (dev : DeviceEnrollment) : Rpc ProtoSession := do
  let phc ← (Auth.hashPassword ctx.lib password).mapError fun _ => internal "bootstrap:hash"
  bootstrap.create ctx email displayName phc km dev

/-- The request is checked, in the order of the source, before the count of users. -/
def bootstrap.checked (req : BootstrapRequest) :
    Except Status (UserKeyMaterial × DeviceEnrollment) := do
  if (trim req.email).isEmpty || (trim req.displayName).isEmpty || req.password.isEmpty then
    throw ⟨.invalidArgument, "email, display_name, and password are required"⟩
  let km ← required req.keyMaterial "key_material is required"
  let dev ← required req.device "device is required"
  validateDevice dev
  pure (km, dev)

def bootstrap (metadata : Metadata) (req : BootstrapRequest) : Rpc ProtoSession := do
  let clientKey := rateKey metadata ctx.trustProxy
  let allowed ← ctx.authRateLimiter.allowed clientKey
  if !allowed then
    fail tooManyAttempts
  else do
    let (km, dev) ← ofExcept (bootstrap.checked req)
    let count ← (onPool UserRepository.count).mapError fun _ => internal "bootstrap:count"
    if count > 0 then
      ctx.authRateLimiter.recordFailure clientKey
      fail ⟨.failedPrecondition, "an account already exists"⟩
    else
      bootstrap.afterGate ctx (trim req.email) (trim req.displayName) req.password km dev

/-! ## Login -/

/-- Mint a session in its own transaction. -/
def newSession (userId : Uuid) : Rpc ProtoSession := do
  beginTx.mapError fun _ => internal "session:begin"
  let session ← (SessionRepository.create ctx.lib userId Auth.defaultSessionTtl none none).mapError
    fun _ => internal "session:create"
  commitTx.mapError fun _ => internal "session:commit"
  pure { token := session.2, userId := userId.toString, expiresAt := session.1.expiresAt.toRfc3339 }

/-- What follows the verification of the credentials. -/
def login.afterVerify (clientKey : String) :
    Except AuthError (Except Auth.CredentialOutcome User) → Rpc LoginResponse
  | .ok (.ok user) => do
    let mfa ← (onPool (Auth.hasSecondFactor user.id)).mapError fun _ => internal "login:mfa"
    if mfa then pure (.mfaRequired "" ["totp"])
    else do
      let session ← newSession ctx user.id
      pure (.session session)
  | .ok (.error _) => do
    ctx.authRateLimiter.recordFailure clientKey
    fail ⟨.unauthenticated, "invalid email or password"⟩
  | .error _ => fail (internal "login:verify")

/-- Past the limiter and the check of the request: the credentials are verified. -/
def login.verify (clientKey : String) (req : LoginRequest) : Rpc LoginResponse := do
  let outcome ← (Auth.verifyCredentials ctx.lib req.email req.password).attempt
  login.afterVerify ctx clientKey outcome

def login (metadata : Metadata) (req : LoginRequest) : Rpc LoginResponse := do
  let clientKey := rateKey metadata ctx.trustProxy
  let allowed ← ctx.authRateLimiter.allowed clientKey
  if !allowed then
    fail tooManyAttempts
  else if (trim req.email).isEmpty then
    fail ⟨.invalidArgument, "email is required"⟩
  else
    login.verify ctx clientKey req

/-! ## Devices -/

def registerDevice (metadata : Metadata) (device : Option DeviceEnrollment) : Rpc ProtoDevice := do
  let user ← authenticate ctx.lib metadata
  let dev ← ofExcept (required device "device is required")
  ofExcept (validateDevice dev)
  beginTx.mapError fun _ => internal "register_device:begin"
  let device ← enrollDevice user dev
  let _ ← (Audit.append ctx.lib (some (actorOf user)) none "device_registered" (.object
    [("device_id", .str device.deviceId), ("platform", .str device.platform)])).mapError
    fun _ => internal "register_device:audit"
  commitTx.mapError fun _ => internal "register_device:commit"
  pure device

/-- The audit of a revocation already committed; its failure is only logged. -/
def auditDeviceRevoked (user : User) (deviceId : Uuid) : Rpc Unit := do
  let audit : Query Unit := do
    beginTx
    let _ ← Audit.append ctx.lib (some (actorOf user)) none "device_revoked" (.object
      [("device_id", .str deviceId.toString)])
    commitTx
  let _ ← audit.attempt
  pure ()

def revokeDevice (metadata : Metadata) (deviceId : String) : Rpc Unit := do
  let user ← authenticate ctx.lib metadata
  let deviceId ← ofExcept (parseUuid ctx.lib deviceId "device_id")
  let revoked ← (onPool (DeviceRepository.revokeOwned deviceId user.id)).mapError
    fun _ => internal "revoke_device"
  if revoked then auditDeviceRevoked ctx user deviceId
  else fail ⟨.notFound, "device not found"⟩

/-! ## Account self-service -/

def updateDisplayName (metadata : Metadata) (newName : String) : Rpc Profile := do
  let user ← authenticate ctx.lib metadata
  let displayName := trim newName
  if displayName.isEmpty then
    fail ⟨.invalidArgument, "display_name is required"⟩
  else do
    beginTx.mapError fun _ => internal "update_display_name:begin"
    let updated ← (inTx (UserRepository.updateProfile user.id (some displayName) none)).mapError
      fun _ => internal "update_display_name:update"
    let _ ← (Audit.append ctx.lib (some (actorOf updated)) none "display_name_changed" (.object
      [("display_name", .str updated.displayName)])).mapError
      fun _ => internal "update_display_name:audit"
    commitTx.mapError fun _ => internal "update_display_name:commit"
    pure (profileOf updated)

/-- A unique violation of the update means that the address is in use. -/
def updateEmailError : SqlError → Status
  | .database "23505" => ⟨.alreadyExists, "that email address is already in use"⟩
  | _ => internal "update_email:update"

def updateEmail (metadata : Metadata) (req : UpdateEmailRequest) : Rpc Profile := do
  let user ← authenticate ctx.lib metadata
  let verified ← (Auth.verifyUserPassword ctx.lib user.id req.currentPassword).mapError
    fun _ => internal "update_email:verify"
  let newEmail := trim req.newEmail
  if !verified then
    fail ⟨.unauthenticated, "current password is incorrect"⟩
  else if newEmail.isEmpty then
    fail ⟨.invalidArgument, "new_email is required"⟩
  else do
    beginTx.mapError fun _ => internal "update_email:begin"
    let updated ← (inTx (UserRepository.updateEmail ctx.lib user.id newEmail)).mapError
      updateEmailError
    let _ ← (Audit.append ctx.lib (some (actorOf updated)) none "email_changed" (.object
      [("email", .str updated.email)])).mapError fun _ => internal "update_email:audit"
    commitTx.mapError fun _ => internal "update_email:commit"
    pure (profileOf updated)

/-- The writes of a password change, in one transaction. -/
def changePassword.write (user : User) (req : ChangePasswordRequest) (newPhc : String) :
    Rpc Unit := do
  beginTx.mapError fun _ => internal "change_password:begin"
  (inTx (Auth.updatePasswordHash user.id newPhc)).mapError
    fun _ => internal "change_password:credentials"
  (inTx (UserKeyRepository.update user.id req.newMasterKeyWrapped req.newKdfSalt
    req.newKdfParams)).mapError fun _ => internal "change_password:keys"
  let _ ← (Audit.append ctx.lib (some (actorOf user)) none "password_changed" (.object
    [])).mapError fun _ => internal "change_password:audit"
  commitTx.mapError fun _ => internal "change_password:commit"

/-- Past the check of the current password. -/
def changePassword.afterCheck (user : User) (req : ChangePasswordRequest) : Rpc Unit := do
  if req.newPassword.isEmpty then
    fail ⟨.invalidArgument, "new_password is required"⟩
  else do
    let newPhc ← (Auth.hashPassword ctx.lib req.newPassword).mapError
      fun _ => internal "change_password:hash"
    changePassword.write ctx user req newPhc

def changePassword (metadata : Metadata) (req : ChangePasswordRequest) : Rpc Unit := do
  let user ← authenticate ctx.lib metadata
  let verified ← (Auth.verifyUserPassword ctx.lib user.id req.currentPassword).mapError
    fun _ => internal "change_password:verify"
  if !verified then
    fail ⟨.unauthenticated, "current password is incorrect"⟩
  else
    changePassword.afterCheck ctx user req

/-! ## Avatar -/

/-- 1 MiB. -/
def maxAvatarBytes : Nat := 1048576

def setAvatar (metadata : Metadata) (avatar : Bytes) : Rpc Unit := do
  let user ← authenticate ctx.lib metadata
  if avatar.length > maxAvatarBytes then
    fail ⟨.invalidArgument, "avatar too large"⟩
  else
    (onPool (UserAvatarRepository.upsert user.id avatar)).mapError fun _ => internal "set_avatar"

end Account

end SylvaServer
