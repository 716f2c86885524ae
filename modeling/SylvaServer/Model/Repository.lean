/-
  Everything the server does to the database: the statements of its repositories, and the gRPC
  methods, which are made of them.

  `RepositoryStatement` lists the statements; a program that is made of them (`repositoryRules`) may
  use them in any order and look at their results in any way.

  Proved: the methods are such programs (`repository_call`), of 25 of these statements (`rpc_call`).
-/
import SylvaServer.Model.Account
import SylvaServer.Model.Machine
import SylvaServer.Model.Platform
import SylvaServer.Model.RecoveryCode
import SylvaServer.Model.Resources
import SylvaServer.Model.Totp

namespace SylvaServer

open ReadCommitted ReadCommitted.Prog

/-- The statements of the repositories. -/
inductive RepositoryStatement (lib : Libs) : {β : Type} → Statement β → Prop
  -- reads
  | select {β : Type} (f : Env → Db → β) : RepositoryStatement lib (select f)
  | auditList (like : Audit.PgText) (filter : Audit.ListFilter) :
      RepositoryStatement lib (Audit.list lib like filter)
  | emailForUpdate (id : Uuid) : RepositoryStatement lib (UserRepository.emailForUpdate id)
  -- users
  | createUser (email displayName : String) (instanceRole : InstanceRole)
      (lifecycle : UserLifecycle) :
      RepositoryStatement lib (UserRepository.create lib email displayName instanceRole lifecycle)
  | updateProfile (id : Uuid) (displayName locale : Option String) :
      RepositoryStatement lib (UserRepository.updateProfile id displayName locale)
  | updateEmail (id : Uuid) (newEmail : String) :
      RepositoryStatement lib (UserRepository.updateEmail lib id newEmail)
  | setInstanceRole (id : Uuid) (newRole : InstanceRole) :
      RepositoryStatement lib (UserRepository.setInstanceRole id newRole)
  | deactivate (id : Uuid) : RepositoryStatement lib (UserRepository.deactivate id)
  | reactivate (id : Uuid) : RepositoryStatement lib (UserRepository.reactivate id)
  | redact (id : Uuid) : RepositoryStatement lib (UserRepository.redact lib id)
  | hardRemove (id : Uuid) : RepositoryStatement lib (UserRepository.hardRemove id)
  -- invitations
  | createInvitation (invitedBy : Uuid) (email : String) (instanceRole : InstanceRole)
      (tokenHash : Bytes) (expiresAt : DateTime) : RepositoryStatement lib
        (InvitationRepository.insert lib invitedBy email instanceRole tokenHash expiresAt)
  | markAccepted (id acceptedUser : Uuid) :
      RepositoryStatement lib (InvitationRepository.markAccepted id acceptedUser)
  | revokeInvitation (id : Uuid) : RepositoryStatement lib (InvitationRepository.revoke id)
  | reissueInvitation (id : Uuid) (newHash : Bytes) (newExpiresAt : DateTime) :
      RepositoryStatement lib (InvitationRepository.rotate lib id newHash newExpiresAt)
  -- keys, avatars, machines and devices
  | createUserKeys (userId : Uuid) (km : UserKeyMaterial) :
      RepositoryStatement lib (UserKeyRepository.create userId km)
  | updateUserKeys (userId : Uuid) (masterKeyWrapped kdfSalt : Bytes) (kdfParams : String) :
      RepositoryStatement lib (UserKeyRepository.update userId masterKeyWrapped kdfSalt kdfParams)
  | upsertAvatar (userId : Uuid) (avatar : Bytes) :
      RepositoryStatement lib (UserAvatarRepository.upsert userId avatar)
  | createMachine (label platform : String) (claimedBy : Option Uuid) :
      RepositoryStatement lib (MachineRepository.create label platform claimedBy)
  | registerOrUpdate (identityPublic : Bytes) (platform label : String) :
      RepositoryStatement lib (MachineRepository.registerOrUpdate identityPublic platform label)
  | touchCheckin (machineId : Uuid) : RepositoryStatement lib
      (MachineRepository.touchCheckin machineId)
  | setLocationEnabled (machineId : Uuid) :
      RepositoryStatement lib (MachineRepository.setLocationEnabled machineId)
  | createMachineSession (machineId : Uuid) (tokenHash : Bytes) (expiresAt : DateTime) :
      RepositoryStatement lib (MachineSessionRepository.insert lib machineId tokenHash expiresAt)
  | insertTelemetry (machineId : Uuid) (blob : NewTelemetry) :
      RepositoryStatement lib (MachineTelemetryRepository.insertBlob machineId blob)
  | registerDevice (new : NewDevice) : RepositoryStatement lib (DeviceRepository.register new)
  | revokeDevice (deviceId userId : Uuid) :
      RepositoryStatement lib (DeviceRepository.revokeOwned deviceId userId)
  -- passwords and sessions
  | createCredentials (userId : Uuid) (phc : String) :
      RepositoryStatement lib (Auth.createCredentials userId phc)
  | updatePasswordHash (userId : Uuid) (newPhc : String) :
      RepositoryStatement lib (Auth.updatePasswordHash userId newPhc)
  | deleteCredentials (userId : Uuid) : RepositoryStatement lib (Auth.deleteCredentials userId)
  | createSession (userId : Uuid) (tokenHash : Bytes) (expiresAt : DateTime)
      (userAgent ipAddress : Option String) : RepositoryStatement lib
        (SessionRepository.insert lib userId tokenHash expiresAt userAgent ipAddress)
  | touchLastSeen (sessionId : Uuid) : RepositoryStatement lib
      (SessionRepository.touchLastSeen sessionId)
  | revokeSession (sessionId : Uuid) : RepositoryStatement lib (SessionRepository.revoke sessionId)
  | revokeAllForUserExcept (userId keepSessionId : Uuid) :
      RepositoryStatement lib (SessionRepository.revokeAllForUserExcept userId keepSessionId)
  | revokeAllForUser (userId : Uuid) :
      RepositoryStatement lib (SessionRepository.revokeAllForUser userId)
  | setLabel (sessionId userId : Uuid) (label : Option String) :
      RepositoryStatement lib (SessionRepository.setLabel sessionId userId label)
  -- second factors and recovery codes
  | deleteUnverified (userId : Uuid) : RepositoryStatement lib (UserTotp.deleteUnverified userId)
  | insertTotp (userId : Uuid) (enc : Bytes) : RepositoryStatement lib (UserTotp.insert userId enc)
  | confirmTotp (userId credId : Uuid) (label : String) :
      RepositoryStatement lib (UserTotp.confirm userId credId label)
  | consumeTotp (credId : Uuid) (step : Int) : RepositoryStatement lib
      (UserTotp.consume credId step)
  | renameTotp (userId credId : Uuid) (label : String) :
      RepositoryStatement lib (UserTotp.rename userId credId label)
  | stampTotp (credId : Uuid) : RepositoryStatement lib (UserTotp.stampUsed credId)
  | deleteTotp (userId credId : Uuid) : RepositoryStatement lib (UserTotp.delete userId credId)
  | insertRecoveryCode (codeHash : Bytes) (byUserId : Option Uuid) :
      RepositoryStatement lib (RecoveryCode.insert codeHash byUserId)
  | markRotated (currentHash : Bytes) (byUserId : Uuid) :
      RepositoryStatement lib (RecoveryCode.markRotated currentHash byUserId)
  | bootstrapUserCode (userId : Uuid) (rawCode : String) :
      RepositoryStatement lib (UserRecoveryCode.bootstrap lib userId rawCode)
  | rotateUserCode (userId : Uuid) (newRaw : String) :
      RepositoryStatement lib (UserRecoveryCode.rotate lib userId newRaw)
  | verifyAndStamp (userId : Uuid) (presented : String) :
      RepositoryStatement lib (UserRecoveryCode.verifyAndStamp lib userId presented)
  -- the audit log
  | advisoryXactLock : RepositoryStatement lib Audit.advisoryXactLock
  | nextSeqno : RepositoryStatement lib Audit.nextSeqno
  | insertEvent (row : AuditEvent) : RepositoryStatement lib (Audit.insertEvent lib row)
  -- the platform
  | removeTrustedPublisher (publisher : String) :
      RepositoryStatement lib (Registry.removeTrustedPublisher publisher)
  | addTrustedPublisher (publisher : String) (publicKey : Bytes) (addedBy : Option Uuid) :
      RepositoryStatement lib (Registry.addTrustedPublisher publisher publicKey addedBy)
  | setAppStatus (id : Uuid) (status : String) : RepositoryStatement lib
      (Registry.setAppStatus id status)
  | deleteApp (id : Uuid) : RepositoryStatement lib (Registry.deleteApp id)
  | upsertApp (decl : Registry.AppDeclaration) (registeredBy : Option Uuid) :
      RepositoryStatement lib (Registry.upsertApp decl registeredBy)
  | createResource (new : NewResource) : RepositoryStatement lib (ResourceRepository.create new)
  | updateOwned (id owner : Uuid) (contentBlob contentSignature : Bytes) (schemaVersion : Int32)
      (parentResourceId : Option Uuid) : RepositoryStatement lib
        (ResourceRepository.updateOwned id owner
        contentBlob contentSignature schemaVersion parentResourceId)
  | softDeleteOwned (id owner : Uuid) :
      RepositoryStatement lib (ResourceRepository.softDeleteOwned id owner)
  | adminHardDelete (appId id : Uuid) :
      RepositoryStatement lib (ResourceRepository.adminHardDelete appId id)

/-- Programs made of these statements. -/
abbrev repositoryRules (lib : Libs) : Rules Env Db Write LockKey Mem SqlError where
  begin := True
  stmt s := RepositoryStatement lib s
  pool s := RepositoryStatement lib s
  mem _ := True

/-! ## The gRPC methods -/

/-- A call of a method. -/
inductive RpcCall where
  | bootstrap (metadata : Metadata) (req : Account.BootstrapRequest)
  | login (metadata : Metadata) (req : Account.LoginRequest)
  | registerDevice (metadata : Metadata) (device : Option Account.DeviceEnrollment)
  | revokeDevice (metadata : Metadata) (deviceId : String)
  | updateDisplayName (metadata : Metadata) (newName : String)
  | updateEmail (metadata : Metadata) (req : Account.UpdateEmailRequest)
  | changePassword (metadata : Metadata) (req : Account.ChangePasswordRequest)
  | setAvatar (metadata : Metadata) (avatar : Bytes)
  | registerMachine (metadata : Metadata) (req : MachineService.RegisterMachineRequest)
  | checkIn (metadata : Metadata)
  | reportTelemetry (metadata : Metadata) (blobs : List MachineService.TelemetryBlob)
  | registerApp (metadata : Metadata) (req : Platform.RegisterAppRequest)
  | getAppRegistration (metadata : Metadata) (appIdentifier : String)
  | createResource (metadata : Metadata) (req : Resources.CreateResourceRequest)
  | readResource (metadata : Metadata) (id : String)
  | updateResource (metadata : Metadata) (req : Resources.UpdateResourceRequest)
  | deleteResource (metadata : Metadata) (id : String)
  | listResources (metadata : Metadata) (req : Resources.ListResourcesRequest)
  | streamChanges (metadata : Metadata) (req : Resources.StreamChangesRequest)

/-- The handler at work, without its reply. -/
def RpcCall.program (ctx : PlatformContext) : RpcCall → Rpc Unit
  | .bootstrap metadata req => do let _ ← Account.bootstrap ctx metadata req
  | .login metadata req => do let _ ← Account.login ctx metadata req
  | .registerDevice metadata device => do let _ ← Account.registerDevice ctx metadata device
  | .revokeDevice metadata deviceId => Account.revokeDevice ctx metadata deviceId
  | .updateDisplayName metadata newName => do let _ ← Account.updateDisplayName ctx metadata newName
  | .updateEmail metadata req => do let _ ← Account.updateEmail ctx metadata req
  | .changePassword metadata req => Account.changePassword ctx metadata req
  | .setAvatar metadata avatar => Account.setAvatar ctx metadata avatar
  | .registerMachine metadata req => do let _ ← MachineService.registerMachine ctx metadata req
  | .checkIn metadata => MachineService.checkIn ctx metadata
  | .reportTelemetry metadata blobs => MachineService.reportTelemetry ctx metadata blobs
  | .registerApp metadata req => do let _ ← Platform.registerApp ctx.lib metadata req
  | .getAppRegistration metadata appIdentifier => do
    let _ ← Platform.getAppRegistration ctx.lib metadata appIdentifier
  | .createResource metadata req => do let _ ← Resources.createResource ctx.lib metadata req
  | .readResource metadata id => do let _ ← Resources.readResource ctx.lib metadata id
  | .updateResource metadata req => do let _ ← Resources.updateResource ctx.lib metadata req
  | .deleteResource metadata id => Resources.deleteResource ctx.lib metadata id
  | .listResources metadata req => do let _ ← Resources.listResources ctx.lib metadata req
  | .streamChanges metadata req => do let _ ← Resources.streamChanges ctx.lib metadata req

/-- The tables that a method writes. `authenticate` bumps the session of the caller. -/
@[simp] def RpcCall.tables : RpcCall → List Table
  | .bootstrap _ _ => [.users, .credentials, .userKeys, .machines, .devices, .events, .sessions]
  | .login _ _ => [.sessions]
  | .registerDevice _ _ => [.sessions, .machines, .devices, .events]
  | .revokeDevice _ _ => [.sessions, .devices, .events]
  | .updateDisplayName _ _ => [.sessions, .users, .events]
  | .updateEmail _ _ => [.sessions, .users, .events]
  | .changePassword _ _ => [.sessions, .credentials, .userKeys, .events]
  | .setAvatar _ _ => [.sessions, .userAvatars]
  | .registerMachine _ _ => [.machines, .machineSessions, .events]
  | .checkIn _ => [.machines]
  | .reportTelemetry _ _ => [.machineTelemetry]
  | .registerApp _ _ => [.sessions, .registeredApps, .events]
  | .getAppRegistration _ _ => [.sessions]
  | .createResource _ _ => [.sessions, .resources]
  | .readResource _ _ => [.sessions]
  | .updateResource _ _ => [.sessions, .resources]
  | .deleteResource _ _ => [.sessions, .resources]
  | .listResources _ _ => [.sessions]
  | .streamChanges _ _ => [.sessions]

/-- The statements of the gRPC methods, each with the table it writes. -/
inductive RpcStatement (lib : Libs) : Option Table → {β : Type} → Statement β → Prop
  | select {β : Type} (f : Env → Db → β) : RpcStatement lib none (select f)
  | createUser (email displayName : String) :
      RpcStatement lib (some .users) (UserRepository.create lib email displayName .owner .active)
  | updateProfile (id : Uuid) (displayName : String) :
      RpcStatement lib (some .users) (UserRepository.updateProfile id (some displayName) none)
  | updateEmail (id : Uuid) (newEmail : String) : RpcStatement lib (some .users)
      (UserRepository.updateEmail lib id newEmail)
  | createUserKeys (userId : Uuid) (km : UserKeyMaterial) :
      RpcStatement lib (some .userKeys) (UserKeyRepository.create userId km)
  | updateUserKeys (userId : Uuid) (masterKeyWrapped kdfSalt : Bytes) (kdfParams : String) :
      RpcStatement lib (some .userKeys)
        (UserKeyRepository.update userId masterKeyWrapped kdfSalt kdfParams)
  | upsertAvatar (userId : Uuid) (avatar : Bytes) : RpcStatement lib (some .userAvatars)
      (UserAvatarRepository.upsert userId avatar)
  | createMachine (label platform : String) (claimedBy : Option Uuid) :
      RpcStatement lib (some .machines) (MachineRepository.create label platform claimedBy)
  | registerOrUpdate (identityPublic : Bytes) (platform label : String) :
      RpcStatement lib (some .machines)
        (MachineRepository.registerOrUpdate identityPublic platform label)
  | touchCheckin (machineId : Uuid) : RpcStatement lib (some .machines)
      (MachineRepository.touchCheckin machineId)
  | createMachineSession (machineId : Uuid) (tokenHash : Bytes) (expiresAt : DateTime) :
      RpcStatement lib (some .machineSessions)
        (MachineSessionRepository.insert lib machineId tokenHash expiresAt)
  | insertTelemetry (machineId : Uuid) (blob : NewTelemetry) :
      RpcStatement lib (some .machineTelemetry)
        (MachineTelemetryRepository.insertBlob machineId blob)
  | registerDevice (new : NewDevice) : RpcStatement lib (some .devices)
      (DeviceRepository.register new)
  | revokeDevice (deviceId userId : Uuid) : RpcStatement lib (some .devices)
      (DeviceRepository.revokeOwned deviceId userId)
  | createCredentials (userId : Uuid) (phc : String) : RpcStatement lib (some .credentials)
      (Auth.createCredentials userId phc)
  | updatePasswordHash (userId : Uuid) (newPhc : String) :
      RpcStatement lib (some .credentials) (Auth.updatePasswordHash userId newPhc)
  | createSession (userId : Uuid) (tokenHash : Bytes) (expiresAt : DateTime)
      (userAgent ipAddress : Option String) : RpcStatement lib (some .sessions)
        (SessionRepository.insert lib userId tokenHash expiresAt userAgent ipAddress)
  | touchLastSeen (sessionId : Uuid) : RpcStatement lib (some .sessions)
      (SessionRepository.touchLastSeen sessionId)
  | advisoryXactLock : RpcStatement lib none Audit.advisoryXactLock
  | nextSeqno : RpcStatement lib none Audit.nextSeqno
  | insertEvent (row : AuditEvent) : RpcStatement lib (some .events) (Audit.insertEvent lib row)
  | upsertApp (decl : Registry.AppDeclaration) (registeredBy : Option Uuid) :
      RpcStatement lib (some .registeredApps) (Registry.upsertApp decl registeredBy)
  | createResource (new : NewResource) : RpcStatement lib (some .resources)
      (ResourceRepository.create new)
  | updateOwned (id owner : Uuid) (contentBlob contentSignature : Bytes) (schemaVersion : Int32)
      (parentResourceId : Option Uuid) : RpcStatement lib (some .resources)
        (ResourceRepository.updateOwned id owner
        contentBlob contentSignature schemaVersion parentResourceId)
  | softDeleteOwned (id owner : Uuid) : RpcStatement lib (some .resources)
      (ResourceRepository.softDeleteOwned id owner)

theorem RpcStatement.repository {lib : Libs} {t : Option Table} {β : Type} {s : Statement β}
    (hs : RpcStatement lib t s) :
    RepositoryStatement lib s := by
  cases hs with
  | select => exact .select _
  | createUser => exact .createUser _ _ _ _
  | updateProfile => exact .updateProfile _ _ _
  | updateEmail => exact .updateEmail _ _
  | createUserKeys => exact .createUserKeys _ _
  | updateUserKeys => exact .updateUserKeys _ _ _ _
  | upsertAvatar => exact .upsertAvatar _ _
  | createMachine => exact .createMachine _ _ _
  | registerOrUpdate => exact .registerOrUpdate _ _ _
  | touchCheckin => exact .touchCheckin _
  | createMachineSession => exact .createMachineSession _ _ _
  | insertTelemetry => exact .insertTelemetry _ _
  | registerDevice => exact .registerDevice _
  | revokeDevice => exact .revokeDevice _ _
  | createCredentials => exact .createCredentials _ _
  | updatePasswordHash => exact .updatePasswordHash _ _
  | createSession => exact .createSession _ _ _ _ _
  | touchLastSeen => exact .touchLastSeen _
  | advisoryXactLock => exact .advisoryXactLock
  | nextSeqno => exact .nextSeqno
  | insertEvent => exact .insertEvent _
  | upsertApp => exact .upsertApp _ _
  | createResource => exact .createResource _
  | updateOwned => exact .updateOwned _ _ _ _ _ _
  | softDeleteOwned => exact .softDeleteOwned _ _

/-- Programs made of the statements of the methods that write no other table than `may`. -/
abbrev rpcRules (lib : Libs) (may : Table → Prop) : Rules Env Db Write LockKey Mem SqlError where
  begin := True
  stmt s := ∃ t, RpcStatement lib t s ∧ ∀ t' ∈ t, may t'
  pool s := ∃ t, RpcStatement lib t s ∧ ∀ t' ∈ t, may t'
  mem _ := True

section Methods

variable {lib : Libs} {may : Table → Prop} {t : Table} {α β ε : Type}

-- a method is taken apart by its requests; unfolded whole, it takes too long
attribute [local irreducible] Prog.Obeys

theorem rpc_look (f : Env → Db → β) (g : SqlError → ε) :
    ((onPool (select f)).mapError g).Obeys (rpcRules lib may) :=
  obeys_mapError g (obeys_onPool ⟨none, .select f, by simp⟩)

theorem rpc_onPool {s : Statement β} (ht : may t) (h : RpcStatement lib (some t) s)
    (g : SqlError → ε) : ((onPool s).mapError g).Obeys (rpcRules lib may) :=
  obeys_mapError g (obeys_onPool ⟨some t, h, by simpa using ht⟩)

theorem rpc_inTx {s : Statement β} (ht : may t) (h : RpcStatement lib (some t) s)
    (g : SqlError → ε) :
    ((inTx s).mapError g).Obeys (rpcRules lib may) :=
  obeys_mapError g (obeys_inTx ⟨some t, h, by simpa using ht⟩)

theorem rpc_begin (g : SqlError → ε) : (beginTx.mapError g).Obeys (rpcRules lib may) :=
  obeys_mapError g (obeys_beginTx trivial)

theorem rpc_commit (g : SqlError → ε) : (commitTx.mapError g).Obeys (rpcRules lib may) :=
  obeys_mapError g obeys_commitTx

theorem rpc_critical (f : Env → Mem → β × Mem) :
    (critical f : Prog Env Db Write LockKey Mem SqlError ε β).Obeys (rpcRules lib may) :=
  obeys_critical trivial

theorem rpc_append (hevents : may .events) (actor : Option Audit.Actor) (appId : Option String)
    (eventType : String) (eventData : EventData) :
    (Audit.append lib actor appId eventType eventData).Obeys (rpcRules lib may) := by
  unfold Audit.append
  refine obeys_bind (obeys_inTx ⟨none, .advisoryXactLock, by simp⟩) fun _ => ?_
  refine obeys_bind (obeys_inTx ⟨none, .nextSeqno, by simp⟩) fun seqno => ?_
  refine obeys_bind (obeys_inTx ⟨none, .select _, by simp⟩) fun last => ?_
  exact obeys_bind (rpc_critical _) fun now => obeys_inTx
    ⟨some .events, .insertEvent _, by simpa using hevents⟩

theorem rpc_createSession (hsessions : may .sessions) (userId : Uuid) (ttl : Int)
    (userAgent ipAddress : Option String) :
    (SessionRepository.create lib userId ttl userAgent ipAddress).Obeys (rpcRules lib may) := by
  unfold SessionRepository.create
  refine obeys_bind (rpc_critical _) fun token => ?_
  refine obeys_bind (rpc_critical _) fun now => ?_
  exact obeys_bind (obeys_inTx ⟨some .sessions, .createSession _ _ _ _ _, by simpa using hsessions⟩)
    fun _ => obeys_ret _

theorem rpc_authenticate (hsessions : may .sessions) (metadata : Metadata) :
    (authenticate lib metadata).Obeys (rpcRules lib may) := by
  unfold authenticate
  refine obeys_bind (obeys_ret _) fun token => obeys_bind (rpc_look _ _) fun session => ?_
  cases session with
  | none => exact obeys_ret _
  | some session =>
    refine obeys_bind (rpc_look _ _) fun user => ?_
    cases user with
    | none => exact obeys_ret _
    | some user =>
      exact obeys_bind
        (obeys_attempt (obeys_onPool ⟨some .sessions, .touchLastSeen _, by simpa using hsessions⟩))
        fun _ => obeys_ret _

theorem rpc_hashPassword (password : String) :
    (Auth.hashPassword lib password).Obeys (rpcRules lib may) :=
  obeys_bind (rpc_critical _) fun _ => obeys_ret _

theorem rpc_verifyUserPassword (userId : Uuid) (password : String) :
    (Auth.verifyUserPassword lib userId password).Obeys (rpcRules lib may) := by
  unfold Auth.verifyUserPassword
  refine obeys_bind (rpc_look _ _) fun hash => ?_
  cases hash with
  | none => exact obeys_ret _
  | some hash => exact obeys_ret _

theorem rpc_verifyCredentials (email password : String) :
    (Auth.verifyCredentials lib email password).Obeys (rpcRules lib may) := by
  unfold Auth.verifyCredentials
  refine obeys_bind (rpc_look _ _) fun found => ?_
  cases found with
  | none => exact obeys_ret _
  | some found => exact obeys_bind (obeys_ret _) fun _ => obeys_ite (obeys_ret _) (obeys_ret _)

theorem rpc_enrollDevice (hmachines : may .machines) (hdevices : may .devices) (user : User)
    (dev : Account.DeviceEnrollment) :
    (Account.enrollDevice user dev).Obeys (rpcRules lib may) := by
  unfold Account.enrollDevice
  refine obeys_bind (rpc_inTx hmachines (.createMachine _ _ _) _) fun machine => ?_
  exact obeys_bind (rpc_inTx hdevices (.registerDevice _) _) fun _ => obeys_ret _

variable {ctx : PlatformContext} (metadata : Metadata)

theorem rpc_afterGate (email displayName password : String) (km : UserKeyMaterial)
    (dev : Account.DeviceEnrollment) (req : Account.BootstrapRequest) :
    (Account.bootstrap.afterGate ctx email displayName password km dev).Obeys
      (rpcRules ctx.lib (· ∈ RpcCall.tables (.bootstrap metadata req))) := by
  refine obeys_bind (obeys_mapError _ (rpc_hashPassword _)) fun phc => ?_
  unfold Account.bootstrap.create
  refine obeys_bind (rpc_begin _) fun _ => ?_
  refine obeys_bind (rpc_inTx (by simp) (.createUser _ _) _) fun user => ?_
  refine obeys_bind (rpc_inTx (by simp) (.createCredentials _ _) _) fun _ => ?_
  refine obeys_bind (rpc_inTx (by simp) (.createUserKeys _ _) _) fun _ => ?_
  refine obeys_bind (rpc_enrollDevice (by simp) (by simp) _ _) fun device => ?_
  refine obeys_bind (obeys_mapError _ (rpc_append (by simp) _ _ _ _)) fun _ => ?_
  refine obeys_bind (obeys_mapError _ (rpc_createSession (by simp) _ _ _ _)) fun session => ?_
  exact obeys_bind (rpc_commit _) fun _ => obeys_ret _

theorem rpc_bootstrap (req : Account.BootstrapRequest) :
    (Account.bootstrap ctx metadata req).Obeys
      (rpcRules ctx.lib (· ∈ RpcCall.tables (.bootstrap metadata req))) := by
  unfold Account.bootstrap
  refine obeys_bind (rpc_critical _) fun allowed => obeys_ite (obeys_ret _) ?_
  refine obeys_bind (obeys_ret _) fun checked => obeys_bind (rpc_look _ _) fun count => ?_
  exact obeys_ite (obeys_bind (rpc_critical _) fun _ => obeys_ret _)
    (rpc_afterGate metadata _ _ _ _ _ req)

theorem rpc_login (req : Account.LoginRequest) :
    (Account.login ctx metadata req).Obeys
      (rpcRules ctx.lib (· ∈ RpcCall.tables (.login metadata req))) := by
  unfold Account.login
  generalize (trim req.email).isEmpty = blank
  refine obeys_bind (rpc_critical _) fun allowed => obeys_ite (obeys_ret _)
    (obeys_ite (obeys_ret _) ?_)
  unfold Account.login.verify
  refine obeys_bind (obeys_attempt (rpc_verifyCredentials _ _)) fun outcome => ?_
  unfold Account.login.afterVerify
  split
  · refine obeys_bind (rpc_look _ _) fun mfa => obeys_ite (obeys_ret _) ?_
    refine obeys_bind ?_ fun _ => obeys_ret _
    refine obeys_bind (rpc_begin _) fun _ => ?_
    refine obeys_bind (obeys_mapError _ (rpc_createSession (by simp) _ _ _ _)) fun session => ?_
    exact obeys_bind (rpc_commit _) fun _ => obeys_ret _
  · exact obeys_bind (rpc_critical _) fun _ => obeys_ret _
  · exact obeys_ret _

theorem rpc_registerDevice (device : Option Account.DeviceEnrollment) :
    (Account.registerDevice ctx metadata device).Obeys
      (rpcRules ctx.lib (· ∈ RpcCall.tables (.registerDevice metadata device))) := by
  unfold Account.registerDevice
  refine obeys_bind (rpc_authenticate (by simp) metadata) fun user => ?_
  refine obeys_bind (obeys_ret _) fun dev => obeys_bind (obeys_ret _) fun _ => ?_
  refine obeys_bind (rpc_begin _) fun _ => obeys_bind (rpc_enrollDevice (by simp) (by simp) _ _)
    fun device => ?_
  refine obeys_bind (obeys_mapError _ (rpc_append (by simp) _ _ _ _)) fun _ => ?_
  exact obeys_bind (rpc_commit _) fun _ => obeys_ret _

theorem rpc_revokeDevice (deviceId : String) :
    (Account.revokeDevice ctx metadata deviceId).Obeys
      (rpcRules ctx.lib (· ∈ RpcCall.tables (.revokeDevice metadata deviceId))) := by
  unfold Account.revokeDevice
  refine obeys_bind (rpc_authenticate (by simp) metadata) fun user =>
    obeys_bind (obeys_ret _) fun id => ?_
  refine obeys_bind (rpc_onPool (by simp) (.revokeDevice _ _) _) fun revoked =>
    obeys_ite ?_ (obeys_ret _)
  unfold Account.auditDeviceRevoked
  refine obeys_bind (obeys_attempt ?_) fun _ => obeys_ret _
  exact obeys_bind (obeys_beginTx trivial) fun _ =>
    obeys_bind (rpc_append (by simp) _ _ _ _) fun _ => obeys_commitTx

theorem rpc_updateDisplayName (newName : String) :
    (Account.updateDisplayName ctx metadata newName).Obeys
      (rpcRules ctx.lib (· ∈ RpcCall.tables (.updateDisplayName metadata newName))) := by
  unfold Account.updateDisplayName
  generalize trim newName = displayName
  refine obeys_bind (rpc_authenticate (by simp) metadata) fun user => obeys_ite (obeys_ret _) ?_
  refine obeys_bind (rpc_begin _) fun _ => ?_
  refine obeys_bind (rpc_inTx (by simp) (.updateProfile _ _) _) fun updated => ?_
  refine obeys_bind (obeys_mapError _ (rpc_append (by simp) _ _ _ _)) fun _ => ?_
  exact obeys_bind (rpc_commit _) fun _ => obeys_ret _

theorem rpc_updateEmail (req : Account.UpdateEmailRequest) :
    (Account.updateEmail ctx metadata req).Obeys
      (rpcRules ctx.lib (· ∈ RpcCall.tables (.updateEmail metadata req))) := by
  unfold Account.updateEmail
  generalize trim req.newEmail = newEmail
  refine obeys_bind (rpc_authenticate (by simp) metadata) fun user => ?_
  refine obeys_bind (obeys_mapError _ (rpc_verifyUserPassword _ _)) fun verified => ?_
  refine obeys_ite (obeys_ret _) (obeys_ite (obeys_ret _) ?_)
  refine obeys_bind (rpc_begin _) fun _ => ?_
  refine obeys_bind (rpc_inTx (by simp) (.updateEmail _ _) _) fun updated => ?_
  refine obeys_bind (obeys_mapError _ (rpc_append (by simp) _ _ _ _)) fun _ => ?_
  exact obeys_bind (rpc_commit _) fun _ => obeys_ret _

theorem rpc_changePassword (req : Account.ChangePasswordRequest) :
    (Account.changePassword ctx metadata req).Obeys
      (rpcRules ctx.lib (· ∈ RpcCall.tables (.changePassword metadata req))) := by
  unfold Account.changePassword
  refine obeys_bind (rpc_authenticate (by simp) metadata) fun user => ?_
  refine obeys_bind (obeys_mapError _ (rpc_verifyUserPassword _ _)) fun verified => ?_
  refine obeys_ite (obeys_ret _) ?_
  unfold Account.changePassword.afterCheck
  refine obeys_ite (obeys_ret _) (obeys_bind (obeys_mapError _ (rpc_hashPassword _)) fun phc => ?_)
  unfold Account.changePassword.write
  refine obeys_bind (rpc_begin _) fun _ => ?_
  refine obeys_bind (rpc_inTx (by simp) (.updatePasswordHash _ _) _) fun _ => ?_
  refine obeys_bind (rpc_inTx (by simp) (.updateUserKeys _ _ _ _) _) fun _ => ?_
  exact obeys_bind (obeys_mapError _ (rpc_append (by simp) _ _ _ _)) fun _ => rpc_commit _

theorem rpc_registerMachine (req : MachineService.RegisterMachineRequest) :
    (MachineService.registerMachine ctx metadata req).Obeys
      (rpcRules ctx.lib (· ∈ RpcCall.tables (.registerMachine metadata req))) := by
  unfold MachineService.registerMachine
  generalize ((trim req.platform).isEmpty || (trim req.label).isEmpty) = blank
  generalize MachineService.verifyPop ctx.lib req.machineIdentityPublic req.platform req.label
    req.signature = signed
  refine obeys_bind (rpc_critical _) fun allowed => obeys_ite (obeys_ret _)
    (obeys_ite (obeys_ret _) ?_)
  refine obeys_ite (obeys_bind (rpc_critical _) fun _ => obeys_ret _) ?_
  unfold MachineService.registerMachine.write
  refine obeys_bind (rpc_begin _) fun _ => ?_
  refine obeys_bind (rpc_inTx (by simp) (.registerOrUpdate _ _ _) _) fun id => ?_
  refine obeys_bind (obeys_mapError _ ?_) fun session => ?_
  · unfold MachineSessionRepository.create
    refine obeys_bind (rpc_critical _) fun token => ?_
    refine obeys_bind (rpc_critical _) fun now => ?_
    exact obeys_bind (obeys_inTx ⟨some .machineSessions, .createMachineSession _ _ _, by simp⟩)
      fun _ => obeys_ret _
  · refine obeys_bind (obeys_mapError _ (rpc_append (by simp) _ _ _ _)) fun _ => ?_
    exact obeys_bind (rpc_commit _) fun _ => obeys_ret _

theorem rpc_authenticateMachine :
    (MachineService.authenticateMachine ctx metadata).Obeys (rpcRules ctx.lib may) := by
  unfold MachineService.authenticateMachine
  refine obeys_bind (obeys_ret _) fun token => obeys_bind (rpc_look _ _) fun session => ?_
  cases session with
  | none => exact obeys_ret _
  | some session => exact obeys_ret _

theorem rpc_insertTelemetry (htelemetry : may .machineTelemetry) (machineId : Uuid)
    (blobs : List NewTelemetry) :
    (MachineTelemetryRepository.insert machineId blobs).Obeys (rpcRules lib may) := by
  induction blobs with
  | nil => exact obeys_ret _
  | cons blob blobs ih =>
    exact obeys_bind
      (obeys_onPool ⟨some .machineTelemetry, .insertTelemetry _ _, by simpa using htelemetry⟩)
      fun _ => ih

theorem rpc_registerApp (req : Platform.RegisterAppRequest) :
    (Platform.registerApp lib metadata req).Obeys
      (rpcRules lib (· ∈ RpcCall.tables (.registerApp metadata req))) := by
  unfold Platform.registerApp
  generalize ((trim req.appIdentifier).isEmpty || (trim req.displayName).isEmpty ||
    (trim req.publisher).isEmpty) = blank
  refine obeys_bind (rpc_authenticate (by simp) metadata) fun user => obeys_ite (obeys_ret _) ?_
  refine obeys_bind (rpc_look _ _) fun publisher => ?_
  cases publisher with
  | none => exact obeys_ret _
  | some publisher =>
    refine obeys_ite (obeys_ret _) ?_
    unfold Platform.registerApp.write
    refine obeys_bind (rpc_begin _) fun _ => ?_
    refine obeys_bind (rpc_inTx (by simp) (.upsertApp _ _) _) fun row => ?_
    refine obeys_bind (obeys_mapError _ (rpc_append (by simp) _ _ _ _)) fun _ => ?_
    exact obeys_bind (rpc_commit _) fun _ => obeys_ret _

theorem rpc_createResource (hresources : may .resources) (owner : Uuid)
    (req : Resources.CreateResourceRequest) :
    (Resources.createResource.as lib owner req).Obeys (rpcRules lib may) := by
  unfold Resources.createResource.as
  generalize (trim req.resourceType).isEmpty = blank
  refine obeys_ite (obeys_ret _) (obeys_bind (obeys_ret _) fun appId => ?_)
  refine obeys_bind (rpc_look _ _) fun app => ?_
  refine obeys_bind (obeys_ret _) fun _ => obeys_bind (obeys_ret _) fun new => ?_
  exact obeys_bind (rpc_onPool hresources (.createResource _) _) fun _ => obeys_ret _

theorem rpc_updateResource (hresources : may .resources) (owner : Uuid)
    (req : Resources.UpdateResourceRequest) :
    (Resources.updateResource.as lib owner req).Obeys (rpcRules lib may) := by
  unfold Resources.updateResource.as
  refine obeys_bind (obeys_ret _) fun id => obeys_bind (obeys_ret _) fun parent => ?_
  refine obeys_bind (rpc_onPool hresources (.updateOwned _ _ _ _ _ _) _) fun row => ?_
  cases row with
  | none => exact obeys_ret _
  | some row => exact obeys_ret _

theorem rpc_deleteResource (hresources : may .resources) (owner : Uuid) (id : String) :
    (Resources.deleteResource.as lib owner id).Obeys (rpcRules lib may) := by
  unfold Resources.deleteResource.as
  refine obeys_bind (obeys_ret _) fun id => ?_
  exact obeys_bind (rpc_onPool hresources (.softDeleteOwned _ _) _) fun affected =>
    obeys_ite (obeys_ret _) (obeys_ret _)

theorem rpc_readResource (owner : Uuid) (id : String) :
    (Resources.readResource.as lib owner id).Obeys (rpcRules lib may) := by
  unfold Resources.readResource.as
  refine obeys_bind (obeys_ret _) fun id => obeys_bind (rpc_look _ _) fun row => ?_
  cases row with
  | none => exact obeys_ret _
  | some row => exact obeys_ret _

theorem rpc_listResources (owner : Uuid) (req : Resources.ListResourcesRequest) :
    (Resources.listResources.as lib owner req).Obeys (rpcRules lib may) := by
  unfold Resources.listResources.as
  generalize (trim req.resourceType).isEmpty = blank
  refine obeys_ite (obeys_ret _) (obeys_bind (obeys_ret _) fun appId =>
    obeys_bind (obeys_mapError _ ?_) fun _ => obeys_ret _)
  refine obeys_bind (obeys_onPool ⟨none, .select _, by simp⟩) fun rows => ?_
  exact obeys_bind (obeys_onPool ⟨none, .select _, by simp⟩) fun _ => obeys_ret _

/-- **The gRPC methods write their tables only**, by the statements of the repositories. -/
theorem rpc_call (call : RpcCall) :
    (call.program ctx).Obeys (rpcRules ctx.lib (· ∈ call.tables)) := by
  cases call with
  | bootstrap metadata req => exact obeys_bind (rpc_bootstrap metadata req) fun _ => obeys_ret _
  | login metadata req => exact obeys_bind (rpc_login metadata req) fun _ => obeys_ret _
  | registerDevice metadata device =>
    exact obeys_bind (rpc_registerDevice metadata device) fun _ => obeys_ret _
  | revokeDevice metadata deviceId => exact rpc_revokeDevice metadata deviceId
  | updateDisplayName metadata newName =>
    exact obeys_bind (rpc_updateDisplayName metadata newName) fun _ => obeys_ret _
  | updateEmail metadata req => exact obeys_bind (rpc_updateEmail metadata req) fun _ => obeys_ret _
  | changePassword metadata req => exact rpc_changePassword metadata req
  | setAvatar metadata avatar =>
    exact obeys_bind (rpc_authenticate (by simp) metadata) fun user =>
      obeys_ite (obeys_ret _) (rpc_onPool (by simp) (.upsertAvatar _ _) _)
  | registerMachine metadata req =>
    exact obeys_bind (rpc_registerMachine metadata req) fun _ => obeys_ret _
  | checkIn metadata =>
    exact obeys_bind (rpc_authenticateMachine metadata) fun id =>
      rpc_onPool (by simp) (.touchCheckin _) _
  | reportTelemetry metadata blobs =>
    exact obeys_bind (rpc_authenticateMachine metadata) fun id =>
      obeys_ite (obeys_ret _) (obeys_mapError _ (rpc_insertTelemetry (by simp) _ _))
  | registerApp metadata req => exact obeys_bind (rpc_registerApp metadata req) fun _ => obeys_ret _
  | getAppRegistration metadata appIdentifier =>
    refine obeys_bind (obeys_bind (rpc_authenticate (by simp) metadata) fun _ => ?_)
      fun _ => obeys_ret _
    refine obeys_bind (rpc_look _ _) fun row => ?_
    cases row with
    | none => exact obeys_ret _
    | some row => exact obeys_ret _
  | createResource metadata req =>
    exact obeys_bind (obeys_bind (rpc_authenticate (by simp) metadata) fun user =>
      rpc_createResource (by simp) user.id req) fun _ => obeys_ret _
  | readResource metadata id =>
    exact obeys_bind (obeys_bind (rpc_authenticate (by simp) metadata) fun user =>
      rpc_readResource user.id id) fun _ => obeys_ret _
  | updateResource metadata req =>
    exact obeys_bind (obeys_bind (rpc_authenticate (by simp) metadata) fun user =>
      rpc_updateResource (by simp) user.id req) fun _ => obeys_ret _
  | deleteResource metadata id =>
    exact obeys_bind (rpc_authenticate (by simp) metadata) fun user =>
      rpc_deleteResource (by simp) user.id id
  | listResources metadata req =>
    exact obeys_bind (obeys_bind (rpc_authenticate (by simp) metadata) fun user =>
      rpc_listResources user.id req) fun _ => obeys_ret _
  | streamChanges metadata req =>
    refine obeys_bind (obeys_bind (rpc_authenticate (by simp) metadata) fun user => ?_)
      fun _ => obeys_ret _
    exact obeys_bind (obeys_ret _) fun appId => obeys_bind (rpc_look _ _) fun _ => obeys_ret _

/-- **The gRPC methods are made of the statements of the repositories.** -/
theorem repository_call (call : RpcCall) : (call.program ctx).Obeys (repositoryRules ctx.lib) :=
  Obeys.mono (R := rpcRules ctx.lib (· ∈ call.tables)) id (fun _ ⟨_, hs, _⟩ => hs.repository)
    (fun _ ⟨_, hs, _⟩ => hs.repository) (fun _ => id) (rpc_call call)

end Methods

end SylvaServer
