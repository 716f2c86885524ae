/-
  The identity crate: users, invitations, key material, machines, machine sessions and devices.

  Each definition is one SQL statement of a repository; `gen_random_uuid()` is `env.uuid` and
  `now()` is `env.pgNow`.
-/
import SylvaServer.Model.Tables

namespace SylvaServer

open ReadCommitted ReadCommitted.Prog

namespace UserRepository

/-- `INSERT INTO identity.users … RETURNING …`: the id and the lower-cased email are unique. -/
def create (lib : Libs) (email displayName : String) (instanceRole : InstanceRole)
    (lifecycle : UserLifecycle) : Statement User := fun env mem db =>
  insertRow .users
    { id := env.uuid
      email := email
      displayName := displayName
      lifecycle := lifecycle
      instanceRole := instanceRole
      kind := .member
      locale := none
      createdAt := env.pgNow
      updatedAt := env.pgNow }
    (db.users.any fun u => lib.lower u.email == lib.lower email) []
    [.emailLower (lib.lower email)] mem db

/-- `SELECT COUNT(*) FROM identity.users`. -/
def count : Statement Nat := select fun _ db => db.users.length

/-- A user that is not anonymized. -/
def findById (id : Uuid) : Statement (Option User) :=
  select fun _ db => db.users.find? fun u => u.id == id && u.lifecycle != .anonymized

/-- Partial profile update: `COALESCE` keeps the value where nothing is given. -/
def updateProfile (id : Uuid) (displayName locale : Option String) : Statement User :=
  fun env mem db =>
    readAs fetchOne (updateRows .users (·.id == id) (fun u => { u with
      displayName := displayName.getD u.displayName
      locale := locale <|> u.locale
      updatedAt := env.pgNow }) mem db)

/-- A new address; the index on the lower-cased email refuses one in use. -/
def updateEmail (lib : Libs) (id : Uuid) (newEmail : String) : Statement User :=
  fun env mem db =>
    if db.users.any (·.id == id) &&
        db.users.any (fun u => u.id != id && lib.lower u.email == lib.lower newEmail) then
      failed uniqueViolation mem
    else
      let o := updateRows .users (·.id == id) (fun u => { u with
        email := newEmail
        updatedAt := env.pgNow }) mem db
      readAs fetchOne { o with
        locks := .emailLower (lib.lower newEmail) ::
          (db.users.filter (·.id == id)).map fun u => .emailLower (lib.lower u.email) }

/-- Set a user's role; the caller checks who may. -/
def setInstanceRole (id : Uuid) (newRole : InstanceRole) : Statement User := fun env mem db =>
  readAs fetchOne (updateRows .users (·.id == id) (fun u => { u with
    instanceRole := newRole
    updatedAt := env.pgNow }) mem db)

/-- A user that is not anonymized has the address. -/
def emailInUse (lib : Libs) (email : String) : Statement Bool :=
  select fun _ db => db.users.any fun u =>
    lib.lower u.email == lib.lower email && u.lifecycle != .anonymized

/-- `SET lifecycle = 'deactivated'`; no look at the state before. -/
def deactivate (id : Uuid) : Statement User := fun env mem db =>
  readAs fetchOne (updateRows .users (·.id == id) (fun u => { u with
    lifecycle := .deactivated
    updatedAt := env.pgNow }) mem db)

/-- `SET lifecycle = 'active'`; no look at the state before. -/
def reactivate (id : Uuid) : Statement User := fun env mem db =>
  readAs fetchOne (updateRows .users (·.id == id) (fun u => { u with
    lifecycle := .active
    updatedAt := env.pgNow }) mem db)

/-- `SELECT email … FOR UPDATE`. -/
def emailForUpdate (id : Uuid) : Statement String := fun _ mem db =>
  let rows := db.users.filter (·.id == id)
  readAs fetchOne
    { result := .ok (rows.map User.email)
      writes := []
      locks := rows.map fun u => .row .users (.uuid u.id)
      mem := mem }

/-- The address that takes the place of a closed account's. -/
def redactedEmail (id : Uuid) : String := "deleted+" ++ id.toString ++ "@purged.invalid"

/-- The redacting `UPDATE`; the index on the lower-cased email refuses an address in use. -/
def redact (lib : Libs) (id : Uuid) : Statement User := fun env mem db =>
  if db.users.any (·.id == id) && db.users.any (fun u => u.id != id &&
      lib.lower u.email == lib.lower (redactedEmail id)) then failed uniqueViolation mem
  else
    let o := updateRows .users (·.id == id) (fun u => { u with
      email := redactedEmail id
      displayName := "[deleted user]"
      locale := none
      lifecycle := .anonymized
      updatedAt := env.pgNow }) mem db
    readAs fetchOne { o with
      locks := .emailLower (lib.lower (redactedEmail id)) ::
        (db.users.filter (·.id == id)).map fun u => .emailLower (lib.lower u.email) }

/-- Redact in place; the row after it and the address of before. -/
def redactAndTerminate (lib : Libs) (id : Uuid) : Query (User × String) := do
  let originalEmail ← inTx (emailForUpdate id)
  let updated ← inTx (redact lib id)
  pure (updated, originalEmail)

/-- The account is closed: the terminal state. -/
def anonymize (lib : Libs) (id : Uuid) : Query (User × String) := redactAndTerminate lib id

/-- Remove the row; what refers to it goes with it (`ON DELETE CASCADE`) or loses the reference
    (`ON DELETE SET NULL`). -/
def hardRemove (id : Uuid) : Statement Unit := fun _ mem db =>
  if db.users.any (·.id == id) then
    let removed : List (List Write × List LockKey) :=
      [both (deleteRows .users (·.id == id) mem db),
        both (deleteRows .credentials (·.userId == id) mem db),
        both (deleteRows .sessions (·.userId == id) mem db),
        both (deleteRows .totpCredentials (·.userId == id) mem db),
        both (deleteRows .webauthnCredentials (·.userId == id) mem db),
        both (deleteRows .webauthnChallenges (·.userId == some id) mem db),
        both (deleteRows .userRecoveryCodes (·.userId == id) mem db),
        both (deleteRows .userAvatars (·.userId == id) mem db),
        both (deleteRows .invitations (·.invitedByUserId == id) mem db),
        both (deleteRows .userKeys (·.userId == id) mem db),
        both (deleteRows .devices (·.userId == id) mem db),
        both (deleteRows .resources (·.ownerUserId == id) mem db),
        both (updateRows .machines (·.claimedByUserId == some id)
          (fun m => { m with claimedByUserId := none }) mem db),
        both (updateRows .invitations
          (fun i => i.acceptedUserId == some id && i.invitedByUserId != id)
          (fun i => { i with acceptedUserId := none }) mem db),
        both (updateRows .recoveryCodes
          (fun r => r.createdByUserId == some id || r.rotatedByUserId == some id)
          (fun r => { r with
            createdByUserId := r.createdByUserId.filter (· != id)
            rotatedByUserId := r.rotatedByUserId.filter (· != id) }) mem db),
        both (updateRows .trustedPublishers (·.addedBy == some id)
          (fun p => { p with addedBy := none }) mem db),
        both (updateRows .registeredApps (·.registeredBy == some id)
          (fun a => { a with registeredBy := none }) mem db)]
    { result := .ok ()
      writes := removed.flatMap Prod.fst
      locks := removed.flatMap Prod.snd
      mem := mem }
  else { result := .ok (), writes := [], locks := [], mem := mem }
where
  /-- What a part of the statement writes and locks. -/
  both {β : Type} (o : Outcome Write LockKey Mem SqlError β) : List Write × List LockKey :=
    (o.writes, o.locks)

end UserRepository

/-- How long an invitation stays valid: 7 days. -/
def defaultInvitationTtl : Int := DateTime.hours (7 * 24)

/-- 32 random bytes, hex-encoded. -/
def generateInviteToken (random : Bytes) : String := hex random

def hashInviteToken (lib : Libs) (token : String) : Bytes := lib.sha256 (utf8 token)

/-- Why a reissue refused. -/
inductive ReissueRejection where
  | notFound
  | alreadyAccepted
  | alreadyRevoked
  | expired
deriving DecidableEq

namespace InvitationRepository

def insert (lib : Libs) (invitedBy : Uuid) (email : String) (instanceRole : InstanceRole)
    (tokenHash : Bytes) (expiresAt : DateTime) : Statement Invitation := fun env mem db =>
  insertRow .invitations
    { id := env.uuid
      email := email
      tokenHash := tokenHash
      invitedByUserId := invitedBy
      instanceRole := instanceRole
      createdAt := env.pgNow
      expiresAt := lib.timestamptz expiresAt
      acceptedAt := none
      acceptedUserId := none
      revokedAt := none }
    (db.invitations.any (·.tokenHash == tokenHash)) [(.users, .uuid invitedBy)]
    [.invitationToken tokenHash] mem db

/-- Create an invitation; the row and the raw token. -/
def create (lib : Libs) (invitedBy : Uuid) (email : String) (instanceRole : InstanceRole)
    (ttl : Int) : Query (Invitation × String) := do
  let token ← ask fun env => generateInviteToken env.random
  let now ← ask Env.now
  let invitation ← inTx (insert lib invitedBy email instanceRole (hashInviteToken lib token)
    ⟨now.nanos + ttl⟩)
  pure (invitation, token)

/-- Not accepted, not revoked and not expired. -/
def pending (now : DateTime) (i : Invitation) : Bool :=
  i.acceptedAt == none && i.revokedAt == none && decide (now.nanos < i.expiresAt.nanos)

/-- The pending invitation of a raw token. -/
def findActive (lib : Libs) (token : String) : Statement (Option Invitation) :=
  select fun env db => db.invitations.find? fun i =>
    i.tokenHash == hashInviteToken lib token && pending env.pgNow i

/-- Link an invitation to the new user; no look at its state, and no row count either. -/
def markAccepted (id acceptedUser : Uuid) : Statement Unit := fun env mem db =>
  if db.invitations.any (·.id == id) && db.dangles (.users, .uuid acceptedUser) then
    failed foreignKeyViolation mem
  else
    let o := updateRows .invitations (·.id == id) (fun i => { i with
      acceptedAt := some env.pgNow
      acceptedUserId := some acceptedUser }) mem db
    readAs (fun _ => .ok ()) { o with
      locks := (db.invitations.filter (·.id == id)).map fun i =>
        .keyShare .users (.uuid acceptedUser) .invitations (.uuid i.id) }

/-- An invitation in any state. -/
def findById (id : Uuid) : Statement (Option Invitation) :=
  select fun _ db => db.invitations.find? (·.id == id)

/-- Revoke; an invitation already revoked keeps its time. -/
def revoke (id : Uuid) : Statement Unit := fun env mem db =>
  readAs (fun _ => .ok ()) (updateRows .invitations (·.id == id) (fun i => { i with
    revokedAt := i.revokedAt <|> some env.pgNow }) mem db)

/-- The guarded `UPDATE` of a reissue; `token_hash` is unique. -/
def rotate (lib : Libs) (id : Uuid) (newHash : Bytes) (newExpiresAt : DateTime) :
    Statement (Option Invitation) := fun env mem db =>
  if db.invitations.any (fun i => i.id == id && pending env.pgNow i) &&
      db.invitations.any (fun i => i.id != id && i.tokenHash == newHash) then
    failed uniqueViolation mem
  else
    let o := updateRows .invitations (fun i => i.id == id && pending env.pgNow i)
      (fun i => { i with
        tokenHash := newHash
        expiresAt := lib.timestamptz newExpiresAt }) mem db
    readAs (fun rows => .ok rows.head?) { o with
      locks := (db.invitations.filter fun i => i.id == id && pending env.pgNow i).flatMap fun i =>
        [.invitationToken newHash, .invitationToken i.tokenHash] }

/-- Why the guarded `UPDATE` has found no row. -/
def rejection : Option Invitation → ReissueRejection
  | none => .notFound
  | some row =>
    if row.acceptedAt.isSome then .alreadyAccepted
    else if row.revokedAt.isSome then .alreadyRevoked
    else .expired

/-- Rotate the token of a pending invitation and extend it. -/
def reissue (lib : Libs) (id : Uuid) :
    Query (Except ReissueRejection (Invitation × String)) := do
  let newToken ← ask fun env => generateInviteToken env.random
  let now ← ask Env.now
  let updated ← inTx (rotate lib id (hashInviteToken lib newToken)
    ⟨now.nanos + defaultInvitationTtl⟩)
  match updated with
  | some row => pure (.ok (row, newToken))
  | none =>
    let snapshot ← inTx (findById id)
    pure (.error (rejection snapshot))

end InvitationRepository

namespace UserKeyRepository

/-- Insert a user's key bundle, one for each user. -/
def create (userId : Uuid) (km : UserKeyMaterial) : Statement Unit := fun env mem db =>
  readAs (fun _ => .ok ()) (insertRow .userKeys
    { userId := userId, km := km, createdAt := env.pgNow, updatedAt := env.pgNow }
    false [(.users, .uuid userId)] [] mem db)

/-- Re-wrap the master key: only three columns rotate, and no row count is looked at. -/
def update (userId : Uuid) (masterKeyWrapped kdfSalt : Bytes) (kdfParams : String) :
    Statement Unit := fun _ mem db =>
  readAs (fun _ => .ok ()) (updateRows .userKeys (·.userId == userId) (fun keys => { keys with
    km := { keys.km with
      masterKeyWrapped := masterKeyWrapped
      kdfSalt := kdfSalt
      kdfParams := kdfParams } }) mem db)

end UserKeyRepository

namespace UserAvatarRepository

/-- Store a user's sealed avatar over the one before. -/
def upsert (userId : Uuid) (avatar : Bytes) : Statement Unit := fun env mem db =>
  match db.userAvatars.find? (·.userId == userId) with
  | some row =>
    { result := .ok ()
      writes := [.put .userAvatars { row with avatar := avatar, updatedAt := env.pgNow }]
      locks := []
      mem := mem }
  | none => readAs (fun _ => .ok ()) (insertRow .userAvatars
      { userId := userId, avatar := avatar, updatedAt := env.pgNow }
      false [(.users, .uuid userId)] [] mem db)

end UserAvatarRepository

namespace MachineRepository

/-- Create a machine row claimed by the enrolling user. -/
def create (label platform : String) (claimedBy : Option Uuid) : Statement Machine :=
  fun env mem db =>
    insertRow .machines
      { id := env.uuid
        label := label
        platform := platform
        claimedByUserId := claimedBy
        machineIdentityPublic := none
        createdAt := env.pgNow
        lastSeenAt := none }
      false (claimedBy.toList.map fun id => (.users, .uuid id)) [] mem db

/-- Register a machine by its identity key, or update the one that has the key. -/
def registerOrUpdate (identityPublic : Bytes) (platform label : String) : Statement Uuid :=
  fun env mem db =>
    match db.machines.find? (·.machineIdentityPublic == some identityPublic) with
    | some machine =>
      let row := { machine with
        label := label
        platform := platform
        lastSeenAt := some env.pgNow }
      { result := .ok row.id, writes := [.put .machines row], locks := [], mem := mem }
    | none =>
      readAs (fun machine => .ok machine.id) (insertRow .machines
        { id := env.uuid
          label := label
          platform := platform
          claimedByUserId := none
          machineIdentityPublic := some identityPublic
          createdAt := env.pgNow
          lastSeenAt := some env.pgNow }
        false [] [.machineIdentity identityPublic] mem db)

/-- Record a liveness check-in; `agent_version` is not modelled. -/
def touchCheckin (machineId : Uuid) : Statement Unit := fun env mem db =>
  readAs (fun _ => .ok ()) (updateRows .machines (·.id == machineId)
    (fun machine => { machine with lastSeenAt := some env.pgNow }) mem db)

/-- Set a machine's location toggle, a column that is not modelled. -/
def setLocationEnabled (machineId : Uuid) : Statement Unit := fun _ mem db =>
  readAs (fun _ => .ok ()) (updateRows .machines (·.id == machineId)
    (fun machine => machine) mem db)

end MachineRepository

/-- 32 random bytes, hex-encoded. -/
def generateMachineToken (random : Bytes) : String := hex random

def hashMachineToken (lib : Libs) (token : String) : Bytes := lib.sha256 (utf8 token)

namespace MachineSessionRepository

def insert (lib : Libs) (machineId : Uuid) (tokenHash : Bytes) (expiresAt : DateTime) :
    Statement MachineSession := fun env mem db =>
  insertRow .machineSessions
    { id := env.uuid
      machineId := machineId
      tokenHash := tokenHash
      createdAt := env.pgNow
      expiresAt := lib.timestamptz expiresAt
      revokedAt := none }
    (db.machineSessions.any (·.tokenHash == tokenHash)) [(.machines, .uuid machineId)]
    [.machineToken tokenHash] mem db

/-- Issue a machine session; the row and the raw token. -/
def create (lib : Libs) (machineId : Uuid) (ttl : Int) : Query (MachineSession × String) := do
  let token ← ask fun env => generateMachineToken env.random
  let now ← ask Env.now
  let session ← inTx (insert lib machineId (hashMachineToken lib token) ⟨now.nanos + ttl⟩)
  pure (session, token)

/-- The machine session of a raw token that is not revoked nor expired. -/
def findActive (lib : Libs) (token : String) : Statement (Option MachineSession) :=
  select fun env db => db.machineSessions.find? fun s =>
    s.tokenHash == hashMachineToken lib token && s.revokedAt == none &&
      decide (env.pgNow.nanos < s.expiresAt.nanos)

end MachineSessionRepository

/-- One sealed blob of telemetry to store. -/
structure NewTelemetry where
  kind : String
  recipientKeyId : Bytes
  seq : Int
  ciphertext : Bytes
  signature : Bytes
deriving DecidableEq

namespace MachineTelemetryRepository

/-- `INSERT INTO identity.machine_telemetry …`; the id comes from a sequence, which moves on even
    when the statement fails. -/
def insertBlob (machineId : Uuid) (blob : NewTelemetry) : Statement Unit := fun env mem db =>
  match nextval mem.telemetrySeq with
  | .error e => failed e mem
  | .ok id =>
    readAs (fun _ => .ok ()) (insertRow .machineTelemetry
      { id := id
        machineId := machineId
        kind := blob.kind
        recipientKeyId := blob.recipientKeyId
        seq := blob.seq
        ciphertext := blob.ciphertext
        signature := blob.signature
        createdAt := env.pgNow }
      false [(.machines, .uuid machineId)] [] { mem with telemetrySeq := id } db)

/-- Store a batch for a machine, blob by blob on the pool. -/
def insert (machineId : Uuid) : List NewTelemetry → Query Unit
  | [] => pure ()
  | blob :: blobs => do
    onPool (insertBlob machineId blob)
    insert machineId blobs

end MachineTelemetryRepository

/-- Fields for enrolling a device. -/
structure NewDevice where
  userId : Uuid
  machineId : Option Uuid
  deviceLabel : String
  platform : String
  devicePublicKey : Bytes

namespace DeviceRepository

/-- Enroll a device. -/
def register (new : NewDevice) : Statement Device := fun env mem db =>
  insertRow .devices
    { id := env.uuid
      userId := new.userId
      machineId := new.machineId
      deviceLabel := new.deviceLabel
      platform := new.platform
      devicePublicKey := new.devicePublicKey
      createdAt := env.pgNow
      lastSeenAt := none
      revokedAt := none }
    false ((.users, .uuid new.userId) :: new.machineId.toList.map fun id => (.machines, .uuid id))
    [] mem db

/-- Owner-scoped revoke; whether a row was affected. -/
def revokeOwned (deviceId userId : Uuid) : Statement Bool := fun env mem db =>
  readAs (fun rows => .ok (!rows.isEmpty)) (updateRows .devices
    (fun d => d.id == deviceId && d.userId == userId && d.revokedAt == none)
    (fun d => { d with revokedAt := some env.pgNow }) mem db)

end DeviceRepository

end SylvaServer
