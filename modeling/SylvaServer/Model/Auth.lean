/-
  The auth crate: passwords, sessions, second factors.
-/
import SylvaServer.Model.Tables

namespace SylvaServer

open ReadCommitted ReadCommitted.Prog

inductive AuthError where
  | hash
  | malformedHash
  | crypto
  | database (e : SqlError)

/-- A program of the auth crate. -/
abbrev Auth (α : Type) := Prog Env Db Write LockKey Mem SqlError AuthError α

/-- Functions of the auth crate at work side by side. -/
abbrev AuthServer (Pid α : Type) := World Pid Env Db Write LockKey Mem SqlError AuthError α

/-- A step of one of them. -/
abbrev AuthEvent (Pid α : Type) := World.Event Pid Env Db Write LockKey Mem SqlError AuthError α

namespace Auth

/-- Argon2id with a fresh salt. -/
def hashPassword (lib : Libs) (password : String) : Auth String := do
  let salt ← ask Env.random
  ofExcept (match lib.argon2Hash password salt with
    | some phc => .ok phc
    | none => .error .hash)

def verifyPassword (lib : Libs) (password phc : String) : Except AuthError Bool :=
  match lib.argon2Verify password phc with
  | some b => .ok b
  | none => .error .malformedHash

/-- `SELECT password_hash FROM auth.credentials WHERE user_id = $1`. -/
def passwordHash (userId : Uuid) : Statement (Option String) :=
  select fun _ db => (db.credentials.find? (·.userId == userId)).map Credential.passwordHash

/-- Re-verify the password of a user; a user without credentials never matches. -/
def verifyUserPassword (lib : Libs) (userId : Uuid) (password : String) : Auth Bool := do
  match ← (onPool (passwordHash userId)).mapError .database with
  | none => pure false
  | some hash => ofExcept (verifyPassword lib password hash)

/-- 32 random bytes, hex-encoded. -/
def generateToken (random : Bytes) : String := hex random

def hashToken (lib : Libs) (token : String) : Bytes := lib.sha256 (utf8 token)

inductive CredentialOutcome where
  | unknownEmail
  | wrongPassword

/-- The active user with an email, joined with the password verifier. -/
def userWithCredentials (lib : Libs) (email : String) : Statement (Option (User × String)) :=
  select fun _ db => (db.users.find? fun u =>
      lib.lower u.email == lib.lower email && u.lifecycle == .active &&
        db.credentials.any (·.userId == u.id)).bind fun u =>
    (db.credentials.find? (·.userId == u.id)).map fun c => (u, c.passwordHash)

/-- Look up a user by email and verify the password. -/
def verifyCredentials (lib : Libs) (email password : String) :
    Auth (Except CredentialOutcome User) := do
  match ← (onPool (userWithCredentials lib email)).mapError .database with
  | none => pure (.error .unknownEmail)
  | some (user, hash) =>
    let passwordOk ← ofExcept (verifyPassword lib password hash)
    if passwordOk then pure (.ok user) else pure (.error .wrongPassword)

/-- Update a password hash; no row count is looked at. -/
def updatePasswordHash (userId : Uuid) (newPhc : String) : Statement Unit := fun env mem db =>
  readAs (fun _ => .ok ()) (updateRows .credentials (·.userId == userId) (fun c => { c with
    passwordHash := newPhc
    updatedAt := env.pgNow }) mem db)

/-- Insert a password verifier, one for each user. -/
def createCredentials (userId : Uuid) (phc : String) : Statement Unit := fun env mem db =>
  readAs (fun _ => .ok ()) (insertRow .credentials
    { userId := userId, passwordHash := phc, createdAt := env.pgNow, updatedAt := env.pgNow }
    false [(.users, .uuid userId)] [] mem db)

/-- Delete a password verifier. -/
def deleteCredentials (userId : Uuid) : Statement Unit := fun _ mem db =>
  readAs (fun _ => .ok ()) (deleteRows .credentials (·.userId == userId) mem db)

/-- A verified TOTP authenticator or any passkey. -/
def hasSecondFactor (userId : Uuid) : Statement Bool :=
  select fun _ db => decide (0 <
    (db.totpCredentials.filter fun t => t.userId == userId && t.verifiedAt.isSome).length +
      (db.webauthnCredentials.filter (·.userId == userId)).length)

/-- 24 hours. -/
def defaultSessionTtl : Int := DateTime.hours 24

end Auth

namespace SessionRepository

def insert (lib : Libs) (userId : Uuid) (tokenHash : Bytes) (expiresAt : DateTime)
    (userAgent ipAddress : Option String) : Statement Session := fun env mem db =>
  insertRow .sessions
    { id := env.uuid
      userId := userId
      tokenHash := tokenHash
      createdAt := env.pgNow
      expiresAt := lib.timestamptz expiresAt
      revokedAt := none
      userAgent := userAgent
      ipAddress := ipAddress
      lastSeenAt := none
      label := none }
    (db.sessions.any (·.tokenHash == tokenHash)) [(.users, .uuid userId)]
    [.sessionToken tokenHash] mem db

/-- Create a session; the row and the raw token. -/
def create (lib : Libs) (userId : Uuid) (ttl : Int) (userAgent ipAddress : Option String) :
    Query (Session × String) := do
  let token ← ask fun env => Auth.generateToken env.random
  let now ← ask Env.now
  let session ← inTx (insert lib userId (Auth.hashToken lib token) ⟨now.nanos + ttl⟩ userAgent
    ipAddress)
  pure (session, token)

/-- The session of a raw token that is not revoked nor expired, of an active user. -/
def findActive (lib : Libs) (token : String) : Statement (Option Session) :=
  select fun env db => db.sessions.find? fun s =>
    s.tokenHash == Auth.hashToken lib token && s.revokedAt == none &&
      decide (env.pgNow.nanos < s.expiresAt.nanos) &&
      db.users.any fun u => u.id == s.userId && u.lifecycle == .active

/-- Bump `last_seen_at` when it is missing or older than five minutes. -/
def touchLastSeen (sessionId : Uuid) : Statement Unit := fun env mem db =>
  readAs (fun _ => .ok ()) (updateRows .sessions
    (fun s => s.id == sessionId &&
      s.lastSeenAt.all fun t => decide (t.nanos < env.pgNow.nanos - 300000000000))
    (fun s => { s with lastSeenAt := some env.pgNow }) mem db)

/-- Revoke; a session already revoked keeps its time. -/
def revoke (sessionId : Uuid) : Statement Unit := fun env mem db =>
  readAs (fun _ => .ok ()) (updateRows .sessions (·.id == sessionId) (fun s => { s with
    revokedAt := s.revokedAt <|> some env.pgNow }) mem db)

/-- Not revoked and not expired. -/
def live (now : DateTime) (s : Session) : Bool :=
  s.revokedAt == none && decide (now.nanos < s.expiresAt.nanos)

/-- Revoke the live sessions of a user but one; how many. -/
def revokeAllForUserExcept (userId keepSessionId : Uuid) : Statement Nat := fun env mem db =>
  readAs (fun rows => .ok rows.length) (updateRows .sessions
    (fun s => s.userId == userId && s.id != keepSessionId && live env.pgNow s)
    (fun s => { s with revokedAt := some env.pgNow }) mem db)

/-- Revoke the live sessions of a user; how many. -/
def revokeAllForUser (userId : Uuid) : Statement Nat := fun env mem db =>
  readAs (fun rows => .ok rows.length) (updateRows .sessions
    (fun s => s.userId == userId && live env.pgNow s)
    (fun s => { s with revokedAt := some env.pgNow }) mem db)

/-- Name one of the user's own sessions, or clear its name. -/
def setLabel (sessionId userId : Uuid) (label : Option String) : Statement Unit := fun _ mem db =>
  readAs (fun _ => .ok ()) (updateRows .sessions (fun s => s.id == sessionId && s.userId == userId)
    (fun s => { s with label := label }) mem db)

end SessionRepository

end SylvaServer
