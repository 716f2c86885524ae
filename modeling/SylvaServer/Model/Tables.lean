/-
  The database: the tables of the migrations, what a statement writes, the locks it takes and
  what lives outside transactions.

  Columns no modelled statement reads or writes are left out (`machines.agent_version`,
  `location_enabled`, the device columns for slice 2, the passkeys themselves, the redaction
  columns of `audit.events`). `email_lower` is a generated column and is computed where an index
  needs it.
-/
import SylvaServer.ReadCommitted.World
import SylvaServer.ReadCommitted.Rows
import SylvaServer.Model.Values
import Mathlib.Data.Rat.Defs
import Mathlib.Data.Int.Order.Basic
import Mathlib.Data.List.Sort

namespace SylvaServer

open ReadCommitted

/-! ## Rows -/

inductive UserLifecycle where
  | pendingInvite
  | active
  | deactivated
  | anonymized
deriving DecidableEq

inductive InstanceRole where
  | owner
  | admin
  | member
deriving DecidableEq

inductive UserKind where
  | member
  | guest
deriving DecidableEq

structure User where
  id : Uuid
  email : String
  displayName : String
  lifecycle : UserLifecycle
  instanceRole : InstanceRole
  kind : UserKind
  locale : Option String
  createdAt : DateTime
  updatedAt : DateTime
deriving DecidableEq

structure Credential where
  userId : Uuid
  passwordHash : String
  createdAt : DateTime
  updatedAt : DateTime
deriving DecidableEq

structure Invitation where
  id : Uuid
  email : String
  tokenHash : Bytes
  invitedByUserId : Uuid
  instanceRole : InstanceRole
  createdAt : DateTime
  expiresAt : DateTime
  acceptedAt : Option DateTime
  acceptedUserId : Option Uuid
  revokedAt : Option DateTime
deriving DecidableEq

/-- A user's wrapped key bundle. -/
structure UserKeyMaterial where
  x25519Public : Bytes
  ed25519Public : Bytes
  x25519PrivateWrapped : Bytes
  ed25519PrivateWrapped : Bytes
  masterKeyWrapped : Bytes
  kdfSalt : Bytes
  kdfParams : String
deriving DecidableEq

structure UserKeys where
  userId : Uuid
  km : UserKeyMaterial
  createdAt : DateTime
  updatedAt : DateTime
deriving DecidableEq

structure Machine where
  id : Uuid
  label : String
  platform : String
  claimedByUserId : Option Uuid
  machineIdentityPublic : Option Bytes
  createdAt : DateTime
  lastSeenAt : Option DateTime
deriving DecidableEq

structure MachineSession where
  id : Uuid
  machineId : Uuid
  tokenHash : Bytes
  createdAt : DateTime
  expiresAt : DateTime
  revokedAt : Option DateTime
deriving DecidableEq

structure Device where
  id : Uuid
  userId : Uuid
  machineId : Option Uuid
  deviceLabel : String
  platform : String
  devicePublicKey : Bytes
  createdAt : DateTime
  lastSeenAt : Option DateTime
  revokedAt : Option DateTime
deriving DecidableEq

structure Session where
  id : Uuid
  userId : Uuid
  tokenHash : Bytes
  createdAt : DateTime
  expiresAt : DateTime
  revokedAt : Option DateTime
  userAgent : Option String
  ipAddress : Option String
  lastSeenAt : Option DateTime
  label : Option String
deriving DecidableEq

structure TotpCredential where
  id : Uuid
  userId : Uuid
  label : String
  secretEnc : Bytes
  createdAt : DateTime
  verifiedAt : Option DateTime
  lastUsedAt : Option DateTime
  lastUsedStep : Option Int
deriving DecidableEq

structure WebauthnCredential where
  id : Uuid
  userId : Uuid
deriving DecidableEq

structure WebauthnChallenge where
  id : Uuid
  userId : Option Uuid
deriving DecidableEq

/-- A recovery code of the server. -/
structure RecoveryCode where
  id : Uuid
  codeHash : Bytes
  createdAt : DateTime
  createdByUserId : Option Uuid
  rotatedAt : Option DateTime
  rotatedByUserId : Option Uuid
deriving DecidableEq

structure UserRecoveryCode where
  userId : Uuid
  codeHash : Bytes
  generatedAt : DateTime
  lastUsedAt : Option DateTime
deriving DecidableEq

structure UserAvatar where
  userId : Uuid
  avatar : Bytes
  updatedAt : DateTime
deriving DecidableEq

structure MachineTelemetry where
  id : Int
  machineId : Uuid
  kind : String
  recipientKeyId : Bytes
  seq : Int
  ciphertext : Bytes
  signature : Bytes
  createdAt : DateTime
deriving DecidableEq

structure AuditEvent where
  seqno : Int
  occurredAt : DateTime
  actorUserId : Option Uuid
  actorDisplayName : Option String
  appId : Option String
  eventType : String
  eventData : EventData
  prevHash : Bytes
  hash : Bytes

structure TrustedPublisher where
  publisher : String
  publicKey : Bytes
  addedBy : Option Uuid
  addedAt : DateTime
deriving DecidableEq

structure RegisteredApp where
  id : Uuid
  appIdentifier : String
  displayName : String
  publisher : String
  appPublicKey : Bytes
  schemaVersion : Int32
  resourceTypes : List String
  status : String
  registeredBy : Option Uuid
  createdAt : DateTime
  updatedAt : DateTime
deriving DecidableEq

structure Resource where
  id : Uuid
  appId : Uuid
  resourceType : String
  appResourceId : Uuid
  parentResourceId : Option Uuid
  ownerUserId : Uuid
  createdAt : DateTime
  updatedAt : DateTime
  deletedAt : Option DateTime
  contentBlob : Bytes
  contentSignature : Bytes
  lastModifiedBy : Uuid
  schemaVersion : Int32
  changeSeq : Int
deriving DecidableEq

/-! ## Tables -/

inductive Table where
  | users | invitations | credentials | userKeys | userAvatars | machines | machineSessions
  | machineTelemetry | devices | sessions | recoveryCodes | userRecoveryCodes | totpCredentials
  | webauthnCredentials | webauthnChallenges | events | trustedPublishers | registeredApps
  | resources
deriving DecidableEq

abbrev Table.Row : Table → Type
  | .users => User
  | .invitations => Invitation
  | .credentials => Credential
  | .userKeys => UserKeys
  | .userAvatars => UserAvatar
  | .machines => Machine
  | .machineSessions => MachineSession
  | .machineTelemetry => MachineTelemetry
  | .devices => Device
  | .sessions => Session
  | .recoveryCodes => RecoveryCode
  | .userRecoveryCodes => UserRecoveryCode
  | .totpCredentials => TotpCredential
  | .webauthnCredentials => WebauthnCredential
  | .webauthnChallenges => WebauthnChallenge
  | .events => AuditEvent
  | .trustedPublishers => TrustedPublisher
  | .registeredApps => RegisteredApp
  | .resources => Resource

/-- The value of a primary key. -/
inductive Key where
  | uuid (u : Uuid)
  | seqno (n : Int)
  | name (s : String)
deriving DecidableEq

def Table.key : (t : Table) → t.Row → Key
  | .users, r => .uuid r.id
  | .invitations, r => .uuid r.id
  | .credentials, r => .uuid r.userId
  | .userKeys, r => .uuid r.userId
  | .userAvatars, r => .uuid r.userId
  | .machines, r => .uuid r.id
  | .machineSessions, r => .uuid r.id
  | .machineTelemetry, r => .seqno r.id
  | .devices, r => .uuid r.id
  | .sessions, r => .uuid r.id
  | .recoveryCodes, r => .uuid r.id
  | .userRecoveryCodes, r => .uuid r.userId
  | .totpCredentials, r => .uuid r.id
  | .webauthnCredentials, r => .uuid r.id
  | .webauthnChallenges, r => .uuid r.id
  | .events, r => .seqno r.seqno
  | .trustedPublishers, r => .name r.publisher
  | .registeredApps, r => .uuid r.id
  | .resources, r => .uuid r.id

structure Db where
  rows : (t : Table) → List t.Row

namespace Db

abbrev users (db : Db) : List User := db.rows .users

abbrev invitations (db : Db) : List Invitation := db.rows .invitations

abbrev credentials (db : Db) : List Credential := db.rows .credentials

abbrev userKeys (db : Db) : List UserKeys := db.rows .userKeys

abbrev userAvatars (db : Db) : List UserAvatar := db.rows .userAvatars

abbrev machines (db : Db) : List Machine := db.rows .machines

abbrev machineSessions (db : Db) : List MachineSession := db.rows .machineSessions

abbrev machineTelemetry (db : Db) : List MachineTelemetry := db.rows .machineTelemetry

abbrev devices (db : Db) : List Device := db.rows .devices

abbrev sessions (db : Db) : List Session := db.rows .sessions

abbrev recoveryCodes (db : Db) : List RecoveryCode := db.rows .recoveryCodes

abbrev userRecoveryCodes (db : Db) : List UserRecoveryCode := db.rows .userRecoveryCodes

abbrev totpCredentials (db : Db) : List TotpCredential := db.rows .totpCredentials

abbrev webauthnCredentials (db : Db) : List WebauthnCredential := db.rows .webauthnCredentials

abbrev webauthnChallenges (db : Db) : List WebauthnChallenge := db.rows .webauthnChallenges

abbrev events (db : Db) : List AuditEvent := db.rows .events

abbrev trustedPublishers (db : Db) : List TrustedPublisher := db.rows .trustedPublishers

abbrev registeredApps (db : Db) : List RegisteredApp := db.rows .registeredApps

abbrev resources (db : Db) : List Resource := db.rows .resources

end Db

/-- A row written under its primary key, or the row of a key removed. -/
inductive Write where
  | put (table : Table) (row : table.Row)
  | delete (table : Table) (key : Key)

@[simp] def Write.table : Write → Table
  | .put t _ => t
  | .delete t _ => t

@[simp] def Write.key : Write → Key
  | .put t row => t.key row
  | .delete _ k => k

/-- What a transaction can hold until it ends: a row, an entry of a unique index, the advisory
    lock of the audit appender, `FOR KEY SHARE` on a row that a new row refers to (one lock for
    each referring row), or the right to remove a row. -/
inductive LockKey where
  | row (t : Table) (k : Key)
  | emailLower (email : String)
  | invitationToken (hash : Bytes)
  | sessionToken (hash : Bytes)
  | machineToken (hash : Bytes)
  | machineIdentity (key : Bytes)
  | activeRecoveryCode
  | appIdentifier (identifier : String)
  | resourceKey (appId : Uuid) (resourceType : String) (appResourceId : Uuid)
  | auditAdvisory
  | keyShare (t : Table) (k : Key) (child : Table) (childKey : Key)
  | removal (t : Table) (k : Key)
deriving DecidableEq

/-- A row that is referred to cannot be removed, and no row can refer to one being removed. -/
def LockKey.clash : LockKey → LockKey → Bool
  | .keyShare t k _ _, .removal t' k' => t == t' && k == k'
  | .removal t k, .keyShare t' k' _ _ => t == t' && k == k'
  | _, _ => false

theorem LockKey.clash_comm (k k' : LockKey) : k.clash k' = k'.clash k := by
  cases k <;> cases k' <;> simp only [LockKey.clash]
  · next t k _ _ t' k' => rw [BEq.comm (a := t), BEq.comm (a := k)]
  · next t k t' k' _ _ => rw [BEq.comm (a := t), BEq.comm (a := k)]

/-- Write one row. -/
def Db.put (db : Db) (t : Table) (row : t.Row) : Db :=
  ⟨Function.update db.rows t (putRow t.key row (db.rows t))⟩

/-- Remove the row of a key. -/
def Db.delete (db : Db) (t : Table) (k : Key) : Db :=
  ⟨Function.update db.rows t ((db.rows t).filter fun r => t.key r != k)⟩

def Db.write (db : Db) : Write → Db
  | .put t row => db.put t row
  | .delete t k => db.delete t k

instance : Store Db Write LockKey where
  apply := Db.write
  rowLock w := .row w.table w.key
  clash := LockKey.clash
  clash_comm := LockKey.clash_comm

/-! ## Outside transactions -/

/-- A token bucket of the rate limiter. -/
structure Bucket where
  tokens : ℚ
  lastMs : Nat
deriving DecidableEq

/-- Sequences, never rolled back, and the memory of the process. -/
structure Mem where
  /-- The last value of `audit.events_seqno_seq`. -/
  eventsSeq : Int
  /-- The last value of `platform.resource_change_seq`. -/
  changeSeq : Int
  /-- The last id of `identity.machine_telemetry`. -/
  telemetrySeq : Int
  buckets : String → Option Bucket

/-- What is outside the program at the moment of a step. -/
structure Env where
  /-- `Utc::now()`. -/
  now : DateTime
  /-- Postgres `now()`. -/
  pgNow : DateTime
  /-- Milliseconds since the limiter was made. -/
  nowMs : Nat
  /-- The next `gen_random_uuid()`. -/
  uuid : Uuid
  /-- The next bytes of the system's random source. -/
  random : Bytes
  /-- The order Postgres picks among rows that an `ORDER BY` leaves tied. -/
  rank : Uuid → Nat

/-- The environment with a given clock, random bytes and next id. -/
def Env.at (ns : Int) (ms : Nat) (id : UInt8) : Env where
  now := ⟨ns⟩
  pgNow := ⟨ns / 1000 * 1000⟩
  nowMs := ms
  uuid := Uuid.ofByte id
  random := List.replicate 32 id
  rank _ := 0

/-- Empty tables, sequences at their start, no bucket. -/
def Mem.fresh : Mem where
  eventsSeq := 0
  changeSeq := 0
  telemetrySeq := 0
  buckets _ := none

def Db.empty : Db := ⟨fun _ => []⟩

/-- A statement of the server. -/
abbrev Statement (β : Type) := Sql Env Db Write LockKey Mem SqlError β

/-- A program that fails with the error of a statement. -/
abbrev Query (α : Type) := Prog Env Db Write LockKey Mem SqlError SqlError α

/-- A handler of a gRPC method. -/
abbrev Rpc (α : Type) := Prog Env Db Write LockKey Mem SqlError Status α

/-- Transactions of the repositories at work side by side. -/
abbrev Transactions (Pid α : Type) := World Pid Env Db Write LockKey Mem SqlError SqlError α

/-- A step of one of them. -/
abbrev TransactionEvent (Pid α : Type) :=
  World.Event Pid Env Db Write LockKey Mem SqlError SqlError α

abbrev Shared := ReadCommitted.Shared Db Mem

/-- A handler at work, with its transaction. -/
abbrev Running (α : Type) := Proc Env Db Write LockKey Mem SqlError Status α

/-- Handlers at work side by side. -/
abbrev Server (Pid α : Type) := World Pid Env Db Write LockKey Mem SqlError Status α

/-- A step of one of them. -/
abbrev ServerEvent (Pid α : Type) := World.Event Pid Env Db Write LockKey Mem SqlError Status α

/-! ## Statements -/

/-- A `SELECT`. -/
def select {β : Type} (f : Env → Db → β) : Statement β := fun env mem db =>
  { result := .ok (f env db), writes := [], locks := [], mem := mem }

/-- A statement that fails. -/
def failed {β : Type} (e : SqlError) (mem : Mem) : Outcome Write LockKey Mem SqlError β :=
  { result := .error e, writes := [], locks := [], mem := mem }

/-- `ORDER BY key ASC`, rows with the same key in table order. -/
def orderAsc {α : Type} (key : α → Int) (rows : List α) : List α :=
  rows.insertionSort fun a b => key a ≤ key b

/-- `ORDER BY key DESC`, rows with the same key in table order. -/
def orderDesc {α : Type} (key : α → Int) (rows : List α) : List α :=
  rows.insertionSort fun a b => key b ≤ key a

/-- No row is there for a foreign key. -/
def Db.dangles (db : Db) (ref : Table × Key) : Bool :=
  !(db.rows ref.1).any fun r => ref.1.key r == ref.2

/-- `INSERT` of one row: 23505 when its primary key or a unique index entry is `taken`, 23503
    when a foreign key dangles. `refs` are the rows it refers to, `entries` the unique index
    entries it adds. -/
def insertRow (t : Table) (row : t.Row) (taken : Bool) (refs : List (Table × Key))
    (entries : List LockKey) (mem : Mem) (db : Db) : Outcome Write LockKey Mem SqlError t.Row :=
  if (db.rows t).any (fun r => t.key r == t.key row) || taken then failed uniqueViolation mem
  else if refs.any db.dangles then failed foreignKeyViolation mem
  else
    { result := .ok row
      writes := [.put t row]
      locks := entries ++ refs.map fun ref => .keyShare ref.1 ref.2 t (t.key row)
      mem := mem }

/-- `UPDATE` of the rows that match, with the rows after it. -/
def updateRows (t : Table) (p : t.Row → Bool) (f : t.Row → t.Row) (mem : Mem) (db : Db) :
    Outcome Write LockKey Mem SqlError (List t.Row) :=
  let rows := ((db.rows t).filter p).map f
  { result := .ok rows, writes := rows.map (.put t), locks := [], mem := mem }

/-- `DELETE` of the rows that match, with the rows as they were. -/
def deleteRows (t : Table) (p : t.Row → Bool) (mem : Mem) (db : Db) :
    Outcome Write LockKey Mem SqlError (List t.Row) :=
  let rows := (db.rows t).filter p
  { result := .ok rows
    writes := rows.map fun r => .delete t (t.key r)
    locks := rows.map fun r => .removal t (t.key r)
    mem := mem }

/-- A statement whose result the client reads with `f`. -/
def readAs {β γ : Type} (f : β → Except SqlError γ)
    (o : Outcome Write LockKey Mem SqlError β) : Outcome Write LockKey Mem SqlError γ :=
  match o.result.bind f with
  | .ok c => { result := .ok c, writes := o.writes, locks := o.locks, mem := o.mem }
  | .error e => { result := .error e, writes := [], locks := [], mem := o.mem }

/-- `fetch_one` of rows: the first, or `RowNotFound`. -/
def fetchOne {β : Type} : List β → Except SqlError β
  | [] => .error .rowNotFound
  | b :: _ => .ok b

/-- `nextval` of a sequence at `last`; a `BIGINT` sequence ends at `2^63 - 1`. -/
def nextval (last : Int) : Except SqlError Int :=
  if last < 9223372036854775807 then .ok (last + 1) else .error (.database "2200H")

/-- The last value of a `BIGINT` sequence. -/
abbrev lastSeq : Int := 9223372036854775807

theorem nextval_ok {last n : Int} (h : nextval last = .ok n) : last < n ∧ n ≤ lastSeq := by
  unfold nextval at h
  split at h
  · simp only [Except.ok.injEq] at h
    unfold lastSeq
    omega
  · exact absurd h (by simp)

/-- What an `INSERT` does: it fails, or it writes a row under a key not there before. -/
theorem insertRow_cases (t : Table) (row : t.Row) (taken : Bool) (refs : List (Table × Key))
    (entries : List LockKey) (mem : Mem) (db : Db) :
    (∃ e, insertRow t row taken refs entries mem db = failed e mem) ∨
      (insertRow t row taken refs entries mem db =
          { result := .ok row
            writes := [.put t row]
            locks := entries ++ refs.map fun ref => .keyShare ref.1 ref.2 t (t.key row)
            mem := mem } ∧
        (∀ r ∈ db.rows t, t.key r ≠ t.key row) ∧ taken = false ∧ refs.any db.dangles = false) := by
  unfold insertRow
  split
  · exact Or.inl ⟨_, rfl⟩
  · next hfree =>
    simp only [Bool.or_eq_true, List.any_eq_true, beq_iff_eq, not_or, not_exists, not_and,
      Bool.not_eq_true] at hfree
    split
    · exact Or.inl ⟨_, rfl⟩
    · next hdangling =>
      exact Or.inr ⟨rfl, hfree.1, hfree.2, by simpa using hdangling⟩

@[simp] theorem insertRow_mem (t : Table) (row : t.Row) (taken : Bool) (refs : List (Table × Key))
    (entries : List LockKey) (mem : Mem) (db : Db) :
    (insertRow t row taken refs entries mem db).mem = mem := by
  rcases insertRow_cases t row taken refs entries mem db with ⟨e, h⟩ | ⟨h, -⟩ <;> rw [h]
  rfl

/-- A statement read by its client leaves the same memory and writes no more. -/
theorem readAs_cases {β γ : Type} (f : β → Except SqlError γ)
    (o : Outcome Write LockKey Mem SqlError β) :
    (readAs f o).mem = o.mem ∧
      (((∃ e, (readAs f o).result = .error e) ∧ (readAs f o).writes = [] ∧
        (readAs f o).locks = []) ∨
        ∃ b c, o.result = .ok b ∧ f b = .ok c ∧ (readAs f o).result = .ok c ∧
          (readAs f o).writes = o.writes ∧ (readAs f o).locks = o.locks) := by
  unfold readAs
  cases hr : o.result with
  | error e => exact ⟨rfl, Or.inl ⟨⟨e, rfl⟩, rfl, rfl⟩⟩
  | ok b =>
    cases hf : f b with
    | error e => simp [Except.bind, hf]
    | ok c => simp [Except.bind, hf]

theorem readAs_ok {β γ : Type} {f : β → Except SqlError γ}
    {o : Outcome Write LockKey Mem SqlError β} {b : β} {c : γ} (hr : o.result = .ok b)
    (hf : f b = .ok c) :
    readAs f o = { result := .ok c, writes := o.writes, locks := o.locks, mem := o.mem } := by
  unfold readAs
  simp only [hr, Except.bind, hf]

/-! ## Sorted rows -/

theorem mem_orderAsc {α : Type} {key : α → Int} {rows : List α} {r : α} :
    r ∈ orderAsc key rows ↔ r ∈ rows := List.mem_insertionSort _

theorem mem_orderDesc {α : Type} {key : α → Int} {rows : List α} {r : α} :
    r ∈ orderDesc key rows ↔ r ∈ rows := List.mem_insertionSort _

theorem pairwise_orderAsc {α : Type} (key : α → Int) (rows : List α) :
    (orderAsc key rows).Pairwise fun a b => key a ≤ key b :=
  have : Std.Total fun a b : α => key a ≤ key b := ⟨fun _ _ => le_total _ _⟩
  have : IsTrans α fun a b => key a ≤ key b := ⟨fun _ _ _ h h' => le_trans h h'⟩
  List.pairwise_insertionSort _ rows

theorem pairwise_orderDesc {α : Type} (key : α → Int) (rows : List α) :
    (orderDesc key rows).Pairwise fun a b => key b ≤ key a :=
  have : Std.Total fun a b : α => key b ≤ key a := ⟨fun _ _ => le_total _ _⟩
  have : IsTrans α fun a b => key b ≤ key a := ⟨fun _ _ _ h h' => le_trans h' h⟩
  List.pairwise_insertionSort _ rows

/-- Rows already in order stay as they are. -/
theorem orderAsc_eq_self {α : Type} {key : α → Int} {rows : List α}
    (h : rows.Pairwise fun a b => key a < key b) : orderAsc key rows = rows :=
  (h.imp le_of_lt).insertionSort_eq

/-- The newest of rows with increasing keys is the last one. -/
theorem head_orderDesc {α : Type} {key : α → Int} {rows : List α}
    (h : rows.Pairwise fun a b => key a < key b) : (orderDesc key rows).head? = rows.getLast? := by
  rcases List.eq_nil_or_concat' rows with rfl | ⟨rs, r, rfl⟩
  · rfl
  · have hlt : ∀ a ∈ rs, key a < key r := fun a ha =>
      (List.pairwise_append.mp h).2.2 a ha r (by simp)
    have hmem : r ∈ orderDesc key (rs ++ [r]) := mem_orderDesc.mpr (by simp)
    have hsorted := pairwise_orderDesc key (rs ++ [r])
    cases hl : orderDesc key (rs ++ [r]) with
    | nil => exact absurd (hl ▸ hmem) (by simp)
    | cons m ms =>
      rw [hl] at hmem hsorted
      have hle : key r ≤ key m := by
        rcases List.mem_cons.mp hmem with rfl | hr
        · exact le_rfl
        · exact (List.pairwise_cons.mp hsorted).1 r hr
      have hm : m ∈ rs ++ [r] := mem_orderDesc.mp (by rw [hl]; simp)
      rcases List.mem_append.mp hm with hm | hm
      · exact absurd (hlt m hm) (not_lt.mpr hle)
      · obtain rfl : m = r := by simpa using hm
        simp

/-! ## What a write leaves alone -/

@[simp] theorem put_rows_self (db : Db) (t : Table) (r : t.Row) :
    (db.put t r).rows t = putRow t.key r (db.rows t) := by
  simp [Db.put]

@[simp] theorem delete_rows_self (db : Db) (t : Table) (k : Key) :
    (db.delete t k).rows t = (db.rows t).filter fun r => t.key r != k := by
  simp [Db.delete]

theorem write_rows_of_ne (db : Db) (w : Write) {t : Table} (h : w.table ≠ t) :
    (db.write w).rows t = db.rows t := by
  cases w <;> exact Function.update_of_ne (Ne.symm h) _ _

/-- Tables that none of the writes is about stay as they are. -/
theorem applyAll_rows_of_ne (db : Db) (ws : List Write) {t : Table} (h : ∀ w ∈ ws, w.table ≠ t) :
    (applyAll db ws).rows t = db.rows t := by
  induction ws generalizing db with
  | nil => rfl
  | cons w ws ih =>
    rw [applyAll_cons, ih _ fun v hv => h v (by simp [hv])]
    exact write_rows_of_ne db w (h w (by simp))

theorem write_rows_congr {db db' : Db} {t : Table} (w : Write) (h : db.rows t = db'.rows t) :
    (db.write w).rows t = (db'.write w).rows t := by
  by_cases hw : w.table = t
  · subst hw
    cases w with
    | put t row => exact (put_rows_self db t row).trans (h ▸ (put_rows_self db' t row).symm)
    | delete t k => exact (delete_rows_self db t k).trans (h ▸ (delete_rows_self db' t k).symm)
  · rw [write_rows_of_ne db w hw, write_rows_of_ne db' w hw, h]

/-- A table after some writes depends on that table before alone. -/
theorem applyAll_rows_congr {db db' : Db} {t : Table} (ws : List Write)
    (h : db.rows t = db'.rows t) : (applyAll db ws).rows t = (applyAll db' ws).rows t := by
  induction ws generalizing db db' with
  | nil => exact h
  | cons w ws ih =>
    rw [applyAll_cons, applyAll_cons]
    exact ih (write_rows_congr w h)

/-- A table after some writes depends on the writes about it alone. -/
theorem applyAll_rows_filter (db : Db) (ws : List Write) (t : Table) :
    (applyAll db ws).rows t = (applyAll db (ws.filter fun w => decide (w.table = t))).rows t := by
  induction ws generalizing db with
  | nil => rfl
  | cons w ws ih =>
    rw [applyAll_cons, ih]
    by_cases hw : w.table = t
    · rw [List.filter_cons, if_pos (decide_eq_true hw), applyAll_cons]
    · rw [List.filter_cons, if_neg (mt of_decide_eq_true hw)]
      exact applyAll_rows_congr _ (write_rows_of_ne db w hw)

end SylvaServer
