/-
  Which tables the methods and the shared parts of the handlers write: `authenticate` bumps a
  session, `append` adds an event.
-/
import SylvaServer.Model.Repository
import SylvaServer.Model.Views

namespace SylvaServer

open ReadCommitted ReadCommitted.Prog

variable {t : Table} {α β ε : Type}

theorem avoids_select (f : Env → Db → β) :
    ∀ env m db, ∀ w ∈ (select f env m db).writes, w.table ≠ t := by
  simp [select]

/-- One statement on the pool. -/
theorem avoids_onPool {s : Statement β} (g : SqlError → ε)
    (h : ∀ env m db, ∀ w ∈ (s env m db).writes, w.table ≠ t) :
    ((onPool s).mapError g : Prog _ _ _ _ _ _ ε β).Obeys (avoids t) :=
  obeys_mapError g ⟨h, fun _ => trivial⟩

/-- One statement in a transaction. -/
theorem avoids_inTx {s : Statement β} (h : ∀ env m db, ∀ w ∈ (s env m db).writes, w.table ≠ t) :
    (inTx s).Obeys (avoids t) := ⟨h, fun _ => trivial⟩

/-- Every write is in one of the tables. -/
abbrev within (tables : List Table) : Prog.Rules Env Db Write LockKey Mem SqlError where
  begin := True
  stmt s := ∀ env m db, ∀ w ∈ (s env m db).writes, w.table ∈ tables
  pool s := ∀ env m db, ∀ w ∈ (s env m db).writes, w.table ∈ tables
  mem _ := True

/-- Every write is one of the table. -/
abbrev only (t : Table) : Prog.Rules Env Db Write LockKey Mem SqlError where
  begin := True
  stmt s := ∀ env m db, ∀ w ∈ (s env m db).writes, w.table = t
  pool s := ∀ env m db, ∀ w ∈ (s env m db).writes, w.table = t
  mem _ := True

theorem only_authenticate (lib : Libs) (metadata : Metadata) :
    (authenticate lib metadata).Obeys (only .sessions) := by
  have hlook : ∀ {γ : Type} (read : Env → Db → γ),
      ((onPool (select read)).mapError (fun _ => invalidSession) : Rpc γ).Obeys (only .sessions) :=
    fun read => obeys_mapError _ ⟨fun _ _ _ _ hw => absurd hw List.not_mem_nil, fun _ => trivial⟩
  unfold authenticate
  refine obeys_bind trivial fun token => obeys_bind (hlook _) fun session => ?_
  cases session with
  | none => trivial
  | some session =>
    refine obeys_bind (hlook _) fun user => ?_
    cases user with
    | none => trivial
    | some user =>
      refine obeys_bind (obeys_attempt ⟨fun env mem db w hw => ?_, fun _ => trivial⟩)
        fun _ => trivial
      exact updateRows_table w (readAs_writes w hw)

theorem avoids_authenticate (ht : .sessions ≠ t) (lib : Libs) (metadata : Metadata) :
    (authenticate lib metadata).Obeys (avoids t) :=
  Prog.Obeys.mono (R := only .sessions) id (fun _ hs env m db w hw => hs env m db w hw ▸ ht)
    (fun _ hs env m db w hw => hs env m db w hw ▸ ht) (fun _ => id) (only_authenticate lib metadata)

theorem avoids_append (ht : .events ≠ t) (lib : Libs) (actor : Option Audit.Actor)
    (appId : Option String) (eventType : String) (eventData : EventData) :
    (Audit.append lib actor appId eventType eventData).Obeys (avoids t) := by
  have hseqno : ∀ env m db, ∀ w ∈ (Audit.nextSeqno env m db).writes, w.table ≠ t := by
    intro env m db w hw
    unfold Audit.nextSeqno at hw
    split at hw <;> simp [failed] at hw
  unfold Audit.append
  refine obeys_bind (avoids_inTx (by simp [Audit.advisoryXactLock])) fun _ => ?_
  refine obeys_bind (avoids_inTx hseqno) fun seqno => ?_
  refine obeys_bind (avoids_inTx (avoids_select _)) fun last => ?_
  refine obeys_bind ⟨trivial, fun _ => trivial⟩ fun now => ?_
  refine avoids_inTx fun env m db w hw => ?_
  rw [insertRow_table w hw]
  exact ht

/-- An `INSERT` or `UPDATE` of another table. -/
theorem avoids_elsewhere {s : Statement β} {t a : Table} (g : SqlError → ε) (ht : t ≠ a)
    (h : ∀ env m db, ∀ w ∈ (s env m db).writes, w.table = t) :
    ((inTx s).mapError g).Obeys (avoids a) :=
  obeys_mapError g (avoids_inTx fun env m db w hw => (h env m db w hw).symm ▸ ht)

theorem avoids_commit (g : SqlError → ε) (a : α) :
    (commitTx.mapError g >>= fun _ => pure a : Prog _ _ _ _ _ _ ε α).Obeys (avoids t) := fun r => by
  cases r <;> trivial

theorem avoids_enrollDevice (hmachines : .machines ≠ t) (hdevices : .devices ≠ t) (user : User)
    (dev : Account.DeviceEnrollment) : (Account.enrollDevice user dev).Obeys (avoids t) := by
  unfold Account.enrollDevice
  refine obeys_bind (avoids_elsewhere _ hmachines fun env m db => insertRow_table) fun machine => ?_
  exact obeys_bind (avoids_elsewhere _ hdevices fun env m db => insertRow_table)
    fun device => trivial

theorem avoids_createSession (ht : .sessions ≠ t) (lib : Libs) (userId : Uuid) (ttl : Int)
    (userAgent ipAddress : Option String) :
    (SessionRepository.create lib userId ttl userAgent ipAddress).Obeys (avoids t) := by
  unfold SessionRepository.create
  refine obeys_bind ⟨trivial, fun _ => trivial⟩ fun token =>
    obeys_bind ⟨trivial, fun _ => trivial⟩ fun now => ?_
  refine obeys_bind (avoids_inTx fun env m db w hw => ?_) fun _ => trivial
  rw [insertRow_table w hw]
  exact ht

/-! ## Whole methods -/

theorem updateOne_table {id owner : Uuid} {f : Env → Int → Resource → Resource} {env : Env}
    {mem : Mem} {db : Db} (w : Write)
    (hw : w ∈ (ResourceRepository.updateOne id owner f env mem db).writes) :
    w.table = .resources := by
  unfold ResourceRepository.updateOne at hw
  split at hw
  · exact absurd hw List.not_mem_nil
  · split at hw
    · exact absurd hw List.not_mem_nil
    · exact congrArg Write.table (List.mem_singleton.mp hw)

/-- A statement of the methods writes its table only. -/
theorem RpcStatement.table {lib : Libs} {written : Option Table} {s : Statement β}
    (hs : RpcStatement lib written s) (env : Env) (mem : Mem) (db : Db) :
    ∀ w ∈ (s env mem db).writes, some w.table = written := by
  intro w hw
  cases hs with
  | select | advisoryXactLock => exact absurd hw List.not_mem_nil
  | nextSeqno =>
    unfold Audit.nextSeqno at hw
    split at hw <;> exact absurd hw List.not_mem_nil
  | createUser | createMachine | createMachineSession | registerDevice | createSession
  | insertEvent =>
    exact congrArg some (insertRow_table w hw)
  | createUserKeys | createCredentials =>
    exact congrArg some (insertRow_table w (readAs_writes w hw))
  | updateProfile | updateUserKeys | touchCheckin | revokeDevice | updatePasswordHash
  | touchLastSeen =>
    exact congrArg some (updateRows_table w (readAs_writes w hw))
  | updateEmail id newEmail =>
    unfold UserRepository.updateEmail at hw
    split at hw
    · exact absurd hw List.not_mem_nil
    · have hread := readAs_writes w hw
      have hupdated : w ∈ (updateRows .users _ _ mem db).writes := hread
      exact congrArg some (updateRows_table w hupdated)
  | upsertAvatar userId avatar =>
    unfold UserAvatarRepository.upsert at hw
    split at hw
    · exact congrArg (fun w => some w.table) (List.mem_singleton.mp hw)
    · exact congrArg some (insertRow_table w (readAs_writes w hw))
  | registerOrUpdate identityPublic platform label =>
    unfold MachineRepository.registerOrUpdate at hw
    split at hw
    · exact congrArg (fun w => some w.table) (List.mem_singleton.mp hw)
    · exact congrArg some (insertRow_table w (readAs_writes w hw))
  | insertTelemetry machineId blob =>
    unfold MachineTelemetryRepository.insertBlob at hw
    split at hw
    · exact absurd hw List.not_mem_nil
    · exact congrArg some (insertRow_table w (readAs_writes w hw))
  | upsertApp decl registeredBy =>
    unfold Registry.upsertApp at hw
    split at hw
    · exact congrArg (fun w => some w.table) (List.mem_singleton.mp hw)
    · exact congrArg some (insertRow_table w hw)
  | createResource new =>
    unfold ResourceRepository.create at hw
    split at hw
    · exact absurd hw List.not_mem_nil
    · exact congrArg some (insertRow_table w hw)
  | updateOwned id owner contentBlob contentSignature schemaVersion parentResourceId =>
    exact congrArg some (updateOne_table w hw)
  | softDeleteOwned id owner => exact congrArg some (updateOne_table w (readAs_writes w hw))

/-- Every write is in a table of the method. -/
theorem tables_call (ctx : PlatformContext) (call : RpcCall) :
    (call.program ctx).Obeys (within call.tables) :=
  Prog.Obeys.mono (R := rpcRules ctx.lib (· ∈ call.tables)) id
    (fun _ ⟨_, hs, hmay⟩ env mem db w hw => hmay w.table (hs.table env mem db w hw).symm)
    (fun _ ⟨_, hs, hmay⟩ env mem db w hw => hmay w.table (hs.table env mem db w hw).symm)
    (fun _ => id) (rpc_call call)

end SylvaServer
