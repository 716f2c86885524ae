/-
  The audit log of the whole server.

  `Append` and `Chain` speak of transactions that do nothing but append. Here the log is that of a
  server at work: handlers that sign in, write accounts, machines, apps and resources, on the pool
  and in transactions, and append where the source does. Any other program belongs here that is
  made of the statements of the repositories and touches `audit.events` and its sequence by
  `append` only (`Logging`): deletions of users and restorations of their rights are such.

  Proved: which statements leave the log alone (`leavesLog_statement`), that the methods are
  `Logging` (`logging_call`), that such programs keep the contract of the log, and that in every run
  the log only grows, at its end, and stays a valid chain (`server_log_intact`).
-/
import SylvaServer.Audit.Chain
import SylvaServer.Model.Repository
import SylvaServer.Model.Views
import SylvaServer.ReadCommitted.Composition

namespace SylvaServer.Audit

open ReadCommitted ReadCommitted.Prog
open CompactJson (floatFree_object)

/-! ## Statements that leave the log alone -/

/-- Neither a row of the log nor its sequence is touched. -/
def Spares {β : Type} (mem : Mem) (o : Outcome Write LockKey Mem SqlError β) : Prop :=
  (∀ w ∈ o.writes, w.table ≠ .events) ∧ o.mem.eventsSeq = mem.eventsSeq

def LeavesLog {β : Type} (s : Statement β) : Prop := ∀ env mem db, Spares mem (s env mem db)

section Statements

variable {lib : Libs} {α β : Type} {t : Table} {db : Db} (env : Env) (mem : Mem)

theorem spares_of_reads {o : Outcome Write LockKey Mem SqlError β} (hwrites : o.writes = [])
    (hmem : o.mem = mem) : Spares mem o := by
  refine ⟨?_, ?_⟩
  · rw [hwrites]
    simp
  · rw [hmem]

theorem spares_readAs {f : α → Except SqlError β} {o : Outcome Write LockKey Mem SqlError α}
    (h : Spares mem o) : Spares mem (readAs f o) :=
  ⟨fun w hw => h.1 w (readAs_writes w hw), by rw [(readAs_cases f o).1, h.2]⟩

theorem spares_insert (ht : t ≠ .events) {row : t.Row} {taken : Bool} {refs : List (Table × Key)}
    {entries : List LockKey} : Spares mem (insertRow t row taken refs entries mem db) := by
  refine ⟨fun w hw => ?_, by simp⟩
  rw [insertRow_table w hw]
  exact ht

theorem spares_update (ht : t ≠ .events) {p : t.Row → Bool} {f : t.Row → t.Row} :
    Spares mem (updateRows t p f mem db) := by
  refine ⟨fun w hw => ?_, rfl⟩
  rw [updateRows_table w hw]
  exact ht

theorem spares_delete (ht : t ≠ .events) {p : t.Row → Bool} :
    Spares mem (deleteRows t p mem db) := by
  refine ⟨fun w hw => ?_, rfl⟩
  rw [deleteRows_table w hw]
  exact ht

/-- A user is deleted with all that is theirs, but not their events. -/
theorem spares_hardRemove (u : Uuid) : Spares mem (UserRepository.hardRemove u env mem db) := by
  have hdeletes : ∀ {t : Table} {p : t.Row → Bool}, t ≠ .events →
      ∀ w ∈ (deleteRows t p mem db).writes, w.table ≠ .events := fun ht => (spares_delete mem ht).1
  have hupdates : ∀ {t : Table} {p : t.Row → Bool} {f : t.Row → t.Row}, t ≠ .events →
      ∀ w ∈ (updateRows t p f mem db).writes, w.table ≠ .events :=
        fun ht => (spares_update mem ht).1
  unfold UserRepository.hardRemove
  split
  · refine ⟨fun w hw => ?_, rfl⟩
    obtain ⟨part, hpart, hw⟩ := List.mem_flatMap.mp hw
    simp only [List.mem_cons, List.not_mem_nil, or_false] at hpart
    -- twelve tables lose rows, five lose links
    rcases hpart
      with rfl | rfl | rfl | rfl | rfl | rfl | rfl | rfl | rfl | rfl | rfl | rfl | rfl | rfl |
      rfl | rfl | rfl
    iterate 12 exact hdeletes (by decide) w hw
    iterate 5 exact hupdates (by decide) w hw
  · exact spares_of_reads mem rfl rfl

theorem spares_updateOne {id owner : Uuid} {f : Env → Int → Resource → Resource} :
    Spares mem (ResourceRepository.updateOne id owner f env mem db) := by
  unfold ResourceRepository.updateOne
  split
  · exact spares_of_reads mem rfl rfl
  · split
    · exact spares_of_reads mem rfl rfl
    · exact ⟨by simp, rfl⟩

theorem leavesLog_select (f : Env → Db → β) : LeavesLog (select f) := fun _ mem _ =>
  spares_of_reads mem rfl rfl

theorem leavesLog_updateEmail (id : Uuid) (newEmail : String) :
    LeavesLog (UserRepository.updateEmail lib id newEmail) := by
  intro env mem db
  unfold UserRepository.updateEmail
  split
  · exact spares_of_reads mem rfl rfl
  · exact spares_readAs mem (spares_update mem (by decide))

theorem leavesLog_upsertAvatar (userId : Uuid) (avatar : Bytes) :
    LeavesLog (UserAvatarRepository.upsert userId avatar) := by
  intro env mem db
  unfold UserAvatarRepository.upsert
  split
  · exact ⟨by simp, rfl⟩
  · exact spares_readAs mem (spares_insert mem (by decide))

theorem leavesLog_registerOrUpdate (identityPublic : Bytes) (platform label : String) :
    LeavesLog (MachineRepository.registerOrUpdate identityPublic platform label) := by
  intro env mem db
  unfold MachineRepository.registerOrUpdate
  split
  · exact ⟨by simp, rfl⟩
  · exact spares_readAs mem (spares_insert mem (by decide))

theorem leavesLog_insertBlob (machineId : Uuid) (blob : NewTelemetry) :
    LeavesLog (MachineTelemetryRepository.insertBlob machineId blob) := by
  intro env mem db
  unfold MachineTelemetryRepository.insertBlob
  split
  · exact spares_of_reads mem rfl rfl
  · exact spares_readAs mem (spares_insert _ (by decide))

theorem leavesLog_upsertApp (decl : Registry.AppDeclaration) (registeredBy : Option Uuid) :
    LeavesLog (Registry.upsertApp decl registeredBy) := by
  intro env mem db
  unfold Registry.upsertApp
  split
  · exact ⟨by simp, rfl⟩
  · exact spares_insert mem (by decide)

theorem leavesLog_createResource (new : NewResource) :
    LeavesLog (ResourceRepository.create new) := by
  intro env mem db
  unfold ResourceRepository.create
  split
  · exact spares_of_reads mem rfl rfl
  · exact spares_insert _ (by decide)

end Statements

/-! ## Programs that write the log by `append` only -/

/-- Requests that leave the log alone. -/
abbrev elsewhere : Rules Env Db Write LockKey Mem SqlError where
  begin := True
  stmt s := LeavesLog s
  pool s := LeavesLog s
  mem f := ∀ env m, (f env m).2.eventsSeq = m.eventsSeq

/-- A program made of such requests and of appends, on float-free data, in any order; what it does
    next may depend on all results so far. -/
inductive Logging (lib : Libs) : {ε α : Type} → Prog Env Db Write LockKey Mem SqlError ε α → Prop
  | quiet {ε α : Type} {p : Prog Env Db Write LockKey Mem SqlError ε α} (hp : p.Obeys elsewhere) :
      Logging lib p
  | append (actor : Option Actor) (appId : Option String) (eventType : String)
      {eventData : EventData}
      (hdata : eventData.FloatFree) : Logging lib (append lib actor appId eventType eventData)
  | bind {ε α β : Type} {p : Prog Env Db Write LockKey Mem SqlError ε α}
      {f : α → Prog Env Db Write LockKey Mem SqlError ε β} (hp : Logging lib p)
      (hf : ∀ a, Logging lib (f a)) : Logging lib (p >>= f)
  | mapError {ε ε' α : Type} {p : Prog Env Db Write LockKey Mem SqlError ε α} (g : ε → ε')
      (hp : Logging lib p) : Logging lib (p.mapError g)
  | attempt {ε ε' α : Type} {p : Prog Env Db Write LockKey Mem SqlError ε α} (hp : Logging lib p) :
      Logging lib (p.attempt : Prog Env Db Write LockKey Mem SqlError ε' (Except ε α))

section Methods

variable {lib : Libs} {α β ε : Type}

-- a method is taken apart by its requests; unfolded whole, it takes too long
attribute [local irreducible] Prog.Obeys

theorem Logging.ite {c : Prop} [Decidable c] {p q : Prog Env Db Write LockKey Mem SqlError ε α}
    (hp : Logging lib p) (hq : Logging lib q) : Logging lib (if c then p else q) := by
  split
  · exact hp
  · exact hq

theorem Logging.ret (r : Except ε α) :
    Logging lib (.ret r : Prog Env Db Write LockKey Mem SqlError ε α) :=
  .quiet (obeys_ret r)

theorem Logging.begin (g : SqlError → ε) : Logging lib (beginTx.mapError g) :=
  .quiet (obeys_mapError g (obeys_beginTx trivial))

theorem Logging.commit (g : SqlError → ε) : Logging lib (commitTx.mapError g) :=
  .quiet (obeys_mapError g obeys_commitTx)

/-- A statement on the pool. -/
theorem Logging.onPool {s : Statement β} (hs : LeavesLog s) (g : SqlError → ε) :
    Logging lib ((onPool s).mapError g) := .quiet (obeys_mapError g (obeys_onPool hs))

/-- A statement in a transaction. -/
theorem Logging.inTx {s : Statement β} (hs : LeavesLog s) (g : SqlError → ε) :
    Logging lib ((inTx s).mapError g) := .quiet (obeys_mapError g (obeys_inTx hs))

theorem Logging.critical {f : Env → Mem → β × Mem}
    (hf : ∀ env m, (f env m).2.eventsSeq = m.eventsSeq) :
    Logging lib (critical f : Prog Env Db Write LockKey Mem SqlError ε β) :=
  .quiet (obeys_critical hf)

theorem logging_authenticate (metadata : Metadata) : Logging lib (authenticate lib metadata) := by
  unfold authenticate
  refine .bind (.ret _) fun token => .bind (.onPool (leavesLog_select _) _) fun session => ?_
  cases session with
  | none => exact .ret _
  | some session =>
    refine .bind (.onPool (leavesLog_select _) _) fun user => ?_
    cases user with
    | none => exact .ret _
    | some user =>
      refine .bind (.attempt (.quiet (obeys_onPool fun env mem db => ?_))) fun _ => .ret _
      exact spares_readAs mem (spares_update mem (by decide))

theorem logging_verifyUserPassword (userId : Uuid) (password : String) :
    Logging lib (Auth.verifyUserPassword lib userId password) := by
  unfold Auth.verifyUserPassword
  refine .bind (.onPool (leavesLog_select _) _) fun hash => ?_
  cases hash with
  | none => exact .ret _
  | some hash => exact .ret _

theorem logging_verifyCredentials (email password : String) :
    Logging lib (Auth.verifyCredentials lib email password) := by
  unfold Auth.verifyCredentials
  refine .bind (.onPool (leavesLog_select _) _) fun found => ?_
  cases found with
  | none => exact .ret _
  | some found => exact .bind (.ret _) fun _ => .ite (.ret _) (.ret _)

theorem logging_hashPassword (password : String) : Logging lib (Auth.hashPassword lib password) :=
  .bind (.critical fun _ _ => rfl) fun _ => .ret _

theorem logging_createSession (userId : Uuid) (ttl : Int) (userAgent ipAddress : Option String) :
    Logging lib (SessionRepository.create lib userId ttl userAgent ipAddress) := by
  unfold SessionRepository.create
  refine .bind (.critical fun _ _ => rfl) fun token => .bind (.critical fun _ _ => rfl)
    fun now => ?_
  refine .bind (.quiet (obeys_inTx fun env mem db => ?_)) fun _ => .ret _
  exact spares_insert mem (by decide)

theorem logging_enrollDevice (user : User) (dev : Account.DeviceEnrollment) :
    Logging lib (Account.enrollDevice user dev) := by
  unfold Account.enrollDevice
  refine .bind (.inTx (fun env mem db => spares_insert mem (by decide)) _) fun machine => ?_
  exact .bind (.inTx (fun env mem db => spares_insert mem (by decide)) _) fun device => .ret _

variable {ctx : PlatformContext} (metadata : Metadata)

theorem logging_bootstrap (req : Account.BootstrapRequest) :
    Logging ctx.lib (Account.bootstrap ctx metadata req) := by
  unfold Account.bootstrap
  generalize Account.bootstrap.checked req = checked
  refine .bind (.critical fun _ _ => rfl) fun allowed => .ite (.ret _) ?_
  refine .bind (.ret _) fun request => .bind (.onPool (leavesLog_select _) _) fun count => ?_
  refine .ite (.bind (.critical fun _ _ => rfl) fun _ => .ret _) ?_
  refine .bind (.mapError _ (logging_hashPassword _)) fun phc => ?_
  unfold Account.bootstrap.create
  refine .bind (.begin _) fun _ => ?_
  refine .bind (.inTx (fun env mem db => spares_insert mem (by decide)) _) fun user => ?_
  refine .bind (.inTx (fun env mem db => spares_readAs mem (spares_insert mem (by decide))) _)
    fun _ => ?_
  refine .bind (.inTx (fun env mem db => spares_readAs mem (spares_insert mem (by decide))) _)
    fun _ => ?_
  refine .bind (logging_enrollDevice _ _) fun device => ?_
  refine .bind
    (.mapError _ (.append _ _ _ (floatFree_object (by simp [CompactJson.Value.FloatFree]))))
    fun _ => ?_
  refine .bind (.mapError _ (logging_createSession _ _ _ _)) fun session => ?_
  exact .bind (.commit _) fun _ => .ret _

theorem logging_login (req : Account.LoginRequest) :
    Logging ctx.lib (Account.login ctx metadata req) := by
  unfold Account.login
  generalize (trim req.email).isEmpty = blank
  refine .bind (.critical fun _ _ => rfl) fun allowed => .ite (.ret _) (.ite (.ret _) ?_)
  unfold Account.login.verify
  refine .bind (.attempt (logging_verifyCredentials _ _)) fun outcome => ?_
  unfold Account.login.afterVerify
  split
  · refine .bind (.onPool (leavesLog_select _) _) fun mfa =>
      .ite (.ret _) (.bind ?_ fun _ => .ret _)
    refine .bind (.begin _) fun _ => .bind (.mapError _ (logging_createSession _ _ _ _))
      fun session => ?_
    exact .bind (.commit _) fun _ => .ret _
  · exact .bind (.critical fun _ _ => rfl) fun _ => .ret _
  · exact .ret _

theorem logging_registerDevice (device : Option Account.DeviceEnrollment) :
    Logging ctx.lib (Account.registerDevice ctx metadata device) := by
  unfold Account.registerDevice
  refine .bind (logging_authenticate metadata) fun user => .bind (.ret _) fun dev =>
    .bind (.ret _) fun _ => ?_
  refine .bind (.begin _) fun _ => .bind (logging_enrollDevice _ _) fun device => ?_
  refine .bind
    (.mapError _ (.append _ _ _ (floatFree_object (by simp [CompactJson.Value.FloatFree]))))
    fun _ => ?_
  exact .bind (.commit _) fun _ => .ret _

theorem logging_revokeDevice (deviceId : String) :
    Logging ctx.lib (Account.revokeDevice ctx metadata deviceId) := by
  unfold Account.revokeDevice
  refine .bind (logging_authenticate metadata) fun user => .bind (.ret _) fun id => ?_
  refine .bind (.onPool (fun env mem db => spares_readAs mem (spares_update mem (by decide))) _)
    fun revoked => .ite ?_ (.ret _)
  unfold Account.auditDeviceRevoked
  refine .bind (.attempt (.bind (.quiet (obeys_beginTx trivial)) fun _ => ?_)) fun _ => .ret _
  exact .bind (.append _ _ _ (floatFree_object (by simp [CompactJson.Value.FloatFree]))) fun _ =>
    .quiet obeys_commitTx

theorem logging_updateDisplayName (newName : String) :
    Logging ctx.lib (Account.updateDisplayName ctx metadata newName) := by
  unfold Account.updateDisplayName
  generalize trim newName = displayName
  refine .bind (logging_authenticate metadata) fun user => .ite (.ret _)
    (.bind (.begin _) fun _ => ?_)
  refine .bind (.inTx (fun env mem db => spares_readAs mem (spares_update mem (by decide))) _)
    fun updated => ?_
  refine .bind
    (.mapError _ (.append _ _ _ (floatFree_object (by simp [CompactJson.Value.FloatFree]))))
    fun _ => ?_
  exact .bind (.commit _) fun _ => .ret _

theorem logging_updateEmail (req : Account.UpdateEmailRequest) :
    Logging ctx.lib (Account.updateEmail ctx metadata req) := by
  unfold Account.updateEmail
  generalize trim req.newEmail = newEmail
  refine .bind (logging_authenticate metadata) fun user => ?_
  refine .bind (.mapError _ (logging_verifyUserPassword _ _)) fun verified => ?_
  refine .ite (.ret _) (.ite (.ret _) (.bind (.begin _) fun _ => ?_))
  refine .bind (.inTx (leavesLog_updateEmail _ _) _) fun updated => ?_
  refine .bind
    (.mapError _ (.append _ _ _ (floatFree_object (by simp [CompactJson.Value.FloatFree]))))
    fun _ => ?_
  exact .bind (.commit _) fun _ => .ret _

theorem logging_changePassword (req : Account.ChangePasswordRequest) :
    Logging ctx.lib (Account.changePassword ctx metadata req) := by
  unfold Account.changePassword
  refine .bind (logging_authenticate metadata) fun user => ?_
  refine .bind (.mapError _ (logging_verifyUserPassword _ _)) fun verified => .ite (.ret _) ?_
  unfold Account.changePassword.afterCheck
  refine .ite (.ret _) (.bind (.mapError _ (logging_hashPassword _)) fun phc => ?_)
  unfold Account.changePassword.write
  refine .bind (.begin _) fun _ => ?_
  refine .bind (.inTx (fun env mem db => spares_readAs mem (spares_update mem (by decide))) _)
    fun _ => ?_
  refine .bind (.inTx (fun env mem db => spares_readAs mem (spares_update mem (by decide))) _)
    fun _ => ?_
  exact .bind (.mapError _ (.append _ _ _ (floatFree_object (by simp)))) fun _ => .commit _

theorem logging_registerMachine (req : MachineService.RegisterMachineRequest) :
    Logging ctx.lib (MachineService.registerMachine ctx metadata req) := by
  unfold MachineService.registerMachine
  generalize ((trim req.platform).isEmpty || (trim req.label).isEmpty) = blank
  generalize MachineService.verifyPop ctx.lib req.machineIdentityPublic req.platform req.label
    req.signature = signed
  refine .bind (.critical fun _ _ => rfl) fun allowed => .ite (.ret _) (.ite (.ret _) ?_)
  refine .ite (.bind (.critical fun _ _ => rfl) fun _ => .ret _) ?_
  unfold MachineService.registerMachine.write MachineSessionRepository.create
  refine .bind (.begin _) fun _ => .bind (.inTx (leavesLog_registerOrUpdate _ _ _) _) fun id => ?_
  refine .bind (.mapError _ (.bind (.critical fun _ _ => rfl) fun token => ?_)) fun session => ?_
  · refine .bind (.critical fun _ _ => rfl) fun now => ?_
    exact .bind (.quiet (obeys_inTx fun env mem db => spares_insert mem (by decide)))
      fun _ => .ret _
  · refine .bind
      (.mapError _ (.append _ _ _ (floatFree_object (by simp [CompactJson.Value.FloatFree]))))
      fun _ => ?_
    exact .bind (.commit _) fun _ => .ret _

theorem logging_authenticateMachine :
    Logging ctx.lib (MachineService.authenticateMachine ctx metadata) := by
  unfold MachineService.authenticateMachine
  refine .bind (.ret _) fun token => .bind (.onPool (leavesLog_select _) _) fun session => ?_
  cases session with
  | none => exact .ret _
  | some session => exact .ret _

theorem logging_insertTelemetry (machineId : Uuid) (blobs : List NewTelemetry) :
    Logging lib (MachineTelemetryRepository.insert machineId blobs) := by
  induction blobs with
  | nil => exact .ret _
  | cons blob blobs ih => exact .bind (.quiet (obeys_onPool (leavesLog_insertBlob _ _))) fun _ => ih

theorem logging_registerApp (req : Platform.RegisterAppRequest) :
    Logging lib (Platform.registerApp lib metadata req) := by
  unfold Platform.registerApp
  generalize ((trim req.appIdentifier).isEmpty || (trim req.displayName).isEmpty ||
    (trim req.publisher).isEmpty) = blank
  refine .bind (logging_authenticate metadata) fun user => .ite (.ret _) ?_
  refine .bind (.onPool (leavesLog_select _) _) fun publisher => ?_
  cases publisher with
  | none => exact .ret _
  | some publisher =>
    refine .ite (.ret _) ?_
    unfold Platform.registerApp.write
    refine .bind (.begin _) fun _ => .bind (.inTx (leavesLog_upsertApp _ _) _) fun row => ?_
    refine .bind
      (.mapError _ (.append _ _ _ (floatFree_object (by simp [CompactJson.Value.FloatFree]))))
      fun _ => ?_
    exact .bind (.commit _) fun _ => .ret _

theorem logging_createResource (owner : Uuid) (req : Resources.CreateResourceRequest) :
    Logging lib (Resources.createResource.as lib owner req) := by
  unfold Resources.createResource.as
  generalize (trim req.resourceType).isEmpty = blank
  refine .ite (.ret _) (.bind (.ret _) fun appId => .bind (.onPool (leavesLog_select _) _)
    fun app => ?_)
  refine .bind (.ret _) fun _ => .bind (.ret _) fun new => ?_
  exact .bind (.onPool (leavesLog_createResource _) _) fun _ => .ret _

theorem logging_readResource (owner : Uuid) (id : String) :
    Logging lib (Resources.readResource.as lib owner id) := by
  unfold Resources.readResource.as
  refine .bind (.ret _) fun id => .bind (.onPool (leavesLog_select _) _) fun row => ?_
  cases row with
  | none => exact .ret _
  | some row => exact .ret _

theorem logging_updateResource (owner : Uuid) (req : Resources.UpdateResourceRequest) :
    Logging lib (Resources.updateResource.as lib owner req) := by
  unfold Resources.updateResource.as
  refine .bind (.ret _) fun id => .bind (.ret _) fun parent => ?_
  refine .bind (.onPool (fun env mem db => spares_updateOne env mem) _) fun row => ?_
  cases row with
  | none => exact .ret _
  | some row => exact .ret _

theorem logging_deleteResource (owner : Uuid) (id : String) :
    Logging lib (Resources.deleteResource.as lib owner id) := by
  unfold Resources.deleteResource.as
  refine .bind (.ret _) fun id => ?_
  exact .bind (.onPool (fun env mem db => spares_readAs mem (spares_updateOne env mem)) _)
    fun affected => .ite (.ret _) (.ret _)

theorem logging_listResources (owner : Uuid) (req : Resources.ListResourcesRequest) :
    Logging lib (Resources.listResources.as lib owner req) := by
  unfold Resources.listResources.as
  generalize (trim req.resourceType).isEmpty = blank
  refine .ite (.ret _) (.bind (.ret _) fun appId => .bind (.mapError _ ?_) fun _ => .ret _)
  refine .bind (.quiet (obeys_onPool (leavesLog_select _))) fun rows => ?_
  exact .bind (.quiet (obeys_onPool (leavesLog_select _))) fun _ => .ret _

/-- **The methods write the log by `append` only.** -/
theorem logging_call (call : RpcCall) : Logging ctx.lib (call.program ctx) := by
  cases call with
  | bootstrap metadata req => exact .bind (logging_bootstrap metadata req) fun _ => .ret _
  | login metadata req => exact .bind (logging_login metadata req) fun _ => .ret _
  | registerDevice metadata device =>
    exact .bind (logging_registerDevice metadata device) fun _ => .ret _
  | revokeDevice metadata deviceId => exact logging_revokeDevice metadata deviceId
  | updateDisplayName metadata newName =>
    exact .bind (logging_updateDisplayName metadata newName) fun _ => .ret _
  | updateEmail metadata req => exact .bind (logging_updateEmail metadata req) fun _ => .ret _
  | changePassword metadata req => exact logging_changePassword metadata req
  | setAvatar metadata avatar =>
    exact .bind (logging_authenticate metadata) fun user =>
      .ite (.ret _) (.onPool (leavesLog_upsertAvatar _ _) _)
  | registerMachine metadata req =>
    exact .bind (logging_registerMachine metadata req) fun _ => .ret _
  | checkIn metadata =>
    exact .bind (logging_authenticateMachine metadata) fun id =>
      .onPool (fun env mem db => spares_readAs mem (spares_update mem (by decide))) _
  | reportTelemetry metadata blobs =>
    exact .bind (logging_authenticateMachine metadata) fun id =>
      .ite (.ret _) (.mapError _ (logging_insertTelemetry _ _))
  | registerApp metadata req => exact .bind (logging_registerApp metadata req) fun _ => .ret _
  | getAppRegistration metadata appIdentifier =>
    refine .bind (.bind (logging_authenticate metadata) fun _ => ?_) fun _ => .ret _
    refine .bind (.onPool (leavesLog_select _) _) fun row => ?_
    cases row with
    | none => exact .ret _
    | some row => exact .ret _
  | createResource metadata req =>
    exact .bind (.bind (logging_authenticate metadata) fun user =>
      logging_createResource user.id req) fun _ => .ret _
  | readResource metadata id =>
    exact .bind (.bind (logging_authenticate metadata) fun user => logging_readResource user.id id)
      fun _ => .ret _
  | updateResource metadata req =>
    exact .bind (.bind (logging_authenticate metadata) fun user =>
      logging_updateResource user.id req) fun _ => .ret _
  | deleteResource metadata id =>
    exact .bind (logging_authenticate metadata) fun user => logging_deleteResource user.id id
  | listResources metadata req =>
    exact .bind (.bind (logging_authenticate metadata) fun user =>
      logging_listResources user.id req) fun _ => .ret _
  | streamChanges metadata req =>
    refine .bind (.bind (logging_authenticate metadata) fun user => ?_) fun _ => .ret _
    exact .bind (.ret _) fun appId => .bind (.onPool (leavesLog_select _) _) fun _ => .ret _

end Methods

/-! ## Such programs keep the contract of the log -/

/-- The rows of another table do not show in the log. -/
theorem events_elsewhere {db : Db} {ws ws' : List Write} (hws' : ∀ w ∈ ws', w.table ≠ .events) :
    (applyAll db (ws ++ ws')).events = (applyAll db ws).events := by
  rw [applyAll_append]
  exact applyAll_rows_of_ne (t := .events) _ _ hws'

section Contract

variable {lib : Libs} {allowed : EventData → Prop} {I : List AuditEvent → Int → Prop}
  {ε α ε₀ β₀ : Type}

/-- Work elsewhere does not take away what is known of the log. -/
theorem known_more {ws ws' : List Write} {ls ls' : List LockKey} {sh : Shared} {mem : Mem}
    (hknown : Known I ws ls sh) (hws' : ∀ w ∈ ws', w.table ≠ .events)
    (hmem : mem.eventsSeq = sh.mem.eventsSeq) : Known I (ws ++ ws') (ls ++ ls') ⟨sh.db, mem⟩ := by
  rcases hknown with hnone | hheld
  · left
    intro w hw
    rcases List.mem_append.mp hw with hw | hw
    · exact hnone w hw
    · exact hws' w hw
  · refine Or.inr ⟨List.mem_append_left _ hheld.lock, ?_, ?_⟩
    · rw [events_elsewhere hws']
      exact hheld.grown
    · rw [events_elsewhere hws', hmem]
      exact hheld.log

/-- **Requests elsewhere keep the contract.** -/
theorem local_elsewhere (I : List AuditEvent → Int → Prop) :
    Local (logContract I : Contract _ _ _ _ _ _ ε₀ β₀) elsewhere (Known I) where
  stable p sh sh₁ hknown _ hrely := hknown.imp_right fun hheld => hheld.stable hrely
  done _ _ _ := trivial
  step c p p' sh sh' hfirst hknown hinv hs := by
    rcases Proc.step_cases hs with ⟨rfl, hkept | hdropped⟩ | ⟨β, f, k, hprog, rfl, rfl⟩ |
      ⟨β, s, k, hprog, rfl, hended | hwent⟩ | ⟨k, hprog, rfl, -, rfl⟩
    · obtain ⟨hws, hls⟩ := hkept
      rw [hws, hls]
      exact ⟨guar_quiet hinv, hknown⟩
    · rw [hdropped.1]
      exact ⟨guar_quiet hinv, known_nil _ _⟩
    · -- a critical section
      rw [hprog] at hfirst
      have hseq : (f c.env sh.mem).2.eventsSeq = sh.mem.eventsSeq := hfirst c.env sh.mem
      refine ⟨guar_same hinv ⟨rfl, hseq⟩, ?_⟩
      have hmore : Known I (p.writes ++ []) (p.locks ++ []) ⟨sh.db, (f c.env sh.mem).2⟩ :=
        known_more hknown (by simp) hseq
      rw [List.append_nil, List.append_nil] at hmore
      exact hmore
    · -- a statement that fails
      have hleaves : LeavesLog s := by
        rcases hprog with hprog | hprog <;> rw [hprog] at hfirst <;> exact hfirst
      obtain ⟨e, -, hws, -⟩ := hended
      rw [hws]
      exact ⟨guar_same hinv ⟨rfl, (hleaves _ _ _).2⟩, known_nil _ _⟩
    · have hleaves : LeavesLog s := by
        rcases hprog with hprog | hprog <;> rw [hprog] at hfirst <;> exact hfirst
      obtain ⟨b, -, hws, hls⟩ := hwent
      rw [hws, hls]
      have hspares := hleaves c.env sh.mem (applyAll sh.db p.writes)
      exact ⟨guar_same hinv ⟨rfl, hspares.2⟩, known_more hknown hspares.1 hspares.2⟩
    · refine ⟨?_, known_nil _ _⟩
      rcases hknown with hnone | hheld
      · exact guar_same hinv ⟨applyAll_rows_of_ne (t := .events) _ _ hnone, rfl⟩
      · exact hheld.guar_commit

/-- An append is a part of a program that keeps the contract. -/
theorem part_append (hI : Growth lib allowed I) {actor : Option Actor} {appId : Option String}
    {eventType : String} {eventData : EventData} (hdata : allowed eventData) :
    Part (logContract I : Contract _ _ _ _ _ _ ε₀ β₀) (Known I)
      (append lib actor appId eventType eventData) := by
  intro f hf tx sh hknown
  have herr : ∀ e sh, Safe (logContract I) ⟨f (.error e), some .aborted⟩ sh :=
    fun e sh => hf (.error e) (some .aborted) sh (known_nil _ _)
  rcases tx with _ | (⟨ws, ls⟩ | _)
  · -- it has no transaction to run in, and waits for ever
    rw [append_attempt]
    exact .intro (fun _ _ _ _ he => by simp at he) fun _ _ _ _ _ _ hs => by simp [Proc.step] at hs
  · exact safe_append hI herr
      (fun row ws ls sh hheld => hf (.ok row) (some (.active ws ls)) sh (Or.inr hheld))
      hdata hknown
  · rw [append_attempt]
    exact .stmt_aborted fun sh₁ hinv _ e => ⟨guar_quiet hinv, herr e sh₁⟩

/-- **A program that writes the log by `append` is a part**, whatever it says there. -/
theorem Logging.part {p : Prog Env Db Write LockKey Mem SqlError ε α} (hp : Logging lib p)
    (hI : Growth lib CompactJson.Value.FloatFree I) :
    Part (logContract I : Contract _ _ _ _ _ _ ε₀ β₀) (Known I) p := by
  induction hp with
  | quiet hp => exact (local_elsewhere I).part_of_obeys hp
  | append actor appId eventType hdata => exact part_append hI hdata
  | bind _ _ ihp ihf => exact part_bind ihp ihf
  | mapError g _ ih => exact part_mapError g ih
  | attempt _ ih => exact part_attempt ih

end Contract

/-! ## Every run of the server -/

section Runs

variable {Pid : Type} [DecidableEq Pid] [Fintype Pid] {w₀ w₁ w₂ : Server Pid Unit}

/-- **The audit log of the server.** In every run of any of the methods, side by side with any other
    programs that write the log by `append`, the log is at all times a valid chain, and between two
    moments it has only grown, at its end. -/
theorem server_log_intact (ctx : PlatformContext)
    (htime : ∀ ts : DateTime, ts.nanos % 1000 = 0 → ctx.lib.timestamptz ts = ts)
    (hjson : ∀ v : EventData, v.FloatFree → ctx.lib.jsonb v = v)
    (hstart : Intact ctx.lib w₀.sh.db.events w₀.sh.mem.eventsSeq)
    (hidle : ∀ i, (w₀.procs i).tx = none)
    (hprograms : ∀ i, (∃ call : RpcCall, (w₀.procs i).prog = call.program ctx) ∨
      Logging ctx.lib (w₀.procs i).prog)
    (hr : World.Run World.anyStep w₀ w₁) (hr' : World.Run World.anyStep w₁ w₂) :
    (chain ctx.lib).Valid (orderAsc AuditEvent.seqno w₂.sh.db.events) ∧
      w₁.sh.db.events <+: w₂.sh.db.events := by
  have hlogging : ∀ i, Logging ctx.lib (w₀.procs i).prog := by
    intro i
    rcases hprograms i with ⟨call, hcall⟩ | hlogging
    · rw [hcall]
      exact logging_call call
    · exact hlogging
  have hproc : ∀ i, w₀.procs i = ⟨(w₀.procs i).prog, none⟩ := by
    intro i
    rw [← hidle i]
  have hsafe : ∀ i, Safe (logContract (Intact ctx.lib)) (w₀.procs i) w₀.sh := by
    intro i
    rw [hproc]
    exact (local_elsewhere _).safe ((hlogging i).part (intact_growth htime hjson)) (known_nil _ _)
  have hbegin : Appending (Intact ctx.lib) w₀ :=
    ⟨hstart, (World.orderly_start hidle).exclusive, hsafe⟩
  obtain ⟨hlater, hgrown⟩ := log_grows (log_grows hbegin hr).1 hr'
  refine ⟨?_, hgrown⟩
  rw [orderAsc_eq_self hlater.log.sorted]
  exact hlater.log.valid

end Runs

/-! ### Ann changes her name, and is deleted -/

/-- The deletion of an account, in a transaction of its own. -/
def removeAnn : Rpc Unit :=
  (inTransaction (inTx (UserRepository.hardRemove Sample.ann.id))).mapError fun _ =>
    internal "remove"

def renameAndRemove : Server Bool Unit where
  procs i := ⟨if i then removeAnn else RpcCall.program Sample.context
    (.updateDisplayName Sample.asAnn "Anna"), none⟩
  sh := ⟨Sample.db, Mem.fresh⟩

/-- The new name is there, with its event. -/
def renamedAnn : Server Bool Unit := renameAndRemove.reach (Sample.steps false 7 11)

/-- The account is gone. -/
def removedAnn : Server Bool Unit := renamedAnn.reach (Sample.steps true 7 3)

theorem logging_removeAnn : Logging Libs.sample removeAnn := by
  refine .mapError _ (.quiet (obeys_inTransaction trivial (obeys_inTx fun env mem db => ?_)))
  exact spares_hardRemove env mem _

theorem server_log_intact_ann :
    renamedAnn.sh.db.events.map AuditEvent.eventType = ["display_name_changed"] ∧
    removedAnn.sh.db.users = [] ∧
    (chain Libs.sample).Valid (orderAsc AuditEvent.seqno removedAnn.sh.db.events) ∧
      renamedAnn.sh.db.events <+: removedAnn.sh.db.events := by
  refine ⟨by decide +kernel, by decide +kernel, ?_⟩
  have hintact : Intact Sample.context.lib renameAndRemove.sh.db.events
      renameAndRemove.sh.mem.eventsSeq :=
    intact_nil Libs.sample _
  refine server_log_intact Sample.context sample_timestamptz (fun _ _ => rfl) hintact
    (fun i => rfl) (fun i => ?_) (World.run_followD renameAndRemove (Sample.steps false 7 11))
    (World.run_followD renamedAnn (Sample.steps true 7 3))
  cases i with
  | false => exact Or.inl ⟨.updateDisplayName Sample.asAnn "Anna", rfl⟩
  | true => exact Or.inr logging_removeAnn

end SylvaServer.Audit
