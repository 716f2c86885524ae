/-
  What the gRPC methods never do to a row.

  None of the methods deletes a row, and most columns are written once, by the `INSERT`. What may
  change later is listed per table (`Table.Later`); a device that is revoked and a resource that is
  deleted do not change any more at all.

  Proved: each statement of the methods keeps every table so (`later_statement`), whatever tables it
  sees, and so does every run of any of the methods (`row_history`); and a table changes only by the
  commit of a method that has it among its tables (`changes_have_author`).
-/
import SylvaServer.Model.Footprints

namespace SylvaServer

open ReadCommitted ReadCommitted.Prog

/-! ## Later versions of a row -/

/-- `r'` may be the row `r` at a later time. -/
def Table.Later : (t : Table) → t.Row → t.Row → Prop
  | .users, r, r' => r' = { r with
      email := r'.email
      displayName := r'.displayName
      updatedAt := r'.updatedAt }
  | .credentials, r, r' =>
      r' = { r with passwordHash := r'.passwordHash, updatedAt := r'.updatedAt }
  | .userKeys, r, r' => r' = { r with
      km := { r.km with
        masterKeyWrapped := r'.km.masterKeyWrapped
        kdfSalt := r'.km.kdfSalt
        kdfParams := r'.km.kdfParams }
      updatedAt := r'.updatedAt }
  | .userAvatars, r, r' => r' = { r with avatar := r'.avatar, updatedAt := r'.updatedAt }
  | .machines, r, r' => r' = { r with
      label := r'.label
      platform := r'.platform
      lastSeenAt := r'.lastSeenAt }
  | .devices, r, r' => r' = { r with revokedAt := r'.revokedAt } ∧ (r.revokedAt.isSome → r' = r)
  | .sessions, r, r' => r' = { r with lastSeenAt := r'.lastSeenAt }
  | .registeredApps, r, r' => r' = { r with
      displayName := r'.displayName
      publisher := r'.publisher
      appPublicKey := r'.appPublicKey
      schemaVersion := r'.schemaVersion
      resourceTypes := r'.resourceTypes
      updatedAt := r'.updatedAt }
  | .resources, r, r' => r' = { r with
      parentResourceId := r'.parentResourceId
      updatedAt := r'.updatedAt
      deletedAt := r'.deletedAt
      contentBlob := r'.contentBlob
      contentSignature := r'.contentSignature
      lastModifiedBy := r'.lastModifiedBy
      schemaVersion := r'.schemaVersion
      changeSeq := r'.changeSeq } ∧ (r.deletedAt.isSome → r' = r)
  | .invitations, r, r' => r' = r
  | .machineSessions, r, r' => r' = r
  | .machineTelemetry, r, r' => r' = r
  | .recoveryCodes, r, r' => r' = r
  | .userRecoveryCodes, r, r' => r' = r
  | .totpCredentials, r, r' => r' = r
  | .webauthnCredentials, r, r' => r' = r
  | .webauthnChallenges, r, r' => r' = r
  | .events, r, r' => r' = r
  | .trustedPublishers, r, r' => r' = r

namespace RowHistory

variable {t : Table}

theorem later_refl (r : t.Row) : t.Later r r := by
  cases t <;> simp [Table.Later]

theorem later_trans {r r' r'' : t.Row} (h : t.Later r r') (h' : t.Later r' r'') :
    t.Later r r'' := by
  cases t with
  | devices =>
    refine ⟨?_, fun hrevoked => ?_⟩
    · rw [h'.1, h.1]
    · obtain rfl := h.2 hrevoked
      exact h'.2 hrevoked
  | resources =>
    refine ⟨?_, fun hdeleted => ?_⟩
    · rw [h'.1, h.1]
    · obtain rfl := h.2 hdeleted
      exact h'.2 hdeleted
  | users | credentials | userKeys | userAvatars | machines | sessions | registeredApps =>
    unfold Table.Later at *
    rw [h', h]
  | invitations | machineSessions | machineTelemetry | recoveryCodes | userRecoveryCodes
  | totpCredentials | webauthnCredentials | webauthnChallenges | events | trustedPublishers =>
    exact Eq.trans h' h

/-- The primary key stays. -/
theorem key_later {r r' : t.Row} (h : t.Later r r') : t.key r' = t.key r := by
  cases t with
  | devices | resources =>
    rw [h.1]
    rfl
  | users | credentials | userKeys | userAvatars | machines | sessions | registeredApps =>
    rw [show r' = _ from h]
    rfl
  | invitations | machineSessions | machineTelemetry | recoveryCodes | userRecoveryCodes
  | totpCredentials | webauthnCredentials | webauthnChallenges | events | trustedPublishers =>
    rw [show r' = r from h]

/-- A row that is there stays there, as itself at a later time. -/
def Keeps (t : Table) (old new : Option t.Row) : Prop := ∀ r ∈ old, ∃ r' ∈ new, t.Later r r'

theorem keeps_refl (v : Option t.Row) : Keeps t v v := fun r hr => ⟨r, hr, later_refl r⟩

theorem keeps_trans {v v' v'' : Option t.Row} (h : Keeps t v v') (h' : Keeps t v' v'') :
    Keeps t v v'' := by
  intro r hr
  obtain ⟨r', hr', hlater⟩ := h r hr
  obtain ⟨r'', hr'', hlater'⟩ := h' r' hr'
  exact ⟨r'', hr'', later_trans hlater hlater'⟩

theorem keeps_some {r r' : t.Row} (h : t.Later r r') : Keeps t (some r) (some r') := by
  intro a ha
  obtain rfl := Option.some.inj ha
  exact ⟨r', rfl, h⟩

theorem keeps_none (v : Option t.Row) : Keeps t none v := fun r hr => absurd hr (by simp)

/-! ## The statements of the methods -/

section Statements

variable {lib : Libs} {β : Type} {db : Db} {t₀ : Table} (env : Env) (mem : Mem)

/-- An `INSERT` into any table. -/
theorem later_insert {row : t₀.Row} {taken : Bool} {refs : List (Table × Key)}
    {entries : List LockKey} :
    t.view.Lawful (fun _ => Keeps t) db (insertRow t₀ row taken refs entries mem db).writes := by
  by_cases ht : t₀ = t
  · subst ht
    exact lawful_insertRow (keeps_none _)
  · exact lawful_elsewhere fun w hw => by rwa [insertRow_table w hw]

/-- An `UPDATE` of any table. -/
theorem later_update {p : t₀.Row → Bool} {f : t₀.Row → t₀.Row} (hkeyed : Keyed t.key (db.rows t))
    (h : ∀ r, t₀.key (f r) = t₀.key r) (hlater : ∀ r, p r → t₀.Later r (f r)) :
    t.view.Lawful (fun _ => Keeps t) db (updateRows t₀ p f mem db).writes := by
  by_cases ht : t₀ = t
  · subst ht
    exact lawful_updateRows mem hkeyed h fun r _ hp => keeps_some (hlater r hp)
  · exact lawful_elsewhere fun w hw => by rwa [updateRows_table w hw]

/-- One row of any table, replaced. -/
theorem later_put {r row : t₀.Row} (hkeyed : Keyed t.key (db.rows t)) (hr : r ∈ db.rows t₀)
    (hlater : t₀.Later r row) : t.view.Lawful (fun _ => Keeps t) db [.put t₀ row] := by
  by_cases ht : t₀ = t
  · subst ht
    refine lawful_put ?_
    rw [key_later hlater, get_of_mem hkeyed hr]
    exact keeps_some hlater
  · exact lawful_elsewhere fun w hw => by rwa [List.mem_singleton.mp hw]

theorem later_updateOne {id owner : Uuid} {f : Env → Int → Resource → Resource}
    (hkeyed : Keyed t.key (db.rows t))
    (hlater : ∀ n r, r.deletedAt = none → Table.Later .resources r (f env n r)) :
    t.view.Lawful (fun _ => Keeps t) db
      (ResourceRepository.updateOne id owner f env mem db).writes := by
  unfold ResourceRepository.updateOne
  split
  · trivial
  · next r hfind =>
    split
    · trivial
    · next n _ =>
      have howned := List.find?_some hfind
      simp only [ResourceRepository.owned, Bool.and_eq_true, beq_iff_eq] at howned
      exact later_put hkeyed (List.mem_of_find?_eq_some hfind) (hlater n r howned.2)

/-- **Every statement of the methods keeps the rows of every table.** -/
theorem later_statement {written : Option Table} {s : Statement β} (hs : RpcStatement lib written s)
    (hkeyed : Keyed t.key (db.rows t)) :
    t.view.Lawful (fun _ => Keeps t) db (s env mem db).writes := by
  cases hs with
  | select | advisoryXactLock => trivial
  | createUser | createMachine | createMachineSession | registerDevice | createSession
  | insertEvent =>
    exact later_insert mem
  | createUserKeys | createCredentials => exact lawful_readAs (later_insert mem)
  | nextSeqno =>
    unfold Audit.nextSeqno
    split
    · trivial
    · trivial
  | insertTelemetry machineId blob =>
    unfold MachineTelemetryRepository.insertBlob
    split
    · trivial
    · exact lawful_readAs (later_insert _)
  | createResource new =>
    unfold ResourceRepository.create
    split
    · trivial
    · exact later_insert _
  | updateProfile | updateUserKeys | touchCheckin | updatePasswordHash | touchLastSeen =>
    exact lawful_readAs (later_update mem hkeyed (fun _ => rfl) fun _ _ => rfl)
  | revokeDevice deviceId userId =>
    refine lawful_readAs (later_update mem hkeyed (fun _ => rfl) fun r hr =>
      ⟨rfl, fun hrevoked => ?_⟩)
    simp only [Bool.and_eq_true, beq_iff_eq] at hr
    rw [hr.2] at hrevoked
    exact absurd hrevoked (by simp)
  | updateEmail id newEmail =>
    unfold UserRepository.updateEmail
    split
    · trivial
    · exact lawful_readAs (later_update mem hkeyed (fun _ => rfl) fun _ _ => rfl)
  | upsertAvatar userId avatar =>
    unfold UserAvatarRepository.upsert
    split
    · next row hfind => exact later_put hkeyed (List.mem_of_find?_eq_some hfind) rfl
    · exact lawful_readAs (later_insert mem)
  | registerOrUpdate identityPublic platform label =>
    unfold MachineRepository.registerOrUpdate
    split
    · next machine hfind => exact later_put hkeyed (List.mem_of_find?_eq_some hfind) rfl
    · exact lawful_readAs (later_insert mem)
  | upsertApp decl registeredBy =>
    unfold Registry.upsertApp
    split
    · next app hfind => exact later_put hkeyed (List.mem_of_find?_eq_some hfind) rfl
    · exact later_insert mem
  | updateOwned id owner contentBlob contentSignature schemaVersion parentResourceId =>
    exact later_updateOne env mem hkeyed fun n r hactive =>
      ⟨rfl, fun hdeleted => by simp [hactive] at hdeleted⟩
  | softDeleteOwned id owner =>
    exact lawful_readAs (later_updateOne env mem hkeyed fun n r hactive =>
      ⟨rfl, fun hdeleted => by simp [hactive] at hdeleted⟩)

end Statements

/-! ## Every run of the methods -/

section Runs

variable {ctx : PlatformContext} {Pid : Type} [DecidableEq Pid] [Fintype Pid]
  {w₀ w₁ w₂ : Server Pid Unit} {es es' : List (ServerEvent Pid Unit)}

/-- Idle programs, each a method, on tables with their primary keys. -/
structure Methods (ctx : PlatformContext) (w₀ : Server Pid Unit) : Prop where
  keys : w₀.sh.db.PrimaryKeys
  idle : ∀ i, (w₀.procs i).tx = none
  programs : ∀ i, ∃ call : RpcCall, (w₀.procs i).prog = call.program ctx

omit [DecidableEq Pid] [Fintype Pid] in
theorem versioned_start {t : Table} (hkeyed : Keyed t.key (w₀.sh.db.rows t))
    (hidle : ∀ i, (w₀.procs i).tx = none)
    (hprograms : ∀ i, ∃ call : RpcCall, (w₀.procs i).prog = call.program ctx) :
    Versioned t.view (fun _ _ => Keeps t) w₀ := by
  refine ⟨.start hidle hkeyed, fun i => ?_⟩
  obtain ⟨call, hcall⟩ := hprograms i
  rw [hcall]
  exact Obeys.mono (R := rpcRules ctx.lib (· ∈ call.tables)) id
    (fun _ ⟨_, hs, _⟩ env mem _ hkeyed => later_statement env mem hs hkeyed)
    (fun _ ⟨_, hs, _⟩ env mem _ hkeyed => later_statement env mem hs hkeyed) (fun _ => id)
      (rpc_call call)

omit [DecidableEq Pid] [Fintype Pid] in
theorem Methods.versioned (h : Methods ctx w₀) (t : Table) :
    Versioned t.view (fun _ _ => Keeps t) w₀ :=
  versioned_start (h.keys t) h.idle h.programs

theorem keeps_trace {t : Table} (h : Versioned t.view (fun _ _ => Keeps t) w₀)
    (ht : World.Trace World.anyEvent w₀ es w₁) :
    Versioned t.view (fun _ _ => Keeps t) w₁ ∧
    ∀ k, Keeps t (w₀.sh.db.get t k) (w₁.sh.db.get t k) := by
  obtain ⟨hversioned, hcells⟩ := h.trace ht
  refine ⟨hversioned, fun k => ?_⟩
  have hpath : ∀ {v v'}, Relation.ReflTransGen (fun v v' => ∃ _ : Pid, Keeps t v v') v v' →
      Keeps t v v' := by
    intro v v' hv
    induction hv with
    | refl => exact keeps_refl v
    | tail _ hstep ih =>
      obtain ⟨-, hkeeps⟩ := hstep
      exact keeps_trans ih hkeeps
  exact hpath (hcells k)

/-- **No method deletes a row or changes what is written once.** Between any two moments of any run
    of the methods every row of every table stays, and is the same but for the columns that may
    change. -/
theorem row_history (h : Methods ctx w₀) (ht : World.Trace World.anyEvent w₀ es w₁)
    (ht' : World.Trace World.anyEvent w₁ es' w₂) (t : Table) :
    Keyed t.key (w₂.sh.db.rows t) ∧
    ∀ r ∈ w₁.sh.db.rows t, ∃ r' ∈ w₂.sh.db.rows t, t.Later r r' := by
  obtain ⟨hversioned₁, -⟩ := keeps_trace (h.versioned t) ht
  obtain ⟨hversioned₂, hkeeps⟩ := keeps_trace hversioned₁ ht'
  refine ⟨hversioned₂.flight.sound, fun r hr => ?_⟩
  obtain ⟨r', hr', hlater⟩ := hkeeps (t.key r) r (get_of_mem hversioned₁.flight.sound hr)
  exact ⟨r', (mem_of_get hr').1, hlater⟩

/-- Each method at work writes its tables, and what the commits so far left alone is as it was. -/
structure Authored (calls : Pid → RpcCall) (w₀ : Server Pid Unit) (es : List (ServerEvent Pid Unit))
    (w : Server Pid Unit) : Prop where
  obeys : ∀ i, (w.procs i).prog.Obeys (within (calls i).tables)
  writes : ∀ i, ∀ x ∈ (w.procs i).writes, x.table ∈ (calls i).tables
  rows : ∀ t, (∀ e ∈ es, ∀ x ∈ (e.before.procs e.pid).committed e.choice, x.table ≠ t) →
    w.sh.db.rows t = w₀.sh.db.rows t
  author : ∀ e ∈ es, ∀ x ∈ (e.before.procs e.pid).committed e.choice, x.table ∈ (calls e.pid).tables

theorem Authored.step {calls : Pid → RpcCall} {w w' : Server Pid Unit} {i : Pid}
    {c : Choice Env SqlError} (h : Authored calls w₀ es w) (hs : w.step i c = some w') :
    Authored calls w₀ (⟨w, i, c, w'⟩ :: es) w' := by
  obtain ⟨hstep, -, hsame⟩ := World.step_spec hs
  have hmine : ∀ x ∈ (w.procs i).committed c, x.table ∈ (calls i).tables := by
    intro x hx
    rcases Proc.committed_cases hstep with ⟨hnone, -⟩ | ⟨hall, -⟩
    · rw [hnone] at hx
      exact absurd hx List.not_mem_nil
    · rw [hall] at hx
      exact h.writes i x hx
  refine ⟨fun j => ?_, fun j => ?_, fun t hothers => ?_, fun e he => ?_⟩
  · by_cases hj : j = i
    · rw [hj]
      exact Proc.obeys_step hstep (h.obeys i)
    · rw [hsame j hj]
      exact h.obeys j
  · by_cases hj : j = i
    · rw [hj]
      intro x hx
      rcases Proc.writes_cases hstep with ⟨hws, -⟩ | ⟨hws, -⟩ | ⟨β, s, k, hprog, hws, -⟩
      · rw [hws] at hx
        exact h.writes i x hx
      · rw [hws] at hx
        exact absurd hx List.not_mem_nil
      · have hobeys := h.obeys i
        rw [hws] at hx
        rcases List.mem_append.mp hx with hx | hx
        · exact h.writes i x hx
        · rcases hprog with hprog | hprog <;> rw [hprog] at hobeys <;> exact hobeys.1 _ _ _ x hx
    · rw [hsame j hj]
      exact h.writes j
  · have hbefore := h.rows t fun e he => hothers e (List.mem_cons_of_mem _ he)
    rw [Proc.step_db hstep, applyAll_rows_of_ne _ _ (hothers _ (List.mem_cons_self ..)), hbefore]
  · rcases List.mem_cons.mp he with rfl | he
    · exact hmine
    · exact h.author e he

/-- **Every change has an author.** A table that is not as it was at the start of a run was written
    by the commit of a method that has it among its tables. -/
theorem changes_have_author {calls : Pid → RpcCall} (hidle : ∀ i, (w₀.procs i).tx = none)
    (hprograms : ∀ i, (w₀.procs i).prog = (calls i).program ctx)
    (ht : World.Trace World.anyEvent w₀ es w₁) {t : Table}
    (hchanged : w₁.sh.db.rows t ≠ w₀.sh.db.rows t) :
    ∃ e ∈ es, t ∈ (calls e.pid).tables ∧
    ∃ x ∈ (e.before.procs e.pid).committed e.choice, x.table = t := by
  have hauthored : Authored calls w₀ es w₁ := by
    clear hchanged
    induction ht with
    | start =>
      refine ⟨fun i => ?_, fun i => ?_, fun _ _ => rfl, fun _ he => absurd he List.not_mem_nil⟩
      · rw [hprograms i]
        exact tables_call ctx (calls i)
      · unfold Proc.writes
        rw [hidle i]
        exact fun _ hx => absurd hx List.not_mem_nil
    | step i c _ hs _ ih => exact ih.step hs
  by_contra hnone
  refine hchanged (hauthored.rows t fun e he x hx htable => hnone ⟨e, he, ?_, x, hx, htable⟩)
  rw [← htable]
  exact hauthored.author e he x hx

end Runs

/-! ### Ann gives up a phone and changes her name -/

def phone : Device where
  id := Sample.uuid 9
  userId := Sample.ann.id
  machineId := none
  deviceLabel := "Phone"
  platform := "ios"
  devicePublicKey := [7]
  createdAt := ⟨0⟩
  lastSeenAt := none
  revokedAt := none

def givingUp : Server Bool Unit where
  procs i := ⟨RpcCall.program Sample.context
    (if i then .revokeDevice Sample.asAnn phone.id.toString else
      .updateDisplayName Sample.asAnn "Anna"), none⟩
  sh := ⟨Sample.db.put .devices phone, Mem.fresh⟩

/-- The phone is revoked; the new name waits for its transaction. -/
def revokedPhone : Server Bool Unit :=
  givingUp.reach (Sample.steps false 7 4 ++ Sample.steps true 8 5)

/-- The rest of both requests. -/
def givenUp : Server Bool Unit :=
  revokedPhone.reach (Sample.steps false 7 7 ++ Sample.steps true 8 7)

theorem row_history_phone : revokedPhone.sh.db.devices.map Device.revokedAt = [some ⟨0⟩] ∧
    Keyed (Table.key .devices) givenUp.sh.db.devices ∧
      ∀ r ∈ revokedPhone.sh.db.devices, ∃ r' ∈ givenUp.sh.db.devices,
        Table.Later .devices r r' := by
  have hmethods : Methods Sample.context givingUp := by
    refine ⟨fun t => ?_, fun _ => rfl, fun _ => ⟨_, rfl⟩⟩
    cases t <;> decide
  obtain ⟨es, -, ht⟩ : ∃ es, [] <:+ es ∧ World.Trace World.anyEvent givingUp es revokedPhone :=
    World.trace_reach (fun _ _ _ _ _ => trivial) .start (by decide +kernel)
  obtain ⟨es', -, ht'⟩ : ∃ es', [] <:+ es' ∧ World.Trace World.anyEvent revokedPhone es' givenUp :=
    World.trace_reach (fun _ _ _ _ _ => trivial) .start (by decide +kernel)
  exact ⟨by decide +kernel, row_history hmethods ht ht' .devices⟩

/-- What the two ask for. -/
def givingUpCalls (i : Bool) : RpcCall :=
  if i then .revokeDevice Sample.asAnn phone.id.toString else .updateDisplayName Sample.asAnn "Anna"

theorem changes_have_author_phone : ∃ es, World.Trace World.anyEvent givingUp es revokedPhone ∧
    ∃ e ∈ es, .devices ∈ (givingUpCalls e.pid).tables ∧
      ∃ x ∈ (e.before.procs e.pid).committed e.choice, x.table = .devices := by
  obtain ⟨es, -, ht⟩ : ∃ es, [] <:+ es ∧ World.Trace World.anyEvent givingUp es revokedPhone :=
    World.trace_reach (fun _ _ _ _ _ => trivial) .start (by decide +kernel)
  have hrevoked : revokedPhone.sh.db.devices.map Device.revokedAt ≠
      givingUp.sh.db.devices.map Device.revokedAt := by
    decide +kernel
  have hprograms : ∀ i, (givingUp.procs i).prog = (givingUpCalls i).program Sample.context :=
    fun _ => rfl
  refine ⟨es, ht, changes_have_author (fun _ => rfl) hprograms ht fun h => hrevoked ?_⟩
  exact congrArg (List.map Device.revokedAt) h

end RowHistory

end SylvaServer
