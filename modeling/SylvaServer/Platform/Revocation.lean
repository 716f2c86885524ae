/-
  The audit of revoked devices.

  `RevokeDevice` commits the revocation first and audits it afterwards, as best it can: a failure of
  the audit is only logged. What keeps the log right is the `UPDATE` of the revocation, which finds
  a device that is not revoked yet, so one request alone ever revokes a device
  (`revokeOwned_cases`), and it alone goes on to write the event.

  The invariant follows each request through its stages (`Stage`). A request that has committed its
  revocation owes an event (`auditing`); at most one request owes the event of a device, and none
  does once the event is there.

  Proved: in every run of any number of such requests, with anything failing, each event names a
  device that is revoked and belongs to the actor of the event, and no two events name the same
  device (`recorded_run`).
-/
import SylvaServer.Model.Account
import SylvaServer.Platform.Parts
import SylvaServer.ReadCommitted.Gates

namespace SylvaServer.Revocation

open ReadCommitted ReadCommitted.Prog

/-! ## The events -/

/-- The data of a `device_revoked` event. -/
def revokedData (id : Uuid) : EventData := .object [("device_id", .str id.toString)]

/-- The event is about the device. -/
def Names (lib : Libs) (e : AuditEvent) (id : Uuid) : Prop :=
  e.eventType = "device_revoked" ∧ e.eventData = lib.jsonb (revokedData id)

/-- The event of a device. -/
def EntryOf (lib : Libs) (d : Device) (e : AuditEvent) : Prop :=
  Names lib e d.id ∧ e.actorUserId = some d.userId

/-- Every event names a device that is revoked and owned by its actor, and each device has one at
    most. -/
structure Recorded (lib : Libs) (db : Db) : Prop where
  named : ∀ e ∈ db.events, e.eventType = "device_revoked" →
    ∃ d ∈ db.devices, d.revokedAt.isSome ∧ EntryOf lib d e
  once : ∀ e ∈ db.events, ∀ e' ∈ db.events, ∀ id, Names lib e id → Names lib e' id → e = e'

section Events

variable {lib : Libs} (hjson : ∀ v : EventData, v.FloatFree → lib.jsonb v = v)

include hjson

theorem names_inj {e : AuditEvent} {id id' : Uuid} (h : Names lib e id)
    (h' : Names lib e id') : id = id' := by
  have hfree : ∀ u : Uuid, (revokedData u).FloatFree := fun u => ⟨trivial, trivial⟩
  have hdata := h.2.symm.trans h'.2
  rw [hjson _ (hfree id), hjson _ (hfree id')] at hdata
  have hmember : ∀ u : Uuid, revokedData u = .obj [("device_id", .str u.toString)] := fun u => rfl
  rw [hmember, hmember] at hdata
  injection hdata with hmembers
  injection hmembers with hpair
  injection hpair with _ hvalue
  injection hvalue with htext
  exact Uuid.toString_inj htext

end Events

/-! ## A request at work -/

/-- The commit of an event, the last request. -/
def Last (q : Rpc Unit) : Prop := ∃ k, q = .commit k ∧ ∀ r, ∃ x, k r = .ret x

/-- What is left once the revocation is committed: it adds the event of the device at most. -/
def Logs (lib : Libs) (d : Device) : Rpc Unit → Prop
  | ret _ => True
  | begin k => ∀ r, Logs lib d (k r)
  | stmt s k => (∀ e, Logs lib d (k (.error e))) ∧ ∀ env mem db b, (s env mem db).result = .ok b →
      ((s env mem db).writes = [] ∧ Logs lib d (k (.ok b))) ∨
        ((∃ e, (s env mem db).writes = [.put .events e] ∧ EntryOf lib d e) ∧ Last (k (.ok b)))
  | commit k => ∀ r, Logs lib d (k r)
  | pool _ _ => False
  | mem _ k => ∀ b, Logs lib d (k b)

/-- The `UPDATE` comes next. -/
def AtUpdate (lib : Libs) (q : Rpc Unit) : Prop :=
  ∃ id u k, q = .pool (DeviceRepository.revokeOwned id u) k ∧ (∀ e, ∃ x, k (.error e) = .ret x) ∧
    (∃ x, k (.ok false) = .ret x) ∧ ∀ d : Device, d.id = id → d.userId = u →
    Logs lib d (k (.ok true))

section Requests

variable {ctx : PlatformContext} {metadata : Metadata} {deviceId : String}

theorem logs_audit {d : Device} {user : User} (howner : d.userId = user.id) :
    Logs ctx.lib d (Account.auditDeviceRevoked ctx user d.id) := by
  unfold Account.auditDeviceRevoked Audit.append
  intro r
  cases r with
  | error e => trivial
  | ok _ =>
    refine ⟨fun e => trivial, fun env mem db b _ => Or.inl ⟨rfl, ?_⟩⟩
    refine ⟨fun e => trivial, fun env mem db seqno _ => Or.inl ⟨?_, ?_⟩⟩
    · unfold Audit.nextSeqno
      split <;> rfl
    · refine ⟨fun e => trivial, fun env mem db last _ => Or.inl ⟨rfl, fun now => ?_⟩⟩
      refine ⟨fun e => trivial, fun env mem db e he => Or.inr ⟨?_, _, rfl, fun r => ?_⟩⟩
      · obtain ⟨rfl, hput, -⟩ := insertRow_ok he
        exact ⟨_, hput, ⟨rfl, rfl⟩, congrArg some howner.symm⟩
      · cases r <;> exact ⟨_, rfl⟩

theorem until_revokeDevice :
    (Account.revokeDevice ctx metadata deviceId).Until (only .sessions) (AtUpdate ctx.lib) := by
  unfold Account.revokeDevice
  refine until_bind (only_authenticate _ _) fun user => until_bind trivial fun id => .here ?_
  refine ⟨id, user.id, _, rfl, fun e => ⟨_, rfl⟩, ⟨_, rfl⟩, fun d hid howner => ?_⟩
  subst hid
  exact logs_audit howner

/-- The `UPDATE` finds no device, or the one it is about, which is not revoked yet. -/
theorem revokeOwned_cases (id u : Uuid) (env : Env) (mem : Mem) {db : Db}
    (hkeyed : Keyed (Table.key .devices) db.devices) :
    (DeviceRepository.revokeOwned id u env mem db).locks = [] ∧
      (((DeviceRepository.revokeOwned id u env mem db).result = .ok false ∧
          (DeviceRepository.revokeOwned id u env mem db).writes = []) ∨
        ∃ d ∈ db.devices, d.id = id ∧ d.userId = u ∧ d.revokedAt = none ∧
          (DeviceRepository.revokeOwned id u env mem db).result = .ok true ∧
          (DeviceRepository.revokeOwned id u env mem db).writes =
            [.put .devices { d with revokedAt := some env.pgNow }]) := by
  refine ⟨rfl, ?_⟩
  have hkey : ∀ d : Device, (d.id == id && d.userId == u && d.revokedAt == none) →
      Table.key .devices d = .uuid id := by
    intro d hd
    simp only [Bool.and_eq_true, beq_iff_eq] at hd
    exact congrArg Key.uuid hd.1.1
  unfold DeviceRepository.revokeOwned updateRows
  rcases keyed_filter_cases hkeyed hkey with hnil | ⟨d, hmem, hd, hone⟩
  · left
    rw [hnil]
    exact ⟨rfl, rfl⟩
  · right
    rw [hone]
    simp only [Bool.and_eq_true, beq_iff_eq] at hd
    exact ⟨d, hmem, hd.1.1, hd.1.2, hd.2, rfl, rfl⟩

end Requests

/-! ## The stages of a request -/

inductive Stage where
  /-- Up to the `UPDATE`. -/
  | before
  /-- The `UPDATE` has found the device, and is not committed yet. -/
  | revoking (d : Device)
  /-- The revocation is committed, the event is not. -/
  | auditing (d : Device)
  | done

def At (lib : Libs) (db : Db) : Stage → Running Unit → Prop
  | .before, p => p.prog.Until (only .sessions) (AtUpdate lib) ∧ ∀ w ∈ p.writes, w.table = .sessions
  | .revoking d, p => d ∈ db.devices ∧ d.revokedAt = none ∧ ∃ revokedAt k ls,
      p = ⟨.commit k, some (.active [.put .devices { d with revokedAt := some revokedAt }] ls)⟩ ∧
      (∀ e, ∃ x, k (.error e) = .ret x) ∧
      Logs lib { d with revokedAt := some revokedAt } (k (.ok ()))
  | .auditing d, p => (d ∈ db.devices ∧ d.revokedAt.isSome) ∧
      ((p.writes = [] ∧ Logs lib d p.prog) ∨ ∃ e, p.writes = [.put .events e] ∧
        EntryOf lib d e ∧ Last p.prog)
  | .done, p => ∃ x, p.prog = .ret x

/-- What a step of a request does to the devices and to the log. -/
inductive Effect (lib : Libs) (p : Running Unit) (db db' : Db) : Stage → Stage → Prop where
  | none {s s'} : db'.devices = db.devices → db'.events = db.events →
      (∀ d, s' = .auditing d → s = .auditing d) → Effect lib p db db' s s'
  | revoke (d : Device) (revokedAt : DateTime) :
      p.writes = [.put .devices { d with revokedAt := some revokedAt }] →
        db' = applyAll db p.writes →
      Effect lib p db db' (.revoking d) (.auditing { d with revokedAt := some revokedAt })
  | audit (d : Device) (e : AuditEvent) : EntryOf lib d e →
      db' = applyAll db [Write.put .events e] → Effect lib p db db' (.auditing d) .done

section Steps

variable {lib : Libs} {p p' : Running Unit} {sh sh' : Shared} {c : Choice Env SqlError}

theorem before_step (h : At lib sh.db .before p) (hkeyed : Keyed (Table.key .devices) sh.db.devices)
    (hs : p.step c sh = some (p', sh')) :
    ∃ s', At lib sh'.db s' p' ∧ Effect lib p sh.db sh'.db .before s' := by
  obtain ⟨huntil, hwrites⟩ := h
  have hdb : sh'.db.devices = sh.db.devices ∧ sh'.db.events = sh.db.events := by
    have hcommitted : ∀ w ∈ p.committed c, w.table = .sessions := by
      rcases Proc.committed_cases hs with ⟨hnone, -⟩ | ⟨hall, -⟩
      · rw [hnone]
        exact fun w hw => absurd hw List.not_mem_nil
      · rw [hall]
        exact hwrites
    rw [Proc.step_db hs]
    refine ⟨applyAll_rows_of_ne (t := .devices) _ _ fun w hw => ?_,
      applyAll_rows_of_ne (t := .events) _ _ fun w hw => ?_⟩ <;> rw [hcommitted w hw] <;> decide
  rcases huntil.next (Proc.next_step hs) with hupdate | ⟨hfirst, huntil'⟩
  · obtain ⟨id, u, k, hprog, herr, hfalse, htrue⟩ := hupdate
    obtain ⟨q, tx⟩ := p
    obtain rfl : q = _ := hprog
    cases tx with
    | some t => simp [Proc.step] at hs
    | none =>
      simp only [Proc.step] at hs
      split at hs
      · simp only [Option.some.injEq, Prod.mk.injEq] at hs
        obtain ⟨rfl, rfl⟩ := hs
        exact ⟨.done, herr _, .none rfl rfl (by simp)⟩
      · obtain ⟨hlocks, ⟨hr, hw⟩ | ⟨d, hd, hid, howner, hlive, hr, hw⟩⟩ :=
          revokeOwned_cases id u c.env sh.mem hkeyed
        · simp only [hr, hw, hlocks, List.isEmpty_nil, Bool.and_self, if_true, Option.some.injEq,
            Prod.mk.injEq] at hs
          obtain ⟨rfl, rfl⟩ := hs
          exact ⟨.done, hfalse, .none rfl rfl (by simp)⟩
        · simp only [hr, hw, List.isEmpty_cons, Bool.false_and, Bool.false_eq_true, if_false,
            Option.some.injEq, Prod.mk.injEq] at hs
          obtain ⟨rfl, rfl⟩ := hs
          exact ⟨.revoking d, ⟨hd, hlive, _, _, _, rfl, herr, htrue _ hid howner⟩,
            .none rfl rfl (by simp)⟩
  · refine ⟨.before, ⟨huntil', fun w hw => ?_⟩, .none hdb.1 hdb.2 (by simp)⟩
    rcases Proc.writes_cases hs with ⟨hws, -⟩ | ⟨hws, -⟩ | ⟨β, s, k, hprog, hws, -⟩
    · exact hwrites w (hws ▸ hw)
    · rw [hws] at hw
      exact absurd hw List.not_mem_nil
    · rw [hws] at hw
      rcases List.mem_append.mp hw with hw | hw
      · exact hwrites w hw
      · rcases hprog with hprog | hprog <;> rw [hprog] at hfirst <;> exact hfirst _ _ _ w hw

theorem revoking_step {d : Device} (h : At lib sh.db (.revoking d) p)
    (hs : p.step c sh = some (p', sh')) :
    ∃ s', At lib sh'.db s' p' ∧ Effect lib p sh.db sh'.db (.revoking d) s' := by
  obtain ⟨hd, hlive, revokedAt, k, ls, rfl, herr, hlogs⟩ := h
  simp only [Proc.step] at hs
  split at hs <;> simp only [Option.some.injEq, Prod.mk.injEq] at hs <;> obtain ⟨rfl, rfl⟩ := hs
  · exact ⟨.done, herr _, .none rfl rfl (by simp)⟩
  · refine ⟨.auditing { d with revokedAt := some revokedAt }, ⟨⟨?_, rfl⟩, Or.inl ⟨rfl, hlogs⟩⟩,
      .revoke d revokedAt rfl rfl⟩
    show _ ∈ (sh.db.put .devices _).rows .devices
    rw [put_rows_self]
    exact mem_putRow_self _ _

theorem auditing_step {d : Device} (h : At lib sh.db (.auditing d) p)
    (hs : p.step c sh = some (p', sh')) :
    ∃ s', At lib sh'.db s' p' ∧ Effect lib p sh.db sh'.db (.auditing d) s' := by
  obtain ⟨hd, ⟨hnil, hlogs⟩ | ⟨e, hput, hentry, k, hprog, hend⟩⟩ := h
  · have hdb : sh'.db = sh.db := by
      rcases Proc.committed_cases hs with ⟨-, hdb⟩ | ⟨-, -, -, hsh, -⟩
      · exact hdb
      · rw [hsh, hnil, applyAll_nil]
    refine ⟨.auditing d, ⟨hdb ▸ hd, ?_⟩, .none (by rw [hdb]) (by rw [hdb]) fun _ h => h⟩
    obtain ⟨q, tx⟩ := p
    cases q with
    | ret r =>
      cases tx <;> simp only [Proc.step, Option.some.injEq, Prod.mk.injEq, reduceCtorEq] at hs
      obtain ⟨rfl, rfl⟩ := hs
      exact Or.inl ⟨rfl, trivial⟩
    | begin k =>
      cases tx <;> simp only [Proc.step, reduceCtorEq] at hs
      split at hs <;> simp only [Option.some.injEq, Prod.mk.injEq] at hs
        <;> obtain ⟨rfl, rfl⟩ := hs <;> exact Or.inl ⟨rfl, hlogs _⟩
    | stmt s k =>
      rcases tx with _ | (⟨ws, ls⟩ | _)
      · simp [Proc.step] at hs
      · obtain rfl : ws = [] := hnil
        simp only [Proc.step] at hs
        split at hs
        · simp only [Option.some.injEq, Prod.mk.injEq] at hs
          obtain ⟨rfl, rfl⟩ := hs
          exact Or.inl ⟨rfl, hlogs.1 _⟩
        · split at hs <;> rename_i hr <;> simp only [Option.some.injEq, Prod.mk.injEq] at hs <;>
            obtain ⟨rfl, rfl⟩ := hs
          · rcases hlogs.2 _ _ _ _ hr with ⟨hw, hnext⟩ | ⟨⟨e, hw, hentry⟩, hlast⟩
            · exact Or.inl ⟨hw, hnext⟩
            · exact Or.inr ⟨e, hw, hentry, hlast⟩
          · exact Or.inl ⟨rfl, hlogs.1 _⟩
      · simp only [Proc.step] at hs
        split at hs <;> simp only [Option.some.injEq, Prod.mk.injEq, reduceCtorEq] at hs
        obtain ⟨rfl, rfl⟩ := hs
        exact Or.inl ⟨rfl, hlogs.1 _⟩
    | commit k =>
      rcases tx with _ | (⟨ws, ls⟩ | _)
      · simp [Proc.step] at hs
      · simp only [Proc.step] at hs
        split at hs <;> simp only [Option.some.injEq, Prod.mk.injEq] at hs
          <;> obtain ⟨rfl, rfl⟩ := hs <;> exact Or.inl ⟨rfl, hlogs _⟩
      · simp only [Proc.step] at hs
        split at hs <;> simp only [Option.some.injEq, Prod.mk.injEq] at hs
          <;> obtain ⟨rfl, rfl⟩ := hs <;> exact Or.inl ⟨rfl, hlogs _⟩
    | pool s k => exact hlogs.elim
    | mem f k =>
      simp only [Proc.step, Option.some.injEq, Prod.mk.injEq] at hs
      obtain ⟨rfl, rfl⟩ := hs
      exact Or.inl ⟨hnil, hlogs _⟩
  · obtain ⟨q, tx⟩ := p
    obtain rfl : q = .commit k := hprog
    rcases tx with _ | (⟨ws, ls⟩ | _)
    · simp [Proc.step] at hs
    · obtain rfl : ws = [.put .events e] := hput
      simp only [Proc.step] at hs
      split at hs <;> simp only [Option.some.injEq, Prod.mk.injEq] at hs <;> obtain ⟨rfl, rfl⟩ := hs
      · exact ⟨.done, hend _, .none rfl rfl (by simp)⟩
      · exact ⟨.done, hend _, .audit d e hentry rfl⟩
    · exact absurd hput (by simp)

/-- **A step of a request.** -/
theorem own_step {s : Stage} (h : At lib sh.db s p)
    (hkeyed : Keyed (Table.key .devices) sh.db.devices) (hs : p.step c sh = some (p', sh')) :
    ∃ s', At lib sh'.db s' p' ∧ Effect lib p sh.db sh'.db s s' := by
  cases s with
  | before => exact before_step h hkeyed hs
  | revoking d => exact revoking_step h hs
  | auditing d => exact auditing_step h hs
  | done =>
    obtain ⟨x, hx⟩ := h
    obtain ⟨q, tx⟩ := p
    obtain rfl : q = .ret x := hx
    cases tx <;> simp only [Proc.step, Option.some.injEq, Prod.mk.injEq, reduceCtorEq] at hs
    obtain ⟨rfl, rfl⟩ := hs
    exact ⟨.done, ⟨x, rfl⟩, .none rfl rfl (by simp)⟩

theorem At.mono {db db' : Db} {s : Stage} (h : At lib db s p)
    (hkept : ∀ d, s = .revoking d ∨ s = .auditing d → d ∈ db.devices → d ∈ db'.devices) :
    At lib db' s p := by
  cases s with
  | before => exact h
  | revoking d => exact ⟨hkept d (Or.inl rfl) h.1, h.2⟩
  | auditing d => exact ⟨⟨hkept d (Or.inr rfl) h.1.1, h.1.2⟩, h.2⟩
  | done => exact h

end Steps

/-! ## Runs -/

section Runs

variable {lib : Libs} {Pid : Type} [DecidableEq Pid] [Fintype Pid] {w w' : Server Pid Unit}
  {i : Pid} {c : Choice Env SqlError} {stage : Pid → Stage}

/-- What holds at every moment of a run. -/
structure Following (lib : Libs) (w : Server Pid Unit) (stage : Pid → Stage) : Prop where
  orderly : w.Orderly
  keyed : Keyed (Table.key .devices) w.sh.db.devices
  recorded : Recorded lib w.sh.db
  stages : ∀ i, At lib w.sh.db (stage i) (w.procs i)
  alone : ∀ i j d d', stage i = .auditing d → stage j = .auditing d' → d.id = d'.id → i = j
  owed : ∀ i d, stage i = .auditing d → ∀ e ∈ w.sh.db.events, ¬ Names lib e d.id

omit [DecidableEq Pid] [Fintype Pid] in
/-- Nobody owes the event of a device that is not revoked, and there is none. -/
theorem Following.untouched (hjson : ∀ v : EventData, v.FloatFree → lib.jsonb v = v)
    (h : Following lib w stage) {d : Device} (hd : d ∈ w.sh.db.devices)
    (hlive : d.revokedAt = none) :
    (∀ j d', stage j = .auditing d' → d'.id ≠ d.id) ∧ ∀ e ∈ w.sh.db.events, ¬ Names lib e d.id := by
  have hother : ∀ d' ∈ w.sh.db.devices, d'.revokedAt.isSome → d'.id ≠ d.id := by
    intro d' hd' hrevoked hid
    obtain rfl := h.keyed.eq hd' hd (congrArg Key.uuid hid)
    rw [hlive] at hrevoked
    exact absurd hrevoked (by simp)
  refine ⟨fun j d' hj => ?_, fun e he hnames => ?_⟩
  · have hat := h.stages j
    rw [hj] at hat
    exact hother d' hat.1.1 hat.1.2
  · obtain ⟨d', hd', hrevoked, hentry, -⟩ := h.recorded.named e he hnames.1
    exact hother d' hd' hrevoked (names_inj hjson hentry hnames)

theorem Following.step (hjson : ∀ v : EventData, v.FloatFree → lib.jsonb v = v)
    (h : Following lib w stage) (hs : w.step i c = some w') :
    ∃ s', Following lib w' (Function.update stage i s') := by
  obtain ⟨hstep, -, hsame⟩ := World.step_spec hs
  have horderly := World.orderly_step h.orderly hs
  obtain ⟨s', hat, heffect⟩ := own_step (h.stages i) h.keyed hstep
  refine ⟨s', ?_⟩
  -- the stages after the step, once the others have kept theirs
  have hstages : (∀ j, j ≠ i → At lib w'.sh.db (stage j) (w.procs j)) →
      ∀ j, At lib w'.sh.db (Function.update stage i s' j) (w'.procs j) := by
    intro hothers j
    by_cases hj : j = i
    · subst hj
      rw [Function.update_self]
      exact hat
    · rw [Function.update_of_ne hj, hsame j hj]
      exact hothers j hj
  have hupdate : ∀ {j d}, Function.update stage i s' j = .auditing d → (j = i ∧ s' = .auditing d) ∨
      (j ≠ i ∧ stage j = .auditing d) := by
    intro j d hj
    by_cases hji : j = i
    · subst hji
      rw [Function.update_self] at hj
      exact Or.inl ⟨rfl, hj⟩
    · rw [Function.update_of_ne hji] at hj
      exact Or.inr ⟨hji, hj⟩
  generalize hstage : stage i = s at heffect
  cases heffect with
  | none hdevices hevents howes =>
    have howed : ∀ {j d}, Function.update stage i s' j = .auditing d → stage j = .auditing d := by
      intro j d hj
      rcases hupdate hj with ⟨rfl, hs'⟩ | ⟨-, hj⟩
      · exact hstage.trans (howes d hs')
      · exact hj
    refine ⟨horderly, hdevices ▸ h.keyed, ⟨?_, ?_⟩, hstages fun j _ => (h.stages j).mono
      fun d _ => ?_, ?_, ?_⟩
    · rw [hevents, hdevices]
      exact h.recorded.named
    · rw [hevents]
      exact h.recorded.once
    · rw [hdevices]
      exact id
    · exact fun j j' d d' hj hj' => h.alone j j' d d' (howed hj) (howed hj')
    · rw [hevents]
      exact fun j d hj => h.owed j d (howed hj)
  | revoke d revokedAt hwrites hdb =>
    have hi := h.stages i
    rw [hstage] at hi
    obtain ⟨hd, hlive, -⟩ := hi
    obtain ⟨hfree, hsilent⟩ := h.untouched hjson hd hlive
    have hevents : w'.sh.db.events = w.sh.db.events := by
      rw [hdb, hwrites]
      exact applyAll_rows_of_ne (t := .events) _ _ (by simp)
    have hdevices : w'.sh.db.devices =
        putRow (Table.key .devices) { d with revokedAt := some revokedAt } w.sh.db.devices := by
      rw [hdb, hwrites]
      exact put_rows_self _ _ _
    have hkept : ∀ x ∈ w.sh.db.devices, x.id ≠ d.id → x ∈ w'.sh.db.devices := by
      intro x hx hid
      rw [hdevices]
      exact mem_putRow_of_ne hx fun hk => hid (Key.uuid.inj hk)
    refine ⟨horderly, ?_, ⟨fun e he htype => ?_, ?_⟩, hstages fun j hj => (h.stages j).mono
      fun x hx hmem => ?_, fun j j' x x' hj hj' hid => ?_, fun j x hj => ?_⟩
    · rw [hdevices]
      exact keyed_putRow h.keyed
    · rw [hevents] at he
      obtain ⟨x, hx, hrevoked, hentry⟩ := h.recorded.named e he htype
      refine ⟨x, hkept x hx fun hid => hsilent e he ?_, hrevoked, hentry⟩
      rw [← hid]
      exact hentry.1
    · rw [hevents]
      exact h.recorded.once
    · -- two transactions do not have the same device in flight
      refine hkept x hmem ?_
      have hjs := h.stages j
      rcases hx with hx | hx
      · rw [hx] at hjs
        obtain ⟨-, -, t, k, ls, hproc, -⟩ := hjs
        intro hid
        refine h.orderly.apart hj (a := .put .devices { x with revokedAt := some t })
          (b := .put .devices { d with revokedAt := some revokedAt }) ?_ ?_ ?_
        · rw [hproc]
          exact List.mem_cons_self
        · rw [hwrites]
          exact List.mem_cons_self
        · exact congrArg (LockKey.row .devices) (congrArg Key.uuid hid)
      · exact hfree j x hx
    · rcases hupdate hj with ⟨hji, hs'⟩ | ⟨-, hold⟩
        <;> rcases hupdate hj' with ⟨hji', hs''⟩ | ⟨-, hold'⟩
      · rw [hji, hji']
      · cases hs'
        exact absurd hid.symm (hfree j' x' hold')
      · cases hs''
        exact absurd hid (hfree j x hold)
      · exact h.alone j j' x x' hold hold' hid
    · rw [hevents]
      rcases hupdate hj with ⟨rfl, hs'⟩ | ⟨-, hj⟩
      · cases hs'
        exact hsilent
      · exact h.owed j x hj
  | audit d e hentry hdb =>
    have hi := h.stages i
    rw [hstage] at hi
    obtain ⟨⟨hd, hrevoked⟩, -⟩ := hi
    have hdevices : w'.sh.db.devices = w.sh.db.devices := by
      rw [hdb]
      exact applyAll_rows_of_ne (t := .devices) _ _ (by simp)
    have hevents : ∀ x ∈ w'.sh.db.events, x = e ∨ x ∈ w.sh.db.events := by
      intro x hx
      rw [hdb] at hx
      have hput : x ∈ putRow (Table.key .events) e w.sh.db.events :=
        put_rows_self w.sh.db .events e ▸ hx
      exact mem_putRow hput
    have hsilent := h.owed i d hstage
    have howed : ∀ {j x}, Function.update stage i .done j = .auditing x → j ≠ i ∧
        stage j = .auditing x :=
      fun hj => (hupdate hj).resolve_left fun hdone => absurd hdone.2 (by simp)
    refine ⟨horderly, hdevices ▸ h.keyed, ⟨fun x hx htype => ?_, fun x hx y hy id hnx hny => ?_⟩,
      hstages fun j _ => (h.stages j).mono fun d _ => ?_, fun j j' x x' hj hj' => ?_,
      fun j x hj y hy hnames => ?_⟩
    · rw [hdevices]
      rcases hevents x hx with rfl | hx
      · exact ⟨d, hd, hrevoked, hentry⟩
      · exact h.recorded.named x hx htype
    · rcases hevents x hx with rfl | hx' <;> rcases hevents y hy with rfl | hy'
      · rfl
      · exact absurd (names_inj hjson hnx hentry.1 ▸ hny) (hsilent y hy')
      · exact absurd (names_inj hjson hny hentry.1 ▸ hnx) (hsilent x hx')
      · exact h.recorded.once x hx' y hy' id hnx hny
    · rw [hdevices]
      exact id
    · exact h.alone j j' x x' (howed hj).2 (howed hj').2
    · obtain ⟨hji, hj⟩ := howed hj
      rcases hevents y hy with rfl | hy
      · exact hji (h.alone j i x d hj hstage (names_inj hjson hnames hentry.1))
      · exact h.owed j x hj y hy hnames

/-- **The log of revocations** in every state of every run. -/
theorem recorded_run (hjson : ∀ v : EventData, v.FloatFree → lib.jsonb v = v)
    {ctx : PlatformContext} (hctx : ctx.lib = lib) (calls : Pid → Metadata × String)
    (hprogs : ∀ i, w.procs i = ⟨Account.revokeDevice ctx (calls i).1 (calls i).2, none⟩)
    (hkeyed : Keyed (Table.key .devices) w.sh.db.devices) (hrecorded : Recorded lib w.sh.db)
    (hr : World.Run World.anyStep w w') : Recorded lib w'.sh.db := by
  subst hctx
  have hstart : ∃ stage, Following ctx.lib w stage := by
    refine ⟨fun _ => .before, World.orderly_start fun i => by rw [hprogs], hkeyed,
      hrecorded, fun i => ?_, fun i j d d' h => by simp at h, fun i d h => by simp at h⟩
    rw [hprogs]
    exact ⟨until_revokeDevice, fun w hw => absurd hw List.not_mem_nil⟩
  obtain ⟨stage, h⟩ := hr.induct (fun w => ∃ stage, Following ctx.lib w stage) hstart
    fun w i c w' ⟨stage, h⟩ hs _ => by
      obtain ⟨s', h'⟩ := h.step hjson hs
      exact ⟨_, h'⟩
  exact h.recorded

end Runs

end SylvaServer.Revocation
