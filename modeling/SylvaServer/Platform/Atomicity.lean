/-
  Audited operations are atomic with their audit event.

  The seven handlers look around on the pool, and then do everything they do in one transaction that
  ends with the audit event (and, for a bootstrap, the session). The only thing outside it is the
  `last_seen_at` that `authenticate` bumps on the pool and whose failure it ignores.

  Proved: whatever fails on the way, a handler that returns has committed all its writes at once,
  exactly one event of its type among them, and a handler that fails leaves every table as it was
  but for `last_seen_at` (`Atomic`, one instance for each handler). With the log of revocations,
  which are audited after they are committed, this is `audited_operations`.
-/
import SylvaServer.Model.Machine
import SylvaServer.Model.Platform
import SylvaServer.Platform.Revocation
import SylvaServer.ReadCommitted.OneTransaction

namespace SylvaServer.Atomicity

open ReadCommitted ReadCommitted.Prog

/-! ## What atomic means -/

/-- The tables, but for `sessions.last_seen_at`. -/
structure Unchanged (db db' : Db) : Prop where
  others : SameBut .sessions db db'
  sessions : (db'.sessions.map fun s => { s with lastSeenAt := none }) =
    db.sessions.map fun s => { s with lastSeenAt := none }

/-- A session gets a new `last_seen_at`. -/
def Stamp (db : Db) (w : Write) : Prop :=
  ∃ s ∈ db.sessions, ∃ seenAt, w = .put .sessions { s with lastSeenAt := some seenAt }

/-- All writes `ws` but stamps are those of one commit, and one of them is the event. -/
def Committed (eventType : String) (db : Db) (ws : List Write) (cs : List (List Write))
    (db' : Db) : Prop :=
  ∃ stamps us event db₁, ws = stamps ++ us ∧ (∀ w ∈ stamps, Stamp db w) ∧
    (cs = [us] ∨ cs = [stamps, us]) ∧ Unchanged db db₁ ∧ db' = applyAll db₁ us ∧
    us.filter (fun w => decide (w.table = .events)) = [.put .events event] ∧
    event.eventType = eventType ∧ db'.events = db.events ++ [event]

/-- Every way to the end of the handler: `ws` are the writes of its statements, `cs` its commits. -/
def Atomic {α : Type} (eventType : String) (p : Rpc α) : Prop :=
  ∀ (xs : List (Choice Env SqlError)) (sh sh' : Shared) (r : Except Status α),
    Keyed (Table.key .sessions) sh.db.sessions →
    Proc.run xs ⟨p, none⟩ sh = some (⟨.ret r, none⟩, sh') →
    ∃ ws cs tx', Ends p none sh ws cs r tx' sh' ∧
      match r with
      | .ok _ => Committed eventType sh.db ws cs sh'.db
      | .error _ => Unchanged sh.db sh'.db

theorem Unchanged.refl (db : Db) : Unchanged db db := ⟨fun _ _ => rfl, rfl⟩

/-! ## Transactions with one event -/

variable {α β : Type} {eventType : String}

/-- The rest of a transaction that adds exactly one event. -/
structure Audits (eventType : String) (q : Rpc α) : Prop where
  closes : q.Closes
  event : ∀ {us : List Write} {ls sh ws cs a tx' sh'}, Ends q (some (.active us ls)) sh ws cs
    (.ok a) tx' sh' →
    ∃ us₁ event us₂, ws = us₁ ++ .put .events event :: us₂ ∧ (∀ w ∈ us₁ ++ us₂, w.table ≠ .events) ∧
      event.eventType = eventType ∧ ∀ r ∈ (applyAll sh.db (us ++ us₁)).events, r.seqno ≠ event.seqno

/-- A part before the event. -/
theorem audits_bind {p : Rpc β} {f : β → Rpc α} (hp : p.Inside) (hevents : p.Obeys (avoids .events))
    (hf : ∀ b, Audits eventType (f b)) : Audits eventType (p >>= f) where
  closes := closes_bind hp fun b => (hf b).closes
  event := by
    intro us ls sh ws cs a tx' sh' h
    obtain ⟨b, ws₁, ws₂, ls', sh₁, hfirst, hdb, hrest, rfl⟩ := h.through_inside hp
    obtain ⟨us₁, event, us₂, rfl, hothers, htype, hfresh⟩ := (hf b).event hrest
    refine ⟨ws₁ ++ us₁, event, us₂, (List.append_assoc ..).symm, fun w hw => ?_, htype, ?_⟩
    · rw [List.append_assoc] at hw
      exact (List.mem_append.mp hw).elim (hfirst.made hevents w) (hothers w)
    · rw [← List.append_assoc, ← hdb]
      exact hfresh

/-- The event, and what comes after it. -/
theorem audits_append (lib : Libs) (actor : Option Audit.Actor) (appId : Option String)
    (eventData : EventData) (g : SqlError → Status) {f : AuditEvent → Rpc α}
    (hf : ∀ e, (f e).Closes) (hevents : ∀ e, (f e).Obeys (avoids .events)) :
    Audits eventType ((Audit.append lib actor appId eventType eventData).mapError g >>= f) where
  closes := closes_bind (inside_mapError g (inside_append ..)) hf
  event := by
    intro us ls sh ws cs a tx' sh' h
    obtain ⟨event, ws₁, ws₂, ls', sh₁, hfirst, -, hrest, rfl⟩ :=
      h.through_inside (inside_mapError g (inside_append ..))
    obtain ⟨rfl, htype, -, -, hfresh⟩ := append_made hfirst.mapError_ok
    refine ⟨[], event, ws₂, rfl, hrest.made (hevents event), htype, ?_⟩
    rw [List.append_nil]
    exact hfresh

/-- The writes of such a transaction. -/
theorem Audits.ends {q : Rpc α} {sh sh' : Shared} {ws : List Write} {cs : List (List Write)} {a : α}
    {tx' : Option _} (hq : Audits eventType q)
    (h : Ends q (some (.active [] [])) sh ws cs (.ok a) tx' sh') :
    ∃ event, ws.filter (fun w => decide (w.table = .events)) = [.put .events event] ∧
      event.eventType = eventType ∧ (applyAll sh.db ws).events = sh.db.events ++ [event] := by
  obtain ⟨us₁, event, us₂, rfl, hothers, htype, hfresh⟩ := hq.event h
  have hnone : ∀ us : List Write, (∀ w ∈ us, w ∈ us₁ ++ us₂) →
      us.filter (fun w => decide (w.table = .events)) = [] :=
    fun us hus => List.filter_eq_nil_iff.mpr fun w hw =>
      mt of_decide_eq_true (hothers w (hus w hw))
  have hfilter : (us₁ ++ .put .events event :: us₂).filter (fun w => decide (w.table = .events)) =
      [.put .events event] := by
    rw [List.filter_append, hnone us₁ fun w => List.mem_append_left _,
      List.filter_cons_of_pos (by simp), hnone us₂ fun w => List.mem_append_right _]
    rfl
  have hsame : (applyAll sh.db us₁).events = sh.db.events :=
    applyAll_rows_of_ne (t := .events) _ _ fun w hw => hothers w (List.mem_append_left _ hw)
  refine ⟨event, hfilter, htype, ?_⟩
  show (applyAll sh.db _).rows .events = _
  rw [applyAll_rows_filter, hfilter]
  refine put_rows_fresh fun r hr he => ?_
  rw [List.nil_append] at hfresh
  exact hfresh r (hsame.symm ▸ hr) (Key.seqno.inj he)

/-! ## The handlers -/

variable {sh sh' : Shared} {ws : List Write} {cs : List (List Write)}
  {tx' : Option (Tx Write LockKey)}

theorem unchanged_touchLastSeen (sessionId : Uuid) (env : Env) (mem : Mem) {db : Db}
    (hkeyed : Keyed (Table.key .sessions) db.sessions) :
    Unchanged db (applyAll db (SessionRepository.touchLastSeen sessionId env mem db).writes) := by
  refine ⟨fun t ht => applyAll_rows_of_ne _ _ fun w hw => ?_, ?_⟩
  · rw [updateRows_table w (readAs_writes w hw)]
    exact Ne.symm ht
  · show ((applyAll db (updateRows .sessions _ _ mem db).writes).rows .sessions).map _ =
        (db.rows .sessions).map _
    rw [updateRows_rows (t := .sessions)
      (f := fun s : Session => { s with lastSeenAt := some env.pgNow }) mem hkeyed
      fun s => rfl, List.map_map]
    refine List.map_congr_left fun s _ => ?_
    rw [Function.comp_apply]
    split <;> rfl

/-- All that `authenticate` does is a stamp. -/
theorem authenticate_unchanged {lib : Libs} {metadata : Metadata} {r : Except Status User}
    (hkeyed : Keyed (Table.key .sessions) sh.db.sessions)
    (h : Ends (authenticate lib metadata) none sh ws cs r tx' sh') :
    tx' = none ∧ (∀ w ∈ ws, Stamp sh.db w) ∧ (cs = [] ∨ cs = [ws]) ∧ Unchanged sh.db sh'.db := by
  have hquiet : ws = [] → cs = [] → (∀ w ∈ ws, Stamp sh.db w) ∧ (cs = [] ∨ cs = [ws]) ∧
      Unchanged sh.db sh'.db := by
    rintro rfl rfl
    refine ⟨fun w hw => absurd hw List.not_mem_nil, Or.inl rfl, ?_⟩
    rw [h.db_eq]
    exact .refl _
  have hlook : ∀ {γ : Type} (read : Env → Db → γ), ((onPool (select read)).mapError
      (fun _ => invalidSession) : Rpc γ).Looks := fun read =>
        looks_mapError _ (looks_onPool fun _ _ _ => rfl)
  have hdb := h.db_eq
  unfold authenticate at h
  rcases h.looked (looks_ofExcept _) with ⟨e, -, hws, hcs, htx⟩ | ⟨token, sh₁, hdb₁, h₁⟩
  · exact ⟨htx, hquiet hws hcs⟩
  rcases h₁.looked (hlook _) with ⟨e, -, hws, hcs, htx⟩ | ⟨session, sh₂, hdb₂, h₂⟩
  · exact ⟨htx, hquiet hws hcs⟩
  cases session with
  | none =>
    cases h₂
    exact ⟨rfl, hquiet rfl rfl⟩
  | some session =>
    rcases h₂.looked (hlook _) with ⟨e, -, hws, hcs, htx⟩ | ⟨user, sh₃, hdb₃, h₃⟩
    · exact ⟨htx, hquiet hws hcs⟩
    cases user with
    | none =>
      cases h₃
      exact ⟨rfl, hquiet rfl rfl⟩
    | some user =>
      have hsame : sh₃.db = sh.db := hdb₃.trans (hdb₂.trans hdb₁)
      obtain ⟨-, htx, rfl | ⟨env, rfl⟩, hcs⟩ := h₃.tried
      · exact ⟨htx, hquiet rfl (hcs.elim id id)⟩
      · refine ⟨htx, fun w hw => ?_, ?_, ?_⟩
        · have hmem : w ∈ (updateRows .sessions _ _ _ _).writes := readAs_writes w hw
          simp only [updateRows, List.mem_map, List.mem_filter] at hmem
          obtain ⟨_, ⟨s, ⟨hs, -⟩, rfl⟩, rfl⟩ := hmem
          exact ⟨s, hsame ▸ hs, _, rfl⟩
        · unfold poolCommit at hcs
          split at hcs
          · exact Or.inl (hcs.elim id id)
          · exact hcs
        · rw [hdb]
          rcases hcs with rfl | rfl
          · exact .refl _
          · rw [flatten_poolCommit, hsame]
            exact unchanged_touchLastSeen _ _ _ hkeyed

/-- What comes after `authenticate`, or a whole handler that does not call it. -/
theorem ends_of_opens {p : Rpc α} {r : Except Status α} (hp : p.Opens (Audits eventType))
    (h : Ends p none sh ws cs r tx' sh') : (∃ e, r = .error e ∧ sh'.db = sh.db) ∨
      ∃ a event, r = .ok a ∧ cs = [ws] ∧ sh'.db = applyAll sh.db ws ∧
        ws.filter (fun w => decide (w.table = .events)) = [.put .events event] ∧
        event.eventType = eventType ∧ (applyAll sh.db ws).events = sh.db.events ++ [event] := by
  have hdb := h.db_eq
  rcases h.opened hp with ⟨e, hr, rfl⟩ | ⟨q, sh₁, hq, hdb₁, hrest⟩
  · exact Or.inl ⟨e, hr, hdb⟩
  rcases hrest.closed hq.closes with ⟨e, hr, rfl⟩ | ⟨a, rfl, rfl⟩
  · exact Or.inl ⟨e, hr, hdb⟩
  · obtain ⟨event, hfilter, htype, hevents⟩ := hq.ends hrest
    rw [List.nil_append, List.flatten_singleton] at hdb
    rw [hdb₁] at hevents
    exact Or.inr ⟨a, event, rfl, rfl, hdb, hfilter, htype, hevents⟩

theorem atomic_of_opens {p : Rpc α} (hp : p.Opens (Audits eventType)) : Atomic eventType p := by
  intro xs sh sh' r _ hrun
  obtain ⟨ws, cs, tx', h⟩ := ends_of_run hrun
  refine ⟨ws, cs, tx', h, ?_⟩
  rcases ends_of_opens hp h with ⟨e, rfl, hdb⟩ | ⟨a, event, rfl, rfl, hdb, hfilter, htype, hevents⟩
  · show Unchanged _ _
    rw [hdb]
    exact .refl _
  · exact ⟨[], ws, event, sh.db, rfl, fun w hw => absurd hw List.not_mem_nil, Or.inl rfl, .refl _,
      hdb, hfilter, htype, hdb ▸ hevents⟩

/-- A handler that calls `authenticate` first. -/
theorem atomic_of_authenticate {lib : Libs} {metadata : Metadata} {f : User → Rpc α}
    (hf : ∀ user, (f user).Opens (Audits eventType)) :
    Atomic eventType (authenticate lib metadata >>= f) := by
  intro xs sh sh' r hkeyed hrun
  obtain ⟨ws, cs, tx', h⟩ := ends_of_run hrun
  refine ⟨ws, cs, tx', h, ?_⟩
  rcases h.bind with ⟨e, rfl, hauth⟩ | ⟨user, ws₁, cs₁, tx₁, sh₁, ws₂, cs₂, hauth, hrest, rfl, rfl⟩
  · exact (authenticate_unchanged hkeyed hauth).2.2.2
  · obtain ⟨rfl, hstamps, hcs, hunchanged⟩ := authenticate_unchanged hkeyed hauth
    rcases ends_of_opens (hf user) hrest with ⟨e, rfl, hdb⟩ | ⟨a, event, rfl, rfl, hdb, hfilter,
      htype, hevents⟩
    · show Unchanged _ _
      rw [hdb]
      exact hunchanged
    · refine ⟨ws₁, ws₂, event, sh₁.db, rfl, hstamps, ?_, hunchanged, hdb, hfilter, htype, ?_⟩
      · rcases hcs with rfl | rfl
        · exact Or.inl rfl
        · exact Or.inr rfl
      · rw [hdb, hevents]
        exact congrArg (· ++ [event]) (hunchanged.others .events (by decide))

/-! ### Their statements -/

section Handlers

variable (ctx : PlatformContext) (metadata : Metadata)

theorem inside_createMachineSession (lib : Libs) (machineId : Uuid) (ttl : Int) :
    (MachineSessionRepository.create lib machineId ttl).Inside :=
  inside_bind (inside_critical _) fun _ => inside_bind (inside_critical _) fun _ =>
    inside_bind (inside_inTx _) fun _ => trivial

theorem avoids_createMachineSession (lib : Libs) (machineId : Uuid) (ttl : Int) :
    (MachineSessionRepository.create lib machineId ttl).Obeys (avoids .events) := by
  unfold MachineSessionRepository.create
  refine obeys_bind ⟨trivial, fun _ => trivial⟩ fun token =>
    obeys_bind ⟨trivial, fun _ => trivial⟩ fun now => ?_
  refine obeys_bind (avoids_inTx fun env mem db w hw => ?_) fun _ => trivial
  rw [insertRow_table w hw]
  decide

-- a handler is taken apart by its requests; unfolded whole, it takes too long
attribute [local irreducible] Prog.Opens Prog.Closes Prog.Inside Prog.Looks Prog.Obeys

theorem atomic_registerDevice (device : Option Account.DeviceEnrollment) :
    Atomic "device_registered" (Account.registerDevice ctx metadata device) := by
  refine atomic_of_authenticate fun user => ?_
  refine opens_bind (looks_ofExcept _) fun dev => opens_bind (looks_ofExcept _) fun _ =>
    opens_begin _ ?_
  refine audits_bind (inside_enrollDevice user dev)
    (avoids_enrollDevice (by decide) (by decide) user dev) fun device => ?_
  exact audits_append _ _ _ _ _ (fun _ => closes_commit _ _) fun _ => avoids_commit _ _

theorem atomic_updateDisplayName (newName : String) :
    Atomic "display_name_changed" (Account.updateDisplayName ctx metadata newName) := by
  refine atomic_of_authenticate fun user => opens_ite (opens_fail _) (opens_begin _ ?_)
  refine audits_bind (inside_mapError _ (inside_inTx _))
    (avoids_elsewhere (t := .users) _ (by decide) fun env mem db w hw =>
      updateRows_table w (readAs_writes w hw)) fun updated => ?_
  exact audits_append _ _ _ _ _ (fun _ => closes_commit _ _) fun _ => avoids_commit _ _

theorem atomic_updateEmail (req : Account.UpdateEmailRequest) :
    Atomic "email_changed" (Account.updateEmail ctx metadata req) := by
  refine atomic_of_authenticate fun user => ?_
  refine opens_bind (looks_mapError _ (looks_verifyUserPassword _ _ _)) fun verified => ?_
  refine opens_ite (opens_fail _) (opens_ite (opens_fail _) (opens_begin _ ?_))
  refine audits_bind (inside_mapError _ (inside_inTx _))
    (avoids_elsewhere (t := .users) _ (by decide) fun env mem db w hw => ?_) fun updated => ?_
  · unfold UserRepository.updateEmail at hw
    split at hw
    · exact absurd hw List.not_mem_nil
    · have hmem := readAs_writes w hw
      simp only [updateRows, List.mem_map] at hmem
      obtain ⟨u, -, rfl⟩ := hmem
      rfl
  · exact audits_append _ _ _ _ _ (fun _ => closes_commit _ _) fun _ => avoids_commit _ _

theorem atomic_changePassword (req : Account.ChangePasswordRequest) :
    Atomic "password_changed" (Account.changePassword ctx metadata req) := by
  refine atomic_of_authenticate fun user => ?_
  refine opens_bind (looks_mapError _ (looks_verifyUserPassword _ _ _)) fun verified => ?_
  refine opens_ite (opens_fail _) (opens_ite (opens_fail _) ?_)
  refine opens_bind (looks_mapError _ (looks_hashPassword _ _)) fun phc => opens_begin _ ?_
  refine audits_bind (inside_mapError _ (inside_inTx _))
    (avoids_elsewhere (t := .credentials) _ (by decide)
    fun env mem db w hw => updateRows_table w (readAs_writes w hw)) fun _ => ?_
  refine audits_bind (inside_mapError _ (inside_inTx _))
    (avoids_elsewhere (t := .userKeys) _ (by decide)
    fun env mem db w hw => updateRows_table w (readAs_writes w hw)) fun _ => ?_
  exact audits_append _ _ _ _ _ (fun _ => closes_commitTx _) fun _ =>
    obeys_mapError _ obeys_commitTx

theorem atomic_bootstrap (req : Account.BootstrapRequest) :
    Atomic "owner_bootstrapped" (Account.bootstrap ctx metadata req) := by
  refine atomic_of_opens (opens_bind (looks_critical _) fun allowed => opens_ite (opens_fail _) ?_)
  refine opens_bind (looks_ofExcept _) fun checked => ?_
  refine opens_bind (looks_mapError _ (looks_onPool fun _ _ _ => rfl)) fun count => ?_
  refine opens_ite (opens_bind (looks_critical _) fun _ => opens_fail _) ?_
  refine opens_bind (looks_mapError _ (looks_hashPassword _ _)) fun phc => opens_begin _ ?_
  refine audits_bind (inside_mapError _ (inside_inTx _))
    (avoids_elsewhere (t := .users) _ (by decide) fun env mem db => insertRow_table) fun user => ?_
  refine audits_bind (inside_mapError _ (inside_inTx _))
    (avoids_elsewhere (t := .credentials) _ (by decide)
    fun env mem db w hw => insertRow_table w (readAs_writes w hw)) fun _ => ?_
  refine audits_bind (inside_mapError _ (inside_inTx _))
    (avoids_elsewhere (t := .userKeys) _ (by decide)
    fun env mem db w hw => insertRow_table w (readAs_writes w hw)) fun _ => ?_
  refine audits_bind (inside_enrollDevice _ _) (avoids_enrollDevice (by decide) (by decide) _ _)
    fun device => ?_
  refine audits_append _ _ _ _ _ (fun _ => ?_) fun _ => ?_
  · exact closes_bind (inside_mapError _ (inside_sessionCreate _ _ _ _ _)) fun _ =>
      closes_commit _ _
  · exact obeys_bind (obeys_mapError _ (avoids_createSession (by decide) _ _ _ _ _)) fun _ =>
      avoids_commit _ _

theorem atomic_registerMachine (req : MachineService.RegisterMachineRequest) :
    Atomic "machine_registered" (MachineService.registerMachine ctx metadata req) := by
  refine atomic_of_opens (opens_bind (looks_critical _) fun allowed => opens_ite (opens_fail _) ?_)
  refine opens_ite (opens_fail _) (opens_ite (opens_bind (looks_critical _) fun _ => opens_fail _)
    (opens_begin _ ?_))
  refine audits_bind (inside_mapError _ (inside_inTx _))
    (avoids_elsewhere (t := .machines) _ (by decide) fun env mem db w hw => ?_) fun machineId => ?_
  · unfold MachineRepository.registerOrUpdate at hw
    split at hw
    · rw [List.mem_singleton.mp hw]
      rfl
    · exact insertRow_table w (readAs_writes w hw)
  · refine audits_bind (inside_mapError _ (inside_createMachineSession _ _ _))
      (obeys_mapError _ (avoids_createMachineSession _ _ _)) fun session => ?_
    exact audits_append _ _ _ _ _ (fun _ => closes_commit _ _) fun _ => avoids_commit _ _

theorem atomic_registerApp (req : Platform.RegisterAppRequest) :
    Atomic "app_registered" (Platform.registerApp ctx.lib metadata req) := by
  refine atomic_of_authenticate fun user => opens_ite (opens_fail _) ?_
  refine opens_bind (looks_mapError _ (looks_onPool fun _ _ _ => rfl)) fun publisher => ?_
  cases publisher with
  | none => exact opens_fail _
  | some publisher =>
    refine opens_ite (opens_fail _) (opens_begin _ ?_)
    refine audits_bind (inside_mapError _ (inside_inTx _))
      (avoids_elsewhere (t := .registeredApps) _ (by decide)
      fun env mem db w hw => ?_) fun row => ?_
    · unfold Registry.upsertApp at hw
      split at hw
      · rw [List.mem_singleton.mp hw]
        rfl
      · exact insertRow_table w hw
    · exact audits_append _ _ _ _ _ (fun _ => closes_commit _ _) fun _ => avoids_commit _ _

end Handlers

/-- **Every audited operation and its event.** -/
theorem audited_operations (ctx : PlatformContext)
    (hjson : ∀ v : EventData, v.FloatFree → ctx.lib.jsonb v = v) :
    ((∀ metadata req, Atomic "owner_bootstrapped" (Account.bootstrap ctx metadata req)) ∧
      (∀ metadata device, Atomic "device_registered" (Account.registerDevice ctx metadata device)) ∧
      (∀ metadata newName, Atomic "display_name_changed"
        (Account.updateDisplayName ctx metadata newName)) ∧
      (∀ metadata req, Atomic "email_changed" (Account.updateEmail ctx metadata req)) ∧
      (∀ metadata req, Atomic "password_changed" (Account.changePassword ctx metadata req)) ∧
      (∀ metadata req, Atomic "machine_registered"
        (MachineService.registerMachine ctx metadata req)) ∧
      ∀ metadata req, Atomic "app_registered" (Platform.registerApp ctx.lib metadata req)) ∧
    ∀ {Pid : Type} [DecidableEq Pid] [Fintype Pid] (calls : Pid → Metadata × String)
      (w w' : Server Pid Unit),
      (∀ i, w.procs i = ⟨Account.revokeDevice ctx (calls i).1 (calls i).2, none⟩) →
      Keyed (Table.key .devices) w.sh.db.devices → Revocation.Recorded ctx.lib w.sh.db →
      World.Run World.anyStep w w' → Revocation.Recorded ctx.lib w'.sh.db :=
  ⟨⟨atomic_bootstrap ctx, atomic_registerDevice ctx, atomic_updateDisplayName ctx,
    atomic_updateEmail ctx,
    atomic_changePassword ctx, atomic_registerMachine ctx, atomic_registerApp ctx⟩,
    fun calls _ _ hprogs hkeyed hrecorded hr => Revocation.recorded_run hjson rfl calls hprogs
      hkeyed hrecorded hr⟩

/-! ### Ann changes her name, and revokes a laptop twice -/

def context : PlatformContext where
  lib := Libs.sample
  authRateLimiter := { capacity := 3, refillPerMs := 2, refill_nonneg := zero_le_two }
  trustProxy := false

def renamed : Option (Account.Profile × Shared) :=
  returned (Proc.run (List.replicate 11 (Sample.calm 7))
    ⟨Account.updateDisplayName context Sample.asAnn "Anna", none⟩ ⟨Sample.db, Mem.fresh⟩)

def laptop : Device where
  id := Sample.uuid 9
  userId := Sample.ann.id
  machineId := none
  deviceLabel := "Laptop"
  platform := "linux"
  devicePublicKey := [7]
  createdAt := ⟨0⟩
  lastSeenAt := none
  revokedAt := none

/-- Two requests to revoke the laptop. -/
def revocations : Server Bool Unit where
  procs _ := ⟨Account.revokeDevice context Sample.asAnn laptop.id.toString, none⟩
  sh := ⟨Sample.db.put .devices laptop, Mem.fresh⟩

/-- Both look for the session, one after the other comes to the `UPDATE`. -/
def bothRevoke : List (Bool × Choice Env SqlError) :=
  (List.replicate 3 [(true, Sample.calm 7), (false, Sample.calm 8)]).flatten ++
    Sample.steps true 7 9 ++ [(false, Sample.calm 8)]

example : (revocations.follow bothRevoke).map (fun w => w.sh.db.events.map AuditEvent.eventType) =
    some ["device_revoked"] := by decide +kernel

theorem renamed_returns : renamed.isSome := by decide +kernel

theorem audited_operations_ann : (∃ x, renamed = some x ∧
    ∃ ws cs, Committed "display_name_changed" Sample.db ws cs x.2.db) ∧
      ∀ cs, Revocation.Recorded Libs.sample ((revocations.follow cs).getD revocations).sh.db := by
  obtain ⟨⟨-, -, hrename, -⟩, hrevoke⟩ := audited_operations context fun _ _ => rfl
  have hcommitted : ∀ x, renamed = some x →
      ∃ ws cs, Committed "display_name_changed" Sample.db ws cs x.2.db := by
    intro x hx
    obtain ⟨ws, cs, -, -, hcommitted⟩ := hrename Sample.asAnn "Anna" _ _ _ _ (by decide +kernel)
      (returned_eq hx)
    exact ⟨ws, cs, hcommitted⟩
  have hnone : revocations.sh.db.events = [] := rfl
  refine ⟨⟨_, (Option.some_get renamed_returns).symm,
    hcommitted _ (Option.some_get renamed_returns).symm⟩, fun cs => ?_⟩
  refine hrevoke (fun _ => (Sample.asAnn, laptop.id.toString)) revocations _ (fun _ => rfl)
    (by decide +kernel) ?_ (World.run_followD _ _)
  refine ⟨fun e he => ?_, fun e he => ?_⟩ <;> rw [hnone] at he <;> exact absurd he List.not_mem_nil

end SylvaServer.Atomicity
