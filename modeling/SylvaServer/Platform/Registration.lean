/-
  App registrations: who may write a row of `platform.registered_apps`.

  RegisterApp looks for the publisher's key on the pool and upserts the declaration in a transaction
  of its own, so trust may be gone by the time of the upsert. What remains true in every run
  is that the fields of a row come from one declaration whose signature verified under a key
  found, during that call, for the publisher it names.

  Proved: what each statement makes of a row (`lawful_upsertApp`, `lawful_adminOp`), what a step
  makes of the registry (`kept_step`), and for every run that registrations have a source and
  stay what they are (`registrations_stable`) and are replaced by signed declarations only
  (`takeover_signed`). `publisher_replaced` is a run in which the publisher of an app changes.
-/
import SylvaServer.Model.Footprints
import SylvaServer.Model.Platform
import SylvaServer.Model.Resources

namespace SylvaServer.Registry

open ReadCommitted ReadCommitted.Prog Platform Resources

/-! ## Calls -/

/-- An operation of the registry that has no handler yet. -/
inductive AdminOp where
  | addTrustedPublisher (publisher : String) (publicKey : Bytes) (addedBy : Option Uuid)
  | removeTrustedPublisher (publisher : String)
  | setAppStatus (id : Uuid) (status : String)
  | deleteApp (id : Uuid)

def AdminOp.statement : AdminOp → Statement Unit
  | .addTrustedPublisher publisher publicKey addedBy =>
    Registry.addTrustedPublisher publisher publicKey addedBy
  | .removeTrustedPublisher publisher => fun env mem db =>
    readAs (fun _ => .ok ()) (Registry.removeTrustedPublisher publisher env mem db)
  | .setAppStatus id status => fun env mem db =>
    readAs (fun _ => .ok ()) (Registry.setAppStatus id status env mem db)
  | .deleteApp id => fun env mem db => readAs (fun _ => .ok ()) (Registry.deleteApp id env mem db)

/-- Some operations in the open transaction. -/
def inOrder : List AdminOp → Query Unit
  | [] => pure ()
  | op :: ops => do
    inTx op.statement
    inOrder ops

/-- A call that concerns the registry. -/
inductive AppCall where
  | register (metadata : Metadata) (req : RegisterAppRequest)
  | create (metadata : Metadata) (req : CreateResourceRequest)
  /-- One operation on the pool. -/
  | admin (op : AdminOp)
  /-- Operations in one transaction. -/
  | adminTx (ops : List AdminOp)

def AppCall.program (lib : Libs) : AppCall → Rpc Unit
  | .register metadata req => do
    let _ ← registerApp lib metadata req
    pure ()
  | .create metadata req => do
    let _ ← createResource lib metadata req
    pure ()
  | .admin op => (onPool op.statement).mapError fun _ => internal "registry"
  | .adminTx ops =>
    (do
      beginTx
      inOrder ops
      commitTx : Query Unit).mapError fun _ => internal "registry"

/-- The operations of a call. -/
def AppCall.ops : AppCall → List AdminOp
  | .admin op => [op]
  | .adminTx ops => ops
  | _ => []

/-! ## What becomes of a row -/

/-- The declared fields of a row. -/
def declared (app : RegisteredApp) : AppDeclaration where
  appIdentifier := app.appIdentifier
  displayName := app.displayName
  publisher := app.publisher
  appPublicKey := app.appPublicKey
  schemaVersion := app.schemaVersion
  resourceTypes := app.resourceTypes

/-- The signature of a declaration verifies under a key trusted for the publisher it names. -/
def Signed (lib : Libs) (decl : AppDeclaration) (signature : Bytes) (db : Db) : Prop :=
  ∃ p ∈ db.trustedPublishers, p.publisher = decl.publisher ∧
    verifyDeclarationSignature lib p.publicKey decl signature = true

/-- What a call keeps of a row; only `set_app_status` changes the status. -/
structure Kept (call : AppCall) (app app' : RegisteredApp) : Prop where
  id : app'.id = app.id
  appIdentifier : app'.appIdentifier = app.appIdentifier
  createdAt : app'.createdAt = app.createdAt
  registeredBy : app'.registeredBy = app.registeredBy
  status : app'.status = app.status ∨ .setAppStatus app.id app'.status ∈ call.ops

theorem Kept.refl (call : AppCall) (app : RegisteredApp) : Kept call app app :=
  ⟨rfl, rfl, rfl, rfl, Or.inl rfl⟩

theorem Kept.trans {call : AppCall} {a b c : RegisteredApp} (h : Kept call a b)
    (h' : Kept call b c) :
    Kept call a c where
  id := h'.id.trans h.id
  appIdentifier := h'.appIdentifier.trans h.appIdentifier
  createdAt := h'.createdAt.trans h.createdAt
  registeredBy := h'.registeredBy.trans h.registeredBy
  status := by
    rcases h'.status with hs | hs
    · rw [hs]
      exact h.status
    · rw [h.id] at hs
      exact Or.inr hs

/-- A row deleted, or kept with its declaration. -/
def Administered (call : AppCall) (v v' : Option RegisteredApp) : Prop :=
  ∀ app', v' = some app' → ∃ app, v = some app ∧ Kept call app app' ∧ declared app' = declared app

/-- A row with a new declaration. -/
def Redeclared (call : AppCall) (decl : AppDeclaration) (v v' : Option RegisteredApp) : Prop :=
  (∃ app', v' = some app' ∧ declared app' = decl) ∧
    ∀ app, v = some app → ∃ app', v' = some app' ∧ Kept call app app'

/-- What a call may always do to a row. -/
def AppCall.Routine (call : AppCall) (v v' : Option RegisteredApp) : Prop :=
  match call with
  | .register _ _ => False
  | .create _ _ => False
  | .admin _ => Administered call v v'
  | .adminTx _ => Administered call v v'

/-- What a call has to look for first. -/
def AppCall.Checks (lib : Libs) (call : AppCall) (db : Db) : Prop :=
  match call with
  | .register _ req => Signed lib req.decl req.signature db
  | _ => False

/-- What a call may do to a row after that. -/
def AppCall.Granted (call : AppCall) (v v' : Option RegisteredApp) : Prop :=
  match call with
  | .register _ req => Redeclared call req.decl v v'
  | _ => False

/-! ## Statements -/

section Statements

variable {env : Env} {mem : Mem} {db : Db}

theorem get_of_find? {app : RegisteredApp} {p : RegisteredApp → Bool}
    (hkeyed : Keyed (Table.key .registeredApps) db.registeredApps)
    (h : db.registeredApps.find? p = some app) :
    db.get .registeredApps (.uuid app.id) = some app :=
  get_of_mem hkeyed (List.mem_of_find?_eq_some h)

theorem lawful_upsertApp (call : AppCall) (decl : AppDeclaration) (registeredBy : Option Uuid)
    (hkeyed : Keyed (Table.key .registeredApps) db.registeredApps) :
    (Table.view .registeredApps).Lawful (fun _ => Redeclared call decl) db
      (upsertApp decl registeredBy env mem db).writes := by
  unfold upsertApp
  split
  · next app hfind =>
    refine lawful_put ?_
    have hid : app.appIdentifier = decl.appIdentifier := by simpa using List.find?_some hfind
    show Redeclared call decl (db.get .registeredApps (.uuid app.id)) _
    rw [get_of_find? hkeyed hfind]
    refine ⟨⟨_, rfl, ?_⟩, fun a ha => ⟨_, rfl, ?_⟩⟩
    · simp only [declared, hid]
    · obtain rfl := Option.some.inj ha
      exact ⟨rfl, rfl, rfl, rfl, Or.inl rfl⟩
  · refine lawful_insertRow ⟨⟨_, rfl, rfl⟩, fun a ha => ?_⟩
    exact absurd ha (by simp)

theorem upsertApp_table {decl : AppDeclaration} {registeredBy : Option Uuid} :
    ∀ w ∈ (upsertApp decl registeredBy env mem db).writes, w.table = .registeredApps := by
  unfold upsertApp
  split
  · simp
  · exact insertRow_table

/-- Entries of `registered_apps_app_identifier_key`. -/
abbrev identifierEntry (app : RegisteredApp) : Option String := some app.appIdentifier

theorem index_upsertApp (decl : AppDeclaration) (registeredBy : Option Uuid)
    (hkeyed : Keyed (Table.key .registeredApps) db.registeredApps)
    (hunique : (Table.view .registeredApps).Unique (Option.bind · identifierEntry) db) :
    (Table.view .registeredApps).Unique (Option.bind · identifierEntry)
        (applyAll db (upsertApp decl registeredBy env mem db).writes) ∧
      (Table.view .registeredApps).Entered (Option.bind · identifierEntry) LockKey.appIdentifier db
        (applyAll db (upsertApp decl registeredBy env mem db).writes)
        (upsertApp decl registeredBy env mem db).locks := by
  unfold upsertApp
  split
  · next app hfind =>
    refine View.index_of_kept hunique (lawful_put fun e he => ?_)
    show (db.get .registeredApps (.uuid app.id)).bind identifierEntry = some e
    rw [get_of_find? hkeyed hfind]
    exact he
  · next hnone =>
    refine index_insertRow hunique hkeyed (fun _ r hr e he he' => ?_) fun e he => ?_
    · have hne := List.find?_eq_none.mp hnone r hr
      simp only [identifierEntry, Option.some.injEq] at he he'
      exact hne (by simp [he, he'])
    · simp only [identifierEntry, Option.some.injEq] at he
      simp [← he]

theorem addTrustedPublisher_table {publisher : String} {publicKey : Bytes} {addedBy : Option Uuid} :
    ∀ w ∈ (addTrustedPublisher publisher publicKey addedBy env mem db).writes,
      w.table = .trustedPublishers := by
  intro w hw
  unfold addTrustedPublisher at hw
  simp only at hw
  split at hw
  · split at hw
    · simp [failed] at hw
    · simp only [List.mem_singleton] at hw
      rw [hw]
      rfl
  · exact insertRow_table w (readAs_writes w hw)

theorem deleteApp_writes {id : Uuid} : ∀ w ∈ (deleteApp id env mem db).writes,
    w.table = .registeredApps ∨ ∃ k, w = .delete .resources k := by
  intro w hw
  unfold deleteApp at hw
  split at hw
  · simp at hw
  · rcases List.mem_append.mp hw with hw | hw
    · exact Or.inl (deleteRows_table w hw)
    · simp only [deleteRows, List.mem_map] at hw
      obtain ⟨r, -, rfl⟩ := hw
      exact Or.inr ⟨_, rfl⟩

/-- What the operations write. -/
theorem adminOp_writes (op : AdminOp) : ∀ w ∈ (op.statement env mem db).writes,
    w.table = .trustedPublishers ∨ w.table = .registeredApps ∨ ∃ k, w = .delete .resources k := by
  intro w hw
  cases op with
  | addTrustedPublisher publisher publicKey addedBy => exact Or.inl (addTrustedPublisher_table w hw)
  | removeTrustedPublisher publisher =>
    exact Or.inl (deleteRows_table w (readAs_writes w (readAs_writes w hw)))
  | setAppStatus id status =>
    exact Or.inr (Or.inl (updateRows_table w (readAs_writes w (readAs_writes w hw))))
  | deleteApp id => exact Or.inr (deleteApp_writes w (readAs_writes w hw))

/-- What an operation makes of a row. -/
theorem lawful_adminOp (call : AppCall) {op : AdminOp} (hop : op ∈ call.ops)
    (hkeyed : Keyed (Table.key .registeredApps) db.registeredApps) :
    (Table.view .registeredApps).Lawful (fun _ => Administered call) db
      (op.statement env mem db).writes := by
  have hpublisher : ∀ ws : List Write, (∀ w ∈ ws, w.table = .trustedPublishers) →
      (Table.view .registeredApps).Lawful (fun _ => Administered call) db ws := by
    intro ws hws
    refine lawful_elsewhere fun w hw => ?_
    rw [hws w hw]
    simp
  cases op with
  | addTrustedPublisher publisher publicKey addedBy => exact hpublisher _ addTrustedPublisher_table
  | removeTrustedPublisher publisher =>
    exact hpublisher _ fun w hw => deleteRows_table w (readAs_writes w (readAs_writes w hw))
  | setAppStatus id status =>
    refine lawful_readAs (lawful_readAs (lawful_updateRows _ hkeyed (fun r => rfl) ?_))
    intro app _ hid app' happ'
    obtain rfl := Option.some.inj happ'
    have hid : app.id = id := by simpa using hid
    exact ⟨app, rfl, ⟨rfl, rfl, rfl, rfl, Or.inr (by rwa [hid])⟩, rfl⟩
  | deleteApp id =>
    refine lawful_readAs ?_
    unfold Registry.deleteApp
    split
    · trivial
    · refine View.lawful_append.mpr ⟨lawful_deleteRows hkeyed fun app _ _ app' happ' => ?_, ?_⟩
      · exact absurd happ' (by simp)
      · refine lawful_elsewhere fun w hw => ?_
        rw [deleteRows_table w hw]
        simp

theorem index_adminOp (op : AdminOp) (hkeyed : Keyed (Table.key .registeredApps) db.registeredApps)
    (hunique : (Table.view .registeredApps).Unique (Option.bind · identifierEntry) db) :
    (Table.view .registeredApps).Unique (Option.bind · identifierEntry)
        (applyAll db (op.statement env mem db).writes) ∧
      (Table.view .registeredApps).Entered (Option.bind · identifierEntry) LockKey.appIdentifier db
        (applyAll db (op.statement env mem db).writes) (op.statement env mem db).locks := by
  have hlawful : (Table.view .registeredApps).Lawful (fun _ => Administered (.admin op)) db
      (op.statement env mem db).writes := lawful_adminOp (.admin op)
        (List.mem_singleton_self op) hkeyed
  refine View.index_of_kept hunique (hlawful.mono fun k v v' hv e he => ?_)
  obtain ⟨app', rfl, he⟩ := Option.bind_eq_some_iff.mp he
  obtain ⟨app, rfl, hkept, -⟩ := hv app' rfl
  rw [← he]
  exact congrArg some hkept.appIdentifier.symm

end Statements

/-! ## Programs -/

section Programs

variable (lib : Libs)

theorem avoids_createResource {t : Table} (hsessions : .sessions ≠ t) (hresources : .resources ≠ t)
    (metadata : Metadata) (req : CreateResourceRequest) :
    (createResource lib metadata req).Obeys (avoids t) := by
  have hcreate : ∀ new env mem db, ∀ w ∈ (ResourceRepository.create new env mem db).writes,
      w.table ≠ t := by
    intro new env mem db w hw
    unfold ResourceRepository.create at hw
    cases hseq : nextval mem.changeSeq with
    | error e =>
      rw [hseq] at hw
      simp [failed] at hw
    | ok changeSeq =>
      rw [hseq] at hw
      rw [insertRow_table w hw]
      exact hresources
  refine obeys_bind (avoids_authenticate hsessions lib metadata) fun user => ?_
  unfold createResource.as
  generalize (trim req.resourceType).isEmpty = blank
  refine obeys_ite trivial ?_
  exact obeys_bind trivial fun appId => obeys_bind (avoids_onPool _ (avoids_select _)) fun app =>
    obeys_bind trivial fun _ => obeys_bind trivial fun new =>
      obeys_bind (avoids_onPool _ (hcreate new)) fun row => trivial

/-- The writes of a registration, within rules for its upsert. -/
theorem obeys_write {R : Rules Env Db Write LockKey Mem SqlError} (user : User)
    (decl : AppDeclaration) (hbegin : R.begin)
    (hupsert : ∀ registeredBy, R.stmt (upsertApp decl registeredBy))
    (happend : ∀ actor appId eventType eventData,
      (Audit.append lib actor appId eventType eventData).Obeys R) :
    (registerApp.write lib user decl).Obeys R := by
  refine obeys_bind (obeys_mapError _ ⟨hbegin, fun _ => trivial⟩) fun _ => ?_
  refine obeys_bind (obeys_mapError _ ⟨hupsert _, fun _ => trivial⟩) fun row => ?_
  exact obeys_bind (obeys_mapError _ (happend _ _ _ _)) fun _ =>
    obeys_bind (obeys_mapError _ fun _ => trivial) fun _ => trivial

/-- RegisterApp, within rules for its parts. -/
theorem obeys_registerApp {R : Rules Env Db Write LockKey Mem SqlError} {metadata : Metadata}
    {req : RegisterAppRequest} (hauth : (authenticate lib metadata).Obeys R)
    (hpool : R.pool (getTrustedPublisher req.publisher))
    (hwrite : ∀ user, (registerApp.write lib user req.decl).Obeys R) :
    (registerApp lib metadata req).Obeys R := by
  refine obeys_bind hauth fun user => ?_
  generalize ((trim req.appIdentifier).isEmpty || (trim req.displayName).isEmpty ||
    (trim req.publisher).isEmpty) = blank
  refine obeys_ite trivial (obeys_bind (obeys_mapError _ ⟨hpool, fun _ => trivial⟩) fun found => ?_)
  cases found with
  | none => trivial
  | some publisher => exact obeys_ite trivial (hwrite user)

/-- Operations of the registry, within rules for each of them. -/
theorem obeys_admin {R : Rules Env Db Write LockKey Mem SqlError} {call : AppCall}
    (hbegin : R.begin) (hstmt : ∀ op ∈ call.ops, R.stmt op.statement)
    (hpool : ∀ op ∈ call.ops, R.pool op.statement)
    (hcall : (∃ op, call = .admin op) ∨ ∃ ops, call = .adminTx ops) :
    (call.program lib).Obeys R := by
  have horder : ∀ ops : List AdminOp, (∀ op ∈ ops, R.stmt op.statement) →
      (inOrder ops).Obeys R := by
    intro ops h
    induction ops with
    | nil => trivial
    | cons op ops ih =>
      exact obeys_bind ⟨h op (by simp), fun _ => trivial⟩ fun _ => ih fun o ho => h o (by simp [ho])
  rcases hcall with ⟨op, rfl⟩ | ⟨ops, rfl⟩
  · exact obeys_mapError _ ⟨hpool op (List.mem_singleton_self op), fun _ => trivial⟩
  · exact obeys_mapError _ (obeys_bind ⟨hbegin, fun _ => trivial⟩ fun _ =>
      obeys_bind (horder ops hstmt) fun _ => fun _ => trivial)

/-- **RegisterApp writes only what it has found a signature for.** -/
theorem gated_program (call : AppCall) :
    (call.program lib).Gated ((Table.view .registeredApps).rules fun _ => call.Routine)
      fun d q => call.Checks lib d ∧
        q.Obeys ((Table.view .registeredApps).rules fun _ => call.Granted) := by
  cases call with
  | register metadata req =>
    refine gated_followed (P := fun d q => Signed lib req.decl req.signature d ∧
      q.Obeys ((Table.view .registeredApps).rules fun _ => Redeclared
        (.register metadata req) req.decl))
      ?_ (fun _ => trivial) fun d q hq => ⟨hq.1, obeys_bind hq.2 fun _ => trivial⟩
    refine gated_bind (obeys_view (avoids_authenticate (by decide) lib metadata)) fun user => ?_
    generalize ((trim req.appIdentifier).isEmpty || (trim req.displayName).isEmpty ||
      (trim req.publisher).isEmpty) = blank
    refine gated_ite trivial ?_
    refine gated_query _ (fun _ _ _ _ => trivial) (fun _ _ _ => ⟨rfl, rfl⟩)
      fun env m d found hfound => ?_
    cases found with
    | none => exact Or.inl trivial
    | some publisher =>
      have hfind : d.trustedPublishers.find? (·.publisher == req.publisher) = some publisher :=
        Except.ok.inj hfound
      by_cases hverify : verifyDeclarationSignature lib publisher.publicKey req.decl req.signature
      · refine Or.inr ⟨⟨publisher, List.mem_of_find?_eq_some hfind, ?_, hverify⟩, ?_⟩
        · show publisher.publisher = req.publisher
          simpa using List.find?_some hfind
        · simp only [hverify, Bool.not_true, Bool.false_eq_true, if_false]
          refine obeys_write lib user req.decl trivial (fun by' env m db hkeyed => ?_)
            fun _ _ _ _ => obeys_view (avoids_append (by decide) lib _ _ _ _)
          exact lawful_upsertApp _ _ _ hkeyed
      · left
        simp only [hverify, Bool.not_false, if_true]
        trivial
  | create metadata req =>
    exact gated_of_obeys (obeys_bind
      (obeys_view (avoids_createResource lib (by decide) (by decide) metadata req))
        fun _ => trivial)
  | admin op =>
    exact gated_of_obeys (obeys_admin lib trivial (fun op hop env mem db hkeyed =>
      lawful_adminOp (.admin _) hop hkeyed) (fun op hop env mem db hkeyed =>
      lawful_adminOp (.admin _) hop hkeyed) (Or.inl ⟨_, rfl⟩))
  | adminTx ops =>
    exact gated_of_obeys (obeys_admin lib trivial (fun op hop env mem db hkeyed =>
      lawful_adminOp (.adminTx _) hop hkeyed) (fun op hop env mem db hkeyed =>
      lawful_adminOp (.adminTx _) hop hkeyed) (Or.inr ⟨_, rfl⟩))

/-- Every call keeps the identifiers unique. -/
theorem index_program (call : AppCall) : (call.program lib).Obeys
    ((Table.view .registeredApps).indexRules (Option.bind · identifierEntry)
      LockKey.appIdentifier) := by
  cases call with
  | register metadata req =>
    refine obeys_bind
      (obeys_registerApp lib (obeys_index (avoids_authenticate (by decide) lib metadata))
      (fun env m d _ hunique => View.index_of_kept hunique trivial) fun user => ?_) fun _ => trivial
    exact obeys_write lib user req.decl trivial (fun by' env m db hkeyed hunique =>
      index_upsertApp _ _ hkeyed hunique) fun _ _ _ _ => obeys_index
        (avoids_append (by decide) lib _ _ _ _)
  | create metadata req =>
    exact obeys_bind (obeys_index (avoids_createResource lib (by decide) (by decide) metadata req))
      fun _ => trivial
  | admin op =>
    exact obeys_admin lib trivial (fun op _ env mem db hkeyed hunique =>
      index_adminOp op hkeyed hunique) (fun op _ env mem db hkeyed hunique =>
      index_adminOp op hkeyed hunique) (Or.inl ⟨_, rfl⟩)
  | adminTx ops =>
    exact obeys_admin lib trivial (fun op _ env mem db hkeyed hunique =>
      index_adminOp op hkeyed hunique) (fun op _ env mem db hkeyed hunique =>
      index_adminOp op hkeyed hunique) (Or.inr ⟨_, rfl⟩)

theorem avoids_registerApp {t : Table} (hsessions : .sessions ≠ t) (happs : .registeredApps ≠ t)
    (hevents : .events ≠ t) (metadata : Metadata) (req : RegisterAppRequest) :
    (registerApp lib metadata req).Obeys (avoids t) := by
  refine obeys_registerApp lib (avoids_authenticate hsessions lib metadata) (avoids_select _)
    fun user => obeys_write lib user req.decl trivial (fun by' env m d w hw => ?_)
      fun _ _ _ _ => avoids_append hevents lib _ _ _ _
  rw [upsertApp_table w hw]
  exact happs

/-- A registration writes no resource, other calls may. -/
theorem resources_program (call : AppCall) : (call.program lib).Obeys
    ((Table.view .resources).rules fun _ _ _ => ∀ metadata req, call ≠ .register metadata req) := by
  by_cases hcall : ∃ metadata req, call = .register metadata req
  · obtain ⟨metadata, req, rfl⟩ := hcall
    exact obeys_view (obeys_bind
      (avoids_registerApp lib (by decide) (by decide) (by decide) metadata req) fun _ => trivial)
  · have hall : ∀ metadata req, call ≠ .register metadata req := fun m r he => hcall ⟨m, r, he⟩
    exact obeys_all trivial (fun s env m d _ => View.lawful_true fun _ _ _ => hall)
      (fun s env m d _ => View.lawful_true fun _ _ _ => hall) fun _ => trivial

end Programs

/-! ## Runs -/

/-- What a call may make of a row in one commit. -/
def AppCall.Preserves (call : AppCall) (v v' : Option RegisteredApp) : Prop :=
  match call with
  | .admin _ | .adminTx _ => Administered call v v'
  | _ => ∀ app, v = some app → ∃ app', v' = some app' ∧ Kept call app app'

section Preserves

variable {call : AppCall} {v v' v'' : Option RegisteredApp}

theorem administered_refl : Administered call v v :=
  fun app happ => ⟨app, happ, Kept.refl call app, rfl⟩

theorem Administered.trans (h : Administered call v v') (h' : Administered call v' v'') :
    Administered call v v'' := by
  intro c hc
  obtain ⟨b, hb, hbc, hdecl⟩ := h' c hc
  obtain ⟨a, ha, hab, hdecl'⟩ := h b hb
  exact ⟨a, ha, hab.trans hbc, hdecl.trans hdecl'⟩

theorem preserves_refl : call.Preserves v v := by
  cases call with
  | register m r => exact fun app happ => ⟨app, happ, Kept.refl _ app⟩
  | create m r => exact fun app happ => ⟨app, happ, Kept.refl _ app⟩
  | admin op => exact administered_refl
  | adminTx ops => exact administered_refl

theorem AppCall.Preserves.trans (h : call.Preserves v v') (h' : call.Preserves v' v'') :
    call.Preserves v v'' := by
  have hkept : (∀ app, v = some app → ∃ app', v' = some app' ∧ Kept call app app') →
      (∀ app, v' = some app → ∃ app', v'' = some app' ∧ Kept call app app') →
      ∀ app, v = some app → ∃ app', v'' = some app' ∧ Kept call app app' := by
    intro h h' a ha
    obtain ⟨b, hb, hab⟩ := h a ha
    obtain ⟨c, hc, hbc⟩ := h' b hb
    exact ⟨c, hc, hab.trans hbc⟩
  cases call with
  | register m r => exact hkept h h'
  | create m r => exact hkept h h'
  | admin op => exact Administered.trans h h'
  | adminTx ops => exact Administered.trans h h'

theorem preserves_of_routine (h : call.Routine v v') : call.Preserves v v' := by
  cases call with
  | register m r => exact h.elim
  | create m r => exact h.elim
  | admin op => exact h
  | adminTx ops => exact h

theorem preserves_of_granted (h : call.Granted v v') : call.Preserves v v' := by
  cases call with
  | register m r => exact h.2
  | create m r => exact h.elim
  | admin op => exact h.elim
  | adminTx ops => exact h.elim

end Preserves

/-- The call registers this declaration, and its signature verifies under a key trusted now for
    the publisher it names. -/
def AppCall.Declares (lib : Libs) (call : AppCall) (decl : AppDeclaration) (db : Db) : Prop :=
  ∃ metadata req, call = .register metadata req ∧ req.decl = decl ∧ Signed lib decl req.signature db

section Runs

variable {lib : Libs} {Pid : Type} [DecidableEq Pid] [Fintype Pid] {calls : Pid → AppCall}
  {es : List (ServerEvent Pid Unit)} {w₀ w w' : Server Pid Unit} {i : Pid} {c : Choice Env SqlError}

/-- No call has begun; the constraints of the tables hold. -/
structure Beginning (lib : Libs) (calls : Pid → AppCall) (w : Server Pid Unit) : Prop where
  procs : ∀ i, w.procs i = ⟨(calls i).program lib, none⟩
  keys : w.sh.db.PrimaryKeys
  identifiers : (w.sh.db.registeredApps.map RegisteredApp.appIdentifier).Nodup

/-- What holds at every moment of a run. -/
structure Registered (lib : Libs) (calls : Pid → AppCall) (es : List (ServerEvent Pid Unit))
    (w : Server Pid Unit) : Prop where
  vouched : Vouched (Table.view .registeredApps) (fun i _ => (calls i).Routine)
    (fun i _ => (calls i).Granted) (fun i => (calls i).Checks lib) es w
  indexed : Indexed (Table.view .registeredApps) (Option.bind · identifierEntry)
    LockKey.appIdentifier w
  resources : Versioned (Table.view .resources)
    (fun i _ _ _ => ∀ metadata req, calls i ≠ .register metadata req) w

theorem registered_trace {C : List (ServerEvent Pid Unit) → ServerEvent Pid Unit → Prop}
    (hb : Beginning lib calls w₀) (ht : World.Trace C w₀ es w) : Registered lib calls es w := by
  have hnone : ∀ i, (w₀.procs i).tx = none := fun i => by rw [hb.procs i]
  have hunique : ∀ a ∈ w₀.sh.db.registeredApps, ∀ b ∈ w₀.sh.db.registeredApps, ∀ e,
      identifierEntry a = some e → identifierEntry b = some e → a = b := by
    intro a ha b hb' e he he'
    exact List.inj_on_of_nodup_map hb.identifiers ha hb' (Option.some.inj (he.trans he'.symm))
  refine ⟨Vouched.trace hnone (hb.keys _) (fun i => ?_) ht, ?_, ?_⟩
  · rw [hb.procs i]
    exact gated_program lib (calls i)
  · refine Indexed.trace (.start hnone (hb.keys _) (fun i => ?_) (unique_of_rows hunique)) ht
    rw [hb.procs i]
    exact index_program lib (calls i)
  · refine (Versioned.trace ⟨.start hnone (hb.keys _), fun i => ?_⟩ ht).1
    rw [hb.procs i]
    exact resources_program lib (calls i)

/-- What a step makes of the row of an id. -/
theorem Registered.preserves (h : Registered lib calls es w) (hs : w.step i c = some w') (k : Key) :
    (calls i).Preserves (w.sh.db.get .registeredApps k) (w'.sh.db.get .registeredApps k) := by
  have hchain : ∀ v v', Relation.ReflTransGen (fun v v' => (calls i).Routine v v' ∨
      (Witnessed (fun i => (calls i).Checks lib) es i ∧ (calls i).Granted v v')) v v' →
      (calls i).Preserves v v' := by
    intro v v' hvv'
    induction hvv' with
    | refl => exact preserves_refl
    | tail _ hT ih =>
      refine ih.trans ?_
      rcases hT with hroutine | ⟨-, hgranted⟩
      · exact preserves_of_routine hroutine
      · exact preserves_of_granted hgranted
  exact hchain _ _ (h.vouched.flight.cell hs k)

omit [DecidableEq Pid] [Fintype Pid] in
/-- Identifiers are unique. -/
theorem Registered.unique (h : Registered lib calls es w) {a b : RegisteredApp}
    (ha : a ∈ w.sh.db.registeredApps) (hb : b ∈ w.sh.db.registeredApps)
    (hab : a.appIdentifier = b.appIdentifier) : a = b :=
  unique_rows h.indexed.unique h.indexed.sound ha hb rfl (congrArg some hab.symm)

/-- **What a step keeps** of a row that is there before and after. -/
theorem kept_step (h : Registered lib calls es w) (hs : w.step i c = some w')
    (h' : Registered lib calls (⟨w, i, c, w'⟩ :: es) w') {app app' : RegisteredApp}
    (happ : app ∈ w.sh.db.registeredApps) (happ' : app' ∈ w'.sh.db.registeredApps)
    (hsame : app'.id = app.id ∨ app'.appIdentifier = app.appIdentifier) :
    Kept (calls i) app app' := by
  have hget := get_of_mem h.indexed.sound happ
  have hget' := get_of_mem h'.indexed.sound happ'
  have hforward : (∀ k, ∀ a, w.sh.db.get .registeredApps k = some a →
      ∃ a', w'.sh.db.get .registeredApps k = some a' ∧ Kept (calls i) a a') →
      Kept (calls i) app app' := by
    intro hall
    obtain ⟨a', ha', hkept⟩ := hall _ app hget
    obtain ⟨hmem, -⟩ := mem_of_get ha'
    rcases hsame with hid | hidentifier
    · rwa [h'.indexed.sound.eq happ' hmem (congrArg Key.uuid (hid.trans hkept.id.symm))]
    · rwa [h'.unique happ' hmem (hidentifier.trans hkept.appIdentifier.symm)]
  have hbackward : (∀ k, Administered (calls i) (w.sh.db.get .registeredApps k)
      (w'.sh.db.get .registeredApps k)) → Kept (calls i) app app' := by
    intro hall
    obtain ⟨a, ha, hkept, -⟩ := hall _ app' hget'
    obtain ⟨hmem, -⟩ := mem_of_get ha
    rcases hsame with hid | hidentifier
    · rwa [h.indexed.sound.eq happ hmem (congrArg Key.uuid (hid.symm.trans hkept.id))]
    · rwa [h.unique happ hmem (hidentifier.symm.trans hkept.appIdentifier)]
  have hpres := h.preserves hs
  unfold AppCall.Preserves at hpres
  split at hpres
  · exact hbackward hpres
  · exact hbackward hpres
  · exact hforward hpres

/-- Where the declaration of a row comes from: from the row before, or from this call. -/
theorem source_step (h : Registered lib calls es w) (hs : w.step i c = some w')
    {app' : RegisteredApp} (happ' : w'.sh.db.get .registeredApps (.uuid app'.id) = some app') :
    (∃ app ∈ w.sh.db.registeredApps, app.id = app'.id ∧ declared app = declared app') ∨
      ∃ e ∈ es, e.pid = i ∧ (calls i).Declares lib (declared app') e.before.sh.db := by
  have hchain : ∀ v v', Relation.ReflTransGen (fun v v' => (calls i).Routine v v' ∨
      (Witnessed (fun i => (calls i).Checks lib) es i ∧ (calls i).Granted v v')) v v' →
      ∀ app', v' = some app' → (∃ app, v = some app ∧ declared app = declared app') ∨
        ∃ e ∈ es, e.pid = i ∧ (calls i).Declares lib (declared app') e.before.sh.db := by
    intro v v' hvv'
    induction hvv' with
    | refl => exact fun app' ha => Or.inl ⟨app', ha, rfl⟩
    | @tail u _ _ hT ih =>
      intro app' ha
      rcases hT with hroutine | ⟨⟨e, he, hpid, hchecks⟩, hgranted⟩
      · have hadmin : ∃ app, u = some app ∧ Kept (calls i) app app' ∧
            declared app' = declared app := by
          unfold AppCall.Routine at hroutine
          split at hroutine
          · exact hroutine.elim
          · exact hroutine.elim
          · exact hroutine app' ha
          · exact hroutine app' ha
        obtain ⟨app, happ, -, hdecl⟩ := hadmin
        rw [hdecl]
        exact ih app happ
      · right
        unfold AppCall.Granted at hgranted
        split at hgranted
        · next metadata req hcall =>
          obtain ⟨⟨a, ha', hdecl⟩, -⟩ := hgranted
          obtain rfl := Option.some.inj (ha.symm.trans ha')
          refine ⟨e, he, hpid, metadata, req, hcall, hdecl.symm, ?_⟩
          rw [hcall] at hchecks
          rw [hdecl]
          exact hchecks
        · exact hgranted.elim
  rcases hchain _ _ (h.vouched.flight.cell hs (.uuid app'.id)) app' happ'
    with ⟨app, happ, hdecl⟩ | hd
  · obtain ⟨hmem, hkey⟩ := mem_of_get happ
    exact Or.inl ⟨app, hmem, Key.uuid.inj hkey, hdecl⟩
  · exact Or.inr hd

/-- The registry after a run: identifiers are unique, every declaration has a source, and no step
    changes a row in more than it should. -/
structure Stable (lib : Libs) (calls : Pid → AppCall) (w₀ : Server Pid Unit)
    (es : List (ServerEvent Pid Unit)) (w : Server Pid Unit) : Prop where
  identifiers : (w.sh.db.registeredApps.map RegisteredApp.appIdentifier).Nodup
  /-- A declaration from the beginning, or of a call that has found its signature to verify. -/
  source : ∀ app ∈ w.sh.db.registeredApps,
    (∃ app₀ ∈ w₀.sh.db.registeredApps, app₀.id = app.id ∧ declared app₀ = declared app) ∨
      ∃ e ∈ es, (calls e.pid).Declares lib (declared app) e.before.sh.db
  kept : ∀ e ∈ es, ∀ app ∈ e.before.sh.db.registeredApps, ∀ app' ∈ e.after.sh.db.registeredApps,
    app'.id = app.id ∨ app'.appIdentifier = app.appIdentifier → Kept (calls e.pid) app app'
  /-- RegisterApp neither enables, disables nor removes an app, nor touches a resource. -/
  register : ∀ e ∈ es, ∀ metadata req, calls e.pid = .register metadata req →
    (∀ app ∈ e.before.sh.db.registeredApps, ∃ app' ∈ e.after.sh.db.registeredApps,
      app'.id = app.id ∧ app'.status = app.status) ∧
    e.after.sh.db.resources = e.before.sh.db.resources

/-- What a step of RegisterApp leaves alone. -/
theorem register_step (h : Registered lib calls es w) (hs : w.step i c = some w')
    {metadata : Metadata} {req : RegisterAppRequest} (hcall : calls i = .register metadata req) :
    (∀ app ∈ w.sh.db.registeredApps, ∃ app' ∈ w'.sh.db.registeredApps,
      app'.id = app.id ∧ app'.status = app.status) ∧
    w'.sh.db.resources = w.sh.db.resources := by
  constructor
  · intro app happ
    have hpres := h.preserves hs (.uuid app.id)
    rw [hcall] at hpres
    obtain ⟨app', happ', hkept⟩ := hpres app (get_of_mem h.indexed.sound happ)
    refine ⟨app', (mem_of_get happ').1, hkept.id, ?_⟩
    exact hkept.status.resolve_right (List.not_mem_nil)
  · rw [Proc.step_db (World.step_spec hs).1]
    have hfalse := h.resources.flight.committed hs
    exact rows_of_lawful_false (hfalse.mono fun _ _ _ hall => hall metadata req hcall)

/-- **Registrations have a source and stay what they are**, in every run of RegisterApp,
    CreateResource and the operations of the registry. -/
theorem registrations_stable (hb : Beginning lib calls w₀)
    (ht : World.Trace World.anyEvent w₀ es w) : Stable lib calls w₀ es w := by
  have hreg := registered_trace hb ht
  refine ⟨?_, ?_, fun e he => ?_, fun e he metadata req hcall => ?_⟩
  · have hnodup : w.sh.db.registeredApps.Nodup := List.Nodup.of_map _ hreg.indexed.sound
    exact hnodup.map_on fun a ha b hb' hab => hreg.unique ha hb' hab
  · clear hreg
    induction ht with
    | start => exact fun app happ => Or.inl ⟨app, happ, rfl, rfl⟩
    | @step es w w' i c ht hs hC ih =>
      intro app' happ'
      have hreg := registered_trace hb ht
      have hreg' := registered_trace hb (ht.step i c hs hC)
      rcases source_step hreg hs (get_of_mem hreg'.indexed.sound happ') with
        ⟨app, happ, hid, hdecl⟩ | ⟨e, he, hpid, hd⟩
      · rw [← hid, ← hdecl]
        exact (ih app happ).imp_right fun ⟨e, he, hd⟩ => ⟨e, List.mem_cons_of_mem _ he, hd⟩
      · exact Or.inr ⟨e, List.mem_cons_of_mem _ he, hpid ▸ hd⟩
  · obtain ⟨es', -, ht', hs, -⟩ := ht.event he
    intro app happ app' happ'
    exact kept_step (registered_trace hb ht') hs (registered_trace hb (ht'.step _ _ hs trivial))
      happ happ'
  · obtain ⟨es', -, ht', hs, -⟩ := ht.event he
    exact register_step (registered_trace hb ht') hs hcall

/-- **A registration is replaced by a signed declaration only.** When a step of a run changes what
    is declared for an identifier, it belongs to a RegisterApp of that declaration, which at
    an earlier step had found a trusted key of the publisher it names to verify the signature. -/
theorem takeover_signed (hb : Beginning lib calls w₀) (ht : World.Trace World.anyEvent w₀ es w)
    (hs : w.step i c = some w') {app app' : RegisteredApp} (happ : app ∈ w.sh.db.registeredApps)
    (happ' : app' ∈ w'.sh.db.registeredApps) (hsame : app'.appIdentifier = app.appIdentifier) :
    declared app' = declared app ∨
      ∃ e ∈ es, e.pid = i ∧ (calls i).Declares lib (declared app') e.before.sh.db := by
  have hreg := registered_trace hb ht
  have hreg' := registered_trace hb (ht.step i c hs trivial)
  refine (source_step hreg hs (get_of_mem hreg'.indexed.sound happ')).imp_left ?_
  rintro ⟨a, ha, -, hdecl⟩
  have hidentifier : a.appIdentifier = app'.appIdentifier :=
    congrArg AppDeclaration.appIdentifier hdecl
  rw [← hreg.unique ha happ (hidentifier.trans hsame), hdecl]

end Runs

/-! ## Two publishers -/

/-- A stand-in for Ed25519: the signature of a message is the key and a digest. -/
def signedLibs : Libs := { Libs.sample with
  verifyStrict := fun key m signature => signature == key ++ Libs.sample.sha256 m.reverse }

/-- A declaration of the tasks app, signed by a publisher. -/
def tasksBy (publisher : String) (key : Bytes) : RegisterAppRequest :=
  let unsigned : RegisterAppRequest :=
    { appIdentifier := "garden.ubivera.tasks"
      displayName := "Tasks"
      publisher := publisher
      appPublicKey := List.replicate 32 7
      schemaVersion := 1
      resourceTypes := ["task"]
      signature := [] }
  { unsigned with
    signature := key ++ Libs.sample.sha256 (canonicalDeclarationBytes unsigned.decl).reverse }

/-- Two publishers register the same identifier. -/
def twoPublishers (i : Bool) : AppCall :=
  if i then .register Sample.asAnn (tasksBy "Another, Inc" (List.replicate 32 6))
  else .register Sample.asAnn (tasksBy "Ubivera, LLC" (List.replicate 32 5))

/-- Both publishers are trusted, nothing is registered. -/
def trusting : Server Bool Unit where
  procs i := ⟨(twoPublishers i).program signedLibs, none⟩
  sh :=
    { db := ⟨fun
        | .users => [Sample.ann]
        | .sessions => [Sample.annSession]
        | .trustedPublishers =>
          [⟨"Ubivera, LLC", List.replicate 32 5, none, ⟨0⟩⟩,
            ⟨"Another, Inc", List.replicate 32 6, none, ⟨0⟩⟩]
        | _ => []⟩
      mem := Mem.fresh }

theorem trusting_beginning : Beginning signedLibs twoPublishers trusting where
  procs _ := rfl
  keys t := by cases t <;> decide +kernel
  identifiers := List.nodup_nil

/-- The theorem after both calls. -/
theorem registrations_stable_two : ∃ es w, World.Trace World.anyEvent trusting es w ∧
    w.sh.db.registeredApps.length = 1 ∧ Stable signedLibs twoPublishers trusting es w := by
  have hrun : (trusting.follow (Sample.steps false 40 12 ++ Sample.steps true 41 12)).isSome := by
    decide +kernel
  obtain ⟨es, -, ht⟩ := World.trace_reach (C := World.anyEvent)
    (fun _ _ _ _ _ => trivial) .start hrun
  exact ⟨es, _, ht, by decide +kernel, registrations_stable trusting_beginning ht⟩

/-- The first call has returned, the second comes to its commit. -/
def secondDue : Server Bool Unit :=
  trusting.reach (Sample.steps false 40 12 ++ Sample.steps true 41 11)

/-- The theorem where the second call commits. -/
theorem takeover_signed_two : ∃ es w w' app app', World.Trace World.anyEvent trusting es w ∧
    w.step true (Sample.calm 41) = some w' ∧ app ∈ w.sh.db.registeredApps ∧
    app' ∈ w'.sh.db.registeredApps ∧ app'.appIdentifier = app.appIdentifier ∧
    (declared app' = declared app ∨ ∃ e ∈ es, e.pid = true ∧
      (twoPublishers true).Declares signedLibs (declared app') e.before.sh.db) := by
  have hrun : (trusting.follow (Sample.steps false 40 12 ++ Sample.steps true 41 11)).isSome := by
    decide +kernel
  obtain ⟨es, -, ht⟩ := World.trace_reach (C := World.anyEvent)
    (fun _ _ _ _ _ => trivial) .start hrun
  have ht : World.Trace World.anyEvent trusting es secondDue := ht
  have hstep : (secondDue.follow [(true, Sample.calm 41)]).isSome := by decide +kernel
  have hs := World.step_reach hstep
  have hrow : ∃ app ∈ secondDue.sh.db.registeredApps,
      ∃ app' ∈ (secondDue.reach [(true, Sample.calm 41)]).sh.db.registeredApps,
      app'.appIdentifier = app.appIdentifier := by decide +kernel
  obtain ⟨app, happ, app', happ', hsame⟩ := hrow
  exact ⟨es, _, _, app, app', ht, hs, happ, happ', hsame,
    takeover_signed trusting_beginning ht hs happ happ' hsame⟩

/-- **The publisher of an app changes**: the second call replaces what the first one declared. -/
theorem publisher_replaced : Beginning signedLibs twoPublishers trusting ∧
    ∃ w w', World.Run World.anyStep trusting w ∧ World.Run World.anyStep w w' ∧
      ∃ app ∈ w.sh.db.registeredApps, ∃ app' ∈ w'.sh.db.registeredApps, app'.id = app.id ∧
        app'.appIdentifier = app.appIdentifier ∧ app.publisher = "Ubivera, LLC" ∧
        app'.publisher = "Another, Inc" :=
  ⟨trusting_beginning, _, _, World.run_followD _ (Sample.steps false 40 12),
    World.run_followD _ (Sample.steps true 41 12), by decide +kernel⟩

end SylvaServer.Registry
