/-
  The app of a new resource.

  CreateResource reads the app on the pool, checks its status and its types, and inserts in a
  statement of its own. The foreign key keeps the app from being deleted in between; nothing keeps
  it from being disabled or from losing the type.

  Proved: what the calls keep of the tables (`guarded_step`), and that in every run in which no
  app is written against a CreateResource past its check (`Considerate`), every resource is
  committed under an enabled app that declares its type (`created_enabled`). `disabled_meanwhile`
  is a run in which an app is disabled between the check and the insert.
-/
import SylvaServer.Platform.Registration

namespace SylvaServer.Registry

open ReadCommitted ReadCommitted.Prog Platform Resources

/-! ## CreateResource past its check -/

/-- The app may have such a resource. -/
def Allows (app : RegisteredApp) (new : NewResource) : Prop :=
  app.status = "enabled" ∧ new.resourceType ∈ app.resourceTypes

/-- What is left of CreateResource after the check of the app. -/
def storing (new : NewResource) : Rpc Unit := do
  let _ ← (do
    let row ← (onPool (ResourceRepository.create new)).mapError createError
    pure (toProto row) : Rpc ProtoResource)
  pure ()

/-- A CreateResource that is past its check and has not ended. -/
def Unfinished (new : NewResource) (p : Running Unit) : Prop :=
  (storing new).Within p.prog ∧ ∀ r, p.prog ≠ .ret r

/-- A look at tables in which the app allows the resource to be stored next. -/
def Checked (db : Db) (q : Rpc Unit) : Prop :=
  ∃ new, (∃ app ∈ db.registeredApps, app.id = new.appId ∧ Allows app new) ∧ q = storing new

theorem checkApp_ok {app : Option RegisteredApp} {resourceType : String}
    (h : checkApp app resourceType = .ok ()) :
    ∃ a, app = some a ∧ a.status = "enabled" ∧ resourceType ∈ a.resourceTypes := by
  unfold checkApp at h
  split at h
  · exact absurd h (by simp)
  · next a =>
    split at h
    · exact absurd h (by simp)
    · next hstatus =>
      split at h
      · exact absurd h (by simp)
      · next htype =>
        exact ⟨a, rfl, by simpa using hstatus, by simpa using htype⟩

/-- Until the check CreateResource writes no resource. -/
theorem gated_createResource (lib : Libs) (metadata : Metadata) (req : CreateResourceRequest) :
    ((AppCall.create metadata req).program lib).Gated (avoids .resources) Checked := by
  refine gated_followed (P := fun d q => Checked d (q >>= fun _ => pure ())) ?_ (fun _ => trivial)
    fun d q hq => hq
  refine gated_bind (avoids_authenticate (by decide) lib metadata) fun user => ?_
  unfold createResource.as
  generalize (trim req.resourceType).isEmpty = blank
  refine gated_ite trivial ?_
  refine gated_bind trivial fun appId => gated_query _ (avoids_select _)
    (fun _ _ _ => ⟨rfl, rfl⟩) fun env m d found hfound => ?_
  have hfind : d.registeredApps.find? (·.id == appId) = found := Except.ok.inj hfound
  cases hcheck : checkApp found req.resourceType with
  | error e => exact Or.inl trivial
  | ok _ =>
    cases hnew : newResource lib user.id appId req with
    | error e => exact Or.inl trivial
    | ok new =>
      right
      obtain ⟨app, rfl, hstatus, htype⟩ := checkApp_ok hcheck
      obtain ⟨hid, hresourceType⟩ : new.appId = appId ∧ new.resourceType = req.resourceType := by
        unfold newResource at hnew
        simp only [bind, Except.bind, pure, Except.pure] at hnew
        split at hnew
        · exact absurd hnew (by simp)
        · split at hnew
          · exact absurd hnew (by simp)
          · obtain rfl := Except.ok.inj hnew
            exact ⟨rfl, rfl⟩
      refine ⟨new, ⟨app, List.mem_of_find?_eq_some hfind, ?_, hstatus, ?_⟩, rfl⟩
      · rw [hid]
        simpa using List.find?_some hfind
      · rw [hresourceType]
        exact htype

/-- CreateResource at work. -/
inductive Creating (db : Db) (p : Running Unit) : Prop where
  | before (hgated : p.prog.Gated (avoids .resources) Checked)
      (hwrites : ∀ w ∈ p.writes, w.table ≠ .resources)
  | checked (new : NewResource) (hp : p = ⟨storing new, none⟩)
      (hallows : ∀ app ∈ db.registeredApps, app.id = new.appId → Allows app new)
  | stored (new : NewResource) (row : Resource) (locks : List LockKey)
      (hunfinished : Unfinished new p) (hend : ∃ k, p.prog = .commit k ∧ ∀ r, ∃ x, k r = .ret x)
      (htx : p.tx = some (.active [.put .resources row] locks))
      (hrow : row.appId = new.appId ∧ row.resourceType = new.resourceType)
      (hlock : .keyShare .registeredApps (.uuid new.appId) .resources (.uuid row.id) ∈ locks)
      (happ : db.get .registeredApps (.uuid new.appId) ≠ none)
      (hallows : ∀ app ∈ db.registeredApps, app.id = new.appId → Allows app new)
  | done (r : Except Status Unit) (hp : p = ⟨.ret r, none⟩)

/-- The insert of a resource. -/
theorem create_cases (new : NewResource) (env : Env) (mem : Mem) (db : Db) :
    (∃ e, (ResourceRepository.create new env mem db).result = .error e) ∨
      ∃ row, (ResourceRepository.create new env mem db).result = .ok row ∧
        (ResourceRepository.create new env mem db).writes = [.put .resources row] ∧
        row.appId = new.appId ∧ row.resourceType = new.resourceType ∧
        .keyShare .registeredApps (.uuid new.appId) .resources (.uuid row.id) ∈
          (ResourceRepository.create new env mem db).locks ∧
        db.get .registeredApps (.uuid new.appId) ≠ none := by
  unfold ResourceRepository.create
  cases nextval mem.changeSeq with
  | error e => exact Or.inl ⟨_, rfl⟩
  | ok changeSeq =>
    dsimp only
    rcases insertRow_cases .resources _ _ _ _ _ db with ⟨e, h⟩ | ⟨h, -, -, hrefs⟩
    · exact Or.inl ⟨e, by rw [h]; rfl⟩
    · refine Or.inr ⟨_, by rw [h], by rw [h], rfl, rfl, ?_, ?_⟩
      · rw [h]
        simp [Table.key]
      · simp only [List.any_cons, List.any_nil, Bool.or_false, Bool.or_eq_false_iff] at hrefs
        intro hnone
        have hdangles := hrefs.2
        unfold Db.dangles at hdangles
        simp only [Bool.not_eq_false', List.any_eq_true, beq_iff_eq] at hdangles
        obtain ⟨app, happ, hkey⟩ := hdangles
        exact get_eq_none.mp hnone app happ hkey

theorem storing_eq (new : NewResource) : storing new = .pool (ResourceRepository.create new)
    fun r => .ret ((r.mapError createError).map fun _ => ()) := by
  unfold storing
  show Prog.pool _ _ = _
  congr 1
  funext r
  cases r <;> rfl

/-- CreateResource takes a step. -/
theorem Creating.own {p p' : Running Unit} {sh sh' : Shared} {c : Choice Env SqlError}
    (h : Creating sh.db p) (hkeyed : Keyed (Table.key .registeredApps) sh.db.registeredApps)
    (hs : p.step c sh = some (p', sh')) : Creating sh'.db p' := by
  cases h with
  | before hgated hwrites =>
    rcases Proc.gated_step hs hgated with hgated' | ⟨⟨new, ⟨app, happ, hid, hallows⟩, hnew⟩,
      -, htx, hdb⟩
    · exact .before hgated' (Proc.gated_writes (fun s hs => hs.elim id id) hs hgated hwrites)
    · refine .checked new (by rw [← hnew, ← htx]) fun a ha haid => ?_
      rw [hdb] at ha
      obtain rfl := hkeyed.eq ha happ (congrArg Key.uuid (haid.trans hid.symm))
      exact hallows
  | checked new hp hallows =>
    have hwithin : (storing new).Within p'.prog := by
      refine Proc.within_step hs ?_
      rw [hp]
      exact .refl
    rw [hp, storing_eq] at hs
    simp only [Proc.step] at hs
    split at hs
    · simp only [Option.some.injEq, Prod.mk.injEq] at hs
      obtain ⟨rfl, rfl⟩ := hs
      exact .done _ rfl
    · rcases create_cases new c.env sh.mem sh.db
        with ⟨e, he⟩ | ⟨row, hr, hw, happId, htype, hlock, happ⟩
      · simp only [he, Option.some.injEq, Prod.mk.injEq] at hs
        obtain ⟨rfl, rfl⟩ := hs
        exact .done _ rfl
      · simp only [hr, hw, List.isEmpty_cons, Bool.false_and, Bool.false_eq_true, if_false,
          Option.some.injEq, Prod.mk.injEq] at hs
        obtain ⟨rfl, rfl⟩ := hs
        exact .stored new row _ ⟨hwithin, fun r he => by simp at he⟩ ⟨_, rfl, fun r => ⟨_, rfl⟩⟩ rfl
          ⟨happId, htype⟩ (List.mem_append_right _ hlock) happ hallows
  | stored new row locks hunfinished hend htx hrow hlock happ hallows =>
    obtain ⟨k, hprog, hk⟩ := hend
    have hp : p = ⟨.commit k, some (.active [.put .resources row] locks)⟩ := by rw [← hprog, ← htx]
    rw [hp] at hs
    simp only [Proc.step] at hs
    split at hs <;> simp only [Option.some.injEq, Prod.mk.injEq] at hs <;> obtain ⟨rfl, rfl⟩ := hs
    · obtain ⟨x, hx⟩ := hk (.error _)
      exact .done x (by rw [hx])
    · obtain ⟨x, hx⟩ := hk (.ok ())
      exact .done x (by rw [hx])
  | done r hp =>
    rw [hp] at hs
    simp [Proc.step] at hs

/-- Others commit, and write no app against it. -/
theorem Creating.other {p : Running Unit} {db : Db} {ws : List Write} (h : Creating db p)
    (hkeyed : Keyed (Table.key .registeredApps) (applyAll db ws).registeredApps)
    (hreferred : ∀ id child ck, .keyShare .registeredApps (.uuid id) child ck ∈ p.locks →
      .delete .registeredApps (.uuid id) ∉ ws)
    (hallowed : ∀ app, .put .registeredApps app ∈ ws → ∀ new, Unfinished new p →
      new.appId = app.id → Allows app new) : Creating (applyAll db ws) p := by
  have hkeep : ∀ new, Unfinished new p →
      (∀ app ∈ db.registeredApps, app.id = new.appId → Allows app new) →
      ∀ app ∈ (applyAll db ws).registeredApps, app.id = new.appId → Allows app new := by
    intro new hunfinished hallows app happ hid
    rcases get_applyAll_cases (get_of_mem hkeyed happ) with hold | hput
    · exact hallows app (mem_of_get hold).1 hid
    · exact hallowed app hput new hunfinished hid.symm
  cases h with
  | before hgated hwrites => exact .before hgated hwrites
  | checked new hp hallows =>
    refine .checked new hp (hkeep new ⟨?_, fun r he => ?_⟩ hallows)
    · rw [hp]
      exact .refl
    · rw [hp, storing_eq] at he
      simp at he
  | stored new row locks hunfinished hend htx hrow hlock happ hallows =>
    refine .stored new row locks hunfinished hend htx hrow hlock ?_ (hkeep new hunfinished hallows)
    have hlocks : p.locks = locks := by
      unfold Proc.locks
      rw [htx]
    exact get_applyAll_of_kept happ (hreferred new.appId _ _ (hlocks ▸ hlock))
  | done r hp => exact .done r hp

/-! ## Runs -/

section Runs

variable {lib : Libs} {Pid : Type} [DecidableEq Pid] [Fintype Pid] {calls : Pid → AppCall}
  {es : List (ServerEvent Pid Unit)} {w₀ w w' : Server Pid Unit} {i : Pid} {c : Choice Env SqlError}

/-- No app is committed against a CreateResource past its check: the row committed is enabled and
    declares the type of every resource of that app about to be stored. -/
def Considerate (calls : Pid → AppCall) (_ : List (ServerEvent Pid Unit))
    (e : ServerEvent Pid Unit) :
    Prop :=
  ∀ app, .put .registeredApps app ∈ (e.before.procs e.pid).committed e.choice →
    ∀ j metadata req, calls j = .create metadata req →
      ∀ new, Unfinished new (e.before.procs j) → new.appId = app.id → Allows app new

/-- What a call may make of a resource: only CreateResource writes one. -/
def AppCall.Stores (call : AppCall) (v' : Option Resource) : Prop :=
  v' = none ∨ ∃ metadata req, call = .create metadata req

/-- Only CreateResource stores resources. -/
theorem stores_program (lib : Libs) (call : AppCall) : (call.program lib).Obeys
    ((Table.view .resources).rules fun _ _ v' => call.Stores v') := by
  have hadmin : ∀ (op : AdminOp) env m d, (Table.view .resources).Lawful
      (fun _ _ v' => call.Stores v') d (op.statement env m d).writes := by
    intro op env m d
    refine lawful_of_deletes (fun w hw => ?_) fun _ _ => Or.inl rfl
    rcases adminOp_writes op w hw with h | h | h
    · exact Or.inl (by rw [h]; simp)
    · exact Or.inl (by rw [h]; simp)
    · exact Or.inr h
  cases call with
  | register metadata req =>
    exact obeys_view (obeys_bind
      (avoids_registerApp lib (by decide) (by decide) (by decide) metadata req) fun _ => trivial)
  | create metadata req =>
    have hall : ∀ v', (AppCall.create metadata req).Stores v' := fun _ => Or.inr ⟨_, _, rfl⟩
    exact obeys_all trivial (fun s env m d _ => View.lawful_true fun _ _ v' => hall v')
      (fun s env m d _ => View.lawful_true fun _ _ v' => hall v') fun _ => trivial
  | admin op =>
    exact obeys_admin lib trivial (fun op _ env m d _ => hadmin op env m d)
      (fun op _ env m d _ => hadmin op env m d) (Or.inl ⟨_, rfl⟩)
  | adminTx ops =>
    exact obeys_admin lib trivial (fun op _ env m d _ => hadmin op env m d)
      (fun op _ env m d _ => hadmin op env m d) (Or.inr ⟨_, rfl⟩)

/-- Whoever deletes an app takes the right to. -/
theorem removal_adminOp (op : AdminOp) (env : Env) (m : Mem) (db : Db) (k : Key)
    (hk : .delete .registeredApps k ∈ (op.statement env m db).writes) :
    .removal .registeredApps k ∈ (op.statement env m db).locks := by
  cases op with
  | addTrustedPublisher publisher publicKey addedBy =>
    exact absurd (addTrustedPublisher_table _ hk) (by simp)
  | removeTrustedPublisher publisher =>
    exact absurd (deleteRows_table _ (readAs_writes _ (readAs_writes _ hk))) (by simp)
  | setAppStatus id status =>
    have hput := readAs_writes _ (readAs_writes _ hk)
    simp [updateRows] at hput
  | deleteApp id =>
    change .delete .registeredApps k ∈ (readAs _ (Registry.deleteApp id env m db)).writes at hk
    show _ ∈ (readAs _ (Registry.deleteApp id env m db)).locks
    rcases (readAs_cases (fun _ => .ok ()) (Registry.deleteApp id env m db)).2 with
      ⟨-, hw, -⟩ | ⟨b, _, -, -, -, hw, hl⟩
    · rw [hw] at hk
      exact absurd hk (by simp)
    · rw [hw] at hk
      rw [hl]
      unfold Registry.deleteApp at hk ⊢
      split at hk
      · exact absurd hk (by simp)
      · rcases List.mem_append.mp hk with hk | hk
        · refine List.mem_append_left _ ?_
          simp only [deleteRows, List.mem_map, Write.delete.injEq, true_and] at hk ⊢
          obtain ⟨r, hr, hkey⟩ := hk
          exact ⟨r, hr, congrArg _ hkey⟩
        · exact absurd (deleteRows_table _ hk) (by simp)

theorem removal_program (lib : Libs) (call : AppCall) :
    (call.program lib).Obeys (removalRules .registeredApps) := by
  cases call with
  | register metadata req =>
    refine obeys_bind
      (obeys_registerApp lib (obeys_removal (avoids_authenticate (by decide) lib metadata))
      (by simp [getTrustedPublisher, select]) fun user => ?_) fun _ => trivial
    refine obeys_write lib user req.decl trivial (fun by' env m db k hk => ?_)
      fun _ _ _ _ => obeys_removal (avoids_append (by decide) lib _ _ _ _)
    unfold upsertApp at hk
    split at hk
    · exact absurd hk (by simp)
    · rcases insertRow_cases .registeredApps _ _ _ _ m db with ⟨e, h⟩ | ⟨h, -⟩
      · rw [h] at hk
        exact absurd hk (by simp [failed])
      · rw [h] at hk
        exact absurd hk (by simp)
  | create metadata req =>
    exact obeys_removal (obeys_bind
      (avoids_createResource lib (by decide) (by decide) metadata req) fun _ => trivial)
  | admin op =>
    exact obeys_admin lib trivial (fun op _ => removal_adminOp op) (fun op _ => removal_adminOp op)
      (Or.inl ⟨_, rfl⟩)
  | adminTx ops =>
    exact obeys_admin lib trivial (fun op _ => removal_adminOp op) (fun op _ => removal_adminOp op)
      (Or.inr ⟨_, rfl⟩)

/-- What holds at every moment of such a run. -/
structure Guarded (lib : Libs) (calls : Pid → AppCall) (es : List (ServerEvent Pid Unit))
    (w : Server Pid Unit) : Prop where
  registered : Registered lib calls es w
  removing : Removing .registeredApps w
  stores : Versioned (Table.view .resources) (fun i _ _ v' => (calls i).Stores v') w
  creates : ∀ i metadata req, calls i = .create metadata req → Creating w.sh.db (w.procs i)

theorem guarded_start (hb : Beginning lib calls w₀) : Guarded lib calls [] w₀ := by
  have hnone : ∀ i, (w₀.procs i).tx = none := fun i => by rw [hb.procs i]
  have hstart : World.Trace World.anyEvent w₀ [] w₀ := .start
  refine ⟨registered_trace hb hstart, .start hnone fun i => ?_,
    ⟨.start hnone (hb.keys _), fun i => ?_⟩, fun i metadata req hcall => ?_⟩
  · rw [hb.procs i]
    exact removal_program lib (calls i)
  · rw [hb.procs i]
    exact stores_program lib (calls i)
  · rw [hb.procs i, hcall]
    exact .before (gated_createResource lib metadata req) (by simp)

theorem guarded_step (h : Guarded lib calls es w) (hs : w.step i c = some w')
    (hreg : Registered lib calls (⟨w, i, c, w'⟩ :: es) w')
    (hC : Considerate calls es ⟨w, i, c, w'⟩) : Guarded lib calls (⟨w, i, c, w'⟩ :: es) w' := by
  obtain ⟨hstep, -, hsame⟩ := World.step_spec hs
  refine ⟨hreg, h.removing.step hs, h.stores.step hs, fun j metadata req hcall => ?_⟩
  by_cases hj : j = i
  · subst hj
    exact (h.creates j metadata req hcall).own h.registered.indexed.sound hstep
  · have hdb := Proc.step_db hstep
    have hkeyed := hreg.indexed.sound
    rw [hsame j hj, hdb]
    refine (h.creates j metadata req hcall).other ?_ (fun id child ck href hdel => ?_)
      fun app happ new => hC app happ j metadata req hcall new
    · rw [← hdb]
      exact hkeyed
    · rcases Proc.committed_cases hstep with ⟨hnone, -⟩ | ⟨hall, -⟩
      · rw [hnone] at hdel
        exact absurd hdel (by simp)
      · rw [hall] at hdel
        exact h.removing.referenced h.registered.indexed.orderly (Ne.symm hj) href hdel

theorem guarded_trace (hb : Beginning lib calls w₀) (ht : World.Trace (Considerate calls) w₀ es w) :
    Guarded lib calls es w := by
  induction ht with
  | start => exact guarded_start hb
  | step i c ht hs hC ih => exact guarded_step ih hs (registered_trace hb (ht.step i c hs hC)) hC

/-- **Resources belong to enabled apps that declare their type**, in every run in which no app is
    committed against a CreateResource past its check. -/
theorem created_enabled (hb : Beginning lib calls w₀)
    (ht : World.Trace (Considerate calls) w₀ es w) :
    ∀ e ∈ es, ∀ row, .put .resources row ∈ (e.before.procs e.pid).committed e.choice →
      ∃ app ∈ e.before.sh.db.registeredApps, app.id = row.appId ∧ app.status = "enabled" ∧
        row.resourceType ∈ app.resourceTypes := by
  intro e he row hput
  obtain ⟨es', -, ht', hs, -⟩ := ht.event he
  have hguarded := guarded_trace hb ht'
  have hcreate : ∃ metadata req, calls e.pid = .create metadata req := by
    obtain ⟨-, hstores⟩ := (hguarded.stores.flight.committed hs).of_mem hput (on_put_self _ row)
    exact hstores.resolve_left (by simp)
  obtain ⟨metadata, req, hcall⟩ := hcreate
  have hmine : .put .resources row ∈ (e.before.procs e.pid).writes := by
    rcases Proc.committed_cases (World.step_spec hs).1 with ⟨hnone, -⟩ | ⟨hall, -⟩
    · rw [hnone] at hput
      exact absurd hput (by simp)
    · rwa [hall] at hput
  cases hguarded.creates e.pid metadata req hcall with
  | before hgated hwrites => exact absurd rfl (hwrites _ hmine)
  | checked new hp hallows =>
    rw [hp] at hmine
    exact absurd hmine (by simp)
  | stored new row' locks hunfinished hend htx hrow hlock happ hallows =>
    have hwrites : (e.before.procs e.pid).writes = [.put .resources row'] := by
      unfold Proc.writes
      rw [htx]
    rw [hwrites] at hmine
    obtain rfl : row = row' := by simpa using hmine
    obtain ⟨app, happ⟩ := Option.ne_none_iff_exists'.mp happ
    obtain ⟨hmem, hkey⟩ := mem_of_get happ
    have hid : app.id = new.appId := Key.uuid.inj hkey
    obtain ⟨hstatus, htype⟩ := hallows app hmem hid
    refine ⟨app, hmem, hid.trans hrow.1.symm, hstatus, ?_⟩
    rw [hrow.2]
    exact htype
  | done r hp =>
    rw [hp] at hmine
    exact absurd hmine (by simp)

end Runs

/-! ## Disabled between check and insert -/

/-- Ann creates a task while the app is disabled. -/
def disabling (i : Bool) : AppCall :=
  if i then .admin (.setAppStatus Sample.tasks.id "disabled")
  else .create Sample.asAnn
    { appId := Sample.tasks.id.toString
      resourceType := "task"
      appResourceId := (Sample.uuid 20).toString
      parentResourceId := none
      contentBlob := [1]
      contentSignature := [2]
      schemaVersion := 1 }

/-- Both are about to begin. -/
def enabled : Server Bool Unit where
  procs i := ⟨(disabling i).program Libs.sample, none⟩
  sh := ⟨Sample.db, Mem.fresh⟩

theorem enabled_beginning : Beginning Libs.sample disabling enabled where
  procs _ := rfl
  keys t := by cases t <;> decide +kernel
  identifiers := by decide +kernel

/-- A write of a resource whose app is not enabled or does not declare its type. -/
def misplaced (db : Db) : Write → Bool
  | .put .resources row => db.registeredApps.all fun app =>
    !(app.id == row.appId && app.status == "enabled" && app.resourceTypes.contains row.resourceType)
  | _ => false

theorem of_misplaced {db : Db} {w : Write} (h : misplaced db w = true) : ∃ row,
    w = .put .resources row ∧ ¬ ∃ app ∈ db.registeredApps, app.id = row.appId ∧
      app.status = "enabled" ∧ row.resourceType ∈ app.resourceTypes := by
  unfold misplaced at h
  split at h
  · next row =>
    refine ⟨row, rfl, ?_⟩
    rintro ⟨app, happ, hid, hstatus, htype⟩
    have hnot := List.all_eq_true.mp h app happ
    simp [hid, hstatus, htype] at hnot
  · exact absurd h (by simp)

/-- The task is checked, then the app is disabled. -/
def overtaking : List (Bool × Choice Env SqlError) :=
  Sample.steps false 40 4 ++ Sample.steps true 41 2 ++ Sample.steps false 40 1

def overtaken : Server Bool Unit := enabled.reach overtaking

/-- **Disabled meanwhile**: the task is checked, the app is disabled, the task is stored. -/
theorem disabled_meanwhile : Beginning Libs.sample disabling enabled ∧
    ∃ es w, World.Trace World.anyEvent enabled es w ∧ ∃ e ∈ es, ∃ row,
      .put .resources row ∈ (e.before.procs e.pid).committed e.choice ∧
      ¬ ∃ app ∈ e.before.sh.db.registeredApps, app.id = row.appId ∧ app.status = "enabled" ∧
        row.resourceType ∈ app.resourceTypes := by
  have hrun : (enabled.follow overtaking).isSome := by decide +kernel
  obtain ⟨es, -, ht⟩ := World.trace_reach (C := World.anyEvent)
    (fun _ _ _ _ _ => trivial) .start hrun
  have hlast : (overtaken.follow [(false, Sample.calm 40)]).isSome := by decide +kernel
  have hs := World.step_reach hlast
  have hbad : ((overtaken.procs false).committed (Sample.calm 40)).any
      (misplaced overtaken.sh.db) = true := by decide +kernel
  obtain ⟨v, hv, hmisplaced⟩ := List.any_eq_true.mp hbad
  obtain ⟨row, rfl, hnone⟩ := of_misplaced hmisplaced
  exact ⟨enabled_beginning, _, _, ht.step false (Sample.calm 40) hs trivial, _, List.mem_cons_self,
    row, hv, hnone⟩

/-- CreateResource writes no app. -/
theorem considerate_create {es : List (ServerEvent Bool Unit)} {e : ServerEvent Bool Unit}
    (ht : World.Trace (fun _ e => e.pid = false) enabled es e.before)
    (hs : e.before.step e.pid e.choice = some e.after) (hpid : e.pid = false) :
    Considerate disabling es e := by
  intro app happ
  have hlawful := (registered_trace enabled_beginning ht).vouched.flight.committed hs
  obtain ⟨v, hroutine | ⟨-, hgranted⟩⟩ :=
    hlawful.of_mem happ (on_put_self Table.registeredApps app)
  · rw [hpid] at hroutine
    exact hroutine.elim
  · rw [hpid] at hgranted
    exact hgranted.elim

/-- The task is stored. -/
def taskStored : Server Bool Unit := enabled.reach (Sample.steps false 40 6)

/-- The theorem where the app is disabled after the task is stored. -/
theorem created_enabled_before : ∃ es w, World.Trace (Considerate disabling) enabled es w ∧
    w.sh.db.resources.length = 1 ∧ (∀ app ∈ w.sh.db.registeredApps, app.status = "disabled") ∧
    ∀ e ∈ es, ∀ row, .put .resources row ∈ (e.before.procs e.pid).committed e.choice →
      ∃ app ∈ e.before.sh.db.registeredApps, app.id = row.appId ∧ app.status = "enabled" ∧
        row.resourceType ∈ app.resourceTypes := by
  have hcreate : (enabled.follow (Sample.steps false 40 6)).isSome := by decide +kernel
  have hpid : ∀ a ∈ Sample.steps false 40 6, a.1 = false :=
    fun a ha => congrArg Prod.fst (List.eq_of_mem_replicate ha)
  obtain ⟨es, -, ht⟩ := World.trace_reach (C := fun _ e => e.pid = false)
    (fun a ha _ _ _ => hpid a ha) .start hcreate
  have ht := ht.mono fun _ _ => considerate_create
  have hupdate : (taskStored.follow [(true, Sample.calm 41)]).isSome := by decide +kernel
  have ht := ht.step true (Sample.calm 41) (World.step_reach hupdate) fun app happ => by
    have hnone : ((taskStored.procs true).committed (Sample.calm 41)).length = 0 := by
      decide +kernel
    change _ ∈ (taskStored.procs true).committed (Sample.calm 41) at happ
    rw [List.length_eq_zero_iff.mp hnone] at happ
    exact absurd happ (by simp)
  have hcommit : ((taskStored.reach [(true, Sample.calm 41)]).follow
      [(true, Sample.calm 41)]).isSome := by decide +kernel
  have ht := ht.step true (Sample.calm 41) (World.step_reach hcommit)
    fun app _ j metadata req hj new hunfinished => by
      cases j with
      | true => exact absurd hj (by simp [disabling])
      | false => exact absurd rfl (hunfinished.2 (.ok ()))
  exact ⟨_, _, ht, by decide +kernel, by decide +kernel, created_enabled enabled_beginning ht⟩

end SylvaServer.Registry
