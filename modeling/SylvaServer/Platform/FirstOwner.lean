/-
  The first owner.

  Bootstrap counts the users on the pool, hashes the password, and only then opens the
  transaction that inserts the owner. What keeps a second owner out after the count is the
  unique index on the lower-cased address, and it keeps out the same address only.

  Proved: what one Bootstrap does in a step (`Stage.own`), what holds between any number of them
  (`Following.step`), and that in every run in which no Bootstrap commits against another one past
  its count with a different address (`Considerate`) at most one commits, over an empty table of
  users (`one_owner`). `two_owners` is a run in which two of them commit.
-/
import SylvaServer.Platform.Parts
import SylvaServer.ReadCommitted.Gates

namespace SylvaServer.FirstOwner

open ReadCommitted ReadCommitted.Prog Account

variable {ctx : PlatformContext} {req : BootstrapRequest} {p p' : Running ProtoSession}
  {sh sh' : Shared} {c : Choice Env SqlError}

/-! ## Bootstrap past its count -/

/-- The count finds nobody. -/
def Passes (ctx : PlatformContext) (req : BootstrapRequest) (db : Db)
    (q : Rpc ProtoSession) : Prop :=
  db.users = [] ∧
    ∃ km dev, q = bootstrap.afterGate ctx (trim req.email)
      (trim req.displayName) req.password km dev

/-- The next request inserts the owner; the rest of the transaction writes no user. -/
def Inserts (lib : Libs) (email : String) (q : Rpc ProtoSession) : Prop :=
  ∃ displayName, q.Performs (UserRepository.create lib email displayName .owner .active)
    fun _ r => r.Closes ∧ r.Obeys (avoids .users)

/-- No statement but looks on the pool. -/
abbrev looking : Prog.Rules Env Db Write LockKey Mem SqlError where
  begin := True
  stmt _ := False
  pool s := ∀ env m db, (s env m db).writes = []
  mem _ := True

-- a handler is taken apart by its requests; unfolded whole, it takes too long
attribute [local irreducible] Prog.Opens Prog.Closes Prog.Inside Prog.Looks Prog.Obeys

theorem opens_afterGate (ctx : PlatformContext) (email displayName password : String)
    (km : UserKeyMaterial) (dev : DeviceEnrollment) :
    (bootstrap.afterGate ctx email displayName password km dev).Opens (Inserts ctx.lib email) := by
  unfold bootstrap.afterGate
  refine opens_bind (looks_mapError _ (looks_hashPassword _ _)) fun phc => ?_
  unfold bootstrap.create
  refine opens_begin _ ⟨displayName, performs_inTx _ fun user => ⟨?_, ?_⟩⟩
  · refine closes_bind (inside_mapError _ (inside_inTx _)) fun _ => ?_
    refine closes_bind (inside_mapError _ (inside_inTx _)) fun _ =>
      closes_bind (inside_enrollDevice _ _) fun device => ?_
    refine closes_bind (inside_mapError _ (inside_append ..)) fun event => ?_
    exact closes_bind (inside_mapError _ (inside_sessionCreate _ _ _ _ _)) fun session =>
      closes_commit _ _
  · refine obeys_bind (avoids_elsewhere (t := .credentials) _ (by decide) fun env mem db w hw =>
      insertRow_table w (readAs_writes w hw)) fun _ => ?_
    refine obeys_bind (avoids_elsewhere (t := .userKeys) _ (by decide) fun env mem db w hw =>
      insertRow_table w (readAs_writes w hw)) fun _ => ?_
    refine obeys_bind (avoids_enrollDevice (by decide) (by decide) _ _) fun device => ?_
    refine obeys_bind (obeys_mapError _ (avoids_append (by decide) ..)) fun event => ?_
    exact obeys_bind (obeys_mapError _ (avoids_createSession (by decide) _ _ _ _ _)) fun session =>
      avoids_commit _ _

attribute [local semireducible] Prog.Obeys

/-- Until the count Bootstrap only looks. -/
theorem gated_bootstrap (ctx : PlatformContext) (metadata : Metadata) (req : BootstrapRequest) :
    (bootstrap ctx metadata req).Gated looking (Passes ctx req) := by
  unfold bootstrap
  generalize bootstrap.checked req = checked
  refine gated_bind ⟨trivial, fun _ => trivial⟩ fun allowed => gated_ite trivial ?_
  refine gated_bind (obeys_ret _) fun ⟨km, dev⟩ => ?_
  refine gated_query _ (fun env m d => rfl) (fun env m d => ⟨rfl, rfl⟩)
    fun env m d count hcount => ?_
  obtain rfl : d.users.length = count := Except.ok.inj hcount
  by_cases hnone : d.users = []
  · rw [if_neg (by simp [hnone])]
    exact Or.inr ⟨hnone, km, dev, rfl⟩
  · rw [if_pos (List.length_pos_iff.mpr hnone)]
    exact Or.inl (gated_bind ⟨trivial, fun _ => trivial⟩ fun _ => trivial)

/-! ## One Bootstrap -/

/-- The owner is in the transaction, with the entry of the index for the address. -/
structure Inserted (ctx : PlatformContext) (req : BootstrapRequest) (owner : User)
    (p : Running ProtoSession) : Prop where
  running : ¬ p.Over
  closes : p.prog.Closes
  keeps : p.prog.Obeys (avoids .users)
  tx : ∃ us ls, p.tx = some (.active us ls)
  writes : p.writes.filter (fun w => decide (w.table = .users)) = [.put .users owner]
  email : ctx.lib.lower owner.email = ctx.lib.lower (trim req.email)
  lock : .emailLower (ctx.lib.lower (trim req.email)) ∈ p.locks

/-- How far a Bootstrap is; `past` is what its count has found. -/
inductive Stage (ctx : PlatformContext) (req : BootstrapRequest) (past : Prop)
    (p : Running ProtoSession) : Prop where
  | before (hgated : p.prog.Gated looking (Passes ctx req)) (hwrites : p.writes = [])
  | passed (hpast : past) (hopening : p.Opening (Inserts ctx.lib (trim req.email)))
  | inserting (hpast : past) (hinserts : Inserts ctx.lib (trim req.email) p.prog)
      (htx : p.tx = some (.active [] []))
  | inserted (hpast : past) (owner : User) (h : Inserted ctx req owner p)
  | ended (hover : p.Over)

variable {past past' : Prop} {owner : User}

theorem Inserted.not_nil (h : Inserted ctx req owner p) : p.writes ≠ [] := by
  intro hnil
  have hone := h.writes
  rw [hnil] at hone
  exact absurd hone (by simp)

theorem Stage.mono (hpast : past → past') (h : Stage ctx req past p) : Stage ctx req past' p := by
  cases h with
  | before hgated hwrites => exact .before hgated hwrites
  | passed h hopening => exact .passed (hpast h) hopening
  | inserting h hinserts htx => exact .inserting (hpast h) hinserts htx
  | inserted h owner hinserted => exact .inserted (hpast h) owner hinserted
  | ended hover => exact .ended hover

/-- Nobody inserts an owner before the count. -/
theorem Stage.past_of_inserted (h : Stage ctx req past p)
    (hinserted : Inserted ctx req owner p) : past := by
  cases h with
  | before _ hwrites => exact absurd hwrites hinserted.not_nil
  | passed h _ => exact h
  | inserting h _ _ => exact h
  | inserted h _ _ => exact h
  | ended hover => exact absurd hover hinserted.running

/-- The insert of the owner: the address is free. -/
theorem create_ok {lib : Libs} {email displayName : String} {env : Env} {mem : Mem} {db : Db}
    {user : User}
    (h : (UserRepository.create lib email displayName .owner .active env mem db).result =
      .ok user) :
    (UserRepository.create lib email displayName .owner .active env mem db).writes =
      [.put .users user] ∧
      (UserRepository.create lib email displayName .owner .active env mem db).locks =
        [.emailLower (lib.lower email)] ∧
      user.email = email ∧ ∀ u ∈ db.users, lib.lower u.email ≠ lib.lower email := by
  unfold UserRepository.create at h ⊢
  rcases insertRow_cases .users _ _ [] [.emailLower (lib.lower email)] mem db
    with ⟨e, hfailed⟩ | ⟨hrow, -, hfree, -⟩
  · rw [hfailed] at h
    exact absurd h (by simp [failed])
  · rw [hrow] at h ⊢
    obtain rfl := Except.ok.inj h
    refine ⟨rfl, rfl, rfl, fun u hu => ?_⟩
    have hnot := List.any_eq_false.mp hfree u hu
    simpa using hnot

/-- What a step that commits nothing leaves. -/
structure Quiet (ctx : PlatformContext) (req : BootstrapRequest) (past : Prop) (db : Db)
    (p p' : Running ProtoSession) : Prop where
  stage : Stage ctx req (past ∨ Passes ctx req db p'.prog) p'
  inserts : ∀ owner, Inserted ctx req owner p' →
    Inserted ctx req owner p ∨ ∀ u ∈ db.users, ctx.lib.lower u.email ≠ ctx.lib.lower
      (trim req.email)

theorem quiet_over {db : Db} (hover : p'.Over) : Quiet ctx req past db p p' :=
  ⟨.ended hover, fun _ h => absurd hover h.running⟩

theorem inserting_step (hpast : past) (hinserts : Inserts ctx.lib (trim req.email) p.prog)
    (htx : p.tx = some (.active [] [])) (hs : p.step c sh = some (p', sh')) :
    p.committed c = [] ∧ Quiet ctx req past sh.db p p' := by
  obtain ⟨displayName, hperforms⟩ := hinserts
  obtain ⟨hnone, hstops | ⟨user, hr, ⟨hcloses, hkeeps⟩, htx'⟩⟩ :=
    Proc.performs_step hperforms htx hs
  · exact ⟨hnone, quiet_over (Proc.over_of_stops hstops)⟩
  · refine ⟨hnone, ?_⟩
    obtain ⟨hwrites, hlocks, hemail, hfree⟩ := create_ok hr
    rw [hwrites, hlocks] at htx'
    by_cases hover : p'.Over
    · exact quiet_over hover
    · refine ⟨.inserted (Or.inl hpast) user ⟨hover, hcloses, hkeeps, ⟨_, _, htx'⟩, ?_,
        by rw [hemail], ?_⟩, fun _ _ => Or.inr hfree⟩
      · rw [Proc.writes_of_tx htx']
        rfl
      · rw [Proc.locks_of_tx htx']
        simp

theorem inserted_step (hpast : past) (h : Inserted ctx req owner p)
    (hs : p.step c sh = some (p', sh')) :
    (p.committed c = [] ∧ Quiet ctx req past sh.db p p') ∨
    (p.committed c = p.writes ∧ p'.Over) := by
  obtain ⟨us, ls, htx⟩ := h.tx
  rcases Proc.closing_step h.closes htx hs with ⟨hstops, hnone⟩ | ⟨⟨a, rfl⟩, hall⟩ | ⟨hover,
    hcloses, hnone, hadds⟩
  · exact Or.inl ⟨hnone, quiet_over (Proc.over_of_stops hstops)⟩
  · exact Or.inr ⟨hall.trans (Proc.writes_of_tx htx).symm, ⟨_, rfl⟩⟩
  · refine Or.inl ⟨hnone, ?_⟩
    obtain ⟨vs, ks, htx', hvs⟩ := hadds.grows htx
    have hother : ∀ w ∈ vs, w.table ≠ .users := by
      have hkeeps := h.keeps
      rcases hvs with rfl | ⟨γ, s, k, hprog, rfl⟩
      · exact fun w hw => absurd hw List.not_mem_nil
      · rw [hprog] at hkeeps
        exact hkeeps.1 _ _ _
    have hinserted : Inserted ctx req owner p' := by
      refine ⟨hover, hcloses, Proc.obeys_step hs h.keeps, ⟨_, _, htx'⟩, ?_, h.email, ?_⟩
      · have hone := h.writes
        rw [Proc.writes_of_tx htx] at hone
        rw [Proc.writes_of_tx htx', List.filter_append, hone,
          List.filter_eq_nil_iff.mpr fun w hw => mt of_decide_eq_true (hother w hw),
          List.append_nil]
      · rw [Proc.locks_of_tx htx']
        exact List.mem_append_left _ (Proc.locks_of_tx htx ▸ h.lock)
    refine ⟨.inserted (Or.inl hpast) owner hinserted, fun owner' h' => Or.inl ?_⟩
    have hsame := h'.writes.symm.trans hinserted.writes
    simp only [List.cons.injEq, Write.put.injEq, heq_eq_eq, true_and, and_true] at hsame
    exact hsame ▸ h

/-- **One step of a Bootstrap**: it commits the owner it has inserted, or it commits nothing. -/
theorem Stage.own (h : Stage ctx req past p) (hs : p.step c sh = some (p', sh')) :
    (p.committed c = [] ∧ Quiet ctx req past sh.db p p') ∨
      ∃ owner, Inserted ctx req owner p ∧ p.committed c = p.writes ∧ p'.Over := by
  have hquiet : p.writes = [] → p.committed c = [] := by
    intro hnil
    rcases Proc.committed_cases hs with ⟨hnone, -⟩ | ⟨hall, -⟩
    · exact hnone
    · rw [hall, hnil]
  cases h with
  | before hgated hwrites =>
    refine Or.inl ⟨hquiet hwrites, ?_⟩
    rcases Proc.gated_step hs hgated with hgated' | ⟨hpasses, -, htx, -⟩
    · have hwrites' : p'.writes = [] := by
        refine List.eq_nil_iff_forall_not_mem.mpr fun w => ?_
        refine Proc.gated_writes (P := fun _ => False) (fun s hs env m d w hw => ?_) hs hgated
          (by simp [hwrites]) w
        rcases hs with hs | hs
        · exact hs
        · rw [hs env m d] at hw
          exact absurd hw List.not_mem_nil
      exact ⟨.before hgated' hwrites', fun owner h => absurd hwrites' h.not_nil⟩
    · have hopening : p'.Opening (Inserts ctx.lib (trim req.email)) := by
        obtain ⟨-, km, dev, hq⟩ := hpasses
        refine Or.inl ⟨?_, htx⟩
        rw [hq]
        exact opens_afterGate ..
      exact ⟨.passed (Or.inr hpasses) hopening, fun owner h => absurd hopening.writes h.not_nil⟩
  | passed hpast hopening =>
    refine Or.inl ⟨hquiet hopening.writes, ?_⟩
    obtain ⟨-, hopening' | ⟨q, hinserts, rfl⟩⟩ := Proc.opening_step hopening hs
    · exact ⟨.passed (Or.inl hpast) hopening', fun owner h => absurd hopening'.writes h.not_nil⟩
    · exact ⟨.inserting (Or.inl hpast) hinserts rfl, fun owner h => absurd rfl h.not_nil⟩
  | inserting hpast hinserts htx => exact Or.inl (inserting_step hpast hinserts htx hs)
  | inserted hpast owner h =>
    exact (inserted_step hpast h hs).imp_right fun hall => ⟨owner, h, hall⟩
  | ended hover =>
    obtain ⟨hover', hnone, -⟩ := Proc.over_step hover hs
    exact Or.inl ⟨hnone, quiet_over hover'⟩

/-! ## Runs -/

section Runs

variable {Pid : Type} [DecidableEq Pid] [Fintype Pid] {calls : Pid → Metadata × BootstrapRequest}
  {es : List (ServerEvent Pid ProtoSession)} {w₀ w w' : Server Pid ProtoSession} {i j : Pid}

/-- The step commits an account. -/
def Commits (e : ServerEvent Pid ProtoSession) : Prop :=
  (e.before.procs e.pid).committed e.choice ≠ []

/-- The address of a request as the index has it. -/
def address (ctx : PlatformContext) (req : BootstrapRequest) : String :=
  ctx.lib.lower (trim req.email)

/-- The count of request `i` has found nobody. -/
def Past (ctx : PlatformContext) (calls : Pid → Metadata × BootstrapRequest)
    (es : List (ServerEvent Pid ProtoSession)) (i : Pid) : Prop :=
  ∃ e ∈ es, e.pid = i ∧ Passes ctx (calls i).2 e.before.sh.db (e.after.procs i).prog

/-- An account is committed only while every other request whose count has found nobody has returned
    or names the same address. -/
def Considerate (ctx : PlatformContext) (calls : Pid → Metadata × BootstrapRequest)
    (es : List (ServerEvent Pid ProtoSession)) (e : ServerEvent Pid ProtoSession) : Prop :=
  Commits e → ∀ j, j ≠ e.pid → Past ctx calls es j → ¬ (e.before.procs j).Over →
    address ctx (calls j).2 = address ctx (calls e.pid).2

/-- Nothing has been committed. -/
structure Vacant (ctx : PlatformContext) (calls : Pid → Metadata × BootstrapRequest)
    (w₀ : Server Pid ProtoSession) (es : List (ServerEvent Pid ProtoSession))
    (w : Server Pid ProtoSession) : Prop where
  quiet : ∀ e ∈ es, ¬ Commits e
  users : w.sh.db.users = w₀.sh.db.users
  empty : ∀ i, Past ctx calls es i → w₀.sh.db.users = []

/-- The owner is there. -/
structure Taken (ctx : PlatformContext) (calls : Pid → Metadata × BootstrapRequest) (owner : User)
    (es : List (ServerEvent Pid ProtoSession)) (w : Server Pid ProtoSession) : Prop where
  users : w.sh.db.users = [owner]
  address : ∀ i, Past ctx calls es i → ¬ (w.procs i).Over →
    FirstOwner.address ctx (calls i).2 = ctx.lib.lower owner.email
  nobody : ∀ i owner', ¬ Inserted ctx (calls i).2 owner' (w.procs i)

/-- What holds at every moment of a run. -/
structure Following (ctx : PlatformContext) (calls : Pid → Metadata × BootstrapRequest)
    (w₀ : Server Pid ProtoSession) (es : List (ServerEvent Pid ProtoSession))
    (w : Server Pid ProtoSession) : Prop where
  orderly : w.Orderly
  stage : ∀ i, Stage ctx (calls i).2 (Past ctx calls es i) (w.procs i)
  once : es.Pairwise fun e e' => ¬ (Commits e ∧ Commits e')
  alone : ∀ e ∈ es, Commits e → e.before.sh.db.users = []
  place : Vacant ctx calls w₀ es w ∨ ∃ owner, Taken ctx calls owner es w

omit [DecidableEq Pid] [Fintype Pid] in
theorem past_cons {e : ServerEvent Pid ProtoSession} (h : Past ctx calls es i) :
    Past ctx calls (e :: es) i := by
  obtain ⟨e', he', h⟩ := h
  exact ⟨e', List.mem_cons_of_mem _ he', h⟩

omit [DecidableEq Pid] [Fintype Pid] in
theorem past_of_other {e : ServerEvent Pid ProtoSession} (he : e.pid ≠ i)
    (h : Past ctx calls (e :: es) i) : Past ctx calls es i := by
  obtain ⟨e', he', hpid, hpasses⟩ := h
  rcases List.mem_cons.mp he' with rfl | he'
  · exact absurd hpid he
  · exact ⟨e', he', hpid, hpasses⟩

omit [DecidableEq Pid] [Fintype Pid] in
/-- A step makes a request past its count only where the tables have no user. -/
theorem past_of_cons {e : ServerEvent Pid ProtoSession} (h : Past ctx calls (e :: es) i) :
    Past ctx calls es i ∨ e.before.sh.db.users = [] := by
  obtain ⟨e', he', hpid, hpasses⟩ := h
  rcases List.mem_cons.mp he' with rfl | he'
  · exact Or.inr hpasses.1
  · exact Or.inl ⟨e', he', hpid, hpasses⟩

omit [DecidableEq Pid] [Fintype Pid] in
theorem following_start (hprogs : ∀ i, w₀.procs i = ⟨bootstrap ctx (calls i).1 (calls i).2, none⟩) :
    Following ctx calls w₀ [] w₀ where
  orderly := World.orderly_start fun i => by rw [hprogs i]
  stage i := by
    rw [hprogs i]
    exact .before (gated_bootstrap ctx _ _) rfl
  once := List.Pairwise.nil
  alone e he := absurd he List.not_mem_nil
  place := Or.inl ⟨fun e he => absurd he List.not_mem_nil, rfl,
    fun i ⟨e, he, _⟩ => absurd he List.not_mem_nil⟩

theorem Following.step (h : Following ctx calls w₀ es w) (hs : w.step i c = some w')
    (hC : Considerate ctx calls es ⟨w, i, c, w'⟩) :
    Following ctx calls w₀ (⟨w, i, c, w'⟩ :: es) w' := by
  obtain ⟨hstep, -, hsame⟩ := World.step_spec hs
  have hdb := Proc.step_db hstep
  have hothers : ∀ j, j ≠ i → Stage ctx (calls j).2 (Past ctx calls (⟨w, i, c, w'⟩ :: es) j)
      (w'.procs j) := by
    intro j hj
    rw [hsame j hj]
    exact (h.stage j).mono past_cons
  rcases (h.stage i).own hstep with ⟨hnone, hquiet⟩ | ⟨owner, hinserted, hall, hover⟩
  · -- nothing is committed
    have hcommits : ¬ Commits (⟨w, i, c, w'⟩ : ServerEvent Pid ProtoSession) :=
      fun hcommits => hcommits hnone
    rw [hnone, applyAll_nil] at hdb
    refine ⟨World.orderly_step h.orderly hs, fun j => ?_, ?_, ?_, ?_⟩
    · by_cases hj : j = i
      · subst hj
        exact hquiet.stage.mono fun hpast => hpast.elim past_cons fun hpasses =>
          ⟨_, List.mem_cons_self, rfl, hpasses⟩
      · exact hothers j hj
    · exact List.pairwise_cons.mpr ⟨fun e _ hboth => hcommits hboth.1, h.once⟩
    · exact List.forall_mem_cons.mpr ⟨fun hc => absurd hc hcommits, h.alone⟩
    · rcases h.place with hvacant | ⟨owner, htaken⟩
      · refine Or.inl ⟨List.forall_mem_cons.mpr ⟨hcommits, hvacant.quiet⟩, ?_, fun j hpast => ?_⟩
        · rw [hdb]
          exact hvacant.users
        · exact (past_of_cons hpast).elim (hvacant.empty j) fun hempty => hvacant.users ▸ hempty
      · have hkept : ∀ j, Past ctx calls (⟨w, i, c, w'⟩ :: es) j → Past ctx calls es j := by
          intro j hpast
          refine (past_of_cons hpast).resolve_right fun hempty => ?_
          exact absurd (htaken.users.symm.trans hempty) (by simp)
        have hgoes : ∀ j, Past ctx calls es j → ¬ (w'.procs j).Over →
            address ctx (calls j).2 = ctx.lib.lower owner.email := by
          intro j hpast hrunning
          refine htaken.address j hpast fun hover => hrunning ?_
          by_cases hj : j = i
          · subst hj
            exact (Proc.over_step hover hstep).1
          · rw [hsame j hj]
            exact hover
        refine Or.inr ⟨owner, ?_, fun j hpast => hgoes j (hkept j hpast),
          fun j owner' hinserted => ?_⟩
        · rw [hdb]
          exact htaken.users
        · by_cases hj : j = i
          · subst hj
            rcases hquiet.inserts owner' hinserted with hbefore | hfree
            · exact htaken.nobody j owner' hbefore
            · -- the address is the one of the owner who is there
              refine hfree owner (htaken.users ▸ List.mem_singleton_self _) ?_
              refine (hgoes j (hkept j ?_) hinserted.running).symm
              exact (hquiet.stage.mono fun hpast => hpast.elim past_cons fun hpasses =>
                ⟨_, List.mem_cons_self, rfl, hpasses⟩).past_of_inserted hinserted
          · rw [hsame j hj] at hinserted
            exact htaken.nobody j owner' hinserted
  · -- the owner is committed
    have hvacant : Vacant ctx calls w₀ es w :=
      h.place.resolve_right fun ⟨_, htaken⟩ => htaken.nobody i owner hinserted
    have hempty : w.sh.db.users = [] := hvacant.users.trans
      (hvacant.empty i ((h.stage i).past_of_inserted hinserted))
    have hcommits : Commits (⟨w, i, c, w'⟩ : ServerEvent Pid ProtoSession) := by
      show (w.procs i).committed c ≠ []
      rw [hall]
      exact hinserted.not_nil
    have hsame_address : ∀ j, j ≠ i → Past ctx calls (⟨w, i, c, w'⟩ :: es) j → ¬ (w.procs j).Over →
        address ctx (calls j).2 = address ctx (calls i).2 :=
      fun j hj hpast hrunning => hC hcommits j hj (past_of_other (Ne.symm hj) hpast) hrunning
    refine ⟨World.orderly_step h.orderly hs, fun j => ?_, ?_, ?_,
      Or.inr ⟨owner, ?_, fun j hpast hrunning => ?_, fun j owner' hother => ?_⟩⟩
    · by_cases hj : j = i
      · subst hj
        exact .ended hover
      · exact hothers j hj
    · exact List.pairwise_cons.mpr ⟨fun e he hboth => hvacant.quiet e he hboth.2, h.once⟩
    · exact List.forall_mem_cons.mpr ⟨fun _ => hempty, h.alone⟩
    · show w'.sh.db.rows .users = [owner]
      rw [hdb, hall, applyAll_rows_filter, hinserted.writes]
      show (w.sh.db.put .users owner).rows .users = [owner]
      rw [put_rows_self, show w.sh.db.rows .users = [] from hempty]
      rfl
    · have hj : j ≠ i := by
        rintro rfl
        exact hrunning hover
      rw [hsame j hj] at hrunning
      rw [hsame_address j hj hpast hrunning, hinserted.email]
      rfl
    · have hj : j ≠ i := by
        rintro rfl
        exact hother.running hover
      -- both hold the entry of the index for their common address
      rw [hsame j hj] at hother
      have haddress := hsame_address j hj (past_cons ((h.stage j).past_of_inserted hother))
        hother.running
      refine h.orderly.exclusive j i hj _ hother.lock ?_
      show LockKey.emailLower (address ctx (calls j).2) ∈ _
      rw [haddress]
      exact hinserted.lock

theorem following_trace (hprogs : ∀ i, w₀.procs i = ⟨bootstrap ctx (calls i).1 (calls i).2, none⟩)
    (ht : World.Trace (Considerate ctx calls) w₀ es w) : Following ctx calls w₀ es w := by
  induction ht with
  | start => exact following_start hprogs
  | step i c _ hs hC ih => exact ih.step hs hC

/-- **At most one owner**, in every run in which no Bootstrap commits against another one past its
    count with a different address. -/
theorem one_owner (hprogs : ∀ i, w₀.procs i = ⟨bootstrap ctx (calls i).1 (calls i).2, none⟩)
    (ht : World.Trace (Considerate ctx calls) w₀ es w) :
    (es.Pairwise fun e e' => ¬ (Commits e ∧ Commits e')) ∧
      (∀ e ∈ es, Commits e → e.before.sh.db.users = []) ∧
      (w₀.sh.db.users = [] →
        w.sh.db.users.countP (fun u => decide (u.instanceRole = .owner)) ≤ 1) := by
  have h := following_trace hprogs ht
  refine ⟨h.once, h.alone, fun hempty => le_trans List.countP_le_length ?_⟩
  rcases h.place with hvacant | ⟨owner, htaken⟩
  · rw [hvacant.users, hempty]
    exact Nat.zero_le 1
  · rw [htaken.users]
    exact le_rfl

end Runs

/-! ## Two requests on a fresh instance -/

def context : PlatformContext where
  lib := Libs.sample
  authRateLimiter := { capacity := 2, refillPerMs := 3, refill_nonneg := zero_le_three }
  trustProxy := false

/-- A request for an account with this address. -/
def founding (email : String) : Metadata × BootstrapRequest :=
  (⟨none, none, some "203.0.113.7"⟩,
    { email := email
      displayName := "Owner"
      password := "correct horse"
      keyMaterial := some ⟨[1], [2], [3], [4], [5], [6], "m=65536"⟩
      device := some ⟨"Laptop", "linux", [7], ""⟩ })

/-- Both requests are about to begin. -/
def fresh (emails : Bool → String) : Server Bool ProtoSession where
  procs i := ⟨bootstrap context (founding (emails i)).1 (founding (emails i)).2, none⟩
  sh := ⟨Db.empty, Mem.fresh⟩

/-- Ann and Bob set up the instance. -/
def annAndBob (i : Bool) : String := if i then "bob@example.org" else "ann@example.org"

/-- Bob is past the count when Ann comes to her commit. -/
def bobCounts : List (Bool × Choice Env SqlError) :=
  Sample.steps true 41 2 ++ Sample.steps false 40 17

/-- Ann commits, and Bob comes to his commit. -/
def bobGoesOn : List (Bool × Choice Env SqlError) := Sample.steps true 41 15

def annDue : Server Bool ProtoSession := (fresh annAndBob).reach bobCounts

def annIn : Server Bool ProtoSession := annDue.reach [(false, Sample.calm 40)]

def bobDue : Server Bool ProtoSession := annIn.reach bobGoesOn

/-- **Two owners**: Bob has counted the users before Ann commits, and commits after her. -/
theorem two_owners : (fresh annAndBob).sh.db.users = [] ∧
    ∃ es w, World.Trace World.anyEvent (fresh annAndBob) es w ∧
      ¬ (es.Pairwise fun e e' => ¬ (Commits e ∧ Commits e')) ∧
      (∃ e ∈ es, Commits e ∧ e.before.sh.db.users ≠ []) ∧
      w.sh.db.users.countP (fun u => decide (u.instanceRole = .owner)) = 2 := by
  have hrun : ((fresh annAndBob).follow bobCounts).isSome := by decide +kernel
  obtain ⟨es, -, ht⟩ := World.trace_reach (C := World.anyEvent)
    (fun _ _ _ _ _ => trivial) .start hrun
  have hann : (annDue.follow [(false, Sample.calm 40)]).isSome := by decide +kernel
  have hcommits : Commits (⟨annDue, false, Sample.calm 40, annIn⟩ :
      ServerEvent Bool ProtoSession) :=
    List.ne_nil_of_length_pos (by decide +kernel)
  have ht := ht.step false (Sample.calm 40) (World.step_reach hann) trivial
  have hrun' : (annIn.follow bobGoesOn).isSome := by decide +kernel
  obtain ⟨es', hsuffix, ht'⟩ := World.trace_reach (C := World.anyEvent)
    (fun _ _ _ _ _ => trivial) ht hrun'
  have hbob : (bobDue.follow [(true, Sample.calm 41)]).isSome := by decide +kernel
  have hcommits' : Commits (⟨bobDue, true, Sample.calm 41, bobDue.reach [(true, Sample.calm 41)]⟩ :
      ServerEvent Bool ProtoSession) :=
    List.ne_nil_of_length_pos (by decide +kernel)
  have hthere : bobDue.sh.db.users ≠ [] := List.ne_nil_of_length_pos (by decide +kernel)
  refine ⟨rfl, _, _, ht'.step true (Sample.calm 41) (World.step_reach hbob) trivial,
    fun hpairwise => ?_, ⟨_, List.mem_cons_self, hcommits', hthere⟩, by decide +kernel⟩
  exact (List.pairwise_cons.mp hpairwise).1 _ (hsuffix.subset List.mem_cons_self)
    ⟨hcommits', hcommits⟩

/-- Both requests are for Ann, in capitals or not. -/
def annTwice (i : Bool) : String := if i then "ANN@example.org" else "ann@example.org"

/-- The theorem where both are past the count before the first commits: the second is refused. -/
theorem one_owner_ann : ∃ es w, World.Trace (Considerate context fun i => founding (annTwice i))
    (fresh annTwice) es w ∧ w.sh.db.users.length = 1 ∧ (w.procs true).tx.isNone ∧
    (es.Pairwise fun e e' => ¬ (Commits e ∧ Commits e')) ∧
    (∀ e ∈ es, Commits e → e.before.sh.db.users = []) ∧
    ((fresh annTwice).sh.db.users = [] →
      w.sh.db.users.countP (fun u => decide (u.instanceRole = .owner)) ≤ 1) := by
  have hsame : ∀ i j, address context (founding (annTwice i)).2 =
      address context (founding (annTwice j)).2 := by
    decide +kernel
  have hrun : ((fresh annTwice).follow (bobCounts ++ (false, Sample.calm 40) ::
      Sample.steps true 41 4)).isSome := by decide +kernel
  obtain ⟨es, -, ht⟩ := World.trace_reach (C := Considerate context fun i => founding (annTwice i))
    (fun _ _ _ _ _ _ j _ _ _ => hsame j _) .start hrun
  exact ⟨es, _, ht, by decide +kernel, by decide +kernel, one_owner (fun _ => rfl) ht⟩

end SylvaServer.FirstOwner
