/-
  Closing an account and its address.

  The index on the lower-cased address ranges over every row, while `email_in_use` looks at the
  accounts that are not closed. Closing an account puts `deleted+<id>@purged.invalid` in the place
  of its address, and nothing keeps that address for it: a user may take it, or hold it again after
  a reactivation.

  Proved: no two rows share an address (`Indexed.change`), a user's account can be closed and
  the address used again exactly where nobody holds the address it would get (`frees_iff`), and in
  every run in which nobody asks for such an address and no closed account is opened again this is
  so (`anonymize_frees_email`). In `address_taken` an account cannot be closed because somebody has
  signed up with the address it would get.
-/
import SylvaServer.Identity.HardRemoval

namespace SylvaServer.Redaction

open ReadCommitted ReadCommitted.Prog UserRepository

/-! ## The operations -/

/-- An operation of `UserRepository`. -/
inductive AccountOp where
  | create (email displayName : String) (instanceRole : InstanceRole) (lifecycle : UserLifecycle)
  | updateEmail (id : Uuid) (newEmail : String)
  | deactivate (id : Uuid)
  | reactivate (id : Uuid)
  | anonymize (id : Uuid)
  | hardRemove (id : Uuid)

/-- The users after an operation on them. -/
inductive Change (lib : Libs) (users users' : List User) : Prop where
  | none (hrows : users' = users)
  | insert (row : User) (hfree : ∀ v ∈ users, v.id ≠ row.id)
      (hnew : ∀ v ∈ users, lib.lower v.email ≠ lib.lower row.email)
      (hrows : users' = users ++ [row])
  | update (id : Uuid) (f : User → User) (hid : ∀ u, (f u).id = u.id)
      (hnew : ∀ u ∈ users, u.id = id → ∀ v ∈ users, v.id ≠ id →
        lib.lower v.email ≠ lib.lower (f u).email)
      (hrows : users' = users.map fun u => if u.id == id then f u else u)
  | remove (id : Uuid) (hrows : users' = users.filter fun u => u.id != id)

/-- Ids are keys, and no two rows share an address. -/
structure Indexed (lib : Libs) (users : List User) : Prop where
  keyed : Keyed (Table.key .users) users
  address : ∀ u ∈ users, ∀ v ∈ users, lib.lower u.email = lib.lower v.email → u = v

theorem redactedEmail_inj {id id' : Uuid} (h : redactedEmail id = redactedEmail id') :
    id = id' := by
  have hlist := congrArg String.toList h
  simp only [redactedEmail, String.toList_append, List.append_assoc] at hlist
  exact Uuid.toString_inj
    (String.toList_inj.mp (List.append_cancel_right (List.append_cancel_left hlist)))

section Indexed

variable {lib : Libs} {users users' : List User}

theorem Indexed.same_id (h : Indexed lib users) {u v : User} (hu : u ∈ users) (hv : v ∈ users)
    (hid : u.id = v.id) : u = v := h.keyed.eq hu hv (congrArg Key.uuid hid)

/-- Another user has another address. -/
theorem Indexed.ne_address (h : Indexed lib users) {u v : User} (hu : u ∈ users) (hv : v ∈ users)
    (hid : v.id ≠ u.id) : lib.lower v.email ≠ lib.lower u.email :=
  fun hsame => hid (congrArg User.id (h.address v hv u hu hsame))

/-- An operation keeps the index. -/
theorem Indexed.change (h : Indexed lib users) (hchange : Change lib users users') :
    Indexed lib users' := by
  cases hchange with
  | none hrows => rwa [hrows]
  | insert row hfree hnew hrows =>
    have hput : users ++ [row] = putRow (Table.key .users) row users :=
      (putRow_fresh fun v hv hkey => hfree v hv (Key.uuid.inj hkey)).symm
    subst hrows
    refine ⟨?_, fun u hu v hv hsame => ?_⟩
    · rw [hput]
      exact keyed_putRow h.keyed
    · rcases List.mem_append.mp hu with hu | hu <;> rcases List.mem_append.mp hv with hv | hv
      · exact h.address u hu v hv hsame
      · rw [List.mem_singleton.mp hv] at hsame
        exact absurd hsame (hnew u hu)
      · rw [List.mem_singleton.mp hu] at hsame
        exact absurd hsame.symm (hnew v hv)
      · rw [List.mem_singleton.mp hu, List.mem_singleton.mp hv]
  | update id f hid hnew hrows =>
    subst hrows
    refine ⟨keyed_map h.keyed fun u => ?_, fun u' hu' v' hv' hsame => ?_⟩
    · split
      · exact congrArg Key.uuid (hid u)
      · rfl
    · obtain ⟨u, hu, rfl⟩ := List.mem_map.mp hu'
      obtain ⟨v, hv, rfl⟩ := List.mem_map.mp hv'
      by_cases hu₁ : u.id = id <;> by_cases hv₁ : v.id = id
      · rw [h.same_id hu hv (hu₁.trans hv₁.symm)]
      · rw [if_pos (beq_iff_eq.mpr hu₁), if_neg (mt beq_iff_eq.mp hv₁)] at hsame
        exact absurd hsame.symm (hnew u hu hu₁ v hv hv₁)
      · rw [if_neg (mt beq_iff_eq.mp hu₁), if_pos (beq_iff_eq.mpr hv₁)] at hsame
        exact absurd hsame (hnew v hv hv₁ u hu hu₁)
      · rw [if_neg (mt beq_iff_eq.mp hu₁), if_neg (mt beq_iff_eq.mp hv₁)] at hsame
        rw [h.address u hu v hv hsame]
  | remove id hrows =>
    subst hrows
    exact ⟨keyed_filter h.keyed _, fun u hu v hv => h.address u (List.mem_of_mem_filter hu) v
      (List.mem_of_mem_filter hv)⟩

end Indexed

/-! ## What an operation does -/

def AccountOp.program (lib : Libs) : AccountOp → Query Unit
  | .create email displayName instanceRole lifecycle => do
    let _ ← inTx (UserRepository.create lib email displayName instanceRole lifecycle)
  | .updateEmail id newEmail => do
    let _ ← inTx (UserRepository.updateEmail lib id newEmail)
  | .deactivate id => do
    let _ ← inTx (UserRepository.deactivate id)
  | .reactivate id => do
    let _ ← inTx (UserRepository.reactivate id)
  | .anonymize id => do
    let _ ← UserRepository.anonymize lib id
  | .hardRemove id => do
    let _ ← inTx (UserRepository.hardRemove id)

/-- An operation in a transaction of its own. -/
def perform (lib : Libs) (op : AccountOp) (env : Env) (sh : Shared) :
    Option (Except SqlError Unit × Shared) := (inTransaction (op.program lib)).alone env sh

/-- An operation that has run. -/
abbrev AccountStep := Done AccountOp Env (Except SqlError Unit) Shared

/-- A row after the redacting `UPDATE`. -/
def redactedRow (now : DateTime) (id : Uuid) (u : User) : User :=
  { u with
    email := redactedEmail id
    displayName := "[deleted user]"
    locale := none
    lifecycle := .anonymized
    updatedAt := now }

section Specs

variable (lib : Libs) (env : Env) (sh : Shared)

/-- A transaction of one statement whose result is dropped. -/
theorem alone_statement {β : Type} (s : Statement β) :
    (inTransaction (do let _ ← inTx s : Query Unit)).alone env sh =
      some ((s env sh.mem sh.db).result.map fun _ => (), settle (s env sh.mem sh.db) sh.db) := by
  rw [alone_map, alone_inTx]
  rfl

/-- There is no such account. -/
theorem anonymize_absent {id : Uuid} (hu : ∀ v ∈ sh.db.users, v.id ≠ id) :
    (inTransaction (anonymize lib id)).alone env sh = some (.error .rowNotFound, sh) := by
  have hrows : sh.db.users.filter (·.id == id) = [] :=
    List.filter_eq_nil_iff.mpr fun v hv => by simpa using hu v hv
  have hemail : emailForUpdate id env sh.mem sh.db = failed .rowNotFound sh.mem := by
    unfold emailForUpdate
    rw [hrows]
    rfl
  simp [anonymize, redactAndTerminate, alone_inTransaction, inTx, exec, hemail, failed, close]

variable {lib sh} {u : User}

theorem filter_id (hkeyed : Keyed (Table.key .users) sh.db.users) (hu : u ∈ sh.db.users) :
    sh.db.users.filter (·.id == u.id) = [u] :=
  keyed_filter_eq hkeyed hu (fun _ hv => congrArg Key.uuid (by simpa using hv))
    (beq_self_eq_true u.id)

theorem emailForUpdate_eq (hkeyed : Keyed (Table.key .users) sh.db.users) (hu : u ∈ sh.db.users) :
    emailForUpdate u.id env sh.mem sh.db =
      { result := .ok u.email, writes := [], locks := [.row .users (.uuid u.id)],
        mem := sh.mem } := by
  unfold emailForUpdate
  rw [filter_id hkeyed hu]
  rfl

/-- Somebody other than `id` has the address that `id` would get. -/
def taken (lib : Libs) (users : List User) (id : Uuid) : Bool :=
  users.any fun v => v.id != id && lib.lower v.email == lib.lower (redactedEmail id)

theorem taken_iff {users : List User} {id : Uuid} : taken lib users id = true ↔
    ∃ v ∈ users, v.id ≠ id ∧ lib.lower v.email = lib.lower (redactedEmail id) := by
  simp [taken]

theorem redact_taken (hu : u ∈ sh.db.users) (htaken : taken lib sh.db.users u.id = true) :
    redact lib u.id env sh.mem sh.db = failed uniqueViolation sh.mem := by
  have hany : sh.db.users.any (·.id == u.id) = true := List.any_eq_true.mpr ⟨u, hu, by simp⟩
  unfold redact
  exact if_pos (by rw [hany]; exact htaken)

theorem redact_free (hkeyed : Keyed (Table.key .users) sh.db.users) (hu : u ∈ sh.db.users)
    (hfree : taken lib sh.db.users u.id = false) :
    ∃ locks, redact lib u.id env sh.mem sh.db =
      { result := .ok (redactedRow env.pgNow u.id u)
        writes :=
      (updateRows .users (·.id == u.id) (redactedRow env.pgNow u.id) sh.mem sh.db).writes
        locks := locks
        mem := sh.mem } := by
  have hrows : updateRows .users (·.id == u.id) (redactedRow env.pgNow u.id) sh.mem sh.db =
      { result := .ok [redactedRow env.pgNow u.id u]
        writes := (updateRows .users (·.id == u.id) (redactedRow env.pgNow u.id)
          sh.mem sh.db).writes
        locks := []
        mem := sh.mem } := by
    simp only [updateRows, filter_id hkeyed hu, List.map_cons, List.map_nil]
  unfold redact
  rw [if_neg (by rw [Bool.and_eq_true]; exact fun h => absurd (hfree.symm.trans h.2) (by simp))]
  exact ⟨_, readAs_ok (congrArg Outcome.result hrows) rfl⟩

/-- **Closing an account** fails where somebody else has its new address. -/
theorem anonymize_taken (hkeyed : Keyed (Table.key .users) sh.db.users) (hu : u ∈ sh.db.users)
    (htaken : taken lib sh.db.users u.id = true) :
    (inTransaction (anonymize lib u.id)).alone env sh = some (.error uniqueViolation, sh) := by
  have hemail := emailForUpdate_eq env hkeyed hu
  have hredact := redact_taken env hu htaken
  simp [anonymize, redactAndTerminate, alone_inTransaction, inTx, exec, hemail, hredact, failed,
    close]

/-- And goes through everywhere else. -/
theorem anonymize_free (hkeyed : Keyed (Table.key .users) sh.db.users) (hu : u ∈ sh.db.users)
    (hfree : taken lib sh.db.users u.id = false) :
    (inTransaction (anonymize lib u.id)).alone env sh =
      some (.ok (redactedRow env.pgNow u.id u, u.email),
        ⟨applyAll sh.db
          (updateRows .users (·.id == u.id) (redactedRow env.pgNow u.id) sh.mem sh.db).writes,
          sh.mem⟩) := by
  have hemail := emailForUpdate_eq env hkeyed hu
  obtain ⟨locks, hredact⟩ := redact_free env hkeyed hu hfree
  simp [anonymize, redactAndTerminate, alone_inTransaction, inTx, exec, hemail, hredact, close]

/-- The users after it. -/
theorem users_redacted (hindexed : Indexed lib sh.db.users) :
    (applyAll sh.db
      (updateRows .users (·.id == u.id) (redactedRow env.pgNow u.id) sh.mem sh.db).writes).users =
      sh.db.users.map fun v => if v.id == u.id then redactedRow env.pgNow u.id v else v :=
  updateRows_rows sh.mem hindexed.keyed fun _ => rfl

/-- A new user with an address nobody has. -/
theorem create_new {email : String} (displayName : String) (instanceRole : InstanceRole)
    (lifecycle : UserLifecycle) (hid : ∀ v ∈ sh.db.users, v.id ≠ env.uuid)
    (hnew : ∀ v ∈ sh.db.users, lib.lower v.email ≠ lib.lower email) :
    ∃ row, row.email = email ∧ (inTransaction (inTx (create lib email displayName instanceRole
      lifecycle))).alone env sh = some (.ok row, ⟨sh.db.put .users row, sh.mem⟩) := by
  have hunused : (sh.db.users.any fun u => lib.lower u.email == lib.lower email) = false :=
    List.any_eq_false.mpr fun v hv => by simpa using hnew v hv
  have hfresh : ∀ row : User, row.id = env.uuid → ((sh.db.rows .users).any fun r =>
      Table.key .users r == Table.key .users row) = false := by
    intro row hrow
    refine List.any_eq_false.mpr fun v hv hkey => hid v hv ?_
    rw [← hrow]
    exact Key.uuid.inj (beq_iff_eq.mp hkey)
  rw [alone_inTx]
  unfold create insertRow
  rw [hunused, if_neg (by rw [hfresh _ rfl]; simp), if_neg (by simp)]
  exact ⟨_, rfl, rfl⟩

/-- The index refuses a new user with an address in use. -/
theorem create_used {email displayName : String} {instanceRole : InstanceRole}
    {lifecycle : UserLifecycle} {v : User} (hv : v ∈ sh.db.users)
    (hused : lib.lower v.email = lib.lower email) :
    (inTransaction (inTx (create lib email displayName instanceRole lifecycle))).alone env sh =
      some (.error uniqueViolation, sh) := by
  have hany : (sh.db.users.any fun u => lib.lower u.email == lib.lower email) = true :=
    List.any_eq_true.mpr ⟨v, hv, by simpa using hused⟩
  rw [alone_inTx]
  unfold create insertRow
  rw [hany, if_pos (by simp)]
  rfl

end Specs

/-! ## The address is free again -/

/-- The account can be closed, and right afterwards its address is not in use and a new user
    may have it. -/
def Frees (lib : Libs) (env env' : Env) (sh : Shared) (u : User) : Prop :=
  ∃ row sh', (inTransaction (anonymize lib u.id)).alone env sh = some (.ok (row, u.email), sh') ∧
    (emailInUse lib u.email env' sh'.mem sh'.db).result = .ok false ∧
    ∀ displayName instanceRole lifecycle, ∃ new sh'',
      (inTransaction (inTx (create lib u.email displayName instanceRole lifecycle))).alone
        env' sh' =
        some (.ok new, sh'')

section Frees

variable {lib : Libs} {sh : Shared} {u : User} (env env' : Env)

/-- **An address is freed** exactly where nobody holds the one that takes its place. -/
theorem frees_iff (hindexed : Indexed lib sh.db.users) (hu : u ∈ sh.db.users)
    (hid : ∀ v ∈ sh.db.users, v.id ≠ env'.uuid) : Frees lib env env' sh u ↔
      ∀ v ∈ sh.db.users, lib.lower v.email ≠ lib.lower (redactedEmail u.id) := by
  cases htaken : taken lib sh.db.users u.id with
  | true =>
    obtain ⟨v, hv, -, hsame⟩ := taken_iff.mp htaken
    constructor
    · rintro ⟨row, sh', hrun, -⟩
      rw [anonymize_taken env hindexed.keyed hu htaken] at hrun
      exact absurd (Prod.mk.inj (Option.some.inj hrun)).1 (by simp)
    · intro hnone
      exact absurd hsame (hnone v hv)
  | false =>
    have hothers : ∀ v ∈ sh.db.users, v.id ≠ u.id →
        lib.lower v.email ≠ lib.lower (redactedEmail u.id) :=
      fun v hv hne hsame => absurd (htaken.symm.trans (taken_iff.mpr ⟨v, hv, hne, hsame⟩)) (by simp)
    have hrun := anonymize_free env hindexed.keyed hu htaken
    have husers := users_redacted (u := u) env hindexed
    set sh' : Shared :=
      ⟨applyAll sh.db (updateRows .users (·.id == u.id) (redactedRow env.pgNow u.id)
      sh.mem sh.db).writes, sh.mem⟩ with hsh'
    have hrows : sh'.db.users = _ := husers
    constructor
    · rintro ⟨row, sh₁, hrun', -, hcreate⟩ v hv hsame
      obtain ⟨-, rfl⟩ := Prod.mk.inj (Option.some.inj (hrun.symm.trans hrun'))
      by_cases hvu : v.id = u.id
      · -- the user itself had the address, and its row has it still
        obtain rfl := hindexed.same_id hv hu hvu
        obtain ⟨new, sh'', hcreate⟩ := hcreate "" .member .active
        have hrow : redactedRow env.pgNow v.id v ∈ sh'.db.users := by
          rw [hrows]
          exact List.mem_map.mpr ⟨v, hv, if_pos (beq_self_eq_true _)⟩
        rw [create_used env' hrow hsame.symm] at hcreate
        exact absurd (Prod.mk.inj (Option.some.inj hcreate)).1 (by simp)
      · exact hothers v hv hvu hsame
    · intro hnone
      have hfree : ∀ v ∈ sh'.db.users, lib.lower v.email ≠ lib.lower u.email := by
        intro v' hv'
        rw [hrows] at hv'
        obtain ⟨v, hv, rfl⟩ := List.mem_map.mp hv'
        split
        · exact fun hsame => hnone u hu hsame.symm
        · next hne => exact hindexed.ne_address hu hv (by simpa using hne)
      refine ⟨_, sh', hrun, ?_, fun displayName instanceRole lifecycle => ?_⟩
      · unfold emailInUse select
        refine congrArg Except.ok (List.any_eq_false.mpr fun v hv => ?_)
        simp [hfree v hv]
      · have hid' : ∀ v ∈ sh'.db.users, v.id ≠ env'.uuid := by
          intro v' hv'
          rw [hrows] at hv'
          obtain ⟨v, hv, rfl⟩ := List.mem_map.mp hv'
          split
          · exact hid v hv
          · exact hid v hv
        obtain ⟨new, -, hcreate⟩ := create_new env' displayName instanceRole lifecycle hid' hfree
        exact ⟨new, _, hcreate⟩

end Frees

/-! ## Runs -/

/-- A row an operation has written. -/
def Written (users : List User) (v' : User) : AccountOp → Prop
  | .create email .. => v'.email = email
  | .updateEmail _ newEmail => v'.email = newEmail
  | .deactivate id => ∃ v ∈ users, v.id = id ∧ v'.email = v.email
  | .reactivate id => ∃ v ∈ users, v.id = id ∧ v'.email = v.email
  | .anonymize _ => v'.lifecycle = .anonymized ∧ v'.email = redactedEmail v'.id
  | .hardRemove _ => False

/-- The users after an operation: the index is kept, and each row is an old one or written. -/
def Next (lib : Libs) (op : AccountOp) (users users' : List User) : Prop :=
  Change lib users users' ∧ ∀ v' ∈ users', v' ∈ users ∨ Written users v' op

section Next

variable {lib : Libs} {op : AccountOp} {sh sh' : Shared} {env : Env} {r : Except SqlError Unit}

theorem next_none (op : AccountOp) (users : List User) : Next lib op users users :=
  ⟨.none rfl, fun _ hv => Or.inl hv⟩

theorem next_insert {row : User}
    (hfree : ∀ v ∈ sh.db.users, Table.key .users v ≠ Table.key .users row)
    (hnew : ∀ v ∈ sh.db.users, lib.lower v.email ≠ lib.lower row.email)
    (hwritten : Written sh.db.users row op) :
    Next lib op sh.db.users (applyAll sh.db [Write.put .users row]).users := by
  have hrows : (applyAll sh.db [Write.put .users row]).users = sh.db.users ++ [row] :=
    put_rows_fresh hfree
  refine ⟨.insert row (fun v hv hid => hfree v hv (congrArg Key.uuid hid)) hnew hrows,
    fun v hv => ?_⟩
  rw [hrows] at hv
  rcases List.mem_append.mp hv with hv | hv
  · exact Or.inl hv
  · rw [List.mem_singleton.mp hv]
    exact Or.inr hwritten

/-- An `UPDATE` of the user with an id that is committed, or has found no row. -/
theorem next_update (hindexed : Indexed lib sh.db.users) {id : Uuid} {f : User → User}
    {o : Outcome Write LockKey Mem SqlError (List User)}
    (ho : o.writes = (updateRows .users (·.id == id) f sh.mem sh.db).writes)
    (hid : ∀ u, (f u).id = u.id)
    (hnew : ∀ u ∈ sh.db.users, u.id = id → ∀ v ∈ sh.db.users, v.id ≠ id →
      lib.lower v.email ≠ lib.lower (f u).email)
    (hwritten : ∀ u ∈ sh.db.users, u.id = id → Written sh.db.users (f u) op) :
    Next lib op sh.db.users (settle (readAs fetchOne o) sh.db).db.users := by
  rcases (readAs_cases fetchOne o).2 with ⟨⟨e, he⟩, -⟩ | ⟨rows, row, -, -, hok, hwrites, -⟩
  · rw [settle_error he]
    exact next_none op _
  · have hrows : (settle (readAs fetchOne o) sh.db).db.users =
        sh.db.users.map fun u => if u.id == id then f u else u := by
      rw [settle_ok hok, hwrites, ho]
      exact updateRows_rows sh.mem hindexed.keyed fun u => congrArg Key.uuid (hid u)
    refine ⟨.update id f hid hnew hrows, fun v' hv' => ?_⟩
    rw [hrows] at hv'
    obtain ⟨u, hu, rfl⟩ := List.mem_map.mp hv'
    split
    · next hmatch => exact Or.inr (hwritten u hu (by simpa using hmatch))
    · exact Or.inl hu

/-- An `UPDATE` that leaves the address. -/
theorem next_lifecycle (hindexed : Indexed lib sh.db.users) {id : Uuid} {f : User → User}
    (hid : ∀ u, (f u).id = u.id) (hemail : ∀ u, (f u).email = u.email)
    (hwritten : ∀ u ∈ sh.db.users, u.id = id → Written sh.db.users (f u) op) :
    Next lib op sh.db.users
      (settle (readAs fetchOne (updateRows .users (·.id == id) f sh.mem sh.db))
      sh.db).db.users := by
  refine next_update hindexed rfl hid (fun u hu hu₁ v hv hv₁ => ?_) hwritten
  rw [hemail]
  exact hindexed.ne_address hu hv (hu₁ ▸ hv₁)

/-- **What an operation does to the users.** -/
theorem perform_next (hindexed : Indexed lib sh.db.users)
    (h : perform lib op env sh = some (r, sh')) : Next lib op sh.db.users sh'.db.users := by
  unfold perform at h
  cases op with
  | create email displayName instanceRole lifecycle =>
    simp only [AccountOp.program, alone_statement, Option.some.injEq, Prod.mk.injEq] at h
    obtain ⟨-, rfl⟩ := h
    rcases insertRow_cases .users _ _ _ _ sh.mem sh.db with ⟨e, hfail⟩ | ⟨hinsert, hfree, hused, -⟩
    · rw [create, hfail]
      exact next_none _ _
    · rw [create, hinsert]
      refine next_insert hfree (fun v hv hsame => ?_) rfl
      exact List.any_eq_false.mp hused v hv (by simpa using hsame)
  | updateEmail id newEmail =>
    simp only [AccountOp.program, alone_statement, Option.some.injEq, Prod.mk.injEq] at h
    obtain ⟨-, rfl⟩ := h
    unfold UserRepository.updateEmail
    split
    · exact next_none _ _
    · next hfree =>
      refine next_update hindexed rfl (fun _ => rfl) (fun u hu hid v hv hne hsame => hfree ?_)
        fun u _ _ => rfl
      rw [Bool.and_eq_true, List.any_eq_true, List.any_eq_true]
      exact ⟨⟨u, hu, by simpa using hid⟩, v, hv, by simpa using ⟨hne, hsame⟩⟩
  | deactivate id =>
    simp only [AccountOp.program, alone_statement, Option.some.injEq, Prod.mk.injEq] at h
    obtain ⟨-, rfl⟩ := h
    exact next_lifecycle hindexed (fun _ => rfl) (fun _ => rfl) fun u hu hid => ⟨u, hu, hid, rfl⟩
  | reactivate id =>
    simp only [AccountOp.program, alone_statement, Option.some.injEq, Prod.mk.injEq] at h
    obtain ⟨-, rfl⟩ := h
    exact next_lifecycle hindexed (fun _ => rfl) (fun _ => rfl) fun u hu hid => ⟨u, hu, hid, rfl⟩
  | anonymize id =>
    rw [AccountOp.program, alone_map] at h
    by_cases hu : ∃ u ∈ sh.db.users, u.id = id
    · obtain ⟨u, hu, rfl⟩ := hu
      cases htaken : taken lib sh.db.users u.id with
      | true =>
        rw [anonymize_taken env hindexed.keyed hu htaken] at h
        obtain ⟨-, rfl⟩ := Prod.mk.inj (Option.some.inj h)
        exact next_none _ _
      | false =>
        rw [anonymize_free env hindexed.keyed hu htaken] at h
        obtain ⟨-, rfl⟩ := Prod.mk.inj (Option.some.inj h)
        have hrows := users_redacted (u := u) env hindexed
        refine ⟨.update u.id (redactedRow env.pgNow u.id) (fun _ => rfl)
          (fun _ _ _ v hv hne hsame => ?_) hrows, fun v' hv' => ?_⟩
        · exact absurd (htaken.symm.trans (taken_iff.mpr ⟨v, hv, hne, hsame⟩)) (by simp)
        · rw [hrows] at hv'
          obtain ⟨v, hv, rfl⟩ := List.mem_map.mp hv'
          split
          · next hid =>
            have hid : v.id = u.id := by simpa using hid
            exact Or.inr ⟨rfl, congrArg redactedEmail hid.symm⟩
          · exact Or.inl hv
    · rw [anonymize_absent lib env sh fun v hv hid => hu ⟨v, hv, hid⟩] at h
      obtain ⟨-, rfl⟩ := Prod.mk.inj (Option.some.inj h)
      exact next_none _ _
  | hardRemove id =>
    simp only [AccountOp.program, alone_statement, Option.some.injEq, Prod.mk.injEq] at h
    obtain ⟨-, rfl⟩ := h
    rw [settle_ok (HardRemoval.hardRemove_result env sh.mem)]
    have husers := HardRemoval.hardRemove_users (u := id) env sh.mem hindexed.keyed
    refine ⟨.remove id husers, fun v hv => Or.inl ?_⟩
    exact List.mem_of_mem_filter (husers ▸ hv)

end Next

/-! ## Every history -/

/-- Nobody asks for an address that a closed account may get, and no closed account is opened
    again or deactivated. -/
def Ordinary (lib : Libs) (_ : List AccountStep) (d : AccountStep) : Prop :=
  match d.op with
  | .create email .. => ∀ id, lib.lower email ≠ lib.lower (redactedEmail id)
  | .updateEmail _ newEmail => ∀ id, lib.lower newEmail ≠ lib.lower (redactedEmail id)
  | .deactivate id => ∀ v ∈ d.before.db.users, v.id = id → v.lifecycle ≠ .anonymized
  | .reactivate id => ∀ v ∈ d.before.db.users, v.id = id → v.lifecycle ≠ .anonymized
  | .anonymize _ => True
  | .hardRemove _ => True

/-- A closed account with the address of its own, or a row with an ordinary address. -/
def Plain (lib : Libs) (v : User) : Prop :=
  (v.lifecycle = .anonymized ∧ v.email = redactedEmail v.id) ∨
    ∀ id, lib.lower v.email ≠ lib.lower (redactedEmail id)

section Histories

variable {lib : Libs} {sh s : Shared} {h : List AccountStep}
  {C : List AccountStep → AccountStep → Prop}

theorem indexed_history (hempty : sh.db.users = []) (hh : History (perform lib) C sh h s) :
    Indexed lib s.db.users := by
  induction hh with
  | start =>
    rw [hempty]
    exact ⟨List.nodup_nil, by simp⟩
  | step op env _ hperform _ ih => exact ih.change (perform_next ih hperform).1

/-- An ordinary operation writes plain rows. -/
theorem written_plain {d : AccountStep} {v' : User} (hplain : ∀ v ∈ d.before.db.users, Plain lib v)
    (hC : Ordinary lib h d) (hwritten : Written d.before.db.users v' d.op) : Plain lib v' := by
  have hkept : ∀ v ∈ d.before.db.users, v.lifecycle ≠ .anonymized →
      v'.email = v.email → Plain lib v' := by
    intro v hv hopen hemail
    refine Or.inr fun id => ?_
    rw [hemail]
    exact (hplain v hv).resolve_left (fun hclosed => hopen hclosed.1) id
  unfold Ordinary at hC
  unfold Written at hwritten
  split at hC
  · next heq =>
    rw [heq] at hwritten
    exact Or.inr (hwritten ▸ hC)
  · next heq =>
    rw [heq] at hwritten
    exact Or.inr (hwritten ▸ hC)
  · next heq =>
    rw [heq] at hwritten
    obtain ⟨v, hv, hid, hemail⟩ := hwritten
    exact hkept v hv (hC v hv hid) hemail
  · next heq =>
    rw [heq] at hwritten
    obtain ⟨v, hv, hid, hemail⟩ := hwritten
    exact hkept v hv (hC v hv hid) hemail
  · next heq =>
    rw [heq] at hwritten
    exact Or.inl hwritten
  · next heq =>
    rw [heq] at hwritten
    exact hwritten.elim

theorem plain_history (hempty : sh.db.users = [])
    (hh : History (perform lib) (Ordinary lib) sh h s) :
    ∀ v ∈ s.db.users, Plain lib v := by
  induction hh with
  | start =>
    rw [hempty]
    simp
  | step op env hh hperform hC ih =>
    intro v' hv'
    rcases (perform_next (indexed_history hempty hh) hperform).2 v' hv' with hold | hwritten
    · exact ih v' hold
    · exact written_plain ih hC hwritten

/-- **Closing an account frees its address** exactly where nobody holds the address that takes its
    place; in a run of ordinary operations nobody ever does. -/
theorem anonymize_frees_email (hlower : ∀ id, lib.lower (redactedEmail id) = redactedEmail id)
    (mem : Mem) :
    (∀ C h s, History (perform lib) C ⟨Db.empty, mem⟩ h s → ∀ u ∈ s.db.users, ∀ env env' : Env,
      (∀ v ∈ s.db.users, v.id ≠ env'.uuid) → (Frees lib env env' s u ↔
        ∀ v ∈ s.db.users, lib.lower v.email ≠ lib.lower (redactedEmail u.id))) ∧
    ∀ h s, History (perform lib) (Ordinary lib) ⟨Db.empty, mem⟩ h s → ∀ u ∈ s.db.users,
      u.lifecycle ≠ .anonymized → ∀ env env' : Env, (∀ v ∈ s.db.users, v.id ≠ env'.uuid) →
        Frees lib env env' s u := by
  refine ⟨fun C h s hh u hu env env' hid => frees_iff env env' (indexed_history rfl hh) hu hid,
    fun h s hh u hu hopen env env' hid => ?_⟩
  have hindexed := indexed_history rfl hh
  rw [frees_iff env env' hindexed hu hid]
  intro v hv hsame
  rcases plain_history rfl hh v hv with ⟨hclosed, hemail⟩ | hordinary
  · rw [hemail, hlower, hlower] at hsame
    obtain rfl := hindexed.same_id hv hu (redactedEmail_inj hsame)
    exact hopen hclosed
  · exact hordinary u.id hsame

end Histories

/-! ## Ann and her impostor -/

/-- A text without capital letters. -/
def Small (text : String) : Prop := ∀ c ∈ text.toList, c.toLower = c

theorem small_append {s t : String} (hs : Small s) (ht : Small t) : Small (s ++ t) := by
  intro c hc
  rw [String.toList_append] at hc
  exact (List.mem_append.mp hc).elim (hs c) (ht c)

theorem small_hex (bytes : Bytes) : Small (hex bytes) := by
  intro c hc
  rw [hex_toList, List.mem_flatMap] at hc
  obtain ⟨b, -, hc⟩ := hc
  have hdigit : ∀ n < 16, (Delimited.hexDigit n).toLower = Delimited.hexDigit n := by decide +kernel
  have hlt : b.toNat < 256 := b.toNat_lt
  rcases List.mem_pair.mp hc with rfl | rfl
  · exact hdigit _ (by omega)
  · exact hdigit _ (by omega)

theorem small_uuid (id : Uuid) : Small id.toString := by
  have hdash : Small "-" := List.forall_iff_forall_mem.mp (by decide +kernel)
  have hgroup : ∀ {text : String} (bytes : Bytes), Small text → Small (text ++ "-" ++ hex bytes) :=
    fun bytes htext => small_append (small_append htext hdash) (small_hex bytes)
  exact hgroup _ (hgroup _ (hgroup _ (hgroup _ (small_hex _))))

/-- `lower` leaves a redacted address as it is. -/
theorem lower_redactedEmail (id : Uuid) :
    Libs.sample.lower (redactedEmail id) = redactedEmail id := by
  have hprefix : Small "deleted+" := List.forall_iff_forall_mem.mp (by decide +kernel)
  have hdomain : Small "@purged.invalid" := List.forall_iff_forall_mem.mp (by decide +kernel)
  have hsmall : Small (redactedEmail id) := small_append
    (small_append hprefix (small_uuid id)) hdomain
  have hmap : (redactedEmail id).toList.map Char.toLower = (redactedEmail id).toList := by
    rw [List.map_congr_left hsmall, List.map_id']
  exact (congrArg String.ofList hmap).trans String.ofList_toList

/-- Ann signs up. -/
def annSignsUp : AccountOp := .create "ann@example.org" "Ann" .member .active

/-- Bob signs up with the address that closing Ann's account would put in the place of hers. -/
def bobSignsUp : AccountOp := .create (redactedEmail (Sample.uuid 1)) "Bob" .member .active

def nobodyYet : Shared := ⟨Db.empty, Mem.fresh⟩

theorem anonymize_frees_email_ann :
    ∃ h s, History (perform Libs.sample) (Ordinary Libs.sample) nobodyYet h s ∧
    ∃ u ∈ s.db.users, u.lifecycle ≠ .anonymized ∧
      Frees Libs.sample (Env.at 1000 0 2) (Env.at 2000 0 2) s u := by
  let x := (perform Libs.sample annSignsUp (Env.at 0 0 1) nobodyYet).get (by decide +kernel)
  have hh : History (perform Libs.sample) (Ordinary Libs.sample) nobodyYet
      [⟨annSignsUp, Env.at 0 0 1, nobodyYet, x.1, x.2⟩] x.2 := by
    refine History.start.step _ _ (Option.some_get _).symm fun id hsame => ?_
    have hann : (Libs.sample.lower "ann@example.org").toList.head? = some 'a' := by decide +kernel
    have hredacted : (redactedEmail id).toList.head? = some 'd' := by
      simp only [redactedEmail, String.toList_append, List.append_assoc]
      rfl
    rw [hsame, lower_redactedEmail, hredacted] at hann
    exact absurd (Option.some.inj hann) (by decide)
  obtain ⟨-, hfrees⟩ := anonymize_frees_email lower_redactedEmail Mem.fresh
  obtain ⟨u, hu, hopen⟩ : ∃ u ∈ x.2.db.users, u.lifecycle ≠ .anonymized := by decide +kernel
  have hid : ∀ v ∈ x.2.db.users, v.id ≠ (Env.at 2000 0 2).uuid := by decide +kernel
  exact ⟨_, _, hh, u, hu, hopen, hfrees _ _ hh u hu hopen _ _ hid⟩

/-- **The address is taken**: Ann's account cannot be closed while Bob is there. -/
theorem address_taken : ∃ h s, History (perform Libs.sample) (fun _ _ => True) nobodyYet h s ∧
    ∃ u ∈ s.db.users, u.lifecycle = .active ∧
      (inTransaction (anonymize Libs.sample u.id)).alone (Env.at 1000 0 3) s =
        some (.error uniqueViolation, s) ∧
      ¬ Frees Libs.sample (Env.at 1000 0 3) (Env.at 2000 0 3) s u := by
  let x := (perform Libs.sample annSignsUp (Env.at 0 0 1) nobodyYet).get (by decide +kernel)
  let x' := (perform Libs.sample bobSignsUp (Env.at 0 0 2) x.2).get (by decide +kernel)
  have hh : History (perform Libs.sample) (fun _ _ => True) nobodyYet _ x'.2 :=
    (History.start.step annSignsUp (Env.at 0 0 1) (Option.some_get _).symm trivial).step bobSignsUp
      (Env.at 0 0 2) (Option.some_get _).symm trivial
  obtain ⟨u, hu, hactive, htaken⟩ : ∃ u ∈ x'.2.db.users, u.lifecycle = .active ∧
      taken Libs.sample x'.2.db.users u.id = true := by decide +kernel
  have hrefused := anonymize_taken (Env.at 1000 0 3) (indexed_history rfl hh).keyed hu htaken
  refine ⟨_, _, hh, u, hu, hactive, hrefused, ?_⟩
  rintro ⟨row, sh', hrun, -⟩
  rw [hrefused] at hrun
  exact absurd (Prod.mk.inj (Option.some.inj hrun)).1 (by simp)

end SylvaServer.Redaction
