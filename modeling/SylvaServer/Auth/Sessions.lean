/-
  The life of a session.

  The operations of `SessionRepository`, and those of `UserRepository` that bear on a session, one
  after the other, each on its own. One query decides whether a token is valid; three `UPDATE`s
  revoke, each with a filter of its own, and only one of them looks at a session by its id.

  Proved: what an operation does to the sessions and the users (`perform_spec`), that each row is
  that of a session created and stays unrevoked until a revocation covers it (`Held.step`), and from
  these when a token is valid, that one which has ended stays invalid and what
  `revoke_all_for_user_except` ends (`session_validity`).
-/
import SylvaServer.Identity.HardRemoval
import SylvaServer.Identity.Redaction

namespace SylvaServer.Sessions

open ReadCommitted ReadCommitted.Prog

/-! ## The operations -/

/-- An operation that bears on sessions. -/
inductive SessionOp where
  | create (userId : Uuid) (ttl : Int) (userAgent ipAddress : Option String)
  | revoke (sessionId : Uuid)
  | revokeAllForUser (userId : Uuid)
  | revokeAllForUserExcept (userId keepSessionId : Uuid)
  | touchLastSeen (sessionId : Uuid)
  | setLabel (sessionId userId : Uuid) (label : Option String)
  | deactivate (id : Uuid)
  | reactivate (id : Uuid)
  | anonymize (id : Uuid)
  | hardRemove (id : Uuid)

/-- What it answers. -/
inductive SessionReply where
  | created (r : Except SqlError (Session × String))
  | counted (r : Except SqlError Nat)
  | done (r : Except SqlError Unit)
  | user (r : Except SqlError User)
  | closed (r : Except SqlError (User × String))

/-- An operation in a transaction of its own, or on the pool where the source has it there. -/
def perform (lib : Libs) (op : SessionOp) (env : Env) (sh : Shared) :
    Option (SessionReply × Shared) :=
  match op with
  | .create userId ttl userAgent ipAddress =>
    ((inTransaction (SessionRepository.create lib userId ttl userAgent ipAddress)).alone env sh).map
      fun x => (.created x.1, x.2)
  | .revoke sessionId =>
    ((inTransaction (inTx (SessionRepository.revoke sessionId))).alone env sh).map fun x =>
      (.done x.1, x.2)
  | .revokeAllForUser userId =>
    ((inTransaction (inTx (SessionRepository.revokeAllForUser userId))).alone env sh).map
      fun x => (.counted x.1, x.2)
  | .revokeAllForUserExcept userId keepSessionId =>
    ((inTransaction (inTx (SessionRepository.revokeAllForUserExcept userId keepSessionId))).alone
      env sh).map fun x => (.counted x.1, x.2)
  | .touchLastSeen sessionId =>
    ((onPool (SessionRepository.touchLastSeen sessionId)).alone env sh).map fun x =>
      (.done x.1, x.2)
  | .setLabel sessionId userId label =>
    ((onPool (SessionRepository.setLabel sessionId userId label)).alone env sh).map fun x =>
      (.done x.1, x.2)
  | .deactivate id =>
    ((inTransaction (inTx (UserRepository.deactivate id))).alone env sh).map fun x =>
      (.user x.1, x.2)
  | .reactivate id =>
    ((inTransaction (inTx (UserRepository.reactivate id))).alone env sh).map fun x =>
      (.user x.1, x.2)
  | .anonymize id =>
    ((inTransaction (UserRepository.anonymize lib id)).alone env sh).map fun x => (.closed x.1, x.2)
  | .hardRemove id =>
    ((inTransaction (inTx (UserRepository.hardRemove id))).alone env sh).map fun x =>
      (.done x.1, x.2)

/-- An operation that has run. -/
abbrev SessionStep := Done SessionOp Env SessionReply Shared

/-- The revocations that a session falls under. -/
def SessionOp.Covers (x : Session) : SessionOp → Prop
  | .revoke sessionId => x.id = sessionId
  | .revokeAllForUser userId => x.userId = userId
  | .revokeAllForUserExcept userId keepSessionId => x.userId = userId ∧ x.id ≠ keepSessionId
  | .create .. => False
  | .touchLastSeen _ => False
  | .setLabel .. => False
  | .deactivate _ => False
  | .reactivate _ => False
  | .anonymize _ => False
  | .hardRemove _ => False

/-- The session an operation creates, with its token. -/
def created : SessionReply → Option (Session × String)
  | .created (.ok x) => some x
  | _ => none

/-- The token an operation draws. -/
def drawn (d : SessionStep) : Option String :=
  match d.op with
  | .create .. => some (Auth.generateToken d.env.random)
  | _ => none

/-- The clock does not go back, and a token drawn is one of `tokens` and a new one. -/
abbrev Fresh (tokens : Set String) : List SessionStep → SessionStep → Prop :=
  Drawing (fun env => env.pgNow.nanos) drawn tokens

/-- `t` is the token of session `x`, and no revocation since has covered it. -/
inductive Standing : List SessionStep → Session → String → Prop where
  | issued {d h x t} : created d.reply = some (x, t) → Standing (d :: h) x t
  | kept {d h x t} : Standing h x t → ¬ d.op.Covers x → Standing (d :: h) x t

/-- Revoked, or expired at a moment. -/
def Ended (now : DateTime) (x : Session) : Prop :=
  x.revokedAt ≠ none ∨ x.expiresAt.nanos ≤ now.nanos

instance (now : DateTime) (x : Session) : Decidable (Ended now x) :=
  inferInstanceAs (Decidable (_ ∨ _))

theorem live_iff {now : DateTime} {x : Session} :
    SessionRepository.live now x = true ↔ x.revokedAt = none ∧ now.nanos < x.expiresAt.nanos := by
  simp [SessionRepository.live]

theorem ended_iff {now : DateTime} {x : Session} :
    Ended now x ↔ SessionRepository.live now x = false := by
  unfold Ended
  rw [← Bool.not_eq_true, live_iff, not_and_or, not_lt]

/-! ## What an operation does -/

/-- A session row after an operation: the same session, revoked where a revocation has covered it
    live. -/
structure Stamped (d : SessionStep) (x x' : Session) : Prop where
  id : x'.id = x.id
  userId : x'.userId = x.userId
  tokenHash : x'.tokenHash = x.tokenHash
  expiresAt : x'.expiresAt = x.expiresAt
  stays : x.revokedAt ≠ none → x'.revokedAt ≠ none
  uncovered : ¬ d.op.Covers x → x'.revokedAt = x.revokedAt
  covered : d.op.Covers x → Ended d.env.pgNow x'

/-- A row that no revocation covers. -/
theorem stamped_of_same {d : SessionStep} {x x' : Session} (hcover : ¬ d.op.Covers x)
    (hid : x'.id = x.id) (huserId : x'.userId = x.userId) (htokenHash : x'.tokenHash = x.tokenHash)
    (hexpiresAt : x'.expiresAt = x.expiresAt) (hrevokedAt : x'.revokedAt = x.revokedAt) :
    Stamped d x x' :=
  ⟨hid, huserId, htokenHash, hexpiresAt, fun h => hrevokedAt ▸ h, fun _ => hrevokedAt,
    fun h => absurd h hcover⟩

/-- A row under an `UPDATE` that revokes the live ones of those covered. -/
theorem stamped_of_live {d : SessionStep} {x : Session} {q : Bool} (hq : q = true ↔ d.op.Covers x) :
    Stamped d x (if q && SessionRepository.live d.env.pgNow x then
      { x with revokedAt := some d.env.pgNow } else x) := by
  by_cases hrevoke : (q && SessionRepository.live d.env.pgNow x) = true
  · have hcover := hq.mp (Bool.and_eq_true_iff.mp hrevoke).1
    rw [if_pos hrevoke]
    exact ⟨rfl, rfl, rfl, rfl, fun _ => by simp, fun h => absurd hcover h,
      fun _ => Or.inl (by simp)⟩
  · rw [if_neg hrevoke]
    refine ⟨rfl, rfl, rfl, rfl, id, fun _ => rfl, fun hcover => ended_iff.mpr ?_⟩
    simpa [hq.mpr hcover] using hrevoke

/-- What an operation does to the sessions and the users. -/
inductive Effect (lib : Libs) (d : SessionStep) : Prop
  | stamp (f : Session → Session) (g : User → User) (hf : ∀ x, Stamped d x (f x))
      (hg : ∀ u, (g u).id = u.id) (hcreated : created d.reply = none)
      (hsessions : d.after.db.sessions = d.before.db.sessions.map f)
      (husers : d.after.db.users = d.before.db.users.map g)
  | insert (token : String) (row : Session) (hcover : ∀ x, ¬ d.op.Covers x)
      (hdrawn : drawn d = some token) (hcreated : created d.reply = some (row, token))
      (hhash : row.tokenHash = Auth.hashToken lib token)
      (hrevokedAt : row.revokedAt = none) (hfree : ∀ x ∈ d.before.db.sessions, x.id ≠ row.id)
      (hsessions : d.after.db.sessions = d.before.db.sessions ++ [row])
      (husers : d.after.db.users = d.before.db.users)
  | remove (userId : Uuid) (hcover : ∀ x, ¬ d.op.Covers x) (hcreated : created d.reply = none)
      (hsessions : d.after.db.sessions = d.before.db.sessions.filter (·.userId != userId))
      (husers : d.after.db.users = d.before.db.users.filter (·.id != userId))

/-- A statement that updates rows, and is committed at once. -/
theorem settle_updateRows {t : Table} {β : Type} {f : List t.Row → Except SqlError β}
    (hf : ∀ rows e, f rows = .error e → rows = []) (p : t.Row → Bool) (g : t.Row → t.Row)
    (mem : Mem) (db : Db) : settle (readAs f (updateRows t p g mem db)) db =
      ⟨applyAll db (updateRows t p g mem db).writes, mem⟩ := by
  cases hr : f (((db.rows t).filter p).map g) with
  | ok b => rw [readAs_ok (o := updateRows t p g mem db) rfl hr, settle_ok rfl]; rfl
  | error e =>
    have hnil := hf _ e hr
    have hwrites : (updateRows t p g mem db).writes = [] := by
      simp only [updateRows, hnil, List.map_nil]
    rw [hwrites]
    simp only [readAs, updateRows, Except.bind, hr, settle]
    rfl

theorem fetchOne_error {β : Type} (rows : List β) (e : SqlError)
    (h : fetchOne rows = .error e) : rows = [] := by
  cases rows with
  | nil => rfl
  | cons b rows => exact absurd h (by simp [fetchOne])

section Specs

variable {lib : Libs} {d : SessionStep}

/-- Nothing is changed. -/
theorem effect_none (hcover : ∀ x, ¬ d.op.Covers x) (hcreated : created d.reply = none)
    (hafter : d.after = d.before) : Effect lib d := by
  refine .stamp id id (fun x => stamped_of_same (hcover x) rfl rfl rfl rfl rfl)
    (fun u => rfl) hcreated ?_ ?_
  · rw [hafter, List.map_id]
  · rw [hafter, List.map_id]

/-- An `UPDATE auth.sessions`. -/
theorem effect_sessions {p : Session → Bool} {g : Session → Session}
    (hcreated : created d.reply = none)
    (hafter : d.after =
      ⟨applyAll d.before.db (updateRows .sessions p g d.before.mem d.before.db).writes,
        d.before.mem⟩)
    (hkeyed : Keyed (Table.key .sessions) d.before.db.sessions) (hid : ∀ x, (g x).id = x.id)
    (hstamped : ∀ x, Stamped d x (if p x then g x else x)) : Effect lib d := by
  refine .stamp _ id hstamped (fun u => rfl) hcreated ?_ ?_
  · rw [hafter]
    exact updateRows_rows _ hkeyed fun x => congrArg Key.uuid (hid x)
  · rw [hafter, List.map_id]
    exact applyAll_rows_of_ne _ _ fun w hw => by rw [updateRows_table w hw]; simp

/-- An `UPDATE identity.users`. -/
theorem effect_users {p : User → Bool} {g : User → User} (hcover : ∀ x, ¬ d.op.Covers x)
    (hcreated : created d.reply = none)
    (hafter : d.after =
      ⟨applyAll d.before.db (updateRows .users p g d.before.mem d.before.db).writes, d.before.mem⟩)
    (hkeyed : Keyed (Table.key .users) d.before.db.users) (hid : ∀ u, (g u).id = u.id) :
    Effect lib d := by
  refine .stamp id (fun u => if p u then g u else u)
    (fun x => stamped_of_same (hcover x) rfl rfl rfl rfl rfl) (fun u => ?_) hcreated ?_ ?_
  · split
    · exact hid u
    · rfl
  · rw [hafter, List.map_id]
    exact applyAll_rows_of_ne _ _ fun w hw => by rw [updateRows_table w hw]; simp
  · rw [hafter]
    exact updateRows_rows _ hkeyed fun u => congrArg Key.uuid (hid u)

variable (lib) (env : Env) (sh : Shared)

theorem create_spec (userId : Uuid) (ttl : Int) (userAgent ipAddress : Option String) :
    (∃ e, perform lib (.create userId ttl userAgent ipAddress) env sh =
      some (.created (.error e), sh)) ∨
      ∃ row : Session, perform lib (.create userId ttl userAgent ipAddress) env sh =
          some (.created (.ok (row, Auth.generateToken env.random)),
            ⟨applyAll sh.db [Write.put .sessions row], sh.mem⟩) ∧
        row.tokenHash = Auth.hashToken lib (Auth.generateToken env.random) ∧ row.revokedAt = none ∧
        ∀ x ∈ sh.db.sessions, x.id ≠ row.id := by
  have hrun : ∀ o, SessionRepository.insert lib userId
      (Auth.hashToken lib (Auth.generateToken env.random))
        ⟨env.now.nanos + ttl⟩ userAgent ipAddress env sh.mem sh.db = o →
      perform lib (.create userId ttl userAgent ipAddress) env sh =
        some (match o.result with
          | .ok row =>
              (.created (.ok (row, Auth.generateToken env.random)),
                ⟨applyAll sh.db o.writes, o.mem⟩)
          | .error e => (.created (.error e), ⟨sh.db, o.mem⟩)) := by
    intro o ho
    unfold perform SessionRepository.create
    cases hr : o.result with
    | ok row => simp [alone_inTransaction, inTx, ask, critical, exec, ho, hr, close]
    | error e => simp [alone_inTransaction, inTx, ask, critical, exec, ho, hr, close]
  unfold SessionRepository.insert at hrun
  rcases insertRow_cases .sessions _ _ _ _ sh.mem sh.db with ⟨e, h⟩ | ⟨h, hfree, -⟩
  · exact Or.inl ⟨e, hrun _ h⟩
  · exact Or.inr ⟨_, hrun _ h, rfl, rfl, fun x hx hid => hfree x hx (congrArg Key.uuid hid)⟩

/-- Closing an account fails, or updates users. -/
theorem anonymize_spec (hkeyed : Keyed (Table.key .users) sh.db.users) (id : Uuid) :
    (∃ e, perform lib (.anonymize id) env sh = some (.closed (.error e), sh)) ∨
      ∃ r, perform lib (.anonymize id) env sh = some (.closed (.ok r),
        ⟨applyAll sh.db
          (updateRows .users (·.id == id) (Redaction.redactedRow env.pgNow id) sh.mem sh.db).writes,
          sh.mem⟩) := by
  have hperform : perform lib (.anonymize id) env sh =
      ((inTransaction (UserRepository.anonymize lib id)).alone env sh).map fun x =>
        (.closed x.1, x.2) := rfl
  rw [hperform]
  by_cases hu : ∃ u ∈ sh.db.users, u.id = id
  · obtain ⟨u, hu, rfl⟩ := hu
    cases htaken : Redaction.taken lib sh.db.users u.id with
    | true =>
      rw [Redaction.anonymize_taken env hkeyed hu htaken]
      exact Or.inl ⟨_, rfl⟩
    | false =>
      rw [Redaction.anonymize_free env hkeyed hu htaken]
      exact Or.inr ⟨_, rfl⟩
  · rw [Redaction.anonymize_absent lib env sh fun v hv hid => hu ⟨v, hv, hid⟩]
    exact Or.inl ⟨_, rfl⟩

variable {lib env sh} {sh' : Shared} {r : SessionReply}

/-- An operation of one statement in its transaction. -/
theorem of_inTx {β : Type} {s : Statement β} {g : Except SqlError β → SessionReply}
    (h : (((inTransaction (inTx s)).alone env sh).map fun x => (g x.1, x.2)) = some (r, sh')) :
    r = g (s env sh.mem sh.db).result ∧ sh' = settle (s env sh.mem sh.db) sh.db := by
  rw [alone_inTx] at h
  exact (Prod.mk.inj (Option.some.inj h)).imp Eq.symm Eq.symm

/-- An operation of one statement on the pool. -/
theorem of_onPool {β : Type} {s : Statement β} {g : Except SqlError β → SessionReply}
    (h : (((onPool s).alone env sh).map fun x => (g x.1, x.2)) = some (r, sh')) :
    r = g (s env sh.mem sh.db).result ∧ sh' = settle (s env sh.mem sh.db) sh.db := by
  rw [alone_onPool] at h
  exact (Prod.mk.inj (Option.some.inj h)).imp Eq.symm Eq.symm

/-- **What an operation does to the sessions and the users.** -/
theorem perform_spec {op : SessionOp} (hsessions : Keyed (Table.key .sessions) sh.db.sessions)
    (husers : Keyed (Table.key .users) sh.db.users) (h : perform lib op env sh = some (r, sh')) :
    Effect lib ⟨op, env, sh, r, sh'⟩ := by
  have hnone : ∀ {β γ : Type} (b : γ) (rows : List β) (e : SqlError),
      (Except.ok b : Except SqlError γ) = .error e → rows = [] := by
    intro β γ b rows e he
    exact absurd he (by simp)
  cases op with
  | create userId ttl userAgent ipAddress =>
    rcases create_spec lib env sh userId ttl userAgent ipAddress with
      ⟨e, hfail⟩ | ⟨row, hcreate, hhash, hrevokedAt, hfree⟩
    · obtain ⟨rfl, rfl⟩ := Prod.mk.inj (Option.some.inj (h.symm.trans hfail))
      exact effect_none (fun _ => id) rfl rfl
    · obtain ⟨rfl, rfl⟩ := Prod.mk.inj (Option.some.inj (h.symm.trans hcreate))
      refine .insert _ row (fun _ => id) rfl rfl hhash hrevokedAt hfree ?_ ?_
      · exact put_rows_fresh fun x hx hkey => hfree x hx (Key.uuid.inj hkey)
      · exact applyAll_rows_of_ne _ _ (by simp [Write.table])
  | revoke sessionId =>
    obtain ⟨rfl, rfl⟩ := of_inTx h
    refine effect_sessions rfl (settle_updateRows (fun _ _ => hnone _ _ _) _ _ _ _) hsessions
      (fun _ => rfl) fun x => ?_
    split
    · next hid =>
      have hrevoked : (x.revokedAt <|> some env.pgNow) ≠ none := by cases x.revokedAt <;> simp
      refine ⟨rfl, rfl, rfl, rfl, fun _ => hrevoked, fun hcover => ?_, fun _ => Or.inl hrevoked⟩
      exact absurd (beq_iff_eq.mp hid) hcover
    · next hid =>
        exact stamped_of_same (fun hcover => hid (beq_iff_eq.mpr hcover)) rfl rfl rfl rfl rfl
  | revokeAllForUser userId =>
    obtain ⟨rfl, rfl⟩ := of_inTx h
    refine effect_sessions rfl (settle_updateRows (fun _ _ => hnone _ _ _) _ _ _ _) hsessions
      (fun _ => rfl) fun x => ?_
    exact stamped_of_live beq_iff_eq
  | revokeAllForUserExcept userId keepSessionId =>
    obtain ⟨rfl, rfl⟩ := of_inTx h
    refine effect_sessions rfl (settle_updateRows (fun _ _ => hnone _ _ _) _ _ _ _) hsessions
      (fun _ => rfl) fun x => ?_
    exact stamped_of_live (by simp [SessionOp.Covers])
  | touchLastSeen sessionId =>
    obtain ⟨rfl, rfl⟩ := of_onPool h
    refine effect_sessions rfl (settle_updateRows (fun _ _ => hnone _ _ _) _ _ _ _) hsessions
      (fun _ => rfl) fun x => ?_
    split
    · exact stamped_of_same (fun hcover => hcover) rfl rfl rfl rfl rfl
    · exact stamped_of_same (fun hcover => hcover) rfl rfl rfl rfl rfl
  | setLabel sessionId userId label =>
    obtain ⟨rfl, rfl⟩ := of_onPool h
    refine effect_sessions rfl (settle_updateRows (fun _ _ => hnone _ _ _) _ _ _ _) hsessions
      (fun _ => rfl) fun x => ?_
    split
    · exact stamped_of_same (fun hcover => hcover) rfl rfl rfl rfl rfl
    · exact stamped_of_same (fun hcover => hcover) rfl rfl rfl rfl rfl
  | deactivate id =>
    obtain ⟨rfl, rfl⟩ := of_inTx h
    exact effect_users (fun _ hcover => hcover) rfl
      (settle_updateRows (t := .users) fetchOne_error _ _ _ _) husers fun _ => rfl
  | reactivate id =>
    obtain ⟨rfl, rfl⟩ := of_inTx h
    exact effect_users (fun _ hcover => hcover) rfl
      (settle_updateRows (t := .users) fetchOne_error _ _ _ _) husers fun _ => rfl
  | anonymize id =>
    rcases anonymize_spec lib env sh husers id with ⟨e, hfail⟩ | ⟨u, hclose⟩
    · obtain ⟨rfl, rfl⟩ := Prod.mk.inj (Option.some.inj (h.symm.trans hfail))
      exact effect_none (fun _ hcover => hcover) rfl rfl
    · obtain ⟨rfl, rfl⟩ := Prod.mk.inj (Option.some.inj (h.symm.trans hclose))
      exact effect_users (fun _ hcover => hcover) rfl rfl husers fun _ => rfl
  | hardRemove userId =>
    obtain ⟨rfl, rfl⟩ := of_inTx h
    have hsettle : settle (UserRepository.hardRemove userId env sh.mem sh.db) sh.db =
        ⟨applyAll sh.db (UserRepository.hardRemove userId env sh.mem sh.db).writes, sh.mem⟩ := by
      rw [settle_ok (HardRemoval.hardRemove_result env sh.mem), HardRemoval.hardRemove_mem]
    by_cases hu : ∃ u ∈ sh.db.users, u.id = userId
    · refine .remove userId (fun _ hcover => hcover) rfl ?_ ?_
      · rw [hsettle]
        exact (HardRemoval.hardRemove_rows (t := .sessions) env sh.mem hsessions hu).trans
          (List.map_id _)
      · rw [hsettle]
        exact HardRemoval.hardRemove_users env sh.mem husers
    · refine effect_none (fun _ hcover => hcover) rfl ?_
      rw [hsettle, HardRemoval.hardRemove_absent env sh.mem fun u hu' hid => hu ⟨u, hu', hid⟩]
      rfl

end Specs

/-! ## The rows and the sessions created -/

/-- `x` is the row of the session created as `x₀` with token `t`. -/
structure RowOf (lib : Libs) (x₀ : Session) (t : String) (x : Session) : Prop where
  id : x.id = x₀.id
  userId : x.userId = x₀.userId
  expiresAt : x.expiresAt = x₀.expiresAt
  tokenHash : x.tokenHash = Auth.hashToken lib t

/-- `x` has been created with token `t`. -/
def Issued (h : List SessionStep) (x : Session) (t : String) : Prop :=
  ∃ d ∈ h, created d.reply = some (x, t)

/-- Every row is that of a session created, unrevoked only while the session stands or once it has
    expired; and a session that stands has its row as long as its user is there. -/
structure Held (lib : Libs) (h : List SessionStep) (db : Db) : Prop where
  sessions : Keyed (Table.key .sessions) db.sessions
  users : Keyed (Table.key .users) db.users
  issued : ∀ x ∈ db.sessions, ∃ x₀ t, Issued h x₀ t ∧ RowOf lib x₀ t x ∧
    (x.revokedAt = none → Standing h x₀ t ∨ ∃ d ∈ h, x.expiresAt.nanos ≤ d.env.pgNow.nanos)
  standing : ∀ x₀ t, Standing h x₀ t → (∃ u ∈ db.users, u.id = x₀.userId) →
    ∃ x ∈ db.sessions, RowOf lib x₀ t x ∧ x.revokedAt = none

section Held

variable {lib : Libs} {h : List SessionStep} {d : SessionStep} {x x' x₀ : Session} {t : String}

theorem RowOf.stamped (hrow : RowOf lib x₀ t x) (hx : Stamped d x x') : RowOf lib x₀ t x' :=
  ⟨hx.id.trans hrow.id, hx.userId.trans hrow.userId, hx.expiresAt.trans hrow.expiresAt,
    hx.tokenHash.trans hrow.tokenHash⟩

/-- A revocation looks at the id and the user. -/
theorem RowOf.covers_iff (hrow : RowOf lib x₀ t x) {op : SessionOp} :
    op.Covers x ↔ op.Covers x₀ := by
  unfold SessionOp.Covers
  rw [hrow.id, hrow.userId]

theorem Issued.older (hissued : Issued h x t) : Issued (d :: h) x t := by
  obtain ⟨d', hd', hcreated⟩ := hissued
  exact ⟨d', List.mem_cons_of_mem _ hd', hcreated⟩

/-- An operation that creates no session. -/
theorem Standing.of_cons (hstanding : Standing (d :: h) x t) (hcreated : created d.reply = none) :
    Standing h x t ∧ ¬ d.op.Covers x := by
  cases hstanding with
  | issued hissued => exact absurd (hcreated.symm.trans hissued) (by simp)
  | kept hstanding hcover => exact ⟨hstanding, hcover⟩

/-- A row stays that of its session, revoked once it is covered or expired already. -/
theorem Held.stamped (hheld : Held lib h d.before.db) (hx : x ∈ d.before.db.sessions)
    (hstamped : Stamped d x x') : ∃ x₀ t, Issued (d :: h) x₀ t ∧ RowOf lib x₀ t x' ∧
      (x'.revokedAt = none → Standing (d :: h) x₀ t ∨
        ∃ d' ∈ d :: h, x'.expiresAt.nanos ≤ d'.env.pgNow.nanos) := by
  obtain ⟨x₀, t, hissued, hrow, hlive⟩ := hheld.issued x hx
  refine ⟨x₀, t, hissued.older, hrow.stamped hstamped, fun hnone => ?_⟩
  have hbefore : x.revokedAt = none := not_not.mp (mt hstamped.stays (not_not.mpr hnone))
  by_cases hcover : d.op.Covers x
  · exact Or.inr ⟨d, List.mem_cons_self, (hstamped.covered hcover).resolve_left (not_not.mpr hnone)⟩
  · rcases hlive hbefore with hstanding | ⟨d', hd', hexpired⟩
    · exact Or.inl (.kept hstanding (mt hrow.covers_iff.mpr hcover))
    · exact Or.inr ⟨d', List.mem_cons_of_mem _ hd', hstamped.expiresAt ▸ hexpired⟩

/-- One operation more. -/
theorem Held.step (hheld : Held lib h d.before.db) (heffect : Effect lib d) :
    Held lib (d :: h) d.after.db := by
  cases heffect with
  | stamp f g hf hg hcreated hsessions husers =>
    refine ⟨?_, ?_, fun x' hx' => ?_, fun x₀ t hstanding huser => ?_⟩
    · rw [hsessions]
      exact keyed_map hheld.sessions fun x => congrArg Key.uuid (hf x).id
    · rw [husers]
      exact keyed_map hheld.users fun u => congrArg Key.uuid (hg u)
    · rw [hsessions] at hx'
      obtain ⟨x, hx, rfl⟩ := List.mem_map.mp hx'
      exact hheld.stamped hx (hf x)
    · obtain ⟨hbefore, hcover⟩ := hstanding.of_cons hcreated
      obtain ⟨u', hu', huid⟩ := huser
      rw [husers] at hu'
      obtain ⟨u, hu, rfl⟩ := List.mem_map.mp hu'
      obtain ⟨x, hx, hrow, hnone⟩ := hheld.standing x₀ t hbefore ⟨u, hu, (hg u).symm.trans huid⟩
      have huncovered := (hf x).uncovered (mt hrow.covers_iff.mp hcover)
      refine ⟨f x, ?_, hrow.stamped (hf x), huncovered.trans hnone⟩
      rw [hsessions]
      exact List.mem_map_of_mem hx
  | insert token row hcover hdrawn hcreated hhash hrevokedAt hfree hsessions husers =>
    have hput : d.before.db.sessions ++ [row] =
        putRow (Table.key .sessions) row d.before.db.sessions :=
      (putRow_fresh fun x hx hkey => hfree x hx (Key.uuid.inj hkey)).symm
    have hrow : RowOf lib row token row := ⟨rfl, rfl, rfl, hhash⟩
    refine ⟨?_, ?_, fun x hx => ?_, fun x₀ t hstanding huser => ?_⟩
    · rw [hsessions, hput]
      exact keyed_putRow hheld.sessions
    · rw [husers]
      exact hheld.users
    · rw [hsessions] at hx
      rcases List.mem_append.mp hx with hx | hx
      · exact hheld.stamped hx (stamped_of_same (hcover x) rfl rfl rfl rfl rfl)
      · rw [List.mem_singleton.mp hx]
        exact ⟨row, token, ⟨d, List.mem_cons_self, hcreated⟩, hrow,
          fun _ => Or.inl (.issued hcreated)⟩
    · rw [hsessions]
      rw [husers] at huser
      cases hstanding with
      | issued hissued =>
        obtain ⟨rfl, rfl⟩ := Prod.mk.inj (Option.some.inj (hissued.symm.trans hcreated))
        exact ⟨_, List.mem_append_right _ List.mem_cons_self, hrow, hrevokedAt⟩
      | kept hbefore _ =>
        obtain ⟨x, hx, hrow', hnone⟩ := hheld.standing x₀ t hbefore huser
        exact ⟨x, List.mem_append_left _ hx, hrow', hnone⟩
  | remove userId hcover hcreated hsessions husers =>
    refine ⟨?_, ?_, fun x hx => ?_, fun x₀ t hstanding huser => ?_⟩
    · rw [hsessions]
      exact keyed_filter hheld.sessions _
    · rw [husers]
      exact keyed_filter hheld.users _
    · rw [hsessions] at hx
      exact hheld.stamped (List.mem_of_mem_filter hx)
        (stamped_of_same (hcover x) rfl rfl rfl rfl rfl)
    · obtain ⟨u, hu, huid⟩ := huser
      rw [husers] at hu
      obtain ⟨hu, hne⟩ := List.mem_filter.mp hu
      obtain ⟨x, hx, hrow, hnone⟩ := hheld.standing x₀ t (hstanding.of_cons hcreated).1
        ⟨u, hu, huid⟩
      refine ⟨x, ?_, hrow, hnone⟩
      rw [hsessions]
      refine List.mem_filter.mpr ⟨hx, ?_⟩
      rw [hrow.userId, ← huid]
      exact hne

end Held

/-! ## Runs -/

/-- An operation hands out the token it has drawn. -/
theorem Effect.drawn {lib : Libs} {d : SessionStep} {x : Session} {t : String}
    (heffect : Effect lib d) (hcreated : created d.reply = some (x, t)) : drawn d = some t := by
  cases heffect with
  | stamp _ _ _ _ hnone _ _ => exact absurd (hnone.symm.trans hcreated) (by simp)
  | insert token row _ hdrawn hrow _ _ _ _ _ =>
    obtain ⟨rfl, rfl⟩ := Prod.mk.inj (Option.some.inj (hrow.symm.trans hcreated))
    exact hdrawn
  | remove _ _ hnone _ _ => exact absurd (hnone.symm.trans hcreated) (by simp)

/-- The rows with a hash stay ended, unless a token with that hash is drawn. -/
theorem Effect.ended {lib : Libs} {d : SessionStep} {hash : Bytes} {now : DateTime}
    (heffect : Effect lib d)
    (hnew : ∀ token, Sessions.drawn d = some token → Auth.hashToken lib token ≠ hash)
    (hended : ∀ x ∈ d.before.db.sessions, x.tokenHash = hash → Ended now x) :
    ∀ x ∈ d.after.db.sessions, x.tokenHash = hash → Ended now x := by
  cases heffect with
  | stamp f _ hf _ _ hsessions _ =>
    rw [hsessions]
    intro x' hx' hhash
    obtain ⟨x, hx, rfl⟩ := List.mem_map.mp hx'
    refine (hended x hx ((hf x).tokenHash.symm.trans hhash)).imp (hf x).stays fun hexpired => ?_
    rw [(hf x).expiresAt]
    exact hexpired
  | insert token row _ hdrawn _ htoken _ _ hsessions _ =>
    rw [hsessions]
    intro x hx hhash
    rcases List.mem_append.mp hx with hx | hx
    · exact hended x hx hhash
    · rw [List.mem_singleton.mp hx, htoken] at hhash
      exact absurd hhash (hnew token hdrawn)
  | remove _ _ _ hsessions _ =>
    rw [hsessions]
    exact fun x hx => hended x (List.mem_of_mem_filter hx)

section Runs

variable {lib : Libs} {tokens : Set String} {s₀ s : Shared} {h : List SessionStep}

theorem held_history (hs₀ : s₀.db.sessions = []) (husers : Keyed (Table.key .users) s₀.db.users)
    (hh : History (perform lib) (Fresh tokens) s₀ h s) : Held lib h s.db := by
  induction hh with
  | start =>
    refine ⟨?_, husers, ?_, fun x₀ t hstanding => ?_⟩
    · rw [hs₀]
      exact List.nodup_nil
    · rw [hs₀]
      exact fun x hx => absurd hx List.not_mem_nil
    · cases hstanding
  | step op env _ hperform _ ih => exact ih.step (perform_spec ih.sessions ih.users hperform)

/-- A token handed out has been drawn. -/
theorem issued_drawn (hs₀ : s₀.db.sessions = []) (husers : Keyed (Table.key .users) s₀.db.users)
    (hh : History (perform lib) (Fresh tokens) s₀ h s) {x : Session} {t : String}
    (hissued : Issued h x t) : t ∈ tokens ∧ ∃ d ∈ h, drawn d = some t := by
  induction hh with
  | start =>
    obtain ⟨d, hd, -⟩ := hissued
    exact absurd hd List.not_mem_nil
  | step op env hh hperform hfresh ih =>
    have hheld := held_history hs₀ husers hh
    obtain ⟨d, hd, hcreated⟩ := hissued
    rcases List.mem_cons.mp hd with rfl | hd
    · have hdrawn := (perform_spec hheld.sessions hheld.users hperform).drawn hcreated
      exact ⟨(hfresh.token t hdrawn).1, _, List.mem_cons_self, hdrawn⟩
    · obtain ⟨ht, d', hd', hdrawn⟩ := ih ⟨d, hd, hcreated⟩
      exact ⟨ht, d', List.mem_cons_of_mem _ hd', hdrawn⟩

/-- A token is that of one session. -/
theorem issued_unique (hs₀ : s₀.db.sessions = []) (husers : Keyed (Table.key .users) s₀.db.users)
    (hh : History (perform lib) (Fresh tokens) s₀ h s) {x x' : Session} {t : String}
    (hissued : Issued h x t) (hissued' : Issued h x' t) : x = x' := by
  induction hh with
  | start =>
    obtain ⟨d, hd, -⟩ := hissued
    exact absurd hd List.not_mem_nil
  | @step h s r s' op env hh hperform hfresh ih =>
    have hheld := held_history hs₀ husers hh
    have hnew : ∀ {x y : Session}, created r = some (x, t) → ¬ Issued h y t := by
      intro x y hcreated hy
      obtain ⟨-, d, hd, hdrawn⟩ := issued_drawn hs₀ husers hh hy
      have hagain := (perform_spec hheld.sessions hheld.users hperform).drawn hcreated
      exact (hfresh.token t hagain).2 d hd hdrawn
    obtain ⟨d, hd, hcreated⟩ := hissued
    obtain ⟨d', hd', hcreated'⟩ := hissued'
    rcases List.mem_cons.mp hd with rfl | hd
    · rcases List.mem_cons.mp hd' with rfl | hd'
      · exact (Prod.mk.inj (Option.some.inj (hcreated.symm.trans hcreated'))).1
      · exact absurd ⟨d', hd', hcreated'⟩ (hnew hcreated)
    · rcases List.mem_cons.mp hd' with rfl | hd'
      · exact absurd ⟨d, hd, hcreated⟩ (hnew hcreated')
      · exact ih ⟨d, hd, hcreated⟩ ⟨d', hd', hcreated'⟩

/-- The row of a token is that of the session it was issued for. -/
theorem row_of_token (hinj : Set.InjOn (Auth.hashToken lib) tokens) (hs₀ : s₀.db.sessions = [])
    (husers : Keyed (Table.key .users) s₀.db.users)
    (hh : History (perform lib) (Fresh tokens) s₀ h s) {x : Session} (hx : x ∈ s.db.sessions)
    {t : String} (ht : t ∈ tokens) (hhash : x.tokenHash = Auth.hashToken lib t) :
    ∃ x₀, Issued h x₀ t ∧ RowOf lib x₀ t x ∧
      (x.revokedAt = none → Standing h x₀ t ∨ ∃ d ∈ h, x.expiresAt.nanos ≤ d.env.pgNow.nanos) := by
  obtain ⟨x₀, u, hissued, hrow, hlive⟩ := (held_history hs₀ husers hh).issued x hx
  have hsame := hinj (issued_drawn hs₀ husers hh hissued).1 ht (hrow.tokenHash.symm.trans hhash)
  subst hsame
  exact ⟨x₀, hissued, hrow, hlive⟩

/-- No two rows have the same hash. -/
theorem tokenHash_unique (hinj : Set.InjOn (Auth.hashToken lib) tokens) (hs₀ : s₀.db.sessions = [])
    (husers : Keyed (Table.key .users) s₀.db.users)
    (hh : History (perform lib) (Fresh tokens) s₀ h s) {x x' : Session} (hx : x ∈ s.db.sessions)
    (hx' : x' ∈ s.db.sessions) (hhash : x'.tokenHash = x.tokenHash) : x' = x := by
  have hheld := held_history hs₀ husers hh
  obtain ⟨x₀, t, hissued, hrow, -⟩ := hheld.issued x hx
  have ht := (issued_drawn hs₀ husers hh hissued).1
  obtain ⟨x₁, hissued', hrow', -⟩ := row_of_token hinj hs₀ husers hh hx' ht
    (hhash.trans hrow.tokenHash)
  have hid : x'.id = x.id := by
    rw [hrow'.id, hrow.id, issued_unique hs₀ husers hh hissued' hissued]
  exact hheld.sessions.eq hx' hx (congrArg Key.uuid hid)

/-- What `find_active` looks for. -/
theorem findActive_some {t : String} {env : Env} {x : Session} {mem : Mem} {db : Db}
    (hfind : (SessionRepository.findActive lib t env mem db).result = .ok (some x)) :
    x ∈ db.sessions ∧ x.tokenHash = Auth.hashToken lib t ∧ ¬ Ended env.pgNow x ∧
      ∃ u ∈ db.users, u.id = x.userId ∧ u.lifecycle = .active := by
  unfold SessionRepository.findActive select at hfind
  simp only [Except.ok.injEq] at hfind
  have hfound := List.find?_some hfind
  simp only [Bool.and_eq_true, beq_iff_eq, decide_eq_true_eq, List.any_eq_true] at hfound
  obtain ⟨⟨⟨hhash, hrevoked⟩, hexpires⟩, huser⟩ := hfound
  refine ⟨List.mem_of_find?_eq_some hfind, hhash, ?_, huser⟩
  rintro (hnot | hexpired)
  · exact hnot hrevoked
  · exact absurd hexpires (not_lt.mpr hexpired)

theorem findActive_none {t : String} {env : Env} {mem : Mem} {db : Db}
    (hfind : (SessionRepository.findActive lib t env mem db).result = .ok none) {x : Session}
    (hx : x ∈ db.sessions) (hhash : x.tokenHash = Auth.hashToken lib t)
    (huser : ∃ u ∈ db.users, u.id = x.userId ∧ u.lifecycle = .active) : Ended env.pgNow x := by
  unfold SessionRepository.findActive select at hfind
  simp only [Except.ok.injEq] at hfind
  have hskip := List.find?_eq_none.mp hfind x hx
  simp only [Bool.and_eq_true, beq_iff_eq, decide_eq_true_eq, List.any_eq_true] at hskip
  by_contra hlive
  unfold Ended at hlive
  rw [not_or, not_not, not_le] at hlive
  exact hskip ⟨⟨⟨hhash, hlive.1⟩, hlive.2⟩, huser⟩

variable (lib) in
/-- `find_active` answers, with or without a session. -/
theorem findActive_cases (t : String) (env : Env) (mem : Mem) (db : Db) :
    (SessionRepository.findActive lib t env mem db).result = .ok none ∨
      ∃ x, (SessionRepository.findActive lib t env mem db).result = .ok (some x) := by
  unfold SessionRepository.findActive select
  dsimp only
  cases db.sessions.find? _ with
  | none => exact Or.inl rfl
  | some x => exact Or.inr ⟨x, rfl⟩

/-- **When a token is valid.** -/
theorem findActive_iff (hinj : Set.InjOn (Auth.hashToken lib) tokens) (hs₀ : s₀.db.sessions = [])
    (husers : Keyed (Table.key .users) s₀.db.users)
    (hh : History (perform lib) (Fresh tokens) s₀ h s) {env : Env}
    (hnow : ∀ d ∈ h, d.env.pgNow.nanos ≤ env.pgNow.nanos) {t : String} (ht : t ∈ tokens)
    (id : Uuid) :
    (∃ x, (SessionRepository.findActive lib t env s.mem s.db).result = .ok (some x) ∧ x.id = id) ↔
      ∃ x₀, Standing h x₀ t ∧ x₀.id = id ∧
        (∃ u ∈ s.db.users, u.id = x₀.userId ∧ u.lifecycle = .active) ∧
        env.pgNow.nanos < x₀.expiresAt.nanos := by
  constructor
  · rintro ⟨x, hfind, rfl⟩
    obtain ⟨hx, hhash, hlive, huser⟩ := findActive_some hfind
    obtain ⟨x₀, -, hrow, hstanding⟩ := row_of_token hinj hs₀ husers hh hx ht hhash
    unfold Ended at hlive
    rw [not_or, not_not, not_le] at hlive
    refine ⟨x₀, ?_, hrow.id.symm, hrow.userId ▸ huser, hrow.expiresAt ▸ hlive.2⟩
    refine (hstanding hlive.1).resolve_right ?_
    rintro ⟨d, hd, hexpired⟩
    exact absurd (hexpired.trans (hnow d hd)) (not_le.mpr hlive.2)
  · rintro ⟨x₀, hstanding, rfl, huser, hexpires⟩
    have hthere : ∃ u ∈ s.db.users, u.id = x₀.userId := by
      obtain ⟨u, hu, hid, -⟩ := huser
      exact ⟨u, hu, hid⟩
    obtain ⟨x, hx, hrow, hnone⟩ := (held_history hs₀ husers hh).standing x₀ t hstanding hthere
    rcases findActive_cases lib t env s.mem s.db with hfind | ⟨x', hfind⟩
    · rcases findActive_none hfind hx hrow.tokenHash (hrow.userId ▸ huser) with hrevoked | hexpired
      · exact absurd hnone hrevoked
      · rw [hrow.expiresAt] at hexpired
        exact absurd hexpired (not_le.mpr hexpires)
    · obtain ⟨hx', hhash, -⟩ := findActive_some hfind
      refine ⟨x', hfind, ?_⟩
      rw [tokenHash_unique hinj hs₀ husers hh hx hx' (hhash.trans hrow.tokenHash.symm), hrow.id]

/-- What has ended has ended in every later state. -/
theorem ended_later (hinj : Set.InjOn (Auth.hashToken lib) tokens) (hs₀ : s₀.db.sessions = [])
    (husers : Keyed (Table.key .users) s₀.db.users) {h₁ h₂ : List SessionStep} {s₁ : Shared}
    (hh₁ : History (perform lib) (Fresh tokens) s₀ h₁ s₁)
    (hh : History (perform lib) (Fresh tokens) s₀ (h₂ ++ h₁) s) {now : DateTime} {x : Session}
    (hx : x ∈ s₁.db.sessions) (hended : Ended now x) :
    ∀ x' ∈ s.db.sessions, x'.tokenHash = x.tokenHash → Ended now x' := by
  obtain ⟨x₀, t, hissued, hrow, -⟩ := (held_history hs₀ husers hh₁).issued x hx
  obtain ⟨ht, d₁, hd₁, hdrawn₁⟩ := issued_drawn hs₀ husers hh₁ hissued
  induction h₂ generalizing s with
  | nil =>
    intro x' hx' hhash
    rw [← hh₁.unique hh] at hx'
    rw [tokenHash_unique hinj hs₀ husers hh₁ hx hx' hhash]
    exact hended
  | cons d h₂ ih =>
    cases hh with
    | step op env hh hperform hfresh =>
      have hheld := held_history hs₀ husers hh
      refine (perform_spec hheld.sessions hheld.users hperform).ended
        (fun token hdrawn hhash => ?_) (ih hh)
      -- the hash would be that of a token drawn twice
      obtain ⟨htoken, hnew⟩ := hfresh.token token hdrawn
      have hsame := hinj htoken ht (hhash.trans hrow.tokenHash)
      exact hnew d₁ (List.mem_append_right _ hd₁) (hsame ▸ hdrawn₁)

/-- **The bulk revocation.** -/
theorem revokeAllForUserExcept_spec {sh : Shared}
    (hkeyed : Keyed (Table.key .sessions) sh.db.sessions) (env : Env)
    (userId keepSessionId : Uuid) :
    ∃ sh', perform lib (.revokeAllForUserExcept userId keepSessionId) env sh =
        some (.counted (.ok (sh.db.sessions.filter fun x =>
          decide (x.userId = userId ∧ x.id ≠ keepSessionId ∧ ¬ Ended env.pgNow x)).length), sh') ∧
      sh'.db.sessions = (sh.db.sessions.map fun x =>
        if x.userId = userId ∧ x.id ≠ keepSessionId ∧ ¬ Ended env.pgNow x then
          { x with revokedAt := some env.pgNow }
        else x) ∧
      (∀ t, t ≠ .sessions → sh'.db.rows t = sh.db.rows t) ∧ sh'.mem = sh.mem := by
  have hmatch : ∀ x : Session,
      (x.userId == userId && x.id != keepSessionId && SessionRepository.live env.pgNow x) =
        decide (x.userId = userId ∧ x.id ≠ keepSessionId ∧ ¬ Ended env.pgNow x) := by
    intro x
    rw [Bool.eq_iff_iff, decide_eq_true_eq, ended_iff, Bool.not_eq_false]
    simp [and_assoc]
  have hrun : SessionRepository.revokeAllForUserExcept userId keepSessionId env sh.mem sh.db =
      readAs (fun rows => .ok rows.length) (updateRows .sessions
        (fun x => decide (x.userId = userId ∧ x.id ≠ keepSessionId ∧ ¬ Ended env.pgNow x))
        (fun x => { x with revokedAt := some env.pgNow }) sh.mem sh.db) := by
    unfold SessionRepository.revokeAllForUserExcept
    rw [funext hmatch]
  refine ⟨⟨applyAll sh.db (updateRows .sessions
      (fun x => decide (x.userId = userId ∧ x.id ≠ keepSessionId ∧ ¬ Ended env.pgNow x))
      (fun x => { x with revokedAt := some env.pgNow }) sh.mem sh.db).writes, sh.mem⟩,
    ?_, ?_, fun t ht => ?_, rfl⟩
  · unfold perform
    simp only [alone_inTx]
    rw [hrun, settle_updateRows fun _ _ he => absurd he (by simp)]
    simp only [readAs, updateRows, Except.bind, List.length_map, Option.map_some]
  · have hkey : ∀ x : Session,
        Table.key .sessions { x with revokedAt := some env.pgNow } = Table.key .sessions x :=
          fun x => rfl
    refine (updateRows_rows sh.mem hkeyed hkey).trans (List.map_congr_left fun x _ => ?_)
    simp only [decide_eq_true_eq]
  · exact applyAll_rows_of_ne _ _ fun w hw => updateRows_table w hw ▸ ht.symm

/-- **A token is valid as long as its session stands, what has ended stays so, and the bulk
    revocation ends the live sessions of its user but one.** -/
theorem session_validity (hinj : Set.InjOn (Auth.hashToken lib) tokens) (hs₀ : s₀.db.sessions = [])
    (husers : Keyed (Table.key .users) s₀.db.users)
    (hh : History (perform lib) (Fresh tokens) s₀ h s) :
    (∀ env : Env, (∀ d ∈ h, d.env.pgNow.nanos ≤ env.pgNow.nanos) → ∀ t ∈ tokens, ∀ id : Uuid,
      (∃ x, (SessionRepository.findActive lib t env s.mem s.db).result = .ok (some x) ∧ x.id = id) ↔
        ∃ x₀, Standing h x₀ t ∧ x₀.id = id ∧
          (∃ u ∈ s.db.users, u.id = x₀.userId ∧ u.lifecycle = .active) ∧
          env.pgNow.nanos < x₀.expiresAt.nanos) ∧
    (∀ (h₁ h₂ : List SessionStep) (s₁ : Shared), h = h₂ ++ h₁ →
      History (perform lib) (Fresh tokens) s₀ h₁ s₁ →
        ∀ (now : DateTime), ∀ x ∈ s₁.db.sessions, Ended now x →
        ∀ (env : Env) (t : String), now.nanos ≤ env.pgNow.nanos →
          x.tokenHash = Auth.hashToken lib t →
          (SessionRepository.findActive lib t env s.mem s.db).result = .ok none) ∧
    ∀ (env : Env) (userId keepSessionId : Uuid), ∃ s',
      perform lib (.revokeAllForUserExcept userId keepSessionId) env s =
          some (.counted (.ok (s.db.sessions.filter fun x =>
            decide (x.userId = userId ∧ x.id ≠ keepSessionId ∧ ¬ Ended env.pgNow x)).length), s') ∧
        s'.db.sessions = (s.db.sessions.map fun x =>
          if x.userId = userId ∧ x.id ≠ keepSessionId ∧ ¬ Ended env.pgNow x then
            { x with revokedAt := some env.pgNow }
          else x) ∧
        (∀ t, t ≠ .sessions → s'.db.rows t = s.db.rows t) ∧ s'.mem = s.mem := by
  refine ⟨fun env hnow t ht id => findActive_iff hinj hs₀ husers hh hnow ht id, ?_,
    fun env userId keepSessionId => ?_⟩
  · rintro h₁ h₂ s₁ rfl hh₁ now x hx hended env t hnow hhash
    refine (findActive_cases lib t env s.mem s.db).resolve_right ?_
    rintro ⟨x', hfind⟩
    obtain ⟨hx', hhash', hlive, -⟩ := findActive_some hfind
    have hstill := ended_later hinj hs₀ husers hh₁ hh hx hended x' hx' (hhash'.trans hhash.symm)
    exact hlive (hstill.imp_right fun hexpired => hexpired.trans hnow)
  · exact revokeAllForUserExcept_spec (held_history hs₀ husers hh).sessions env userId keepSessionId

end Runs

/-! ### Ann signs in twice, and keeps the second session -/

def signedOut : Shared := ⟨Sample.db.delete .sessions (.uuid Sample.annSession.id), Mem.fresh⟩

def laptopToken : String := hex (List.replicate 32 5)

def phoneToken : String := hex (List.replicate 32 6)

theorem session_validity_ann : ∃ (h : List SessionStep) (s : Shared),
    History (perform Libs.sample) (Fresh {laptopToken, phoneToken}) signedOut h s ∧
      (∃ x, (SessionRepository.findActive Libs.sample phoneToken
        (Env.at 4000 0 8) s.mem s.db).result =
        .ok (some x) ∧ x.id = Sample.uuid 6) ∧
      (SessionRepository.findActive Libs.sample laptopToken (Env.at 4000 0 8) s.mem s.db).result =
        .ok none := by
  have hdistinct : laptopToken ≠ phoneToken := by decide +kernel
  let signIn : SessionOp := .create Sample.ann.id (DateTime.hours 24) none none
  let keepPhone : SessionOp := .revokeAllForUserExcept Sample.ann.id (Sample.uuid 6)
  let x₁ := (perform Libs.sample signIn (Env.at 1000 0 5) signedOut).get (by decide +kernel)
  let x₂ := (perform Libs.sample signIn (Env.at 2000 0 6) x₁.2).get (by decide +kernel)
  let x₃ := (perform Libs.sample keepPhone (Env.at 3000 0 7) x₂.2).get (by decide +kernel)
  let d₁ : SessionStep := ⟨signIn, Env.at 1000 0 5, signedOut, x₁.1, x₁.2⟩
  let d₂ : SessionStep := ⟨signIn, Env.at 2000 0 6, x₁.2, x₂.1, x₂.2⟩
  let d₃ : SessionStep := ⟨keepPhone, Env.at 3000 0 7, x₂.2, x₃.1, x₃.2⟩
  have hfresh₁ : Fresh {laptopToken, phoneToken} [] d₁ :=
    ⟨by simp, fun t ht => ⟨Or.inl (Option.some.inj ht).symm, by simp⟩⟩
  have hfresh₂ : Fresh {laptopToken, phoneToken} [d₁] d₂ := by
    refine ⟨by simp [d₁, d₂, Env.at], fun t ht => ?_⟩
    obtain rfl := Option.some.inj ht
    refine ⟨Or.inr rfl, fun d hd hfirst => ?_⟩
    rw [List.mem_singleton.mp hd] at hfirst
    exact hdistinct (Option.some.inj hfirst)
  have hfresh₃ : Fresh {laptopToken, phoneToken} [d₂, d₁] d₃ :=
    ⟨by simp [d₁, d₂, d₃, Env.at], fun t ht => absurd ht (by simp [drawn, d₃, keepPhone])⟩
  have hh : History (perform Libs.sample) (Fresh {laptopToken, phoneToken}) signedOut
      [d₃, d₂, d₁] x₃.2 :=
    ((History.start.step _ _ (Option.some_get _).symm hfresh₁).step _ _ (Option.some_get _).symm
      hfresh₂).step _ _ (Option.some_get _).symm hfresh₃
  obtain ⟨hvalid, hstays, -⟩ :=
    session_validity (Set.injOn_pair.mpr fun hsame => absurd hsame (by decide +kernel))
      (by decide +kernel) (by decide +kernel) hh
  refine ⟨_, _, hh, ?_, ?_⟩
  · refine (hvalid _ (by simp [d₁, d₂, d₃, Env.at]) _ (Or.inr rfl) _).mpr ?_
    obtain ⟨x, hcreated, hid, hexpires⟩ : ∃ x, created x₂.1 = some (x, phoneToken) ∧
        x.id = Sample.uuid 6 ∧ (∃ u ∈ x₃.2.db.users, u.id = x.userId ∧ u.lifecycle = .active) ∧
        (Env.at 4000 0 8).pgNow.nanos < x.expiresAt.nanos :=
      ⟨((created x₂.1).get (by decide +kernel)).1, by decide +kernel⟩
    exact ⟨x, .kept (.issued hcreated) fun hcover => hcover.2 hid, hid, hexpires⟩
  · obtain ⟨x, hx, hended, hhash⟩ : ∃ x ∈ x₃.2.db.sessions, Ended ⟨0⟩ x ∧
        x.tokenHash = Auth.hashToken Libs.sample laptopToken := by
      decide +kernel
    exact hstays _ [] _ rfl hh ⟨0⟩ x hx hended _ _ (by decide) hhash

end SylvaServer.Sessions
