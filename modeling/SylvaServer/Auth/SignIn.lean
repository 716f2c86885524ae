/-
  Signing in.

  A login is a look at the limiter, the lookup of an active user with the address of the request and
  a verifier, the check of the password, the count of second factors and a session in a
  transaction of its own. Argon2 is ideal here: a stored hash verifies one password.

  Proved: why a check fails (`fails_iff`), what the login does in each of the three cases
  (`login_fails`, `login_factor`, `login_session`), and from these that a session is issued exactly
  where it should be and that failed checks look alike (`login_issues_and_hides`).
-/
import SylvaServer.Auth.Throttle
import SylvaServer.Identity.Redaction

namespace SylvaServer.SignIn

open ReadCommitted ReadCommitted.Prog Account
open Redaction (Indexed)

/-! ## Who may sign in -/

/-- The users and verifiers of an instance; `password` gives the password of a hash. -/
structure Sound (lib : Libs) (password : String → String) (db : Db) : Prop where
  users : Indexed lib db.users
  credentials : Keyed (Table.key .credentials) db.credentials
  ideal : ∀ c ∈ db.credentials, ∀ p, lib.argon2Verify p c.passwordHash =
    some (decide (p = password c.passwordHash))

/-- The request has the address and the password of an active user. -/
def Granted (lib : Libs) (password : String → String) (db : Db) (req : LoginRequest)
    (u : User) : Prop :=
  u ∈ db.users ∧ lib.lower u.email = lib.lower req.email ∧ u.lifecycle = .active ∧
    ∃ c ∈ db.credentials, c.userId = u.id ∧ password c.passwordHash = req.password

/-- A verified authenticator or a passkey. -/
def Factor (db : Db) (u : User) : Prop :=
  (∃ t ∈ db.totpCredentials, t.userId = u.id ∧ t.verifiedAt ≠ none) ∨
    ∃ w ∈ db.webauthnCredentials, w.userId = u.id

/-- Why a check of credentials fails. -/
inductive Fails (lib : Libs) (password : String → String) (db : Db)
    (req : LoginRequest) : Prop where
  | unknownEmail (hnone : ∀ u ∈ db.users, lib.lower u.email ≠ lib.lower req.email)
  | notActive (u : User) (hu : u ∈ db.users) (hemail : lib.lower u.email = lib.lower req.email)
      (hlifecycle : u.lifecycle ≠ .active)
  | noCredentials (u : User) (hu : u ∈ db.users) (hemail : lib.lower u.email = lib.lower req.email)
      (hnone : ∀ c ∈ db.credentials, c.userId ≠ u.id)
  | wrongPassword (u : User) (hu : u ∈ db.users) (hemail : lib.lower u.email = lib.lower req.email)
      (c : Credential) (hc : c ∈ db.credentials) (hown : c.userId = u.id)
      (hpassword : password c.passwordHash ≠ req.password)

section Lookup

variable {lib : Libs} {password : String → String} {db : Db} {req : LoginRequest} {u : User}
  {c c' : Credential}

theorem Sound.same_credential (h : Sound lib password db) (hc : c ∈ db.credentials)
    (hc' : c' ∈ db.credentials) (hown : c.userId = c'.userId) : c = c' :=
  h.credentials.eq hc hc' (congrArg Key.uuid hown)

/-- **A check fails** exactly where nobody may sign in with the request. -/
theorem fails_iff (h : Sound lib password db) :
    Fails lib password db req ↔ ∀ u, ¬ Granted lib password db req u := by
  constructor
  · rintro hfails v ⟨hv, hemail, hactive, c, hc, hown, hpassword⟩
    cases hfails with
    | unknownEmail hnone => exact hnone v hv hemail
    | notActive u hu hsame hlifecycle =>
      obtain rfl := h.users.address u hu v hv (hsame.trans hemail.symm)
      exact hlifecycle hactive
    | noCredentials u hu hsame hnone =>
      obtain rfl := h.users.address u hu v hv (hsame.trans hemail.symm)
      exact hnone c hc hown
    | wrongPassword u hu hsame c' hc' hown' hwrong =>
      obtain rfl := h.users.address u hu v hv (hsame.trans hemail.symm)
      obtain rfl := h.same_credential hc hc' (hown.trans hown'.symm)
      exact hwrong hpassword
  · intro hnobody
    by_cases hemail : ∃ u ∈ db.users, lib.lower u.email = lib.lower req.email
    · obtain ⟨u, hu, hemail⟩ := hemail
      by_cases hactive : u.lifecycle = .active
      · by_cases hcred : ∃ c ∈ db.credentials, c.userId = u.id
        · obtain ⟨c, hc, hown⟩ := hcred
          exact .wrongPassword u hu hemail c hc hown fun hpassword =>
            hnobody u ⟨hu, hemail, hactive, c, hc, hown, hpassword⟩
        · exact .noCredentials u hu hemail fun c hc hown => hcred ⟨c, hc, hown⟩
      · exact .notActive u hu hemail hactive
    · exact .unknownEmail fun u hu hsame => hemail ⟨u, hu, hsame⟩

/-- The verifier of a user. -/
theorem find?_credential (h : Keyed (Table.key .credentials) db.credentials)
    (hc : c ∈ db.credentials) (hown : c.userId = u.id) :
    db.credentials.find? (·.userId == u.id) = some c := by
  cases hfind : db.credentials.find? (·.userId == u.id) with
  | none => exact absurd hown (by simpa using List.find?_eq_none.mp hfind c hc)
  | some c' =>
    have hown' := List.find?_some hfind
    exact congrArg some (h.eq (List.mem_of_find?_eq_some hfind) hc
      (congrArg Key.uuid ((beq_iff_eq.mp hown').trans hown.symm)))

/-- The rows the join looks for. -/
def joined (lib : Libs) (db : Db) (email : String) (u : User) : Bool :=
  lib.lower u.email == lib.lower email && u.lifecycle == .active &&
    db.credentials.any (·.userId == u.id)

theorem userWithCredentials_result (lib : Libs) (db : Db) (email : String) (env : Env) (mem : Mem) :
    (Auth.userWithCredentials lib email env mem db).result =
      .ok ((db.users.find? (joined lib db email)).bind fun u =>
        (db.credentials.find? (·.userId == u.id)).map fun c => (u, c.passwordHash)) := rfl

theorem joined_iff {email : String} : joined lib db email u = true ↔
    lib.lower u.email = lib.lower email ∧ u.lifecycle = .active ∧
    ∃ c ∈ db.credentials, c.userId = u.id := by
  simp [joined, and_assoc]

/-- What the join gives for an active user with a verifier. -/
theorem userWithCredentials_some (hindexed : Indexed lib db.users)
    (hkeyed : Keyed (Table.key .credentials) db.credentials) (hu : u ∈ db.users) {email : String}
    (hemail : lib.lower u.email = lib.lower email) (hactive : u.lifecycle = .active)
    (hc : c ∈ db.credentials) (hown : c.userId = u.id) (env : Env) (mem : Mem) :
    (Auth.userWithCredentials lib email env mem db).result = .ok (some (u, c.passwordHash)) := by
  have hfind : db.users.find? (joined lib db email) = some u := by
    cases hfind : db.users.find? (joined lib db email) with
    | none =>
      exact absurd (joined_iff.mpr ⟨hemail, hactive, c, hc, hown⟩)
        (List.find?_eq_none.mp hfind u hu)
    | some v =>
      have hv := joined_iff.mp (List.find?_some hfind)
      exact congrArg some (hindexed.address v (List.mem_of_find?_eq_some hfind) u hu
        (hv.1.trans hemail.symm))
  rw [userWithCredentials_result, hfind, Option.bind_some, find?_credential hkeyed hc hown,
    Option.map_some]

/-- What the join gives, in general. -/
theorem userWithCredentials_cases (lib : Libs) (db : Db) (email : String) (env : Env) (mem : Mem) :
    (Auth.userWithCredentials lib email env mem db).result = .ok none ∨
      ∃ u ∈ db.users, ∃ c ∈ db.credentials, lib.lower u.email = lib.lower email ∧
        u.lifecycle = .active ∧
        c.userId = u.id ∧ (Auth.userWithCredentials lib email env mem db).result =
          .ok (some (u, c.passwordHash)) := by
  rw [userWithCredentials_result]
  cases hfind : db.users.find? (joined lib db email) with
  | none => exact Or.inl rfl
  | some u =>
    obtain ⟨hemail, hactive, -⟩ := joined_iff.mp (List.find?_some hfind)
    rw [Option.bind_some]
    cases hcred : db.credentials.find? (·.userId == u.id) with
    | none => exact Or.inl rfl
    | some c =>
      have hown := List.find?_some (p := fun c : Credential => c.userId == u.id) hcred
      exact Or.inr ⟨u, List.mem_of_find?_eq_some hfind, c, List.mem_of_find?_eq_some hcred,
        hemail, hactive, beq_iff_eq.mp hown, rfl⟩

end Lookup

/-! ## The login -/

/-- The answer to every failed check. -/
def badCredentials : Status := ⟨.unauthenticated, "invalid email or password"⟩

/-- The limiter lets the request in. -/
def LetIn (ctx : PlatformContext) (env : Env) (mem : Mem) (metadata : Metadata) : Prop :=
  (ctx.authRateLimiter.allowedAt (rateKey metadata ctx.trustProxy) env.nowMs mem).1 = true

/-- What a failed attempt leaves of the memory: the look at the limiter, and the charge. -/
def charged (ctx : PlatformContext) (env : Env) (mem : Mem) (metadata : Metadata) : Mem :=
  ctx.authRateLimiter.recordFailureAt (rateKey metadata ctx.trustProxy) env.nowMs
    (ctx.authRateLimiter.allowedAt (rateKey metadata ctx.trustProxy) env.nowMs mem).2

/-- The drawn id and the drawn token are new. -/
structure FreshSession (lib : Libs) (env : Env) (db : Db) : Prop where
  id : ∀ s ∈ db.sessions, s.id ≠ env.uuid
  token : ∀ s ∈ db.sessions, s.tokenHash ≠ Auth.hashToken lib (Auth.generateToken env.random)

/-- The session of a login. -/
def sessionRow (lib : Libs) (env : Env) (userId : Uuid) : Session where
  id := env.uuid
  userId := userId
  tokenHash := Auth.hashToken lib (Auth.generateToken env.random)
  createdAt := env.pgNow
  expiresAt := lib.timestamptz ⟨env.now.nanos + Auth.defaultSessionTtl⟩
  revokedAt := none
  userAgent := none
  ipAddress := none
  lastSeenAt := none
  label := none

/-- And the answer with its token. -/
def sessionReply (lib : Libs) (env : Env) (userId : Uuid) : ProtoSession where
  token := Auth.generateToken env.random
  userId := userId.toString
  expiresAt := (sessionRow lib env userId).expiresAt.toRfc3339

section Login

variable {ctx : PlatformContext} {env : Env} {sh : Shared} {metadata : Metadata}
  {req : LoginRequest} {u : User}

/-- What a session is inserted as. -/
theorem insert_session {userId : Uuid} (hu : ∃ u ∈ sh.db.users, u.id = userId)
    (hfresh : FreshSession ctx.lib env sh.db) :
    ∃ locks, SessionRepository.insert ctx.lib userId
      (Auth.hashToken ctx.lib (Auth.generateToken env.random))
      ⟨env.now.nanos + Auth.defaultSessionTtl⟩ none none env sh.mem sh.db =
        { result := .ok (sessionRow ctx.lib env userId)
          writes := [.put .sessions (sessionRow ctx.lib env userId)]
          locks := locks
          mem := sh.mem } := by
  have hkey : ((sh.db.rows .sessions).any fun r => Table.key .sessions r ==
      Table.key .sessions (sessionRow ctx.lib env userId)) = false := by
    refine List.any_eq_false.mpr fun s hs hsame => hfresh.id s hs ?_
    exact Key.uuid.inj (beq_iff_eq.mp hsame)
  have htoken : (sh.db.sessions.any fun s => s.tokenHash ==
      Auth.hashToken ctx.lib (Auth.generateToken env.random)) = false :=
    List.any_eq_false.mpr fun s hs hsame => hfresh.token s hs (beq_iff_eq.mp hsame)
  have hrefs : ([(.users, .uuid userId)] : List (Table × Key)).any sh.db.dangles = false := by
    obtain ⟨u, hu, rfl⟩ := hu
    have hthere : (sh.db.rows .users).any (fun r => Table.key .users r == .uuid u.id) = true :=
      List.any_eq_true.mpr ⟨u, hu, beq_self_eq_true _⟩
    simp [Db.dangles, hthere]
  have hrow : SessionRepository.insert ctx.lib userId
      (Auth.hashToken ctx.lib (Auth.generateToken env.random))
      ⟨env.now.nanos + Auth.defaultSessionTtl⟩ none none env sh.mem sh.db =
        insertRow .sessions (sessionRow ctx.lib env userId)
          (sh.db.sessions.any fun s => s.tokenHash == Auth.hashToken ctx.lib
            (Auth.generateToken env.random))
          [(.users, .uuid userId)]
            [.sessionToken (Auth.hashToken ctx.lib (Auth.generateToken env.random))]
          sh.mem sh.db := rfl
  rw [hrow]
  unfold insertRow
  rw [htoken, hkey, hrefs]
  exact ⟨_, rfl⟩

theorem newSession_exec (sh : Shared) {userId : Uuid} (hu : ∃ u ∈ sh.db.users, u.id = userId)
    (hfresh : FreshSession ctx.lib env sh.db) :
    (newSession ctx userId).exec env none sh =
      some (.ok (sessionReply ctx.lib env userId), none,
        ⟨sh.db.put .sessions (sessionRow ctx.lib env userId), sh.mem⟩) := by
  obtain ⟨locks, hinsert⟩ := insert_session hu hfresh
  have hcreate : ∃ ls, (SessionRepository.create ctx.lib userId Auth.defaultSessionTtl
      none none).exec env
      (some (.active [] [])) sh =
        some (.ok (sessionRow ctx.lib env userId, Auth.generateToken env.random),
        some (.active [.put .sessions (sessionRow ctx.lib env userId)] ls), sh) := by
    unfold SessionRepository.create
    simp only [exec_bind, exec_ask, Option.bind_some, andThen, inTx, exec, applyAll_nil, hinsert,
      List.nil_append]
    exact ⟨_, rfl⟩
  obtain ⟨ls, hcreate⟩ := hcreate
  have hbegin : (beginTx : Query Unit).exec env none sh =
      some (.ok (), some (.active [] []), sh) := rfl
  unfold newSession
  rw [exec_bind, exec_mapError, hbegin]
  simp only [Option.map_some, Option.bind_some, andThen, Except.mapError]
  rw [exec_bind, exec_mapError, hcreate]
  rfl

/-- An admitted request goes on to the check. -/
theorem login_admitted (hadmitted : LetIn ctx env sh.mem metadata)
    (hemail : (trim req.email).isEmpty = false) : (login ctx metadata req).alone env sh =
      (login.verify ctx (rateKey metadata ctx.trustProxy) req).alone env
        ⟨sh.db,
          (ctx.authRateLimiter.allowedAt (rateKey metadata ctx.trustProxy)
            env.nowMs sh.mem).2⟩ := by
  have htokens : decide
      (1 ≤ (ctx.authRateLimiter.refilled sh.mem.buckets (rateKey metadata ctx.trustProxy)
      env.nowMs).tokens) = true := hadmitted
  rw [login_eq]
  unfold alone
  simp only [exec, htokens, hemail, Bool.not_true, Bool.false_eq_true, if_false]
  rfl

/-- The check itself. -/
theorem verify_exec (key : String) : (login.verify ctx key req).exec env none sh =
    (login.afterVerify ctx key (outcome ctx req.password
      (Auth.userWithCredentials ctx.lib req.email env sh.mem sh.db).result)).exec env none sh := by
  rw [verify_eq]
  simp only [exec, userWithCredentials_result]
  rfl

/-- A failed check. -/
theorem refused_exec (key : String) {o : Auth.CredentialOutcome} :
    (login.afterVerify ctx key (.ok (.error o))).exec env none sh =
      some (.error badCredentials, none,
        ⟨sh.db, ctx.authRateLimiter.recordFailureAt key env.nowMs sh.mem⟩) := rfl

theorem hasSecondFactor_iff (env : Env) (mem : Mem) {db : Db} :
    (Auth.hasSecondFactor u.id env mem db).result = .ok true ↔ Factor db u := by
  unfold Auth.hasSecondFactor select Factor
  simp only [Except.ok.injEq, decide_eq_true_eq, Nat.add_pos_iff_pos_or_pos,
    List.length_pos_iff_exists_mem, List.mem_filter, Bool.and_eq_true, beq_iff_eq,
    Option.isSome_iff_ne_none]

/-- What follows a check that went through: the factors are counted. -/
theorem passed_factor (key : String) (mem : Mem) {db : Db} (hfactor : Factor db u) :
    (login.afterVerify ctx key (.ok (.ok u))).exec env none ⟨db, mem⟩ =
      some (.ok (.mfaRequired "" ["totp"]), none, ⟨db, mem⟩) := by
  have hcount := (hasSecondFactor_iff env mem).mpr hfactor
  unfold login.afterVerify
  rw [exec_bind, exec_mapError, exec_onPool, hcount]
  rfl

/-- And without any a session is created. -/
theorem passed_session (key : String) (mem : Mem) {db : Db} (hu : u ∈ db.users)
    (hfresh : FreshSession ctx.lib env db) (hfactor : ¬ Factor db u) :
    (login.afterVerify ctx key (.ok (.ok u))).exec env none ⟨db, mem⟩ =
      some (.ok (.session (sessionReply ctx.lib env u.id)), none,
        ⟨db.put .sessions (sessionRow ctx.lib env u.id), mem⟩) := by
  have hcount : (Auth.hasSecondFactor u.id env mem db).result = .ok false := by
    have hnot := mt (hasSecondFactor_iff env mem).mp hfactor
    unfold Auth.hasSecondFactor select at hnot ⊢
    simpa using hnot
  have hsettle : settle (Auth.hasSecondFactor u.id env mem db) db = ⟨db, mem⟩ := settle_ok hcount
  have hsession := newSession_exec ⟨db, mem⟩ ⟨u, hu, rfl⟩ hfresh
  unfold login.afterVerify
  rw [exec_bind, exec_mapError, exec_onPool, hcount, hsettle]
  simp only [Option.map_some, Option.bind_some, andThen, Except.mapError, Bool.false_eq_true,
    if_false]
  rw [exec_bind, hsession]
  rfl

variable {password : String → String}

/-- What the check finds where the verifier of an active user takes the password. -/
theorem outcome_verified (hindexed : Indexed ctx.lib sh.db.users)
    (hkeyed : Keyed (Table.key .credentials) sh.db.credentials) (hu : u ∈ sh.db.users)
    (hemail : ctx.lib.lower u.email = ctx.lib.lower req.email) (hactive : u.lifecycle = .active)
    {c : Credential} (hc : c ∈ sh.db.credentials) (hown : c.userId = u.id)
    (hverify : ctx.lib.argon2Verify req.password c.passwordHash = some true) (mem : Mem) :
    outcome ctx req.password (Auth.userWithCredentials ctx.lib req.email env mem sh.db).result =
      .ok (.ok u) := by
  rw [userWithCredentials_some hindexed hkeyed hu hemail hactive hc hown]
  have hpassword : Auth.verifyPassword ctx.lib req.password c.passwordHash = .ok true := by
    unfold Auth.verifyPassword
    rw [hverify]
  exact congrArg (passwordOutcome u) hpassword

/-- Whomever the check finds has the address. -/
theorem outcome_user {mem : Mem} (h : outcome ctx req.password
    (Auth.userWithCredentials ctx.lib req.email env mem sh.db).result = .ok (.ok u)) :
    u ∈ sh.db.users ∧ ctx.lib.lower u.email = ctx.lib.lower req.email := by
  rcases userWithCredentials_cases ctx.lib sh.db req.email env mem with
    hnone | ⟨v, hv, c, hc, hemail, hactive, hown, hsome⟩
  · rw [hnone] at h
    exact absurd h (by simp [outcome])
  · rw [hsome] at h
    have hpassed : passwordOutcome v (Auth.verifyPassword ctx.lib req.password c.passwordHash) =
        .ok (.ok u) := h
    unfold passwordOutcome at hpassed
    split at hpassed
    · exact absurd hpassed (by simp)
    · obtain rfl := Except.ok.inj (Except.ok.inj hpassed)
      exact ⟨hv, hemail⟩
    · exact absurd hpassed (by simp)

/-- What the check finds for a user who may sign in. -/
theorem outcome_granted (hsound : Sound ctx.lib password sh.db)
    (hgranted : Granted ctx.lib password sh.db req u) (mem : Mem) :
    outcome ctx req.password (Auth.userWithCredentials ctx.lib req.email env mem sh.db).result =
      .ok (.ok u) := by
  obtain ⟨hu, hemail, hactive, c, hc, hown, hpassword⟩ := hgranted
  refine outcome_verified hsound.users hsound.credentials hu hemail hactive hc hown ?_ mem
  rw [hsound.ideal c hc, hpassword, decide_eq_true rfl]

/-- And where nobody may. -/
theorem outcome_fails (hsound : Sound ctx.lib password sh.db)
    (hfails : Fails ctx.lib password sh.db req) (env : Env) (mem : Mem) :
    ∃ o, outcome ctx req.password
      (Auth.userWithCredentials ctx.lib req.email env mem sh.db).result =
      .ok (.error o) := by
  rcases userWithCredentials_cases ctx.lib sh.db req.email env mem with
    hnone | ⟨u, hu, c, hc, hemail, hactive, hown, hsome⟩
  · rw [hnone]
    exact ⟨_, rfl⟩
  · have hwrong : ¬ req.password = password c.passwordHash := fun hpassword =>
      (fails_iff hsound).mp hfails u ⟨hu, hemail, hactive, c, hc, hown, hpassword.symm⟩
    have hverify : Auth.verifyPassword ctx.lib req.password c.passwordHash = .ok false := by
      unfold Auth.verifyPassword
      rw [hsound.ideal c hc, decide_eq_false hwrong]
    rw [hsome]
    exact ⟨.wrongPassword, congrArg (passwordOutcome u) hverify⟩

/-- **A check that fails** is charged, and nothing else happens. -/
theorem login_fails (hsound : Sound ctx.lib password sh.db)
    (hadmitted : LetIn ctx env sh.mem metadata) (hemail : (trim req.email).isEmpty = false)
    (hfails : Fails ctx.lib password sh.db req) : (login ctx metadata req).alone env sh =
      some (.error badCredentials, ⟨sh.db, charged ctx env sh.mem metadata⟩) := by
  obtain ⟨o, ho⟩ := outcome_fails hsound hfails env
    (ctx.authRateLimiter.allowedAt (rateKey metadata ctx.trustProxy) env.nowMs sh.mem).2
  rw [login_admitted hadmitted hemail]
  unfold alone
  rw [verify_exec, ho, refused_exec]
  rfl

/-- **A second factor** is asked for. -/
theorem login_factor (hadmitted : LetIn ctx env sh.mem metadata)
    (hemail : (trim req.email).isEmpty = false) (hfactor : Factor sh.db u)
    (houtcome : ∀ mem, outcome ctx req.password
      (Auth.userWithCredentials ctx.lib req.email env mem sh.db).result = .ok (.ok u)) :
    ∃ mem, (login ctx metadata req).alone env sh =
      some (.ok (.mfaRequired "" ["totp"]), ⟨sh.db, mem⟩) := by
  rw [login_admitted hadmitted hemail]
  unfold alone
  rw [verify_exec, houtcome, passed_factor _ _ hfactor]
  exact ⟨_, rfl⟩

/-- **A session** is created. -/
theorem login_session (hadmitted : LetIn ctx env sh.mem metadata)
    (hemail : (trim req.email).isEmpty = false) (hfresh : FreshSession ctx.lib env sh.db)
    (hu : u ∈ sh.db.users) (hfactor : ¬ Factor sh.db u)
    (houtcome : ∀ mem, outcome ctx req.password
      (Auth.userWithCredentials ctx.lib req.email env mem sh.db).result = .ok (.ok u)) :
    ∃ mem, (login ctx metadata req).alone env sh =
      some (.ok (.session (sessionReply ctx.lib env u.id)),
      ⟨sh.db.put .sessions (sessionRow ctx.lib env u.id), mem⟩) := by
  rw [login_admitted hadmitted hemail]
  unfold alone
  rw [verify_exec, houtcome, passed_session _ _ hu hfresh hfactor]
  exact ⟨_, rfl⟩

/-- Whoever gets a session has the address of the request. -/
theorem login_user (hadmitted : LetIn ctx env sh.mem metadata)
    (hemail : (trim req.email).isEmpty = false) (hfresh : FreshSession ctx.lib env sh.db)
    {s : ProtoSession} {sh' : Shared}
    (hrun : (login ctx metadata req).alone env sh = some (.ok (.session s), sh')) :
    ∃ u ∈ sh.db.users, ctx.lib.lower u.email = ctx.lib.lower req.email ∧
    s.userId = u.id.toString := by
  have hconst : ∀ mem, (Auth.userWithCredentials ctx.lib req.email env mem sh.db).result =
      (Auth.userWithCredentials ctx.lib req.email env sh.mem sh.db).result := fun _ => rfl
  rcases hfound : outcome ctx req.password
    (Auth.userWithCredentials ctx.lib req.email env sh.mem sh.db).result with e | (o | u)
  · rw [login_admitted hadmitted hemail] at hrun
    unfold alone at hrun
    rw [verify_exec, hconst, hfound] at hrun
    exact absurd (Prod.mk.inj (Option.some.inj hrun)).1 (by simp)
  · rw [login_admitted hadmitted hemail] at hrun
    unfold alone at hrun
    rw [verify_exec, hconst, hfound, refused_exec] at hrun
    exact absurd (Prod.mk.inj (Option.some.inj hrun)).1 (by simp)
  · obtain ⟨hu, haddress⟩ := outcome_user hfound
    have houtcome : ∀ mem, outcome ctx req.password
        (Auth.userWithCredentials ctx.lib req.email env mem sh.db).result = .ok (.ok u) := by
      intro mem
      rw [hconst, hfound]
    by_cases hfactor : Factor sh.db u
    · obtain ⟨mem, hmfa⟩ := login_factor hadmitted hemail hfactor houtcome
      rw [hmfa] at hrun
      exact absurd (Prod.mk.inj (Option.some.inj hrun)).1 (by simp)
    · obtain ⟨mem, hsession⟩ := login_session hadmitted hemail hfresh hu hfactor houtcome
      rw [hsession] at hrun
      obtain rfl := LoginResponse.session.inj (Except.ok.inj (Prod.mk.inj (Option.some.inj hrun)).1)
      exact ⟨u, hu, haddress, rfl⟩

end Login

/-! ## Sessions, and what failures show -/

/-- A session of the user with the id was created, and its token is the answer. -/
def Issues (lib : Libs) (sh : Shared) (res : Except Status LoginResponse) (sh' : Shared)
    (id : Uuid) : Prop :=
  ∃ s row, res = .ok (.session s) ∧ s.userId = id.toString ∧ row.userId = id ∧
    row.tokenHash = Auth.hashToken lib s.token ∧ row.revokedAt = none ∧
    sh'.db.sessions = sh.db.sessions ++ [row]

/-- **A login issues a session exactly to an active user with the address and the password and no
    second factor**, and two failed checks cannot be told apart. -/
theorem login_issues_and_hides (ctx : PlatformContext) (password : String → String)
    (metadata : Metadata) (req : LoginRequest) (hemail : (trim req.email).isEmpty = false) :
    (∀ env sh, Sound ctx.lib password sh.db → LetIn ctx env sh.mem metadata →
      FreshSession ctx.lib env sh.db →
      ∃ res sh', (login ctx metadata req).alone env sh = some (res, sh') ∧
        (∀ id, Issues ctx.lib sh res sh' id ↔
          ∃ u, Granted ctx.lib password sh.db req u ∧ ¬ Factor sh.db u ∧ u.id = id) ∧
        ((∀ id, ¬ Issues ctx.lib sh res sh' id) → sh'.db = sh.db ∧ ∀ s, res ≠ .ok (.session s)) ∧
        ((∃ u, Granted ctx.lib password sh.db req u ∧ Factor sh.db u) →
          res = .ok (.mfaRequired "" ["totp"]))) ∧
    ∀ env₁ env₂ sh₁ sh₂, Sound ctx.lib password sh₁.db → Sound ctx.lib password sh₂.db →
      env₁.nowMs = env₂.nowMs → sh₁.mem.buckets = sh₂.mem.buckets →
      LetIn ctx env₁ sh₁.mem metadata →
      Fails ctx.lib password sh₁.db req → Fails ctx.lib password sh₂.db req →
      ∃ res mem₁ mem₂, (login ctx metadata req).alone env₁ sh₁ = some (res, ⟨sh₁.db, mem₁⟩) ∧
        (login ctx metadata req).alone env₂ sh₂ = some (res, ⟨sh₂.db, mem₂⟩) ∧
        res = .error badCredentials ∧ mem₁ = charged ctx env₁ sh₁.mem metadata ∧
        mem₁.buckets = mem₂.buckets := by
  refine ⟨fun env sh hsound hadmitted hfresh => ?_,
    fun env₁ env₂ sh₁ sh₂ h₁ h₂ hnow hbuckets hadmitted hf₁ hf₂ => ?_⟩
  · have hunique : ∀ {u v : User}, Granted ctx.lib password sh.db req u →
        Granted ctx.lib password sh.db req v → u = v :=
      fun {u v} hu hv => hsound.users.address u hu.1 v hv.1 (hu.2.1.trans hv.2.1.symm)
    by_cases hgranted : ∃ u, Granted ctx.lib password sh.db req u
    · obtain ⟨u, hgranted⟩ := hgranted
      by_cases hfactor : Factor sh.db u
      · obtain ⟨mem, hrun⟩ := login_factor hadmitted hemail hfactor
          (outcome_granted hsound hgranted)
        refine ⟨_, _, hrun, fun id => ⟨?_, ?_⟩, fun _ => ⟨rfl, fun s => by simp⟩, fun _ => rfl⟩
        · rintro ⟨s, row, hres, -⟩
          exact absurd hres (by simp)
        · rintro ⟨v, hv, hnone, -⟩
          obtain rfl := hunique hv hgranted
          exact absurd hfactor hnone
      · obtain ⟨mem, hrun⟩ := login_session hadmitted hemail hfresh hgranted.1 hfactor
          (outcome_granted hsound hgranted)
        have hissues : Issues ctx.lib sh (.ok (.session (sessionReply ctx.lib env u.id)))
            ⟨sh.db.put .sessions (sessionRow ctx.lib env u.id), mem⟩ u.id := by
          refine ⟨_, sessionRow ctx.lib env u.id, rfl, rfl, rfl, rfl, rfl, ?_⟩
          exact put_rows_fresh (t := .sessions) fun s hs hkey => hfresh.id s hs (Key.uuid.inj hkey)
        refine ⟨_, _, hrun, fun id => ⟨?_, ?_⟩, fun hnone => absurd hissues (hnone _), ?_⟩
        · rintro ⟨s, row, hres, hid, -⟩
          obtain rfl := LoginResponse.session.inj (Except.ok.inj hres)
          exact ⟨u, hgranted, hfactor, Uuid.toString_inj hid⟩
        · rintro ⟨v, hv, -, rfl⟩
          obtain rfl := hunique hv hgranted
          exact hissues
        · rintro ⟨v, hv, hthere⟩
          obtain rfl := hunique hv hgranted
          exact absurd hthere hfactor
    · have hnobody : ∀ u, ¬ Granted ctx.lib password sh.db req u := fun u hu => hgranted ⟨u, hu⟩
      have hrun := login_fails hsound hadmitted hemail ((fails_iff hsound).mpr hnobody)
      refine ⟨_, _, hrun, fun id => ⟨?_, ?_⟩, fun _ => ⟨rfl, fun s => by simp⟩, ?_⟩
      · rintro ⟨s, row, hres, -⟩
        exact absurd hres (by simp)
      · rintro ⟨u, hu, -⟩
        exact absurd hu (hnobody u)
      · rintro ⟨u, hu, -⟩
        exact absurd hu (hnobody u)
  · have hadmitted' : LetIn ctx env₂ sh₂.mem metadata := by
      unfold LetIn RateLimiter.allowedAt at hadmitted ⊢
      rwa [← hnow, ← hbuckets]
    refine ⟨_, _, _, login_fails h₁ hadmitted hemail hf₁, login_fails h₂ hadmitted' hemail hf₂,
      rfl, rfl, ?_⟩
    simp only [charged, RateLimiter.recordFailureAt, RateLimiter.allowedAt, RateLimiter.store, hnow,
      hbuckets]

/-! ### Ann signs in -/

section Ann

/-- The password in a sample hash. -/
def samplePassword (phc : String) : String := String.ofList (phc.toList.drop 65)

theorem sample_ideal (p phc : String) :
    Libs.sample.argon2Verify p phc = some (decide (p = samplePassword phc)) := by
  refine congrArg some ?_
  rw [Bool.eq_iff_iff, decide_eq_true_iff, decide_eq_true_iff]
  unfold samplePassword
  constructor
  · intro h
    rw [h, String.ofList_toList]
  · intro h
    rw [h, String.toList_ofList]

/-- Ann is all there is, with a given lifecycle. -/
def onlyAnn (lifecycle : UserLifecycle) : Db := ⟨fun
  | .users => [{ Sample.ann with lifecycle := lifecycle }]
  | .credentials => [Sample.annCredential]
  | _ => []⟩

theorem onlyAnn_sound (lifecycle : UserLifecycle) :
    Sound Libs.sample samplePassword (onlyAnn lifecycle) where
  users :=
    { keyed := List.nodup_singleton _
      address := fun _ hu _ hv _ => (List.mem_singleton.mp hu).trans
        (List.mem_singleton.mp hv).symm }
  credentials := List.nodup_singleton _
  ideal c _ p := sample_ideal p c.passwordHash

def annLogin : LoginRequest := ⟨"ann@example.org", "correct horse"⟩

theorem ann_granted : Granted Libs.sample samplePassword (onlyAnn .active) annLogin Sample.ann := by
  refine ⟨List.mem_singleton_self _, by decide +kernel, rfl, Sample.annCredential,
    List.mem_singleton_self _, rfl, ?_⟩
  decide +kernel

/-- Ann gets a session; nobody gets one where she is not there or has been deactivated, and the
    answers are the same. -/
theorem login_issues_and_hides_ann :
    (∃ res sh', (login oneAttempt fromPeer annLogin).alone (Env.at 0 0 5)
      ⟨onlyAnn .active, Mem.fresh⟩ =
        some (res, sh') ∧ Issues Libs.sample ⟨onlyAnn .active, Mem.fresh⟩ res sh' Sample.ann.id) ∧
      ∃ res mem₁ mem₂, (login oneAttempt fromPeer annLogin).alone (Env.at 0 0 5)
          ⟨onlyAnn .deactivated, Mem.fresh⟩ = some (res, ⟨onlyAnn .deactivated, mem₁⟩) ∧
        (login oneAttempt fromPeer annLogin).alone (Env.at 0 0 6) ⟨Db.empty, Mem.fresh⟩ =
          some (res, ⟨Db.empty, mem₂⟩) ∧ mem₁.buckets = mem₂.buckets := by
  have hemail : (trim annLogin.email).isEmpty = false := by decide +kernel
  obtain ⟨hissues, hhides⟩ := login_issues_and_hides oneAttempt samplePassword fromPeer
    annLogin hemail
  have hadmitted : ∀ id, LetIn oneAttempt (Env.at 0 0 id) Mem.fresh fromPeer := fun id => by
    simp [LetIn, RateLimiter.allowedAt, RateLimiter.refilled, Mem.fresh, oneAttempt, Env.at]
  constructor
  · obtain ⟨res, sh', hrun, hiff, -⟩ := hissues (Env.at 0 0 5) ⟨onlyAnn .active, Mem.fresh⟩
      (onlyAnn_sound _)
      (hadmitted 5) ⟨fun s hs => absurd hs List.not_mem_nil, fun s hs => absurd hs List.not_mem_nil⟩
    have hnone : ¬ Factor (onlyAnn .active) Sample.ann := by
      rintro (⟨t, ht, -⟩ | ⟨w, hw, -⟩)
      · exact absurd ht List.not_mem_nil
      · exact absurd hw List.not_mem_nil
    exact ⟨res, sh', hrun, (hiff Sample.ann.id).mpr ⟨_, ann_granted, hnone, rfl⟩⟩
  · have hempty : Sound Libs.sample samplePassword Db.empty :=
      ⟨⟨List.nodup_nil, fun u hu => absurd hu List.not_mem_nil⟩, List.nodup_nil,
        fun c hc => absurd hc List.not_mem_nil⟩
    obtain ⟨res, mem₁, mem₂, hfirst, hsecond, -, -, hsame⟩ := hhides (Env.at 0 0 5) (Env.at 0 0 6)
      ⟨onlyAnn .deactivated, Mem.fresh⟩ ⟨Db.empty, Mem.fresh⟩
        (onlyAnn_sound _) hempty rfl rfl (hadmitted 5)
      (.notActive _ (List.mem_singleton_self _) (by decide +kernel) (by decide))
      (.unknownEmail fun u hu => absurd hu List.not_mem_nil)
    exact ⟨res, mem₁, mem₂, hfirst, hsecond, hsame⟩

end Ann

end SylvaServer.SignIn
