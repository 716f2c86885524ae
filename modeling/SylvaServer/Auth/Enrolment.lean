/-
  The address of an account, from enrolment to login.

  `Bootstrap` and `UpdateEmail` store the trimmed address. `Login` checks that the trimmed address
  is not blank, and then looks for the address as it was typed.

  Proved: what an account is enrolled as (`Enrols.stored`), and that the same strings sign in
  exactly where trimming the address does not change it in lower case (`enrolled_login_iff`). In
  `trimmed_address_locked_out` an owner types a blank in front of the address.
-/
import SylvaServer.Auth.SignIn
import SylvaServer.Platform.Parts

namespace SylvaServer.Enrolment

open ReadCommitted ReadCommitted.Prog Account SignIn
open Redaction (Indexed)

/-! ## Enrolled accounts -/

/-- A request has returned that gave the account `userId` the address `e` and left it with the
    password `p`. -/
inductive Enrols (ctx : PlatformContext) (e p userId : String) (sh' : Shared) : Prop where
  | bootstrap (metadata : Metadata) (req : BootstrapRequest)
      (xs : List (Choice Env SqlError)) (sh : Shared)
      (session : ProtoSession) (hemail : req.email = e) (hpassword : req.password = p)
      (hrun : Proc.run xs ⟨bootstrap ctx metadata req, none⟩ sh =
        some (⟨.ret (.ok session), none⟩, sh'))
      (huser : session.userId = userId)
  | updateEmail (metadata : Metadata) (req : UpdateEmailRequest)
      (xs : List (Choice Env SqlError)) (sh : Shared) (profile : Profile)
      (hkeyed : Keyed (Table.key .users) sh.db.users) (hemail : req.newEmail = e)
      (hpassword : ∀ c ∈ sh.db.credentials, c.userId.toString = userId →
        ctx.lib.argon2Verify p c.passwordHash = some true)
      (hrun : Proc.run xs ⟨updateEmail ctx metadata req, none⟩ sh =
        some (⟨.ret (.ok profile), none⟩, sh'))
      (huser : profile.userId = userId)

/-- The account and its password as they are stored. -/
def Stored (lib : Libs) (db : Db) (userId e p : String) : Prop :=
  ∃ u ∈ db.users, u.id.toString = userId ∧ u.email = trim e ∧ u.lifecycle = .active ∧
    ∃ c ∈ db.credentials, c.userId = u.id ∧ lib.argon2Verify p c.passwordHash = some true

/-- The rows of an account are the same. -/
def Unchanged (userId : String) (db db' : Db) : Prop :=
  (∀ u, u.id.toString = userId → u ∈ db.users → u ∈ db'.users) ∧
    ∀ c, c.userId.toString = userId → c ∈ db.credentials → c ∈ db'.credentials

section Enrolled

variable {ctx : PlatformContext} {e p userId : String} {sh sh' : Shared}

theorem Stored.unchanged {lib : Libs} {db db' : Db} (h : Stored lib db userId e p)
    (hsame : Unchanged userId db db') : Stored lib db' userId e p := by
  obtain ⟨u, hu, hid, hemail, hactive, c, hc, hown, hverify⟩ := h
  exact ⟨u, hsame.1 u hid hu, hid, hemail, hactive, c, hsame.2 c (hown ▸ hid) hc, hown, hverify⟩

/-- A row that is written and then left alone. -/
theorem mem_applyAll_put {t : Table} {row : t.Row} {db : Db} {ws : List Write}
    (h : ∀ w ∈ ws, w.table ≠ t) : row ∈ (applyAll db (.put t row :: ws)).rows t := by
  have hput : (applyAll db (.put t row :: ws)).rows t = (db.put t row).rows t :=
    applyAll_rows_of_ne (db.put t row) ws h
  rw [hput, put_rows_self]
  exact mem_putRow_self row _

/-- **The account** a request leaves when it returns. -/
theorem Enrols.stored (hargon : ∀ password salt phc, ctx.lib.argon2Hash password salt = some phc →
    ctx.lib.argon2Verify password phc = some true) (h : Enrols ctx e p userId sh') :
    (trim e).isEmpty = false ∧ Stored ctx.lib sh'.db userId e p := by
  cases h with
  | bootstrap metadata req xs sh session hemail hpassword hrun huser =>
    subst hemail hpassword huser
    obtain ⟨ws, cs, tx', hends⟩ := ends_of_run hrun
    obtain ⟨hnamed, salt, phc, km, dev, mem, hphc, hcreate⟩ := bootstrap_through hends
    obtain ⟨user, credential, keys, machine, device, event, row, rfl, rfl, -, ⟨hemail, hactive, -⟩,
        ⟨hown, hhash⟩, -,
      -, -, -, hreply⟩ := bootstrap_create_made hcreate
    refine ⟨hnamed, user, ?_, hreply.symm, hemail, hactive, credential, ?_, hown, ?_⟩
    · rw [hends.db_eq, List.flatten_singleton]
      exact mem_applyAll_put (by simp)
    · rw [hends.db_eq, List.flatten_singleton, applyAll_cons]
      exact mem_applyAll_put (by simp)
    · rw [hhash]
      exact hargon _ _ _ hphc
  | updateEmail metadata req xs sh profile hkeyed hemail hpassword hrun huser =>
    subst hemail huser
    obtain ⟨ws, cs, tx', hends⟩ := ends_of_run hrun
    obtain ⟨user, hu, updated, event, sh₁, cs₁, -, hsame, -, hdb, -, hid, hemail, hactive, hnamed,
        ⟨c, hc, hown⟩, -,
      -, hreply⟩ := updateEmail_made hkeyed hends
    refine ⟨hnamed, updated, ?_, by rw [hid, hreply], hemail, hactive, c, ?_,
      hown.trans hid.symm, ?_⟩
    · rw [hdb]
      exact mem_applyAll_put (by simp)
    · have hcredentials : sh'.db.credentials = sh₁.db.credentials := by
        rw [hdb]
        exact applyAll_rows_of_ne (t := .credentials) _ _ (by simp)
      rw [hcredentials,
        show sh₁.db.credentials = sh.db.credentials from hsame .credentials (by decide)]
      exact hc
    · exact hpassword c hc (by rw [hown, hreply])

/-- **A stored account** is let in with an address exactly where the stored one is the same in lower
    case. -/
theorem stored_login_iff {req : LoginRequest} {metadata : Metadata} {env : Env}
    (hnamed : (trim req.email).isEmpty = false)
    (hstored : Stored ctx.lib sh.db userId req.email req.password)
    (hindexed : Indexed ctx.lib sh.db.users)
    (hkeyed : Keyed (Table.key .credentials) sh.db.credentials)
    (hfactor : ∀ u ∈ sh.db.users, u.id.toString = userId → ¬ Factor sh.db u)
    (hadmitted : LetIn ctx env sh.mem metadata) (hfresh : FreshSession ctx.lib env sh.db) :
    (∃ s sh', (login ctx metadata req).alone env sh = some (.ok (.session s), sh') ∧
      s.userId = userId) ↔ ctx.lib.lower req.email = ctx.lib.lower (trim req.email) := by
  obtain ⟨u, hu, hid, hemail, hactive, c, hc, hown, hverify⟩ := hstored
  constructor
  · rintro ⟨s, sh', hrun, huser⟩
    obtain ⟨v, hv, haddress, hreply⟩ := login_user hadmitted hnamed hfresh hrun
    obtain rfl := hindexed.same_id hv hu
      (Uuid.toString_inj (hreply.symm.trans (huser.trans hid.symm)))
    rw [← haddress, hemail]
  · intro hlower
    obtain ⟨mem, hrun⟩ := login_session hadmitted hnamed hfresh hu (hfactor u hu hid)
      (outcome_verified hindexed hkeyed hu (by rw [hemail, hlower]) hactive hc hown hverify)
    exact ⟨_, _, hrun, hid⟩

/-- **The strings of an enrolment sign in** exactly where trimming the address does not change it in
    lower case. -/
theorem enrolled_login_iff
    (hargon : ∀ password salt phc, ctx.lib.argon2Hash password salt = some phc →
      ctx.lib.argon2Verify password phc = some true)
    (henrols : Enrols ctx e p userId sh') {metadata : Metadata} {env : Env}
    (hsame : Unchanged userId sh'.db sh.db) (hindexed : Indexed ctx.lib sh.db.users)
    (hkeyed : Keyed (Table.key .credentials) sh.db.credentials)
    (hfactor : ∀ u ∈ sh.db.users, u.id.toString = userId → ¬ Factor sh.db u)
    (hadmitted : LetIn ctx env sh.mem metadata) (hfresh : FreshSession ctx.lib env sh.db) :
    (∃ s sh'', (login ctx metadata ⟨e, p⟩).alone env sh = some (.ok (.session s), sh'') ∧
      s.userId = userId) ↔ ctx.lib.lower e = ctx.lib.lower (trim e) := by
  obtain ⟨hnamed, hstored⟩ := henrols.stored hargon
  exact stored_login_iff hnamed (hstored.unchanged hsame) hindexed hkeyed hfactor hadmitted hfresh

end Enrolled

/-! ## An owner with a blank in front of the address -/

section Blank

/-- Password hashes with a dash between salt and password. -/
def dashed : Libs := { Libs.sample with
  argon2Hash := fun password salt => some (hex salt ++ "-" ++ password)
  argon2Verify := fun password phc => some
    ((phc.toList.dropWhile (· != '-')).drop 1 == password.toList) }

theorem dashed_verifies (password : String) (salt : Bytes) (phc : String)
    (h : dashed.argon2Hash password salt = some phc) :
    dashed.argon2Verify password phc = some true := by
  obtain rfl : hex salt ++ "-" ++ password = phc := Option.some.inj h
  have hhex : ∀ c ∈ (hex salt).toList, (c != '-') = true := by
    intro c hc
    rw [hex_toList, List.mem_flatMap] at hc
    obtain ⟨b, -, hc⟩ := hc
    simpa using Delimited.not_dash_of_mem_hexByte hc
  have hlist : (hex salt ++ "-" ++ password).toList =
      (hex salt).toList ++ '-' :: password.toList := by
    rw [String.toList_append, String.toList_append, List.append_assoc]
    rfl
  have hdrop : ((hex salt ++ "-" ++ password).toList.dropWhile (· != '-')).drop 1 =
      password.toList := by
    rw [hlist, List.dropWhile_append_of_pos hhex]
    rfl
  change some (_ == _) = some true
  rw [hdrop, beq_self_eq_true]

def dashedContext : PlatformContext := { oneAttempt with lib := dashed }

/-- The first owner signs up with an address. -/
def signUp (email : String) : BootstrapRequest where
  email := email
  displayName := "Ann"
  password := "correct horse"
  keyMaterial := some ⟨[1], [2], [3], [4], [5], [6], "argon2id"⟩
  device := some ⟨"Laptop", "linux", [7], ""⟩

/-- The sign-up on an empty instance. -/
def signedUp (email : String) : Option (ProtoSession × Shared) :=
  returned (Proc.run (List.replicate 18 (Sample.calm 7))
    ⟨bootstrap dashedContext fromPeer (signUp email), none⟩ ⟨Db.empty, Mem.fresh⟩)

theorem enrols_signedUp {email : String} {x : ProtoSession × Shared} (h : signedUp email = some x) :
    Enrols dashedContext email "correct horse" x.1.userId x.2 :=
  .bootstrap fromPeer (signUp email) _ _ x.1 rfl rfl (returned_eq h) rfl

/-- Nothing but the address stands in the way of a login. -/
structure Ready (sh : Shared) (env : Env) : Prop where
  indexed : Indexed dashed sh.db.users
  keyed : Keyed (Table.key .credentials) sh.db.credentials
  factor : ∀ u, ¬ Factor sh.db u
  letIn : LetIn dashedContext env sh.mem fromPeer
  fresh : FreshSession dashed env sh.db

/-- One account, no factors, a token left and a new id and token. -/
theorem ready_of_one {sh : Shared} {env : Env}
    (hone : sh.db.users.length ≤ 1 ∧ sh.db.credentials.length ≤ 1 ∧ sh.db.totpCredentials = [] ∧
      sh.db.webauthnCredentials = [] ∧
      (dashedContext.authRateLimiter.allowedAt (rateKey fromPeer false) env.nowMs sh.mem).1 = true ∧
      ∀ s ∈ sh.db.sessions, s.id ≠ env.uuid ∧
      s.tokenHash ≠ Auth.hashToken dashed (Auth.generateToken env.random)) :
    Ready sh env := by
  obtain ⟨husers, hcredentials, htotp, hwebauthn, hletIn, hfresh⟩ := hone
  have hsame : ∀ {α : Type} {xs : List α}, xs.length ≤ 1 → ∀ x ∈ xs, ∀ y ∈ xs, x = y := by
    intro α xs hlen x hx y hy
    match xs, hlen with
    | [z], _ => rw [List.mem_singleton.mp hx, List.mem_singleton.mp hy]
  have hnodup : ∀ {α β : Type} {xs : List α} (key : α → β), xs.length ≤ 1 → Keyed key xs := by
    intro α β xs key hlen
    match xs, hlen with
    | [], _ => exact List.nodup_nil
    | [z], _ => exact List.nodup_singleton _
  refine ⟨⟨hnodup _ husers, fun u hu v hv _ => hsame husers u hu v hv⟩,
    hnodup _ hcredentials, ?_, hletIn, fun s hs => (hfresh s hs).1, fun s hs => (hfresh s hs).2⟩
  rintro u (⟨t, ht, -⟩ | ⟨w, hw, -⟩)
  · rw [htotp] at ht
    exact List.not_mem_nil ht
  · rw [hwebauthn] at hw
    exact List.not_mem_nil hw

theorem clean_returns : (signedUp "Ann@example.org").isSome := by decide +kernel

theorem blank_returns : (signedUp " ann@example.org").isSome := by decide +kernel

/-- The owner changes the address, in the session of the sign-up. -/
def readdressed (email : String) : Option (Profile × Shared) :=
  (signedUp "Ann@example.org").bind fun x => returned (Proc.run (List.replicate 13 (Sample.calm 8))
    ⟨updateEmail dashedContext
      { fromPeer with authorization := some (utf8 ("Bearer " ++ x.1.token)) }
      ⟨email, "correct horse"⟩, none⟩ x.2)

theorem enrols_readdressed {email : String} {y : Profile × Shared} (h : readdressed email = some y)
    (hpassword : ∀ x, signedUp "Ann@example.org" = some x → Keyed (Table.key .users) x.2.db.users ∧
      ∀ c ∈ x.2.db.credentials, dashed.argon2Verify "correct horse" c.passwordHash = some true) :
    Enrols dashedContext email "correct horse" y.1.userId y.2 := by
  obtain ⟨x, hx, hrun⟩ := Option.bind_eq_some_iff.mp h
  obtain ⟨hkeyed, hverify⟩ := hpassword x hx
  exact .updateEmail _ ⟨email, "correct horse"⟩ _ _ y.1 hkeyed rfl (fun c hc _ => hverify c hc)
    (returned_eq hrun) rfl

theorem readdressed_returns : (readdressed "Anna@example.net").isSome := by decide +kernel

/-- Ann signs in with the address she signed up with, and with the one she has changed it to. -/
theorem enrolled_login_iff_ann :
    (∃ x, signedUp "Ann@example.org" = some x ∧ ∃ s sh',
      (login dashedContext fromPeer ⟨"Ann@example.org", "correct horse"⟩).alone (Env.at 0 0 9) x.2 =
        some (.ok (.session s), sh') ∧ s.userId = x.1.userId) ∧
    ∃ y, readdressed "Anna@example.net" = some y ∧ ∃ s sh',
      (login dashedContext fromPeer ⟨"Anna@example.net", "correct horse"⟩).alone
        (Env.at 0 0 9) y.2 =
        some (.ok (.session s), sh') ∧ s.userId = y.1.userId := by
  have hsigned := (Option.some_get clean_returns).symm
  have hmoved := (Option.some_get readdressed_returns).symm
  constructor
  · have hready : Ready ((signedUp "Ann@example.org").get clean_returns).2 (Env.at 0 0 9) :=
      ready_of_one (by decide +kernel)
    have hiff := enrolled_login_iff dashed_verifies (enrols_signedUp hsigned)
      ⟨fun u _ hu => hu, fun c _ hc => hc⟩ hready.indexed hready.keyed
      (fun u _ _ => hready.factor u) hready.letIn hready.fresh
    exact ⟨_, hsigned, hiff.mpr (by decide +kernel)⟩
  · have hready : Ready ((readdressed "Anna@example.net").get readdressed_returns).2
        (Env.at 0 0 9) := ready_of_one (by decide +kernel)
    have henrols := enrols_readdressed hmoved fun x hx => by
      obtain rfl := Option.some.inj (hsigned.symm.trans hx)
      decide +kernel
    have hiff := enrolled_login_iff dashed_verifies henrols
      ⟨fun u _ hu => hu, fun c _ hc => hc⟩ hready.indexed hready.keyed
      (fun u _ _ => hready.factor u) hready.letIn hready.fresh
    exact ⟨_, hmoved, hiff.mpr (by decide +kernel)⟩

theorem signedUp_login_iff {email : String} {x : ProtoSession × Shared}
    (h : signedUp email = some x) {env : Env} (hready : Ready x.2 env) :
    (∃ s sh', (login dashedContext fromPeer ⟨email, "correct horse"⟩).alone env x.2 =
      some (.ok (.session s), sh') ∧
      s.userId = x.1.userId) ↔ dashed.lower email = dashed.lower (trim email) := by
  obtain ⟨hnamed, hstored⟩ := (enrols_signedUp h).stored dashed_verifies
  exact stored_login_iff hnamed hstored hready.indexed hready.keyed
    (fun u _ _ => hready.factor u) hready.letIn hready.fresh

/-- **The owner is locked out** who typed a blank in front of the address. -/
theorem trimmed_address_locked_out : ∃ x, signedUp " ann@example.org" = some x ∧
    Enrols dashedContext " ann@example.org" "correct horse" x.1.userId x.2 ∧
    Ready x.2 (Env.at 0 0 9) ∧
    ¬ ∃ s sh', (login dashedContext fromPeer ⟨" ann@example.org", "correct horse"⟩).alone
      (Env.at 0 0 9) x.2 =
      some (.ok (.session s), sh') ∧ s.userId = x.1.userId := by
  have hready : Ready ((signedUp " ann@example.org").get blank_returns).2 (Env.at 0 0 9) :=
    ready_of_one (by decide +kernel)
  have hlower : ¬ dashed.lower " ann@example.org" = dashed.lower (trim " ann@example.org") := by
    decide +kernel
  have hsigned := (Option.some_get blank_returns).symm
  exact ⟨_, hsigned, enrols_signedUp hsigned, hready,
    mt (signedUp_login_iff hsigned hready).mp hlower⟩

end Blank

end SylvaServer.Enrolment
