/-
  What the parts of the handlers write where all goes well.

  Most handlers end with a transaction that is put together from the same parts: an audit event, a
  session, an enrolled device. Each of them adds its rows to the transaction it is in, and a handler
  that returns has committed the rows of all its parts.

  Proved: the rows of the parts (`append_made`, `sessionCreate_made`, `enrollDevice_made`), and what
  a handler knows after `authenticate` (`authenticate_ok`).
-/
import SylvaServer.Model.Account
import SylvaServer.Model.Footprints
import SylvaServer.ReadCommitted.OneTransaction

namespace SylvaServer

open ReadCommitted ReadCommitted.Prog

variable {tx tx' : Option (Tx Write LockKey)} {sh sh' : Shared} {ws us : List Write}
  {cs : List (List Write)} {ls : List LockKey}

/-! ## Single statements -/

/-- An `INSERT` that went through. -/
theorem insertRow_ok {t : Table} {row b : t.Row} {taken : Bool} {refs : List (Table × Key)}
    {entries : List LockKey} {mem : Mem} {db : Db}
    (h : (insertRow t row taken refs entries mem db).result = .ok b) :
    b = row ∧ (insertRow t row taken refs entries mem db).writes = [.put t row] ∧
      (∀ r ∈ db.rows t, t.key r ≠ t.key row) ∧ taken = false := by
  rcases insertRow_cases t row taken refs entries mem db
    with ⟨e, hfailed⟩ | ⟨hrow, hfree, htaken, -⟩
  · rw [hfailed] at h
    exact absurd h (by simp [failed])
  · rw [hrow] at h ⊢
    exact ⟨(Except.ok.inj h).symm, rfl, hfree, htaken⟩

/-- And one whose result the client reads. -/
theorem readAs_insertRow_ok {t : Table} {row : t.Row} {taken : Bool} {refs : List (Table × Key)}
    {entries : List LockKey} {mem : Mem} {db : Db} {γ : Type} {f : t.Row → Except SqlError γ}
    {c : γ} (h : (readAs f (insertRow t row taken refs entries mem db)).result = .ok c) :
    f row = .ok c ∧ (readAs f (insertRow t row taken refs entries mem db)).writes = [.put t row] ∧
      (∀ r ∈ db.rows t, t.key r ≠ t.key row) ∧ taken = false := by
  rcases (readAs_cases f (insertRow t row taken refs entries mem db)).2 with
    ⟨⟨e, he⟩, -, -⟩ | ⟨b, c', hb, hc, hresult, hwrites, -⟩
  · rw [he] at h
    exact absurd h (by simp)
  · obtain ⟨rfl, hput, hfree, htaken⟩ := insertRow_ok hb
    rw [hresult] at h
    obtain rfl := Except.ok.inj h
    exact ⟨hc, hwrites.trans hput, hfree, htaken⟩

/-! ## The parts -/

theorem inside_append (lib : Libs) (actor : Option Audit.Actor) (appId : Option String)
    (eventType : String) (eventData : EventData) :
    (Audit.append lib actor appId eventType eventData).Inside := by
  unfold Audit.append
  refine inside_bind (inside_inTx _) fun _ => inside_bind (inside_inTx _) fun _ => ?_
  refine inside_bind (inside_inTx _) fun _ => inside_bind (inside_critical _) fun _ => ?_
  exact inside_inTx _

/-- An appended event. -/
theorem append_made {lib : Libs} {actor : Option Audit.Actor} {appId : Option String}
    {eventType : String} {eventData : EventData} {row : AuditEvent}
    (h : Ends (Audit.append lib actor appId eventType eventData) (some (.active us ls)) sh ws cs
      (.ok row) tx' sh') :
    ws = [.put .events row] ∧ row.eventType = eventType ∧
      row.actorUserId = actor.map Audit.Actor.userId ∧
      row.eventData = lib.jsonb eventData ∧
      ∀ r ∈ (applyAll sh.db us).events, r.seqno ≠ row.seqno := by
  have hnext : ∀ env mem db, (Audit.nextSeqno env mem db).writes = [] := by
    intro env mem db
    unfold Audit.nextSeqno
    split <;> rfl
  unfold Audit.append at h
  obtain ⟨_, _, ws₁, _, _, ls₁, -, hlock, h₁, rfl⟩ := h.through_stmt
  obtain rfl : [] = ws₁ := hlock
  obtain ⟨env, seqno, ws₂, _, _, ls₂, -, hseqno, h₂, rfl⟩ := h₁.through_stmt
  obtain rfl : [] = ws₂ := (hnext ..).symm.trans hseqno
  obtain ⟨_, _, ws₃, _, _, ls₃, -, hlast, h₃, rfl⟩ := h₂.through_stmt
  obtain rfl : [] = ws₃ := hlast
  obtain ⟨env', _, h₄⟩ := h₃.through_critical
  obtain ⟨env'', us', ls', ls'', htx, hr, rfl, rfl, rfl, rfl⟩ := h₄.inTx_ok
  obtain ⟨rfl, rfl⟩ := Tx.active.inj (Option.some.inj htx)
  obtain ⟨rfl, hput, hfree, -⟩ := insertRow_ok hr
  refine ⟨hput, rfl, rfl, rfl, fun r hr hseq => hfree r ?_ (congrArg Key.seqno hseq)⟩
  simpa using hr

theorem inside_sessionCreate (lib : Libs) (userId : Uuid) (ttl : Int)
    (userAgent ipAddress : Option String) :
    (SessionRepository.create lib userId ttl userAgent ipAddress).Inside := by
  unfold SessionRepository.create
  refine inside_bind (inside_critical _) fun _ => inside_bind (inside_critical _) fun _ => ?_
  exact inside_bind (inside_inTx _) fun _ => trivial

/-- A created session. -/
theorem sessionCreate_made {lib : Libs} {userId : Uuid} {ttl : Int}
    {userAgent ipAddress : Option String} {session : Session × String}
    (h : Ends (SessionRepository.create lib userId ttl userAgent ipAddress)
      (some (.active us ls)) sh ws cs (.ok session) tx' sh') :
    ws = [.put .sessions session.1] ∧ session.1.userId = userId ∧
      session.1.tokenHash = Auth.hashToken lib session.2 := by
  unfold SessionRepository.create at h
  obtain ⟨env, _, h₁⟩ := h.through_critical
  obtain ⟨env', _, h₂⟩ := h₁.through_critical
  obtain ⟨env'', row, ws₁, ws₂, _, ls', hr, hw, h₃, rfl⟩ := h₂.through_stmt
  obtain ⟨rfl, rfl, -⟩ := h₃.pure_ok
  obtain ⟨rfl, hput, -⟩ := insertRow_ok hr
  exact ⟨by rw [← hw, List.append_nil]; exact hput, rfl, rfl⟩

theorem inside_enrollDevice (user : User) (dev : Account.DeviceEnrollment) :
    (Account.enrollDevice user dev).Inside := by
  unfold Account.enrollDevice
  refine inside_bind (inside_mapError _ (inside_inTx _)) fun _ => ?_
  exact inside_bind (inside_mapError _ (inside_inTx _)) fun _ => trivial

/-- An enrolled device, and its machine. -/
theorem enrollDevice_made {user : User} {dev : Account.DeviceEnrollment}
    {device : Account.ProtoDevice}
    (h : Ends (Account.enrollDevice user dev) (some (.active us ls)) sh ws cs
      (.ok device) tx' sh') :
    ∃ machine row, ws = [.put .machines machine, .put .devices row] ∧
      machine.claimedByUserId = some user.id ∧
      row.userId = user.id ∧ row.machineId = some machine.id ∧
      device = Account.deviceToProto row := by
  unfold Account.enrollDevice at h
  obtain ⟨env, machine, ws₁, _, _, ls', hmachine, hw₁, h₁, rfl⟩ := h.through_inTx
  obtain ⟨env', row, ws₂, _, _, ls'', hrow, hw₂, h₂, rfl⟩ := h₁.through_inTx
  obtain ⟨rfl, rfl, -⟩ := h₂.pure_ok
  obtain ⟨rfl, hput, -⟩ := insertRow_ok hmachine
  obtain ⟨rfl, hput', -⟩ := insertRow_ok hrow
  obtain rfl := hput.symm.trans hw₁
  obtain rfl := hput'.symm.trans hw₂
  exact ⟨_, _, rfl, rfl, rfl, rfl, rfl⟩

theorem looks_verifyUserPassword (lib : Libs) (userId : Uuid) (password : String) :
    (Auth.verifyUserPassword lib userId password).Looks := by
  unfold Auth.verifyUserPassword
  refine looks_bind (looks_mapError _ (looks_onPool fun _ _ _ => rfl)) fun hash => ?_
  cases hash <;> trivial

theorem looks_hashPassword (lib : Libs) (password : String) :
    (Auth.hashPassword lib password).Looks :=
  looks_bind (looks_critical _) fun _ => looks_ofExcept _

/-! ## After `authenticate` -/

/-- The tables but the sessions. -/
def SameBut (t : Table) (db db' : Db) : Prop := ∀ t', t' ≠ t → db'.rows t' = db.rows t'

/-- **An authenticated user** is one of the users and active, and only a session has been
    touched. -/
theorem authenticate_ok {lib : Libs} {metadata : Metadata} {user : User}
    (hkeyed : Keyed (Table.key .users) sh.db.users)
    (h : Ends (authenticate lib metadata) none sh ws cs (.ok user) tx' sh') :
    tx' = none ∧ user ∈ sh.db.users ∧ user.lifecycle = .active ∧
    SameBut .sessions sh.db sh'.db := by
  have hsame : SameBut .sessions sh.db sh'.db := by
    intro t ht
    have havoids : ∀ w ∈ ws, w.table ≠ t := h.made (avoids_authenticate ht.symm lib metadata)
    rw [h.db_eq]
    refine applyAll_rows_of_ne _ _ fun w hw => havoids w ?_
    exact (h.committed_mem w hw).resolve_left List.not_mem_nil
  unfold authenticate at h
  obtain ⟨token, -, h₁⟩ := h.through_ofExcept
  obtain ⟨env, session, ws₁, ws₂, cs₂, _, hsession, hw₁, h₂, -, -⟩ := h₁.through_onPool
  obtain rfl : [] = ws₁ := hw₁
  cases session with
  | none => cases h₂
  | some session =>
    obtain ⟨env', found, ws₃, ws₄, cs₄, _, hfound, hw₃, h₃, -, -⟩ := h₂.through_onPool
    obtain rfl : [] = ws₃ := hw₃
    cases found with
    | none => cases h₃
    | some found =>
      obtain ⟨_, ws₅, cs₅, tx₁, sh₁, ws₆, cs₆, htouch, hpure, -, -⟩ := h₃.bind_ok
      obtain ⟨rfl, -, -, rfl, -⟩ := hpure.pure_ok
      obtain ⟨r, htouch, -⟩ := htouch.attempt
      -- the session belongs to an active user, and ids are keys
      have hsome := Except.ok.inj hsession
      have hactive := List.find?_some hsome
      simp only [Bool.and_eq_true, List.any_eq_true, beq_iff_eq] at hactive
      obtain ⟨-, v, hv, hid, hlifecycle⟩ := hactive
      have hthere := Except.ok.inj hfound
      have huser := List.mem_of_find?_eq_some hthere
      have hown := List.find?_some hthere
      simp only [Bool.and_eq_true, beq_iff_eq] at hown
      obtain rfl := hkeyed.eq huser hv (congrArg Key.uuid (hown.1.trans hid.symm))
      exact ⟨htouch.onPool_tx, huser, hlifecycle, hsame⟩

/-- A statement that reads writes nothing. -/
theorem through_read {α β : Type} {read : Env → Db → α} {g : SqlError → Status} {f : α → Rpc β}
    {b : β} (h : Ends ((onPool (select read)).mapError g >>= f) none sh ws cs (.ok b) tx' sh') :
    ∃ env mem, Ends (f (read env sh.db)) none ⟨sh.db, mem⟩ ws cs (.ok b) tx' sh' := by
  obtain ⟨env, a, ws₁, ws₂, cs₂, mem, hr, hw, h₁, rfl, rfl⟩ := h.through_onPool
  obtain rfl : [] = ws₁ := hw
  obtain rfl : read env sh.db = a := Except.ok.inj hr
  exact ⟨env, mem, h₁⟩

theorem hashPassword_ok {lib : Libs} {password phc : String}
    (h : Ends (Auth.hashPassword lib password) none sh ws cs (.ok phc) tx' sh') :
    ∃ salt, lib.argon2Hash password salt = some phc ∧ ws = [] ∧ cs = [] ∧
    tx' = none ∧ sh'.db = sh.db := by
  unfold Auth.hashPassword at h
  obtain ⟨env, _, h₁⟩ := h.through_critical
  obtain ⟨hhash, rfl, rfl, rfl, rfl⟩ := h₁.ofExcept_ok
  refine ⟨env.random, ?_, rfl, rfl, rfl, rfl⟩
  cases hphc : lib.argon2Hash password env.random with
  | none =>
    rw [hphc] at hhash
    exact absurd hhash (by simp)
  | some phc' =>
    rw [hphc] at hhash
    exact congrArg some (Except.ok.inj hhash)

/-- A check of the current password. -/
theorem verifyUserPassword_ok {lib : Libs} {userId : Uuid} {password : String} {verified : Bool}
    (h : Ends (Auth.verifyUserPassword lib userId password) none sh ws cs (.ok verified) tx' sh') :
    ws = [] ∧ cs = [] ∧ tx' = none ∧ sh'.db = sh.db ∧ (verified = true →
      ∃ c ∈ sh.db.credentials, c.userId = userId ∧
      lib.argon2Verify password c.passwordHash = some true) := by
  unfold Auth.verifyUserPassword at h
  obtain ⟨env, hash, ws₁, ws₂, cs₂, mem, hr, hw, h₁, rfl, rfl⟩ := h.through_onPool
  obtain rfl : [] = ws₁ := hw
  cases hash with
  | none =>
    obtain ⟨rfl, rfl, rfl, rfl, rfl⟩ := h₁.pure_ok
    exact ⟨rfl, rfl, rfl, rfl, fun hfalse => absurd hfalse (by simp)⟩
  | some phc =>
    obtain ⟨hverified, rfl, rfl, rfl, rfl⟩ := h₁.ofExcept_ok
    refine ⟨rfl, rfl, rfl, rfl, ?_⟩
    rintro rfl
    obtain ⟨c, hfind, rfl⟩ := Option.map_eq_some_iff.mp (Except.ok.inj hr)
    have hown := List.find?_some (p := fun c : Credential => c.userId == userId) hfind
    refine ⟨c, List.mem_of_find?_eq_some hfind, beq_iff_eq.mp hown, ?_⟩
    unfold Auth.verifyPassword at hverified
    split at hverified
    · next b hb => rw [hb, Except.ok.inj hverified]
    · exact absurd hverified (by simp)

/-- An update of one user that went through. -/
theorem updateUser_ok {mem : Mem} {db : Db} {user u : User} {f : User → User} {locks : List LockKey}
    (hkeyed : Keyed (Table.key .users) db.users) (hu : user ∈ db.users)
    (h : (readAs fetchOne
      { updateRows .users (·.id == user.id) f mem db with locks := locks }).result = .ok u) :
    u = f user ∧
    (readAs fetchOne { updateRows .users (·.id == user.id) f mem db with locks := locks }).writes =
      [.put .users (f user)] := by
  have hone : (db.rows .users).filter (·.id == user.id) = [user] :=
    keyed_filter_eq hkeyed hu (fun _ hv => congrArg Key.uuid (by simpa using hv))
      (beq_self_eq_true user.id)
  have hrows : updateRows .users (·.id == user.id) f mem db =
      { result := .ok [f user], writes := [.put .users (f user)], locks := [], mem := mem } := by
    unfold updateRows
    rw [hone]
    rfl
  rw [hrows] at h ⊢
  exact ⟨(Except.ok.inj h).symm, rfl⟩

/-! ## Whole handlers -/

section Handlers

open Account

variable {ctx : PlatformContext} {metadata : Metadata}

/-- **The rows of a bootstrap**, past its gate. -/
theorem bootstrap_create_made {email displayName phc : String} {km : UserKeyMaterial}
    {dev : DeviceEnrollment} {session : ProtoSession}
    (h : Ends (bootstrap.create ctx email displayName phc km dev) none sh ws cs
      (.ok session) tx' sh') :
    ∃ user credential keys machine device event row,
      ws = [.put .users user, .put .credentials credential, .put .userKeys keys,
        .put .machines machine,
        .put .devices device, .put .events event, .put .sessions row] ∧ cs = [ws] ∧ tx' = none ∧
      (user.email = email ∧ user.lifecycle = .active ∧ user.instanceRole = .owner) ∧
      (credential.userId = user.id ∧ credential.passwordHash = phc) ∧ keys.userId = user.id ∧
      device.userId = user.id ∧ row.userId = user.id ∧ event.eventType = "owner_bootstrapped" ∧
      session.userId = user.id.toString := by
  unfold bootstrap.create at h
  obtain ⟨-, h₀⟩ := h.through_begin
  obtain ⟨_, user, ws₁, _, _, _, huser, hw₁, h₁, rfl⟩ := h₀.through_inTx
  obtain ⟨_, _, ws₂, _, _, _, hcredential, hw₂, h₂, rfl⟩ := h₁.through_inTx
  obtain ⟨_, _, ws₃, _, _, _, hkeys, hw₃, h₃, rfl⟩ := h₂.through_inTx
  obtain ⟨device, ws₄, _, _, _, hdevice, -, h₄, rfl⟩ := h₃.through_inside (inside_enrollDevice _ _)
  obtain ⟨event, ws₅, _, _, _, hevent, -, h₅, rfl⟩ :=
    h₄.through_inside (inside_mapError _ (inside_append ..))
  obtain ⟨row, ws₆, _, _, _, hrow, -, h₆, rfl⟩ := h₅.through_inside
    (inside_mapError _ (inside_sessionCreate _ _ _ _ _))
  obtain ⟨rfl, rfl, rfl, rfl, -⟩ := h₆.through_commit
  obtain ⟨rfl, hput₁, -⟩ := insertRow_ok huser
  obtain ⟨-, hput₂, -⟩ := readAs_insertRow_ok hcredential
  obtain ⟨-, hput₃, -⟩ := readAs_insertRow_ok hkeys
  obtain rfl := hput₁.symm.trans hw₁
  obtain rfl := hput₂.symm.trans hw₂
  obtain rfl := hput₃.symm.trans hw₃
  obtain ⟨machine, device', rfl, -, hdeviceUser, -, -⟩ := enrollDevice_made hdevice
  obtain ⟨rfl, htype, -, -⟩ := append_made hevent.mapError_ok
  obtain ⟨rfl, hrowUser, -⟩ := sessionCreate_made hrow.mapError_ok
  exact ⟨_, _, _, machine, device', event, row.1, rfl, by simp, rfl, ⟨rfl, rfl, rfl⟩, ⟨rfl, rfl⟩,
    rfl, hdeviceUser, hrowUser, htype, rfl⟩

/-- A bootstrap that returns has come to its transaction with the trimmed address and a hash of the
    password. -/
theorem bootstrap_through {req : BootstrapRequest} {session : ProtoSession}
    (h : Ends (bootstrap ctx metadata req) none sh ws cs (.ok session) tx' sh') :
    (trim req.email).isEmpty = false ∧
      ∃ salt phc km dev mem, ctx.lib.argon2Hash req.password salt = some phc ∧
      Ends (bootstrap.create ctx (trim req.email) (trim req.displayName) phc km dev) none
        ⟨sh.db, mem⟩ ws cs
        (.ok session) tx' sh' := by
  unfold bootstrap at h
  obtain ⟨env, mem, h₁⟩ := h.through_critical
  split at h₁
  · cases h₁
  · obtain ⟨⟨km, dev⟩, hchecked, h₂⟩ := h₁.through_ofExcept
    obtain ⟨_, _, h₃⟩ := through_read h₂
    split at h₃
    · obtain ⟨_, _, h₄⟩ := h₃.through_critical
      cases h₄
    · have hnamed : (trim req.email).isEmpty = false := by
        unfold bootstrap.checked at hchecked
        by_contra hblank
        rw [if_pos (by simp [hblank])] at hchecked
        exact absurd hchecked (by simp [bind, Except.bind, throw, throwThe, MonadExceptOf.throw])
      unfold bootstrap.afterGate at h₃
      obtain ⟨phc, ws₁, cs₁, tx₁, sh₁, ws₂, cs₂, hhash, h₄, rfl, rfl⟩ := h₃.bind_ok
      obtain ⟨salt, hsalt, rfl, rfl, rfl, hdb⟩ := hashPassword_ok hhash.mapError_ok
      obtain ⟨db, mem'⟩ := sh₁
      obtain rfl : db = sh.db := hdb
      exact ⟨hnamed, salt, phc, km, dev, mem', hsalt, h₄⟩

/-- A profile after an update of the address. -/
theorem updateEmail_made {req : UpdateEmailRequest} {profile : Profile}
    (hkeyed : Keyed (Table.key .users) sh.db.users)
    (h : Ends (updateEmail ctx metadata req) none sh ws cs (.ok profile) tx' sh') :
    ∃ user ∈ sh.db.users,
      ∃ (updated : User) (event : AuditEvent) (sh₁ : Shared) (cs₁ : List (List Write)),
      user.lifecycle = .active ∧ SameBut .sessions sh.db sh₁.db ∧
      cs = cs₁ ++ [[.put .users updated, .put .events event]] ∧
      sh'.db = applyAll sh₁.db ([.put .users updated, .put .events event] : List Write) ∧
      tx' = none ∧
      updated.id = user.id ∧ updated.email = trim req.newEmail ∧ updated.lifecycle = .active ∧
      (trim req.newEmail).isEmpty = false ∧ (∃ c ∈ sh.db.credentials, c.userId = user.id) ∧
      event.eventType = "email_changed" ∧ event.actorUserId = some user.id ∧
      profile.userId = user.id.toString := by
  unfold updateEmail at h
  obtain ⟨user, ws₁, cs₁, tx₁, sh₁, ws₂, cs₂, hauth, h₁, rfl, rfl⟩ := h.bind_ok
  obtain ⟨rfl, huser, hactive, hsame⟩ := authenticate_ok hkeyed hauth
  obtain ⟨verified, ws₃, cs₃, tx₃, sh₃, ws₄, cs₄, hverify, h₂, rfl, rfl⟩ := h₁.bind_ok
  obtain ⟨rfl, rfl, rfl, hdb, hpassword⟩ := verifyUserPassword_ok hverify.mapError_ok
  dsimp only at h₂
  split at h₂
  · cases h₂
  · next hverified =>
    split at h₂
    · cases h₂
    · next hnamed =>
      obtain ⟨-, h₃⟩ := h₂.through_begin
      obtain ⟨env, updated, ws₅, _, _, _, hupdate, hw₅, h₄, rfl⟩ := h₃.through_inTx
      obtain ⟨event, ws₆, _, _, _, hevent, hdb', h₅, rfl⟩ :=
        h₄.through_inside (inside_mapError _ (inside_append _ _ _ _ _))
      obtain ⟨rfl, rfl, rfl, rfl, hlast⟩ := h₅.through_commit
      obtain ⟨rfl, htype, hactor, -⟩ := append_made hevent.mapError_ok
      have husers : sh₃.db.users = sh.db.users := (congrArg Db.users hdb).trans
        (hsame .users (by decide))
      have hput : updated = { user with email := trim req.newEmail, updatedAt := env.pgNow } ∧
          ws₅ = [.put .users { user with email := trim req.newEmail, updatedAt := env.pgNow }] := by
        have hkeyed' : Keyed (Table.key .users) (applyAll sh₃.db ([] : List Write)).users := by
          rw [applyAll_nil, husers]
          exact hkeyed
        have huser' : user ∈ (applyAll sh₃.db ([] : List Write)).users := by
          rw [applyAll_nil, husers]
          exact huser
        unfold UserRepository.updateEmail at hupdate hw₅
        split at hupdate
        · exact absurd hupdate (by simp [failed])
        · next hfree =>
          rw [if_neg hfree] at hw₅
          obtain ⟨hupdated, hwrites⟩ := updateUser_ok hkeyed' huser' hupdate
          exact ⟨hupdated, hw₅.symm.trans hwrites⟩
      obtain ⟨rfl, rfl⟩ := hput
      obtain ⟨c, hc, hown, -⟩ := hpassword (by simpa using hverified)
      have hcredentials : sh₁.db.credentials = sh.db.credentials := hsame .credentials (by decide)
      rw [hcredentials] at hc
      refine ⟨user, huser, { user with email := trim req.newEmail, updatedAt := env.pgNow }, event,
        sh₁, cs₁, hactive,
        hsame, by
          simp, ?_, rfl, rfl, rfl, hactive, by
            simpa using hnamed, ⟨c, hc, hown⟩, htype, hactor, rfl⟩
      rw [hlast, hdb', hdb]
      rfl

end Handlers

/-! ## Concrete runs -/

/-- What a run returned, if it returned. -/
def returned {α : Type} : Option (Running α × Shared) → Option (α × Shared)
  | some (⟨.ret (.ok a), none⟩, sh) => some (a, sh)
  | _ => none

theorem returned_eq {α : Type} {x : Option (Running α × Shared)} {a : α} {sh : Shared}
    (h : returned x = some (a, sh)) : x = some (⟨.ret (.ok a), none⟩, sh) := by
  unfold returned at h
  split at h
  · obtain ⟨rfl, rfl⟩ := Prod.mk.inj (Option.some.inj h)
    rfl
  · exact absurd h (by simp)

end SylvaServer
