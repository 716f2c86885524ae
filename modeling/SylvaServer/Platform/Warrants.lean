/-
  What entitles a request to its writes.

  A method checks its caller first, on the pool: a session, the current password, a publisher's
  signature, a machine's session, or that nobody is there yet. The rows are written later, when the
  tables may be different. `Found` says what each check finds, `Warrant` which rows may be written
  on the strength of what was found.

  Proved: every method checks before it writes (`cites_call`), and in every run of the methods each
  row that is committed is one its request is entitled to by a check the request itself made earlier
  in the run (`writes_warranted`).
-/
import SylvaServer.Model.Footprints
import SylvaServer.ReadCommitted.Provenance

namespace SylvaServer

open ReadCommitted ReadCommitted.Prog Account

/-! ## What a request carries -/

def RpcCall.metadata : RpcCall → Metadata
  | .bootstrap metadata _ | .login metadata _ | .registerDevice metadata _
  | .revokeDevice metadata _
  | .updateDisplayName metadata _ | .updateEmail metadata _ | .changePassword metadata _
  | .setAvatar metadata _
  | .registerMachine metadata _ | .checkIn metadata | .reportTelemetry metadata _
  | .registerApp metadata _
  | .getAppRegistration metadata _ | .createResource metadata _ | .readResource metadata _
  | .updateResource metadata _ | .deleteResource metadata _ | .listResources metadata _
  | .streamChanges metadata _ => metadata

/-- The password that the caller has to repeat. -/
def RpcCall.currentPassword : RpcCall → Option String
  | .updateEmail _ req => some req.currentPassword
  | .changePassword _ req => some req.currentPassword
  | _ => none

namespace Warrants

/-! ## Checks and the writes they allow -/

/-- What a check can find. -/
inductive Fact where
  | session (s : Session)
  | password (u : Uuid)
  | login (user : User)
  | singleFactor (u : Uuid)
  | publisher (decl : Registry.AppDeclaration)
  | machine (s : MachineSession)
  | possession (key : Bytes)
  | vacant

/-- What the tables show to a request. -/
def Found (lib : Libs) (call : RpcCall) : Fact → Env → Db → Prop
  | .session s, env, db =>
      (∃ token, bearerToken call.metadata = .ok token ∧ s.tokenHash = Auth.hashToken lib token) ∧
      s ∈ db.sessions ∧ s.revokedAt = none ∧ env.pgNow.nanos < s.expiresAt.nanos ∧
      ∃ user ∈ db.users, user.id = s.userId ∧ user.lifecycle = .active
  | .password u, _, db => ∃ password ∈ call.currentPassword, ∃ c ∈ db.credentials,
      c.userId = u ∧ lib.argon2Verify password c.passwordHash = some true
  | .login user, _, db => ∃ metadata req, call = .login metadata req ∧
      user ∈ db.users ∧ user.lifecycle = .active ∧
      lib.lower user.email = lib.lower req.email ∧
      ∃ c ∈ db.credentials, c.userId = user.id ∧
      lib.argon2Verify req.password c.passwordHash = some true
  | .singleFactor u, _, db => (∀ t ∈ db.totpCredentials, t.userId = u → t.verifiedAt = none) ∧
      ∀ p ∈ db.webauthnCredentials, p.userId ≠ u
  | .publisher decl, _, db => ∃ metadata req, call = .registerApp metadata req ∧ decl = req.decl ∧
      ∃ p ∈ db.trustedPublishers, p.publisher = decl.publisher ∧
        Registry.verifyDeclarationSignature lib p.publicKey decl req.signature = true
  | .machine s, env, db =>
      (∃ token, MachineService.machineToken call.metadata = .ok token ∧
        s.tokenHash = hashMachineToken lib token) ∧
      s ∈ db.machineSessions ∧ s.revokedAt = none ∧ env.pgNow.nanos < s.expiresAt.nanos
  | .vacant, _, db => (∃ metadata req, call = .bootstrap metadata req) ∧ db.users = []
  | .possession _, _, _ => False

/-- What a request proves by itself. -/
def Given (lib : Libs) (call : RpcCall) : Fact → Prop
  | .possession key =>
      ∃ metadata req, call = .registerMachine metadata req ∧ req.machineIdentityPublic = key ∧
      MachineService.verifyPop lib key req.platform req.label req.signature = true
  | _ => False

/-- A row of the user. -/
inductive OfUser (u : Uuid) : Write → Prop
  | user (r : User) (h : r.id = u) : OfUser u (.put .users r)
  | credential (r : Credential) (h : r.userId = u) : OfUser u (.put .credentials r)
  | keys (r : UserKeys) (h : r.userId = u) : OfUser u (.put .userKeys r)
  | avatar (r : UserAvatar) (h : r.userId = u) : OfUser u (.put .userAvatars r)
  | machine (r : Machine) (h : r.claimedByUserId = some u) : OfUser u (.put .machines r)
  | device (r : Device) (h : r.userId = u) : OfUser u (.put .devices r)
  | resource (r : Resource) (h : r.ownerUserId = u) : OfUser u (.put .resources r)
  | event (r : AuditEvent) (h : r.actorUserId = some u) : OfUser u (.put .events r)

/-- A row of the machine. -/
inductive OfMachine (id : Uuid) : Write → Prop
  | machine (r : Machine) (h : r.id = id) : OfMachine id (.put .machines r)
  | telemetry (r : MachineTelemetry) (h : r.machineId = id) :
      OfMachine id (.put .machineTelemetry r)

/-- A row of a registration under the identity key, beside `rows` of the same transaction: the
    session is for a machine that has the key there; the event has no actor. -/
inductive OfIdentity (rows : Write → Prop) (key : Bytes) : Write → Prop
  | machine (r : Machine) (h : r.machineIdentityPublic = some key) :
      OfIdentity rows key (.put .machines r)
  | session (r : MachineSession) (m : Machine) (hm : rows (.put .machines m))
      (hkey : m.machineIdentityPublic = some key) (hid : r.machineId = m.id) :
      OfIdentity rows key (.put .machineSessions r)
  | event (r : AuditEvent) (h : r.actorUserId = none) : OfIdentity rows key (.put .events r)

theorem OfIdentity.mono {rows rows' : Write → Prop} {key : Bytes} {w : Write}
    (hmore : ∀ x, rows x → rows' x) (h : OfIdentity rows key w) : OfIdentity rows' key w := by
  cases h with
  | machine r h => exact .machine r h
  | session r m hm hkey hid => exact .session r m (hmore _ hm) hkey hid
  | event r h => exact .event r h

/-- The registration says what was declared. -/
def Declares (r : RegisteredApp) (decl : Registry.AppDeclaration) : Prop :=
  r.appIdentifier = decl.appIdentifier ∧ r.displayName = decl.displayName ∧
    r.publisher = decl.publisher ∧
    r.appPublicKey = decl.appPublicKey ∧ r.schemaVersion = decl.schemaVersion ∧
    r.resourceTypes = decl.resourceTypes

/-- The rows that a request may write, knowing some facts and having written some rows. -/
inductive Warrant (call : RpcCall) (g : Grounds Fact Write) : Write → Prop
  /-- The session of the caller was used. -/
  | seen (s : Session) (h : g.facts (.session s)) (r : Session) (hr : r.id = s.id) :
      Warrant call g (.put .sessions r)
  | own (s : Session) (h : g.facts (.session s))
      (hpassword : call.currentPassword.isSome → g.facts (.password s.userId)) (w : Write)
      (hw : OfUser s.userId w) : Warrant call g w
  | declared (s : Session) (h : g.facts (.session s)) (decl : Registry.AppDeclaration)
      (hdecl : g.facts (.publisher decl)) (r : RegisteredApp) (hr : Declares r decl) :
      Warrant call g (.put .registeredApps r)
  | signedIn (user : User) (h : g.facts (.login user)) (hsingle : g.facts (.singleFactor user.id))
      (r : Session) (hr : r.userId = user.id) : Warrant call g (.put .sessions r)
  | machine (s : MachineSession) (h : g.facts (.machine s)) (w : Write)
      (hw : OfMachine s.machineId w) : Warrant call g w
  | possessed (key : Bytes) (h : g.facts (.possession key)) (w : Write)
      (hw : OfIdentity g.rows key w) : Warrant call g w
  | founded (h : g.facts .vacant) (w : Write) (ht : w.table ∈ call.tables) : Warrant call g w

theorem Warrant.mono {call : RpcCall} {g g' : Grounds Fact Write} {w : Write} (hmore : g.Within g')
    (h : Warrant call g w) : Warrant call g' w := by
  have hfacts := hmore.facts
  cases h with
  | seen s h r hr => exact .seen s (hfacts _ h) r hr
  | own s h hpassword w hw =>
    exact .own s (hfacts _ h) (fun hsome => hfacts _ (hpassword hsome)) w hw
  | declared s h decl hdecl r hr => exact .declared s (hfacts _ h) decl (hfacts _ hdecl) r hr
  | signedIn user h hsingle r hr => exact .signedIn user (hfacts _ h) (hfacts _ hsingle) r hr
  | machine s h w hw => exact .machine s (hfacts _ h) w hw
  | possessed key h w hw => exact .possessed key (hfacts _ h) w (hw.mono hmore.rows)
  | founded h w ht => exact .founded (hfacts _ h) w ht

/-- The checks of a request and the writes they allow. -/
def evidence (lib : Libs) (call : RpcCall) : Evidence Fact Env Db Write where
  finds := Found lib call
  may := Warrant call
  mono := Warrant.mono

/-! ## What the statements write -/

section Statements

variable {env : Env} {mem : Mem} {db : Db} {t : Table} {α ε : Type}

theorem mem_insertRow {row : t.Row} {taken : Bool} {refs : List (Table × Key)}
    {entries : List LockKey} {w : Write}
    (hw : w ∈ (insertRow t row taken refs entries mem db).writes) : w = .put t row := by
  rcases insertRow_cases t row taken refs entries mem db with ⟨e, h⟩ | ⟨h, -⟩
  · rw [h] at hw
    exact absurd hw List.not_mem_nil
  · rw [h] at hw
    exact List.mem_singleton.mp hw

theorem mem_updateRows {p : t.Row → Bool} {f : t.Row → t.Row} {w : Write}
    (hw : w ∈ (updateRows t p f mem db).writes) : ∃ r, p r = true ∧ w = .put t (f r) := by
  simp only [updateRows, List.mem_map, List.mem_filter] at hw
  obtain ⟨-, ⟨r, ⟨-, hp⟩, rfl⟩, rfl⟩ := hw
  exact ⟨r, hp, rfl⟩

variable {P : Write → Prop}

/-- An `INSERT` of a row that may be written. -/
theorem insert_spec {row : t.Row} {taken : Bool} {refs : List (Table × Key)}
    {entries : List LockKey} (h : P (.put t row)) :
    ∀ w ∈ (insertRow t row taken refs entries mem db).writes, P w := by
  intro w hw
  rw [mem_insertRow hw]
  exact h

/-- An `UPDATE` to rows that may be written. -/
theorem update_spec {p : t.Row → Bool} {f : t.Row → t.Row} (mem : Mem)
    (h : ∀ r, p r = true → P (.put t (f r))) : ∀ w ∈ (updateRows t p f mem db).writes, P w := by
  intro w hw
  obtain ⟨r, hp, rfl⟩ := mem_updateRows hw
  exact h r hp

theorem readAs_spec {β γ : Type} {f : β → Except SqlError γ}
    {o : Outcome Write LockKey Mem SqlError β} (h : ∀ w ∈ o.writes, P w) :
    ∀ w ∈ (readAs f o).writes, P w := fun w hw => h w (readAs_writes w hw)

/-- Every write is one of those allowed. -/
abbrev allowing (P : Write → Prop) : Prog.Rules Env Db Write LockKey Mem SqlError where
  begin := True
  stmt s := ∀ env m d, ∀ w ∈ (s env m d).writes, P w
  pool s := ∀ env m d, ∀ w ∈ (s env m d).writes, P w
  mem _ := True

/-- A program that writes nothing. -/
theorem allowing_idle (lib : Libs) {p : Prog Env Db Write LockKey Mem SqlError ε α}
    (h : p.Obeys (rpcRules lib fun _ => False)) : p.Obeys (allowing P) :=
  h.mono (R := rpcRules lib fun _ => False) id
    (fun _ ⟨_, hs, hnone⟩ env m d w hw => (hnone w.table (hs.table env m d w hw).symm).elim)
    (fun _ ⟨_, hs, hnone⟩ env m d w hw => (hnone w.table (hs.table env m d w hw).symm).elim)
      fun _ => id

theorem allowing_append {lib : Libs} {actor : Option Audit.Actor}
    (h : ∀ r : AuditEvent, r.actorUserId = actor.map Audit.Actor.userId → P (.put .events r))
    (appId : Option String) (eventType : String) (eventData : EventData) :
    (Audit.append lib actor appId eventType eventData).Obeys (allowing P) := by
  unfold Audit.append
  refine obeys_bind (obeys_inTx fun env mem db w hw => absurd hw List.not_mem_nil) fun _ => ?_
  refine obeys_bind (obeys_inTx fun env mem db => ?_) fun seqno => ?_
  · unfold Audit.nextSeqno
    split
    · exact fun w hw => absurd hw List.not_mem_nil
    · exact fun w hw => absurd hw List.not_mem_nil
  refine obeys_bind (obeys_inTx fun env mem db w hw => absurd hw List.not_mem_nil) fun last => ?_
  refine obeys_bind (obeys_critical trivial) fun now => obeys_inTx fun env mem db => ?_
  exact insert_spec (h _ rfl)

end Statements

section Owned

variable {lib : Libs} {u : Uuid} {α β ε : Type}

/-- Every write is a row of the user. -/
abbrev ofUser (u : Uuid) : Prog.Rules Env Db Write LockKey Mem SqlError := allowing (OfUser u)

theorem own_updateProfile (displayName locale : Option String) (env : Env) (mem : Mem) (db : Db) :
    ∀ w ∈ (UserRepository.updateProfile u displayName locale env mem db).writes, OfUser u w :=
  readAs_spec (update_spec mem fun r hr => .user _ (by simpa using hr))

theorem own_updateEmail (newEmail : String) (env : Env) (mem : Mem) (db : Db) :
    ∀ w ∈ (UserRepository.updateEmail lib u newEmail env mem db).writes, OfUser u w := by
  unfold UserRepository.updateEmail
  split
  · exact fun w hw => absurd hw List.not_mem_nil
  · exact readAs_spec (update_spec mem fun r hr => .user _ (by simpa using hr))

theorem own_updatePasswordHash (newPhc : String) (env : Env) (mem : Mem) (db : Db) :
    ∀ w ∈ (Auth.updatePasswordHash u newPhc env mem db).writes, OfUser u w :=
  readAs_spec (update_spec mem fun r hr => .credential _ (by simpa using hr))

theorem own_updateKeys (masterKeyWrapped kdfSalt : Bytes) (kdfParams : String) (env : Env)
    (mem : Mem) (db : Db) :
    ∀ w ∈ (UserKeyRepository.update u masterKeyWrapped kdfSalt kdfParams env mem db).writes,
      OfUser u w :=
  readAs_spec (update_spec mem fun r hr => .keys _ (by simpa using hr))

theorem own_upsertAvatar (avatar : Bytes) (env : Env) (mem : Mem) (db : Db) :
    ∀ w ∈ (UserAvatarRepository.upsert u avatar env mem db).writes, OfUser u w := by
  unfold UserAvatarRepository.upsert
  split
  · next row hfind =>
    intro w hw
    obtain rfl := List.mem_singleton.mp hw
    exact .avatar _ (by simpa using List.find?_some hfind)
  · exact readAs_spec (insert_spec (.avatar _ rfl))

theorem own_revokeOwned (deviceId : Uuid) (env : Env) (mem : Mem) (db : Db) :
    ∀ w ∈ (DeviceRepository.revokeOwned deviceId u env mem db).writes, OfUser u w :=
  readAs_spec (update_spec mem fun r hr => .device _
    (by simp only [Bool.and_eq_true, beq_iff_eq] at hr; exact hr.1.2))

theorem own_createResource {new : NewResource} (hnew : new.ownerUserId = u) (env : Env) (mem : Mem)
    (db : Db) : ∀ w ∈ (ResourceRepository.create new env mem db).writes, OfUser u w := by
  unfold ResourceRepository.create
  split
  · exact fun w hw => absurd hw List.not_mem_nil
  · exact insert_spec (.resource _ hnew)

theorem own_updateOne {id : Uuid} {f : Env → Int → Resource → Resource}
    (hf : ∀ env n r, (f env n r).ownerUserId = r.ownerUserId) (env : Env) (mem : Mem) (db : Db) :
    ∀ w ∈ (ResourceRepository.updateOne id u f env mem db).writes, OfUser u w := by
  unfold ResourceRepository.updateOne
  split
  · exact fun w hw => absurd hw List.not_mem_nil
  · next r hfind =>
    split
    · exact fun w hw => absurd hw List.not_mem_nil
    · intro w hw
      obtain rfl := List.mem_singleton.mp hw
      have howned := List.find?_some hfind
      simp only [ResourceRepository.owned, Bool.and_eq_true, beq_iff_eq] at howned
      exact .resource _ ((hf _ _ _).trans howned.1.2)

/-! ### The shared parts of the handlers -/

theorem own_onPool {s : Statement β} (g : SqlError → ε)
    (h : ∀ env mem db, ∀ w ∈ (s env mem db).writes, OfUser u w) :
    ((onPool s).mapError g : Prog _ _ _ _ _ _ ε β).Obeys (ofUser u) :=
  obeys_mapError g (obeys_onPool h)

theorem own_inTx {s : Statement β} (g : SqlError → ε)
    (h : ∀ env mem db, ∀ w ∈ (s env mem db).writes, OfUser u w) :
    ((inTx s).mapError g : Prog _ _ _ _ _ _ ε β).Obeys (ofUser u) := obeys_mapError g (obeys_inTx h)

theorem own_append (user : User) (eventType : String) (eventData : EventData) :
    (Audit.append lib (some (actorOf user)) none eventType eventData).Obeys (ofUser user.id) :=
  allowing_append (fun r hr => .event r hr) none eventType eventData

theorem own_enrollDevice (user : User) (dev : DeviceEnrollment) :
    (enrollDevice user dev).Obeys (ofUser user.id) := by
  unfold enrollDevice
  refine obeys_bind (own_inTx _ fun env mem db => insert_spec (.machine _ rfl)) fun machine => ?_
  exact obeys_bind (own_inTx _ fun env mem db => insert_spec (.device _ rfl))
    fun device => obeys_ret _

theorem own_begin (g : SqlError → ε) : (beginTx.mapError g).Obeys (ofUser u) :=
  obeys_mapError g (obeys_beginTx trivial)

theorem own_commit (g : SqlError → ε) : (commitTx.mapError g).Obeys (ofUser u) :=
  obeys_mapError g obeys_commitTx

end Owned

/-! ## Every method checks before it writes -/

section Methods

variable {ctx : PlatformContext} {lib : Libs} {call : RpcCall} {known : Fact → Prop} {α β ε : Type}

-- a method is taken apart by its requests; unfolded whole, it takes too long
attribute [local irreducible] Prog.Obeys Prog.Cites

/-- What is left of a method that has checked its caller. -/
theorem cites_own {p : Rpc α} {s : Session} {u : Uuid} (hu : u = s.userId) (hp : p.Obeys (ofUser u))
    (h : known (.session s))
    (hpassword : call.currentPassword.isSome → known (.password s.userId)) :
    p.Cites (evidence lib call) known := by
  subst hu
  refine cites_of_obeys (hp.mono (R := ofUser s.userId) id (fun _ hs env m d w hw => ?_)
    (fun _ hs env m d w hw => ?_) fun _ => id)
  · exact .own s h hpassword w (hs env m d w hw)
  · exact .own s h hpassword w (hs env m d w hw)

/-- `authenticate`: from here on the session is known. -/
theorem cites_authenticate {metadata : Metadata} (hmetadata : call.metadata = metadata)
    {f : User → Rpc α}
    (h : ∀ (s : Session) (user : User) (known' : Fact → Prop), (∀ f, known f → known' f) →
      known' (.session s) → user.id = s.userId → (f user).Cites (evidence lib call) known') :
    (authenticate lib metadata >>= f).Cites (evidence lib call) known := by
  subst hmetadata
  unfold authenticate
  rw [Prog.bind_assoc]
  refine cites_given fun token htoken => ?_
  rw [Prog.bind_assoc]
  refine cites_query _ (fun env m d => ⟨rfl, rfl⟩) fun env m d found hfound => ?_
  cases found with
  | none => exact cites_ret (.error _)
  | some s =>
    have hs : Found lib call (.session s) env d := by
      have hfind := List.find?_some (Except.ok.inj hfound)
      have hmem := List.mem_of_find?_eq_some (Except.ok.inj hfound)
      simp only [Bool.and_eq_true, beq_iff_eq, decide_eq_true_eq, List.any_eq_true] at hfind
      obtain ⟨⟨⟨hhash, hrevoked⟩, hexpires⟩, user, huser, hid, hactive⟩ := hfind
      exact ⟨⟨token, htoken, hhash⟩, hmem, hrevoked, hexpires, user, huser, hid, hactive⟩
    dsimp only
    rw [Prog.bind_assoc]
    refine cites_query _ (fun env m d => ⟨rfl, rfl⟩) fun env' m' d' found' hfound' => ?_
    cases found' with
    | none => exact cites_ret (.error _)
    | some user =>
      have hid : user.id = s.userId := by
        have hfind := List.find?_some (Except.ok.inj hfound')
        simp only [Bool.and_eq_true, beq_iff_eq] at hfind
        exact hfind.1
      dsimp only
      rw [Prog.bind_assoc]
      refine cites_bind (obeys_attempt (obeys_onPool fun env m d => ?_)) fun _ => ?_
      · refine readAs_spec (update_spec m fun r hr => .seen s (Or.inl (Or.inr hs)) _ ?_)
        simp only [Bool.and_eq_true, beq_iff_eq] at hr
        exact hr.1
      · exact h s user _ (fun f hf => Or.inl (Or.inl hf)) (Or.inl (Or.inr hs)) hid

/-- The check of the current password. -/
theorem cites_verify {u : Uuid} {password : String} (hcall : call.currentPassword = some password)
    (g : AuthError → Status) {f : Bool → Rpc α} (hfalse : (f false).Cites (evidence lib call) known)
    (htrue : ∀ known', (∀ f, known f → known' f) → known' (.password u) →
      (f true).Cites (evidence lib call) known') :
    ((Auth.verifyUserPassword lib u password).mapError g >>= f).Cites
      (evidence lib call) known := by
  unfold Auth.verifyUserPassword
  refine cites_pool (fun env m d => ⟨rfl, rfl⟩) (fun e => cites_ret (.error _))
    fun env m d found hfound => ?_
  cases found with
  | none => exact hfalse.mono fun _ => Or.inl
  | some phc =>
    show ((ofExcept (Auth.verifyPassword lib password phc)).mapError g >>= f).Cites _ _
    unfold Auth.verifyPassword
    cases hverify : lib.argon2Verify password phc with
    | none => exact cites_ret (.error _)
    | some accepted =>
      cases accepted with
      | false => exact hfalse.mono fun _ => Or.inl
      | true =>
        refine htrue _ (fun _ => Or.inl) (Or.inr ?_)
        obtain ⟨c, hfind, rfl⟩ := Option.map_eq_some_iff.mp (Except.ok.inj hfound)
        exact ⟨password, hcall, c, List.mem_of_find?_eq_some hfind,
          by simpa using List.find?_some hfind, hverify⟩

/-- A method that asks for a session and nothing else. -/
theorem cites_user {metadata : Metadata} (hmetadata : call.metadata = metadata)
    (hnone : call.currentPassword = none) {f : User → Rpc α}
    (h : ∀ user, (f user).Obeys (ofUser user.id)) :
    (authenticate lib metadata >>= f).Cites (evidence lib call) known := by
  refine cites_authenticate hmetadata fun s user known' _ hs hu => cites_own hu (h user) hs
    fun hsome => ?_
  rw [hnone] at hsome
  exact absurd hsome (by simp)

variable (metadata : Metadata)

theorem cites_registerDevice (device : Option DeviceEnrollment) :
    (registerDevice ctx metadata device).Cites
      (evidence ctx.lib (.registerDevice metadata device)) known := by
  unfold registerDevice
  refine cites_user rfl rfl fun user => ?_
  refine obeys_bind (obeys_ret _) fun dev => obeys_bind (obeys_ret _) fun _ =>
    obeys_bind (own_begin _) fun _ => ?_
  refine obeys_bind (own_enrollDevice user _) fun device => ?_
  refine obeys_bind (obeys_mapError _ (own_append user _ _)) fun _ => ?_
  exact obeys_bind (own_commit _) fun _ => obeys_ret _

theorem cites_revokeDevice (deviceId : String) :
    (revokeDevice ctx metadata deviceId).Cites
      (evidence ctx.lib (.revokeDevice metadata deviceId)) known := by
  unfold revokeDevice
  refine cites_user rfl rfl fun user => ?_
  refine obeys_bind (obeys_ret _) fun id => obeys_bind (own_onPool _ (own_revokeOwned id))
    fun revoked => ?_
  refine obeys_ite ?_ (obeys_ret _)
  unfold auditDeviceRevoked
  refine obeys_bind (obeys_attempt (obeys_bind (obeys_beginTx trivial) fun _ => ?_))
    fun _ => obeys_ret _
  exact obeys_bind (own_append user _ _) fun _ => obeys_commitTx

/-- The row that an `UPDATE` of one user returns. -/
theorem updated_id {u : Uuid} {o : Outcome Write LockKey Mem SqlError (List User)}
    {rows : List User} (ho : o.result = .ok rows) (hrows : ∀ r ∈ rows, r.id = u) {row : User}
    (h : (readAs fetchOne o).result = .ok row) : row.id = u := by
  rcases (readAs_cases fetchOne o).2 with ⟨⟨e, herror⟩, -⟩ | ⟨rows', first, hrows', hfirst, hok, -⟩
  · rw [herror] at h
    exact absurd h (by simp)
  · obtain rfl : first = row := Except.ok.inj (hok.symm.trans h)
    obtain rfl : rows = rows' := Except.ok.inj (ho.symm.trans hrows')
    cases rows with
    | nil => exact absurd hfirst (by simp [fetchOne])
    | cons r rest =>
      obtain rfl : r = first := Except.ok.inj hfirst
      exact hrows r List.mem_cons_self

theorem updateProfile_id {u : Uuid} {displayName locale : Option String} {env : Env} {mem : Mem}
    {db : Db} {row : User}
    (h : (UserRepository.updateProfile u displayName locale env mem db).result = .ok row) :
    row.id = u := by
  refine updated_id rfl (fun r hr => ?_) h
  obtain ⟨x, hx, rfl⟩ := List.mem_map.mp hr
  simpa using (List.mem_filter.mp hx).2

theorem updateEmail_id {u : Uuid} {newEmail : String} {env : Env} {mem : Mem} {db : Db} {row : User}
    (h : (UserRepository.updateEmail lib u newEmail env mem db).result = .ok row) : row.id = u := by
  unfold UserRepository.updateEmail at h
  split at h
  · exact absurd h (by simp [failed])
  · refine updated_id rfl (fun r hr => ?_) h
    obtain ⟨x, hx, rfl⟩ := List.mem_map.mp hr
    simpa using (List.mem_filter.mp hx).2

theorem newResource_owner {owner appId : Uuid} {req : Resources.CreateResourceRequest}
    {new : NewResource} (h : Resources.newResource lib owner appId req = .ok new) :
    new.ownerUserId = owner := by
  unfold Resources.newResource at h
  cases hid : parseUuid lib req.appResourceId "app_resource_id" with
  | error e => simp [hid, bind, Except.bind] at h
  | ok appResourceId =>
    cases hparent : parseOptUuid lib req.parentResourceId "parent_resource_id" with
    | error e => simp [hid, hparent, bind, Except.bind] at h
    | ok parent =>
      simp only [hid, hparent, bind, Except.bind, pure, Except.pure, Except.ok.injEq] at h
      exact h ▸ rfl

/-- The profile of the caller is changed, with its event. -/
theorem cites_profile {s : Session} {user : User} (hu : user.id = s.userId)
    (hs : known (.session s)) (hpassword : call.currentPassword.isSome → known (.password s.userId))
    {statement : Statement User}
    (howned : ∀ env mem db, ∀ w ∈ (statement env mem db).writes, OfUser user.id w)
    (hid : ∀ env mem db row, (statement env mem db).result = .ok row → row.id = user.id)
    (g : SqlError → Status) {f : User → Rpc α} (hf : ∀ row, (f row).Obeys (ofUser row.id))
    (g' : SqlError → Status) :
    (beginTx.mapError g' >>= fun _ => (inTx statement).mapError g >>= f).Cites
      (evidence lib call) known := by
  refine cites_bind (allowing_idle lib (rpc_begin _)) fun _ =>
    cites_statement _ (fun env m d w hw => .own s hs hpassword w (hu ▸ howned env m d w hw))
      fun env m d row hrow => ?_
  exact cites_own ((hid env m d row hrow).trans hu) (hf row) hs hpassword

theorem cites_updateDisplayName (newName : String) :
    (updateDisplayName ctx metadata newName).Cites
      (evidence ctx.lib (.updateDisplayName metadata newName)) known := by
  unfold updateDisplayName
  generalize trim newName = displayName
  refine cites_authenticate rfl fun s user known' _ hs hu => cites_ite (cites_ret _) ?_
  refine cites_profile hu hs (fun hsome => absurd hsome (by simp [RpcCall.currentPassword]))
    (own_updateProfile (some displayName) none) (fun env m d row => updateProfile_id) _
      (fun updated => ?_) _
  refine obeys_bind (obeys_mapError _ (own_append updated _ _)) fun event => ?_
  exact obeys_bind (own_commit _) fun _ => obeys_ret _

theorem cites_updateEmail (req : UpdateEmailRequest) :
    (updateEmail ctx metadata req).Cites (evidence ctx.lib (.updateEmail metadata req)) known := by
  unfold updateEmail
  generalize trim req.newEmail = newEmail
  refine cites_authenticate rfl fun s user known' _ hs hu =>
    cites_verify rfl _ (cites_ret _) fun known'' hmore hpassword =>
      cites_ite (cites_ret _) (cites_ite (cites_ret _) ?_)
  refine cites_profile hu (hmore _ hs) (fun _ => hu ▸ hpassword) (own_updateEmail newEmail)
    (fun env m d row => updateEmail_id) _ (fun updated => ?_) _
  refine obeys_bind (obeys_mapError _ (own_append updated _ _)) fun event => ?_
  exact obeys_bind (own_commit _) fun _ => obeys_ret _

theorem cites_changePassword (req : ChangePasswordRequest) :
    (changePassword ctx metadata req).Cites
      (evidence ctx.lib (.changePassword metadata req)) known := by
  unfold changePassword
  refine cites_authenticate rfl fun s user known' _ hs hu =>
    cites_verify rfl _ (cites_ret _) fun known'' hmore hpassword => cites_own hu ?_ (hmore _ hs)
      fun _ => hu ▸ hpassword
  unfold changePassword.afterCheck
  refine obeys_ite (obeys_ret _) (obeys_ite (obeys_ret _) ?_)
  refine obeys_bind (obeys_mapError _ (allowing_idle ctx.lib (rpc_hashPassword _))) fun phc => ?_
  unfold changePassword.write
  refine obeys_bind (own_begin _) fun _ => obeys_bind (own_inTx _ (own_updatePasswordHash phc))
    fun _ => ?_
  refine obeys_bind (own_inTx _ (own_updateKeys _ _ _)) fun _ => ?_
  exact obeys_bind (obeys_mapError _ (own_append user _ _)) fun event => own_commit _

theorem cites_setAvatar (avatar : Bytes) :
    (setAvatar ctx metadata avatar).Cites (evidence ctx.lib (.setAvatar metadata avatar)) known :=
  cites_user rfl rfl fun _ => obeys_ite (obeys_ret _) (own_onPool _ (own_upsertAvatar avatar))

theorem cites_createResource (req : Resources.CreateResourceRequest) :
    (Resources.createResource lib metadata req).Cites
      (evidence lib (.createResource metadata req)) known := by
  refine cites_user rfl rfl fun user => ?_
  unfold Resources.createResource.as
  generalize (trim req.resourceType).isEmpty = blank
  refine obeys_ite (obeys_ret _) (obeys_bind (obeys_ret _) fun appId => ?_)
  refine obeys_bind (allowing_idle lib (rpc_look _ _)) fun app =>
    obeys_bind (obeys_ret _) fun _ => ?_
  refine obeys_given fun new hnew => ?_
  exact obeys_bind (own_onPool _ (own_createResource (newResource_owner hnew))) fun _ => obeys_ret _

theorem cites_updateResource (req : Resources.UpdateResourceRequest) :
    (Resources.updateResource lib metadata req).Cites
      (evidence lib (.updateResource metadata req)) known := by
  refine cites_user rfl rfl fun user => ?_
  unfold Resources.updateResource.as
  refine obeys_bind (obeys_ret _) fun id => obeys_bind (obeys_ret _) fun parent => ?_
  refine obeys_bind (own_onPool _ (own_updateOne fun _ _ _ => rfl)) fun row => ?_
  cases row with
  | none => exact obeys_ret _
  | some row => exact obeys_ret _

theorem cites_deleteResource (id : String) :
    (Resources.deleteResource lib metadata id).Cites
      (evidence lib (.deleteResource metadata id)) known := by
  refine cites_user rfl rfl fun user => ?_
  unfold Resources.deleteResource.as
  refine obeys_bind (obeys_ret _) fun id => ?_
  refine obeys_bind (own_onPool _ fun env mem db => readAs_spec (own_updateOne ?_ env mem db))
    fun affected => ?_
  · exact fun _ _ _ => rfl
  · exact obeys_ite (obeys_ret _) (obeys_ret _)

theorem cites_getAppRegistration (appIdentifier : String) :
    (Platform.getAppRegistration lib metadata appIdentifier).Cites
      (evidence lib (.getAppRegistration metadata appIdentifier)) known := by
  refine cites_user rfl rfl fun _ => allowing_idle lib (obeys_bind (rpc_look _ _) fun row => ?_)
  cases row with
  | none => exact obeys_ret _
  | some row => exact obeys_ret _

theorem cites_readResource (id : String) :
    (Resources.readResource lib metadata id).Cites
      (evidence lib (.readResource metadata id)) known :=
  cites_user rfl rfl fun user => allowing_idle lib (rpc_readResource user.id id)

theorem cites_listResources (req : Resources.ListResourcesRequest) :
    (Resources.listResources lib metadata req).Cites
      (evidence lib (.listResources metadata req)) known :=
  cites_user rfl rfl fun user => allowing_idle lib (rpc_listResources user.id req)

theorem mem_upsertApp {decl : Registry.AppDeclaration} {registeredBy : Option Uuid} {env : Env}
    {mem : Mem} {db : Db} {w : Write}
    (hw : w ∈ (Registry.upsertApp decl registeredBy env mem db).writes) :
    ∃ r, w = .put .registeredApps r ∧ Declares r decl := by
  unfold Registry.upsertApp at hw
  split at hw
  · next app hfind =>
    have hname : app.appIdentifier = decl.appIdentifier := by simpa using List.find?_some hfind
    exact ⟨_, List.mem_singleton.mp hw, hname, rfl, rfl, rfl, rfl, rfl⟩
  · exact ⟨_, mem_insertRow hw, rfl, rfl, rfl, rfl, rfl, rfl⟩

/-- The publisher of the declaration is trusted, and signed it. -/
theorem cites_registerApp (req : Platform.RegisterAppRequest) :
    (Platform.registerApp lib metadata req).Cites
      (evidence lib (.registerApp metadata req)) known := by
  unfold Platform.registerApp
  generalize ((trim req.appIdentifier).isEmpty || (trim req.displayName).isEmpty ||
      (trim req.publisher).isEmpty) = blank
  refine cites_authenticate rfl fun s user known' _ hs hu => cites_ite (cites_ret _) ?_
  refine cites_query _ (fun env m d => ⟨rfl, rfl⟩) fun env m d found hfound => ?_
  cases found with
  | none => exact cites_ret _
  | some publisher =>
    refine cites_branch (fun _ => cites_ret _) fun hsigned => ?_
    have hdecl : Found lib (.registerApp metadata req) (.publisher req.decl) env d := by
      have hfind := Except.ok.inj hfound
      have hname : publisher.publisher = req.publisher := by simpa using List.find?_some hfind
      exact ⟨metadata, req, rfl, rfl, publisher, List.mem_of_find?_eq_some hfind, hname,
        by simpa using hsigned⟩
    unfold Platform.registerApp.write
    refine cites_bind (allowing_idle lib (rpc_begin _)) fun _ => ?_
    refine cites_statement _ (fun env m d w hw => ?_) fun env m d row hrow => ?_
    · obtain ⟨r, rfl, hr⟩ := mem_upsertApp hw
      exact .declared s (Or.inl hs) req.decl (Or.inr hdecl) r hr
    · refine cites_own hu ?_ (Or.inl hs) fun hsome => absurd hsome
        (by simp [RpcCall.currentPassword])
      refine obeys_bind (obeys_mapError _ (own_append user _ _)) fun event => ?_
      exact obeys_bind (own_commit _) fun _ => obeys_ret _

theorem cites_streamChanges (req : Resources.StreamChangesRequest) :
    (Resources.streamChanges lib metadata req).Cites
      (evidence lib (.streamChanges metadata req)) known :=
  cites_user rfl rfl fun _ => allowing_idle lib (obeys_bind (obeys_ret _) fun _ =>
    obeys_bind (rpc_look _ _) fun _ => obeys_ret _)

/-! ### Without a session -/

theorem known_login {req : LoginRequest} {env : Env} {m : Mem} {d : Db} {user : User} {phc : String}
    (hfound : (Auth.userWithCredentials lib req.email env m d).result = .ok (some (user, phc)))
    (hverify : lib.argon2Verify req.password phc = some true) :
    Found lib (.login metadata req) (.login user) env d := by
  obtain ⟨u, hfind, hrest⟩ := Option.bind_eq_some_iff.mp (Except.ok.inj hfound)
  obtain ⟨c, hcredential, hpair⟩ := Option.map_eq_some_iff.mp hrest
  obtain ⟨rfl, rfl⟩ := Prod.mk.inj hpair
  have hu := List.find?_some hfind
  simp only [Bool.and_eq_true, beq_iff_eq] at hu
  have hc : c.userId = u.id := by simpa using List.find?_some hcredential
  exact ⟨metadata, req, rfl, List.mem_of_find?_eq_some hfind, hu.1.2, hu.1.1, c,
    List.mem_of_find?_eq_some hcredential, hc, hverify⟩

/-- The verification of the credentials, whatever is done with its outcome. -/
theorem cites_verifyCredentials {req : LoginRequest}
    {k : Except AuthError (Except Auth.CredentialOutcome User) → Rpc α}
    (herror : ∀ e, (k (.error e)).Cites (evidence lib (.login metadata req)) known)
    (hrefused : ∀ outcome, (k (.ok (.error outcome))).Cites
      (evidence lib (.login metadata req)) known)
    (hok : ∀ user known', known' (.login user) →
      (k (.ok (.ok user))).Cites (evidence lib (.login metadata req)) known') :
    ((Auth.verifyCredentials lib req.email req.password).attempt >>= k).Cites
      (evidence lib (.login metadata req)) known := by
  refine cites_pool (fun env m d => ⟨rfl, rfl⟩) (fun e => herror _) fun env m d found hfound => ?_
  cases found with
  | none => exact (hrefused _).mono fun _ => Or.inl
  | some found =>
    obtain ⟨user, phc⟩ := found
    show ((Prog.ofExcept (Auth.verifyPassword lib req.password phc) >>= fun passwordOk =>
      if passwordOk then pure (.ok user) else pure (.error .wrongPassword)).attempt >>= k).Cites _ _
    unfold Auth.verifyPassword
    cases hverify : lib.argon2Verify req.password phc with
    | none => exact (herror _).mono fun _ => Or.inl
    | some accepted =>
      cases accepted with
      | false => exact (hrefused _).mono fun _ => Or.inl
      | true => exact hok user _ (Or.inr (known_login metadata hfound hverify))

theorem known_singleFactor (lib : Libs) (call : RpcCall) {u : Uuid} {env : Env} {m : Mem} {d : Db}
    (hfound : (Auth.hasSecondFactor u env m d).result = .ok false) :
    Found lib call (.singleFactor u) env d := by
  have hnone := of_decide_eq_false (Except.ok.inj hfound)
  simp only [Nat.not_lt, Nat.le_zero, Nat.add_eq_zero_iff, List.length_eq_zero_iff,
    List.filter_eq_nil_iff, Bool.and_eq_true, beq_iff_eq, not_and, Option.isSome_iff_ne_none, ne_eq,
    not_not] at hnone
  exact hnone

theorem cites_newSession {user : User} (h : known (.login user))
    (hsingle : known (.singleFactor user.id)) :
    (newSession ctx user.id).Cites (evidence ctx.lib call) known := by
  unfold newSession
  refine cites_bind (allowing_idle ctx.lib (rpc_begin _)) fun _ => ?_
  refine cites_bind (obeys_mapError _ ?_) fun session => ?_
  · unfold SessionRepository.create
    refine obeys_bind (allowing_idle ctx.lib (rpc_critical _)) fun token => ?_
    refine obeys_bind (allowing_idle ctx.lib (rpc_critical _)) fun now => ?_
    refine obeys_bind (obeys_inTx fun env m d => ?_) fun _ => obeys_ret _
    exact insert_spec (.signedIn user h hsingle _ rfl)
  · exact cites_of_obeys (allowing_idle ctx.lib (obeys_bind (rpc_commit _) fun _ => obeys_ret _))

theorem cites_login (req : LoginRequest) :
    (login ctx metadata req).Cites (evidence ctx.lib (.login metadata req)) known := by
  unfold login
  generalize (trim req.email).isEmpty = blank
  refine cites_bind (allowing_idle ctx.lib (rpc_critical _)) fun allowed => ?_
  refine cites_ite (cites_ret _) (cites_ite (cites_ret _) ?_)
  refine cites_verifyCredentials metadata (fun e => ?_) (fun outcome => ?_)
    fun user known' hlogin => ?_
  · exact cites_ret _
  · exact cites_of_obeys (allowing_idle ctx.lib (obeys_bind (rpc_critical _) fun _ => obeys_ret _))
  · refine cites_query _ (fun env m d => ⟨rfl, rfl⟩) fun env m d mfa hmfa => ?_
    cases mfa with
    | true => exact cites_ret _
    | false =>
      have hsingle := known_singleFactor ctx.lib (.login metadata req) hmfa
      exact cites_followed (cites_newSession (Or.inl hlogin) (Or.inr hsingle)) fun _ => obeys_ret _

theorem rests_founded {p : Rpc α} (h : known .vacant)
    (hp : p.Obeys (rpcRules lib (· ∈ call.tables))) : p.Obeys (resting (evidence lib call) known) :=
  hp.mono (R := rpcRules lib (· ∈ call.tables)) id
    (fun _ ⟨_, hs, hmay⟩ env m d w hw => .founded h w (hmay w.table (hs.table env m d w hw).symm))
    (fun _ ⟨_, hs, hmay⟩ env m d w hw => .founded h w (hmay w.table (hs.table env m d w hw).symm))
      fun _ => id

/-- A bootstrap writes when it found nobody. -/
theorem cites_bootstrap (req : BootstrapRequest) :
    (bootstrap ctx metadata req).Cites (evidence ctx.lib (.bootstrap metadata req)) known := by
  unfold bootstrap
  refine cites_bind (allowing_idle ctx.lib (rpc_critical _)) fun allowed =>
    cites_ite (cites_ret _) ?_
  refine cites_given fun checked _ => cites_query _ (fun env m d => ⟨rfl, rfl⟩)
    fun env m d count hcount => ?_
  refine cites_branch
    (fun _ => cites_of_obeys
      (allowing_idle ctx.lib (obeys_bind (rpc_critical _) fun _ => obeys_ret _)))
    fun hnone => ?_
  have hnobody : Found ctx.lib (.bootstrap metadata req) .vacant env d := by
    obtain rfl := Except.ok.inj hcount
    exact ⟨⟨metadata, req, rfl⟩, by simpa using hnone⟩
  refine cites_of_obeys (rests_founded (Or.inr hnobody) ?_)
  exact rpc_afterGate metadata _ _ _ _ _ req

/-! ### Machines -/

/-- A registration writes the machine that it answers with, under its key. -/
theorem registerOrUpdate_spec {key : Bytes} {platform label : String} {env : Env} {mem : Mem}
    {db : Db} :
    (∀ w ∈ (MachineRepository.registerOrUpdate key platform label env mem db).writes,
      ∃ m : Machine, w = .put .machines m ∧ m.machineIdentityPublic = some key) ∧
    ∀ id, (MachineRepository.registerOrUpdate key platform label env mem db).result = .ok id →
      ∃ m : Machine, .put .machines m ∈
        (MachineRepository.registerOrUpdate key platform label env mem db).writes ∧
        m.machineIdentityPublic = some key ∧ m.id = id := by
  unfold MachineRepository.registerOrUpdate
  split
  · next machine hfind =>
    have hkey : machine.machineIdentityPublic = some key := by simpa using List.find?_some hfind
    refine ⟨fun w hw => ⟨_, List.mem_singleton.mp hw, hkey⟩, fun id hid => ?_⟩
    exact ⟨_, List.mem_singleton_self _, hkey, Except.ok.inj hid⟩
  · refine ⟨fun w hw => ⟨_, mem_insertRow (readAs_writes w hw), rfl⟩, fun id hid => ?_⟩
    generalize hrow : Machine.mk _ _ _ _ _ _ _ = row at hid ⊢
    rcases insertRow_cases .machines row false [] [.machineIdentity key] mem db with
      ⟨e, h⟩ | ⟨h, -⟩
    · rw [h] at hid
      exact absurd hid (by simp [readAs, failed, Except.bind])
    · rw [h] at hid ⊢
      refine ⟨row, List.mem_singleton_self _, ?_, Except.ok.inj hid⟩
      rw [← hrow]

/-- The writes of a registration whose key was proved: the session is for the machine that was
    registered under it. -/
theorem cites_registration {req : MachineService.RegisterMachineRequest}
    (h : known (.possession req.machineIdentityPublic)) :
    (MachineService.registerMachine.write ctx req).Cites (evidence ctx.lib call) known := by
  unfold MachineService.registerMachine.write
  refine cites_bind (allowing_idle ctx.lib (rpc_begin _)) fun _ => ?_
  refine CitesOn.cites (citesOn_statement _ (fun env m d w hw => ?_)
    fun env m d machineId hid => ?_)
  · obtain ⟨machine, rfl, hkey⟩ := registerOrUpdate_spec.1 w hw
    exact .possessed _ h _ (.machine machine hkey)
  obtain ⟨machine, hmachine, hkey, rfl⟩ := registerOrUpdate_spec.2 machineId hid
  unfold MachineSessionRepository.create
  rw [mapError_bind, Prog.bind_assoc]
  refine citesOn_ask _ fun token => ?_
  rw [mapError_bind, Prog.bind_assoc]
  refine citesOn_ask _ fun now => ?_
  rw [mapError_bind, Prog.bind_assoc]
  refine citesOn_statement _ (fun env m d => ?_) fun env m d session _ => Cites.on ?_
  · exact insert_spec (.possessed _ h _ (.session _ machine (Or.inr hmachine) hkey rfl))
  refine cites_of_obeys (obeys_bind (obeys_ret _) fun session => ?_)
  refine obeys_bind (obeys_mapError _ ?_) fun event =>
    allowing_idle ctx.lib (obeys_bind (rpc_commit _) fun _ => obeys_ret _)
  exact allowing_append (fun r hr => .possessed _ h _ (.event r hr)) _ _ _

theorem cites_registerMachine (req : MachineService.RegisterMachineRequest) :
    (MachineService.registerMachine ctx metadata req).Cites
      (evidence ctx.lib (.registerMachine metadata req))
      (Given ctx.lib (.registerMachine metadata req)) := by
  unfold MachineService.registerMachine
  generalize ((trim req.platform).isEmpty || (trim req.label).isEmpty) = blank
  refine cites_bind (allowing_idle ctx.lib (rpc_critical _)) fun allowed => ?_
  refine cites_ite (cites_ret _) (cites_ite (cites_ret _) ?_)
  refine cites_branch
    (fun _ => cites_of_obeys
      (allowing_idle ctx.lib (obeys_bind (rpc_critical _) fun _ => obeys_ret _)))
    fun hproved => ?_
  have hpossession : Given ctx.lib (.registerMachine metadata req)
      (.possession req.machineIdentityPublic) :=
    ⟨metadata, req, rfl, rfl, by simpa using hproved⟩
  exact cites_registration hpossession

theorem cites_authenticateMachine (hmetadata : call.metadata = metadata) {f : Uuid → Rpc α}
    (h : ∀ (s : MachineSession) (known' : Fact → Prop), known' (.machine s) →
      (f s.machineId).Cites (evidence ctx.lib call) known') :
    (MachineService.authenticateMachine ctx metadata >>= f).Cites
      (evidence ctx.lib call) known := by
  subst hmetadata
  unfold MachineService.authenticateMachine
  rw [Prog.bind_assoc]
  refine cites_given fun token htoken => ?_
  rw [Prog.bind_assoc]
  refine cites_query _ (fun env m d => ⟨rfl, rfl⟩) fun env m d found hfound => ?_
  cases found with
  | none => exact cites_ret (.error _)
  | some s =>
    refine h s _ (Or.inr ?_)
    have hfind := List.find?_some (Except.ok.inj hfound)
    have hmem := List.mem_of_find?_eq_some (Except.ok.inj hfound)
    simp only [Bool.and_eq_true, beq_iff_eq, decide_eq_true_eq] at hfind
    exact ⟨⟨token, htoken, hfind.1.1⟩, hmem, hfind.1.2, hfind.2⟩

theorem cites_checkIn : (MachineService.checkIn ctx metadata).Cites
    (evidence ctx.lib (.checkIn metadata)) known := by
  refine cites_authenticateMachine metadata rfl fun s known' hs =>
    cites_of_obeys (obeys_mapError _ (obeys_onPool ?_))
  refine fun env m d => readAs_spec (update_spec m fun r hr => .machine s hs _ (.machine _ ?_))
  simpa using hr

theorem rests_insertTelemetry {s : MachineSession} (hs : known (.machine s))
    (blobs : List NewTelemetry) :
    (MachineTelemetryRepository.insert s.machineId blobs).Obeys
      (resting (evidence lib call) known) := by
  induction blobs with
  | nil => exact obeys_ret _
  | cons blob blobs ih =>
    refine obeys_bind (obeys_onPool fun env m d => ?_) fun _ => ih
    unfold MachineTelemetryRepository.insertBlob
    split
    · exact fun w hw => absurd hw List.not_mem_nil
    · exact readAs_spec (insert_spec (.machine s hs _ (.telemetry _ rfl)))

theorem cites_reportTelemetry (blobs : List MachineService.TelemetryBlob) :
    (MachineService.reportTelemetry ctx metadata blobs).Cites
      (evidence ctx.lib (.reportTelemetry metadata blobs)) known := by
  refine cites_authenticateMachine metadata rfl fun s known' hs => cites_ite (cites_ret _) ?_
  exact cites_of_obeys (obeys_mapError _ (rests_insertTelemetry hs _))

/-- **Every method checks before it writes.** -/
theorem cites_call (ctx : PlatformContext) (call : RpcCall) :
    (call.program ctx).Cites (evidence ctx.lib call) (Given ctx.lib call) := by
  cases call with
  | bootstrap metadata req =>
    exact cites_followed (cites_bootstrap metadata req) fun _ => obeys_ret _
  | login metadata req => exact cites_followed (cites_login metadata req) fun _ => obeys_ret _
  | registerDevice metadata device =>
    exact cites_followed (cites_registerDevice metadata device) fun _ => obeys_ret _
  | revokeDevice metadata deviceId => exact cites_revokeDevice metadata deviceId
  | updateDisplayName metadata newName =>
    exact cites_followed (cites_updateDisplayName metadata newName) fun _ => obeys_ret _
  | updateEmail metadata req =>
    exact cites_followed (cites_updateEmail metadata req) fun _ => obeys_ret _
  | changePassword metadata req => exact cites_changePassword metadata req
  | setAvatar metadata avatar => exact cites_setAvatar metadata avatar
  | registerMachine metadata req =>
    exact cites_followed (cites_registerMachine metadata req) fun _ => obeys_ret _
  | checkIn metadata => exact cites_checkIn metadata
  | reportTelemetry metadata blobs => exact cites_reportTelemetry metadata blobs
  | registerApp metadata req =>
    exact cites_followed (cites_registerApp metadata req) fun _ => obeys_ret _
  | getAppRegistration metadata appIdentifier =>
    exact cites_followed (cites_getAppRegistration metadata appIdentifier) fun _ => obeys_ret _
  | createResource metadata req =>
    exact cites_followed (cites_createResource metadata req) fun _ => obeys_ret _
  | readResource metadata id =>
    exact cites_followed (cites_readResource metadata id) fun _ => obeys_ret _
  | updateResource metadata req =>
    exact cites_followed (cites_updateResource metadata req) fun _ => obeys_ret _
  | deleteResource metadata id => exact cites_deleteResource metadata id
  | listResources metadata req =>
    exact cites_followed (cites_listResources metadata req) fun _ => obeys_ret _
  | streamChanges metadata req =>
    exact cites_followed (cites_streamChanges metadata req) fun _ => obeys_ret _

end Methods

section Runs

variable {ctx : PlatformContext} {Pid : Type} [DecidableEq Pid] [Fintype Pid]
  {C : List (World.Event Pid Env Db Write LockKey Mem SqlError Status Unit) →
    World.Event Pid Env Db Write LockKey Mem SqlError Status Unit → Prop}
  {w₀ w : Server Pid Unit}
  {later earlier : List (World.Event Pid Env Db Write LockKey Mem SqlError Status Unit)}
  {e : World.Event Pid Env Db Write LockKey Mem SqlError Status Unit}

/-- What a request proved by itself, or found at a step of the run. -/
abbrev Known (ctx : PlatformContext) (calls : Pid → RpcCall) :
    List (World.Event Pid Env Db Write LockKey Mem SqlError Status Unit) → Pid → Fact → Prop :=
  Learnt (fun i => Given ctx.lib (calls i)) fun i => evidence ctx.lib (calls i)

/-- **Every write is warranted**: each row that a run commits is one that its request may write on
    the strength of a check that the request made earlier in the run. -/
theorem writes_warranted {calls : Pid → RpcCall} (hidle : ∀ i, (w₀.procs i).tx = none)
    (hprograms : ∀ i, (w₀.procs i).prog = (calls i).program ctx)
    (ht : World.Trace C w₀ (later ++ e :: earlier) w) {x : Write}
    (hx : x ∈ (e.before.procs e.pid).committed e.choice) :
    Warrant (calls e.pid) ⟨Known ctx calls earlier e.pid,
      fun y => y ∈ (e.before.procs e.pid).committed e.choice⟩ x := by
  have hrested : Rested (fun i => Given ctx.lib (calls i)) (fun i => evidence ctx.lib (calls i))
      (later ++ e :: earlier) w := by
    refine Rested.trace hidle (fun i => ?_) ht
    rw [hprograms i]
    exact cites_call ctx (calls i)
  exact hrested.commits later e earlier rfl x hx

end Runs

/-! ### Ann's password is changed while she changes her email -/

def moving (i : Bool) : RpcCall :=
  if i then .changePassword Sample.asAnn
    { currentPassword := "correct horse"
      newPassword := "battery staple"
      newMasterKeyWrapped := [1]
      newKdfSalt := [2]
      newKdfParams := "m=1" }
  else .updateEmail Sample.asAnn
    { newEmail := "ann@example.net", currentPassword := "correct horse" }

def newAddress : Server Bool Unit where
  procs i := ⟨(moving i).program Sample.context, none⟩
  sh := ⟨Sample.db, Mem.fresh⟩

/-- The email waits for its transaction; the password, which it was checked against, is a new one by
    now. -/
def moved : Server Bool Unit :=
  newAddress.reach (Sample.steps false 7 5 ++ Sample.steps true 8 14 ++
    Sample.steps false 7 6)

theorem writes_warranted_ann : ∃ earlier, World.Trace World.anyEvent newAddress earlier moved ∧
    moved.sh.db.credentials ≠ newAddress.sh.db.credentials ∧
      ∃ x ∈ (moved.procs false).committed (Sample.calm 7), x.table = .users ∧
        Warrant (moving false) ⟨Known Sample.context moving earlier false,
          fun y => y ∈ (moved.procs false).committed (Sample.calm 7)⟩ x := by
  obtain ⟨earlier, -, ht⟩ : ∃ es, [] <:+ es ∧ World.Trace World.anyEvent newAddress es moved :=
    World.trace_reach (fun _ _ _ _ _ => trivial) .start (by decide +kernel)
  have hchanged : moved.sh.db.credentials.map Credential.passwordHash ≠
      newAddress.sh.db.credentials.map Credential.passwordHash := by decide +kernel
  have hwritten : ((moved.procs false).committed (Sample.calm 7)).any
      (fun x => decide (x.table = .users)) = true := by
    decide +kernel
  obtain ⟨x, hx, htable⟩ := List.any_eq_true.mp hwritten
  have hcommit := ht.step false (Sample.calm 7) (World.step_reach (by decide +kernel)) trivial
  refine ⟨earlier, ht, fun h => hchanged (congrArg (List.map Credential.passwordHash) h), x, hx,
    of_decide_eq_true htable, ?_⟩
  have hlast : World.Trace World.anyEvent newAddress
      ([] ++ ⟨moved, false, Sample.calm 7, _⟩ :: earlier) _ := hcommit
  exact writes_warranted (fun _ => rfl) (fun _ => rfl) hlast hx

end Warrants

end SylvaServer
