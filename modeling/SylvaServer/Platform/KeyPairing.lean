/-
  The verifier of a password and the keys wrapped under it.

  The hash of a user's password and the master key wrapped under it are rows of two tables.
  Bootstrap inserts both; ChangePassword updates both, by two statements whose row counts nobody
  looks at. If the two ever came from different requests, the user could sign in and open nothing.

  Proved: what a request has written in the two tables when it commits (`safe_call`), stage by
  stage along its transaction, and that in every run of the methods the two rows of a user were
  written by one commit of one request, with the key pairs of the Bootstrap (`rows_paired`).
-/
import SylvaServer.Platform.RowHistory
import SylvaServer.ReadCommitted.Composition

namespace SylvaServer.KeyPairing

open ReadCommitted ReadCommitted.Prog Account

variable {lib : Libs} {ctx : PlatformContext} {call : RpcCall} {db : Db} {u : Uuid} {c : Credential}
  {k : UserKeys} {ws ws' : List Write}

/-- The user has a verifier. -/
def Has (db : Db) (u : Uuid) : Prop := (db.get .credentials (.uuid u)).isSome

/-- Whoever has a verifier has keys, and the other way round. -/
structure Paired (db : Db) : Prop where
  credentials : Keyed (Table.key .credentials) (db.rows .credentials)
  userKeys : Keyed (Table.key .userKeys) (db.rows .userKeys)
  both : ∀ u, (db.get .userKeys (.uuid u)).isSome ↔ Has db u

/-- The hash is one of the password. -/
def Hashes (lib : Libs) (password phc : String) : Prop :=
  ∃ salt, lib.argon2Hash password salt = some phc

/-- The two rows are what a request asks for. -/
inductive Sets (lib : Libs) : RpcCall → Credential → UserKeys → Prop
  | bootstrap (metadata : Metadata) (req : BootstrapRequest) (c : Credential) (k : UserKeys)
      (hash : Hashes lib req.password c.passwordHash) (keys : req.keyMaterial = some k.km) :
      Sets lib (.bootstrap metadata req) c k
  | changePassword (metadata : Metadata) (req : ChangePasswordRequest)
      (c : Credential) (k : UserKeys) (hash : Hashes lib req.newPassword c.passwordHash)
      (keys : k.km = { k.km with
        masterKeyWrapped := req.newMasterKeyWrapped
        kdfSalt := req.newKdfSalt
        kdfParams := req.newKdfParams }) : Sets lib (.changePassword metadata req) c k

/-- The writes put the two rows of a user, each once. A password is changed only for a user who is
    there. -/
structure Installs (lib : Libs) (call : RpcCall) (c : Credential) (k : UserKeys) (db : Db)
    (ws : List Write) : Prop where
  credential : ws.filter (fun w => decide (w.table = .credentials)) = [.put .credentials c]
  keys : ws.filter (fun w => decide (w.table = .userKeys)) = [.put .userKeys k]
  user : k.userId = c.userId
  request : Sets lib call c k
  known : Has db c.userId ∨ ∃ metadata req, call = .bootstrap metadata req

/-- Neither table is written. -/
def Quiet (ws : List Write) : Prop := ∀ w ∈ ws, w.table ≠ .credentials ∧ w.table ≠ .userKeys

/-- Between the two statements: the verifier is written, the keys are not. -/
structure Half (lib : Libs) (u : Uuid) (password : String) (c : Credential)
    (ws : List Write) : Prop where
  credential : ws.filter (fun w => decide (w.table = .credentials)) = [.put .credentials c]
  keys : ws.filter (fun w => decide (w.table = .userKeys)) = []
  user : c.userId = u
  hash : Hashes lib password c.passwordHash

/-! ## Writes and rows -/

theorem quiet_nil : Quiet [] := fun _ hw => absurd hw List.not_mem_nil

theorem quiet_append (h : Quiet ws) (h' : Quiet ws') : Quiet (ws ++ ws') := by
  intro w hw
  rcases List.mem_append.mp hw with hw | hw
  · exact h w hw
  · exact h' w hw

theorem filter_nil {t : Table} (h : ∀ w ∈ ws, w.table ≠ t) :
    ws.filter (fun w => decide (w.table = t)) = [] :=
  List.filter_eq_nil_iff.mpr fun w hw => mt of_decide_eq_true (h w hw)

theorem key_beq (v u : Uuid) : (Key.uuid v == Key.uuid u) = (v == u) := by
  rw [Bool.eq_iff_iff]
  simp

theorem get_credentials (db : Db) (u : Uuid) :
    db.get .credentials (.uuid u) = db.credentials.find? (·.userId == u) := by
  unfold Db.get
  congr 1
  funext c
  exact key_beq c.userId u

/-- The only write of a table sets its row. -/
theorem get_one {t : Table} {row : t.Row}
    (h : ws.filter (fun w => decide (w.table = t)) = [.put t row]) (key : Key) :
    (applyAll db ws).get t key = if t.key row = key then some row else db.get t key := by
  have hrows : (applyAll db ws).rows t = (db.put t row).rows t := by
    rw [applyAll_rows_filter, h]
    rfl
  rw [← get_put]
  unfold Db.get
  rw [hrows]

theorem Installs.append (h : Installs lib call c k db ws) (h' : Quiet ws') :
    Installs lib call c k db (ws ++ ws') where
  credential := by
    rw [List.filter_append, h.credential, filter_nil fun w hw => (h' w hw).1, List.append_nil]
  keys := by rw [List.filter_append, h.keys, filter_nil fun w hw => (h' w hw).2, List.append_nil]
  user := h.user
  request := h.request
  known := h.known

theorem Installs.mono {db' : Db} (h : Installs lib call c k db ws)
    (hhas : ∀ u, Has db u → Has db' u) :
    Installs lib call c k db' ws := { h with known := h.known.imp_left (hhas _) }

theorem Installs.credentials_after (h : Installs lib call c k db ws) (u : Uuid) :
    (applyAll db ws).get .credentials (.uuid u) = if c.userId = u then some c
      else db.get .credentials (.uuid u) := by
  rw [get_one h.credential]
  simp only [Table.key, Key.uuid.injEq]

theorem Installs.keys_after (h : Installs lib call c k db ws) (u : Uuid) :
    (applyAll db ws).get .userKeys (.uuid u) = if c.userId = u then some k
      else db.get .userKeys (.uuid u) := by
  rw [get_one h.keys]
  simp only [Table.key, Key.uuid.injEq, h.user]

theorem Installs.has_after (h : Installs lib call c k db ws) (u : Uuid) (hhas : Has db u) :
    Has (applyAll db ws) u := by
  unfold Has at *
  rw [h.credentials_after u]
  split
  · rfl
  · exact hhas

theorem Installs.paired (h : Installs lib call c k db ws) (hdb : Paired db) :
    Paired (applyAll db ws) where
  credentials :=
    have hsound : (Table.view .credentials).sound db := hdb.credentials
    View.sound_applyAll hsound ws
  userKeys :=
    have hsound : (Table.view .userKeys).sound db := hdb.userKeys
    View.sound_applyAll hsound ws
  both u := by
    unfold Has
    rw [h.credentials_after u, h.keys_after u]
    split
    · simp
    · exact hdb.both u

/-! ## The contract of a request -/

/-- Verifiers and keys are as they were. -/
def Same (db db' : Db) : Prop :=
  db'.rows .credentials = db.rows .credentials ∧ db'.rows .userKeys = db.rows .userKeys

theorem Same.has {db' : Db} (h : Same db db') (u : Uuid) : Has db' u ↔ Has db u := by
  unfold Has Db.get
  rw [h.1]

theorem Same.paired {db' : Db} (h : Same db db') (hdb : Paired db) : Paired db' where
  credentials := h.1 ▸ hdb.credentials
  userKeys := h.2 ▸ hdb.userKeys
  both u := by
    rw [h.has u, ← hdb.both u]
    unfold Db.get
    rw [h.2]

theorem Quiet.same (h : Quiet ws) : Same db (applyAll db ws) :=
  ⟨applyAll_rows_of_ne _ _ fun w hw => (h w hw).1, applyAll_rows_of_ne _ _ fun w hw => (h w hw).2⟩

/-- The transaction may be committed. -/
def Settled (lib : Libs) (call : RpcCall) (ws : List Write) (_ : List LockKey)
    (sh : Shared) : Prop :=
  Quiet ws ∨ ∃ c k, Installs lib call c k sh.db ws

/-- A request changes the two tables only by a commit that puts both rows. Users keep their
    verifiers. -/
def contract (lib : Libs) (call : RpcCall) :
    Contract Env Db Write LockKey Mem SqlError Status Unit where
  inv sh := Paired sh.db
  rely _ sh sh' := ∀ u, Has sh.db u → Has sh'.db u
  guar p sh _ sh' := Same sh.db sh'.db ∨
    (sh'.db = applyAll sh.db p.writes ∧ ∃ c k, Installs lib call c k sh.db p.writes)
  done _ _ := True

/-- Statements about other tables. -/
abbrev elsewhere : Prog.Rules Env Db Write LockKey Mem SqlError where
  begin := True
  stmt s := ∀ env m db, Quiet (s env m db).writes
  pool s := ∀ env m db, Quiet (s env m db).writes
  mem _ := True

theorem stages (lib : Libs) (call : RpcCall) : Stages (contract lib call) :=
  ⟨fun _ _ _ _ _ => Or.inl ⟨rfl, rfl⟩⟩

theorem settled_nil (ls : List LockKey) (sh : Shared) : Settled lib call [] ls sh :=
  Or.inl quiet_nil

/-- **Requests elsewhere keep the contract.** -/
theorem local_settled (lib : Libs) (call : RpcCall) :
    Local (contract lib call) elsewhere (Settled lib call) where
  stable p sh sh₁ hsettled _ hrely := hsettled.imp_right fun ⟨c, k, h⟩ => ⟨c, k, h.mono hrely⟩
  done _ _ _ := trivial
  step ch p p' sh sh' hfirst hsettled hinv hs := by
    rcases Proc.committed_cases hs with ⟨-, hsame⟩ | ⟨-, hws, -, rfl, -⟩
    · refine ⟨Or.inl ⟨by rw [hsame], by rw [hsame]⟩, ?_⟩
      have hkept : ∀ {ws}, (Quiet ws ∨ ∃ c k, Installs lib call c k sh.db ws) →
          Settled lib call ws p'.locks sh' := by
        intro ws h
        unfold Settled
        rw [hsame]
        exact h
      rcases Proc.writes_cases hs with ⟨hws, -⟩ | ⟨hws, -⟩ | ⟨β, s, k, hprog, hws, -⟩
      · rw [hws]
        exact hkept hsettled
      · rw [hws]
        exact settled_nil _ _
      · rw [hws]
        have hquiet : Quiet (s ch.env sh.mem (applyAll sh.db p.writes)).writes := by
          rcases hprog with hprog | hprog
          · rw [hprog] at hfirst
            exact hfirst _ _ _
          · rw [hprog] at hfirst
            exact hfirst _ _ _
        refine hkept (hsettled.imp (fun h => quiet_append h hquiet) fun ⟨c, k, h⟩ =>
          ⟨c, k, h.append hquiet⟩)
    · rw [hws]
      refine ⟨?_, settled_nil _ _⟩
      rcases hsettled with hquiet | hinstalls
      · exact Or.inl hquiet.same
      · exact Or.inr ⟨rfl, hinstalls⟩

/-! ## The two handlers -/

/-- The tables of other requests. -/
def Aside (t : Table) : Prop := t ≠ .credentials ∧ t ≠ .userKeys

theorem obeys_elsewhere {α ε : Type} {p : Prog Env Db Write LockKey Mem SqlError ε α}
    {may : Table → Prop} (hmay : ∀ t, may t → Aside t) (h : p.Obeys (rpcRules lib may)) :
    p.Obeys elsewhere :=
  Prog.Obeys.mono (R := rpcRules lib may) id
    (fun _ ⟨_, hs, hwritten⟩ env m db w hw => hmay _
      (hwritten w.table (hs.table env m db w hw).symm))
    (fun _ ⟨_, hs, hwritten⟩ env m db w hw => hmay _
      (hwritten w.table (hs.table env m db w hw).symm))
    (fun _ => id) h

/-- Nothing is written yet, and the user has a verifier. -/
def Checked (u : Uuid) (ws : List Write) (_ : List LockKey) (sh : Shared) : Prop :=
  ws = [] ∧ Has sh.db u

theorem settled_of_checked (ws : List Write) (ls : List LockKey) (sh : Shared)
    (h : Checked u ws ls sh) : Settled lib call ws ls sh := by
  rw [h.1]
  exact settled_nil _ _

theorem stable_settled : (contract lib call).Stable (Settled lib call) :=
  (local_settled lib call).stable

theorem stable_checked : (contract lib call).Stable (Checked u) :=
  fun _ _ _ h _ hrely => ⟨h.1, hrely u h.2⟩

theorem part_elsewhere {α ε : Type} {p : Prog Env Db Write LockKey Mem SqlError ε α}
    {may : Table → Prop} (hmay : ∀ t, may t → Aside t) (h : p.Obeys (rpcRules lib may)) :
    Part (contract lib call) (Settled lib call) p :=
  (local_settled lib call).part_of_obeys (obeys_elsewhere hmay h)

/-- A user whose password is verified has a verifier. -/
theorem leads_verify (user : User) (password : String) (g : AuthError → Status) :
    Leads (contract lib call) (Settled lib call)
      (fun r ws _ sh => ws = [] ∧ (r = .ok true → Has sh.db user.id))
      ((Auth.verifyUserPassword lib user.id password).mapError g) := by
  unfold Auth.verifyUserPassword
  refine leads_mapError g
    (leads_bind (Q := fun r ws _ sh => ws = [] ∧ ∀ phc, r = .ok (some phc) → Has sh.db user.id)
    (leads_mapError _ ?_) (fun found => ?_) fun e ws ls sh h => ⟨h.1, by simp [Except.mapError]⟩)
  · refine (stages lib call).leads_query stable_settled (fun _ _ _ => ⟨rfl, rfl⟩)
      (fun env sh _ _ => ?_) fun e sh _ _ => ⟨rfl, by simp [Except.mapError]⟩
    refine ⟨rfl, fun phc hphc => ?_⟩
    have hfound := congrArg Option.isSome (Except.ok.inj hphc)
    rw [Option.isSome_map, ← get_credentials] at hfound
    exact hfound
  · cases found with
    | none => exact leads_ret fun ws ls sh h => ⟨h.1, by simp [Except.mapError]⟩
    | some phc => exact leads_ret fun ws ls sh h => ⟨h.1, fun _ => h.2 phc rfl⟩

/-- The hash is one of the password that was given. -/
theorem leads_hash {L : List Write → List LockKey → Shared → Prop}
    (hstable : (contract lib call).Stable L)
    (hmem : ∀ ws ls sh mem, L ws ls sh → L ws ls ⟨sh.db, mem⟩) (password : String)
    (g : AuthError → Status) :
    Leads (contract lib call) L (fun r ws ls sh => L ws ls sh ∧ ∀ phc, r = .ok phc →
      Hashes lib password phc)
      ((Auth.hashPassword lib password).mapError g) := by
  unfold Auth.hashPassword
  refine leads_mapError g (leads_bind (Q := fun _ => L) ?_
    (fun salt => leads_ret fun ws ls sh h => ⟨h, ?_⟩) ?_)
  · exact (stages lib call).leads_critical hstable fun env sh ws ls _ h => hmem _ _ _ _ h
  · intro phc hphc
    refine ⟨salt, ?_⟩
    cases hhash : lib.argon2Hash password salt with
    | none => simp [hhash, Except.mapError] at hphc
    | some phc' => simpa [hhash, Except.mapError] using hphc
  · exact fun e ws ls sh h => ⟨h, by simp [Except.mapError]⟩

/-- An `INSERT` that succeeds. -/
theorem insert_ok {t : Table} {row : t.Row} {refs : List (Table × Key)} {entries : List LockKey}
    {taken : Bool} {mem : Mem} {b : Unit}
    (h : (readAs (fun _ => .ok ()) (insertRow t row taken refs entries mem db)).result = .ok b) :
    (readAs (fun _ => .ok ()) (insertRow t row taken refs entries mem db)).writes =
      [.put t row] := by
  rcases insertRow_cases t row taken refs entries mem db with ⟨e, hfailed⟩ | ⟨hrow, -⟩
  · rw [hfailed] at h
    exact absurd h (by simp [readAs, failed, Except.bind])
  · rw [hrow]
    rfl

/-- A statement that fails takes the writes with it. -/
def After {ε α : Type} (P : List Write → Shared → Prop) (r : Except ε α) (ws : List Write)
    (_ : List LockKey) (sh : Shared) : Prop :=
  match r with
  | .ok _ => P ws sh
  | .error _ => ws = []

/-- One statement of the transaction. -/
theorem leads_statement {α : Type} {s : Statement α} {L P : List Write → Shared → Prop}
    (g : SqlError → Status) (hstable : (contract lib call).Stable fun ws _ sh => L ws sh)
    (hok : ∀ env sh ws a, Paired sh.db → L ws sh →
      (s env sh.mem (applyAll sh.db ws)).result = .ok a →
      P (ws ++ (s env sh.mem (applyAll sh.db ws)).writes)
        ⟨sh.db, (s env sh.mem (applyAll sh.db ws)).mem⟩) :
    Leads (contract lib call) (fun ws _ sh => L ws sh) (After P) ((inTx s).mapError g) :=
  leads_mapError g ((stages lib call).leads_inTx hstable
    (fun env sh ws _ a hinv hL hr => hok env sh ws a hinv hL hr) fun _ _ _ _ _ _ _ => rfl)

/-- On to what follows; a transaction without its writes may end. -/
theorem leads_then {ε α β : Type} {L : List Write → List LockKey → Shared → Prop}
    {P : List Write → Shared → Prop} {p : Prog Env Db Write LockKey Mem SqlError ε α}
    {f : α → Prog Env Db Write LockKey Mem SqlError ε β}
    (hp : Leads (contract lib call) L (After P) p)
    (hf : ∀ a, Leads (contract lib call) (fun ws _ sh => P ws sh)
      (fun _ => Settled lib call) (f a)) :
    Leads (contract lib call) L (fun _ => Settled lib call) (p >>= f) := by
  refine leads_bind hp hf fun e ws ls sh h => ?_
  obtain rfl : ws = [] := h
  exact settled_nil _ _

/-- The verifier is written, for a user who has one, or is about to have one. -/
def Verifier (lib : Libs) (u : Uuid) (password : String) (there : Prop) (ws : List Write)
    (sh : Shared) : Prop :=
  (∃ c, Half lib u password c ws) ∧ (there → Has sh.db u)

theorem stable_verifier {password : String} {there : Prop} :
    (contract lib call).Stable fun ws _ sh => Verifier lib u password there ws sh :=
  fun _ _ _ h _ hrely => ⟨h.1, fun hthere => hrely u (h.2 hthere)⟩

theorem half_append {password : String} (hquiet : Quiet ws) (hput : ws' = [.put .credentials c])
    (hu : c.userId = u) (hhash : Hashes lib password c.passwordHash) :
    Half lib u password c (ws ++ ws') where
  credential := by rw [List.filter_append, filter_nil fun w hw => (hquiet w hw).1, hput]; rfl
  keys := by rw [List.filter_append, filter_nil fun w hw => (hquiet w hw).2, hput]; rfl
  user := hu
  hash := hhash

theorem Half.installs {password : String} (h : Half lib u password c ws)
    (hput : ws' = [.put .userKeys k]) (hu : k.userId = u) (hsets : Sets lib call c k)
    (hknown : Has db u ∨ ∃ metadata req, call = .bootstrap metadata req) :
    Installs lib call c k db (ws ++ ws') where
  credential := by rw [List.filter_append, h.credential, hput]; rfl
  keys := by rw [List.filter_append, h.keys, hput]; rfl
  user := hu.trans h.user.symm
  request := hsets
  known := by rwa [h.user]

/-- The new user's verifier. -/
theorem leads_createCredentials (user : User) {password phc : String}
    (hhash : Hashes lib password phc) (g : SqlError → Status) :
    Leads (contract lib call) (fun ws _ _ => Quiet ws)
      (After (Verifier lib user.id password False))
      ((inTx (Auth.createCredentials user.id phc)).mapError g) := by
  refine leads_statement (L := fun ws _ => Quiet ws) g (fun _ _ _ h _ _ => h)
    fun env sh ws b _ hquiet hb => ?_
  exact ⟨⟨_, half_append hquiet (insert_ok hb) rfl hhash⟩, False.elim⟩

/-- The new user's keys. -/
theorem leads_createKeys (user : User) {metadata : Metadata} {req : BootstrapRequest}
    {km : UserKeyMaterial} (hkm : req.keyMaterial = some km) (g : SqlError → Status) :
    Leads (contract lib (.bootstrap metadata req))
      (fun ws _ sh => Verifier lib user.id req.password False ws sh)
      (After fun ws sh => Settled lib (.bootstrap metadata req) ws [] sh)
      ((inTx (UserKeyRepository.create user.id km)).mapError g) := by
  refine leads_statement g stable_verifier fun env sh ws b _ hverifier hb => ?_
  obtain ⟨⟨c, hhalf⟩, -⟩ := hverifier
  refine Or.inr ⟨c, _, hhalf.installs (insert_ok hb) rfl
    (.bootstrap metadata req c _ hhalf.hash hkm) ?_⟩
  exact Or.inr ⟨metadata, req, rfl⟩

/-- An `UPDATE` by primary key. -/
theorem update_one {t : Table} {r : t.Row} {key : Key} {p : t.Row → Bool} {f : t.Row → t.Row}
    (mem : Mem) (hkeyed : Keyed t.key (db.rows t)) (hr : db.get t key = some r)
    (hp : ∀ x, p x = (t.key x == key)) : (updateRows t p f mem db).writes = [.put t (f r)] := by
  obtain ⟨hmem, rfl⟩ := mem_of_get hr
  unfold updateRows
  rw [keyed_filter_eq hkeyed hmem (fun x hx => by simpa [hp] using hx) (by simp [hp])]
  rfl

/-- The verifier of a user who has one. -/
theorem leads_updatePasswordHash (user : User) {password phc : String}
    (hhash : Hashes lib password phc) (g : SqlError → Status) :
    Leads (contract lib call) (Checked user.id)
      (After (Verifier lib user.id password True))
      ((inTx (Auth.updatePasswordHash user.id phc)).mapError g) := by
  refine leads_statement (L := fun ws sh => Checked user.id ws [] sh) g stable_checked
    fun env sh ws b hpaired hchecked hb => ?_
  obtain ⟨rfl, hhas⟩ := hchecked
  obtain ⟨c, hc⟩ := Option.isSome_iff_exists.mp hhas
  have hput : (Auth.updatePasswordHash user.id phc env sh.mem sh.db).writes =
      [.put .credentials { c with passwordHash := phc, updatedAt := env.pgNow }] :=
    update_one sh.mem hpaired.credentials hc fun x => (key_beq x.userId user.id).symm
  exact ⟨⟨_, half_append quiet_nil hput (Key.uuid.inj (mem_of_get hc).2) hhash⟩, fun _ => hhas⟩

/-- The keys of a user who has a verifier. -/
theorem leads_updateKeys (user : User) {metadata : Metadata} {req : ChangePasswordRequest}
    (g : SqlError → Status) :
    Leads (contract lib (.changePassword metadata req))
      (fun ws _ sh => Verifier lib user.id req.newPassword True ws sh)
      (After fun ws sh => Settled lib (.changePassword metadata req) ws [] sh)
      ((inTx (UserKeyRepository.update user.id req.newMasterKeyWrapped req.newKdfSalt
        req.newKdfParams)).mapError g) := by
  refine leads_statement g stable_verifier fun env sh ws b hpaired hverifier hb => ?_
  obtain ⟨⟨c, hhalf⟩, hthere⟩ := hverifier
  have hhas := hthere trivial
  obtain ⟨k, hk⟩ := Option.isSome_iff_exists.mp ((hpaired.both user.id).mpr hhas)
  have hrows : (applyAll sh.db ws).rows .userKeys = sh.db.rows .userKeys := by
    rw [applyAll_rows_filter, hhalf.keys]
    rfl
  have hview : (applyAll sh.db ws).get .userKeys (.uuid user.id) = some k := by
    rw [← hk]
    unfold Db.get
    rw [hrows]
  have hput : (UserKeyRepository.update user.id req.newMasterKeyWrapped req.newKdfSalt
      req.newKdfParams env sh.mem
      (applyAll sh.db ws)).writes = [.put .userKeys { k with km := { k.km with
        masterKeyWrapped := req.newMasterKeyWrapped
        kdfSalt := req.newKdfSalt
        kdfParams := req.newKdfParams } }] :=
    update_one sh.mem (hrows.symm ▸ hpaired.userKeys) hview fun x => (key_beq x.userId user.id).symm
  have huser : k.userId = user.id := Key.uuid.inj (mem_of_get hk).2
  refine Or.inr ⟨c, _, hhalf.installs hput huser
    (.changePassword metadata req c _ hhalf.hash rfl) ?_⟩
  exact Or.inl hhas

/-! ## Every method keeps the contract -/

-- a handler is taken apart by its requests; unfolded whole, it takes too long
attribute [local irreducible] Prog.Obeys

theorem part_aside {α ε : Type} {p : Prog Env Db Write LockKey Mem SqlError ε α}
    (h : p.Obeys (rpcRules lib Aside)) :
    Part (contract lib call) (Settled lib call) p := part_elsewhere (fun _ => id) h

/-- A transaction that has what it needs goes on elsewhere. -/
theorem leads_aside {ε α : Type} {p : Prog Env Db Write LockKey Mem SqlError ε α}
    (h : p.Obeys (rpcRules lib Aside)) :
    Leads (contract lib call) (fun ws _ sh => Settled lib call ws [] sh)
      (fun _ => Settled lib call) p :=
  leads_part (part_aside h)

/-- The transaction is opened. -/
theorem leads_open {L : List Write → List LockKey → Shared → Prop} {P : List Write → Shared → Prop}
    (hstable : (contract lib call).Stable L) (h : ∀ sh, L [] [] sh → P [] sh)
    (g : SqlError → Status) : Leads (contract lib call) L (After P) (beginTx.mapError g) :=
  leads_mapError g ((stages lib call).leads_begin hstable fun r sh _ hL => by
    cases r with
    | ok _ => exact h sh hL
    | error _ => rfl)

theorem checked_keys {req : BootstrapRequest} {km : UserKeyMaterial} {dev : DeviceEnrollment}
    (h : bootstrap.checked req = .ok (km, dev)) : req.keyMaterial = some km := by
  unfold bootstrap.checked at h
  generalize ((trim req.email).isEmpty || (trim req.displayName).isEmpty || req.password.isEmpty) =
    blank at h
  cases blank with
  | true => exact absurd h (by simp [throw, throwThe, MonadExceptOf.throw, bind, Except.bind])
  | false =>
    cases hkm : req.keyMaterial with
    | none => exact absurd h (by simp [hkm, required, bind, Except.bind])
    | some km' =>
      simp only [hkm, required, bind, Except.bind, Bool.false_eq_true, if_false] at h
      repeat' split at h
      · exact absurd h (by simp)
      · exact absurd h (by simp)
      · simpa [pure, Except.pure, Except.map] using congrArg (Except.map Prod.fst) h

/-- A statement about another table. -/
theorem leads_elsewhere {α : Type} {s : Statement α} {t : Table}
    (h : ∀ env mem db, ∀ w ∈ (s env mem db).writes, w.table = t)
    (ht : t ≠ .credentials ∧ t ≠ .userKeys) (g : SqlError → Status) :
    Leads (contract lib call) (fun ws _ _ => Quiet ws) (After fun ws _ => Quiet ws)
      ((inTx s).mapError g) :=
  leads_statement (L := fun ws _ => Quiet ws) g (fun _ _ _ h _ _ => h) fun env sh ws a _ hquiet _ =>
    quiet_append hquiet fun w hw => by rwa [h _ _ _ w hw]

theorem part_bootstrap (metadata : Metadata) (req : BootstrapRequest) :
    Part (contract ctx.lib (.bootstrap metadata req)) (Settled ctx.lib (.bootstrap metadata req))
      (bootstrap ctx metadata req) := by
  unfold bootstrap
  generalize hchecked : bootstrap.checked req = checked
  refine part_bind (part_aside (rpc_critical _)) fun allowed =>
    part_ite (part_ret _) (part_leads ?_)
  refine leads_given (fun ⟨km, dev⟩ hrequest => leads_part ?_) fun e ws ls sh h => h
  have hkm := checked_keys (hchecked.trans hrequest)
  refine part_bind (part_aside (rpc_look _ _)) fun count => ?_
  refine part_ite (part_bind (part_aside (rpc_critical _)) fun _ => part_ret _) (part_leads ?_)
  unfold bootstrap.afterGate
  refine leads_bind (leads_hash stable_settled (fun _ _ _ _ h => h) req.password _)
    (fun phc => leads_of fun _ _ _ h => ?_) fun e ws ls sh h => h.1
  have hhash := h.2 phc rfl
  unfold bootstrap.create
  refine leads_then (P := fun ws _ => Quiet ws) (leads_open ?_ (fun _ _ => quiet_nil) _) fun _ => ?_
  · exact fun p sh sh₁ h hinv hrely => ⟨stable_settled p sh sh₁ h.1 hinv hrely, h.2⟩
  refine leads_then (P := fun ws _ => Quiet ws)
    (leads_elsewhere (t := .users) (fun _ _ _ => insertRow_table) ⟨by decide, by decide⟩ _)
    fun user => ?_
  refine leads_then (leads_createCredentials user hhash _) fun _ =>
    leads_then (leads_createKeys user hkm _) fun _ => ?_
  refine leads_aside (obeys_bind (rpc_enrollDevice ?_ ?_ _ _) fun device => ?_)
  · exact ⟨by decide, by decide⟩
  · exact ⟨by decide, by decide⟩
  refine obeys_bind (obeys_mapError _ (rpc_append ⟨by decide, by decide⟩ _ _ _ _)) fun event => ?_
  refine obeys_bind (obeys_mapError _ (rpc_createSession ⟨by decide, by decide⟩ _ _ _ _))
    fun session => ?_
  exact obeys_bind (rpc_commit _) fun _ => obeys_ret _

theorem leads_afterCheck (user : User) (metadata : Metadata) (req : ChangePasswordRequest) :
    Leads (contract ctx.lib (.changePassword metadata req)) (Checked user.id)
      (fun _ => Settled ctx.lib (.changePassword metadata req))
      (changePassword.afterCheck ctx user req) := by
  unfold changePassword.afterCheck
  generalize req.newPassword.isEmpty = blank
  cases blank with
  | true => exact leads_ret settled_of_checked
  | false =>
    refine leads_bind (leads_hash stable_checked (fun _ _ _ _ h => h) req.newPassword _)
      (fun phc => leads_of fun _ _ _ h => ?_) fun e ws ls sh h => settled_of_checked _ _ _ h.1
    have hhash := h.2 phc rfl
    unfold changePassword.write
    refine leads_then (P := fun ws sh => Checked user.id ws [] sh)
      (leads_open ?_ (fun _ h => h.1) _) fun _ => ?_
    · exact fun p sh sh₁ h hinv hrely => ⟨stable_checked p sh sh₁ h.1 hinv hrely, h.2⟩
    refine leads_then (leads_updatePasswordHash user hhash _) fun _ =>
      leads_then (leads_updateKeys user _) fun _ => ?_
    refine leads_aside (obeys_bind (obeys_mapError _ (rpc_append ⟨by decide, by decide⟩ _ _ _ _))
      fun event => ?_)
    exact rpc_commit _

theorem part_changePassword (metadata : Metadata) (req : ChangePasswordRequest) :
    Part (contract ctx.lib (.changePassword metadata req))
      (Settled ctx.lib (.changePassword metadata req)) (changePassword ctx metadata req) := by
  have hnil : ∀ {ws ls} {sh : Shared}, ws = [] →
      Settled ctx.lib (.changePassword metadata req) ws ls sh := by
    rintro _ ls sh rfl
    exact settled_nil _ _
  unfold changePassword
  refine part_bind (part_aside (rpc_authenticate ⟨by decide, by decide⟩ metadata))
    fun user => part_leads ?_
  refine leads_bind (leads_verify user req.currentPassword _) (fun verified => ?_)
    fun e ws ls sh h => hnil h.1
  cases verified with
  | false => exact leads_ret fun ws ls sh h => hnil h.1
  | true =>
    exact leads_weaken (leads_afterCheck user metadata req) (fun ws ls sh h => ⟨h.1, h.2 rfl⟩)
      fun _ _ _ _ h => h

/-- **Every method keeps its contract.** -/
theorem safe_call (ctx : PlatformContext) (call : RpcCall) (sh : Shared) :
    Safe (contract ctx.lib call) ⟨call.program ctx, none⟩ sh := by
  refine (local_settled ctx.lib call).safe ?_ (settled_nil _ _)
  have hother : (∀ t ∈ call.tables, Aside t) →
      Part (contract ctx.lib call) (Settled ctx.lib call) (call.program ctx) :=
    fun h => part_elsewhere h (rpc_call call)
  cases call with
  | bootstrap metadata req => exact part_bind (part_bootstrap metadata req) fun _ => part_ret _
  | changePassword metadata req => exact part_changePassword metadata req
  | _ => exact hother (by simp [Aside])

/-! ## Every run of the methods -/

section Runs

variable {Pid : Type} [DecidableEq Pid] [Fintype Pid] {calls : Pid → RpcCall}
  {w₀ w w' : Server Pid Unit} {es : List (ServerEvent Pid Unit)} {i : Pid}
  {ch : Choice Env SqlError}

/-- The key pairs are the same; what is wrapped under the password may differ. -/
def SameKeyPairs (km km' : UserKeyMaterial) : Prop := km' = { km with
  masterKeyWrapped := km'.masterKeyWrapped
  kdfSalt := km'.kdfSalt
  kdfParams := km'.kdfParams }

/-- The commit `e` wrote both rows, for one request. -/
structure Together (lib : Libs) (calls : Pid → RpcCall) (c : Credential) (k : UserKeys)
    (e : ServerEvent Pid Unit) : Prop where
  request : Sets lib (calls e.pid) c k
  credential : .put .credentials c ∈ (e.before.procs e.pid).committed e.choice
  keys : .put .userKeys k ∈ (e.before.procs e.pid).committed e.choice

/-- The key pairs were sent by a Bootstrap. -/
def Founded (calls : Pid → RpcCall) (k : UserKeys) (e : ServerEvent Pid Unit) : Prop :=
  ∃ metadata req km, calls e.pid = .bootstrap metadata req ∧ req.keyMaterial = some km ∧
    SameKeyPairs km k.km

/-- What holds at every moment of a run. -/
structure Following (lib : Libs) (calls : Pid → RpcCall) (w₀ : Server Pid Unit)
    (es : List (ServerEvent Pid Unit)) (w : Server Pid Unit) : Prop where
  paired : Paired w.sh.db
  versioned : Versioned (Table.view .userKeys) (fun _ _ => RowHistory.Keeps .userKeys) w
  origin : ∀ u c k, w.sh.db.get .credentials (.uuid u) = some c →
    w.sh.db.get .userKeys (.uuid u) = some k →
    (w₀.sh.db.get .credentials (.uuid u) = some c ∧ w₀.sh.db.get .userKeys (.uuid u) = some k) ∨
      ∃ e ∈ es, Together lib calls c k e
  keyPairs : ∀ u k, w.sh.db.get .userKeys (.uuid u) = some k →
    (∃ k₀, w₀.sh.db.get .userKeys (.uuid u) = some k₀ ∧ SameKeyPairs k₀.km k.km) ∨
    ∃ e ∈ es, Founded calls k e

omit [DecidableEq Pid] [Fintype Pid] in
theorem founded_of_sets {e : ServerEvent Pid Unit} {metadata : Metadata} {req : BootstrapRequest}
    (hcall : calls e.pid = .bootstrap metadata req) (hsets : Sets lib (calls e.pid) c k) :
    Founded calls k e := by
  rw [hcall] at hsets
  cases hsets with
  | bootstrap _ _ _ _ hash keys => exact ⟨metadata, req, k.km, hcall, keys, rfl⟩

theorem sameKeyPairs_trans {km km' km'' : UserKeyMaterial} (h : SameKeyPairs km km')
    (h' : SameKeyPairs km' km'') : SameKeyPairs km km'' := by
  unfold SameKeyPairs at *
  rw [h', h]

theorem sameKeyPairs_later {k k' : UserKeys} (h : Table.Later .userKeys k k') :
    SameKeyPairs k.km k'.km := by
  rw [show k' = _ from h]
  rfl

omit [DecidableEq Pid] [Fintype Pid] in
/-- A row that is there keeps its key pairs; a new one has those of the request. -/
theorem Following.keyPairs_step {e : ServerEvent Pid Unit} (h : Following lib calls w₀ es w)
    (hkeeps : ∀ key, RowHistory.Keeps .userKeys (w.sh.db.get .userKeys key)
      (w'.sh.db.get .userKeys key))
    (hnew : ∀ u k, w.sh.db.get .userKeys (.uuid u) = none →
      w'.sh.db.get .userKeys (.uuid u) = some k → Founded calls k e)
    (u : Uuid) (k : UserKeys) (hk : w'.sh.db.get .userKeys (.uuid u) = some k) :
    (∃ k₀, w₀.sh.db.get .userKeys (.uuid u) = some k₀ ∧ SameKeyPairs k₀.km k.km) ∨
      ∃ e' ∈ e :: es, Founded calls k e' := by
  cases hbefore : w.sh.db.get .userKeys (.uuid u) with
  | none => exact Or.inr ⟨e, List.mem_cons_self, hnew u k hbefore hk⟩
  | some k₁ =>
    obtain ⟨k', hk', hlater⟩ := hkeeps (.uuid u) k₁ hbefore
    obtain rfl : k' = k := Option.some.inj (hk'.symm.trans hk)
    have hsame := sameKeyPairs_later hlater
    rcases h.keyPairs u k₁ hbefore with ⟨k₀, hk₀, hold⟩ | ⟨e', he', metadata, req, km,
      hcall, hkm, hfounded⟩
    · exact Or.inl ⟨k₀, hk₀, sameKeyPairs_trans hold hsame⟩
    · exact Or.inr ⟨e', List.mem_cons_of_mem _ he', metadata, req, km, hcall, hkm,
        sameKeyPairs_trans hfounded hsame⟩

/-- **One step of a run**: the rows of nobody change, or both rows of one user do. -/
theorem Following.step (h : Following lib calls w₀ es w) (hs : w.step i ch = some w')
    (hguar : (contract lib (calls i)).guar (w.procs i) w.sh (w'.procs i) w'.sh) :
    Following lib calls w₀ (⟨w, i, ch, w'⟩ :: es) w' ∧ ∀ u, Has w.sh.db u → Has w'.sh.db u := by
  obtain ⟨hstep, -, -⟩ := World.step_spec hs
  obtain ⟨hversioned, hkeeps⟩ := RowHistory.keeps_trace h.versioned (.step i ch .start hs trivial)
  have hcases : Same w.sh.db w'.sh.db ∨ ((w.procs i).committed ch = (w.procs i).writes ∧
      w'.sh.db = applyAll w.sh.db (w.procs i).writes ∧
      ∃ c k, Installs lib (calls i) c k w.sh.db (w.procs i).writes) := by
    rcases Proc.committed_cases hstep with ⟨-, hdb⟩ | ⟨hall, -⟩
    · exact Or.inl ⟨by rw [hdb], by rw [hdb]⟩
    · exact hguar.imp_right fun hinstalls => ⟨hall, hinstalls⟩
  rcases hcases with hsame | ⟨hall, hdb, c, k, hinstalls⟩
  · have hget : ∀ t, t = .credentials ∨ t = .userKeys →
        ∀ key, w'.sh.db.get t key = w.sh.db.get t key := by
      rintro t (rfl | rfl) key
      · exact congrArg (List.find? _) hsame.1
      · exact congrArg (List.find? _) hsame.2
    refine ⟨⟨hsame.paired h.paired, hversioned, fun u c k hc hk => ?_,
      h.keyPairs_step hkeeps fun u k hnone hsome => ?_⟩, fun u hhas => (hsame.has u).mpr hhas⟩
    · rw [hget _ (Or.inl rfl)] at hc
      rw [hget _ (Or.inr rfl)] at hk
      exact (h.origin u c k hc hk).imp_right fun ⟨e, he, htogether⟩ =>
        ⟨e, List.mem_cons_of_mem _ he, htogether⟩
    · rw [hget _ (Or.inr rfl), hnone] at hsome
      exact absurd hsome (by simp)
  · have hput : ∀ t (row : t.Row), (w.procs i).writes.filter (fun x => decide (x.table = t)) =
        [.put t row] → .put t row ∈ (w.procs i).committed ch := by
      intro t row hone
      have hmem : Write.put t row ∈ (w.procs i).writes.filter (fun x => decide (x.table = t)) := by
        rw [hone]
        exact List.mem_singleton_self _
      rw [hall]
      exact List.mem_of_mem_filter hmem
    refine ⟨⟨hdb ▸ hinstalls.paired h.paired, hversioned, fun u c' k' hc' hk' => ?_,
      h.keyPairs_step hkeeps fun u k' hnone hsome => ?_⟩, fun u hhas =>
        hdb ▸ hinstalls.has_after u hhas⟩
    · rw [hdb, hinstalls.credentials_after u] at hc'
      rw [hdb, hinstalls.keys_after u] at hk'
      by_cases hu : c.userId = u
      · rw [if_pos hu, Option.some.injEq] at hc' hk'
        subst hc' hk'
        exact Or.inr ⟨_, List.mem_cons_self, hinstalls.request, hput _ _ hinstalls.credential,
          hput _ _ hinstalls.keys⟩
      · rw [if_neg hu] at hc' hk'
        exact (h.origin u c' k' hc' hk').imp_right fun ⟨e, he, htogether⟩ =>
          ⟨e, List.mem_cons_of_mem _ he, htogether⟩
    · rw [hdb, hinstalls.keys_after u] at hsome
      by_cases hu : c.userId = u
      · rw [if_pos hu, Option.some.injEq] at hsome
        subst hu hsome
        rcases hinstalls.known with hhas | ⟨metadata, req, hcall⟩
        · have hthere := (h.paired.both c.userId).mpr hhas
          rw [hnone] at hthere
          exact absurd hthere (by simp)
        · exact founded_of_sets (e := ⟨w, i, ch, w'⟩) hcall hinstalls.request
      · rw [if_neg hu, hnone] at hsome
        exact absurd hsome (by simp)

/-- **A user's verifier and keys come from one request.** Whoever has the one has the other. In
    every run of the methods the two rows are still those of the start, or one commit of one request
    wrote both; and the key pairs are those of the start or of a Bootstrap. -/
theorem rows_paired (hidle : ∀ i, (w₀.procs i).tx = none)
    (hprograms : ∀ i, (w₀.procs i).prog = (calls i).program ctx) (hpaired : Paired w₀.sh.db)
    (ht : World.Trace World.anyEvent w₀ es w) (u : Uuid) :
    ((w.sh.db.get .userKeys (.uuid u)).isSome ↔ (w.sh.db.get .credentials (.uuid u)).isSome) ∧
    ∀ c ∈ w.sh.db.get .credentials (.uuid u), ∀ k ∈ w.sh.db.get .userKeys (.uuid u),
      ((w₀.sh.db.get .credentials (.uuid u) = some c ∧ w₀.sh.db.get .userKeys (.uuid u) = some k) ∨
        ∃ e ∈ es, Together ctx.lib calls c k e) ∧
      ((∃ k₀ ∈ w₀.sh.db.get .userKeys (.uuid u), SameKeyPairs k₀.km k.km) ∨
        ∃ e ∈ es, Founded calls k e) := by
  have hstart : Following ctx.lib calls w₀ [] w₀ := by
    refine ⟨hpaired, RowHistory.versioned_start hpaired.userKeys hidle fun i =>
      ⟨calls i, hprograms i⟩, ?_, ?_⟩
    · exact fun u c k hc hk => Or.inl ⟨hc, hk⟩
    · exact fun u k hk => Or.inl ⟨k, hk, rfl⟩
  have hsafe : ∀ i, Safe (contract ctx.lib (calls i)) (w₀.procs i) w₀.sh := by
    intro i
    have hproc : w₀.procs i = ⟨(calls i).program ctx, none⟩ := by
      rw [← hprograms i, ← hidle i]
    rw [hproc]
    exact safe_call ctx (calls i) w₀.sh
  obtain ⟨hfollowing, -⟩ := ht.safe (fun i => contract ctx.lib (calls i))
    (fun es w => Following ctx.lib calls w₀ es w)
    (fun _ _ _ _ h => h) (fun _ _ _ _ _ h h' u hu => h' u (h u hu)) (fun _ _ _ h => h.paired)
    (fun es w i ch w' h _ _ hs hguar => ⟨(h.step hs hguar).1, fun _ _ => (h.step hs hguar).2⟩)
    hstart (World.orderly_start hidle).exclusive hsafe
  refine ⟨hfollowing.paired.both u, fun c hc k hk =>
    ⟨hfollowing.origin u c k hc hk, hfollowing.keyPairs u k hk⟩⟩

end Runs

/-! ### Ann changes her password on two devices at once -/

def annKeys : UserKeys where
  userId := Sample.ann.id
  km :=
    { x25519Public := [7]
      ed25519Public := [8]
      x25519PrivateWrapped := [9]
      ed25519PrivateWrapped := [10]
      masterKeyWrapped := [0]
      kdfSalt := [0]
      kdfParams := "m=19456" }
  createdAt := ⟨0⟩
  updatedAt := ⟨0⟩

def newPassword (i : Bool) : ChangePasswordRequest where
  currentPassword := "correct horse"
  newPassword := if i then "battery" else "staple"
  newMasterKeyWrapped := if i then [2] else [1]
  newKdfSalt := [3]
  newKdfParams := "m=19456"

def twoDevices : Server Bool Unit where
  procs i := ⟨RpcCall.program Sample.context (.changePassword Sample.asAnn (newPassword i)), none⟩
  sh := ⟨Sample.db.put .userKeys annKeys, Mem.fresh⟩

/-- Both check the old password before either writes the new one. -/
def changedTwice : Server Bool Unit :=
  twoDevices.reach (Sample.steps false 7 6 ++ Sample.steps true 8 6 ++
    Sample.steps false 7 8 ++ Sample.steps true 8 8)

theorem paired_twoDevices : Paired twoDevices.sh.db where
  credentials := by decide
  userKeys := by decide
  both u := by
    unfold Has Db.get
    rw [List.find?_isSome, List.find?_isSome]
    show (∃ k ∈ [annKeys], _) ↔ ∃ c ∈ [Sample.annCredential], _
    simp only [List.mem_singleton, exists_eq_left]
    rfl

theorem rows_paired_ann : ∃ es, World.Trace World.anyEvent twoDevices es changedTwice ∧
    ∃ c ∈ changedTwice.sh.db.get .credentials (.uuid Sample.ann.id),
      ∃ k ∈ changedTwice.sh.db.get .userKeys (.uuid Sample.ann.id), k.km.masterKeyWrapped = [2] ∧
        ∃ e ∈ es, Together Sample.context.lib
          (fun i => .changePassword Sample.asAnn (newPassword i)) c k e := by
  obtain ⟨es, -, ht⟩ : ∃ es, [] <:+ es ∧ World.Trace World.anyEvent twoDevices es changedTwice :=
    World.trace_reach (fun _ _ _ _ _ => trivial) .start (by decide +kernel)
  have hprograms : ∀ i, (twoDevices.procs i).prog =
      RpcCall.program Sample.context (.changePassword Sample.asAnn (newPassword i)) := fun _ => rfl
  obtain ⟨hboth, hrows⟩ := rows_paired (fun _ => rfl) hprograms paired_twoDevices ht Sample.ann.id
  have hwrapped : (changedTwice.sh.db.get .userKeys (.uuid Sample.ann.id)).map
      (fun k => k.km.masterKeyWrapped) = some [2] := by decide +kernel
  obtain ⟨k, hk, htwo⟩ := Option.map_eq_some_iff.mp hwrapped
  obtain ⟨c, hc⟩ := Option.isSome_iff_exists.mp (hboth.mp (by rw [hk]; rfl))
  refine ⟨es, ht, c, hc, k, hk, htwo, ?_⟩
  rcases (hrows c hc k hk).1 with ⟨-, hold⟩ | htogether
  · obtain rfl : annKeys = k := Option.some.inj hold
    exact absurd htwo (by decide)
  · exact htogether

end SylvaServer.KeyPairing
