/-
  One-time codes are used once.

  `verifyAndConsume` reads the secrets of a user in one statement and consumes the step that
  matches in another, an `UPDATE` that only takes a step newer than the last one. Other requests
  enroll, confirm, rename, stamp and delete authenticators in between.

  Two facts carry the proof. A row keeps its owner and its secret in every version that anyone sees,
  and its last step never goes back (`Succeeds`); a new row has an id that nobody has seen. So
  what the first statement has read is still true of the row that the second one changes
  (`Traced`), and once a step is accepted every later version of the row remembers it (`Spent`).

  Proved: in every run accepted steps of a credential increase, each accepted code belongs to a
  verified credential of the user, and a refused one changes nothing (`codes_single_use`).
-/
import SylvaServer.Model.Context
import SylvaServer.Model.Totp
import SylvaServer.Model.Views

namespace SylvaServer.UserTotp

open ReadCommitted ReadCommitted.Prog

/-! ## The calls -/

/-- What runs inside a transaction of a caller. -/
inductive TotpOp where
  | startEnrollment (userId : Uuid) (rawSecret : Bytes)
  | confirm (userId credId : Uuid) (label : String)
  | rename (userId credId : Uuid) (label : String)
  | stampUsed (credId : Uuid)
  | delete (userId credId : Uuid)

def TotpOp.program (lib : Libs) (key : Bytes) : TotpOp → Auth Unit
  | .startEnrollment userId rawSecret => do
    let _ ← UserTotp.startEnrollment lib key userId rawSecret
  | .confirm userId credId label => do
    let _ ← (inTx (UserTotp.confirm userId credId label)).mapError .database
  | .rename userId credId label => do
    let _ ← (inTx (UserTotp.rename userId credId label)).mapError .database
  | .stampUsed credId => (inTx (UserTotp.stampUsed credId)).mapError .database
  | .delete userId credId => do
    let _ ← (inTx (UserTotp.delete userId credId)).mapError .database

inductive TotpCall where
  | verify (userId : Uuid) (code : String) (unixTime : Int64)
  | manage (ops : List TotpOp)

inductive TotpReply where
  | verified (id : Option Uuid)
  | managed
deriving DecidableEq

def TotpCall.program (lib : Libs) (key : Bytes) : TotpCall → Auth TotpReply
  | .verify userId code unixTime => do
    let id ← verifyAndConsume lib key userId code unixTime
    pure (.verified id)
  | .manage ops => do
    beginTx.mapError .database
    inOrder (ops.map (TotpOp.program lib key))
    commitTx.mapError .database
    pure .managed

/-- A call at work. -/
abbrev TotpProc := Proc Env Db Write LockKey Mem SqlError AuthError TotpReply

/-! ## What the statements make of a row -/

/-- A later version of a row: the same owner and secret, and no step back. -/
structure Succeeds (r r' : TotpCredential) : Prop where
  id : r'.id = r.id
  userId : r'.userId = r.userId
  secretEnc : r'.secretEnc = r.secretEnc
  lastUsedStep : ∀ s, r.lastUsedStep = some s → ∃ s', r'.lastUsedStep = some s' ∧ s ≤ s'

/-- Every row written is a later version of one that is there, or it is one row with a new id. -/
def Continues (env : Env) (db : Db) (ws : List Write) : Prop :=
  (∀ row, .put .totpCredentials row ∈ ws → ∃ r ∈ db.totpCredentials, Succeeds r row) ∨
    ∃ row, ws = [.put .totpCredentials row] ∧ row.id = env.uuid

abbrev continuing : Prog.Rules Env Db Write LockKey Mem SqlError := .writing Continues

section Statements

variable {env : Env} {mem : Mem} {db : Db}

theorem continues_updateRows {p : TotpCredential → Bool} {f : TotpCredential → TotpCredential}
    (h : ∀ r, p r → Succeeds r (f r)) :
    Continues env db (updateRows .totpCredentials p f mem db).writes := by
  left
  intro row hrow
  simp only [updateRows, List.mem_map, List.mem_filter] at hrow
  obtain ⟨_, ⟨r, ⟨hr, hp⟩, rfl⟩, hput⟩ := hrow
  obtain rfl : f r = row := by simpa using hput
  exact ⟨r, hr, h r hp⟩

theorem continues_deleteRows {p : TotpCredential → Bool} :
    Continues env db (deleteRows .totpCredentials p mem db).writes := by
  left
  intro row hrow
  simp [deleteRows] at hrow

theorem continues_readAs {β γ : Type} {f : β → Except SqlError γ}
    {o : Outcome Write LockKey Mem SqlError β} (h : Continues env db o.writes) :
    Continues env db (readAs f o).writes := by
  rcases (readAs_cases f o).2 with ⟨-, hw, -⟩ | ⟨b, c, -, -, -, hw, -⟩
  · rw [hw]
    exact Or.inl (by simp)
  · rw [hw]
    exact h

theorem continues_insert (userId : Uuid) (enc : Bytes) :
    Continues env db (insert userId enc env mem db).writes := by
  refine continues_readAs ?_
  rcases insertRow_cases .totpCredentials _ false [(.users, .uuid userId)] [] mem db with
    ⟨e, h⟩ | ⟨h, -⟩
  · rw [h]
    exact Or.inl (by simp [failed])
  · rw [h]
    exact Or.inr ⟨_, rfl, rfl⟩

/-- The rows consumed. -/
theorem continues_consume (credId : Uuid) (step : Int) :
    Continues env db (consume credId step env mem db).writes := by
  refine continues_readAs (continues_updateRows fun r hp => ⟨rfl, rfl, rfl, fun s hs => ?_⟩)
  simp only [Bool.and_eq_true, hs, Option.all_some, decide_eq_true_eq] at hp
  exact ⟨step, rfl, le_of_lt hp.2⟩

theorem obeys_op (lib : Libs) (key : Bytes) (op : TotpOp) :
    (op.program lib key).Obeys continuing := by
  have hone : ∀ {β : Type} {s : Statement β}, (∀ env m db, Continues env db (s env m db).writes) →
      ((inTx s).mapError AuthError.database).Obeys continuing :=
    fun h => obeys_mapError _ ⟨h, fun _ => trivial⟩
  have hsame : ∀ r r' : TotpCredential, r'.id = r.id → r'.userId = r.userId →
      r'.secretEnc = r.secretEnc → r'.lastUsedStep = r.lastUsedStep → Succeeds r r' :=
    fun r r' h₁ h₂ h₃ h₄ => ⟨h₁, h₂, h₃, fun s hs => ⟨s, h₄.trans hs, le_refl s⟩⟩
  cases op with
  | startEnrollment userId rawSecret =>
    refine obeys_bind (obeys_bind (hone fun env m db => ?_) fun _ => ?_) fun _ => trivial
    · exact continues_readAs continues_deleteRows
    · refine obeys_bind ⟨trivial, fun nonce => ?_⟩ fun enc => hone fun env m db =>
        continues_insert _ _
      show (ofExcept _ : Auth Bytes).Obeys continuing
      trivial
  | confirm userId credId label =>
    exact obeys_bind (hone fun env m db => continues_readAs
      (continues_updateRows fun r _ => hsame _ _ rfl rfl rfl rfl)) fun _ => trivial
  | rename userId credId label =>
    exact obeys_bind (hone fun env m db => continues_readAs
      (continues_updateRows fun r _ => hsame _ _ rfl rfl rfl rfl)) fun _ => trivial
  | stampUsed credId =>
    exact hone fun env m db => continues_readAs
      (continues_updateRows fun r _ => hsame _ _ rfl rfl rfl rfl)
  | delete userId credId =>
    exact obeys_bind (hone fun env m db => continues_readAs continues_deleteRows) fun _ => trivial

end Statements

/-! ## A verification at work -/

/-- What is left of a verification that has found a step to consume. -/
def consuming (id : Uuid) (step : Int) : Auth TotpReply :=
  .pool (consume id step) fun r => .ret ((r.mapError AuthError.database).map fun affected =>
    .verified (if affected == 1 then some id else none))

/-- A step matches the code under a secret that was read. -/
def Matches (lib : Libs) (key : Bytes) (code : String) (unixTime : Int64) (enc : Bytes)
    (step : Int) : Prop :=
  ∃ secret, Secretbox.open lib key enc = .ok secret ∧
    Totp.matchedStep lib secret code unixTime = some step

theorem tryCredentials_cases (lib : Libs) (key : Bytes) (code : String) (unixTime : Int64)
    (rows : List (Uuid × Bytes)) :
    (∃ r, (tryCredentials lib key code unixTime rows >>= fun id => pure (TotpReply.verified id)) =
        .ret r ∧ ∀ id, r ≠ .ok (.verified (some id))) ∨
      ∃ id enc step, (id, enc) ∈ rows ∧ Matches lib key code unixTime enc step ∧
        (tryCredentials lib key code unixTime rows >>= fun id => pure (TotpReply.verified id)) =
          consuming id step := by
  induction rows with
  | nil => exact Or.inl ⟨_, rfl, by simp⟩
  | cons row rows ih =>
    obtain ⟨id, enc⟩ := row
    cases hopen : Secretbox.open lib key enc with
    | error e =>
      refine Or.inl ⟨.error e, ?_, by simp⟩
      simp [tryCredentials, hopen, Prog.ofExcept]
    | ok secret =>
      cases hmatch : Totp.matchedStep lib secret code unixTime with
      | none =>
        have hnext : tryCredentials lib key code unixTime ((id, enc) :: rows) =
            tryCredentials lib key code unixTime rows := by
          simp [tryCredentials, hopen, Prog.ofExcept, hmatch]
        rw [hnext]
        refine ih.imp_right ?_
        rintro ⟨id', enc', step, hmem, hfacts⟩
        exact ⟨id', enc', step, List.mem_cons_of_mem _ hmem, hfacts⟩
      | some step =>
        refine Or.inr ⟨id, enc, step, List.mem_cons_self, ⟨secret, hopen, hmatch⟩, ?_⟩
        simp only [tryCredentials, hopen, Prog.ofExcept, bind_ok, hmatch]
        show Prog.pool _ _ = _
        unfold consuming
        congr 1
        funext r
        cases r <;> rfl

/-- Owner and secret of each id that has been seen. -/
abbrev Owners := Uuid → Option (Uuid × Bytes)

/-- The code is the one of a step, under a secret of the user that was read. -/
def Presented (lib : Libs) (key : Bytes) (owners : Owners) (userId : Uuid) (code : String)
    (unixTime : Int64) (id : Uuid) (step : Int) : Prop :=
  ∃ enc, owners id = some (userId, enc) ∧ Matches lib key code unixTime enc step

/-- A verification at work. -/
inductive Verifying (lib : Libs) (key : Bytes) (owners : Owners) (userId : Uuid) (code : String)
    (unixTime : Int64) (p : TotpProc) : Prop
  | reading (hp : p = ⟨(TotpCall.verify userId code unixTime).program lib key, none⟩)
  | matched (id : Uuid) (step : Int)
      (hpresented : Presented lib key owners userId code unixTime id step)
      (hp : p = ⟨consuming id step, none⟩)
  | consumed (id : Uuid) (step : Int)
      (hpresented : Presented lib key owners userId code unixTime id step)
      (row : TotpCredential) (hrow : row.id = id ∧ row.lastUsedStep = some step)
      (k : Except SqlError Unit → Auth TotpReply) (hk : ∀ r, k r =
        .ret ((r.mapError AuthError.database).map fun _ => .verified (some id)))
      (locks : List LockKey)
      (hp : p = ⟨.commit k, some (.active [.put .totpCredentials row] locks)⟩)
  | done (r : Except AuthError TotpReply) (hp : p = ⟨.ret r, none⟩)

/-- A step that accepts a code: the row consumed is committed, and the call returns its id. -/
def Accepting (lib : Libs) (key : Bytes) (owners : Owners) (userId : Uuid) (code : String)
    (unixTime : Int64) (p : TotpProc) (c : Choice Env SqlError) (p' : TotpProc) : Prop :=
  ∃ id step row, Presented lib key owners userId code unixTime id step ∧
    row.id = id ∧ row.lastUsedStep = some step ∧ p.committed c = [.put .totpCredentials row] ∧
    p.writes = [.put .totpCredentials row] ∧ p' = ⟨.ret (.ok (.verified (some id))), none⟩

section Verification

variable {lib : Libs} {key : Bytes} {owners owners' : Owners} {userId : Uuid} {code : String}
  {unixTime : Int64} {env : Env} {mem : Mem} {db : Db}

/-- The consuming `UPDATE` finds no row, or one. -/
theorem consume_cases (env : Env) (mem : Mem) (id : Uuid) (step : Int)
    (hkeyed : Keyed (Table.key .totpCredentials) db.totpCredentials) :
    (consume id step env mem db).mem = mem ∧ (consume id step env mem db).locks = [] ∧
      (((consume id step env mem db).result = .ok 0 ∧ (consume id step env mem db).writes = []) ∨
        ∃ row, (consume id step env mem db).result = .ok 1 ∧
          (consume id step env mem db).writes = [.put .totpCredentials row] ∧
          row.id = id ∧ row.lastUsedStep = some step) := by
  refine ⟨rfl, rfl, ?_⟩
  have hkey : ∀ r : TotpCredential, (r.id == id && r.verifiedAt.isSome &&
      r.lastUsedStep.all fun last => decide (last < step)) →
          Table.key .totpCredentials r = .uuid id := by
    intro r hr
    simp only [Bool.and_eq_true, beq_iff_eq] at hr
    exact congrArg Key.uuid hr.1.1
  unfold consume updateRows
  rcases keyed_filter_cases hkeyed hkey with hnil | ⟨r, -, hr, hone⟩
  · left
    rw [hnil]
    exact ⟨rfl, rfl⟩
  · right
    rw [hone]
    simp only [Bool.and_eq_true, beq_iff_eq] at hr
    exact ⟨_, rfl, rfl, hr.1.1, rfl⟩

/-- The first request of a verification. -/
theorem verify_eq (lib : Libs) (key : Bytes) (userId : Uuid) (code : String) (unixTime : Int64) :
    ∃ k, (TotpCall.verify userId code unixTime).program lib key =
        .pool (verifiedSecrets userId) k ∧
      (∀ rows, k (.ok rows) =
        (tryCredentials lib key code unixTime rows >>= fun id => pure (.verified id))) ∧
      ∀ e, k (.error e) = .ret (.error (.database e)) :=
  ⟨_, rfl, fun _ => rfl, fun _ => rfl⟩

/-- A verification takes a step. -/
theorem Verifying.own {p p' : TotpProc} {sh sh' : Shared} {c : Choice Env SqlError}
    (h : Verifying lib key owners userId code unixTime p)
    (hkeyed : Keyed (Table.key .totpCredentials) sh.db.totpCredentials)
    (howners : ∀ r ∈ sh.db.totpCredentials, owners r.id = some (r.userId, r.secretEnc))
    (hs : p.step c sh = some (p', sh')) :
    Verifying lib key owners userId code unixTime p' ∧
      ((p.committed c = [] ∧ ∀ id, p'.prog ≠ .ret (.ok (.verified (some id)))) ∨
        Accepting lib key owners userId code unixTime p c p') := by
  cases h with
  | reading hp =>
    have hquiet : p.committed c = [] := by
      rw [hp]
      unfold Proc.committed
      split <;> rfl
    obtain ⟨k, hprog, hok, herr⟩ := verify_eq lib key userId code unixTime
    rw [hp, hprog] at hs
    simp only [Proc.step] at hs
    split at hs
    · simp only [Option.some.injEq, Prod.mk.injEq] at hs
      obtain ⟨rfl, -⟩ := hs
      rw [herr]
      exact ⟨.done _ rfl, Or.inl ⟨hquiet, by simp⟩⟩
    · have hresult : ∃ rows, (verifiedSecrets userId c.env sh.mem sh.db).result = .ok rows ∧
          ∀ row ∈ rows, owners row.1 = some (userId, row.2) := by
        refine ⟨_, rfl, fun row hrow => ?_⟩
        obtain ⟨r, hr, rfl⟩ := List.mem_map.mp hrow
        obtain ⟨hmem, huser⟩ := List.mem_filter.mp (mem_orderAsc.mp hr)
        simp only [Bool.and_eq_true, beq_iff_eq] at huser
        rw [howners r hmem, huser.1]
      obtain ⟨rows, hrows, howned⟩ := hresult
      have hread : (verifiedSecrets userId c.env sh.mem sh.db).writes = [] ∧
          (verifiedSecrets userId c.env sh.mem sh.db).locks = [] := ⟨rfl, rfl⟩
      simp only [hrows, hread.1, hread.2, List.isEmpty_nil, Bool.and_self, if_true,
        Option.some.injEq, Prod.mk.injEq] at hs
      obtain ⟨rfl, -⟩ := hs
      rw [hok]
      rcases tryCredentials_cases lib key code unixTime rows with
        ⟨r, hr, hnone⟩ | ⟨id, enc, step, hmem, hmatch, htry⟩
      · rw [hr]
        exact ⟨.done r rfl, Or.inl ⟨hquiet, fun id he => hnone id (Prog.ret.inj he)⟩⟩
      · rw [htry]
        exact ⟨.matched id step ⟨enc, howned _ hmem, hmatch⟩ rfl,
          Or.inl ⟨hquiet, by simp [consuming]⟩⟩
  | matched id step hpresented hp =>
    have hquiet : p.committed c = [] := by
      rw [hp]
      unfold Proc.committed
      split <;> rfl
    rw [hp, consuming] at hs
    simp only [Proc.step] at hs
    split at hs
    · simp only [Option.some.injEq, Prod.mk.injEq] at hs
      obtain ⟨rfl, -⟩ := hs
      exact ⟨.done _ rfl, Or.inl ⟨hquiet, by simp [Except.mapError, Except.map]⟩⟩
    · obtain ⟨-, hlocks, ⟨hr, hw⟩ | ⟨row, hr, hw, hid, hstep⟩⟩ :=
        consume_cases c.env sh.mem id step hkeyed
      · simp only [hr, hw, hlocks, List.isEmpty_nil, Bool.and_self, if_true, Option.some.injEq,
          Prod.mk.injEq] at hs
        obtain ⟨rfl, -⟩ := hs
        exact ⟨.done _ rfl, Or.inl ⟨hquiet, by simp [Except.mapError, Except.map]⟩⟩
      · simp only [hr, hw, List.isEmpty_cons, Bool.false_and, Bool.false_eq_true, if_false,
          Option.some.injEq, Prod.mk.injEq] at hs
        obtain ⟨rfl, -⟩ := hs
        refine ⟨.consumed id step hpresented row ⟨hid, hstep⟩ _ (fun r => ?_) _ rfl,
          Or.inl ⟨hquiet, by simp⟩⟩
        cases r <;> rfl
  | consumed id step hpresented row hrow k hk locks hp =>
    rw [hp] at hs ⊢
    simp only [Proc.step] at hs
    split at hs <;> rename_i hfault <;> simp only [Option.some.injEq, Prod.mk.injEq] at hs <;>
      obtain ⟨rfl, -⟩ := hs
    · rw [hk]
      refine ⟨.done _ rfl, Or.inl ⟨by simp [Proc.committed, hfault], ?_⟩⟩
      simp [Except.mapError, Except.map]
    · rw [hk]
      refine ⟨.done _ rfl, Or.inr ⟨id, step, row, hpresented, hrow.1, hrow.2, ?_, rfl, rfl⟩⟩
      simp [Proc.committed, hfault]
  | done r hp =>
    rw [hp] at hs
    simp [Proc.step] at hs

theorem Verifying.mono (hle : ∀ u x, owners u = some x → owners' u = some x) {p : TotpProc}
    (h : Verifying lib key owners userId code unixTime p) :
    Verifying lib key owners' userId code unixTime p := by
  have hpresented : ∀ id step, Presented lib key owners userId code unixTime id step →
      Presented lib key owners' userId code unixTime id step :=
    fun id step ⟨enc, howner, hmatch⟩ => ⟨enc, hle _ _ howner, hmatch⟩
  cases h with
  | reading hp => exact .reading hp
  | matched id step h hp => exact .matched id step (hpresented id step h) hp
  | consumed id step h row hrow k hk locks hp =>
    exact .consumed id step (hpresented id step h) row hrow k hk locks hp
  | done r hp => exact .done r hp

end Verification

/-! ## Runs -/

section Runs

variable {lib : Libs} {key : Bytes} {Pid : Type} [DecidableEq Pid] [Fintype Pid]
  {calls : Pid → TotpCall} {es : List (AuthEvent Pid TotpReply)}
  {w₀ w w' : AuthServer Pid TotpReply} {i : Pid} {c : Choice Env SqlError}

/-- An id of a credential of the beginning, or one that `gen_random_uuid()` gave in a step. -/
def Issued (w₀ : AuthServer Pid TotpReply) (es : List (AuthEvent Pid TotpReply))
    (id : Uuid) : Prop :=
  (∃ row ∈ w₀.sh.db.totpCredentials, row.id = id) ∨ ∃ e ∈ es, e.choice.env.uuid = id

/-- `gen_random_uuid()` gives an id that was not there before. -/
def FreshId (w₀ : AuthServer Pid TotpReply) (es : List (AuthEvent Pid TotpReply))
    (e : AuthEvent Pid TotpReply) : Prop := ¬ Issued w₀ es e.choice.env.uuid

/-- A version of a credential that some transaction sees. -/
abbrev Version (w : AuthServer Pid TotpReply) (row : TotpCredential) : Prop :=
  w.Visible (Table.view .totpCredentials) (.uuid row.id) (some row)

/-- Every version of a credential has the owner and the secret of its id. -/
structure Traced (w₀ : AuthServer Pid TotpReply) (es : List (AuthEvent Pid TotpReply))
    (w : AuthServer Pid TotpReply) (owners : Owners) : Prop where
  known : ∀ row, Version w row → owners row.id = some (row.userId, row.secretEnc)
  issued : ∀ id, owners id ≠ none → Issued w₀ es id

omit [DecidableEq Pid] [Fintype Pid] in
theorem issued_cons (e : AuthEvent Pid TotpReply) {id : Uuid} (h : Issued w₀ es id) :
    Issued w₀ (e :: es) id := h.imp_right fun ⟨e', he', hid⟩ =>
      ⟨e', List.mem_cons_of_mem _ he', hid⟩

omit [DecidableEq Pid] [Fintype Pid] in
theorem version_seen (hsound : Keyed (Table.key .totpCredentials) w.sh.db.totpCredentials) (i : Pid)
    {r : TotpCredential} (hr : r ∈ (applyAll w.sh.db (w.procs i).writes).totpCredentials) :
    Version w r := by
  have hkeyed : Keyed (Table.key .totpCredentials)
      (applyAll w.sh.db (w.procs i).writes).totpCredentials :=
    View.sound_applyAll (𝒱 := Table.view .totpCredentials) hsound _
  have hlook := w.visible_seen (Table.view .totpCredentials) i (.uuid r.id)
  have hget : (Table.view .totpCredentials).look (applyAll w.sh.db (w.procs i).writes)
      (.uuid r.id) = some r := get_of_mem hkeyed hr
  rwa [hget] at hlook

/-- A version after a step: one of before, a later version of one, or a row with the new id. -/
theorem version_step (hsound : Keyed (Table.key .totpCredentials) w.sh.db.totpCredentials)
    (hrules : ∀ i, (w.procs i).prog.Obeys continuing) (hs : w.step i c = some w')
    {row : TotpCredential} (h : Version w' row) :
    Version w row ∨ (∃ r, Version w r ∧ Succeeds r row) ∨
      ((w.procs i).next c w.sh = [.put .totpCredentials row] ∧ row.id = c.env.uuid) := by
  rcases World.visible_step hs h with hold | ⟨u, hu, htarget⟩
  · exact Or.inl hold
  · obtain rfl : u = .put .totpCredentials row := eq_put_of_on htarget
    right
    rcases Proc.next_of_obeys c w.sh (fun env db => Or.inl (by simp)) (hrules i) with
      hall | ⟨row', hone, hid⟩
    · obtain ⟨r, hr, hsucc⟩ := hall row hu
      exact Or.inl ⟨r, version_seen hsound i hr, hsucc⟩
    · rw [hone] at hu
      obtain rfl : row = row' := by simpa using hu
      exact Or.inr ⟨hone, hid⟩

theorem Traced.step {owners : Owners} (h : Traced w₀ es w owners)
    (hsound : Keyed (Table.key .totpCredentials) w.sh.db.totpCredentials)
    (hrules : ∀ i, (w.procs i).prog.Obeys continuing) (hs : w.step i c = some w')
    (hfresh : ¬ Issued w₀ es c.env.uuid) :
    ∃ owners', (∀ u x, owners u = some x → owners' u = some x) ∧
      Traced w₀ (⟨w, i, c, w'⟩ :: es) w' owners' := by
  classical
  have hnone : owners c.env.uuid = none := by
    by_contra hsome
    exact hfresh (h.issued _ hsome)
  by_cases hnew : ∃ row : TotpCredential, (w.procs i).next c w.sh = [.put .totpCredentials row] ∧
      row.id = c.env.uuid
  · obtain ⟨row, hrow, hid⟩ := hnew
    have hle : ∀ u x, owners u = some x →
        Function.update owners c.env.uuid (some (row.userId, row.secretEnc)) u = some x := by
      intro u x hu
      have hne : u ≠ c.env.uuid := by
        intro he
        rw [he, hnone] at hu
        exact absurd hu (by simp)
      rw [Function.update_of_ne hne]
      exact hu
    refine ⟨_, hle, fun r hr => ?_, fun id hne => ?_⟩
    · rcases version_step hsound hrules hs hr with hold | ⟨r₀, hr₀, hsucc⟩ | ⟨hnext, hrid⟩
      · exact hle _ _ (h.known r hold)
      · refine hle _ _ ?_
        rw [hsucc.id, hsucc.userId, hsucc.secretEnc]
        exact h.known r₀ hr₀
      · obtain rfl : row = r := by simpa using hrow.symm.trans hnext
        rw [hid, Function.update_self]
    · by_cases hu : id = c.env.uuid
      · exact Or.inr ⟨_, List.mem_cons_self, hu.symm⟩
      · rw [Function.update_of_ne hu] at hne
        exact issued_cons _ (h.issued id hne)
  · refine ⟨owners, fun _ _ hu => hu, fun r hr => ?_, fun id hne => issued_cons _ (h.issued id hne)⟩
    rcases version_step hsound hrules hs hr with hold | ⟨r₀, hr₀, hsucc⟩ | hnext
    · exact h.known r hold
    · rw [hsucc.id, hsucc.userId, hsucc.secretEnc]
      exact h.known r₀ hr₀
    · exact absurd ⟨r, hnext⟩ hnew

/-- Step `e` is the one at which its call returns. -/
def Returns (e : AuthEvent Pid TotpReply) (r : Except AuthError TotpReply) : Prop :=
  (e.after.procs e.pid).prog = .ret r ∧ ∀ x, (e.before.procs e.pid).prog ≠ .ret x

/-- Step `e` accepts a code: a verification returns the credential, which now has the step. -/
def Accepts (calls : Pid → TotpCall) (e : AuthEvent Pid TotpReply) (cred : Uuid)
    (step : Int) : Prop :=
  (∃ userId code unixTime, calls e.pid = .verify userId code unixTime) ∧
    Returns e (.ok (.verified (some cred))) ∧
    ∃ row ∈ e.after.sh.db.totpCredentials, row.id = cred ∧ row.lastUsedStep = some step

/-- What a verification does to a row: a verified credential takes a newer step. -/
def Consumes (v v' : Option TotpCredential) : Prop :=
  ∃ r step usedAt, v = some r ∧ r.verifiedAt.isSome ∧ (∀ t, r.lastUsedStep = some t → t < step) ∧
    v' = some { r with lastUsedStep := some step, lastUsedAt := some usedAt }

def TotpCall.Changes : TotpCall → Option TotpCredential → Option TotpCredential → Prop
  | .verify .., v, v' => Consumes v v'
  | .manage _, _, _ => True

/-- The requests of a verification. -/
theorem obeys_verify {R : Prog.Rules Env Db Write LockKey Mem SqlError} (lib : Libs) (key : Bytes)
    (userId : Uuid) (code : String) (unixTime : Int64) (hread : R.pool (verifiedSecrets userId))
    (hconsume : ∀ id step, R.pool (consume id step)) :
    ((TotpCall.verify userId code unixTime).program lib key).Obeys R := by
  refine obeys_bind (obeys_bind (obeys_mapError _ ⟨hread, fun _ => trivial⟩) fun rows => ?_)
    fun _ => trivial
  induction rows with
  | nil => trivial
  | cons row rows ih =>
    unfold tryCredentials
    refine obeys_bind trivial fun secret => ?_
    cases Totp.matchedStep lib secret code unixTime with
    | none => exact ih
    | some step =>
      exact obeys_bind (obeys_mapError _ ⟨hconsume row.1 step, fun _ => trivial⟩) fun _ => trivial

theorem continuing_program (lib : Libs) (key : Bytes) (call : TotpCall) :
    (call.program lib key).Obeys continuing := by
  cases call with
  | verify userId code unixTime =>
    exact obeys_verify lib key userId code unixTime
      (fun env m db => Or.inl (by simp [verifiedSecrets, select]))
      fun id step env m db => continues_consume id step
  | manage ops =>
    refine obeys_bind (obeys_mapError _ ⟨trivial, fun _ => trivial⟩) fun _ => ?_
    refine obeys_bind (obeys_inOrder fun p hp => ?_) fun _ =>
      obeys_bind (obeys_mapError _ fun _ => trivial) fun _ => trivial
    obtain ⟨op, -, rfl⟩ := List.mem_map.mp hp
    exact obeys_op lib key op

theorem versioned_program (lib : Libs) (key : Bytes) (call : TotpCall) :
    (call.program lib key).Obeys ((Table.view .totpCredentials).rules fun _ => call.Changes) := by
  cases call with
  | verify userId code unixTime =>
    refine obeys_verify lib key userId code unixTime (fun env m db _ => trivial)
      fun id step env m db hkeyed => lawful_readAs
        (lawful_updateRows m hkeyed (fun _ => rfl) fun r _ hp => ?_)
    simp only [Bool.and_eq_true] at hp
    refine ⟨r, step, env.pgNow, rfl, hp.1.2, fun t ht => ?_, rfl⟩
    rw [ht] at hp
    simpa using hp.2
  | manage ops =>
    exact obeys_all trivial (fun _ _ _ _ _ => View.lawful_true fun _ _ _ => trivial)
      (fun _ _ _ _ _ => View.lawful_true fun _ _ _ => trivial) fun _ => trivial

/-- What holds at every moment of a run. -/
structure Consistent (lib : Libs) (key : Bytes) (calls : Pid → TotpCall)
    (w₀ : AuthServer Pid TotpReply) (es : List (AuthEvent Pid TotpReply))
    (w : AuthServer Pid TotpReply) : Prop where
  versioned : Versioned (Table.view .totpCredentials) (fun i _ => (calls i).Changes) w
  rules : ∀ i, (w.procs i).prog.Obeys continuing
  owners : ∃ owners, Traced w₀ es w owners ∧ ∀ i userId code unixTime,
    calls i = .verify userId code unixTime →
      Verifying lib key owners userId code unixTime (w.procs i)
  /-- A step that was accepted is remembered by every version of its credential. -/
  spent : ∀ e ∈ es, ∀ cred s, Accepts calls e cred s → Issued w₀ es cred ∧
    ∀ row, Version w row → row.id = cred → ∃ t, row.lastUsedStep = some t ∧ s ≤ t

omit [DecidableEq Pid] [Fintype Pid] in
theorem mem_put {db : Db} {row : TotpCredential} (h : w'.sh.db = db.put .totpCredentials row) :
    row ∈ w'.sh.db.totpCredentials := by
  have hget : w'.sh.db.get .totpCredentials (.uuid row.id) = some row := by
    rw [h, get_put]
    exact if_pos rfl
  exact (mem_of_get hget).1

/-- **The step that accepts a code**: the row it changes is verified, belongs to the user and has
    the secret that the code was checked with. -/
theorem Consistent.accepted (h : Consistent lib key calls w₀ es w) (hs : w.step i c = some w')
    {userId : Uuid} {code : String} {unixTime : Int64}
    (hcall : calls i = .verify userId code unixTime) {cred : Uuid}
    (hret : (w'.procs i).prog = .ret (.ok (.verified (some cred)))) :
    ∃ step, ∃ r ∈ w.sh.db.totpCredentials, ∃ row : TotpCredential,
      r.id = cred ∧ r.userId = userId ∧ r.verifiedAt.isSome ∧
      Matches lib key code unixTime r.secretEnc step ∧
      (∀ t, r.lastUsedStep = some t → t < step) ∧ row.id = cred ∧ row.lastUsedStep = some step ∧
      (w.procs i).writes = [.put .totpCredentials row] ∧ (w'.procs i).writes = [] ∧
      w'.sh.db = w.sh.db.put .totpCredentials row := by
  obtain ⟨hstep, -, -⟩ := World.step_spec hs
  obtain ⟨owners, htraced, hverifying⟩ := h.owners
  have hsound : Keyed (Table.key .totpCredentials) w.sh.db.totpCredentials :=
    h.versioned.flight.sound
  have hknown : ∀ r ∈ w.sh.db.totpCredentials, owners r.id = some (r.userId, r.secretEnc) :=
    fun r hr => htraced.known r (Or.inl (get_of_mem hsound hr))
  obtain ⟨-, ⟨-, hne⟩ | ⟨id, step, row, ⟨enc, howner, hmatch⟩, hid, hrow, hcommit, hws, hend⟩⟩ :=
    (hverifying i userId code unixTime hcall).own hsound hknown hstep
  · exact absurd hret (hne cred)
  · obtain rfl : id = cred := by
      rw [hend] at hret
      simpa using hret
    have hdb := Proc.step_db hstep
    have hlawful := h.versioned.flight.committed hs
    rw [hcommit] at hdb hlawful
    have hchange := hlawful.1 _ _ (on_put_self .totpCredentials row)
    simp only [hcall, TotpCall.Changes] at hchange
    obtain ⟨r, step', usedAt, hget, hverified, hnewer, hr⟩ := hchange
    obtain ⟨hmem, hkey⟩ := mem_of_get hget
    obtain rfl := Option.some.inj hr
    have hrid : r.id = id := hid
    have hrow' : step' = step := Option.some.inj hrow
    have hrowner := hknown r hmem
    rw [hrid, howner] at hrowner
    obtain ⟨huser, henc⟩ := Prod.mk.inj (Option.some.inj hrowner)
    refine ⟨step, r, hmem, _, hrid, huser.symm, hverified, henc ▸ hmatch, hrow' ▸ hnewer, hid, hrow,
      hws, ?_, hdb⟩
    rw [hend]
    rfl

/-- The same for a step that is known to accept. -/
theorem Consistent.accepting (h : Consistent lib key calls w₀ es w) (hs : w.step i c = some w')
    {cred : Uuid} {step : Int} (ha : Accepts calls ⟨w, i, c, w'⟩ cred step) :
    ∃ userId code unixTime, calls i = .verify userId code unixTime ∧
      ∃ r ∈ w.sh.db.totpCredentials, ∃ row : TotpCredential,
      r.id = cred ∧ r.userId = userId ∧ r.verifiedAt.isSome ∧
      Matches lib key code unixTime r.secretEnc step ∧
      (∀ t, r.lastUsedStep = some t → t < step) ∧ row.id = cred ∧ row.lastUsedStep = some step ∧
      (w.procs i).writes = [.put .totpCredentials row] ∧ (w'.procs i).writes = [] ∧
      w'.sh.db = w.sh.db.put .totpCredentials row := by
  obtain ⟨⟨userId, code, unixTime, hcall⟩, ⟨hret, -⟩, row', hrow', hid', hs'⟩ := ha
  obtain ⟨step', r, hr, row, hrid, huser, hverified, hmatch, hnewer, hid, hstep, hws, hend, hdb⟩ :=
    h.accepted hs hcall hret
  have hkeyed : Keyed (Table.key .totpCredentials) w'.sh.db.totpCredentials :=
    (h.versioned.step hs).flight.sound
  have hsame : row' = row :=
    hkeyed.eq hrow' (mem_put hdb) (congrArg Key.uuid (hid'.trans hid.symm))
  obtain rfl : step' = step := Option.some.inj (hstep.symm.trans (hsame ▸ hs'))
  exact ⟨userId, code, unixTime, hcall, r, hr, row, hrid, huser, hverified, hmatch,
    hnewer, hid, hstep, hws, hend, hdb⟩

/-- After a step that accepts, every version of the credential remembers the step. -/
theorem Consistent.remembers (h : Consistent lib key calls w₀ es w) (hs : w.step i c = some w')
    {cred : Uuid} {s : Int} (ha : Accepts calls ⟨w, i, c, w'⟩ cred s) :
    Issued w₀ es cred ∧ ∀ row, Version w' row → row.id = cred →
      ∃ t, row.lastUsedStep = some t ∧ s ≤ t := by
  obtain ⟨-, -, hsame⟩ := World.step_spec hs
  obtain ⟨-, -, -, -, r, hr, row, hrid, -, -, -, -, hid, hstep, hws, hend, hdb⟩ := h.accepting hs ha
  have hsound : Keyed (Table.key .totpCredentials) w.sh.db.totpCredentials :=
    h.versioned.flight.sound
  constructor
  · obtain ⟨owners, htraced, -⟩ := h.owners
    refine htraced.issued cred ?_
    rw [← hrid, htraced.known r (Or.inl (get_of_mem hsound hr))]
    simp
  · intro x hx hxid
    have hkey : Table.key .totpCredentials row = .uuid x.id :=
      congrArg Key.uuid (hid.trans hxid.symm)
    rcases hx with hx | ⟨j, u, hu, htarget⟩
    · obtain rfl : row = x := by
        have hget : w'.sh.db.get .totpCredentials (.uuid x.id) = some x := hx
        rw [hdb, get_put, if_pos hkey] at hget
        exact Option.some.inj hget
      exact ⟨s, hstep, le_refl s⟩
    · exfalso
      obtain rfl : u = .put .totpCredentials x := eq_put_of_on htarget
      by_cases hj : j = i
      · rw [hj, hend] at hu
        exact absurd hu (by simp)
      · rw [hsame j hj] at hu
        have hone : Write.put .totpCredentials row ∈ (w.procs i).writes := by
          rw [hws]
          exact List.mem_cons_self
        exact h.versioned.flight.orderly.apart hj hu hone
          (congrArg (LockKey.row .totpCredentials) hkey.symm)

theorem Consistent.step (h : Consistent lib key calls w₀ es w) (hs : w.step i c = some w')
    (hfresh : FreshId w₀ es ⟨w, i, c, w'⟩) :
    Consistent lib key calls w₀ (⟨w, i, c, w'⟩ :: es) w' := by
  obtain ⟨hstep, -, hsame⟩ := World.step_spec hs
  have hsound : Keyed (Table.key .totpCredentials) w.sh.db.totpCredentials :=
    h.versioned.flight.sound
  obtain ⟨owners, htraced, hverifying⟩ := h.owners
  obtain ⟨owners', hle, htraced'⟩ := htraced.step hsound h.rules hs hfresh
  refine ⟨h.versioned.step hs, fun j => ?_, ⟨owners', htraced', ?_⟩, ?_⟩
  · by_cases hj : j = i
    · subst hj
      exact Proc.obeys_step hstep (h.rules j)
    · rw [hsame j hj]
      exact h.rules j
  · intro j userId code unixTime hcall
    refine Verifying.mono hle ?_
    by_cases hj : j = i
    · subst hj
      exact ((hverifying j userId code unixTime hcall).own hsound
        (fun r hr => htraced.known r (Or.inl (get_of_mem hsound hr))) hstep).1
    · rw [hsame j hj]
      exact hverifying j userId code unixTime hcall
  · intro e he cred s ha
    rcases List.mem_cons.mp he with rfl | he
    · obtain ⟨hissued, hrows⟩ := h.remembers hs ha
      exact ⟨issued_cons _ hissued, hrows⟩
    · obtain ⟨hissued, hrows⟩ := h.spent e he cred s ha
      refine ⟨issued_cons _ hissued, fun row hrow hid => ?_⟩
      rcases version_step hsound h.rules hs hrow with hold | ⟨r, hr, hsucc⟩ | ⟨-, hnew⟩
      · exact hrows row hold hid
      · obtain ⟨t, ht, hst⟩ := hrows r hr (hsucc.id.symm.trans hid)
        obtain ⟨t', ht', htt'⟩ := hsucc.lastUsedStep t ht
        exact ⟨t', ht', le_trans hst htt'⟩
      · rw [← hid, hnew] at hissued
        exact absurd hissued hfresh

/-- The calls have not begun, and ids of credentials are unique. -/
structure Beginning (lib : Libs) (key : Bytes) (calls : Pid → TotpCall)
    (w₀ : AuthServer Pid TotpReply) : Prop where
  procs : ∀ i, w₀.procs i = ⟨(calls i).program lib key, none⟩
  ids : Keyed (Table.key .totpCredentials) w₀.sh.db.totpCredentials

theorem consistent_trace (hb : Beginning lib key calls w₀) (ht : World.Trace (FreshId w₀) w₀ es w) :
    Consistent lib key calls w₀ es w := by
  induction ht with
  | start =>
    have hnone : ∀ i, (w₀.procs i).tx = none := fun i => by rw [hb.procs i]
    have hversion : ∀ row, Version w₀ row → row ∈ w₀.sh.db.totpCredentials := by
      intro row hrow
      rcases hrow with hrow | ⟨j, u, hu, -⟩
      · exact (mem_of_get hrow).1
      · rw [hb.procs j] at hu
        exact absurd hu (by simp)
    refine ⟨⟨.start hnone hb.ids, fun i => ?_⟩, fun i => ?_, ?_, by simp⟩
    · rw [hb.procs i]
      exact versioned_program lib key (calls i)
    · rw [hb.procs i]
      exact continuing_program lib key (calls i)
    · refine ⟨fun id => (w₀.sh.db.get .totpCredentials (.uuid id)).map fun r =>
        (r.userId, r.secretEnc),
        ⟨fun row hrow => ?_, fun id hid => ?_⟩, fun i userId code unixTime hcall => ?_⟩
      · show Option.map _ (w₀.sh.db.get .totpCredentials (Table.key .totpCredentials row)) = _
        rw [get_of_mem hb.ids (hversion row hrow)]
        rfl
      · left
        cases hget : w₀.sh.db.get .totpCredentials (.uuid id) with
        | none =>
          rw [hget] at hid
          exact absurd rfl hid
        | some r => exact ⟨r, (mem_of_get hget).1, Key.uuid.inj (mem_of_get hget).2⟩
      · exact .reading (by rw [hb.procs i, hcall])
  | step i c _ hs hfresh ih => exact ih.step hs hfresh

/-- What a run of verifications and enrollments guarantees. -/
structure SingleUse (lib : Libs) (key : Bytes) (calls : Pid → TotpCall)
    (es : List (AuthEvent Pid TotpReply)) (w : AuthServer Pid TotpReply) : Prop where
  /-- The steps accepted of a credential increase; the latest event comes first. -/
  increasing : es.Pairwise fun later earlier => ∀ cred s s', Accepts calls earlier cred s →
    Accepts calls later cred s' → s < s'
  /-- A call that returns a credential has accepted a step of it. -/
  accepts : ∀ e ∈ es, ∀ userId code unixTime cred, calls e.pid = .verify userId code unixTime →
    Returns e (.ok (.verified (some cred))) → ∃ step, Accepts calls e cred step
  /-- An accepted code is the one of the step, under the secret of a verified credential of the
      user, and the step is next to the presented time. -/
  valid : ∀ e ∈ es, ∀ cred step, Accepts calls e cred step → ∃ userId code unixTime,
    calls e.pid = .verify userId code unixTime ∧
    ∃ row ∈ e.before.sh.db.totpCredentials, row.id = cred ∧ row.userId = userId ∧
      row.verifiedAt.isSome ∧ ∃ secret, Secretbox.open lib key row.secretEnc = .ok secret ∧
        trim code = Totp.formatCode (Totp.hotp lib secret (UInt64.ofInt step)) ∧ 0 ≤ step ∧
        Totp.timeStep unixTime - 1 ≤ step ∧ step ≤ Totp.timeStep unixTime + 1
  /-- A call that returns nothing has changed nothing. -/
  refused : ∀ i userId code unixTime, calls i = .verify userId code unixTime →
    (w.procs i).prog = .ret (.ok (.verified none)) →
    ∀ e ∈ es, e.pid = i → e.after.sh.db = e.before.sh.db

/-- The steps of a verification change no table, until it has accepted a code. -/
theorem quiet_trace (hb : Beginning lib key calls w₀) (ht : World.Trace (FreshId w₀) w₀ es w)
    {userId : Uuid} {code : String} {unixTime : Int64}
    (hcall : calls i = .verify userId code unixTime) :
    (∀ e ∈ es, e.pid = i → e.after.sh.db = e.before.sh.db) ∨
      ∃ id, w.procs i = ⟨.ret (.ok (.verified (some id))), none⟩ := by
  induction ht with
  | start => exact Or.inl (by simp)
  | @step es w w' j c ht hs hfresh ih =>
    have h := consistent_trace hb ht
    obtain ⟨hstep, -, hsame⟩ := World.step_spec hs
    by_cases hj : i = j
    · subst hj
      rcases ih with hquiet | ⟨id, hdone⟩
      · have hsound : Keyed (Table.key .totpCredentials) w.sh.db.totpCredentials :=
          h.versioned.flight.sound
        obtain ⟨owners, htraced, hverifying⟩ := h.owners
        obtain ⟨-, ⟨hnone, -⟩ | ⟨id, -, -, -, -, -, -, -, hend⟩⟩ :=
          (hverifying i userId code unixTime hcall).own hsound
            (fun r hr => htraced.known r (Or.inl (get_of_mem hsound hr))) hstep
        · left
          intro e he hpid
          rcases List.mem_cons.mp he with rfl | he
          · rw [Proc.step_db hstep, hnone, applyAll_nil]
          · exact hquiet e he hpid
        · exact Or.inr ⟨id, hend⟩
      · rw [hdone] at hstep
        simp [Proc.step] at hstep
    · rw [hsame i hj]
      refine ih.imp_left fun hquiet e he hpid => ?_
      rcases List.mem_cons.mp he with rfl | he
      · exact absurd hpid.symm hj
      · exact hquiet e he hpid

/-- **One-time codes are used once**, in every run of verifications, enrollments and changes. -/
theorem codes_single_use (hb : Beginning lib key calls w₀) (ht : World.Trace (FreshId w₀) w₀ es w) :
    SingleUse lib key calls es w := by
  refine ⟨?_, fun e he userId code unixTime cred hcall hret => ?_, fun e he cred step ha => ?_,
    fun i userId code unixTime hcall hret => ?_⟩
  · induction ht with
    | start => exact .nil
    | @step es w w' i c ht hs hfresh ih =>
      refine .cons (fun e he cred s s' ha ha' => ?_) ih
      have h := consistent_trace hb ht
      obtain ⟨-, -, -, -, r, hr, row, hrid, -, -, -, hnewer, -⟩ := h.accepting hs ha'
      obtain ⟨t, ht', hle⟩ := (h.spent e he cred s ha).2 r
        (Or.inl (get_of_mem h.versioned.flight.sound hr)) hrid
      have := hnewer t ht'
      omega
  · obtain ⟨es', -, ht', hs, -⟩ := ht.event he
    obtain ⟨step, r, hr, row, -, -, -, -, -, hid, hstep, -, -, hdb⟩ :=
      (consistent_trace hb ht').accepted hs hcall hret.1
    exact ⟨step, ⟨userId, code, unixTime, hcall⟩, hret, row, mem_put hdb, hid, hstep⟩
  · obtain ⟨es', -, ht', hs, -⟩ := ht.event he
    obtain ⟨userId, code, unixTime, hcall, r, hr, row, hrid, huser, hverified,
        ⟨secret, hopen, hmatch⟩, -⟩ :=
      (consistent_trace hb ht').accepting hs ha
    obtain ⟨hnonneg, hfrom, hto, hcode⟩ := Totp.matchedStep_spec hmatch
    exact ⟨userId, code, unixTime, hcall, r, hr, hrid, huser, hverified, secret, hopen,
      hcode, hnonneg, hfrom, hto⟩
  · rcases quiet_trace hb ht hcall with hquiet | ⟨id, hdone⟩
    · exact hquiet
    · rw [hdone] at hret
      exact absurd hret (by simp)

omit [DecidableEq Pid] [Fintype Pid] in
theorem issued_nil {id : Uuid} (h : ∀ row ∈ w₀.sh.db.totpCredentials, row.id ≠ id) :
    ¬ Issued w₀ [] id := by
  rintro (⟨row, hrow, hid⟩ | ⟨e, he, -⟩)
  · exact h row hrow hid
  · exact absurd he (by simp)

/-- A schedule in which no id is given twice. -/
theorem trace_fresh {cs : List (Pid × Choice Env SqlError)} (ht : World.Trace (FreshId w₀) w₀ es w)
    (hids : ∀ a ∈ cs, ¬ Issued w₀ es a.2.env.uuid)
    (hnodup : (cs.map fun a => a.2.env.uuid).Nodup) (h : w.follow cs = some w') :
    ∃ es', World.Trace (FreshId w₀) w₀ es' w' := by
  induction cs generalizing es w with
  | nil =>
    simp only [World.follow, Option.some.injEq] at h
    exact ⟨es, h ▸ ht⟩
  | cons a cs ih =>
    simp only [World.follow, Option.bind_eq_some_iff] at h
    obtain ⟨w₁, h₁, h₂⟩ := h
    obtain ⟨ha, hcs⟩ := List.nodup_cons.mp hnodup
    refine ih (ht.step a.1 a.2 h₁ (hids a List.mem_cons_self)) (fun b hb => ?_) hcs h₂
    rintro (hrow | ⟨e, he, hid⟩)
    · exact hids b (List.mem_cons_of_mem _ hb) (Or.inl hrow)
    · rcases List.mem_cons.mp he with rfl | he
      · exact ha (List.mem_map.mpr ⟨b, hb, hid.symm⟩)
      · exact hids b (List.mem_cons_of_mem _ hb) (Or.inr ⟨e, he, hid⟩)

end Runs

/-! ## One code, presented twice -/

def sampleKey : Bytes := List.replicate 32 7

/-- Ann's authenticator. -/
def annTotp : TotpCredential where
  id := Sample.uuid 8
  userId := Sample.ann.id
  label := "Phone"
  secretEnc := List.replicate 24 0 ++ sampleKey ++ List.replicate 20 0
  createdAt := ⟨0⟩
  verifiedAt := some ⟨0⟩
  lastUsedAt := none
  lastUsedStep := none

/-- Two sign-ins present the same code in the same second. -/
def twice (_ : Bool) : TotpCall :=
  .verify Sample.ann.id (Totp.codeAt Libs.sample (List.replicate 20 0) 61) 61

def presented : AuthServer Bool TotpReply where
  procs i := ⟨(twice i).program Libs.sample sampleKey, none⟩
  sh :=
    { db := ⟨fun
        | .users => [Sample.ann]
        | .totpCredentials => [annTotp]
        | _ => []⟩
      mem := Mem.fresh }

theorem presented_beginning : Beginning Libs.sample sampleKey twice presented where
  procs _ := rfl
  ids := by decide

/-- Both read the secret before one of them consumes the step. -/
def race : List (Bool × Choice Env SqlError) :=
  [(false, Sample.calm 10), (true, Sample.calm 11), (false, Sample.calm 12),
    (false, Sample.calm 13), (true, Sample.calm 14)]

/-- The theorem for the two sign-ins. -/
theorem codes_single_use_twice : ∃ es w, World.Trace (FreshId presented) presented es w ∧
    w.sh.db.totpCredentials.map TotpCredential.lastUsedStep = [some 2] ∧
    SingleUse Libs.sample sampleKey twice es w := by
  have hrun : (presented.follow race).isSome := by decide +kernel
  obtain ⟨w, hw⟩ := Option.isSome_iff_exists.mp hrun
  have hids : ∀ a ∈ race, ∀ row ∈ presented.sh.db.totpCredentials, row.id ≠ a.2.env.uuid := by
    decide +kernel
  have hnodup : (race.map fun a => a.2.env.uuid).Nodup := by decide +kernel
  have hstep : (presented.reach race).sh.db.totpCredentials.map TotpCredential.lastUsedStep =
      [some 2] := by decide +kernel
  obtain ⟨es, ht⟩ := trace_fresh .start (fun a ha => issued_nil (hids a ha)) hnodup hw
  refine ⟨es, w, ht, ?_, codes_single_use presented_beginning ht⟩
  rwa [World.reach, hw] at hstep

end SylvaServer.UserTotp
