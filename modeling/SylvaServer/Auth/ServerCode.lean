/-
  The recovery code of the server.

  Transactions put in the first code and rotate it, any number of them side by side, and each
  commits or rolls back. Whoever inserts or marks a row holds the entry of
  `recovery_codes_one_active` until its transaction ends, so the hashes of the active rows change
  from what a transaction presented to what it put in, in one commit.

  Proved: what a transaction does to the active row (`safe_program`), and in every run: at most one
  row is active, exactly one once a code is in, a committed rotation presented the code before it,
  and `verify` finds the newest code and no other (`one_server_code`). Rotations that present one
  code can both commit if the first puts the same code in again (`same_code_rotated_twice`).
-/
import SylvaServer.Model.Context
import SylvaServer.Model.RecoveryCode
import SylvaServer.Model.Views
import SylvaServer.ReadCommitted.Logic
import Mathlib.Data.Fintype.Basic

namespace SylvaServer.RecoveryCode

open ReadCommitted ReadCommitted.Prog

/-! ## Transactions -/

/-- A code of the server is put in, or replaced. -/
inductive CodeOp where
  | bootstrap (rawCode : String) (byUserId : Option Uuid)
  | rotate (currentRaw newRaw : String) (byUserId : Uuid)

/-- What it answers. -/
inductive CodeResult where
  | bootstrapped (id : Uuid)
  | rotated (ids : Option (Uuid × Uuid))

namespace CodeOp

def run (lib : Libs) : CodeOp → Query CodeResult
  | .bootstrap rawCode byUserId => do
    let id ← RecoveryCode.bootstrap lib rawCode byUserId
    pure (.bootstrapped id)
  | .rotate currentRaw newRaw byUserId => do
    let ids ← RecoveryCode.rotate lib currentRaw newRaw byUserId
    pure (.rotated ids)

/-- The code that has to be active. -/
def presented : CodeOp → Option String
  | .bootstrap .. => none
  | .rotate currentRaw .. => some currentRaw

/-- The code that is active afterwards. -/
def installed : CodeOp → String
  | .bootstrap rawCode _ => rawCode
  | .rotate _ newRaw _ => newRaw

end CodeOp

/-- A code was put in. -/
def CodeResult.isNew : CodeResult → Bool
  | .bootstrapped _ => true
  | .rotated ids => ids.isSome

/-- A transaction; whether it commits depends on what its operation answers. -/
structure CodeTx where
  op : CodeOp
  commits : Except SqlError CodeResult → Bool

namespace CodeTx

/-- What comes after the operation. -/
def finish (t : CodeTx) (r : Except SqlError CodeResult) : Query CodeResult :=
  if t.commits r then do
    commitTx
    Prog.ofExcept r
  else Prog.ofExcept r

def program (lib : Libs) (t : CodeTx) : Query CodeResult := do
  beginTx
  let r ← (t.op.run lib).attempt
  t.finish r

end CodeTx

/-! ## Active rows -/

def actives (db : Db) : List SylvaServer.RecoveryCode :=
  db.recoveryCodes.filter (·.rotatedAt == none)

/-- The hashes of the active rows. -/
def hashes (db : Db) : List Bytes := (actives db).map (·.codeHash)

theorem hashes_congr {db db' : Db} (h : db'.recoveryCodes = db.recoveryCodes) :
    hashes db' = hashes db := by
  unfold hashes actives
  rw [h]

/-- Ids are keys, and at most one row is active. -/
structure Single (db : Db) : Prop where
  keyed : Keyed (Table.key .recoveryCodes) db.recoveryCodes
  one : (hashes db).length ≤ 1

/-- The insert fails, or no row was active and the new one is. -/
theorem insert_spec (codeHash : Bytes) (byUserId : Option Uuid) (env : Env) (mem : Mem) (db : Db)
    (hkeyed : Keyed (Table.key .recoveryCodes) db.recoveryCodes) :
    (∃ e, insert codeHash byUserId env mem db = failed e mem) ∨
      ∃ id, (insert codeHash byUserId env mem db).result = .ok id ∧
        .activeRecoveryCode ∈ (insert codeHash byUserId env mem db).locks ∧ hashes db = [] ∧
        hashes (applyAll db (insert codeHash byUserId env mem db).writes) = [codeHash] ∧
        Single (applyAll db (insert codeHash byUserId env mem db).writes) := by
  unfold insert
  set row : SylvaServer.RecoveryCode :=
    { id := env.uuid
      codeHash := codeHash
      createdAt := env.pgNow
      createdByUserId := byUserId
      rotatedAt := none
      rotatedByUserId := none } with hrow
  rcases insertRow_cases .recoveryCodes row (db.recoveryCodes.any (·.rotatedAt == none))
      (byUserId.toList.map fun id => (.users, .uuid id)) [.activeRecoveryCode] mem db with
    ⟨e, he⟩ | ⟨heq, hfree, hnone, -⟩
  · rw [he]
    exact Or.inl ⟨e, rfl⟩
  · rw [heq]
    have hempty : actives db = [] := by
      refine List.filter_eq_nil_iff.mpr fun r hr => ?_
      exact List.any_eq_false.mp hnone r hr
    have htable : (applyAll db [Write.put .recoveryCodes row]).recoveryCodes =
        db.recoveryCodes ++ [row] :=
      put_rows_fresh hfree
    have hactives : actives (applyAll db [Write.put .recoveryCodes row]) = [row] := by
      unfold actives at hempty ⊢
      rw [htable, List.filter_append, hempty]
      rfl
    refine Or.inr ⟨env.uuid, rfl, by simp [readAs, Except.bind], ?_, ?_, ?_, ?_⟩
    · rw [hashes, hempty]
      rfl
    · show hashes (applyAll db [Write.put .recoveryCodes row]) = _
      rw [hashes, hactives]
      rfl
    · show Keyed _ (applyAll db [Write.put .recoveryCodes row]).recoveryCodes
      rw [Db.recoveryCodes, applyAll_cons, applyAll_nil]
      exact (put_rows_self db .recoveryCodes row).symm ▸ keyed_putRow hkeyed
    · show (hashes (applyAll db [Write.put .recoveryCodes row])).length ≤ 1
      rw [hashes, hactives]
      exact le_rfl

/-- The rows that `markRotated` looks for. -/
def matching (currentHash : Bytes) (row : SylvaServer.RecoveryCode) : Bool :=
  row.rotatedAt == none && row.codeHash == currentHash

theorem actives_of_matching {currentHash : Bytes} {db : Db} (h : Single db)
    {r : SylvaServer.RecoveryCode} (hr : r ∈ db.recoveryCodes.filter (matching currentHash)) :
    actives db = [r] ∧ r.codeHash = currentHash := by
  obtain ⟨hmem, hmatch⟩ := List.mem_filter.mp hr
  simp only [matching, Bool.and_eq_true, beq_iff_eq] at hmatch
  have hactive : r ∈ actives db := List.mem_filter.mpr ⟨hmem, by simp [hmatch.1]⟩
  have hlen : (actives db).length ≤ 1 := by
    have hone := h.one
    rwa [hashes, List.length_map] at hone
  refine ⟨?_, hmatch.2⟩
  cases hrows : actives db with
  | nil =>
    rw [hrows] at hactive
    exact absurd hactive (by simp)
  | cons x xs =>
    rw [hrows] at hactive hlen
    have hnil : xs = [] := List.eq_nil_of_length_eq_zero (by simpa using hlen)
    rw [hnil] at hactive ⊢
    rw [List.mem_singleton.mp hactive]

/-- Nothing is marked, or the one active row, which has the hash, is active no more. -/
theorem markRotated_spec (currentHash : Bytes) (byUserId : Uuid) (env : Env) (mem : Mem) {db : Db}
    (h : Single db) :
    (∃ e, (markRotated currentHash byUserId env mem db).result = .error e) ∨
      ((markRotated currentHash byUserId env mem db).result = .ok none ∧
        (markRotated currentHash byUserId env mem db).writes = []) ∨
      ∃ id, (markRotated currentHash byUserId env mem db).result = .ok (some id) ∧
        .activeRecoveryCode ∈ (markRotated currentHash byUserId env mem db).locks ∧
        hashes db = [currentHash] ∧
        hashes (applyAll db (markRotated currentHash byUserId env mem db).writes) = [] ∧
        Keyed (Table.key .recoveryCodes)
          (applyAll db (markRotated currentHash byUserId env mem db).writes).recoveryCodes := by
  set f : SylvaServer.RecoveryCode → SylvaServer.RecoveryCode := fun row =>
    { row with rotatedAt := some env.pgNow, rotatedByUserId := some byUserId } with hf
  by_cases hdangling : (db.recoveryCodes.any (matching currentHash) &&
    db.dangles (.users, .uuid byUserId)) = true
  · left
    refine ⟨foreignKeyViolation, ?_⟩
    unfold markRotated
    exact congrArg Outcome.result (if_pos hdangling)
  right
  have heq : markRotated currentHash byUserId env mem db =
      readAs (fun rows => .ok (rows.head?.map (·.id)))
        { updateRows .recoveryCodes (matching currentHash) f mem db with
          locks := (db.recoveryCodes.filter (matching currentHash)).flatMap fun row =>
            [.activeRecoveryCode, .keyShare .users (.uuid byUserId) .recoveryCodes
                (.uuid row.id)] } := by
    unfold markRotated
    exact if_neg hdangling
  cases hrows : db.recoveryCodes.filter (matching currentHash) with
  | nil =>
    left
    have hnone : updateRows .recoveryCodes (matching currentHash) f mem db =
        { result := .ok [], writes := [], locks := [], mem := mem } := by
      show Outcome.mk (.ok ((db.recoveryCodes.filter (matching currentHash)).map f))
        (((db.recoveryCodes.filter (matching currentHash)).map f).map (Write.put .recoveryCodes))
          [] mem = _
      rw [hrows]
      rfl
    rw [heq, hnone]
    exact ⟨rfl, rfl⟩
  | cons r rs =>
    right
    obtain ⟨hactives, hhash⟩ := actives_of_matching h (hrows ▸ List.mem_cons_self : r ∈ _)
    have hresult : (updateRows .recoveryCodes (matching currentHash) f mem db).result =
        .ok (f r :: rs.map f) := by
      show Except.ok ((db.recoveryCodes.filter (matching currentHash)).map f) = _
      rw [hrows]
      rfl
    have heq := heq.trans (readAs_ok hresult rfl)
    have hwrites : (markRotated currentHash byUserId env mem db).writes =
        (updateRows .recoveryCodes (matching currentHash) f mem db).writes := by rw [heq]
    have htable := updateRows_rows (t := .recoveryCodes) (p := matching currentHash)
        (f := f) mem h.keyed fun _ => rfl
    refine ⟨r.id, ?_, ?_, ?_, ?_, ?_⟩
    · rw [heq]
      rfl
    · rw [heq, hrows]
      exact List.mem_cons_self
    · rw [hashes, hactives, ← hhash]
      rfl
    · rw [hwrites, hashes, List.map_eq_nil_iff]
      refine List.filter_eq_nil_iff.mpr fun y hy => ?_
      have hy' : y ∈ db.recoveryCodes.map fun r => if matching currentHash r then f r
          else r := htable ▸ hy
      obtain ⟨x, hx, rfl⟩ := List.mem_map.mp hy'
      split
      · simp [hf]
      · next hno =>
        intro hxa
        have hxr : x ∈ actives db := List.mem_filter.mpr ⟨hx, hxa⟩
        rw [hactives, List.mem_singleton] at hxr
        refine hno ?_
        rw [hxr]
        exact (List.mem_filter.mp (hrows ▸ List.mem_cons_self : r ∈ _)).2
    · rw [hwrites]
      show Keyed _
          ((applyAll db (updateRows .recoveryCodes (matching currentHash) f mem db).writes).rows
            .recoveryCodes)
      rw [htable]
      refine keyed_map h.keyed fun r => ?_
      split <;> rfl

/-! ## The contract of a transaction -/

/-- A transaction at work on the code of the server. -/
abbrev CodeProc := Proc Env Db Write LockKey Mem SqlError SqlError CodeResult

/-- The step commits a transaction that has put a code in. -/
def installsStep (p p' : CodeProc) : Bool :=
  match p.prog, p'.prog with
  | .commit _, .ret (.ok r) => r.isNew
  | _, _ => false

/-- The active row before had the hash of the code presented, the one after has that of the new
    code. -/
def Installed (lib : Libs) (op : CodeOp) (db db' : Db) : Prop :=
  hashes db = op.presented.toList.map (hashCode lib) ∧ hashes db' = [hashCode lib op.installed]

/-- Codes change by commits that put one in, and only who holds the index entry does that. -/
def codeContract (lib : Libs) (op : CodeOp) :
    Contract Env Db Write LockKey Mem SqlError SqlError CodeResult where
  inv sh := Single sh.db
  rely p sh sh' := .activeRecoveryCode ∈ p.locks → sh'.db.recoveryCodes = sh.db.recoveryCodes
  guar p sh p' sh' := Single sh'.db ∧
    (installsStep p p' = true → Installed lib op sh.db sh'.db) ∧
    (installsStep p p' = false ∨ .activeRecoveryCode ∉ p.locks →
      sh'.db.recoveryCodes = sh.db.recoveryCodes)
  done _ _ := True

section Safety

variable {lib : Libs} {op : CodeOp} {sh : Shared} {ws : List Write} {ls : List LockKey}

theorem code_quiet {p p' : CodeProc} {sh' : Shared} (h : Single sh.db) (hdb : sh'.db = sh.db)
    (hstep : installsStep p p' = false) : (codeContract lib op).guar p sh p' sh' := by
  refine ⟨hdb ▸ h, fun hs => ?_, fun _ => by rw [hdb]⟩
  rw [hstep] at hs
  exact absurd hs (by simp)

theorem code_ret (r : Except SqlError CodeResult) (tx : Option (Tx Write LockKey)) :
    Safe (codeContract lib op) ⟨.ret r, tx⟩ sh :=
  .ret (fun _ _ hinv _ => code_quiet hinv rfl rfl) fun _ _ _ _ _ _ => trivial

/-- The commit at the end. -/
theorem commit_ofExcept (r : Except SqlError CodeResult) :
    (do commitTx; Prog.ofExcept r : Query CodeResult) = .commit fun
      | .ok () => .ret r
      | .error e => .ret (.error e) := by
  refine congrArg Prog.commit (funext fun x => ?_)
  cases x <;> rfl

/-- A transaction that has put nothing in. -/
theorem code_finish_quiet (t : CodeTx) {r : Except SqlError CodeResult}
    (hr : ∀ a, r = .ok a → a.isNew = false) :
    Safe (codeContract lib op) ⟨t.finish r, some (.active [] ls)⟩ sh := by
  unfold CodeTx.finish
  split
  · rw [commit_ofExcept]
    refine .commit fun sh₁ hinv _ => ⟨fun e => ⟨code_quiet hinv rfl rfl, code_ret _ _⟩,
      ?_, code_ret _ _⟩
    refine code_quiet hinv rfl ?_
    cases r with
    | error e => rfl
    | ok a => exact hr a rfl
  · exact code_ret _ _

theorem code_finish_aborted (t : CodeTx) (e : SqlError) :
    Safe (codeContract lib op) ⟨t.finish (.error e), some .aborted⟩ sh := by
  unfold CodeTx.finish
  split
  · rw [commit_ofExcept]
    refine .commit_aborted fun sh₁ hinv _ r => ?_
    cases r with
    | error e' => exact ⟨code_quiet hinv rfl rfl, code_ret _ _⟩
    | ok u => exact ⟨code_quiet hinv rfl rfl, code_ret _ _⟩
  · exact code_ret _ _

/-- The transaction holds the index entry; `A` are the hashes of the active rows, `B` those it has
    made of them. -/
structure Changed (A B : List Bytes) (ws : List Write) (ls : List LockKey)
    (sh : Shared) : Prop where
  lock : .activeRecoveryCode ∈ ls
  before : hashes sh.db = A
  after : hashes (applyAll sh.db ws) = B
  keyed : Keyed (Table.key .recoveryCodes) (applyAll sh.db ws).recoveryCodes

theorem Changed.stable {A B : List Bytes} {sh₁ : Shared} (h : Changed A B ws ls sh)
    (hr : .activeRecoveryCode ∈ ls → sh₁.db.recoveryCodes = sh.db.recoveryCodes) :
    Changed A B ws ls sh₁ := by
  have hsame := hr h.lock
  have hview : (applyAll sh₁.db ws).recoveryCodes = (applyAll sh.db ws).recoveryCodes :=
    applyAll_rows_congr ws hsame
  refine ⟨h.lock, ?_, ?_, ?_⟩
  · rw [hashes_congr hsame]
    exact h.before
  · rw [hashes_congr hview]
    exact h.after
  · rw [hview]
    exact h.keyed

/-- A transaction that has put its code in. -/
theorem code_finish_changed (t : CodeTx) {a : CodeResult} (ha : a.isNew = true)
    (h : Changed (op.presented.toList.map (hashCode lib)) [hashCode lib op.installed] ws ls sh) :
    Safe (codeContract lib op) ⟨t.finish (.ok a), some (.active ws ls)⟩ sh := by
  unfold CodeTx.finish
  split
  · rw [commit_ofExcept]
    refine .commit fun sh₁ hinv hr => ⟨fun e => ⟨code_quiet hinv rfl rfl, code_ret _ _⟩,
      ?_, code_ret _ _⟩
    have h₁ := h.stable hr
    refine ⟨⟨h₁.keyed, by rw [h₁.after]; exact le_rfl⟩, fun _ => ⟨h₁.before, h₁.after⟩,
      fun hor => ?_⟩
    rcases hor with hno | hno
    · exact absurd (ha.symm.trans hno) (by simp)
    · exact absurd h₁.lock hno
  · exact code_ret _ _

/-- The first code. -/
theorem code_bootstrap (t : CodeTx) (rawCode : String) (byUserId : Option Uuid) :
    Safe (codeContract lib (.bootstrap rawCode byUserId))
      ⟨((CodeOp.bootstrap rawCode byUserId).run lib).attempt >>= t.finish,
        some (.active [] [])⟩ sh := by
  have hprog : ((CodeOp.bootstrap rawCode byUserId).run lib).attempt >>= t.finish =
      .stmt (insert (hashCode lib rawCode) byUserId) fun
        | .ok id => t.finish (.ok (.bootstrapped id))
        | .error e => t.finish (.error e) := by
    refine congrArg (Prog.stmt _) (funext fun x => ?_)
    cases x <;> rfl
  rw [hprog]
  refine .stmt fun sh₁ hinv _ => ⟨fun e => ⟨code_quiet hinv rfl rfl, code_finish_aborted t e⟩,
    fun env o ho => ?_⟩
  subst ho
  rcases insert_spec (hashCode lib rawCode) byUserId env sh₁.mem
      (applyAll sh₁.db ([] : List Write)) hinv.keyed with
    ⟨e, he⟩ | ⟨id, hid, hlock, hnone, hone, hsingle⟩
  · rw [he]
    exact ⟨fun e _ => ⟨code_quiet hinv rfl rfl, code_finish_aborted t e⟩,
      fun b hb => by simp [failed] at hb⟩
  · refine ⟨fun e he => by rw [hid] at he; simp at he, fun b hb => ?_⟩
    refine ⟨code_quiet hinv rfl rfl, code_finish_changed t rfl ⟨?_, hnone, hone, hsingle.keyed⟩⟩
    exact List.mem_append_right _ (List.mem_append_right _ hlock)

/-- The second half of a rotation: the row before is marked. -/
theorem code_replace (t : CodeTx) {currentRaw newRaw : String} {byUserId : Uuid} (previousId : Uuid)
    (h : Changed [hashCode lib currentRaw] [] ws ls sh) :
    Safe (codeContract lib (.rotate currentRaw newRaw byUserId))
      ⟨.stmt (insert (hashCode lib newRaw) (some byUserId)) fun
        | .ok newId => t.finish (.ok (.rotated (some (newId, previousId))))
        | .error e => t.finish (.error e), some (.active ws ls)⟩ sh := by
  refine .stmt fun sh₁ hinv hr => ⟨fun e => ⟨code_quiet hinv rfl rfl, code_finish_aborted t e⟩,
    fun env o ho => ?_⟩
  have h₁ := h.stable hr
  subst ho
  rcases insert_spec (hashCode lib newRaw) (some byUserId) env sh₁.mem _ h₁.keyed with
    ⟨e, he⟩ | ⟨newId, hid, -, -, hone, hsingle⟩
  · rw [he]
    exact ⟨fun e _ => ⟨code_quiet hinv rfl rfl, code_finish_aborted t e⟩,
      fun b hb => by simp [failed] at hb⟩
  · refine ⟨fun e he => by rw [hid] at he; simp at he, fun newId' hb => ?_⟩
    refine ⟨code_quiet hinv rfl rfl, code_finish_changed t rfl ⟨?_, h₁.before, ?_, ?_⟩⟩
    · exact List.mem_append_left _ h₁.lock
    · rw [applyAll_append]
      exact hone
    · rw [applyAll_append]
      exact hsingle.keyed

/-- The code after another. -/
theorem code_rotate (t : CodeTx) (currentRaw newRaw : String) (byUserId : Uuid) :
    Safe (codeContract lib (.rotate currentRaw newRaw byUserId))
      ⟨((CodeOp.rotate currentRaw newRaw byUserId).run lib).attempt >>= t.finish,
        some (.active [] [])⟩ sh := by
  have hprog : ((CodeOp.rotate currentRaw newRaw byUserId).run lib).attempt >>= t.finish =
      .stmt (markRotated (hashCode lib currentRaw) byUserId) fun
        | .error e => t.finish (.error e)
        | .ok none => t.finish (.ok (.rotated none))
        | .ok (some previousId) => .stmt (insert (hashCode lib newRaw) (some byUserId)) fun
          | .ok newId => t.finish (.ok (.rotated (some (newId, previousId))))
          | .error e => t.finish (.error e) := by
    refine congrArg (Prog.stmt _) (funext fun x => ?_)
    rcases x with e | (_ | previousId)
    · rfl
    · rfl
    · refine congrArg (Prog.stmt _) (funext fun y => ?_)
      cases y <;> rfl
  rw [hprog]
  refine .stmt fun sh₁ hinv _ => ⟨fun e => ⟨code_quiet hinv rfl rfl, code_finish_aborted t e⟩,
    fun env o ho => ?_⟩
  subst ho
  rcases @markRotated_spec (hashCode lib currentRaw) byUserId env sh₁.mem
      (applyAll sh₁.db ([] : List Write)) hinv with
    ⟨e, he⟩ | ⟨hnone, hws⟩ | ⟨previousId, hid, hlock, hbefore, hafter, hkeyed⟩
  · exact ⟨fun e _ => ⟨code_quiet hinv rfl rfl, code_finish_aborted t e⟩,
      fun b hb => by rw [he] at hb; simp at hb⟩
  · -- the code presented is not the active one
    refine ⟨fun e he => by rw [hnone] at he; simp at he, fun b hb => ?_⟩
    obtain rfl : none = b := Except.ok.inj (hnone.symm.trans hb)
    rw [hws]
    refine ⟨code_quiet hinv rfl rfl, code_finish_quiet t fun a ha => ?_⟩
    obtain rfl := Except.ok.inj ha
    rfl
  · refine ⟨fun e he => by rw [hid] at he; simp at he, fun b hb => ?_⟩
    obtain rfl : some previousId = b := Except.ok.inj (hid.symm.trans hb)
    refine ⟨code_quiet hinv rfl rfl, code_replace t previousId ⟨?_, hbefore, hafter, hkeyed⟩⟩
    exact List.mem_append_right _ (List.mem_append_right _ hlock)

/-- **A transaction** keeps the contract, whatever it presents and puts in. -/
theorem safe_program (t : CodeTx) : Safe (codeContract lib t.op) ⟨t.program lib, none⟩ sh := by
  refine .begin fun sh₁ hinv _ => ⟨fun e => ⟨code_quiet hinv rfl rfl, code_ret _ _⟩,
    code_quiet hinv rfl rfl, ?_⟩
  obtain ⟨op, commits⟩ := t
  cases op with
  | bootstrap rawCode byUserId => exact code_bootstrap _ rawCode byUserId
  | rotate currentRaw newRaw byUserId => exact code_rotate _ currentRaw newRaw byUserId

end Safety

/-! ## Every run -/

section Runs

variable {Pid : Type}

/-- The transactions before they start. -/
def codeWorld (lib : Libs) (txs : Pid → CodeTx) (sh : Shared) : Transactions Pid CodeResult :=
  ⟨fun i => ⟨(txs i).program lib, none⟩, sh⟩

/-- The step commits a bootstrap, or a rotation that answers `Some`. -/
def installs (e : TransactionEvent Pid CodeResult) : Bool :=
  installsStep (e.before.procs e.pid) (e.after.procs e.pid)

/-- The most recently committed code. -/
def newest (txs : Pid → CodeTx) : List (TransactionEvent Pid CodeResult) → Option String
  | [] => none
  | e :: es => if installs e then some (txs e.pid).op.installed else newest txs es

section Newest

variable {txs : Pid → CodeTx} {es : List (TransactionEvent Pid CodeResult)}

theorem newest_of_installs (txs : Pid → CodeTx) {e : TransactionEvent Pid CodeResult} (he : e ∈ es)
    (hi : installs e = true) : ∃ c, newest txs es = some c := by
  induction es with
  | nil => exact absurd he (by simp)
  | cons e' es ih =>
    rw [newest]
    by_cases hi' : installs e' = true
    · exact ⟨_, if_pos hi'⟩
    · rw [if_neg hi']
      rcases List.mem_cons.mp he with rfl | he
      · exact absurd hi hi'
      · exact ih he

/-- The newest code was put in by the latest commit that put one in. -/
theorem newest_eq_some {c : String} (h : newest txs es = some c) :
    ∃ e es', e :: es' <:+ es ∧ installs e = true ∧ (txs e.pid).op.installed = c ∧
    ∀ e₀ es₀, e₀ :: es₀ <:+ es → installs e₀ = true → e₀ :: es₀ <:+ e :: es' := by
  induction es with
  | nil => exact absurd h (by simp [newest])
  | cons e es ih =>
    rw [newest] at h
    by_cases hi : installs e = true
    · rw [if_pos hi, Option.some.injEq] at h
      exact ⟨e, es, List.suffix_rfl, hi, h, fun _ _ hs _ => hs⟩
    · rw [if_neg hi] at h
      obtain ⟨e₁, es₁, hs₁, hi₁, hc, hlast⟩ := ih h
      refine ⟨e₁, es₁, hs₁.trans (List.suffix_cons _ _), hi₁, hc, fun e₀ es₀ hs₀ hi₀ => ?_⟩
      rcases List.suffix_cons_iff.mp hs₀ with heq | hs₀
      · obtain ⟨rfl, rfl⟩ := List.cons.inj heq
        exact absurd hi₀ hi
      · exact hlast e₀ es₀ hs₀ hi₀

end Newest

/-- The active row is that of the newest code, and every commit of a code found the one it
    presented. -/
structure Tracks (lib : Libs) (txs : Pid → CodeTx) (es : List (TransactionEvent Pid CodeResult))
    (w : Transactions Pid CodeResult) : Prop where
  single : Single w.sh.db
  newest : hashes w.sh.db = (newest txs es).toList.map (hashCode lib)
  presented : ∀ e es', e :: es' <:+ es → installs e = true →
    (RecoveryCode.newest txs es').toList.map (hashCode lib) =
      (txs e.pid).op.presented.toList.map (hashCode lib)

variable [DecidableEq Pid] [Fintype Pid]

omit [DecidableEq Pid] [Fintype Pid] in
theorem tracks_step {lib : Libs} {txs : Pid → CodeTx} {es : List (TransactionEvent Pid CodeResult)}
    {w w' : Transactions Pid CodeResult} {i : Pid} {c : Choice Env SqlError}
    (h : Tracks lib txs es w)
    (hg : (codeContract lib (txs i).op).guar (w.procs i) w.sh (w'.procs i) w'.sh) :
    Tracks lib txs (⟨w, i, c, w'⟩ :: es) w' := by
  obtain ⟨hsingle, hinstalled, hquiet⟩ := hg
  refine ⟨hsingle, ?_, fun e es' hs hi => ?_⟩
  · by_cases hi : installs (⟨w, i, c, w'⟩ : TransactionEvent Pid CodeResult) = true
    · rw [RecoveryCode.newest, if_pos hi]
      exact (hinstalled hi).2
    · rw [RecoveryCode.newest, if_neg hi, ← h.newest]
      exact hashes_congr (hquiet (Or.inl (Bool.eq_false_iff.mpr hi)))
  · rcases List.suffix_cons_iff.mp hs with heq | hs
    · obtain ⟨rfl, rfl⟩ := List.cons.inj heq
      rw [← h.newest]
      exact (hinstalled hi).1
    · exact h.presented e es' hs hi

/-- **The active row in every run.** -/
theorem tracks_run (lib : Libs) (txs : Pid → CodeTx) {sh : Shared} (h₀ : sh.db.recoveryCodes = [])
    {es : List (TransactionEvent Pid CodeResult)} {w : Transactions Pid CodeResult}
    (ht : World.Trace World.anyEvent (codeWorld lib txs sh) es w) : Tracks lib txs es w := by
  have hnone : hashes sh.db = [] := by
    unfold hashes actives
    rw [h₀]
    rfl
  have hstart : Tracks lib txs [] (codeWorld lib txs sh) := by
    refine ⟨⟨?_, ?_⟩, hnone, fun e es' hs => absurd (List.suffix_nil.mp hs) (by simp)⟩
    · show Keyed _ sh.db.recoveryCodes
      rw [h₀]
      exact List.nodup_nil
    · show (hashes sh.db).length ≤ 1
      rw [hnone]
      exact Nat.zero_le 1
  refine (ht.safe (fun i => codeContract lib (txs i).op) (Tracks lib txs) (fun _ _ _ _ => rfl)
    (fun _ p sh sh₁ sh₂ h h' hl => (h' hl).trans (h hl)) (fun _ _ _ h => h.single) ?_ hstart
    (fun i j _ l hl => by simp [codeWorld] at hl) (fun i => safe_program (txs i))).1
  intro es w i c w' hJ hx _ _ hg
  refine ⟨tracks_step hJ hg, fun j hj hl => hg.2.2 (Or.inr fun hi => ?_)⟩
  exact hx i j (Ne.symm hj) _ hi hl

/-- No two of these codes that differ have one hash. -/
def NoCollision (lib : Libs) (codes : Set String) : Prop :=
  ∀ x ∈ codes, ∀ y ∈ codes, hashCode lib x = hashCode lib y → canonicalize x = canonicalize y

/-- What holds after a run. -/
structure Settled (lib : Libs) (codes : Set String) (txs : Pid → CodeTx)
    (es : List (TransactionEvent Pid CodeResult)) (w : Transactions Pid CodeResult) : Prop where
  /-- At most one row is active. -/
  atMostOne : (actives w.sh.db).length ≤ 1
  /-- Exactly one, once a code has been committed. -/
  exactlyOne : (∃ e ∈ es, installs e = true) → (actives w.sh.db).length = 1
  /-- A committed rotation presented the code active immediately before. -/
  presented : ∀ e es', e :: es' <:+ es → installs e = true → ∀ current newRaw byUserId,
    (txs e.pid).op = .rotate current newRaw byUserId →
    ∃ c, newest txs es' = some c ∧ canonicalize current = canonicalize c
  /-- If two rotations that presented one code are both committed, the first or a rotation between
      them has put that code in again. -/
  again : ∀ e es', e :: es' <:+ es → installs e = true → ∀ e₀ es₀, e₀ :: es₀ <:+ es' →
    installs e₀ = true →
    ∀ current newRaw byUserId, (txs e.pid).op = .rotate current newRaw byUserId →
    ∀ current₀ newRaw₀ byUserId₀, (txs e₀.pid).op = .rotate current₀ newRaw₀ byUserId₀ →
    canonicalize current = canonicalize current₀ →
    ∃ e₁ es₁, e₁ :: es₁ <:+ es' ∧ e₀ :: es₀ <:+ e₁ :: es₁ ∧ installs e₁ = true ∧
      ∃ current₁ newRaw₁ byUserId₁, (txs e₁.pid).op = .rotate current₁ newRaw₁ byUserId₁ ∧
        canonicalize newRaw₁ = canonicalize current₀
  /-- `verify` finds the newest code and no other. -/
  verifies : ∀ x ∈ codes, ∀ env, ∃ id, (verify lib x env w.sh.mem w.sh.db).result = .ok id ∧
    (id.isSome = true ↔ ∃ c, newest txs es = some c ∧ canonicalize x = canonicalize c)

theorem verify_isSome (lib : Libs) (x : String) (env : Env) (mem : Mem) (db : Db) :
    ∃ id, (verify lib x env mem db).result = .ok id ∧
    (id.isSome = true ↔ hashCode lib x ∈ hashes db) := by
  refine ⟨_, rfl, ?_⟩
  rw [Option.isSome_map, List.find?_isSome]
  constructor
  · rintro ⟨row, hrow, hmatch⟩
    simp only [Bool.and_eq_true, beq_iff_eq] at hmatch
    exact List.mem_map.mpr ⟨row, List.mem_filter.mpr ⟨hrow, by simp [hmatch.1]⟩, hmatch.2⟩
  · intro hmem
    obtain ⟨row, hrow, hhash⟩ := List.mem_map.mp hmem
    obtain ⟨hrow, hactive⟩ := List.mem_filter.mp hrow
    exact ⟨row, hrow, by simp [hhash, hactive]⟩

/-- **One code at a time.** From an empty table, in every run of transactions that put in, present
    and replace codes, each committing or rolling back: at most one row is active and exactly one
    once a code is in; a rotation that is committed presented the code active before it, so two that
    presented one code are both committed only if it was put in again meanwhile; and `verify` finds
    the newest code alone. -/
theorem one_server_code (lib : Libs) (codes : Set String) (hcodes : NoCollision lib codes)
    (txs : Pid → CodeTx) (hinstalled : ∀ i, (txs i).op.installed ∈ codes)
    (hpresented : ∀ i, ∀ c ∈ (txs i).op.presented, c ∈ codes) (sh : Shared)
    (h₀ : sh.db.recoveryCodes = []) {es : List (TransactionEvent Pid CodeResult)}
    {w : Transactions Pid CodeResult}
    (ht : World.Trace World.anyEvent (codeWorld lib txs sh) es w) :
    Settled lib codes txs es w := by
  have h := tracks_run lib txs h₀ ht
  have hlen : (actives w.sh.db).length = (newest txs es).toList.length := by
    have := congrArg List.length h.newest
    rwa [hashes, List.length_map, List.length_map] at this
  have hin : ∀ {es' : List (TransactionEvent Pid CodeResult)} {c : String}, newest txs es' =
      some c → c ∈ codes := by
    intro es' c hc
    obtain ⟨e, -, -, -, hce, -⟩ := newest_eq_some hc
    exact hce ▸ hinstalled e.pid
  have hbefore : ∀ e es', e :: es' <:+ es → installs e = true → ∀ current newRaw byUserId,
      (txs e.pid).op = .rotate current newRaw byUserId →
      ∃ c, newest txs es' = some c ∧ canonicalize current = canonicalize c := by
    intro e es' hs hi current newRaw byUserId hop
    have hhash := h.presented e es' hs hi
    have hcurrent : current ∈ codes := hpresented e.pid current (by rw [hop]; rfl)
    rw [hop] at hhash
    cases hnew : newest txs es' with
    | none =>
      rw [hnew] at hhash
      exact absurd hhash (by simp [CodeOp.presented])
    | some c =>
      rw [hnew] at hhash
      have heq : hashCode lib c = hashCode lib current := by simpa [CodeOp.presented] using hhash
      exact ⟨c, rfl, hcodes current hcurrent c (hin hnew) heq.symm⟩
  refine ⟨?_, fun he => ?_, hbefore, ?_, fun x hx env => ?_⟩
  · rw [hlen]
    cases newest txs es <;> simp
  · obtain ⟨e, he, hi⟩ := he
    obtain ⟨c, hc⟩ := newest_of_installs txs he hi
    rw [hlen, hc]
    rfl
  · intro e es' hs hi e₀ es₀ hs₀ hi₀ current newRaw byUserId hop current₀ newRaw₀
      byUserId₀ hop₀ hsame
    obtain ⟨c, hc, hcc⟩ := hbefore e es' hs hi current newRaw byUserId hop
    obtain ⟨e₁, es₁, hs₁, hi₁, hinst, hlast⟩ := newest_eq_some hc
    have hsince := hlast e₀ es₀ hs₀ hi₀
    refine ⟨e₁, es₁, hs₁, hsince, hi₁, ?_⟩
    rcases hop₁ : (txs e₁.pid).op with ⟨rawCode, byUserId₁⟩ | ⟨current₁, newRaw₁, byUserId₁⟩
    · -- a bootstrap finds no code, but `e₀` had put one in
      exfalso
      have hnone := h.presented e₁ es₁ (hs₁.trans ((List.suffix_cons _ _).trans hs)) hi₁
      rcases List.suffix_cons_iff.mp hsince with heq | hbefore₁
      · obtain ⟨rfl, rfl⟩ := List.cons.inj heq
        rw [hop₀] at hop₁
        exact absurd hop₁ (by simp)
      · obtain ⟨c₁, hc₁⟩ := newest_of_installs txs (hbefore₁.subset List.mem_cons_self) hi₀
        rw [hc₁, hop₁] at hnone
        exact absurd hnone (by simp [CodeOp.presented])
    · refine ⟨current₁, newRaw₁, byUserId₁, rfl, ?_⟩
      rw [hop₁] at hinst
      rw [← hsame, hcc, ← hinst]
      rfl
  · obtain ⟨id, hid, hiff⟩ := verify_isSome lib x env w.sh.mem w.sh.db
    refine ⟨id, hid, hiff.trans ?_⟩
    rw [h.newest]
    constructor
    · intro hmem
      obtain ⟨c, hc, hhash⟩ := List.mem_map.mp hmem
      have hc := Option.mem_toList.mp hc
      exact ⟨c, hc, hcodes x hx c (hin hc) hhash.symm⟩
    · rintro ⟨c, hc, hsame⟩
      refine List.mem_map.mpr ⟨c, Option.mem_toList.mpr hc, ?_⟩
      unfold hashCode
      rw [hsame]

end Runs

/-! ### Two rotations that present one code -/

/-- A code is put in, replaced by itself and replaced by another one. -/
inductive CodeCaller where
  | provision
  | again
  | fresh
deriving DecidableEq

instance : Fintype CodeCaller := ⟨{.provision, .again, .fresh}, fun i => by cases i <;> decide⟩

def threeCodes (i : CodeCaller) : CodeTx where
  op := match i with
    | .provision => .bootstrap "AAAA" none
    | .again => .rotate "aaaa" "AAAA" Sample.ann.id
    | .fresh => .rotate "AAAA" "BBBB" Sample.ann.id
  commits r := r.toOption.isSome

def threeCodesWorld : Transactions CodeCaller CodeResult :=
  codeWorld Libs.sample threeCodes ⟨Sample.db, Mem.fresh⟩

/-- One step of `i`, with `n` for the next id. -/
def codeStep (i : CodeCaller) (n : UInt8) : CodeCaller × Choice Env SqlError := (i, Sample.calm n)

/-- The first code is in, and both rotations have begun; `again` is about to commit. -/
def beforeFirst : Transactions CodeCaller CodeResult :=
  threeCodesWorld.reach [codeStep .provision 10, codeStep .provision 10, codeStep .provision 10,
    codeStep .fresh 11, codeStep .again 12, codeStep .again 12, codeStep .again 12]

def afterFirst : Transactions CodeCaller CodeResult := beforeFirst.reach [codeStep .again 12]

/-- `fresh` has found the code that `again` put in, and is about to commit. -/
def beforeSecond : Transactions CodeCaller CodeResult :=
  afterFirst.reach [codeStep .fresh 13, codeStep .fresh 13]

def afterSecond : Transactions CodeCaller CodeResult := beforeSecond.reach [codeStep .fresh 13]

def firstCommit : TransactionEvent CodeCaller CodeResult :=
  ⟨beforeFirst, .again, Sample.calm 12, afterFirst⟩

def secondCommit : TransactionEvent CodeCaller CodeResult :=
  ⟨beforeSecond, .fresh, Sample.calm 13, afterSecond⟩

theorem threeCodes_trace : ∃ es, World.Trace World.anyEvent threeCodesWorld
    (secondCommit :: es) afterSecond ∧ firstCommit ∈ es := by
  have hstart : World.Trace World.anyEvent threeCodesWorld [] threeCodesWorld := .start
  obtain ⟨es, -, ht⟩ : ∃ es, [] <:+ es ∧
      World.Trace World.anyEvent threeCodesWorld es beforeFirst :=
    World.trace_reach (fun _ _ _ _ _ => trivial) hstart (by decide +kernel)
  have hfirst := ht.step CodeCaller.again (Sample.calm 12)
    (World.step_reach (by decide +kernel)) trivial
  obtain ⟨es', hsuffix, ht'⟩ : ∃ es', firstCommit :: es <:+ es' ∧
      World.Trace World.anyEvent threeCodesWorld es' beforeSecond :=
    World.trace_reach (fun _ _ _ _ _ => trivial) hfirst (by decide +kernel)
  exact ⟨es', ht'.step CodeCaller.fresh (Sample.calm 13)
    (World.step_reach (by decide +kernel)) trivial, hsuffix.subset List.mem_cons_self⟩

/-- Two rotations that run side by side present one code, and both are committed: the first puts the
    same code in again. -/
theorem same_code_rotated_twice :
    (∃ es, World.Trace World.anyEvent threeCodesWorld (secondCommit :: es) afterSecond ∧
      firstCommit ∈ es) ∧
      installs firstCommit = true ∧ installs secondCommit = true ∧
      firstCommit.pid ≠ secondCommit.pid ∧
      (firstCommit.before.procs secondCommit.pid).tx.isSome = true ∧
      (threeCodes firstCommit.pid).op.presented.map canonicalize =
        (threeCodes secondCommit.pid).op.presented.map canonicalize :=
  ⟨threeCodes_trace, by decide +kernel, by decide +kernel, by decide, by decide +kernel,
    by decide +kernel⟩

/-- The codes of these transactions do not collide. -/
theorem threeCodes_noCollision : NoCollision Libs.sample {"AAAA", "aaaa", "BBBB"} := by
  intro x hx y hy hhash
  simp only [Set.mem_insert_iff, Set.mem_singleton_iff] at hx hy
  rcases hx with rfl | rfl | rfl <;> rcases hy with rfl | rfl | rfl <;> revert hhash
    <;> decide +kernel

theorem one_server_code_three : ∃ es, Settled Libs.sample {"AAAA", "aaaa", "BBBB"} threeCodes
    (secondCommit :: es) afterSecond := by
  obtain ⟨es, ht, -⟩ := threeCodes_trace
  refine ⟨es, one_server_code Libs.sample _ threeCodes_noCollision threeCodes (fun i => ?_)
    (fun i c hc => ?_) ⟨Sample.db, Mem.fresh⟩ rfl ht⟩
  · cases i with
    | provision => exact Or.inl rfl
    | again => exact Or.inl rfl
    | fresh => exact Or.inr (Or.inr rfl)
  · cases i with
    | provision => exact absurd hc (by simp [threeCodes, CodeOp.presented])
    | again => exact Or.inr (Or.inl (Option.some.inj hc).symm)
    | fresh => exact Or.inl (Option.some.inj hc).symm

end SylvaServer.RecoveryCode
