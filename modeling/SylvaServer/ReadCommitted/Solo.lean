/-
  One program after the other.

  `Prog.exec` runs a program with nobody else around, all of its steps in one environment and none
  of them failing from outside; it is what the small steps of `Proc` do then (`run_exec`). A
  `History` is a sequence of operations, each of which runs to its end before the next
  begins.

  Proved: `exec` follows the shape of a `do` block (`exec_bind` and the equations after it), and
  what a transaction of one statement does (`alone_statement`).
-/
import SylvaServer.ReadCommitted.World

namespace ReadCommitted

variable {E D W K M S ε ε' α β : Type} [Store D W K]

namespace Prog

/-- Run to the end: the result, the transaction left open, and what is shared. `none` where the
    program gets stuck. -/
def exec (env : E) : Prog E D W K M S ε α → Option (Tx W K) → Shared D M →
    Option (Except ε α × Option (Tx W K) × Shared D M)
  | ret r, tx, sh => some (r, tx, sh)
  | begin k, none, sh => (k (.ok ())).exec env (some (.active [] [])) sh
  | begin _, some _, _ => none
  | stmt s k, some (.active ws ls), sh =>
    let o := s env sh.mem (applyAll sh.db ws)
    match o.result with
    | .ok b => (k (.ok b)).exec env (some (.active (ws ++ o.writes)
        (ls ++ (o.writes.map (Store.rowLock D) ++ o.locks)))) ⟨sh.db, o.mem⟩
    | .error e => (k (.error e)).exec env (some .aborted) ⟨sh.db, o.mem⟩
  | stmt _ _, some .aborted, _ => none
  | stmt _ _, none, _ => none
  | commit k, some (.active ws _), sh => (k (.ok ())).exec env none ⟨applyAll sh.db ws, sh.mem⟩
  | commit k, some .aborted, sh => (k (.ok ())).exec env none sh
  | commit _, none, _ => none
  | pool s k, none, sh =>
    let o := s env sh.mem sh.db
    match o.result with
    | .ok b => (k (.ok b)).exec env none ⟨applyAll sh.db o.writes, o.mem⟩
    | .error e => (k (.error e)).exec env none ⟨sh.db, o.mem⟩
  | pool _ _, some _, _ => none
  | mem f k, tx, sh => (k (f env sh.mem).1).exec env tx ⟨sh.db, (f env sh.mem).2⟩

/-- The same from the beginning; a transaction left open is dropped. -/
def alone (env : E) (p : Prog E D W K M S ε α) (sh : Shared D M) :
    Option (Except ε α × Shared D M) := (p.exec env none sh).map fun x => (x.1, x.2.2)

section Equations

variable (env : E) (tx : Option (Tx W K)) (sh : Shared D M)

/-- Go on with the value of a result, or end with its error. -/
def andThen (f : α → Prog E D W K M S ε β) :
    Except ε α × Option (Tx W K) × Shared D M → Option (Except ε β × Option (Tx W K) × Shared D M)
  | (.ok a, tx, sh) => (f a).exec env tx sh
  | (.error e, tx, sh) => some (.error e, tx, sh)

example (r : Except ε α) : (ret r : Prog E D W K M S ε α).exec env tx sh = some (r, tx, sh) := by
  rw [exec]

theorem exec_bind (p : Prog E D W K M S ε α) (f : α → Prog E D W K M S ε β) :
    (p >>= f).exec env tx sh = (p.exec env tx sh).bind (andThen env f) := by
  induction p generalizing tx sh with
  | ret r => cases r <;> rfl
  | begin k ih =>
    cases tx with
    | none => exact ih _ _ _
    | some t => rfl
  | stmt s k ih =>
    rcases tx with _ | (⟨ws, ls⟩ | _)
    · rfl
    · simp only [bind_stmt, exec]
      cases (s env sh.mem (applyAll sh.db ws)).result with
      | ok b => exact ih _ _ _
      | error e => exact ih _ _ _
    · rfl
  | commit k ih =>
    rcases tx with _ | (⟨ws, ls⟩ | _)
    · rfl
    · exact ih _ _ _
    · exact ih _ _ _
  | pool s k ih =>
    cases tx with
    | some t => rfl
    | none =>
      simp only [bind_pool, exec]
      cases (s env sh.mem sh.db).result with
      | ok b => exact ih _ _ _
      | error e => exact ih _ _ _
  | mem g k ih => exact ih _ _ _

theorem exec_mapError (g : ε → ε') (p : Prog E D W K M S ε α) :
    (p.mapError g).exec env tx sh = (p.exec env tx sh).map fun x => (x.1.mapError g, x.2) := by
  induction p generalizing tx sh with
  | ret r => cases r <;> rfl
  | begin k ih =>
    cases tx with
    | none => exact ih _ _ _
    | some t => rfl
  | stmt s k ih =>
    rcases tx with _ | (⟨ws, ls⟩ | _)
    · rfl
    · simp only [mapError, exec]
      cases (s env sh.mem (applyAll sh.db ws)).result with
      | ok b => exact ih _ _ _
      | error e => exact ih _ _ _
    · rfl
  | commit k ih =>
    rcases tx with _ | (⟨ws, ls⟩ | _)
    · rfl
    · exact ih _ _ _
    · exact ih _ _ _
  | pool s k ih =>
    cases tx with
    | some t => rfl
    | none =>
      simp only [mapError, exec]
      cases (s env sh.mem sh.db).result with
      | ok b => exact ih _ _ _
      | error e => exact ih _ _ _
  | mem f k ih => exact ih _ _ _

theorem exec_critical (f : E → M → β × M) :
    (critical f : Prog E D W K M S ε β).exec env tx sh =
      some (.ok (f env sh.mem).1, tx, ⟨sh.db, (f env sh.mem).2⟩) := rfl

theorem exec_ask (f : E → β) : (ask f : Prog E D W K M S ε β).exec env tx sh =
    some (.ok (f env), tx, sh) := rfl

theorem exec_ofExcept (r : Except ε α) : (ofExcept r : Prog E D W K M S ε α).exec env tx sh =
    some (r, tx, sh) := rfl

end Equations

/-! ### Whole transactions -/

/-- What is shared after a statement that is committed at once: a statement that fails has no
    effect on the tables. -/
def settle (o : Outcome W K M S β) (db : D) : Shared D M :=
  match o.result with
  | .ok _ => ⟨applyAll db o.writes, o.mem⟩
  | .error _ => ⟨db, o.mem⟩

theorem settle_ok {o : Outcome W K M S β} {db : D} {b : β} (h : o.result = .ok b) :
    settle o db = ⟨applyAll db o.writes, o.mem⟩ := by
  unfold settle
  rw [h]

theorem settle_error {o : Outcome W K M S β} {db : D} {e : S} (h : o.result = .error e) :
    settle o db = ⟨db, o.mem⟩ := by
  unfold settle
  rw [h]

variable (env : E) (sh : Shared D M)

/-- The commit at the end of a transaction; one that has failed is dropped. -/
def close : Except S α × Option (Tx W K) × Shared D M → Option (Except S α × Shared D M)
  | (.ok a, some (.active ws _), sh) => some (.ok a, ⟨applyAll sh.db ws, sh.mem⟩)
  | (.ok a, some .aborted, sh) => some (.ok a, sh)
  | (.ok _, none, _) => none
  | (.error e, _, sh) => some (.error e, sh)

/-- **A transaction** is its program on a snapshot and then the commit. -/
theorem alone_inTransaction (p : Prog E D W K M S S α) : (inTransaction p).alone env sh =
    (p.exec env (some (.active [] [])) sh).bind close := by
  have hbegin : (inTransaction p).exec env none sh =
      (p >>= fun a => (commitTx >>= fun _ => pure a : Prog E D W K M S S α)).exec env
        (some (.active [] [])) sh := rfl
  unfold alone
  rw [hbegin, exec_bind]
  cases p.exec env (some (.active [] [])) sh with
  | none => rfl
  | some x =>
    obtain ⟨r, tx, sh'⟩ := x
    cases r with
    | error e => rfl
    | ok a => rcases tx with _ | (⟨ws, ls⟩ | _) <;> rfl

/-- A transaction whose result is read with `g`. -/
theorem alone_map (p : Prog E D W K M S S α) (g : α → β) :
    (inTransaction (p >>= fun a => pure (g a))).alone env sh =
      ((inTransaction p).alone env sh).map fun x => (x.1.map g, x.2) := by
  rw [alone_inTransaction, alone_inTransaction, exec_bind]
  cases p.exec env (some (.active [] [])) sh with
  | none => rfl
  | some x =>
    obtain ⟨r, tx, sh'⟩ := x
    cases r with
    | error e => rfl
    | ok a => rcases tx with _ | (⟨ws, ls⟩ | _) <;> rfl

/-- **A transaction of one statement.** -/
theorem alone_inTx (s : Sql E D W K M S β) : (inTransaction (inTx s)).alone env sh =
    some ((s env sh.mem sh.db).result, settle (s env sh.mem sh.db) sh.db) := by
  cases hr : (s env sh.mem sh.db).result with
  | ok b =>
    rw [settle_ok hr]
    simp [alone, inTransaction, beginTx, inTx, commitTx, exec, hr]
  | error e =>
    rw [settle_error hr]
    simp [alone, inTransaction, beginTx, inTx, commitTx, exec, hr]

/-- One statement on the pool, outside a transaction. -/
theorem exec_onPool (s : Sql E D W K M S β) : (onPool s).exec env none sh =
    some ((s env sh.mem sh.db).result, none, settle (s env sh.mem sh.db) sh.db) := by
  cases hr : (s env sh.mem sh.db).result with
  | ok b =>
    rw [settle_ok hr]
    simp [onPool, exec, hr]
  | error e =>
    rw [settle_error hr]
    simp [onPool, exec, hr]

/-- One statement on the pool. -/
theorem alone_onPool (s : Sql E D W K M S β) : (onPool s).alone env sh =
    some ((s env sh.mem sh.db).result, settle (s env sh.mem sh.db) sh.db) := by
  unfold alone
  rw [exec_onPool]
  rfl

end Prog

/-- **The small steps of a program alone** are its run to the end. -/
theorem Proc.run_exec {env : E} {p : Prog E D W K M S ε α} {tx tx' : Option (Tx W K)}
    {sh sh' : Shared D M} {r : Except ε α} (h : p.exec env tx sh = some (r, tx', sh')) :
    ∃ n, Proc.run (List.replicate n ⟨env, none⟩) ⟨p, tx⟩ sh = some (⟨.ret r, tx'⟩, sh') := by
  induction p generalizing tx sh with
  | ret r₀ =>
    simp only [Prog.exec, Option.some.injEq, Prod.mk.injEq] at h
    obtain ⟨rfl, rfl, rfl⟩ := h
    exact ⟨0, rfl⟩
  | begin k ih =>
    cases tx with
    | some t => simp [Prog.exec] at h
    | none =>
      obtain ⟨n, hn⟩ := ih _ h
      exact ⟨n + 1, hn⟩
  | stmt s k ih =>
    rcases tx with _ | (⟨ws, ls⟩ | _)
    · simp [Prog.exec] at h
    · simp only [Prog.exec] at h
      cases hr : (s env sh.mem (applyAll sh.db ws)).result with
      | ok b =>
        rw [hr] at h
        obtain ⟨n, hn⟩ := ih _ h
        refine ⟨n + 1, ?_⟩
        simp only [List.replicate_succ, Proc.run, Proc.step, hr]
        exact hn
      | error e =>
        rw [hr] at h
        obtain ⟨n, hn⟩ := ih _ h
        refine ⟨n + 1, ?_⟩
        simp only [List.replicate_succ, Proc.run, Proc.step, hr]
        exact hn
    · simp [Prog.exec] at h
  | commit k ih =>
    rcases tx with _ | (⟨ws, ls⟩ | _)
    · simp [Prog.exec] at h
    · obtain ⟨n, hn⟩ := ih _ h
      exact ⟨n + 1, hn⟩
    · obtain ⟨n, hn⟩ := ih _ h
      exact ⟨n + 1, hn⟩
  | pool s k ih =>
    cases tx with
    | some t => simp [Prog.exec] at h
    | none =>
      simp only [Prog.exec] at h
      cases hr : (s env sh.mem sh.db).result with
      | ok b =>
        rw [hr] at h
        obtain ⟨n, hn⟩ := ih _ h
        by_cases hquiet : (s env sh.mem sh.db).writes.isEmpty && (s env sh.mem sh.db).locks.isEmpty
        · refine ⟨n + 1, ?_⟩
          simp only [List.replicate_succ, Proc.run, Proc.step, hr, if_pos hquiet]
          simp only [Bool.and_eq_true, List.isEmpty_iff] at hquiet
          rw [hquiet.1] at hn
          exact hn
        · -- the statement has written: its commit is a step of its own
          refine ⟨n + 1 + 1, ?_⟩
          simp only [List.replicate_succ, Proc.run, Proc.step, hr, if_neg hquiet]
          exact hn
      | error e =>
        rw [hr] at h
        obtain ⟨n, hn⟩ := ih _ h
        refine ⟨n + 1, ?_⟩
        simp only [List.replicate_succ, Proc.run, Proc.step, hr]
        exact hn
  | mem f k ih =>
    obtain ⟨n, hn⟩ := ih _ h
    exact ⟨n + 1, hn⟩

/-! ## Histories -/

/-- An operation that has run to its end. -/
structure Done (Op E R σ : Type) where
  op : Op
  env : E
  before : σ
  reply : R
  after : σ

/-- The histories from `s₀` with all their operations, the latest first; `C` is a condition on an
    operation after those before it. -/
inductive History {Op R σ : Type} (perform : Op → E → σ → Option (R × σ))
    (C : List (Done Op E R σ) → Done Op E R σ → Prop) (s₀ : σ) :
    List (Done Op E R σ) → σ → Prop where
  | start : History perform C s₀ [] s₀
  | step {h s r s'} (op : Op) (env : E) : History perform C s₀ h s →
      perform op env s = some (r, s') →
      C h ⟨op, env, s, r, s'⟩ → History perform C s₀ (⟨op, env, s, r, s'⟩ :: h) s'

/-- An operation whose clock is not behind those before it, and whose draw, if it makes one, is one
    of `pool` and new. -/
structure Drawing {Op R σ T : Type} (clock : E → ℤ) (drawn : Done Op E R σ → Option T)
    (pool : Set T) (h : List (Done Op E R σ)) (d : Done Op E R σ) : Prop where
  clock : ∀ d' ∈ h, clock d'.env ≤ clock d.env
  token : ∀ t, drawn d = some t → t ∈ pool ∧ ∀ d' ∈ h, drawn d' ≠ some t

namespace History

variable {Op R σ : Type} {perform : Op → E → σ → Option (R × σ)}
  {C : List (Done Op E R σ) → Done Op E R σ → Prop} {s₀ s : σ} {h h' : List (Done Op E R σ)}

/-- The operations determine the state. -/
theorem unique {s' : σ} (hh : History perform C s₀ h s)
    (hh' : History perform C s₀ h s') : s = s' := by
  cases hh with
  | start =>
    cases hh' with
    | start => rfl
  | step op env _ _ _ =>
    cases hh' with
    | step _ _ _ _ _ => rfl

end History

end ReadCommitted
