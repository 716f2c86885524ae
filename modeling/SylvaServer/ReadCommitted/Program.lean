/-
  Programs that talk to a transactional database.

  A program is a tree of requests: open a transaction, run a statement in it, commit it, run a
  statement on the pool (its own transaction), or touch the memory of the process. Every
  request to the database may fail, and the continuation gets the result as an `Except`. What a
  statement does is a function of the environment of that moment, of the non-transactional
  memory (sequences, in-process state) and of the tables the statement sees.

  `bind` short-circuits on an error, so a `do` block reads like a body with `?` after each
  call. The semantics of a program alone and among others is in `World`.
-/
import Mathlib.Data.Fintype.Defs

namespace ReadCommitted

/-- What one statement does: its result, the row writes and the explicit locks it adds to its
    transaction, and the memory it leaves. A statement that fails adds no write and no lock. -/
structure Outcome (W K M S β : Type) where
  result : Except S β
  writes : List W
  locks : List K
  mem : M

/-- A statement: what it does in environment `E`, with memory `M`, on the tables `D`. -/
abbrev Sql (E D W K M S β : Type) := E → M → D → Outcome W K M S β

/-- A program with errors `ε` and result `α`. -/
inductive Prog (E D W K M S ε α : Type) : Type 1 where
  /-- Return; a transaction still open is dropped, which rolls it back. -/
  | ret (r : Except ε α)
  /-- `pool.begin()`. -/
  | begin (k : Except S Unit → Prog E D W K M S ε α)
  /-- A statement in the open transaction. -/
  | stmt {β : Type} (s : Sql E D W K M S β) (k : Except S β → Prog E D W K M S ε α)
  /-- `tx.commit()`. -/
  | commit (k : Except S Unit → Prog E D W K M S ε α)
  /-- A statement on the pool: a transaction of its own, committed at once. -/
  | pool {β : Type} (s : Sql E D W K M S β) (k : Except S β → Prog E D W K M S ε α)
  /-- A critical section on the memory of the process; it cannot fail. -/
  | mem {β : Type} (f : E → M → β × M) (k : β → Prog E D W K M S ε α)

variable {E D W K M S ε ε' α β γ : Type}

namespace Prog

protected def bind : Prog E D W K M S ε α → (α → Prog E D W K M S ε β) → Prog E D W K M S ε β
  | ret (.ok a), f => f a
  | ret (.error e), _ => ret (.error e)
  | begin k, f => begin fun r => (k r).bind f
  | stmt s k, f => stmt s fun r => (k r).bind f
  | commit k, f => commit fun r => (k r).bind f
  | pool s k, f => pool s fun r => (k r).bind f
  | mem g k, f => mem g fun b => (k b).bind f

instance : Monad (Prog E D W K M S ε) where
  pure a := ret (.ok a)
  bind := Prog.bind

/-- `.map_err(g)?`. -/
def mapError (g : ε → ε') : Prog E D W K M S ε α → Prog E D W K M S ε' α
  | ret (.ok a) => ret (.ok a)
  | ret (.error e) => ret (.error (g e))
  | begin k => begin fun r => (k r).mapError g
  | stmt s k => stmt s fun r => (k r).mapError g
  | commit k => commit fun r => (k r).mapError g
  | pool s k => pool s fun r => (k r).mapError g
  | mem f k => mem f fun b => (k b).mapError g

/-- Run to the end and hand the result over instead of failing. -/
def attempt : Prog E D W K M S ε α → Prog E D W K M S ε' (Except ε α)
  | ret r => ret (.ok r)
  | begin k => begin fun r => (k r).attempt
  | stmt s k => stmt s fun r => (k r).attempt
  | commit k => commit fun r => (k r).attempt
  | pool s k => pool s fun r => (k r).attempt
  | mem f k => mem f fun b => (k b).attempt

/-- `return Err(e)`. -/
def fail (e : ε) : Prog E D W K M S ε α := ret (.error e)

/-- A result already computed, as a program. -/
def ofExcept (r : Except ε α) : Prog E D W K M S ε α := ret r

def beginTx : Prog E D W K M S S Unit := begin ret

def commitTx : Prog E D W K M S S Unit := commit ret

/-- One statement in the open transaction. -/
def inTx (s : Sql E D W K M S β) : Prog E D W K M S S β := stmt s ret

/-- One statement on the pool. -/
def onPool (s : Sql E D W K M S β) : Prog E D W K M S S β := pool s ret

/-- One critical section on the memory of the process. -/
def critical (f : E → M → β × M) : Prog E D W K M S ε β := mem f fun b => ret (.ok b)

/-- Read the environment: a clock, a random source. -/
def ask (f : E → β) : Prog E D W K M S ε β := critical fun env m => (f env, m)

/-- A transaction around a program. -/
def inTransaction (p : Prog E D W K M S S α) : Prog E D W K M S S α := do
  beginTx
  let a ← p
  commitTx
  pure a

/-- One after the other. -/
def inOrder : List (Prog E D W K M S ε Unit) → Prog E D W K M S ε Unit
  | [] => pure ()
  | p :: ps => do
    p
    inOrder ps

section Equations

variable (f : α → Prog E D W K M S ε β)

@[simp] theorem pure_eq (a : α) : (pure a : Prog E D W K M S ε α) = ret (.ok a) := rfl

@[simp] theorem bind_ok (a : α) : (ret (.ok a) >>= f) = f a := rfl

@[simp] theorem bind_error (e : ε) : (ret (.error e) >>= f) = ret (.error e) := rfl

@[simp] theorem bind_begin (k) : (begin k >>= f) = begin fun r => k r >>= f := rfl

@[simp] theorem bind_stmt (s : Sql E D W K M S γ) (k) :
    (stmt s k >>= f) = stmt s fun r => k r >>= f := rfl

@[simp] theorem bind_commit (k) : (commit k >>= f) = commit fun r => k r >>= f := rfl

@[simp] theorem bind_pool (s : Sql E D W K M S γ) (k) :
    (pool s k >>= f) = pool s fun r => k r >>= f := rfl

@[simp] theorem bind_mem (g : E → M → γ × M) (k) : (mem g k >>= f) = mem g fun b => k b >>= f := rfl

theorem bind_assoc (p : Prog E D W K M S ε α) (g : β → Prog E D W K M S ε γ) :
    (p >>= f) >>= g = p >>= fun a => f a >>= g := by
  induction p with
  | ret r => cases r <;> rfl
  | begin k ih => simp only [bind_begin, ih]
  | stmt s k ih => simp only [bind_stmt, ih]
  | commit k ih => simp only [bind_commit, ih]
  | pool s k ih => simp only [bind_pool, ih]
  | mem h k ih => simp only [bind_mem, ih]

theorem mapError_bind (p : Prog E D W K M S ε α) (g : ε → ε') :
    (p >>= f).mapError g = p.mapError g >>= fun a => (f a).mapError g := by
  induction p with
  | ret r => cases r <;> rfl
  | begin k ih => simp only [bind_begin, mapError, ih]
  | stmt s k ih => simp only [bind_stmt, mapError, ih]
  | commit k ih => simp only [bind_commit, mapError, ih]
  | pool s k ih => simp only [bind_pool, mapError, ih]
  | mem h k ih => simp only [bind_mem, mapError, ih]

end Equations

/-! ## What a program may ask for -/

/-- Rules for the requests of a program. -/
structure Rules (E D W K M S : Type) where
  begin : Prop
  stmt : {β : Type} → Sql E D W K M S β → Prop
  pool : {β : Type} → Sql E D W K M S β → Prop
  mem : {β : Type} → (E → M → β × M) → Prop

/-- Every request the program can ever make is within the rules. -/
def Obeys (R : Rules E D W K M S) : Prog E D W K M S ε α → Prop
  | ret _ => True
  | begin k => R.begin ∧ ∀ r, (k r).Obeys R
  | stmt s k => R.stmt s ∧ ∀ r, (k r).Obeys R
  | commit k => ∀ r, (k r).Obeys R
  | pool s k => R.pool s ∧ ∀ r, (k r).Obeys R
  | mem f k => R.mem f ∧ ∀ b, (k b).Obeys R

/-- No request changes `view` of the memory. -/
abbrev Rules.keeps {γ : Type} (view : M → γ) : Rules E D W K M S where
  begin := True
  stmt s := ∀ env m db, view (s env m db).mem = view m
  pool s := ∀ env m db, view (s env m db).mem = view m
  mem f := ∀ env m, view (f env m).2 = view m

section Obeys

variable {R : Rules E D W K M S}

theorem obeys_bind {p : Prog E D W K M S ε α} {f : α → Prog E D W K M S ε β}
    (hp : p.Obeys R) (hf : ∀ a, (f a).Obeys R) : (p >>= f).Obeys R := by
  induction p with
  | ret r =>
    cases r with
    | ok a => exact hf a
    | error e => trivial
  | begin k ih => exact ⟨hp.1, fun r => ih r (hp.2 r)⟩
  | stmt s k ih => exact ⟨hp.1, fun r => ih r (hp.2 r)⟩
  | commit k ih => exact fun r => ih r (hp r)
  | pool s k ih => exact ⟨hp.1, fun r => ih r (hp.2 r)⟩
  | mem g k ih => exact ⟨hp.1, fun b => ih b (hp.2 b)⟩

theorem obeys_ite {c : Prop} [Decidable c] {p q : Prog E D W K M S ε α} (hp : p.Obeys R)
    (hq : q.Obeys R) : (if c then p else q).Obeys R := by
  split
  · exact hp
  · exact hq

theorem obeys_mapError {p : Prog E D W K M S ε α} (g : ε → ε') (hp : p.Obeys R) :
    (p.mapError g).Obeys R := by
  induction p with
  | ret r => cases r <;> trivial
  | begin k ih => exact ⟨hp.1, fun r => ih r (hp.2 r)⟩
  | stmt s k ih => exact ⟨hp.1, fun r => ih r (hp.2 r)⟩
  | commit k ih => exact fun r => ih r (hp r)
  | pool s k ih => exact ⟨hp.1, fun r => ih r (hp.2 r)⟩
  | mem g k ih => exact ⟨hp.1, fun b => ih b (hp.2 b)⟩

theorem obeys_attempt {p : Prog E D W K M S ε α} (hp : p.Obeys R) :
    (p.attempt : Prog E D W K M S ε' (Except ε α)).Obeys R := by
  induction p with
  | ret r => trivial
  | begin k ih => exact ⟨hp.1, fun r => ih r (hp.2 r)⟩
  | stmt s k ih => exact ⟨hp.1, fun r => ih r (hp.2 r)⟩
  | commit k ih => exact fun r => ih r (hp r)
  | pool s k ih => exact ⟨hp.1, fun r => ih r (hp.2 r)⟩
  | mem g k ih => exact ⟨hp.1, fun b => ih b (hp.2 b)⟩

theorem obeys_inOrder {ps : List (Prog E D W K M S ε Unit)} (h : ∀ p ∈ ps, p.Obeys R) :
    (inOrder ps).Obeys R := by
  induction ps with
  | nil => trivial
  | cons p ps ih =>
    exact obeys_bind (h p List.mem_cons_self) fun _ => ih fun q hq =>
      h q (List.mem_cons_of_mem _ hq)

/-! One request at a time; a long program is taken apart with these and `obeys_bind`, without its
meaning being unfolded. -/

theorem obeys_ret (r : Except ε α) : (ret r : Prog E D W K M S ε α).Obeys R := trivial

theorem obeys_beginTx (h : R.begin) : (beginTx : Prog E D W K M S S Unit).Obeys R :=
  ⟨h, fun _ => trivial⟩

theorem obeys_commitTx : (commitTx : Prog E D W K M S S Unit).Obeys R := fun _ => trivial

theorem obeys_inTx {s : Sql E D W K M S β} (h : R.stmt s) : (inTx s).Obeys R :=
  ⟨h, fun _ => trivial⟩

theorem obeys_onPool {s : Sql E D W K M S β} (h : R.pool s) : (onPool s).Obeys R :=
  ⟨h, fun _ => trivial⟩

theorem obeys_critical {f : E → M → β × M} (h : R.mem f) :
    (critical f : Prog E D W K M S ε β).Obeys R := ⟨h, fun _ => trivial⟩

theorem obeys_inTransaction {p : Prog E D W K M S S α} (hbegin : R.begin) (h : p.Obeys R) :
    (inTransaction p).Obeys R :=
  obeys_bind ⟨hbegin, fun _ => trivial⟩ fun _ => obeys_bind h fun _ =>
    obeys_bind (fun _ => trivial) fun _ => trivial

/-- Weaker rules. -/
theorem Obeys.mono {R' : Rules E D W K M S} {p : Prog E D W K M S ε α} (hbegin : R.begin → R'.begin)
    (hstmt : ∀ {β : Type} (s : Sql E D W K M S β), R.stmt s → R'.stmt s)
    (hpool : ∀ {β : Type} (s : Sql E D W K M S β), R.pool s → R'.pool s)
    (hmem : ∀ {β : Type} (f : E → M → β × M), R.mem f → R'.mem f) (hp : p.Obeys R) :
    p.Obeys R' := by
  induction p with
  | ret r => trivial
  | begin k ih => exact ⟨hbegin hp.1, fun r => ih r (hp.2 r)⟩
  | stmt s k ih => exact ⟨hstmt s hp.1, fun r => ih r (hp.2 r)⟩
  | commit k ih => exact fun r => ih r (hp r)
  | pool s k ih => exact ⟨hpool s hp.1, fun r => ih r (hp.2 r)⟩
  | mem g k ih => exact ⟨hmem g hp.1, fun b => ih b (hp.2 b)⟩

/-- Rules that forbid nothing. -/
theorem obeys_all {p : Prog E D W K M S ε α} (hbegin : R.begin)
    (hstmt : ∀ {β : Type} (s : Sql E D W K M S β), R.stmt s)
    (hpool : ∀ {β : Type} (s : Sql E D W K M S β), R.pool s)
    (hmem : ∀ {β : Type} (f : E → M → β × M), R.mem f) : p.Obeys R := by
  induction p with
  | ret r => trivial
  | begin k ih => exact ⟨hbegin, ih⟩
  | stmt s k ih => exact ⟨hstmt s, ih⟩
  | commit k ih => exact ih
  | pool s k ih => exact ⟨hpool s, ih⟩
  | mem g k ih => exact ⟨hmem g, ih⟩

end Obeys

/-! ## The remainders of a program -/

/-- `p.Within q`: `q` is what can be left of `p` after some of its requests. -/
inductive Within (p : Prog E D W K M S ε α) : Prog E D W K M S ε α → Prop where
  | refl : Within p p
  | begin {k} (r) : Within p (.begin k) → Within p (k r)
  | stmt {γ : Type} {s : Sql E D W K M S γ} {k} (r) : Within p (.stmt s k) → Within p (k r)
  | commit {k} (r) : Within p (.commit k) → Within p (k r)
  | pool {γ : Type} {s : Sql E D W K M S γ} {k} (r) : Within p (.pool s k) → Within p (k r)
  /-- A pool statement that has written and waits for its commit. -/
  | flush {γ : Type} {s : Sql E D W K M S γ} {k} (b : γ) : Within p (.pool s k) →
      Within p (.commit fun r => k (r.map fun _ => b))
  | mem {γ : Type} {f : E → M → γ × M} {k} (b) : Within p (.mem f k) → Within p (k b)

/-- `p.Next q`: `q` is what can be left of `p` after one step. -/
inductive Next : Prog E D W K M S ε α → Prog E D W K M S ε α → Prop where
  /-- The transaction of a program that has returned is dropped. -/
  | ret (r) : Next (.ret r) (.ret r)
  | begin {k} (r) : Next (.begin k) (k r)
  | stmt {γ : Type} {s : Sql E D W K M S γ} {k} (r) : Next (.stmt s k) (k r)
  | commit {k} (r) : Next (.commit k) (k r)
  | pool {γ : Type} {s : Sql E D W K M S γ} {k} (r) : Next (.pool s k) (k r)
  | flush {γ : Type} {s : Sql E D W K M S γ} {k} (b : γ) :
      Next (.pool s k) (.commit fun r => k (r.map fun _ => b))
  | mem {γ : Type} {f : E → M → γ × M} {k} (b) : Next (.mem f k) (k b)

theorem Within.next {p q q' : Prog E D W K M S ε α} (h : p.Within q) (hq : q.Next q') :
    p.Within q' := by
  cases hq with
  | ret r => exact h
  | begin r => exact h.begin r
  | stmt r => exact h.stmt r
  | commit r => exact h.commit r
  | pool r => exact h.pool r
  | flush b => exact h.flush b
  | mem b => exact h.mem b

/-- What is left of a program within the rules is within the rules. -/
theorem Obeys.within {R : Rules E D W K M S} {p q : Prog E D W K M S ε α} (hp : p.Obeys R)
    (h : p.Within q) : q.Obeys R := by
  induction h with
  | refl => exact hp
  | begin r _ ih => exact ih.2 r
  | stmt r _ ih => exact ih.2 r
  | commit r _ ih => exact ih r
  | pool r _ ih => exact ih.2 r
  | flush b _ ih => exact fun r => ih.2 _
  | mem b _ ih => exact ih.2 b

end Prog

end ReadCommitted
