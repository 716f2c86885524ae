/-
  READ COMMITTED: programs running side by side over one database.

  The committed tables are `Shared.db`. An open transaction keeps its row writes to itself and
  sees the committed tables of the moment with its own writes on top. A statement takes effect
  at one instant: the rows it writes and the explicit locks it asks for must not be locked by
  another transaction at that instant (nor clash with a lock it holds), which is where a real
  statement waits and then looks at the latest committed row again. Locks are kept until the
  transaction ends. A commit applies the writes to the committed tables; a rollback forgets them.
  What lives outside transactions (sequences, the memory of the process) is `Shared.mem` and is
  never rolled back.

  Any statement and any commit may fail at will (`Choice.fault`) and then has no effect. After a
  failed statement the transaction is aborted: its locks are gone, further statements fail and
  a commit only ends it.
-/
import SylvaServer.ReadCommitted.Program
import Mathlib.Algebra.BigOperators.Group.Finset.Basic
import Mathlib.Algebra.Order.BigOperators.Group.Finset
import Mathlib.Data.Fintype.Basic
import Mathlib.Logic.Function.Basic
import Mathlib.Tactic.Common

namespace ReadCommitted

/-- How row writes act on tables, and which lock each write takes on its row. -/
class Store (D W : Type) (K : outParam Type) where
  apply : D → W → D
  rowLock : W → K
  /-- Different locks that cannot be held by two transactions. -/
  clash : K → K → Bool
  clash_comm : ∀ k k', clash k k' = clash k' k

/-- The tables after a list of writes, oldest first. -/
def applyAll {D W K : Type} [Store D W K] (db : D) (ws : List W) : D :=
  ws.foldl Store.apply db

/-- What the outside decides for one step: the environment and whether it fails. -/
structure Choice (E S : Type) where
  env : E
  fault : Option S

structure Shared (D M : Type) where
  db : D
  mem : M

inductive Tx (W K : Type) where
  | active (writes : List W) (locks : List K)
  /-- A statement of it failed. -/
  | aborted

/-- One running program with its transaction, if one is open. -/
structure Proc (E D W K M S ε α : Type) where
  prog : Prog E D W K M S ε α
  tx : Option (Tx W K)

variable {E D W K M S ε α : Type}

section ApplyAll

variable [Store D W K]

@[simp] theorem applyAll_nil (db : D) : applyAll db ([] : List W) = db := rfl

@[simp] theorem applyAll_cons (db : D) (w : W) (ws : List W) :
    applyAll db (w :: ws) = applyAll (Store.apply db w) ws := rfl

@[simp] theorem applyAll_append (db : D) (ws ws' : List W) :
    applyAll db (ws ++ ws') = applyAll (applyAll db ws) ws' := List.foldl_append

end ApplyAll

namespace Proc

/-- The row writes not committed yet. -/
def writes (p : Proc E D W K M S ε α) : List W :=
  match p.tx with
  | some (.active ws _) => ws
  | _ => []

/-- The locks held. -/
def locks (p : Proc E D W K M S ε α) : List K :=
  match p.tx with
  | some (.active _ ls) => ls
  | _ => []

@[simp] theorem writes_active (q : Prog E D W K M S ε α) (ws : List W) (ls : List K) :
    (Proc.mk q (some (.active ws ls))).writes = ws := rfl

@[simp] theorem locks_active (q : Prog E D W K M S ε α) (ws : List W) (ls : List K) :
    (Proc.mk q (some (.active ws ls))).locks = ls := rfl

@[simp] theorem writes_none (q : Prog E D W K M S ε α) : (Proc.mk q none).writes = [] := rfl

@[simp] theorem locks_none (q : Prog E D W K M S ε α) : (Proc.mk q none).locks = [] := rfl

@[simp] theorem writes_aborted (q : Prog E D W K M S ε α) :
    (Proc.mk q (some .aborted)).writes = [] := rfl

@[simp] theorem locks_aborted (q : Prog E D W K M S ε α) :
    (Proc.mk q (some .aborted)).locks = [] := rfl

variable [Store D W K]

/-- One step of one program, the locks of the others left aside; `none` where it has to wait
    or has ended. -/
def step (c : Choice E S) :
    Proc E D W K M S ε α → Shared D M → Option (Proc E D W K M S ε α × Shared D M)
  | ⟨.ret r, some _⟩, sh => some (⟨.ret r, none⟩, sh)
  | ⟨.begin k, none⟩, sh =>
    match c.fault with
    | some e => some (⟨k (.error e), none⟩, sh)
    | none => some (⟨k (.ok ()), some (.active [] [])⟩, sh)
  | ⟨.stmt s k, some (.active ws ls)⟩, sh =>
    match c.fault with
    | some e => some (⟨k (.error e), some .aborted⟩, sh)
    | none =>
      let o := s c.env sh.mem (applyAll sh.db ws)
      match o.result with
      | .ok b => some (⟨k (.ok b), some (.active (ws ++ o.writes)
          (ls ++ (o.writes.map (Store.rowLock D) ++ o.locks)))⟩, ⟨sh.db, o.mem⟩)
      | .error e => some (⟨k (.error e), some .aborted⟩, ⟨sh.db, o.mem⟩)
  | ⟨.stmt _ k, some .aborted⟩, sh =>
    match c.fault with
    | some e => some (⟨k (.error e), some .aborted⟩, sh)
    | none => none
  | ⟨.commit k, some (.active ws _)⟩, sh =>
    match c.fault with
    | some e => some (⟨k (.error e), none⟩, sh)
    | none => some (⟨k (.ok ()), none⟩, ⟨applyAll sh.db ws, sh.mem⟩)
  | ⟨.commit k, some .aborted⟩, sh =>
    match c.fault with
    | some e => some (⟨k (.error e), none⟩, sh)
    | none => some (⟨k (.ok ()), none⟩, sh)
  | ⟨.pool s k, none⟩, sh =>
    match c.fault with
    | some e => some (⟨k (.error e), none⟩, sh)
    | none =>
      let o := s c.env sh.mem sh.db
      match o.result with
      | .ok b =>
        if o.writes.isEmpty && o.locks.isEmpty then some (⟨k (.ok b), none⟩, ⟨sh.db, o.mem⟩)
        else some (⟨.commit fun r => k (r.map fun _ => b),
          some (.active o.writes (o.writes.map (Store.rowLock D) ++ o.locks))⟩, ⟨sh.db, o.mem⟩)
      | .error e => some (⟨k (.error e), none⟩, ⟨sh.db, o.mem⟩)
  | ⟨.mem f k, tx⟩, sh =>
    let r := f c.env sh.mem
    some (⟨k r.1, tx⟩, ⟨sh.db, r.2⟩)
  | _, _ => none

/-- What one step can do to the transaction and to what is shared: nothing but keep or end the
    transaction, a critical section, a statement, or a commit. -/
theorem step_cases {c : Choice E S} {p p' : Proc E D W K M S ε α} {sh sh' : Shared D M}
    (h : p.step c sh = some (p', sh')) :
    (sh' = sh ∧ ((p'.writes = p.writes ∧ p'.locks = p.locks) ∨
      (p'.writes = [] ∧ p'.locks = []))) ∨
    (∃ (β : Type) (f : E → M → β × M) (k : β → Prog E D W K M S ε α), p.prog = .mem f k ∧
      p' = ⟨k (f c.env sh.mem).1, p.tx⟩ ∧ sh' = ⟨sh.db, (f c.env sh.mem).2⟩) ∨
    (∃ (β : Type) (s : Sql E D W K M S β) (k : Except S β → Prog E D W K M S ε α),
      (p.prog = .stmt s k ∨ p.prog = .pool s k) ∧
      sh' = ⟨sh.db, (s c.env sh.mem (applyAll sh.db p.writes)).mem⟩ ∧
      ((∃ e, (s c.env sh.mem (applyAll sh.db p.writes)).result = .error e ∧
          p'.writes = [] ∧ p'.locks = []) ∨
        (∃ b, (s c.env sh.mem (applyAll sh.db p.writes)).result = .ok b ∧
          p'.writes = p.writes ++ (s c.env sh.mem (applyAll sh.db p.writes)).writes ∧
          p'.locks = p.locks ++
            ((s c.env sh.mem (applyAll sh.db p.writes)).writes.map (Store.rowLock D) ++
              (s c.env sh.mem (applyAll sh.db p.writes)).locks)))) ∨
    (∃ k, p.prog = .commit k ∧ p' = ⟨k (.ok ()), none⟩ ∧ c.fault = none ∧
      sh' = ⟨applyAll sh.db p.writes, sh.mem⟩) := by
  obtain ⟨q, tx⟩ := p
  cases q with
  | ret r =>
    cases tx with
    | none => simp [step] at h
    | some t =>
      simp only [step, Option.some.injEq, Prod.mk.injEq] at h
      obtain ⟨rfl, rfl⟩ := h
      exact Or.inl ⟨rfl, Or.inr ⟨rfl, rfl⟩⟩
  | begin k =>
    cases tx with
    | some t => simp [step] at h
    | none =>
      simp only [step] at h
      split at h <;> simp only [Option.some.injEq, Prod.mk.injEq] at h <;> obtain ⟨rfl, rfl⟩ := h
      · exact Or.inl ⟨rfl, Or.inl ⟨rfl, rfl⟩⟩
      · exact Or.inl ⟨rfl, Or.inr ⟨rfl, rfl⟩⟩
  | stmt s k =>
    match tx with
    | none => simp [step] at h
    | some .aborted =>
      simp only [step] at h
      split at h <;> simp only [Option.some.injEq, Prod.mk.injEq, reduceCtorEq] at h
      obtain ⟨rfl, rfl⟩ := h
      exact Or.inl ⟨rfl, Or.inl ⟨rfl, rfl⟩⟩
    | some (.active ws ls) =>
      simp only [step] at h
      split at h
      · simp only [Option.some.injEq, Prod.mk.injEq] at h
        obtain ⟨rfl, rfl⟩ := h
        exact Or.inl ⟨rfl, Or.inr ⟨rfl, rfl⟩⟩
      · refine Or.inr (Or.inr (Or.inl ⟨_, s, k, Or.inl rfl, ?_⟩))
        split at h <;> rename_i hr <;> simp only [Option.some.injEq, Prod.mk.injEq] at h <;>
          obtain ⟨rfl, rfl⟩ := h
        · exact ⟨rfl, Or.inr ⟨_, hr, rfl, rfl⟩⟩
        · exact ⟨rfl, Or.inl ⟨_, hr, rfl, rfl⟩⟩
  | commit k =>
    match tx with
    | none => simp [step] at h
    | some .aborted =>
      simp only [step] at h
      split at h <;> simp only [Option.some.injEq, Prod.mk.injEq] at h <;> obtain ⟨rfl, rfl⟩ := h
      · exact Or.inl ⟨rfl, Or.inr ⟨rfl, rfl⟩⟩
      · exact Or.inl ⟨rfl, Or.inr ⟨rfl, rfl⟩⟩
    | some (.active ws ls) =>
      simp only [step] at h
      split at h <;> rename_i hfault <;> simp only [Option.some.injEq, Prod.mk.injEq] at h <;>
        obtain ⟨rfl, rfl⟩ := h
      · exact Or.inl ⟨rfl, Or.inr ⟨rfl, rfl⟩⟩
      · exact Or.inr (Or.inr (Or.inr ⟨k, rfl, rfl, hfault, rfl⟩))
  | pool s k =>
    cases tx with
    | some t => simp [step] at h
    | none =>
      simp only [step] at h
      split at h
      · simp only [Option.some.injEq, Prod.mk.injEq] at h
        obtain ⟨rfl, rfl⟩ := h
        exact Or.inl ⟨rfl, Or.inl ⟨rfl, rfl⟩⟩
      · refine Or.inr (Or.inr (Or.inl ⟨_, s, k, Or.inr rfl, ?_⟩))
        split at h <;> rename_i hr
        · split at h <;> rename_i hw <;> simp only [Option.some.injEq, Prod.mk.injEq] at h <;>
            obtain ⟨rfl, rfl⟩ := h
          · simp only [Bool.and_eq_true, List.isEmpty_iff] at hw
            exact ⟨rfl, Or.inr ⟨_, hr, by simp [hw.1], by simp [hw.1, hw.2]⟩⟩
          · exact ⟨rfl, Or.inr ⟨_, hr, by simp, by simp⟩⟩
        · simp only [Option.some.injEq, Prod.mk.injEq] at h
          obtain ⟨rfl, rfl⟩ := h
          exact ⟨rfl, Or.inl ⟨_, hr, rfl, rfl⟩⟩
  | mem f k =>
    simp only [step, Option.some.injEq, Prod.mk.injEq] at h
    obtain ⟨rfl, rfl⟩ := h
    exact Or.inr (Or.inl ⟨_, f, k, rfl, rfl, rfl⟩)

/-- The writes a step commits. -/
def committed (c : Choice E S) (p : Proc E D W K M S ε α) : List W :=
  match c.fault, p.prog with
  | none, .commit _ => p.writes
  | _, _ => []

/-- A step that commits, or commits nothing. -/
theorem committed_cases {c : Choice E S} {p p' : Proc E D W K M S ε α} {sh sh' : Shared D M}
    (h : p.step c sh = some (p', sh')) :
    (p.committed c = [] ∧ sh'.db = sh.db) ∨
      (p.committed c = p.writes ∧ p'.writes = [] ∧ p'.locks = [] ∧
        sh' = ⟨applyAll sh.db p.writes, sh.mem⟩ ∧ ∃ k, p.prog = .commit k ∧ c.fault = none) := by
  obtain ⟨q, tx⟩ := p
  by_cases hcommit : ∃ k, q = .commit k ∧ c.fault = none
  · obtain ⟨k, rfl, hfault⟩ := hcommit
    rcases tx with _ | (⟨ws, ls⟩ | _)
    · simp [step] at h
    · simp only [step, hfault, Option.some.injEq, Prod.mk.injEq] at h
      obtain ⟨rfl, rfl⟩ := h
      exact Or.inr ⟨by simp [committed, hfault], rfl, rfl, rfl, k, rfl, hfault⟩
    · simp only [step, hfault, Option.some.injEq, Prod.mk.injEq] at h
      obtain ⟨rfl, rfl⟩ := h
      exact Or.inr ⟨by simp [committed, hfault], rfl, rfl, rfl, k, rfl, hfault⟩
  · left
    refine ⟨?_, ?_⟩
    · unfold committed
      split
      · next hfault hprog => exact absurd ⟨_, hprog, hfault⟩ hcommit
      · rfl
    · rcases step_cases h with ⟨rfl, -⟩ | ⟨β, f, k, -, -, rfl⟩ | ⟨β, s, k, -, rfl, -⟩ |
        ⟨k, hprog, -, hfault, -⟩
      · rfl
      · rfl
      · rfl
      · exact absurd ⟨k, hprog, hfault⟩ hcommit

/-- **The tables change by commits only.** -/
theorem step_db {c : Choice E S} {p p' : Proc E D W K M S ε α} {sh sh' : Shared D M}
    (h : p.step c sh = some (p', sh')) : sh'.db = applyAll sh.db (p.committed c) := by
  rcases committed_cases h with ⟨hnone, hdb⟩ | ⟨hall, -, -, rfl, -⟩
  · rw [hnone, hdb, applyAll_nil]
  · rw [hall]

/-- A step that commits nothing keeps the writes, drops them, or adds those of a statement. -/
theorem writes_cases {c : Choice E S} {p p' : Proc E D W K M S ε α} {sh sh' : Shared D M}
    (h : p.step c sh = some (p', sh')) :
    (p'.writes = p.writes ∧ p'.locks = p.locks) ∨ (p'.writes = [] ∧ p'.locks = []) ∨
      ∃ (β : Type) (s : Sql E D W K M S β) (k : Except S β → Prog E D W K M S ε α),
        (p.prog = .stmt s k ∨ p.prog = .pool s k) ∧
        p'.writes = p.writes ++ (s c.env sh.mem (applyAll sh.db p.writes)).writes ∧
        p'.locks = p.locks ++ ((s c.env sh.mem (applyAll sh.db p.writes)).writes.map
          (Store.rowLock D) ++ (s c.env sh.mem (applyAll sh.db p.writes)).locks) := by
  rcases step_cases h with ⟨-, h | h⟩ | ⟨β, f, k, -, rfl, -⟩ |
    ⟨β, s, k, hprog, -, ⟨e, -, hws, hls⟩ | ⟨b, -, hws, hls⟩⟩ | ⟨k, -, rfl, -, -⟩
  · exact Or.inl h
  · exact Or.inr (Or.inl h)
  · exact Or.inl ⟨rfl, rfl⟩
  · exact Or.inr (Or.inl ⟨hws, hls⟩)
  · exact Or.inr (Or.inr ⟨β, s, k, hprog, hws, hls⟩)
  · exact Or.inr (Or.inl ⟨rfl, rfl⟩)

/-- What a step leaves of the program. -/
theorem next_step {c : Choice E S} {p p' : Proc E D W K M S ε α} {sh sh' : Shared D M}
    (h : p.step c sh = some (p', sh')) : p.prog.Next p'.prog := by
  obtain ⟨r, tx⟩ := p
  cases r with
  | ret r =>
    cases tx <;> simp only [step, Option.some.injEq, Prod.mk.injEq, reduceCtorEq] at h
    obtain ⟨rfl, -⟩ := h
    exact .ret r
  | begin k =>
    cases tx <;> simp only [step, reduceCtorEq] at h
    split at h <;> simp only [Option.some.injEq, Prod.mk.injEq] at h <;> obtain ⟨rfl, -⟩ := h <;>
      exact .begin _
  | stmt s k =>
    match tx with
    | none => simp [step] at h
    | some .aborted =>
      simp only [step] at h
      split at h <;> simp only [Option.some.injEq, Prod.mk.injEq, reduceCtorEq] at h
      obtain ⟨rfl, -⟩ := h
      exact .stmt _
    | some (.active ws ls) =>
      simp only [step] at h
      split at h
      · simp only [Option.some.injEq, Prod.mk.injEq] at h
        obtain ⟨rfl, -⟩ := h
        exact .stmt _
      · split at h <;> simp only [Option.some.injEq, Prod.mk.injEq] at h <;>
          obtain ⟨rfl, -⟩ := h <;> exact .stmt _
  | commit k =>
    match tx with
    | none => simp [step] at h
    | some .aborted =>
      simp only [step] at h
      split at h <;> simp only [Option.some.injEq, Prod.mk.injEq] at h <;> obtain ⟨rfl, -⟩ := h <;>
        exact .commit _
    | some (.active ws ls) =>
      simp only [step] at h
      split at h <;> simp only [Option.some.injEq, Prod.mk.injEq] at h <;> obtain ⟨rfl, -⟩ := h <;>
        exact .commit _
  | pool s k =>
    cases tx with
    | some t => simp [step] at h
    | none =>
      simp only [step] at h
      split at h
      · simp only [Option.some.injEq, Prod.mk.injEq] at h
        obtain ⟨rfl, -⟩ := h
        exact .pool _
      · split at h
        · split at h <;> simp only [Option.some.injEq, Prod.mk.injEq] at h <;> obtain ⟨rfl, -⟩ := h
          · exact .pool _
          · exact .flush _
        · simp only [Option.some.injEq, Prod.mk.injEq] at h
          obtain ⟨rfl, -⟩ := h
          exact .pool _
  | mem f k =>
    simp only [step, Option.some.injEq, Prod.mk.injEq] at h
    obtain ⟨rfl, -⟩ := h
    exact .mem _

/-- A step stays among the remainders of a program. -/
theorem within_step {c : Choice E S} {q : Prog E D W K M S ε α} {p p' : Proc E D W K M S ε α}
    {sh sh' : Shared D M} (h : p.step c sh = some (p', sh')) (hq : q.Within p.prog) :
    q.Within p'.prog := hq.next (next_step h)

theorem obeys_step {R : Prog.Rules E D W K M S} {c : Choice E S} {p p' : Proc E D W K M S ε α}
    {sh sh' : Shared D M} (h : p.step c sh = some (p', sh')) (hp : p.prog.Obeys R) :
    p'.prog.Obeys R := hp.within (within_step h .refl)

/-- A step of a program that keeps a view of the memory. -/
theorem keeps_step {γ : Type} {view : M → γ} {c : Choice E S} {p p' : Proc E D W K M S ε α}
    {sh sh' : Shared D M} (h : p.step c sh = some (p', sh')) (hp : p.prog.Obeys (.keeps view)) :
    view sh'.mem = view sh.mem ∧ p'.prog.Obeys (.keeps view) := by
  refine ⟨?_, obeys_step h hp⟩
  rcases step_cases h with ⟨rfl, -⟩ | ⟨β, f, k, hprog, -, rfl⟩ | ⟨β, s, k, hprog, rfl, -⟩ |
    ⟨k, -, -, -, rfl⟩
  · rfl
  · rw [hprog] at hp
    exact hp.1 _ _
  · rcases hprog with hprog | hprog <;> rw [hprog] at hp <;> exact hp.1 _ _ _
  · rfl

/-- A program that goes on with a pool statement has no transaction open. -/
theorem pool_writes {β : Type} {s : Sql E D W K M S β} {k : Except S β → Prog E D W K M S ε α}
    {c : Choice E S} {p p' : Proc E D W K M S ε α} {sh sh' : Shared D M}
    (hp : p.prog = .pool s k) (h : p.step c sh = some (p', sh')) : p.writes = [] := by
  obtain ⟨q, tx⟩ := p
  obtain rfl : q = .pool s k := hp
  cases tx with
  | none => rfl
  | some t => simp [step] at h

/-- Every row written is locked. -/
def Locked (p : Proc E D W K M S ε α) : Prop := ∀ w ∈ p.writes, Store.rowLock D w ∈ p.locks

theorem locked_none (q : Prog E D W K M S ε α) :
    (Proc.mk q none : Proc E D W K M S ε α).Locked := by simp [Locked]

theorem locked_step {c : Choice E S} {p p' : Proc E D W K M S ε α} {sh sh' : Shared D M}
    (h : p.step c sh = some (p', sh')) (hp : p.Locked) : p'.Locked := by
  intro w hw
  rcases step_cases h with ⟨-, ⟨hws, hls⟩ | ⟨hws, -⟩⟩ | ⟨β, f, k, -, rfl, -⟩ |
    ⟨β, s, k, -, -, ⟨e, -, hws, -⟩ | ⟨b, -, hws, hls⟩⟩ | ⟨k, -, rfl, -, -⟩
  · rw [hws] at hw
    rw [hls]
    exact hp w hw
  · simp [hws] at hw
  · exact hp w hw
  · simp [hws] at hw
  · rw [hws] at hw
    rw [hls]
    rcases List.mem_append.mp hw with hw | hw
    · exact List.mem_append_left _ (hp w hw)
    · exact List.mem_append_right _ (List.mem_append_left _ (List.mem_map_of_mem hw))
  · simp at hw

/-- Run one program alone through a list of choices. -/
def run : List (Choice E S) → Proc E D W K M S ε α → Shared D M →
    Option (Proc E D W K M S ε α × Shared D M)
  | [], p, sh => some (p, sh)
  | c :: cs, p, sh =>
    match p.step c sh with
    | some (p', sh') => run cs p' sh'
    | none => none

end Proc

/-! ## Many programs over one database -/

/-- All programs, and what they share. -/
structure World (Pid E D W K M S ε α : Type) where
  procs : Pid → Proc E D W K M S ε α
  sh : Shared D M

variable {Pid : Type} [DecidableEq Pid] [Store D W K]

namespace World

/-- What a program sees: the committed tables with its own writes. -/
def seen (w : World Pid E D W K M S ε α) (i : Pid) : D := applyAll w.sh.db (w.procs i).writes

/-- No lock is held twice. -/
def Exclusive (w : World Pid E D W K M S ε α) : Prop :=
  ∀ i j, i ≠ j → ∀ l ∈ (w.procs i).locks, l ∉ (w.procs j).locks

/-- Program `i` takes one step; it waits while another program holds a lock it asks for. -/
def step [Fintype Pid] [DecidableEq K] (w : World Pid E D W K M S ε α) (i : Pid)
    (c : Choice E S) : Option (World Pid E D W K M S ε α) :=
  match (w.procs i).step c w.sh with
  | none => none
  | some (p, sh) =>
    if ∀ j, j ≠ i → ∀ l ∈ p.locks, l ∉ (w.procs j).locks ∧
        ∀ l' ∈ (w.procs j).locks, Store.clash D W l l' = false then
      some ⟨Function.update w.procs i p, sh⟩
    else none

variable [Fintype Pid] [DecidableEq K]

theorem step_spec {w w' : World Pid E D W K M S ε α} {i : Pid} {c : Choice E S}
    (h : w.step i c = some w') :
    (w.procs i).step c w.sh = some (w'.procs i, w'.sh) ∧
      (∀ j, j ≠ i → ∀ l ∈ (w'.procs i).locks, l ∉ (w.procs j).locks) ∧
      (∀ j, j ≠ i → w'.procs j = w.procs j) := by
  unfold step at h
  split at h
  · exact absurd h (by simp)
  · next p sh hp =>
    split at h
    · next hl =>
      simp only [Option.some.injEq] at h
      subst h
      refine ⟨by simpa using hp, fun j hj l hmem => ?_, fun j hj => ?_⟩
      · exact (hl j hj l (by simpa using hmem)).1
      · exact Function.update_of_ne hj _ _
    · exact absurd h (by simp)

/-- The locks taken clash with none that another program holds. -/
theorem step_clash {w w' : World Pid E D W K M S ε α} {i : Pid} {c : Choice E S}
    (h : w.step i c = some w') {j : Pid} (hj : j ≠ i) {l l' : K} (hl : l ∈ (w'.procs i).locks)
    (hl' : l' ∈ (w.procs j).locks) : Store.clash D W l l' = false := by
  unfold step at h
  split at h
  · exact absurd h (by simp)
  · next p sh hp =>
    split at h
    · next hfree =>
      simp only [Option.some.injEq] at h
      subst h
      exact (hfree j hj l (by simpa using hl)).2 l' hl'
    · exact absurd h (by simp)

theorem exclusive_step {w w' : World Pid E D W K M S ε α} {i : Pid} {c : Choice E S}
    (hx : w.Exclusive) (h : w.step i c = some w') : w'.Exclusive := by
  obtain ⟨-, hfree, hsame⟩ := step_spec h
  intro a b hab l hl hl'
  by_cases ha : a = i
  · subst ha
    rw [hsame b (Ne.symm hab)] at hl'
    exact hfree b (Ne.symm hab) l hl hl'
  · rw [hsame a ha] at hl
    by_cases hb : b = i
    · subst hb
      exact hfree a ha l hl' hl
    · rw [hsame b hb] at hl'
      exact hx a b hab l hl hl'

/-- Locks are held by one program only, locks that clash too, and every row written is locked. -/
structure Orderly (w : World Pid E D W K M S ε α) : Prop where
  exclusive : w.Exclusive
  clear : ∀ i j, i ≠ j → ∀ l ∈ (w.procs i).locks, ∀ l' ∈ (w.procs j).locks,
    Store.clash D W l l' = false
  locked : ∀ i, (w.procs i).Locked

omit [DecidableEq Pid] [Fintype Pid] [DecidableEq K] in
/-- No transaction is open. -/
theorem orderly_start {w : World Pid E D W K M S ε α} (h : ∀ i, (w.procs i).tx = none) :
    w.Orderly := by
  have hproc : ∀ i, w.procs i = ⟨(w.procs i).prog, none⟩ := fun i => by
    rw [← h i]
  refine ⟨fun i j _ l hl => ?_, fun i j _ l hl => ?_, fun i => ?_⟩
  · rw [hproc i] at hl
    simp at hl
  · rw [hproc i] at hl
    simp at hl
  · rw [hproc i]
    exact Proc.locked_none _

theorem orderly_step {w w' : World Pid E D W K M S ε α} {i : Pid} {c : Choice E S}
    (ho : w.Orderly) (h : w.step i c = some w') : w'.Orderly := by
  obtain ⟨hstep, -, hsame⟩ := step_spec h
  refine ⟨exclusive_step ho.exclusive h, fun a b hab l hl l' hl' => ?_, fun j => ?_⟩
  · by_cases ha : a = i
    · subst ha
      rw [hsame b (Ne.symm hab)] at hl'
      exact step_clash h (Ne.symm hab) hl hl'
    · rw [hsame a ha] at hl
      by_cases hb : b = i
      · subst hb
        rw [Store.clash_comm (W := W)]
        exact step_clash h ha hl' hl
      · rw [hsame b hb] at hl'
        exact ho.clear a b hab l hl l' hl'
  · by_cases hj : j = i
    · subst hj
      exact Proc.locked_step hstep (ho.locked j)
    · rw [hsame j hj]
      exact ho.locked j

omit [DecidableEq Pid] [Fintype Pid] [DecidableEq K] in
/-- Two programs never have writes of one row in flight. -/
theorem Orderly.apart {w : World Pid E D W K M S ε α} (ho : w.Orderly) {i j : Pid} (hij : i ≠ j)
    {a b : W} (ha : a ∈ (w.procs i).writes) (hb : b ∈ (w.procs j).writes) :
    Store.rowLock D a ≠ Store.rowLock D b := by
  intro he
  exact ho.exclusive i j hij _ (ho.locked i a ha) (he ▸ ho.locked j b hb)

/-- The worlds reached from `w₀` by steps that all meet `C`. -/
inductive Run (C : World Pid E D W K M S ε α → Pid → World Pid E D W K M S ε α → Prop)
    (w₀ : World Pid E D W K M S ε α) : World Pid E D W K M S ε α → Prop where
  | start : Run C w₀ w₀
  | step {w w'} (i : Pid) (c : Choice E S) : Run C w₀ w → w.step i c = some w' → C w i w' →
      Run C w₀ w'

/-- Any step at all. -/
def anyStep : World Pid E D W K M S ε α → Pid → World Pid E D W K M S ε α → Prop :=
  fun _ _ _ => True

/-- Follow a schedule. -/
def follow (w : World Pid E D W K M S ε α) :
    List (Pid × Choice E S) → Option (World Pid E D W K M S ε α)
  | [] => some w
  | (i, c) :: cs => (w.step i c).bind fun w' => w'.follow cs

theorem run_follow {w₀ w w' : World Pid E D W K M S ε α} {cs : List (Pid × Choice E S)}
    (hr : Run anyStep w₀ w) (h : w.follow cs = some w') : Run anyStep w₀ w' := by
  induction cs generalizing w with
  | nil =>
    simp only [follow, Option.some.injEq] at h
    exact h ▸ hr
  | cons a cs ih =>
    simp only [follow, Option.bind_eq_some_iff] at h
    obtain ⟨w₁, h₁, h₂⟩ := h
    exact ih (hr.step a.1 a.2 h₁ trivial) h₂

/-- The world a schedule leads to, or the first one where the schedule gets stuck. -/
theorem run_followD (w₀ : World Pid E D W K M S ε α) (cs : List (Pid × Choice E S)) :
    Run anyStep w₀ ((w₀.follow cs).getD w₀) := by
  cases h : w₀.follow cs with
  | none => exact .start
  | some w => exact run_follow .start h

/-- The invariant rule for runs. -/
theorem Run.induct {C : World Pid E D W K M S ε α → Pid → World Pid E D W K M S ε α → Prop}
    {w₀ : World Pid E D W K M S ε α} (I : World Pid E D W K M S ε α → Prop) (h₀ : I w₀)
    (hstep : ∀ w i c w', I w → w.step i c = some w' → C w i w' → I w')
    {w : World Pid E D W K M S ε α} (hr : Run C w₀ w) : I w := by
  induction hr with
  | start => exact h₀
  | step i c _ h hC ih => exact hstep _ i c _ ih h hC

/-! ## Histories -/

/-- One step of a run. -/
structure Event (Pid E D W K M S ε α : Type) where
  before : World Pid E D W K M S ε α
  pid : Pid
  choice : Choice E S
  after : World Pid E D W K M S ε α

/-- The runs from `w₀` with all their steps, the latest first; `C` is a condition on a step
    after the steps before it. -/
inductive Trace (C : List (Event Pid E D W K M S ε α) → Event Pid E D W K M S ε α → Prop)
    (w₀ : World Pid E D W K M S ε α) :
    List (Event Pid E D W K M S ε α) → World Pid E D W K M S ε α → Prop where
  | start : Trace C w₀ [] w₀
  | step {es w w'} (i : Pid) (c : Choice E S) : Trace C w₀ es w → w.step i c = some w' →
      C es ⟨w, i, c, w'⟩ → Trace C w₀ (⟨w, i, c, w'⟩ :: es) w'

/-- Any event at all. -/
def anyEvent : List (Event Pid E D W K M S ε α) → Event Pid E D W K M S ε α → Prop :=
  fun _ _ => True

theorem Trace.mono {C C' : List (Event Pid E D W K M S ε α) → Event Pid E D W K M S ε α → Prop}
    {w₀ w : World Pid E D W K M S ε α} {es : List (Event Pid E D W K M S ε α)}
    (hC : ∀ es e, Trace C w₀ es e.before → e.before.step e.pid e.choice = some e.after → C es e →
      C' es e) (ht : Trace C w₀ es w) : Trace C' w₀ es w := by
  induction ht with
  | start => exact .start
  | step i c ht hs h ih => exact ih.step i c hs (hC _ _ ht hs h)

/-- Every event of a run is a step from a state that a shorter run reaches. -/
theorem Trace.event {C : List (Event Pid E D W K M S ε α) → Event Pid E D W K M S ε α → Prop}
    {w₀ w : World Pid E D W K M S ε α} {es : List (Event Pid E D W K M S ε α)}
    (ht : Trace C w₀ es w) {e : Event Pid E D W K M S ε α} (he : e ∈ es) :
    ∃ es', es' <:+ es ∧ Trace C w₀ es' e.before ∧
      e.before.step e.pid e.choice = some e.after ∧ C es' e := by
  induction ht with
  | start => exact absurd he (by simp)
  | @step es w w' i c ht hs hC ih =>
    rcases List.mem_cons.mp he with rfl | he
    · exact ⟨es, List.suffix_cons _ _, ht, hs, hC⟩
    · obtain ⟨es', hsuffix, h⟩ := ih he
      exact ⟨es', hsuffix.trans (List.suffix_cons _ _), h⟩

/-- A schedule that does not get stuck is a run. -/
theorem trace_follow {C : List (Event Pid E D W K M S ε α) → Event Pid E D W K M S ε α → Prop}
    {w₀ w w' : World Pid E D W K M S ε α} {es : List (Event Pid E D W K M S ε α)}
    {cs : List (Pid × Choice E S)} (hC : ∀ a ∈ cs, ∀ es w w', C es ⟨w, a.1, a.2, w'⟩)
    (ht : Trace C w₀ es w) (h : w.follow cs = some w') : ∃ es', es <:+ es' ∧ Trace C w₀ es' w' := by
  induction cs generalizing es w with
  | nil =>
    simp only [follow, Option.some.injEq] at h
    exact ⟨es, List.suffix_rfl, h ▸ ht⟩
  | cons a cs ih =>
    simp only [follow, Option.bind_eq_some_iff] at h
    obtain ⟨w₁, h₁, h₂⟩ := h
    obtain ⟨es', hsuffix, ht'⟩ := ih (fun b hb => hC b (List.mem_cons_of_mem _ hb))
      (ht.step a.1 a.2 h₁ (hC a List.mem_cons_self _ _ _)) h₂
    exact ⟨es', (List.suffix_cons _ _).trans hsuffix, ht'⟩

/-- The state a schedule leads to, or the first one where the schedule gets stuck. -/
def reach (w : World Pid E D W K M S ε α) (cs : List (Pid × Choice E S)) :
    World Pid E D W K M S ε α :=
  (w.follow cs).getD w

theorem trace_reach {C : List (Event Pid E D W K M S ε α) → Event Pid E D W K M S ε α → Prop}
    {w₀ w : World Pid E D W K M S ε α} {es : List (Event Pid E D W K M S ε α)}
    {cs : List (Pid × Choice E S)} (hC : ∀ a ∈ cs, ∀ es w w', C es ⟨w, a.1, a.2, w'⟩)
    (ht : Trace C w₀ es w) (h : (w.follow cs).isSome) :
    ∃ es', es <:+ es' ∧ Trace C w₀ es' (w.reach cs) := by
  obtain ⟨w', hw'⟩ := Option.isSome_iff_exists.mp h
  rw [reach, hw']
  exact trace_follow hC ht hw'

theorem step_reach {w : World Pid E D W K M S ε α} {i : Pid} {c : Choice E S}
    (h : (w.follow [(i, c)]).isSome) : w.step i c = some (w.reach [(i, c)]) := by
  have hone : w.follow [(i, c)] = w.step i c := by
    cases h : w.step i c <;> simp [follow, h]
  rw [reach, hone]
  rw [hone] at h
  obtain ⟨w', hw'⟩ := Option.isSome_iff_exists.mp h
  rw [hw', Option.getD_some]

/-- What a sum over the programs loses and gains with one step. -/
theorem sum_step {w w' : World Pid E D W K M S ε α} {i : Pid} {c : Choice E S}
    (h : w.step i c = some w') (f : Pid → Proc E D W K M S ε α → ℕ) :
    ∑ j, f j (w'.procs j) + f i (w.procs i) = ∑ j, f j (w.procs j) + f i (w'.procs i) := by
  obtain ⟨-, -, hsame⟩ := step_spec h
  have hrest : ∑ j ∈ Finset.univ.erase i, f j (w'.procs j) =
      ∑ j ∈ Finset.univ.erase i, f j (w.procs j) :=
    Finset.sum_congr rfl fun j hj => by rw [hsame j (Finset.ne_of_mem_erase hj)]
  rw [← Finset.add_sum_erase Finset.univ (fun j => f j (w'.procs j)) (Finset.mem_univ i),
    ← Finset.add_sum_erase Finset.univ (fun j => f j (w.procs j)) (Finset.mem_univ i), hrest]
  omega

open Classical in
/-- How many programs satisfy `Q`. -/
noncomputable def count (Q : Pid → Proc E D W K M S ε α → Prop)
    (w : World Pid E D W K M S ε α) : ℕ :=
  ∑ i, if Q i (w.procs i) then 1 else 0

section Count

variable {w w' : World Pid E D W K M S ε α} {i : Pid} {c : Choice E S}
  {Q : Pid → Proc E D W K M S ε α → Prop}

theorem count_same (h : w.step i c = some w') (hQ : Q i (w.procs i) ↔ Q i (w'.procs i)) :
    w'.count Q = w.count Q := by
  classical
  have hsum := sum_step h fun j p => if Q j p then 1 else 0
  simp only [hQ] at hsum
  exact Nat.add_right_cancel hsum

theorem count_gain (h : w.step i c = some w') (hQ : ¬ Q i (w.procs i)) (hQ' : Q i (w'.procs i)) :
    w'.count Q = w.count Q + 1 := by
  classical
  have hsum := sum_step h fun j p => if Q j p then 1 else 0
  rw [if_neg hQ, if_pos hQ'] at hsum
  exact hsum

theorem count_lose (h : w.step i c = some w') (hQ : Q i (w.procs i)) (hQ' : ¬ Q i (w'.procs i)) :
    w.count Q = w'.count Q + 1 := by
  classical
  have hsum := sum_step h fun j p => if Q j p then 1 else 0
  rw [if_pos hQ, if_neg hQ'] at hsum
  exact hsum.symm

omit [DecidableEq Pid] [Store D W K] [DecidableEq K] in
theorem count_le {Q' : Pid → Proc E D W K M S ε α → Prop} (h : ∀ i p, Q i p → Q' i p) :
    w.count Q ≤ w.count Q' := by
  classical
  refine Finset.sum_le_sum fun i _ => ?_
  by_cases hQ : Q i (w.procs i)
  · rw [if_pos hQ, if_pos (h i _ hQ)]
  · rw [if_neg hQ]
    exact Nat.zero_le _

omit [DecidableEq Pid] [Store D W K] [DecidableEq K] in
theorem count_eq_zero (h : ∀ i, ¬ Q i (w.procs i)) : w.count Q = 0 := by
  classical
  exact Finset.sum_eq_zero fun i _ => if_neg (h i)

end Count

end World

end ReadCommitted
