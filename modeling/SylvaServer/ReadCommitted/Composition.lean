/-
  Contracts, one part of a program at a time.

  `Safe` speaks of a whole program. Here the transaction of a program is described by an
  assertion `L` on its writes, its locks and the shared state, which the others do not disturb and
  which every request within the rules `R` keeps (`Local`). A `Part` is a program that may stand
  anywhere in one that keeps the contract: what comes after it may look at its result in any
  way, also where it fails. `Leads` is the same with an assertion of its own for each result, for a
  transaction that passes through several stages.

  Proved: parts follow one another, branch, hand over their errors and map them (`part_bind`,
  `part_ite`, `part_attempt`, `part_mapError`), a program within the rules is a part
  (`Local.part_of_obeys`), and a part alone keeps the contract (`Local.safe`); the rules of `Leads`
  along a `do` block, down to single requests (`leads_bind` to `Stages.leads_query`).
-/
import SylvaServer.ReadCommitted.Gates
import SylvaServer.ReadCommitted.Logic

namespace ReadCommitted

variable {E D W K M S ε ε' ε₀ α β β₀ : Type} [Store D W K]

/-- What the transaction of a program knows, in terms of its writes and locks: the others leave it
    true, and so does every request within the rules, which also keeps the guarantee. -/
structure Local (T : Contract E D W K M S ε α) (R : Prog.Rules E D W K M S)
    (L : List W → List K → Shared D M → Prop) : Prop where
  stable : ∀ (p : Proc E D W K M S ε α) (sh sh₁ : Shared D M), L p.writes p.locks sh → T.inv sh₁ →
    T.rely p sh sh₁ → L p.writes p.locks sh₁
  step : ∀ (c : Choice E S) (p p' : Proc E D W K M S ε α) (sh sh' : Shared D M), p.prog.First R →
    L p.writes p.locks sh → T.inv sh → p.step c sh = some (p', sh') →
    T.guar p sh p' sh' ∧ L p'.writes p'.locks sh'
  done : ∀ (r : Except ε α) (sh : Shared D M), T.inv sh → T.done r sh

namespace Prog

/-- From any transaction with `L`, the program keeps the contract. -/
def Keeps (T : Contract E D W K M S ε α) (L : List W → List K → Shared D M → Prop)
    (p : Prog E D W K M S ε α) : Prop :=
  ∀ (tx : Option (Tx W K)) (sh : Shared D M), L (Proc.mk p tx).writes (Proc.mk p tx).locks sh →
    Safe T ⟨p, tx⟩ sh

/-- Whatever follows it keeps the contract, the program followed by it does. -/
def Part (T : Contract E D W K M S ε₀ β₀) (L : List W → List K → Shared D M → Prop)
    (p : Prog E D W K M S ε α) : Prop :=
  ∀ f : Except ε α → Prog E D W K M S ε₀ β₀, (∀ r, Keeps T L (f r)) → Keeps T L (p.attempt >>= f)

variable {T : Contract E D W K M S ε₀ β₀} {L : List W → List K → Shared D M → Prop}
  {R : Rules E D W K M S}

/-! ## Parts follow one another -/

omit [Store D W K] in
/-- What `attempt` makes of a sequence. -/
theorem attempt_bind (p : Prog E D W K M S ε α) (f : α → Prog E D W K M S ε β)
    (g : Except ε β → Prog E D W K M S ε₀ β₀) :
    ((p >>= f).attempt >>= g) = p.attempt >>= fun r =>
      match r with
      | .ok a => (f a).attempt >>= g
      | .error e => g (.error e) := by
  induction p with
  | ret r => cases r <;> rfl
  | begin k ih => simp only [bind_begin, attempt, ih]
  | stmt s k ih => simp only [bind_stmt, attempt, ih]
  | commit k ih => simp only [bind_commit, attempt, ih]
  | pool s k ih => simp only [bind_pool, attempt, ih]
  | mem h k ih => simp only [bind_mem, attempt, ih]

omit [Store D W K] in
theorem attempt_mapError (p : Prog E D W K M S ε α) (g : ε → ε')
    (f : Except ε' α → Prog E D W K M S ε₀ β₀) :
    ((p.mapError g).attempt >>= f) = p.attempt >>= fun r => f (r.mapError g) := by
  induction p with
  | ret r => cases r <;> rfl
  | begin k ih => simp only [bind_begin, attempt, mapError, ih]
  | stmt s k ih => simp only [bind_stmt, attempt, mapError, ih]
  | commit k ih => simp only [bind_commit, attempt, mapError, ih]
  | pool s k ih => simp only [bind_pool, attempt, mapError, ih]
  | mem h k ih => simp only [bind_mem, attempt, mapError, ih]

omit [Store D W K] in
theorem attempt_attempt (p : Prog E D W K M S ε α)
    (f : Except ε' (Except ε α) → Prog E D W K M S ε₀ β₀) :
    ((p.attempt : Prog E D W K M S ε' (Except ε α)).attempt >>= f) =
      p.attempt >>= fun r => f (.ok r) := by
  induction p with
  | ret r => rfl
  | begin k ih => simp only [bind_begin, attempt, ih]
  | stmt s k ih => simp only [bind_stmt, attempt, ih]
  | commit k ih => simp only [bind_commit, attempt, ih]
  | pool s k ih => simp only [bind_pool, attempt, ih]
  | mem h k ih => simp only [bind_mem, attempt, ih]

omit [Store D W K] in
/-- A program is its own attempt, its result returned. -/
theorem attempt_ret (p : Prog E D W K M S ε α) : (p.attempt >>= fun r => ret r) = p := by
  induction p with
  | ret r => rfl
  | begin k ih => simp only [bind_begin, attempt, ih]
  | stmt s k ih => simp only [bind_stmt, attempt, ih]
  | commit k ih => simp only [bind_commit, attempt, ih]
  | pool s k ih => simp only [bind_pool, attempt, ih]
  | mem h k ih => simp only [bind_mem, attempt, ih]

theorem part_ret (r : Except ε α) : Part T L (ret r : Prog E D W K M S ε α) := fun _ hf => hf r

theorem part_bind {p : Prog E D W K M S ε α} {f : α → Prog E D W K M S ε β} (hp : Part T L p)
    (hf : ∀ a, Part T L (f a)) : Part T L (p >>= f) := by
  intro g hg
  rw [attempt_bind]
  refine hp _ fun r => ?_
  cases r with
  | ok a => exact hf a g hg
  | error e => exact hg _

theorem part_ite {c : Prop} [Decidable c] {p q : Prog E D W K M S ε α} (hp : Part T L p)
    (hq : Part T L q) : Part T L (if c then p else q) := by
  split
  · exact hp
  · exact hq

theorem part_mapError {p : Prog E D W K M S ε α} (g : ε → ε') (hp : Part T L p) :
    Part T L (p.mapError g) := by
  intro f hf
  rw [attempt_mapError]
  exact hp _ fun r => hf _

theorem part_attempt {p : Prog E D W K M S ε α} (hp : Part T L p) :
    Part T L (p.attempt : Prog E D W K M S ε' (Except ε α)) := by
  intro f hf
  rw [attempt_attempt]
  exact hp _ fun r => hf _

/-! ## From stage to stage -/

/-- From `L` the program keeps the contract and returns `r` where `L' r` holds: whatever follows it
    and keeps the contract from `L' r` on, it keeps the contract in front of that. -/
def Leads (T : Contract E D W K M S ε₀ β₀) (L : List W → List K → Shared D M → Prop)
    (L' : Except ε α → List W → List K → Shared D M → Prop) (p : Prog E D W K M S ε α) : Prop :=
  ∀ f : Except ε α → Prog E D W K M S ε₀ β₀, (∀ r, Keeps T (L' r) (f r)) →
    Keeps T L (p.attempt >>= f)

theorem Keeps.weaken {L₁ : List W → List K → Shared D M → Prop} {p : Prog E D W K M S ε₀ β₀}
    (hp : Keeps T L p) (h : ∀ ws ls sh, L₁ ws ls sh → L ws ls sh) : Keeps T L₁ p :=
  fun tx sh hL => hp tx sh (h _ _ _ hL)

theorem leads_part {p : Prog E D W K M S ε α} (hp : Part T L p) : Leads T L (fun _ => L) p := hp

theorem part_leads {p : Prog E D W K M S ε α} (hp : Leads T L (fun _ => L) p) : Part T L p := hp

theorem leads_ret {L' : Except ε α → List W → List K → Shared D M → Prop} {r : Except ε α}
    (h : ∀ ws ls sh, L ws ls sh → L' r ws ls sh) : Leads T L L' (ret r : Prog E D W K M S ε α) :=
  fun _ hf => (hf r).weaken h

theorem leads_bind {Q : Except ε α → List W → List K → Shared D M → Prop}
    {L' : Except ε β → List W → List K → Shared D M → Prop} {p : Prog E D W K M S ε α}
    {f : α → Prog E D W K M S ε β} (hp : Leads T L Q p) (hf : ∀ a, Leads T (Q (.ok a)) L' (f a))
    (herror : ∀ e ws ls sh, Q (.error e) ws ls sh → L' (.error e) ws ls sh) :
    Leads T L L' (p >>= f) := by
  intro g hg
  rw [attempt_bind]
  refine hp _ fun r => ?_
  cases r with
  | ok a => exact hf a g hg
  | error e => exact (hg _).weaken (herror e)

/-- A result already computed. -/
theorem leads_given {L' : Except ε β → List W → List K → Shared D M → Prop} {r : Except ε α}
    {f : α → Prog E D W K M S ε β} (hok : ∀ a, r = .ok a → Leads T L L' (f a))
    (herror : ∀ e ws ls sh, L ws ls sh → L' (.error e) ws ls sh) :
    Leads T L L' (ofExcept r >>= f) := by
  cases r with
  | ok a => exact hok a rfl
  | error e => exact leads_ret (herror e)

/-- What the assertion says of other things than the state. -/
theorem leads_of {L' : Except ε α → List W → List K → Shared D M → Prop} {p : Prog E D W K M S ε α}
    (h : ∀ ws ls sh, L ws ls sh → Leads T L L' p) : Leads T L L' p :=
  fun f hf tx sh hL => h _ _ _ hL f hf tx sh hL

theorem leads_mapError {L' : Except ε' α → List W → List K → Shared D M → Prop}
    {p : Prog E D W K M S ε α} (g : ε → ε') (hp : Leads T L (fun r => L' (r.mapError g)) p) :
    Leads T L L' (p.mapError g) := by
  intro f hf
  rw [attempt_mapError]
  exact hp _ fun r => hf _

theorem leads_weaken {L₁ : List W → List K → Shared D M → Prop}
    {L' L₁' : Except ε α → List W → List K → Shared D M → Prop} {p : Prog E D W K M S ε α}
    (hp : Leads T L L' p) (h : ∀ ws ls sh, L₁ ws ls sh → L ws ls sh)
    (h' : ∀ r ws ls sh, L' r ws ls sh → L₁' r ws ls sh) : Leads T L₁ L₁' p :=
  fun f hf => (hp f fun r => (hf r).weaken (h' r)).weaken h

/-- A request that cannot be made with this transaction never comes to an end. -/
theorem safe_stuck {p : Proc E D W K M S ε₀ β₀} {sh : Shared D M} (hret : ∀ r, p.prog ≠ .ret r)
    (hstuck : ∀ c sh, p.step c sh = none) : Safe T p sh :=
  .intro (fun _ _ _ r he => absurd (congrArg Proc.prog he) (hret r))
    fun sh₁ _ _ c p' sh' hs => by simp [hstuck c sh₁] at hs

end Prog

/-- Contracts for a transaction that passes through stages: a request that commits nothing keeps the
    guarantee. -/
structure Stages (T : Contract E D W K M S ε α) : Prop where
  quiet : ∀ (p p' : Proc E D W K M S ε α) (sh : Shared D M) (mem : M), T.inv sh →
    T.guar p sh p' ⟨sh.db, mem⟩

/-- The others leave an assertion true. -/
def Contract.Stable (T : Contract E D W K M S ε α)
    (L : List W → List K → Shared D M → Prop) : Prop :=
  ∀ (p : Proc E D W K M S ε α) (sh sh₁ : Shared D M), L p.writes p.locks sh → T.inv sh₁ →
    T.rely p sh sh₁ → L p.writes p.locks sh₁

namespace Stages

open Prog

variable {T : Contract E D W K M S ε₀ β₀} {L : List W → List K → Shared D M → Prop}

theorem leads_begin (hT : Stages T) (hstable : T.Stable L)
    {L' : Except S Unit → List W → List K → Shared D M → Prop}
    (h : ∀ r sh, T.inv sh → L [] [] sh → L' r [] [] sh) : Leads T L L' beginTx := by
  intro f hf tx sh hL
  cases tx with
  | some t => exact safe_stuck (by simp [beginTx, attempt]) fun _ _ => rfl
  | none =>
    refine Safe.begin fun sh₁ hinv hrely => ?_
    have h₁ := hstable _ sh sh₁ hL hinv hrely
    exact ⟨fun e => ⟨hT.quiet _ _ sh₁ _ hinv, hf _ _ _ (h _ _ hinv h₁)⟩, hT.quiet _ _ sh₁ _ hinv,
      hf _ _ _ (h _ _ hinv h₁)⟩

/-- A statement in the transaction. Where it fails the writes are gone. -/
theorem leads_inTx (hT : Stages T) (hstable : T.Stable L) {s : Sql E D W K M S β}
    {L' : Except S β → List W → List K → Shared D M → Prop}
    (hok : ∀ env sh ws ls b, T.inv sh → L ws ls sh →
      (s env sh.mem (applyAll sh.db ws)).result = .ok b →
      L' (.ok b) (ws ++ (s env sh.mem (applyAll sh.db ws)).writes)
        (ls ++ ((s env sh.mem (applyAll sh.db ws)).writes.map (Store.rowLock D) ++
          (s env sh.mem (applyAll sh.db ws)).locks))
            ⟨sh.db, (s env sh.mem (applyAll sh.db ws)).mem⟩)
    (herror : ∀ e ws ls sh mem, T.inv sh → L ws ls sh → L' (.error e) [] [] ⟨sh.db, mem⟩) :
    Leads T L L' (inTx s) := by
  intro f hf tx sh hL
  cases tx with
  | none => exact safe_stuck (by simp [inTx, attempt]) fun _ _ => rfl
  | some t =>
    cases t with
    | active ws ls =>
      refine Safe.stmt fun sh₁ hinv hrely => ?_
      have h₁ := hstable _ sh sh₁ hL hinv hrely
      refine ⟨fun e => ⟨hT.quiet _ _ sh₁ _ hinv, hf _ _ _ (herror _ ws ls sh₁ _ hinv h₁)⟩, ?_⟩
      rintro env _ rfl
      refine ⟨fun e _ => ⟨hT.quiet _ _ sh₁ _ hinv, hf _ _ _ (herror _ ws ls sh₁ _ hinv h₁)⟩,
        fun b hb => ?_⟩
      exact ⟨hT.quiet _ _ sh₁ _ hinv, hf _ _ _ (hok env sh₁ ws ls b hinv h₁ hb)⟩
    | aborted =>
      refine Safe.stmt_aborted fun sh₁ hinv hrely e => ?_
      have h₁ := hstable _ sh sh₁ hL hinv hrely
      exact ⟨hT.quiet _ _ sh₁ _ hinv, hf _ _ _ (herror _ [] [] sh₁ _ hinv h₁)⟩

/-- A look at the environment, or at the memory of the process. -/
theorem leads_critical (hT : Stages T) (hstable : T.Stable L) {g : E → M → β × M}
    {L' : Except ε β → List W → List K → Shared D M → Prop}
    (h : ∀ env sh ws ls, T.inv sh → L ws ls sh →
      L' (.ok (g env sh.mem).1) ws ls ⟨sh.db, (g env sh.mem).2⟩) :
    Leads T L L' (critical g : Prog E D W K M S ε β) := by
  intro f hf tx sh hL
  refine Safe.mem fun sh₁ hinv hrely env => ?_
  have h₁ := hstable _ sh sh₁ hL hinv hrely
  exact ⟨hT.quiet _ _ sh₁ _ hinv, hf _ _ _ (h env sh₁ _ _ hinv h₁)⟩

/-- A query on the pool. -/
theorem leads_query (hT : Stages T) (hstable : T.Stable L) {s : Sql E D W K M S β}
    (hread : ∀ env m db, (s env m db).writes = [] ∧ (s env m db).locks = [])
    {L' : Except S β → List W → List K → Shared D M → Prop}
    (hrun : ∀ env sh, T.inv sh → L [] [] sh →
      L' (s env sh.mem sh.db).result [] [] ⟨sh.db, (s env sh.mem sh.db).mem⟩)
    (hfault : ∀ e sh, T.inv sh → L [] [] sh → L' (.error e) [] [] sh) :
    Leads T L L' (onPool s) := by
  intro f hf tx sh hL
  cases tx with
  | some t => exact safe_stuck (by simp [onPool, attempt]) fun _ _ => rfl
  | none =>
    refine Safe.query hread fun sh₁ hinv hrely => ?_
    have h₁ := hstable _ sh sh₁ hL hinv hrely
    exact ⟨fun e => ⟨hT.quiet _ _ sh₁ _ hinv, hf _ _ _ (hfault e sh₁ hinv h₁)⟩,
      fun env => ⟨hT.quiet _ _ sh₁ _ hinv, hf _ _ _ (hrun env sh₁ hinv h₁)⟩⟩

end Stages

namespace Local

open Prog

variable {T : Contract E D W K M S ε₀ β₀} {L : List W → List K → Shared D M → Prop}
  {R : Rules E D W K M S} (hL : Local T R L)

include hL

/-- A request within the rules, before remainders that keep the contract. -/
theorem keeps_next {p : Prog E D W K M S ε₀ β₀} (hp : p.First R) (hret : ∀ r, p ≠ .ret r)
    (hnext : ∀ q, p.Next q → Keeps T L q) : Keeps T L p := by
  intro tx sh h
  refine .intro (fun sh₁ _ _ r he => ?_) fun sh₁ hinv hrely c p' sh' hs => ?_
  · have hprog : p = .ret r := by simpa using congrArg Proc.prog he
    exact absurd hprog (hret r)
  · have h₁ := hL.stable ⟨p, tx⟩ sh sh₁ h hinv hrely
    obtain ⟨hguar, h'⟩ := hL.step c ⟨p, tx⟩ p' sh₁ sh' hp h₁ hinv hs
    exact ⟨hguar, hnext p'.prog (Proc.next_step hs) p'.tx sh' h'⟩

theorem keeps_ret (r : Except ε₀ β₀) : Keeps T L (.ret r) := by
  have hended : ∀ sh, Safe T ⟨.ret r, none⟩ sh := fun sh =>
    .ret (fun hne => absurd rfl hne) fun _ sh₂ _ _ hinv _ => hL.done r sh₂ hinv
  intro tx sh h
  cases tx with
  | none => exact hended sh
  | some t =>
    -- the open transaction is dropped first
    refine .intro (fun _ _ _ r' he => by simp at he) fun sh₁ hinv hrely c p' sh' hs => ?_
    have h₁ := hL.stable ⟨.ret r, some t⟩ sh sh₁ h hinv hrely
    have hkept := hL.step c ⟨.ret r, some t⟩ p' sh₁ sh' trivial h₁ hinv hs
    simp only [Proc.step, Option.some.injEq, Prod.mk.injEq] at hs
    obtain ⟨rfl, rfl⟩ := hs
    exact ⟨hkept.1, hended _⟩

/-- A program within the rules is a part. -/
theorem part_of_obeys {p : Prog E D W K M S ε α} (hp : p.Obeys R) : Part T L p := by
  intro f hf
  induction p with
  | ret r => exact hf r
  | begin k ih =>
    refine hL.keeps_next (p := .begin fun r => (k r).attempt >>= f) hp.1 (by simp) fun q hq => ?_
    cases hq with
    | begin r => exact ih r (hp.2 r)
  | stmt s k ih =>
    refine hL.keeps_next (p := .stmt s fun r => (k r).attempt >>= f) hp.1 (by simp) fun q hq => ?_
    cases hq with
    | stmt r => exact ih r (hp.2 r)
  | commit k ih =>
    refine hL.keeps_next (p := .commit fun r => (k r).attempt >>= f) trivial (by simp)
      fun q hq => ?_
    cases hq with
    | commit r => exact ih r (hp r)
  | pool s k ih =>
    refine hL.keeps_next (p := .pool s fun r => (k r).attempt >>= f) hp.1 (by simp) fun q hq => ?_
    cases hq with
    | pool r => exact ih r (hp.2 r)
    | flush b =>
      refine hL.keeps_next trivial (by simp) fun q' hq' => ?_
      cases hq' with
      | commit r => exact ih _ (hp.2 _)
  | mem g k ih =>
    refine hL.keeps_next (p := .mem g fun b => (k b).attempt >>= f) hp.1 (by simp) fun q hq => ?_
    cases hq with
    | mem b => exact ih b (hp.2 b)

/-- A part alone, outside a transaction. -/
theorem safe {p : Prog E D W K M S ε₀ β₀} (hp : Part T L p) {sh : Shared D M} (h : L [] [] sh) :
    Safe T ⟨p, none⟩ sh := by
  have hkeeps := hp (fun r => .ret r) hL.keeps_ret
  rw [attempt_ret] at hkeeps
  exact hkeeps none sh h

end Local

end ReadCommitted
