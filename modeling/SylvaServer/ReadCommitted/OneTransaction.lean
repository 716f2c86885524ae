/-
  Programs that do all their work in one transaction.

  Such a program looks around on the pool, opens a transaction, stops with an error as soon as one
  of its requests fails, and returns right after the commit (`Prog.Opens`). Nothing of the shape
  depends on what the statements do, so it is checked from the text of the program alone.

  Proved: with any of its requests failing, the program stops before it opens the transaction or
  goes on in it (`Ends.opened`), and there an error commits nothing and a result has all writes
  in one commit (`Ends.closed`). Among other programs the shape is followed step by step
  (`Proc.opening_step`, `Proc.closing_step`).
-/
import SylvaServer.ReadCommitted.Ends

namespace ReadCommitted

variable {E D W K M S ε ε' α β γ : Type}

namespace Prog

/-- The program is over, with an error. -/
def Stops (p : Prog E D W K M S ε α) : Prop := ∃ e, p = .ret (.error e)

/-- Looks on the pool and critical sections, no more. -/
def Looks : Prog E D W K M S ε α → Prop
  | ret _ => True
  | begin _ => False
  | stmt _ _ => False
  | commit _ => False
  | pool s k => (∀ env m d, (s env m d).writes = []) ∧ ∀ r, (k r).Looks
  | mem _ k => ∀ b, (k b).Looks

/-- The rest of a transaction: a failed request stops it, and it returns after its commit. -/
def Closes : Prog E D W K M S ε α → Prop
  | ret r => ∃ e, r = .error e
  | begin _ => False
  | stmt _ k => (∀ e, (k (.error e)).Stops) ∧ ∀ b, (k (.ok b)).Closes
  | commit k => (∀ e, (k (.error e)).Stops) ∧ ∃ a, k (.ok ()) = .ret (.ok a)
  | pool _ _ => False
  | mem _ k => ∀ b, (k b).Closes

/-- Looks, and then one transaction, which is a `Q`. -/
def Opens (Q : Prog E D W K M S ε α → Prop) : Prog E D W K M S ε α → Prop
  | ret r => ∃ e, r = .error e
  | begin k => (∀ e, (k (.error e)).Stops) ∧ Q (k (.ok ()))
  | stmt _ _ => False
  | commit _ => False
  | pool s k => (∀ env m d, (s env m d).writes = []) ∧ ∀ r, (k r).Opens Q
  | mem _ k => ∀ b, (k b).Opens Q

/-- The next request is the statement `s`; its failure stops the program, its result `b` leaves a `P
    b`. -/
def Performs (s : Sql E D W K M S β) (P : β → Prog E D W K M S ε α → Prop)
    (q : Prog E D W K M S ε α) : Prop :=
  ∃ k, q = .stmt s k ∧ (∀ e, (k (.error e)).Stops) ∧ ∀ b, P b (k (.ok b))

/-! ### How the shapes are put together -/

theorem looks_mapError {p : Prog E D W K M S ε α} (g : ε → ε') (hp : p.Looks) :
    (p.mapError g).Looks := by
  induction p with
  | ret r => cases r <;> trivial
  | begin k ih => exact hp.elim
  | stmt s k ih => exact hp.elim
  | commit k ih => exact hp.elim
  | pool s k ih => exact ⟨hp.1, fun r => ih r (hp.2 r)⟩
  | mem f k ih => exact fun b => ih b (hp b)

theorem looks_bind {p : Prog E D W K M S ε α} {f : α → Prog E D W K M S ε β} (hp : p.Looks)
    (hf : ∀ a, (f a).Looks) : (p >>= f).Looks := by
  induction p with
  | ret r =>
    cases r with
    | ok a => exact hf a
    | error e => trivial
  | begin k ih => exact hp.elim
  | stmt s k ih => exact hp.elim
  | commit k ih => exact hp.elim
  | pool s k ih => exact ⟨hp.1, fun r => ih r (hp.2 r)⟩
  | mem f k ih => exact fun b => ih b (hp b)

theorem looks_ofExcept (r : Except ε α) : (ofExcept r : Prog E D W K M S ε α).Looks := trivial

theorem looks_critical (f : E → M → β × M) : (critical f : Prog E D W K M S ε β).Looks :=
  fun _ => trivial

theorem looks_onPool {s : Sql E D W K M S β} (hread : ∀ env m d, (s env m d).writes = []) :
    (onPool s).Looks :=
  ⟨hread, fun _ => trivial⟩

variable {Q : Prog E D W K M S ε α → Prop}

theorem opens_fail (e : ε) : (fail e : Prog E D W K M S ε α).Opens Q := ⟨e, rfl⟩

theorem opens_ite {c : Prop} [Decidable c] {p q : Prog E D W K M S ε α} (hp : p.Opens Q)
    (hq : q.Opens Q) : (if c then p else q).Opens Q := by
  split
  · exact hp
  · exact hq

theorem opens_bind {p : Prog E D W K M S ε β} {f : β → Prog E D W K M S ε α} (hp : p.Looks)
    (hf : ∀ a, (f a).Opens Q) : (p >>= f).Opens Q := by
  induction p with
  | ret r =>
    cases r with
    | ok a => exact hf a
    | error e => exact ⟨e, rfl⟩
  | begin k ih => exact hp.elim
  | stmt s k ih => exact hp.elim
  | commit k ih => exact hp.elim
  | pool s k ih => exact ⟨hp.1, fun r => ih r (hp.2 r)⟩
  | mem g k ih => exact fun b => ih b (hp b)

theorem opens_begin (g : S → ε) {f : Unit → Prog E D W K M S ε α} (hf : Q (f ())) :
    (beginTx.mapError g >>= f).Opens Q := ⟨fun e => ⟨g e, rfl⟩, hf⟩

theorem performs_inTx {s : Sql E D W K M S β} {P : β → Prog E D W K M S ε α → Prop} (g : S → ε)
    {f : β → Prog E D W K M S ε α} (hf : ∀ b, P b (f b)) :
    ((inTx s).mapError g >>= f).Performs s P :=
  ⟨_, rfl, fun e => ⟨g e, rfl⟩, hf⟩

theorem closes_bind {p : Prog E D W K M S ε β} {f : β → Prog E D W K M S ε α} (hp : p.Inside)
    (hf : ∀ a, (f a).Closes) : (p >>= f).Closes := by
  induction p with
  | ret r =>
    cases r with
    | ok a => exact hf a
    | error e => exact ⟨e, rfl⟩
  | begin k ih => exact hp.elim
  | stmt s k ih =>
    refine ⟨fun e => ?_, fun b => ih _ (hp.2 b)⟩
    obtain ⟨e', he⟩ := hp.1 e
    exact ⟨e', congrArg (fun q => q.bind f) he⟩
  | commit k ih => exact hp.elim
  | pool s k ih => exact hp.elim
  | mem g k ih => exact fun b => ih b (hp b)

theorem closes_commit (g : S → ε) (a : α) :
    (commitTx.mapError g >>= fun _ => pure a : Prog E D W K M S ε α).Closes :=
  ⟨fun e => ⟨g e, rfl⟩, a, rfl⟩

/-- A transaction whose commit is the last request. -/
theorem closes_commitTx (g : S → ε) : (commitTx.mapError g : Prog E D W K M S ε Unit).Closes :=
  ⟨fun e => ⟨g e, rfl⟩, (), rfl⟩

end Prog

/-! ### What such a program does -/

variable [Store D W K] {p : Prog E D W K M S ε α} {tx' : Option (Tx W K)} {sh sh' : Shared D M}
  {ws us : List W} {cs : List (List W)} {ls : List K} {r : Except ε α}

theorem Ends.stopped {tx : Option (Tx W K)} (hp : p.Stops) (h : Ends p tx sh ws cs r tx' sh') :
    ∃ e, r = .error e ∧ ws = [] ∧ cs = [] := by
  obtain ⟨e, rfl⟩ := hp
  cases h
  exact ⟨e, rfl, rfl, rfl⟩

/-- Past the looks of a program nothing has changed. -/
theorem Ends.looked {q : Prog E D W K M S ε β} {f : β → Prog E D W K M S ε α} (hq : q.Looks)
    (h : Ends (q >>= f) none sh ws cs r tx' sh') :
    (∃ e, r = .error e ∧ ws = [] ∧ cs = [] ∧ tx' = none) ∨
      ∃ b sh₁, sh₁.db = sh.db ∧ Ends (f b) none sh₁ ws cs r tx' sh' := by
  induction q generalizing sh ws cs with
  | ret r₀ =>
    cases r₀ with
    | ok b => exact Or.inr ⟨b, sh, rfl, h⟩
    | error e =>
      cases h
      exact Or.inl ⟨e, rfl, rfl, rfl, rfl⟩
  | begin k ih => exact hq.elim
  | stmt s k ih => exact hq.elim
  | commit k ih => exact hq.elim
  | pool s k ih =>
    rw [Prog.bind_pool] at h
    cases h with
    | poolFault e h => exact ih _ (hq.2 _) h
    | poolError env e hs h =>
      have hrest := ih _ (hq.2 _) h
      exact hrest
    | poolLost env b e hs h =>
      have hrest := ih _ (hq.2 _) h
      rw [hq.1, List.nil_append]
      exact hrest
    | pool env b hs h =>
      have hrest := ih _ (hq.2 _) h
      rw [hq.1, List.nil_append]
      rw [hq.1] at hrest
      exact hrest
  | mem g k ih =>
    rw [Prog.bind_mem] at h
    cases h with
    | mem env h =>
      have hrest := ih _ (hq _) h
      exact hrest

/-- A statement on the pool whose failure does not matter. -/
theorem Ends.tried {s : Sql E D W K M S β} {a : α}
    (h : Ends ((Prog.onPool s).attempt >>= fun _ => pure a : Prog E D W K M S ε α) none sh
      ws cs r tx' sh') :
    r = .ok a ∧ tx' = none ∧ (ws = [] ∨ ∃ env, ws = (s env sh.mem sh.db).writes) ∧
    (cs = [] ∨ cs = poolCommit ws) := by
  unfold Prog.onPool at h
  rw [Prog.attempt, Prog.bind_pool] at h
  cases h with
  | poolFault e h =>
    cases h
    exact ⟨rfl, rfl, Or.inl rfl, Or.inl rfl⟩
  | poolError env e hs h =>
    cases h
    exact ⟨rfl, rfl, Or.inl rfl, Or.inl rfl⟩
  | poolLost env b e hs h =>
    cases h
    exact ⟨rfl, rfl, Or.inr ⟨env, List.append_nil _⟩, Or.inl rfl⟩
  | pool env b hs h =>
    cases h
    rw [List.append_nil, List.append_nil]
    exact ⟨rfl, rfl, Or.inr ⟨env, rfl⟩, Or.inr rfl⟩

/-- The rest of a transaction in which nothing has failed. -/
theorem Ends.closed (hp : p.Closes) (h : Ends p (some (.active us ls)) sh ws cs r tx' sh') :
    (∃ e, r = .error e ∧ cs = []) ∨ ∃ a, r = .ok a ∧ cs = [us ++ ws] := by
  induction p generalizing sh ws cs us ls with
  | ret r₀ =>
    obtain ⟨e, rfl⟩ := hp
    cases h
    exact Or.inl ⟨e, rfl, rfl⟩
  | begin k ih => exact hp.elim
  | stmt s k ih =>
    cases h with
    | stmtFault e h =>
      obtain ⟨e', hr, -, hcs⟩ := h.stopped (hp.1 e)
      exact Or.inl ⟨e', hr, hcs⟩
    | stmtError env e hs h =>
      obtain ⟨e', hr, -, hcs⟩ := h.stopped (hp.1 e)
      exact Or.inl ⟨e', hr, hcs⟩
    | stmt env b hs h =>
      rw [← List.append_assoc]
      exact ih _ (hp.2 b) h
  | commit k ih =>
    cases h with
    | commitFault e h =>
      obtain ⟨e', hr, -, hcs⟩ := h.stopped (hp.1 e)
      exact Or.inl ⟨e', hr, hcs⟩
    | commit h =>
      obtain ⟨a, ha⟩ := hp.2
      rw [ha] at h
      cases h
      exact Or.inr ⟨a, rfl, by rw [List.append_nil]⟩
  | pool s k ih => exact hp.elim
  | mem f k ih =>
    cases h with
    | mem env h => exact ih _ (hp _) h

/-- The way to the transaction. -/
theorem Ends.opened {Q : Prog E D W K M S ε α → Prop} (hp : p.Opens Q)
    (h : Ends p none sh ws cs r tx' sh') : (∃ e, r = .error e ∧ cs = []) ∨
      ∃ q sh₁, Q q ∧ sh₁.db = sh.db ∧ Ends q (some (.active [] [])) sh₁ ws cs r tx' sh' := by
  induction p generalizing sh ws cs with
  | ret r₀ =>
    obtain ⟨e, rfl⟩ := hp
    cases h
    exact Or.inl ⟨e, rfl, rfl⟩
  | begin k ih =>
    cases h with
    | beginFault e h =>
      obtain ⟨e', hr, -, hcs⟩ := h.stopped (hp.1 e)
      exact Or.inl ⟨e', hr, hcs⟩
    | begin h => exact Or.inr ⟨_, sh, hp.2, rfl, h⟩
  | stmt s k ih => exact hp.elim
  | commit k ih => exact hp.elim
  | pool s k ih =>
    cases h with
    | poolFault e h => exact ih _ (hp.2 _) h
    | poolError env e hs h =>
      have hrest := ih _ (hp.2 _) h
      exact hrest
    | poolLost env b e hs h =>
      have hrest := ih _ (hp.2 _) h
      rw [hp.1, List.nil_append]
      exact hrest
    | pool env b hs h =>
      have hrest := ih _ (hp.2 _) h
      rw [hp.1, List.nil_append]
      rw [hp.1] at hrest
      exact hrest
  | mem f k ih =>
    cases h with
    | mem env h =>
      have hrest := ih _ (hp _) h
      exact hrest

/-! ### One step of such a program -/

namespace Proc

variable {c : Choice E S} {p p' : Proc E D W K M S ε α} {Q : Prog E D W K M S ε α → Prop}

omit [Store D W K] in
theorem writes_of_tx {us : List W} {ls : List K} (h : p.tx = some (.active us ls)) :
    p.writes = us := by
  unfold Proc.writes
  rw [h]

omit [Store D W K] in
theorem locks_of_tx {us : List W} {ls : List K} (h : p.tx = some (.active us ls)) :
    p.locks = ls := by
  unfold Proc.locks
  rw [h]

omit [Store D W K] in
theorem committed_eq_nil (hp : ∀ k, p.prog ≠ .commit k) : p.committed c = [] := by
  unfold committed
  split
  · next hprog => exact absurd hprog (hp _)
  · rfl

/-- The program has returned. -/
def Over (p : Proc E D W K M S ε α) : Prop := ∃ r, p.prog = .ret r

omit [Store D W K] in
theorem over_of_stops (h : p.prog.Stops) : p.Over := by
  obtain ⟨e, he⟩ := h
  exact ⟨_, he⟩

theorem over_step (hp : p.Over) (h : p.step c sh = some (p', sh')) :
    p'.Over ∧ p.committed c = [] ∧ p'.prog = p.prog := by
  obtain ⟨r, hr⟩ := hp
  obtain ⟨q, tx⟩ := p
  obtain rfl : q = .ret r := hr
  cases tx <;> simp only [step, Option.some.injEq, Prod.mk.injEq, reduceCtorEq] at h
  obtain ⟨rfl, -⟩ := h
  exact ⟨⟨r, rfl⟩, committed_eq_nil (by simp), rfl⟩

/-- On the way to the transaction; a look may have to be committed by itself. -/
def Opening (Q : Prog E D W K M S ε α → Prop) (p : Proc E D W K M S ε α) : Prop :=
  (p.prog.Opens Q ∧ p.tx = none) ∨ ∃ k ls, p = ⟨.commit k, some (.active [] ls)⟩ ∧
    ∀ r, (k r).Opens Q

omit [Store D W K] in
theorem Opening.writes (hp : p.Opening Q) : p.writes = [] := by
  rcases hp with ⟨-, htx⟩ | ⟨k, ls, rfl, -⟩
  · unfold Proc.writes
    rw [htx]
  · rfl

/-- A step goes on looking, or it opens the transaction. -/
theorem opening_step (hp : p.Opening Q) (h : p.step c sh = some (p', sh')) :
    sh'.db = sh.db ∧ (p'.Opening Q ∨ ∃ q, Q q ∧ p' = ⟨q, some (.active [] [])⟩) := by
  have hstopped : ∀ {q : Prog E D W K M S ε α}, q.Stops →
      (Proc.mk q none : Proc E D W K M S ε α).Opening Q := by
    rintro q ⟨e, rfl⟩
    exact Or.inl ⟨⟨e, rfl⟩, rfl⟩
  rcases hp with ⟨hopens, htx⟩ | ⟨k, ls, rfl, hk⟩
  · obtain ⟨q, tx⟩ := p
    obtain rfl : tx = none := htx
    cases q with
    | ret r => simp [step] at h
    | begin k =>
      simp only [step] at h
      split at h <;> simp only [Option.some.injEq, Prod.mk.injEq] at h <;> obtain ⟨rfl, rfl⟩ := h
      · exact ⟨rfl, Or.inl (hstopped (hopens.1 _))⟩
      · exact ⟨rfl, Or.inr ⟨_, hopens.2, rfl⟩⟩
    | stmt s k => exact hopens.elim
    | commit k => exact hopens.elim
    | pool s k =>
      simp only [step] at h
      split at h
      · simp only [Option.some.injEq, Prod.mk.injEq] at h
        obtain ⟨rfl, rfl⟩ := h
        exact ⟨rfl, Or.inl (Or.inl ⟨hopens.2 _, rfl⟩)⟩
      · split at h
        · split at h <;> simp only [Option.some.injEq, Prod.mk.injEq] at h
            <;> obtain ⟨rfl, rfl⟩ := h
          · exact ⟨rfl, Or.inl (Or.inl ⟨hopens.2 _, rfl⟩)⟩
          · rw [hopens.1]
            exact ⟨rfl, Or.inl (Or.inr ⟨_, _, rfl, fun r => hopens.2 _⟩)⟩
        · simp only [Option.some.injEq, Prod.mk.injEq] at h
          obtain ⟨rfl, rfl⟩ := h
          exact ⟨rfl, Or.inl (Or.inl ⟨hopens.2 _, rfl⟩)⟩
    | mem f k =>
      simp only [step, Option.some.injEq, Prod.mk.injEq] at h
      obtain ⟨rfl, rfl⟩ := h
      exact ⟨rfl, Or.inl (Or.inl ⟨hopens _, rfl⟩)⟩
  · simp only [step] at h
    split at h <;> simp only [Option.some.injEq, Prod.mk.injEq] at h <;> obtain ⟨rfl, rfl⟩ := h
    · exact ⟨rfl, Or.inl (Or.inl ⟨hk _, rfl⟩)⟩
    · exact ⟨rfl, Or.inl (Or.inl ⟨hk _, rfl⟩)⟩

/-- A statement in the transaction: it fails and the program stops, or it adds to the
    transaction. -/
theorem stmt_step {s : Sql E D W K M S β} {k : Except S β → Prog E D W K M S ε α} {us : List W}
    {ls : List K} (hk : ∀ e, (k (.error e)).Stops)
    (h : (Proc.mk (.stmt s k) (some (.active us ls)) : Proc E D W K M S ε α).step c sh =
      some (p', sh')) :
    sh'.db = sh.db ∧ (p'.prog.Stops ∨ ∃ b, (s c.env sh.mem (applyAll sh.db us)).result = .ok b ∧
      p' = ⟨k (.ok b), some (.active (us ++ (s c.env sh.mem (applyAll sh.db us)).writes)
        (ls ++ ((s c.env sh.mem (applyAll sh.db us)).writes.map (Store.rowLock D) ++
          (s c.env sh.mem (applyAll sh.db us)).locks)))⟩) := by
  simp only [step] at h
  split at h
  · simp only [Option.some.injEq, Prod.mk.injEq] at h
    obtain ⟨rfl, rfl⟩ := h
    exact ⟨rfl, Or.inl (hk _)⟩
  · split at h <;> rename_i hr <;> simp only [Option.some.injEq, Prod.mk.injEq] at h
      <;> obtain ⟨rfl, rfl⟩ := h
    · exact ⟨rfl, Or.inr ⟨_, hr, rfl⟩⟩
    · exact ⟨rfl, Or.inl (hk _)⟩

theorem performs_step {s : Sql E D W K M S β} {P : β → Prog E D W K M S ε α → Prop} {us : List W}
    {ls : List K} (hp : p.prog.Performs s P) (htx : p.tx = some (.active us ls))
    (h : p.step c sh = some (p', sh')) :
    p.committed c = [] ∧
      (p'.prog.Stops ∨ ∃ b, (s c.env sh.mem (applyAll sh.db us)).result = .ok b ∧ P b p'.prog ∧
      p'.tx = some (.active (us ++ (s c.env sh.mem (applyAll sh.db us)).writes)
        (ls ++ ((s c.env sh.mem (applyAll sh.db us)).writes.map (Store.rowLock D) ++
          (s c.env sh.mem (applyAll sh.db us)).locks)))) := by
  obtain ⟨q, tx⟩ := p
  obtain rfl : tx = _ := htx
  obtain ⟨k, rfl, hstops, hP⟩ := hp
  obtain ⟨-, hstopped | ⟨b, hr, rfl⟩⟩ := stmt_step hstops h
  · exact ⟨committed_eq_nil (by simp), Or.inl hstopped⟩
  · exact ⟨committed_eq_nil (by simp), Or.inr ⟨b, hr, hP b, rfl⟩⟩

/-- What a step in the transaction adds to it. -/
def Adds (c : Choice E S) (sh : Shared D M) (us : List W) (ls : List K)
    (p p' : Proc E D W K M S ε α) : Prop :=
  p'.tx = p.tx ∨
    ∃ (γ : Type) (s : Sql E D W K M S γ) (k : Except S γ → Prog E D W K M S ε α) (b : γ),
    p.prog = .stmt s k ∧ (s c.env sh.mem (applyAll sh.db us)).result = .ok b ∧ p' = ⟨k (.ok b),
      some (.active (us ++ (s c.env sh.mem (applyAll sh.db us)).writes)
        (ls ++ ((s c.env sh.mem (applyAll sh.db us)).writes.map (Store.rowLock D) ++
          (s c.env sh.mem (applyAll sh.db us)).locks)))⟩

/-- A transaction only grows. -/
theorem Adds.grows {us : List W} {ls : List K} (h : p.Adds c sh us ls p')
    (htx : p.tx = some (.active us ls)) :
    ∃ vs ks, p'.tx = some (.active (us ++ vs) (ls ++ ks)) ∧ (vs = [] ∨
      ∃ (γ : Type) (s : Sql E D W K M S γ) (k : Except S γ → Prog E D W K M S ε α),
        p.prog = .stmt s k ∧ vs = (s c.env sh.mem (applyAll sh.db us)).writes) := by
  rcases h with hsame | ⟨γ, s, k, b, hprog, -, rfl⟩
  · exact ⟨[], [], by rw [hsame, htx, List.append_nil, List.append_nil], Or.inl rfl⟩
  · exact ⟨_, _, rfl, Or.inr ⟨γ, s, k, hprog, rfl⟩⟩

/-- A step in the transaction: the program stops, returns once it has committed, or goes on. -/
theorem closing_step {us : List W} {ls : List K} (hp : p.prog.Closes)
    (htx : p.tx = some (.active us ls)) (h : p.step c sh = some (p', sh')) :
    (p'.prog.Stops ∧ p.committed c = []) ∨ ((∃ a, p' = ⟨.ret (.ok a), none⟩) ∧ p.committed c = us) ∨
      (¬ p'.Over ∧ p'.prog.Closes ∧ p.committed c = [] ∧ p.Adds c sh us ls p') := by
  -- a program in the transaction that has returned has stopped
  have hgoes : p'.prog.Closes → p.committed c = [] → p.Adds c sh us ls p' →
      (p'.prog.Stops ∧ p.committed c = []) ∨
        ((∃ a, p' = ⟨.ret (.ok a), none⟩) ∧ p.committed c = us) ∨
        (¬ p'.Over ∧ p'.prog.Closes ∧ p.committed c = [] ∧ p.Adds c sh us ls p') := by
    intro hcloses hnone hadds
    by_cases hover : p'.Over
    · obtain ⟨r, hr⟩ := hover
      rw [hr] at hcloses
      obtain ⟨e, rfl⟩ := hcloses
      exact Or.inl ⟨⟨e, hr⟩, hnone⟩
    · exact Or.inr (Or.inr ⟨hover, hcloses, hnone, hadds⟩)
  obtain ⟨q, tx⟩ := p
  obtain rfl : tx = _ := htx
  cases q with
  | ret r =>
    obtain ⟨e, rfl⟩ := hp
    obtain ⟨-, hnone, hprog⟩ := over_step ⟨_, rfl⟩ h
    exact Or.inl ⟨⟨e, hprog⟩, hnone⟩
  | begin k => exact hp.elim
  | stmt s k =>
    have hnone : (Proc.mk (.stmt s k) (some (.active us ls)) : Proc E D W K M S ε α).committed c =
        [] :=
      committed_eq_nil (by simp)
    obtain ⟨-, hstops | ⟨b, hr, rfl⟩⟩ := stmt_step hp.1 h
    · exact Or.inl ⟨hstops, hnone⟩
    · exact hgoes (hp.2 b) hnone (Or.inr ⟨_, s, k, b, rfl, hr, rfl⟩)
  | commit k =>
    simp only [step] at h
    split at h <;> rename_i hfault <;> simp only [Option.some.injEq, Prod.mk.injEq] at h
      <;> obtain ⟨rfl, rfl⟩ := h
    · refine Or.inl ⟨hp.1 _, ?_⟩
      unfold committed
      rw [hfault]
    · obtain ⟨a, ha⟩ := hp.2
      refine Or.inr (Or.inl ⟨⟨a, by rw [ha]⟩, ?_⟩)
      unfold committed
      rw [hfault]
      rfl
  | pool s k => exact hp.elim
  | mem f k =>
    simp only [step, Option.some.injEq, Prod.mk.injEq] at h
    obtain ⟨rfl, rfl⟩ := h
    exact hgoes (hp _) (committed_eq_nil (by simp)) (Or.inl rfl)

end Proc

end ReadCommitted
