/-
  One program alone, where everything may fail.

  `Ends p tx sh ws cs r tx' sh'` says that `p`, in the transaction `tx` over `sh`, can come to the
  result `r` and leave `tx'` and `sh'`, each of its steps in an environment of its own and any
  statement or commit failing on the way. `ws` are the writes its statements have made, `cs` the
  writes of its commits, one list for each.

  Proved: every run of the small steps that returns is one of these (`ends_of_run`), how a result
  of a `do` block came about (`Ends.bind`, `Ends.mapError` and the rules after them), and what the
  rules of a program say about the writes it makes (`Ends.made`).
-/
import SylvaServer.ReadCommitted.Versions

namespace ReadCommitted

variable {E D W K M S ε ε' α β : Type} [Store D W K]

/-- The commit of a statement on the pool, where it has something to commit. -/
def poolCommit (ws : List W) : List (List W) := if ws.isEmpty then [] else [ws]

inductive Ends : Prog E D W K M S ε α → Option (Tx W K) → Shared D M → List W → List (List W) →
    Except ε α → Option (Tx W K) → Shared D M → Prop where
  | ret (r tx sh) : Ends (.ret r) tx sh [] [] r tx sh
  | beginFault {k sh ws cs r tx' sh'} (e : S) : Ends (k (.error e)) none sh ws cs r tx' sh' →
      Ends (.begin k) none sh ws cs r tx' sh'
  | begin {k sh ws cs r tx' sh'} : Ends (k (.ok ())) (some (.active [] [])) sh ws cs r tx' sh' →
      Ends (.begin k) none sh ws cs r tx' sh'
  | stmtFault {γ : Type} {s : Sql E D W K M S γ} {k us ls sh ws cs r tx' sh'} (e : S) :
      Ends (k (.error e)) (some .aborted) sh ws cs r tx' sh' →
      Ends (.stmt s k) (some (.active us ls)) sh ws cs r tx' sh'
  | stmtError {γ : Type} {s : Sql E D W K M S γ} {k us ls sh ws cs r tx' sh'} (env : E) (e : S) :
      (s env sh.mem (applyAll sh.db us)).result = .error e →
      Ends (k (.error e)) (some .aborted) ⟨sh.db, (s env sh.mem (applyAll sh.db us)).mem⟩
        ws cs r tx' sh' →
      Ends (.stmt s k) (some (.active us ls)) sh ws cs r tx' sh'
  | stmt {γ : Type} {s : Sql E D W K M S γ} {k us ls sh ws cs r tx' sh'} (env : E) (b : γ) :
      (s env sh.mem (applyAll sh.db us)).result = .ok b →
      Ends (k (.ok b)) (some (.active (us ++ (s env sh.mem (applyAll sh.db us)).writes)
        (ls ++ ((s env sh.mem (applyAll sh.db us)).writes.map (Store.rowLock D) ++
          (s env sh.mem (applyAll sh.db us)).locks))))
            ⟨sh.db, (s env sh.mem (applyAll sh.db us)).mem⟩
        ws cs r tx' sh' →
      Ends (.stmt s k) (some (.active us ls)) sh ((s env sh.mem (applyAll sh.db us)).writes ++ ws)
        cs r tx' sh'
  | stmtAborted {γ : Type} {s : Sql E D W K M S γ} {k sh ws cs r tx' sh'} (e : S) :
      Ends (k (.error e)) (some .aborted) sh ws cs r tx' sh' →
      Ends (.stmt s k) (some .aborted) sh ws cs r tx' sh'
  | commitFault {k tx sh ws cs r tx' sh'} (e : S) : Ends (k (.error e)) none sh ws cs r tx' sh' →
      Ends (.commit k) (some tx) sh ws cs r tx' sh'
  | commit {k us ls sh ws cs r tx' sh'} : Ends (k (.ok ())) none
      ⟨applyAll sh.db us, sh.mem⟩ ws cs r tx' sh' →
      Ends (.commit k) (some (.active us ls)) sh ws (us :: cs) r tx' sh'
  | commitAborted {k sh ws cs r tx' sh'} : Ends (k (.ok ())) none sh ws cs r tx' sh' →
      Ends (.commit k) (some .aborted) sh ws cs r tx' sh'
  | poolFault {γ : Type} {s : Sql E D W K M S γ} {k sh ws cs r tx' sh'} (e : S) :
      Ends (k (.error e)) none sh ws cs r tx' sh' → Ends (.pool s k) none sh ws cs r tx' sh'
  | poolError {γ : Type} {s : Sql E D W K M S γ} {k sh ws cs r tx' sh'} (env : E) (e : S) :
      (s env sh.mem sh.db).result = .error e →
      Ends (k (.error e)) none ⟨sh.db, (s env sh.mem sh.db).mem⟩ ws cs r tx' sh' →
      Ends (.pool s k) none sh ws cs r tx' sh'
  /-- The commit after a statement on the pool fails. -/
  | poolLost {γ : Type} {s : Sql E D W K M S γ} {k sh ws cs r tx' sh'} (env : E) (b : γ) (e : S) :
      (s env sh.mem sh.db).result = .ok b →
      Ends (k (.error e)) none ⟨sh.db, (s env sh.mem sh.db).mem⟩ ws cs r tx' sh' →
      Ends (.pool s k) none sh ((s env sh.mem sh.db).writes ++ ws) cs r tx' sh'
  | pool {γ : Type} {s : Sql E D W K M S γ} {k sh ws cs r tx' sh'} (env : E) (b : γ) :
      (s env sh.mem sh.db).result = .ok b →
      Ends (k (.ok b)) none ⟨applyAll sh.db (s env sh.mem sh.db).writes, (s env sh.mem sh.db).mem⟩
        ws cs r tx' sh' →
      Ends (.pool s k) none sh ((s env sh.mem sh.db).writes ++ ws)
        (poolCommit (s env sh.mem sh.db).writes ++ cs) r tx' sh'
  | mem {γ : Type} {f : E → M → γ × M} {k tx sh ws cs r tx' sh'} (env : E) :
      Ends (k (f env sh.mem).1) tx ⟨sh.db, (f env sh.mem).2⟩ ws cs r tx' sh' →
      Ends (.mem f k) tx sh ws cs r tx' sh'

/-- **Every run that returns** is covered. -/
theorem ends_of_run {xs : List (Choice E S)} {p : Prog E D W K M S ε α} {tx : Option (Tx W K)}
    {sh sh' : Shared D M} {r : Except ε α}
    (h : Proc.run xs ⟨p, tx⟩ sh = some (⟨.ret r, none⟩, sh')) :
    ∃ ws cs tx', Ends p tx sh ws cs r tx' sh' := by
  induction xs generalizing p tx sh with
  | nil =>
    simp only [Proc.run, Option.some.injEq, Prod.mk.injEq, Proc.mk.injEq] at h
    obtain ⟨⟨rfl, rfl⟩, rfl⟩ := h
    exact ⟨_, _, _, .ret _ _ _⟩
  | cons x xs ih =>
    simp only [Proc.run] at h
    split at h
    · next q sh₁ hstep =>
      obtain ⟨q, tx₁⟩ := q
      obtain ⟨ws, cs, tx', hends⟩ := ih h
      cases p with
      | ret r₀ =>
        cases tx with
        | none => simp [Proc.step] at hstep
        | some t =>
          simp only [Proc.step, Option.some.injEq, Prod.mk.injEq, Proc.mk.injEq] at hstep
          obtain ⟨⟨rfl, rfl⟩, rfl⟩ := hstep
          cases hends
          exact ⟨_, _, _, .ret _ _ _⟩
      | begin k =>
        cases tx with
        | some t => simp [Proc.step] at hstep
        | none =>
          simp only [Proc.step] at hstep
          split at hstep <;> simp only [Option.some.injEq, Prod.mk.injEq, Proc.mk.injEq]
            at hstep <;> obtain ⟨⟨rfl, rfl⟩, rfl⟩ := hstep
          · exact ⟨_, _, _, .beginFault _ hends⟩
          · exact ⟨_, _, _, .begin hends⟩
      | stmt s k =>
        rcases tx with _ | (⟨us, ls⟩ | _)
        · simp [Proc.step] at hstep
        · simp only [Proc.step] at hstep
          split at hstep
          · simp only [Option.some.injEq, Prod.mk.injEq, Proc.mk.injEq] at hstep
            obtain ⟨⟨rfl, rfl⟩, rfl⟩ := hstep
            exact ⟨_, _, _, .stmtFault _ hends⟩
          · split at hstep <;> rename_i hr <;>
              simp only [Option.some.injEq, Prod.mk.injEq, Proc.mk.injEq] at hstep <;>
              obtain ⟨⟨rfl, rfl⟩, rfl⟩ := hstep
            · exact ⟨_, _, _, .stmt _ _ hr hends⟩
            · exact ⟨_, _, _, .stmtError _ _ hr hends⟩
        · simp only [Proc.step] at hstep
          split at hstep <;> simp only [Option.some.injEq, Prod.mk.injEq, Proc.mk.injEq,
            reduceCtorEq] at hstep
          obtain ⟨⟨rfl, rfl⟩, rfl⟩ := hstep
          exact ⟨_, _, _, .stmtAborted _ hends⟩
      | commit k =>
        rcases tx with _ | (⟨us, ls⟩ | _)
        · simp [Proc.step] at hstep
        · simp only [Proc.step] at hstep
          split at hstep <;> simp only [Option.some.injEq, Prod.mk.injEq, Proc.mk.injEq]
            at hstep <;> obtain ⟨⟨rfl, rfl⟩, rfl⟩ := hstep
          · exact ⟨_, _, _, .commitFault _ hends⟩
          · exact ⟨_, _, _, .commit hends⟩
        · simp only [Proc.step] at hstep
          split at hstep <;> simp only [Option.some.injEq, Prod.mk.injEq, Proc.mk.injEq]
            at hstep <;> obtain ⟨⟨rfl, rfl⟩, rfl⟩ := hstep
          · exact ⟨_, _, _, .commitFault _ hends⟩
          · exact ⟨_, _, _, .commitAborted hends⟩
      | pool s k =>
        cases tx with
        | some t => simp [Proc.step] at hstep
        | none =>
          simp only [Proc.step] at hstep
          split at hstep
          · simp only [Option.some.injEq, Prod.mk.injEq, Proc.mk.injEq] at hstep
            obtain ⟨⟨rfl, rfl⟩, rfl⟩ := hstep
            exact ⟨_, _, _, .poolFault _ hends⟩
          · split at hstep <;> rename_i hr
            · split at hstep <;> rename_i hquiet <;>
                simp only [Option.some.injEq, Prod.mk.injEq, Proc.mk.injEq] at hstep <;>
                obtain ⟨⟨rfl, rfl⟩, rfl⟩ := hstep
              · -- nothing to commit
                simp only [Bool.and_eq_true, List.isEmpty_iff] at hquiet
                exact ⟨_, _, _, .pool _ _ hr (by rw [hquiet.1]; exact hends)⟩
              · cases hends with
                | commitFault e hends => exact ⟨_, _, _, .poolLost _ _ e hr hends⟩
                | commit hends => exact ⟨_, _, _, .pool _ _ hr hends⟩
            · simp only [Option.some.injEq, Prod.mk.injEq, Proc.mk.injEq] at hstep
              obtain ⟨⟨rfl, rfl⟩, rfl⟩ := hstep
              exact ⟨_, _, _, .poolError _ _ hr hends⟩
      | mem f k =>
        simp only [Proc.step, Option.some.injEq, Prod.mk.injEq, Proc.mk.injEq] at hstep
        obtain ⟨⟨rfl, rfl⟩, rfl⟩ := hstep
        exact ⟨_, _, _, .mem _ hends⟩
    · exact absurd h (by simp)

/-! ### How a result came about -/

/-- A block ended with the error of its first part, or its second part went on from there. -/
def Split (p : Prog E D W K M S ε α) (f : α → Prog E D W K M S ε β) (tx : Option (Tx W K))
    (sh : Shared D M) (ws : List W) (cs : List (List W)) (r : Except ε β) (tx' : Option (Tx W K))
    (sh' : Shared D M) : Prop :=
  (∃ e, r = .error e ∧ Ends p tx sh ws cs (.error e) tx' sh') ∨
    ∃ a ws₁ cs₁ tx₁ sh₁ ws₂ cs₂, Ends p tx sh ws₁ cs₁ (.ok a) tx₁ sh₁ ∧
      Ends (f a) tx₁ sh₁ ws₂ cs₂ r tx' sh' ∧ ws = ws₁ ++ ws₂ ∧ cs = cs₁ ++ cs₂

section Inversion

variable {p q : Prog E D W K M S ε α} {f : α → Prog E D W K M S ε β} {tx tx₁ tx' : Option (Tx W K)}
  {sh sh₁ sh' : Shared D M} {ws x us : List W} {cs y : List (List W)} {ls : List K} {r : Except ε β}

theorem Split.lift (hstep : ∀ {ws cs r tx' sh'}, Ends q tx₁ sh₁ ws cs r tx' sh' →
    Ends p tx sh (x ++ ws) (y ++ cs) r tx' sh') (h : Split q f tx₁ sh₁ ws cs r tx' sh') :
    Split p f tx sh (x ++ ws) (y ++ cs) r tx' sh' := by
  rcases h with ⟨e, hr, hends⟩ | ⟨a, ws₁, cs₁, tx₂, sh₂, ws₂, cs₂, hfirst, hsecond, rfl, rfl⟩
  · exact Or.inl ⟨e, hr, hstep hends⟩
  · exact Or.inr ⟨a, x ++ ws₁, y ++ cs₁, tx₂, sh₂, ws₂, cs₂, hstep hfirst, hsecond,
      (List.append_assoc ..).symm, (List.append_assoc ..).symm⟩

theorem Ends.bind (h : Ends (p >>= f) tx sh ws cs r tx' sh') : Split p f tx sh ws cs r tx' sh' := by
  induction p generalizing tx sh ws cs with
  | ret r₀ =>
    cases r₀ with
    | ok a => exact Or.inr ⟨a, [], [], tx, sh, ws, cs, .ret _ _ _, h, rfl, rfl⟩
    | error e =>
      cases h
      exact Or.inl ⟨e, rfl, .ret _ _ _⟩
  | begin k ih =>
    rw [Prog.bind_begin] at h
    cases h with
    | beginFault e h => exact Split.lift (x := []) (y := []) (.beginFault e) (ih _ h)
    | begin h => exact Split.lift (x := []) (y := []) .begin (ih _ h)
  | stmt s k ih =>
    rw [Prog.bind_stmt] at h
    cases h with
    | stmtFault e h => exact Split.lift (x := []) (y := []) (.stmtFault e) (ih _ h)
    | stmtError env e hr h => exact Split.lift (x := []) (y := []) (.stmtError env e hr) (ih _ h)
    | stmt env b hr h => exact Split.lift (y := []) (.stmt env b hr) (ih _ h)
    | stmtAborted e h => exact Split.lift (x := []) (y := []) (.stmtAborted e) (ih _ h)
  | commit k ih =>
    rw [Prog.bind_commit] at h
    cases h with
    | commitFault e h => exact Split.lift (x := []) (y := []) (.commitFault e) (ih _ h)
    | commit h => exact Split.lift (x := []) (y := [_]) .commit (ih _ h)
    | commitAborted h => exact Split.lift (x := []) (y := []) .commitAborted (ih _ h)
  | pool s k ih =>
    rw [Prog.bind_pool] at h
    cases h with
    | poolFault e h => exact Split.lift (x := []) (y := []) (.poolFault e) (ih _ h)
    | poolError env e hr h => exact Split.lift (x := []) (y := []) (.poolError env e hr) (ih _ h)
    | poolLost env b e hr h => exact Split.lift (y := []) (.poolLost env b e hr) (ih _ h)
    | pool env b hr h => exact Split.lift (.pool env b hr) (ih _ h)
  | mem g k ih =>
    rw [Prog.bind_mem] at h
    cases h with
    | mem env h => exact Split.lift (x := []) (y := []) (.mem env) (ih _ h)

/-- A block that returns. -/
theorem Ends.bind_ok {b : β} (h : Ends (p >>= f) tx sh ws cs (.ok b) tx' sh') :
    ∃ a ws₁ cs₁ tx₁ sh₁ ws₂ cs₂, Ends p tx sh ws₁ cs₁ (.ok a) tx₁ sh₁ ∧
      Ends (f a) tx₁ sh₁ ws₂ cs₂ (.ok b) tx' sh' ∧ ws = ws₁ ++ ws₂ ∧ cs = cs₁ ++ cs₂ := by
  rcases h.bind with ⟨e, hr, -⟩ | h
  · exact absurd hr (by simp)
  · exact h

/-- `F` does nothing but change the result. -/
structure Prog.Maps (F : Prog E D W K M S ε α → Prog E D W K M S ε' β)
    (g : Except ε α → Except ε' β) : Prop where
  ret : ∀ r, F (.ret r) = .ret (g r)
  begin : ∀ k, F (.begin k) = .begin fun r => F (k r)
  stmt : ∀ {γ : Type} (s : Sql E D W K M S γ) k, F (.stmt s k) = .stmt s fun r => F (k r)
  commit : ∀ k, F (.commit k) = .commit fun r => F (k r)
  pool : ∀ {γ : Type} (s : Sql E D W K M S γ) k, F (.pool s k) = .pool s fun r => F (k r)
  mem : ∀ {γ : Type} (c : E → M → γ × M) k, F (.mem c k) = .mem c fun b => F (k b)

theorem Ends.maps {F : Prog E D W K M S ε α → Prog E D W K M S ε' β} {g : Except ε α → Except ε' β}
    (hF : Prog.Maps F g) {r : Except ε' β} (h : Ends (F p) tx sh ws cs r tx' sh') :
    ∃ r₀, Ends p tx sh ws cs r₀ tx' sh' ∧ r = g r₀ := by
  induction p generalizing tx sh ws cs with
  | ret r₀ =>
    rw [hF.ret] at h
    cases h
    exact ⟨r₀, .ret _ _ _, rfl⟩
  | begin k ih =>
    rw [hF.begin] at h
    cases h with
    | beginFault e h =>
      obtain ⟨r₀, h, hr⟩ := ih _ h
      exact ⟨r₀, .beginFault e h, hr⟩
    | begin h =>
      obtain ⟨r₀, h, hr⟩ := ih _ h
      exact ⟨r₀, .begin h, hr⟩
  | stmt s k ih =>
    rw [hF.stmt] at h
    cases h with
    | stmtFault e h =>
      obtain ⟨r₀, h, hr⟩ := ih _ h
      exact ⟨r₀, .stmtFault e h, hr⟩
    | stmtError env e hs h =>
      obtain ⟨r₀, h, hr⟩ := ih _ h
      exact ⟨r₀, .stmtError env e hs h, hr⟩
    | stmt env b hs h =>
      obtain ⟨r₀, h, hr⟩ := ih _ h
      exact ⟨r₀, .stmt env b hs h, hr⟩
    | stmtAborted e h =>
      obtain ⟨r₀, h, hr⟩ := ih _ h
      exact ⟨r₀, .stmtAborted e h, hr⟩
  | commit k ih =>
    rw [hF.commit] at h
    cases h with
    | commitFault e h =>
      obtain ⟨r₀, h, hr⟩ := ih _ h
      exact ⟨r₀, .commitFault e h, hr⟩
    | commit h =>
      obtain ⟨r₀, h, hr⟩ := ih _ h
      exact ⟨r₀, .commit h, hr⟩
    | commitAborted h =>
      obtain ⟨r₀, h, hr⟩ := ih _ h
      exact ⟨r₀, .commitAborted h, hr⟩
  | pool s k ih =>
    rw [hF.pool] at h
    cases h with
    | poolFault e h =>
      obtain ⟨r₀, h, hr⟩ := ih _ h
      exact ⟨r₀, .poolFault e h, hr⟩
    | poolError env e hs h =>
      obtain ⟨r₀, h, hr⟩ := ih _ h
      exact ⟨r₀, .poolError env e hs h, hr⟩
    | poolLost env b e hs h =>
      obtain ⟨r₀, h, hr⟩ := ih _ h
      exact ⟨r₀, .poolLost env b e hs h, hr⟩
    | pool env b hs h =>
      obtain ⟨r₀, h, hr⟩ := ih _ h
      exact ⟨r₀, .pool env b hs h, hr⟩
  | mem c k ih =>
    rw [hF.mem] at h
    cases h with
    | mem env h =>
      obtain ⟨r₀, h, hr⟩ := ih _ h
      exact ⟨r₀, .mem env h, hr⟩

theorem Ends.mapError {g : ε → ε'} {r : Except ε' α}
    (h : Ends (p.mapError g) tx sh ws cs r tx' sh') :
    ∃ r₀, Ends p tx sh ws cs r₀ tx' sh' ∧ r = r₀.mapError g := by
  refine Ends.maps (F := Prog.mapError g) (g := Except.mapError g) ?_ h
  exact ⟨fun r => by cases r <;> rfl, fun _ => rfl, fun _ _ => rfl, fun _ => rfl, fun _ _ => rfl,
    fun _ _ => rfl⟩

theorem Ends.attempt {r : Except ε' (Except ε α)}
    (h : Ends (p.attempt : Prog E D W K M S ε' (Except ε α)) tx sh ws cs r tx' sh') :
    ∃ r₀, Ends p tx sh ws cs r₀ tx' sh' ∧ r = .ok r₀ := by
  refine Ends.maps (F := Prog.attempt) (g := Except.ok) ?_ h
  exact ⟨fun _ => rfl, fun _ => rfl, fun _ _ => rfl, fun _ => rfl, fun _ _ => rfl, fun _ _ => rfl⟩

theorem Ends.mapError_ok {g : ε → ε'} {a : α}
    (h : Ends (p.mapError g) tx sh ws cs (.ok a) tx' sh') :
    Ends p tx sh ws cs (.ok a) tx' sh' := by
  obtain ⟨r, h, hr⟩ := h.mapError
  cases r with
  | ok a' =>
    obtain rfl := Except.ok.inj hr
    exact h
  | error e => exact absurd hr (by simp [Except.mapError])

/-- A statement of the transaction that went through. -/
theorem Ends.inTx_ok {s : Sql E D W K M S β} {b : β}
    (h : Ends (Prog.inTx s) tx sh ws cs (.ok b) tx' sh') :
    ∃ env us ls ls', tx = some (.active us ls) ∧ (s env sh.mem (applyAll sh.db us)).result = .ok b ∧
      ws = (s env sh.mem (applyAll sh.db us)).writes ∧ cs = [] ∧
      tx' = some (.active (us ++ ws) ls') ∧
      sh' = ⟨sh.db, (s env sh.mem (applyAll sh.db us)).mem⟩ := by
  unfold Prog.inTx at h
  cases h with
  | stmtFault e h => cases h
  | stmtError env e hs h => cases h
  | stmtAborted e h => cases h
  | stmt env b' hs h =>
    cases h
    exact ⟨env, _, _, _, rfl, hs, (List.append_nil _), rfl, by rw [List.append_nil], rfl⟩

/-- A statement on the pool that went through. -/
theorem Ends.onPool_ok {s : Sql E D W K M S β} {b : β}
    (h : Ends (Prog.onPool s) tx sh ws cs (.ok b) tx' sh') :
    ∃ env, tx = none ∧ (s env sh.mem sh.db).result = .ok b ∧ ws = (s env sh.mem sh.db).writes ∧
      cs = poolCommit ws ∧ tx' = none ∧ sh' = ⟨applyAll sh.db ws, (s env sh.mem sh.db).mem⟩ := by
  unfold Prog.onPool at h
  cases h with
  | poolFault e h => cases h
  | poolError env e hs h => cases h
  | poolLost env b e hs h => cases h
  | pool env b' hs h =>
    cases h
    exact ⟨env, rfl, hs, List.append_nil _, by rw [List.append_nil, List.append_nil], rfl,
      by rw [List.append_nil]⟩

/-- No statement on the pool leaves a transaction open. -/
theorem Ends.onPool_tx {s : Sql E D W K M S β} {r : Except S β}
    (h : Ends (Prog.onPool s) none sh ws cs r tx' sh') : tx' = none := by
  unfold Prog.onPool at h
  cases h with
  | poolFault e h => cases h; rfl
  | poolError env e hs h => cases h; rfl
  | poolLost env b e hs h => cases h; rfl
  | pool env b' hs h => cases h; rfl

theorem Ends.beginTx_ok
    (h : Ends (Prog.beginTx : Prog E D W K M S S Unit) tx sh ws cs (.ok ()) tx' sh') :
    tx = none ∧ ws = [] ∧ cs = [] ∧ tx' = some (.active [] []) ∧ sh' = sh := by
  unfold Prog.beginTx at h
  cases h with
  | beginFault e h => cases h
  | begin h =>
    cases h
    exact ⟨rfl, rfl, rfl, rfl, rfl⟩

/-- The commit of a transaction in which nothing has failed. -/
theorem Ends.commitTx_ok
    (h : Ends (Prog.commitTx : Prog E D W K M S S Unit) (some (.active us ls)) sh ws cs
      (.ok ()) tx' sh') : ws = [] ∧ cs = [us] ∧ tx' = none ∧ sh' = ⟨applyAll sh.db us, sh.mem⟩ := by
  unfold Prog.commitTx at h
  cases h with
  | commitFault e h => cases h
  | commit h =>
    cases h
    exact ⟨rfl, rfl, rfl, rfl⟩

/-- A critical section. -/
theorem Ends.critical_ok {g : E → M → β × M} {b : β}
    (h : Ends (Prog.critical g : Prog E D W K M S ε β) tx sh ws cs (.ok b) tx' sh') :
    ∃ env, b = (g env sh.mem).1 ∧ ws = [] ∧ cs = [] ∧ tx' = tx ∧
    sh' = ⟨sh.db, (g env sh.mem).2⟩ := by
  unfold Prog.critical at h
  cases h with
  | mem env h =>
    cases h
    exact ⟨env, rfl, rfl, rfl, rfl, rfl⟩

theorem Ends.pure_ok {b c : β}
    (h : Ends (pure c : Prog E D W K M S ε β) tx sh ws cs (.ok b) tx' sh') :
    b = c ∧ ws = [] ∧ cs = [] ∧ tx' = tx ∧ sh' = sh := by
  cases h
  exact ⟨rfl, rfl, rfl, rfl, rfl⟩

theorem Ends.ofExcept_ok {r : Except ε β} {b : β}
    (h : Ends (Prog.ofExcept r : Prog E D W K M S ε β) tx sh ws cs (.ok b) tx' sh') :
    r = .ok b ∧ ws = [] ∧ cs = [] ∧ tx' = tx ∧ sh' = sh := by
  unfold Prog.ofExcept at h
  cases h
  exact ⟨rfl, rfl, rfl, rfl, rfl⟩

end Inversion

/-! ### What the program allows -/

/-- Every write is one of `Q`. -/
abbrev Prog.Rules.eachWrite (Q : W → Prop) : Prog.Rules E D W K M S where
  begin := True
  stmt s := ∀ env m d, ∀ w ∈ (s env m d).writes, Q w
  pool s := ∀ env m d, ∀ w ∈ (s env m d).writes, Q w
  mem _ := True

omit [Store D W K] in
theorem flatten_poolCommit (ws : List W) : (poolCommit ws).flatten = ws := by
  cases ws with
  | nil => rfl
  | cons w ws => exact List.append_nil _

/-- The tables change by what is committed. -/
theorem Ends.db_eq {p : Prog E D W K M S ε α} {tx tx' : Option (Tx W K)} {sh sh' : Shared D M}
    {ws : List W} {cs : List (List W)} {r : Except ε α} (h : Ends p tx sh ws cs r tx' sh') :
    sh'.db = applyAll sh.db cs.flatten := by
  induction h with
  | ret r tx sh => rfl
  | beginFault e h ih => exact ih
  | begin h ih => exact ih
  | stmtFault e h ih => exact ih
  | stmtError env e hr h ih => exact ih
  | stmt env b hr h ih => exact ih
  | stmtAborted e h ih => exact ih
  | commitFault e h ih => exact ih
  | commit h ih => rw [ih, List.flatten_cons, applyAll_append]
  | commitAborted h ih => exact ih
  | poolFault e h ih => exact ih
  | poolError env e hr h ih => exact ih
  | poolLost env b e hr h ih => exact ih
  | pool env b hr h ih => rw [ih, List.flatten_append, flatten_poolCommit, applyAll_append]
  | mem env h ih => exact ih

/-- The writes of a transaction. -/
def Tx.writes : Option (Tx W K) → List W
  | some (.active us _) => us
  | _ => []

/-- What is committed was made on the way, or before. -/
theorem Ends.committed_mem {p : Prog E D W K M S ε α} {tx tx' : Option (Tx W K)}
    {sh sh' : Shared D M} {ws : List W} {cs : List (List W)} {r : Except ε α}
    (h : Ends p tx sh ws cs r tx' sh') : ∀ w ∈ cs.flatten, w ∈ Tx.writes tx ∨ w ∈ ws := by
  induction h with
  | ret r tx sh => exact fun w hw => absurd hw List.not_mem_nil
  | beginFault e h ih => exact ih
  | begin h ih => exact ih
  | stmtFault e h ih => exact fun w hw => Or.inr ((ih w hw).resolve_left List.not_mem_nil)
  | stmtError env e hr h ih => exact fun w hw => Or.inr ((ih w hw).resolve_left List.not_mem_nil)
  | stmt env b hr h ih =>
    intro w hw
    rcases ih w hw with hw | hw
    · rcases List.mem_append.mp hw with hw | hw
      · exact Or.inl hw
      · exact Or.inr (List.mem_append_left _ hw)
    · exact Or.inr (List.mem_append_right _ hw)
  | stmtAborted e h ih => exact ih
  | commitFault e h ih => exact fun w hw => Or.inr ((ih w hw).resolve_left List.not_mem_nil)
  | commit h ih =>
    intro w hw
    rcases List.mem_append.mp hw with hw | hw
    · exact Or.inl hw
    · exact Or.inr ((ih w hw).resolve_left List.not_mem_nil)
  | commitAborted h ih => exact ih
  | poolFault e h ih => exact ih
  | poolError env e hr h ih => exact ih
  | poolLost env b e hr h ih =>
    exact fun w hw => Or.inr (List.mem_append_right _ ((ih w hw).resolve_left List.not_mem_nil))
  | pool env b hr h ih =>
    intro w hw
    rw [List.flatten_append, flatten_poolCommit] at hw
    rcases List.mem_append.mp hw with hw | hw
    · exact Or.inr (List.mem_append_left _ hw)
    · exact Or.inr (List.mem_append_right _ ((ih w hw).resolve_left List.not_mem_nil))
  | mem env h ih => exact ih

/-- **The writes made** are within the rules of the program. -/
theorem Ends.made {Q : W → Prop} {p : Prog E D W K M S ε α} {tx tx' : Option (Tx W K)}
    {sh sh' : Shared D M} {ws : List W} {cs : List (List W)} {r : Except ε α}
    (hp : p.Obeys (.eachWrite Q)) (h : Ends p tx sh ws cs r tx' sh') : ∀ w ∈ ws, Q w := by
  induction h with
  | ret r tx sh => exact fun w hw => absurd hw List.not_mem_nil
  | beginFault e h ih => exact ih (hp.2 _)
  | begin h ih => exact ih (hp.2 _)
  | stmtFault e h ih => exact ih (hp.2 _)
  | stmtError env e hr h ih => exact ih (hp.2 _)
  | stmt env b hr h ih => exact List.forall_mem_append.mpr ⟨hp.1 _ _ _, ih (hp.2 _)⟩
  | stmtAborted e h ih => exact ih (hp.2 _)
  | commitFault e h ih => exact ih (hp _)
  | commit h ih => exact ih (hp _)
  | commitAborted h ih => exact ih (hp _)
  | poolFault e h ih => exact ih (hp.2 _)
  | poolError env e hr h ih => exact ih (hp.2 _)
  | poolLost env b e hr h ih => exact List.forall_mem_append.mpr ⟨hp.1 _ _ _, ih (hp.2 _)⟩
  | pool env b hr h ih => exact List.forall_mem_append.mpr ⟨hp.1 _ _ _, ih (hp.2 _)⟩
  | mem env h ih => exact ih (hp.2 _)

/-- A part of a transaction: statements, each of which ends it with an error where it fails. -/
def Prog.Inside : Prog E D W K M S ε α → Prop
  | .ret _ => True
  | .stmt _ k => (∀ e, ∃ e', k (.error e) = .ret (.error e')) ∧ ∀ b, (k (.ok b)).Inside
  | .mem _ k => ∀ b, (k b).Inside
  | .begin _ => False
  | .commit _ => False
  | .pool _ _ => False

section Inside

open Prog

omit [Store D W K] in
theorem Prog.inside_bind {p : Prog E D W K M S ε α} {f : α → Prog E D W K M S ε β} (hp : p.Inside)
    (hf : ∀ a, (f a).Inside) : (p >>= f).Inside := by
  induction p with
  | ret r =>
    cases r with
    | ok a => exact hf a
    | error e => trivial
  | begin k ih => exact hp.elim
  | stmt s k ih =>
    refine ⟨fun e => ?_, fun b => ih _ (hp.2 b)⟩
    obtain ⟨e', he⟩ := hp.1 e
    exact ⟨e', congrArg (fun q => q.bind f) he⟩
  | commit k ih => exact hp.elim
  | pool s k ih => exact hp.elim
  | mem g k ih => exact fun b => ih b (hp b)

omit [Store D W K] in
theorem Prog.inside_mapError {p : Prog E D W K M S ε α} (g : ε → ε') (hp : p.Inside) :
    (p.mapError g).Inside := by
  induction p with
  | ret r => cases r <;> trivial
  | begin k ih => exact hp.elim
  | stmt s k ih =>
    refine ⟨fun e => ?_, fun b => ih _ (hp.2 b)⟩
    obtain ⟨e', he⟩ := hp.1 e
    exact ⟨g e', congrArg (fun q => q.mapError g) he⟩
  | commit k ih => exact hp.elim
  | pool s k ih => exact hp.elim
  | mem f k ih => exact fun b => ih b (hp b)

omit [Store D W K] in
theorem Prog.inside_inTx (s : Sql E D W K M S β) : (inTx s).Inside :=
  ⟨fun e => ⟨e, rfl⟩, fun _ => trivial⟩

omit [Store D W K] in
theorem Prog.inside_critical (f : E → M → β × M) : (critical f : Prog E D W K M S ε β).Inside :=
  fun _ => trivial

variable {p : Prog E D W K M S ε α} {tx' : Option (Tx W K)} {sh sh' : Shared D M} {ws us : List W}
  {cs : List (List W)} {ls : List K} {r : Except ε α}

/-- **Inside a transaction** nothing is committed, and where all goes well its writes are added. -/
theorem Ends.inside (hp : p.Inside) (h : Ends p (some (.active us ls)) sh ws cs r tx' sh') :
    cs = [] ∧ sh'.db = sh.db ∧ ∀ a, r = .ok a → ∃ ls', tx' = some (.active (us ++ ws) ls') := by
  induction p generalizing sh ws cs us ls with
  | ret r₀ =>
    cases h
    exact ⟨rfl, rfl, fun a _ => ⟨ls, by rw [List.append_nil]⟩⟩
  | begin k ih => exact hp.elim
  | stmt s k ih =>
    cases h with
    | stmtFault e h =>
      obtain ⟨e', he⟩ := hp.1 e
      rw [he] at h
      cases h
      exact ⟨rfl, rfl, fun a ha => absurd ha (by simp)⟩
    | stmtError env e hr h =>
      obtain ⟨e', he⟩ := hp.1 e
      rw [he] at h
      cases h
      exact ⟨rfl, rfl, fun a ha => absurd ha (by simp)⟩
    | stmt env b hr h =>
      obtain ⟨hcs, hdb, hok⟩ := ih _ (hp.2 b) h
      refine ⟨hcs, hdb, fun a ha => ?_⟩
      obtain ⟨ls', htx⟩ := hok a ha
      exact ⟨ls', by rw [htx, List.append_assoc]⟩
  | commit k ih => exact hp.elim
  | pool s k ih => exact hp.elim
  | mem f k ih =>
    cases h with
    | mem env h =>
      have hrest := ih _ (hp _) h
      exact hrest

theorem Ends.inside_ok {a : α} (hp : p.Inside)
    (h : Ends p (some (.active us ls)) sh ws cs (.ok a) tx' sh') :
    cs = [] ∧ sh'.db = sh.db ∧ ∃ ls', tx' = some (.active (us ++ ws) ls') := by
  obtain ⟨hcs, hdb, hok⟩ := h.inside hp
  exact ⟨hcs, hdb, hok a rfl⟩

end Inside

/-! ### Through a handler that returns -/

section Through

open Prog

variable {p : Prog E D W K M S S α} {f : α → Prog E D W K M S ε β} {g : S → ε}
  {tx tx' : Option (Tx W K)} {sh sh' : Shared D M} {ws us : List W} {cs : List (List W)}
  {ls : List K} {b : β}

theorem Ends.through_ofExcept {r : Except ε α}
    (h : Ends (ofExcept r >>= f) tx sh ws cs (.ok b) tx' sh') :
    ∃ a, r = .ok a ∧ Ends (f a) tx sh ws cs (.ok b) tx' sh' := by
  obtain ⟨a, ws₁, cs₁, tx₁, sh₁, ws₂, cs₂, hfirst, hsecond, rfl, rfl⟩ := h.bind_ok
  obtain ⟨hr, rfl, rfl, rfl, rfl⟩ := hfirst.ofExcept_ok
  exact ⟨a, hr, hsecond⟩

theorem Ends.through_critical {c : E → M → α × M}
    (h : Ends (critical c >>= f) tx sh ws cs (.ok b) tx' sh') :
    ∃ env mem, Ends (f (c env sh.mem).1) tx ⟨sh.db, mem⟩ ws cs (.ok b) tx' sh' := by
  obtain ⟨a, ws₁, cs₁, tx₁, sh₁, ws₂, cs₂, hfirst, hsecond, rfl, rfl⟩ := h.bind_ok
  obtain ⟨env, rfl, rfl, rfl, rfl, rfl⟩ := hfirst.critical_ok
  exact ⟨env, _, hsecond⟩

theorem Ends.through_onPool {s : Sql E D W K M S α}
    (h : Ends ((onPool s).mapError g >>= f) none sh ws cs (.ok b) tx' sh') :
    ∃ env a ws₁ ws₂ cs₂ mem, (s env sh.mem sh.db).result = .ok a ∧
      (s env sh.mem sh.db).writes = ws₁ ∧
      Ends (f a) none ⟨applyAll sh.db ws₁, mem⟩ ws₂ cs₂ (.ok b) tx' sh' ∧ ws = ws₁ ++ ws₂ ∧
      cs = poolCommit ws₁ ++ cs₂ := by
  obtain ⟨a, ws₁, cs₁, tx₁, sh₁, ws₂, cs₂, hfirst, hsecond, rfl, rfl⟩ := h.bind_ok
  obtain ⟨env, -, hr, rfl, rfl, rfl, rfl⟩ := hfirst.mapError_ok.onPool_ok
  exact ⟨env, a, _, ws₂, cs₂, _, hr, rfl, hsecond, rfl, rfl⟩

theorem Ends.through_begin {f : Unit → Prog E D W K M S ε β}
    (h : Ends (beginTx.mapError g >>= f) tx sh ws cs (.ok b) tx' sh') :
    tx = none ∧ Ends (f ()) (some (.active [] [])) sh ws cs (.ok b) tx' sh' := by
  obtain ⟨a, ws₁, cs₁, tx₁, sh₁, ws₂, cs₂, hfirst, hsecond, rfl, rfl⟩ := h.bind_ok
  obtain ⟨rfl, rfl, rfl, rfl, rfl⟩ := hfirst.mapError_ok.beginTx_ok
  exact ⟨rfl, hsecond⟩

/-- One statement of the transaction, inside a part of it. -/
theorem Ends.through_stmt {s : Sql E D W K M S α} {f : α → Prog E D W K M S S β}
    (h : Ends (inTx s >>= f) (some (.active us ls)) sh ws cs (.ok b) tx' sh') :
    ∃ env a ws₁ ws₂ mem ls', (s env sh.mem (applyAll sh.db us)).result = .ok a ∧
      (s env sh.mem (applyAll sh.db us)).writes = ws₁ ∧
      Ends (f a) (some (.active (us ++ ws₁) ls')) ⟨sh.db, mem⟩ ws₂ cs (.ok b) tx' sh' ∧
      ws = ws₁ ++ ws₂ := by
  obtain ⟨a, ws₁, cs₁, tx₁, sh₁, ws₂, cs₂, hfirst, hsecond, rfl, rfl⟩ := h.bind_ok
  obtain ⟨env, us', ls', ls'', htx, hr, rfl, rfl, rfl, rfl⟩ := hfirst.inTx_ok
  obtain ⟨rfl, rfl⟩ := Tx.active.inj (Option.some.inj htx)
  exact ⟨env, a, _, ws₂, _, ls'', hr, rfl, hsecond, rfl⟩

/-- One statement of the transaction, in the handler. -/
theorem Ends.through_inTx {s : Sql E D W K M S α}
    (h : Ends ((inTx s).mapError g >>= f) (some (.active us ls)) sh ws cs (.ok b) tx' sh') :
    ∃ env a ws₁ ws₂ mem ls', (s env sh.mem (applyAll sh.db us)).result = .ok a ∧
      (s env sh.mem (applyAll sh.db us)).writes = ws₁ ∧
      Ends (f a) (some (.active (us ++ ws₁) ls')) ⟨sh.db, mem⟩ ws₂ cs (.ok b) tx' sh' ∧
      ws = ws₁ ++ ws₂ := by
  obtain ⟨a, ws₁, cs₁, tx₁, sh₁, ws₂, cs₂, hfirst, hsecond, rfl, rfl⟩ := h.bind_ok
  obtain ⟨env, us', ls', ls'', htx, hr, rfl, rfl, rfl, rfl⟩ := hfirst.mapError_ok.inTx_ok
  obtain ⟨rfl, rfl⟩ := Tx.active.inj (Option.some.inj htx)
  exact ⟨env, a, _, ws₂, _, ls'', hr, rfl, hsecond, rfl⟩

/-- Several of them. -/
theorem Ends.through_inside {q : Prog E D W K M S ε α} (hq : q.Inside)
    (h : Ends (q >>= f) (some (.active us ls)) sh ws cs (.ok b) tx' sh') :
    ∃ a ws₁ ws₂ ls' sh₁, Ends q (some (.active us ls)) sh ws₁ [] (.ok a)
      (some (.active (us ++ ws₁) ls')) sh₁ ∧
      sh₁.db = sh.db ∧ Ends (f a) (some (.active (us ++ ws₁) ls')) sh₁ ws₂ cs (.ok b) tx' sh' ∧
      ws = ws₁ ++ ws₂ := by
  obtain ⟨a, ws₁, cs₁, tx₁, sh₁, ws₂, cs₂, hfirst, hsecond, rfl, rfl⟩ := h.bind_ok
  obtain ⟨rfl, hdb, ls', rfl⟩ := hfirst.inside_ok hq
  exact ⟨a, ws₁, ws₂, ls', sh₁, hfirst, hdb, hsecond, rfl⟩

/-- The commit at the end. -/
theorem Ends.through_commit {c : β}
    (h : Ends (commitTx.mapError g >>= fun _ => pure c : Prog E D W K M S ε β)
      (some (.active us ls)) sh ws cs (.ok b) tx' sh') :
    b = c ∧ ws = [] ∧ cs = [us] ∧ tx' = none ∧ sh' = ⟨applyAll sh.db us, sh.mem⟩ := by
  obtain ⟨a, ws₁, cs₁, tx₁, sh₁, ws₂, cs₂, hfirst, hsecond, rfl, rfl⟩ := h.bind_ok
  obtain ⟨rfl, rfl, rfl, rfl⟩ := hfirst.mapError_ok.commitTx_ok
  cases hsecond
  exact ⟨rfl, rfl, rfl, rfl, rfl⟩

end Through

end ReadCommitted
