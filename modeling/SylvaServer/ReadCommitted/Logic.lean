/-
  A rely-guarantee logic for programs over one database.

  A `Contract` says what a program relies on while others run (`rely`), what holds of the shared
  state at all times (`inv`), what each step of the program keeps (`guar`) and what holds when
  it returns (`done`). `Safe T p sh` says that `p`, last seen with shared state `sh`, keeps
  its side of `T` for ever. It is an inductive predicate: every step makes a program smaller.

  Proved: one rule for each kind of request, and soundness for a world of programs
  (`World.Run.safe`, `World.Trace.safe`).
-/
import SylvaServer.ReadCommitted.World

namespace ReadCommitted

structure Contract (E D W K M S ε α : Type) where
  inv : Shared D M → Prop
  rely : Proc E D W K M S ε α → Shared D M → Shared D M → Prop
  guar : Proc E D W K M S ε α → Shared D M → Proc E D W K M S ε α → Shared D M → Prop
  done : Except ε α → Shared D M → Prop

variable {E D W K M S ε ε' α β : Type} [Store D W K]

/-- `p`, last seen with `sh`, keeps its side of the contract for ever. -/
inductive Safe (T : Contract E D W K M S ε α) : Proc E D W K M S ε α → Shared D M → Prop where
  | mk {p : Proc E D W K M S ε α} {sh : Shared D M}
      (stop : ∀ sh₁, T.inv sh₁ → T.rely p sh sh₁ → ∀ r, p = ⟨.ret r, none⟩ → T.done r sh₁)
      (keep : ∀ sh₁, T.inv sh₁ → T.rely p sh sh₁ → ∀ (c : Choice E S) p' sh',
        p.step c sh₁ = some (p', sh') → T.guar p sh₁ p' sh')
      (next : ∀ sh₁, T.inv sh₁ → T.rely p sh sh₁ → ∀ (c : Choice E S) p' sh',
        p.step c sh₁ = some (p', sh') → Safe T p' sh') :
      Safe T p sh

namespace Safe

variable {T : Contract E D W K M S ε α} {p : Proc E D W K M S ε α} {sh : Shared D M}

theorem intro (stop : ∀ sh₁, T.inv sh₁ → T.rely p sh sh₁ → ∀ r, p = ⟨.ret r, none⟩ → T.done r sh₁)
    (next : ∀ sh₁, T.inv sh₁ → T.rely p sh sh₁ → ∀ (c : Choice E S) p' sh',
      p.step c sh₁ = some (p', sh') → T.guar p sh₁ p' sh' ∧ Safe T p' sh') : Safe T p sh :=
  .mk stop (fun sh₁ hinv hr c p' sh' hs => (next sh₁ hinv hr c p' sh' hs).1)
    (fun sh₁ hinv hr c p' sh' hs => (next sh₁ hinv hr c p' sh' hs).2)

theorem next_step (h : Safe T p sh) {sh₁ : Shared D M} (hinv : T.inv sh₁) (hrely : T.rely p sh sh₁)
    {c : Choice E S} {p' : Proc E D W K M S ε α} {sh' : Shared D M}
    (hs : p.step c sh₁ = some (p', sh')) : T.guar p sh₁ p' sh' ∧ Safe T p' sh' := by
  cases h with
  | mk stop keep next =>
    exact ⟨keep sh₁ hinv hrely c p' sh' hs, next sh₁ hinv hrely c p' sh' hs⟩

/-- What the others do under the rely condition does no harm. -/
theorem stable (h : Safe T p sh)
    (htrans : ∀ sh₁ sh₂, T.rely p sh sh₁ → T.rely p sh₁ sh₂ → T.rely p sh sh₂)
    {sh₁ : Shared D M} (hrely : T.rely p sh sh₁) : Safe T p sh₁ := by
  cases h with
  | mk stop keep next =>
    exact ⟨fun sh₂ hinv h₂ => stop sh₂ hinv (htrans _ _ hrely h₂),
      fun sh₂ hinv h₂ => keep sh₂ hinv (htrans _ _ hrely h₂),
      fun sh₂ hinv h₂ => next sh₂ hinv (htrans _ _ hrely h₂)⟩

/-! ## One rule for each request -/

/-- A program that has returned; an open transaction is dropped first. -/
theorem ret {r : Except ε α} {tx : Option (Tx W K)}
    (hg : tx ≠ none → ∀ sh₁, T.inv sh₁ → T.rely ⟨.ret r, tx⟩ sh sh₁ →
      T.guar ⟨.ret r, tx⟩ sh₁ ⟨.ret r, none⟩ sh₁)
    (hd : ∀ sh₁ sh₂, T.inv sh₁ → T.rely ⟨.ret r, tx⟩ sh sh₁ → T.inv sh₂ →
      (sh₂ = sh₁ ∨ T.rely ⟨.ret r, none⟩ sh₁ sh₂) → T.done r sh₂) : Safe T ⟨.ret r, tx⟩ sh := by
  have hnone : ∀ sh₁, (∀ sh₂, T.inv sh₂ → T.rely ⟨.ret r, none⟩ sh₁ sh₂ → T.done r sh₂) →
      Safe T ⟨.ret r, none⟩ sh₁ := by
    intro sh₁ h
    refine intro (fun sh₂ hinv hr r' he => ?_) fun sh₂ _ _ c p' sh' hs => by simp [Proc.step] at hs
    simp only [Proc.mk.injEq, Prog.ret.injEq, and_true] at he
    exact he ▸ h sh₂ hinv hr
  cases tx with
  | none => exact hnone sh fun sh₂ hinv hr => hd sh₂ sh₂ hinv hr hinv (Or.inl rfl)
  | some t =>
    refine intro (fun sh₁ _ _ r' he => by simp at he) fun sh₁ hinv hr c p' sh' hs => ?_
    simp only [Proc.step, Option.some.injEq, Prod.mk.injEq] at hs
    obtain ⟨rfl, rfl⟩ := hs
    exact ⟨hg (by simp) _ hinv hr, hnone _ fun sh₂ hinv₂ hr₂ => hd _ sh₂ hinv hr hinv₂ (Or.inr hr₂)⟩

theorem begin {k : Except S Unit → Prog E D W K M S ε α}
    (h : ∀ sh₁, T.inv sh₁ → T.rely ⟨.begin k, none⟩ sh sh₁ →
      (∀ e, T.guar ⟨.begin k, none⟩ sh₁ ⟨k (.error e), none⟩ sh₁ ∧
        Safe T ⟨k (.error e), none⟩ sh₁) ∧
      T.guar ⟨.begin k, none⟩ sh₁ ⟨k (.ok ()), some (.active [] [])⟩ sh₁ ∧
        Safe T ⟨k (.ok ()), some (.active [] [])⟩ sh₁) : Safe T ⟨.begin k, none⟩ sh := by
  refine intro (fun sh₁ _ _ r he => by simp at he) fun sh₁ hinv hr c p' sh' hs => ?_
  simp only [Proc.step] at hs
  split at hs <;> simp only [Option.some.injEq, Prod.mk.injEq] at hs <;> obtain ⟨rfl, rfl⟩ := hs
  · exact (h sh₁ hinv hr).1 _
  · exact (h sh₁ hinv hr).2

theorem stmt {s : Sql E D W K M S β} {k : Except S β → Prog E D W K M S ε α} {ws : List W}
    {ls : List K}
    (h : ∀ sh₁, T.inv sh₁ → T.rely ⟨.stmt s k, some (.active ws ls)⟩ sh sh₁ →
      (∀ e, T.guar ⟨.stmt s k, some (.active ws ls)⟩ sh₁ ⟨k (.error e), some .aborted⟩ sh₁ ∧
        Safe T ⟨k (.error e), some .aborted⟩ sh₁) ∧
      ∀ env o, o = s env sh₁.mem (applyAll sh₁.db ws) →
        (∀ e, o.result = .error e →
          T.guar ⟨.stmt s k, some (.active ws ls)⟩ sh₁ ⟨k (.error e), some .aborted⟩
            ⟨sh₁.db, o.mem⟩ ∧
          Safe T ⟨k (.error e), some .aborted⟩ ⟨sh₁.db, o.mem⟩) ∧
        (∀ b, o.result = .ok b →
          T.guar ⟨.stmt s k, some (.active ws ls)⟩ sh₁
            ⟨k (.ok b), some (.active (ws ++ o.writes)
              (ls ++ (o.writes.map (Store.rowLock D) ++ o.locks)))⟩ ⟨sh₁.db, o.mem⟩ ∧
          Safe T ⟨k (.ok b), some (.active (ws ++ o.writes)
              (ls ++ (o.writes.map (Store.rowLock D) ++ o.locks)))⟩ ⟨sh₁.db, o.mem⟩)) :
    Safe T ⟨.stmt s k, some (.active ws ls)⟩ sh := by
  refine intro (fun sh₁ _ _ r he => by simp at he) fun sh₁ hinv hr c p' sh' hs => ?_
  obtain ⟨hfault, hrun⟩ := h sh₁ hinv hr
  simp only [Proc.step] at hs
  split at hs
  · simp only [Option.some.injEq, Prod.mk.injEq] at hs
    obtain ⟨rfl, rfl⟩ := hs
    exact hfault _
  · obtain ⟨herr, hok⟩ := hrun c.env _ rfl
    split at hs <;> rename_i he <;> simp only [Option.some.injEq, Prod.mk.injEq] at hs <;>
      obtain ⟨rfl, rfl⟩ := hs
    · exact hok _ he
    · exact herr _ he

theorem commit {k : Except S Unit → Prog E D W K M S ε α} {ws : List W} {ls : List K}
    (h : ∀ sh₁, T.inv sh₁ → T.rely ⟨.commit k, some (.active ws ls)⟩ sh sh₁ →
      (∀ e, T.guar ⟨.commit k, some (.active ws ls)⟩ sh₁ ⟨k (.error e), none⟩ sh₁ ∧
        Safe T ⟨k (.error e), none⟩ sh₁) ∧
      T.guar ⟨.commit k, some (.active ws ls)⟩ sh₁ ⟨k (.ok ()), none⟩
        ⟨applyAll sh₁.db ws, sh₁.mem⟩ ∧
      Safe T ⟨k (.ok ()), none⟩ ⟨applyAll sh₁.db ws, sh₁.mem⟩) :
    Safe T ⟨.commit k, some (.active ws ls)⟩ sh := by
  refine intro (fun sh₁ _ _ r he => by simp at he) fun sh₁ hinv hr c p' sh' hs => ?_
  simp only [Proc.step] at hs
  split at hs <;> simp only [Option.some.injEq, Prod.mk.injEq] at hs <;> obtain ⟨rfl, rfl⟩ := hs
  · exact (h sh₁ hinv hr).1 _
  · exact (h sh₁ hinv hr).2

/-- In an aborted transaction a statement can only fail. -/
theorem stmt_aborted {s : Sql E D W K M S β} {k : Except S β → Prog E D W K M S ε α}
    (h : ∀ sh₁, T.inv sh₁ → T.rely ⟨.stmt s k, some .aborted⟩ sh sh₁ → ∀ e,
      T.guar ⟨.stmt s k, some .aborted⟩ sh₁ ⟨k (.error e), some .aborted⟩ sh₁ ∧
        Safe T ⟨k (.error e), some .aborted⟩ sh₁) : Safe T ⟨.stmt s k, some .aborted⟩ sh := by
  refine intro (fun sh₁ _ _ r he => by simp at he) fun sh₁ hinv hr c p' sh' hs => ?_
  simp only [Proc.step] at hs
  split at hs <;> simp only [Option.some.injEq, Prod.mk.injEq, reduceCtorEq] at hs
  obtain ⟨rfl, rfl⟩ := hs
  exact h sh₁ hinv hr _

/-- Committing an aborted transaction only ends it. -/
theorem commit_aborted {k : Except S Unit → Prog E D W K M S ε α}
    (h : ∀ sh₁, T.inv sh₁ → T.rely ⟨.commit k, some .aborted⟩ sh sh₁ → ∀ r,
      T.guar ⟨.commit k, some .aborted⟩ sh₁ ⟨k r, none⟩ sh₁ ∧ Safe T ⟨k r, none⟩ sh₁) :
    Safe T ⟨.commit k, some .aborted⟩ sh := by
  refine intro (fun sh₁ _ _ r he => by simp at he) fun sh₁ hinv hr c p' sh' hs => ?_
  simp only [Proc.step] at hs
  split at hs <;> simp only [Option.some.injEq, Prod.mk.injEq] at hs <;> obtain ⟨rfl, rfl⟩ := hs <;>
    exact h sh₁ hinv hr _

/-- A pool statement that writes nothing. -/
theorem query {s : Sql E D W K M S β} {k : Except S β → Prog E D W K M S ε α}
    (hread : ∀ env m db, (s env m db).writes = [] ∧ (s env m db).locks = [])
    (h : ∀ sh₁, T.inv sh₁ → T.rely ⟨.pool s k, none⟩ sh sh₁ →
      (∀ e, T.guar ⟨.pool s k, none⟩ sh₁ ⟨k (.error e), none⟩ sh₁ ∧
        Safe T ⟨k (.error e), none⟩ sh₁) ∧
      ∀ env, T.guar ⟨.pool s k, none⟩ sh₁ ⟨k (s env sh₁.mem sh₁.db).result, none⟩
          ⟨sh₁.db, (s env sh₁.mem sh₁.db).mem⟩ ∧
        Safe T ⟨k (s env sh₁.mem sh₁.db).result, none⟩ ⟨sh₁.db, (s env sh₁.mem sh₁.db).mem⟩) :
    Safe T ⟨.pool s k, none⟩ sh := by
  refine intro (fun sh₁ _ _ r he => by simp at he) fun sh₁ hinv hr c p' sh' hs => ?_
  obtain ⟨hfault, hrun⟩ := h sh₁ hinv hr
  simp only [Proc.step] at hs
  split at hs
  · simp only [Option.some.injEq, Prod.mk.injEq] at hs
    obtain ⟨rfl, rfl⟩ := hs
    exact hfault _
  · have hrun := hrun c.env
    obtain ⟨hw, hl⟩ := hread c.env sh₁.mem sh₁.db
    split at hs <;> rename_i he
    · simp only [hw, hl, List.isEmpty_nil, Bool.and_self, if_true, Option.some.injEq,
        Prod.mk.injEq] at hs
      obtain ⟨rfl, rfl⟩ := hs
      rwa [he] at hrun
    · simp only [Option.some.injEq, Prod.mk.injEq] at hs
      obtain ⟨rfl, rfl⟩ := hs
      rwa [he] at hrun

theorem mem {f : E → M → β × M} {k : β → Prog E D W K M S ε α} {tx : Option (Tx W K)}
    (h : ∀ sh₁, T.inv sh₁ → T.rely ⟨.mem f k, tx⟩ sh sh₁ → ∀ env,
      T.guar ⟨.mem f k, tx⟩ sh₁ ⟨k (f env sh₁.mem).1, tx⟩ ⟨sh₁.db, (f env sh₁.mem).2⟩ ∧
      Safe T ⟨k (f env sh₁.mem).1, tx⟩ ⟨sh₁.db, (f env sh₁.mem).2⟩) :
    Safe T ⟨.mem f k, tx⟩ sh := by
  refine intro (fun sh₁ _ _ r he => by simp at he) fun sh₁ hinv hr c p' sh' hs => ?_
  simp only [Proc.step, Option.some.injEq, Prod.mk.injEq] at hs
  obtain ⟨rfl, rfl⟩ := hs
  exact h sh₁ hinv hr c.env

end Safe

/-! ## Soundness -/

variable {Pid : Type} [DecidableEq Pid] [Fintype Pid] [DecidableEq K]

/-- **Soundness.** When the guarantee of each step is what the others rely on, every program of
    a run keeps its contract and the global invariant `J` holds. -/
theorem World.Run.safe {C : World Pid E D W K M S ε α → Pid → World Pid E D W K M S ε α → Prop}
    {w₀ w : World Pid E D W K M S ε α} (T : Pid → Contract E D W K M S ε α)
    (J : World Pid E D W K M S ε α → Prop)
    (hrefl : ∀ i p sh, (T i).rely p sh sh)
    (htrans : ∀ i p sh sh₁ sh₂, (T i).rely p sh sh₁ → (T i).rely p sh₁ sh₂ → (T i).rely p sh sh₂)
    (hinv : ∀ w i, J w → (T i).inv w.sh)
    (hcompat : ∀ w i c w', J w → w.Exclusive → w'.Exclusive → w.step i c = some w' → C w i w' →
      (T i).guar (w.procs i) w.sh (w'.procs i) w'.sh →
      J w' ∧ ∀ j, j ≠ i → (T j).rely (w.procs j) w.sh w'.sh)
    (hJ : J w₀) (hx : w₀.Exclusive) (hsafe : ∀ i, Safe (T i) (w₀.procs i) w₀.sh)
    (hr : Run C w₀ w) : J w ∧ w.Exclusive ∧ ∀ i, Safe (T i) (w.procs i) w.sh := by
  refine hr.induct (fun w => J w ∧ w.Exclusive ∧ ∀ i, Safe (T i) (w.procs i) w.sh)
    ⟨hJ, hx, hsafe⟩ ?_
  rintro w i c w' ⟨hJ, hx, hsafe⟩ hs hC
  obtain ⟨hstep, -, hsame⟩ := step_spec hs
  have hx' := exclusive_step hx hs
  obtain ⟨hg, hi⟩ := (hsafe i).next_step (hinv w i hJ) (hrefl i _ _) hstep
  obtain ⟨hJ', hrely⟩ := hcompat w i c w' hJ hx hx' hs hC hg
  refine ⟨hJ', hx', fun j => ?_⟩
  by_cases hj : j = i
  · exact hj ▸ hi
  · rw [hsame j hj]
    exact (hsafe j).stable (htrans j _ _) (hrely j hj)

/-- The same for runs with their steps: the invariant may speak of what happened before. -/
theorem World.Trace.safe
    {C : List (World.Event Pid E D W K M S ε α) → World.Event Pid E D W K M S ε α → Prop}
    {w₀ w : World Pid E D W K M S ε α} {es : List (World.Event Pid E D W K M S ε α)}
    (T : Pid → Contract E D W K M S ε α)
    (J : List (World.Event Pid E D W K M S ε α) → World Pid E D W K M S ε α → Prop)
    (hrefl : ∀ i p sh, (T i).rely p sh sh)
    (htrans : ∀ i p sh sh₁ sh₂, (T i).rely p sh sh₁ → (T i).rely p sh₁ sh₂ → (T i).rely p sh sh₂)
    (hinv : ∀ es w i, J es w → (T i).inv w.sh)
    (hcompat : ∀ es w i c w', J es w → w.Exclusive → w'.Exclusive → w.step i c = some w' →
      (T i).guar (w.procs i) w.sh (w'.procs i) w'.sh →
      J (⟨w, i, c, w'⟩ :: es) w' ∧ ∀ j, j ≠ i → (T j).rely (w.procs j) w.sh w'.sh)
    (hJ : J [] w₀) (hx : w₀.Exclusive) (hsafe : ∀ i, Safe (T i) (w₀.procs i) w₀.sh)
    (ht : Trace C w₀ es w) : J es w ∧ w.Exclusive ∧ ∀ i, Safe (T i) (w.procs i) w.sh := by
  induction ht with
  | start => exact ⟨hJ, hx, hsafe⟩
  | @step es w w' i c _ hs _ ih =>
    obtain ⟨hJ, hx, hsafe⟩ := ih
    obtain ⟨hstep, -, hsame⟩ := step_spec hs
    have hx' := exclusive_step hx hs
    obtain ⟨hg, hi⟩ := (hsafe i).next_step (hinv es w i hJ) (hrefl i _ _) hstep
    obtain ⟨hJ', hrely⟩ := hcompat es w i c w' hJ hx hx' hs hg
    refine ⟨hJ', hx', fun j => ?_⟩
    by_cases hj : j = i
    · exact hj ▸ hi
    · rw [hsame j hj]
      exact (hsafe j).stable (htrans j _ _) (hrely j hj)

end ReadCommitted
