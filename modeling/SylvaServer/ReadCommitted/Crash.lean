/-
  Hoare logic for a program alone that may fail or be cut off at any step.

  `p.Upholds J Q tx sh`: started on `sh` with the transaction `tx`, `p` passes only through shared
  states of `J`, whatever fails, and returns only where `Q` holds. `J` is what somebody finds who
  comes after the program was killed. `Restarts` are the starts of a program one after the other,
  each cut off or run to its end.

  Proved: the rules of the logic along a `do` block (`Delivers.bind` and around it), that what a
  program upholds holds wherever a run of it is cut off (`Upholds.run`), and the induction rule for
  any number of starts (`Restarts.holds`).
-/
import SylvaServer.ReadCommitted.World

namespace ReadCommitted

variable {C E D W K M S ε ε' α β : Type} [Store D W K]

namespace Prog

/-- Every step from here on leaves `J`, every return `Q`; the outside decides which steps fail. -/
def Upholds (J : Shared D M → Prop) (Q : Except ε α → Option (Tx W K) → Shared D M → Prop) :
    Prog E D W K M S ε α → Option (Tx W K) → Shared D M → Prop
  | ret r, tx, sh => J sh ∧ Q r tx sh
  | begin k, none, sh => J sh ∧ (∀ e, (k (.error e)).Upholds J Q none sh) ∧
      (k (.ok ())).Upholds J Q (some (.active [] [])) sh
  | begin _, some _, sh => J sh
  | stmt s k, some (.active ws ls), sh =>
      J sh ∧ (∀ e, (k (.error e)).Upholds J Q (some .aborted) sh) ∧
      ∀ env, match (s env sh.mem (applyAll sh.db ws)).result with
        | .ok b => (k (.ok b)).Upholds J Q
            (some (.active (ws ++ (s env sh.mem (applyAll sh.db ws)).writes)
              (ls ++ ((s env sh.mem (applyAll sh.db ws)).writes.map (Store.rowLock D) ++
                (s env sh.mem (applyAll sh.db ws)).locks))))
            ⟨sh.db, (s env sh.mem (applyAll sh.db ws)).mem⟩
        | .error e => (k (.error e)).Upholds J Q (some .aborted)
            ⟨sh.db, (s env sh.mem (applyAll sh.db ws)).mem⟩
  | stmt _ k, some .aborted, sh => J sh ∧ ∀ e, (k (.error e)).Upholds J Q (some .aborted) sh
  | stmt _ _, none, sh => J sh
  | commit k, some (.active ws _), sh => J sh ∧ (∀ e, (k (.error e)).Upholds J Q none sh) ∧
      (k (.ok ())).Upholds J Q none ⟨applyAll sh.db ws, sh.mem⟩
  | commit k, some .aborted, sh => J sh ∧ ∀ r, (k r).Upholds J Q none sh
  | commit _, none, sh => J sh
  | pool s k, none, sh => J sh ∧ (∀ e, (k (.error e)).Upholds J Q none sh) ∧
      ∀ env, match (s env sh.mem sh.db).result with
        | .ok b => J ⟨sh.db, (s env sh.mem sh.db).mem⟩ ∧
            (∀ e, (k (.error e)).Upholds J Q none ⟨sh.db, (s env sh.mem sh.db).mem⟩) ∧
            (k (.ok b)).Upholds J Q none
              ⟨applyAll sh.db (s env sh.mem sh.db).writes, (s env sh.mem sh.db).mem⟩
        | .error e => (k (.error e)).Upholds J Q none ⟨sh.db, (s env sh.mem sh.db).mem⟩
  | pool _ _, some _, sh => J sh
  | mem f k, tx, sh => J sh ∧ ∀ env, (k (f env sh.mem).1).Upholds J Q tx ⟨sh.db, (f env sh.mem).2⟩

variable {J : Shared D M → Prop} {Q : Except ε α → Option (Tx W K) → Shared D M → Prop}

namespace Upholds

variable {p : Prog E D W K M S ε α} {tx : Option (Tx W K)} {sh : Shared D M}

theorem now (h : p.Upholds J Q tx sh) : J sh := by
  unfold Upholds at h
  split at h <;> first | exact h | exact h.1

/-- One step. -/
theorem step {c : Choice E S} {p' : Proc E D W K M S ε α} {sh' : Shared D M}
    (h : p.Upholds J Q tx sh) (hdrop : ∀ r tx sh, Q r tx sh → Q r none sh)
    (hs : (Proc.mk p tx).step c sh = some (p', sh')) : p'.prog.Upholds J Q p'.tx sh' := by
  cases p with
  | ret r =>
    cases tx <;> simp only [Proc.step, Option.some.injEq, Prod.mk.injEq, reduceCtorEq] at hs
    obtain ⟨rfl, rfl⟩ := hs
    exact ⟨h.1, hdrop _ _ _ h.2⟩
  | begin k =>
    cases tx <;> simp only [Proc.step, reduceCtorEq] at hs
    split at hs <;> simp only [Option.some.injEq, Prod.mk.injEq] at hs <;> obtain ⟨rfl, rfl⟩ := hs
    · exact h.2.1 _
    · exact h.2.2
  | stmt s k =>
    rcases tx with _ | (⟨ws, ls⟩ | _)
    · simp [Proc.step] at hs
    · simp only [Proc.step] at hs
      split at hs
      · simp only [Option.some.injEq, Prod.mk.injEq] at hs
        obtain ⟨rfl, rfl⟩ := hs
        exact h.2.1 _
      · have hrun := h.2.2 c.env
        split at hs <;> rename_i hr <;> rw [hr] at hrun <;>
          simp only [Option.some.injEq,
            Prod.mk.injEq] at hs <;> obtain ⟨rfl, rfl⟩ := hs <;> exact hrun
    · simp only [Proc.step] at hs
      split at hs <;> simp only [Option.some.injEq, Prod.mk.injEq, reduceCtorEq] at hs
      obtain ⟨rfl, rfl⟩ := hs
      exact h.2 _
  | commit k =>
    rcases tx with _ | (⟨ws, ls⟩ | _)
    · simp [Proc.step] at hs
    · simp only [Proc.step] at hs
      split at hs <;> simp only [Option.some.injEq, Prod.mk.injEq] at hs <;> obtain ⟨rfl, rfl⟩ := hs
      · exact h.2.1 _
      · exact h.2.2
    · simp only [Proc.step] at hs
      split at hs <;> simp only [Option.some.injEq, Prod.mk.injEq] at hs
        <;> obtain ⟨rfl, rfl⟩ := hs <;> exact h.2 _
  | pool s k =>
    cases tx <;> simp only [Proc.step, reduceCtorEq] at hs
    split at hs
    · simp only [Option.some.injEq, Prod.mk.injEq] at hs
      obtain ⟨rfl, rfl⟩ := hs
      exact h.2.1 _
    · have hrun := h.2.2 c.env
      split at hs <;> rename_i hr <;> rw [hr] at hrun
      · split at hs <;> rename_i hw <;> simp only [Option.some.injEq, Prod.mk.injEq] at hs <;>
          obtain ⟨rfl, rfl⟩ := hs
        · simp only [Bool.and_eq_true, List.isEmpty_iff] at hw
          have hlast := hrun.2.2
          rw [hw.1] at hlast
          exact hlast
        · exact ⟨hrun.1, hrun.2.1, hrun.2.2⟩
      · simp only [Option.some.injEq, Prod.mk.injEq] at hs
        obtain ⟨rfl, rfl⟩ := hs
        exact hrun
  | mem f k =>
    simp only [Proc.step, Option.some.injEq, Prod.mk.injEq] at hs
    obtain ⟨rfl, rfl⟩ := hs
    exact h.2 _

/-- **Soundness**: wherever a run is cut off, what is upheld holds. -/
theorem run {cs : List (Choice E S)} {p' : Proc E D W K M S ε α} {sh' : Shared D M}
    (h : p.Upholds J Q tx sh) (hdrop : ∀ r tx sh, Q r tx sh → Q r none sh)
    (hr : Proc.run cs ⟨p, tx⟩ sh = some (p', sh')) : p'.prog.Upholds J Q p'.tx sh' := by
  induction cs generalizing p tx sh with
  | nil =>
    simp only [Proc.run, Option.some.injEq, Prod.mk.injEq] at hr
    obtain ⟨rfl, rfl⟩ := hr
    exact h
  | cons c cs ih =>
    simp only [Proc.run] at hr
    split at hr
    · next p₁ sh₁ hs => exact ih (h.step hdrop hs) hr
    · exact absurd hr (by simp)

theorem bind {R : Except ε β → Option (Tx W K) → Shared D M → Prop} (f : α → Prog E D W K M S ε β)
    (h : p.Upholds J Q tx sh)
    (hok : ∀ a tx sh, Q (.ok a) tx sh → (f a).Upholds J R tx sh)
    (herror : ∀ e tx sh, J sh → Q (.error e) tx sh → R (.error e) tx sh) :
    (p >>= f).Upholds J R tx sh := by
  induction p generalizing tx sh with
  | ret r =>
    cases r with
    | ok a => exact hok a _ _ h.2
    | error e => exact ⟨h.1, herror e _ _ h.1 h.2⟩
  | begin k ih =>
    cases tx with
    | none => exact ⟨h.1, fun e => ih _ (h.2.1 e), ih _ h.2.2⟩
    | some t => exact h
  | stmt s k ih =>
    rcases tx with _ | (⟨ws, ls⟩ | _)
    · exact h
    · refine ⟨h.1, fun e => ih _ (h.2.1 e), fun env => ?_⟩
      have hrun := h.2.2 env
      split <;> rename_i hr <;> rw [hr] at hrun <;> exact ih _ hrun
    · exact ⟨h.1, fun e => ih _ (h.2 e)⟩
  | commit k ih =>
    rcases tx with _ | (⟨ws, ls⟩ | _)
    · exact h
    · exact ⟨h.1, fun e => ih _ (h.2.1 e), ih _ h.2.2⟩
    · exact ⟨h.1, fun r => ih _ (h.2 r)⟩
  | pool s k ih =>
    cases tx with
    | some t => exact h
    | none =>
      refine ⟨h.1, fun e => ih _ (h.2.1 e), fun env => ?_⟩
      have hrun := h.2.2 env
      split <;> rename_i hr <;> rw [hr] at hrun
      · exact ⟨hrun.1, fun e => ih _ (hrun.2.1 e), ih _ hrun.2.2⟩
      · exact ih _ hrun
  | mem g k ih => exact ⟨h.1, fun env => ih _ (h.2 env)⟩

theorem mapError {R : Except ε' α → Option (Tx W K) → Shared D M → Prop} (g : ε → ε')
    (h : p.Upholds J Q tx sh) (hr : ∀ r tx sh, Q r tx sh → R (r.mapError g) tx sh) :
    (p.mapError g).Upholds J R tx sh := by
  induction p generalizing tx sh with
  | ret r => cases r <;> exact ⟨h.1, hr _ _ _ h.2⟩
  | begin k ih =>
    cases tx with
    | none => exact ⟨h.1, fun e => ih _ (h.2.1 e), ih _ h.2.2⟩
    | some t => exact h
  | stmt s k ih =>
    rcases tx with _ | (⟨ws, ls⟩ | _)
    · exact h
    · refine ⟨h.1, fun e => ih _ (h.2.1 e), fun env => ?_⟩
      have hrun := h.2.2 env
      split <;> rename_i hr' <;> rw [hr'] at hrun <;> exact ih _ hrun
    · exact ⟨h.1, fun e => ih _ (h.2 e)⟩
  | commit k ih =>
    rcases tx with _ | (⟨ws, ls⟩ | _)
    · exact h
    · exact ⟨h.1, fun e => ih _ (h.2.1 e), ih _ h.2.2⟩
    · exact ⟨h.1, fun r => ih _ (h.2 r)⟩
  | pool s k ih =>
    cases tx with
    | some t => exact h
    | none =>
      refine ⟨h.1, fun e => ih _ (h.2.1 e), fun env => ?_⟩
      have hrun := h.2.2 env
      split <;> rename_i hr' <;> rw [hr'] at hrun
      · exact ⟨hrun.1, fun e => ih _ (hrun.2.1 e), ih _ hrun.2.2⟩
      · exact ih _ hrun
  | mem f k ih => exact ⟨h.1, fun env => ih _ (h.2 env)⟩

end Upholds

/-- `Upholds` between transactions, with a promise on what is returned; errors promise nothing. -/
def Delivers (J : Shared D M → Prop) (Q : α → Shared D M → Prop) (p : Prog E D W K M S ε α)
    (sh : Shared D M) : Prop :=
  p.Upholds J (fun r tx sh => ∀ a, r = .ok a → tx = none ∧ Q a sh) none sh

namespace Delivers

variable {Q : α → Shared D M → Prop} {R : β → Shared D M → Prop} {p : Prog E D W K M S ε α}
  {sh : Shared D M}

theorem bind (f : α → Prog E D W K M S ε β) (h : p.Delivers J Q sh)
    (hf : ∀ a sh, Q a sh → (f a).Delivers J R sh) : (p >>= f).Delivers J R sh := by
  refine Upholds.bind f h (fun a tx sh hq => ?_) fun e tx sh _ _ a he => absurd he (by simp)
  obtain ⟨rfl, hdelivered⟩ := hq a rfl
  exact hf a sh hdelivered

theorem mapError (g : ε → ε') (h : p.Delivers J Q sh) : (p.mapError g).Delivers J Q sh := by
  refine Upholds.mapError g h fun r tx sh hq a hr => ?_
  cases r with
  | ok b =>
    obtain rfl : b = a := by simpa [Except.mapError] using hr
    exact hq b rfl
  | error e => exact absurd hr (by simp [Except.mapError])

theorem pure {a : α} (hnow : J sh) (hq : Q a sh) :
    (ret (.ok a) : Prog E D W K M S ε α).Delivers J Q sh := by
  refine ⟨hnow, fun b hb => ⟨rfl, ?_⟩⟩
  obtain rfl : a = b := by simpa using hb
  exact hq

theorem fail (e : ε) (hnow : J sh) : (ret (.error e) : Prog E D W K M S ε α).Delivers J Q sh :=
  ⟨hnow, fun a ha => absurd ha (by simp)⟩

theorem ofExcept {r : Except ε α} (hnow : J sh) (hq : ∀ a, r = .ok a → Q a sh) :
    (Prog.ofExcept r : Prog E D W K M S ε α).Delivers J Q sh :=
  ⟨hnow, fun a ha => ⟨rfl, hq a ha⟩⟩

theorem critical {f : E → M → α × M} (hnow : J sh)
    (hf : ∀ env, J ⟨sh.db, (f env sh.mem).2⟩ ∧ Q (f env sh.mem).1 ⟨sh.db, (f env sh.mem).2⟩) :
    (Prog.critical f : Prog E D W K M S ε α).Delivers J Q sh :=
  ⟨hnow, fun env => Delivers.pure (hf env).1 (hf env).2⟩

theorem ask {f : E → α} (hnow : J sh) (hf : ∀ env, Q (f env) sh) :
    (Prog.ask f : Prog E D W K M S ε α).Delivers J Q sh := critical hnow fun env => ⟨hnow, hf env⟩

/-- A statement on the pool that leaves the memory alone. -/
theorem onPool {s : Sql E D W K M S α} (hmem : ∀ env, (s env sh.mem sh.db).mem = sh.mem)
    (hnow : J sh)
    (hrun : ∀ env a, (s env sh.mem sh.db).result = .ok a →
      J ⟨applyAll sh.db (s env sh.mem sh.db).writes, sh.mem⟩ ∧
      Q a ⟨applyAll sh.db (s env sh.mem sh.db).writes, sh.mem⟩) :
    (Prog.onPool s).Delivers J Q sh := by
  refine ⟨hnow, fun e => Delivers.fail e hnow, fun env => ?_⟩
  split <;> rename_i hr <;> rw [hmem env]
  · obtain ⟨hj, hq⟩ := hrun env _ hr
    exact ⟨hnow, fun e => Delivers.fail e hnow, Delivers.pure hj hq⟩
  · exact Delivers.fail _ hnow

end Delivers

end Prog

/-- Starts of a program one after the other, newest first: each with what it was started with and,
    where it came to its end, what it returned. -/
inductive Restarts (prog : C → Prog E D W K M S ε α) (sh₀ : Shared D M) :
    List (C × Option α) → Shared D M → Prop where
  | none : Restarts prog sh₀ [] sh₀
  | cut {starts : List (C × Option α)} {sh sh' : Shared D M} {c : C} {cs : List (Choice E S)}
      {p : Proc E D W K M S ε α} (before : Restarts prog sh₀ starts sh)
      (run : Proc.run cs ⟨prog c, .none⟩ sh = some (p, sh')) :
      Restarts prog sh₀ ((c, .none) :: starts) sh'
  | returned {starts : List (C × Option α)} {sh sh' : Shared D M} {c : C} {cs : List (Choice E S)}
      {a : α} (before : Restarts prog sh₀ starts sh)
      (run : Proc.run cs ⟨prog c, .none⟩ sh = some (⟨.ret (.ok a), .none⟩, sh')) :
      Restarts prog sh₀ ((c, some a) :: starts) sh'

/-- **Induction over the starts**: it is enough that one start, wherever it is cut off, keeps the
    invariant, and that what it returns fits it. -/
theorem Restarts.holds {prog : C → Prog E D W K M S ε α} {sh₀ sh : Shared D M}
    {starts : List (C × Option α)} (J : List (C × Option α) → Shared D M → Prop) (h₀ : J [] sh₀)
    (hstart : ∀ starts sh c, J starts sh →
      (prog c).Delivers (J ((c, .none) :: starts)) (fun a sh' => J ((c, some a) :: starts) sh') sh)
    (h : Restarts prog sh₀ starts sh) : J starts sh := by
  induction h with
  | none => exact h₀
  | cut before run ih =>
    exact (Prog.Upholds.run (hstart _ _ _ ih) (fun r _ sh hq a ha => ⟨rfl, (hq a ha).2⟩) run).now
  | returned before run ih =>
    have hend := Prog.Upholds.run (hstart _ _ _ ih) (fun r _ sh hq a ha => ⟨rfl, (hq a ha).2⟩) run
    exact (hend.2 _ rfl).2

end ReadCommitted
