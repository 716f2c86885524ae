/-
  One program on two databases, with the same choices from outside.

  `Abreast I A C p sh p' sh'` says that `p` on `sh` and `p'` on `sh'` go step by step together
  for ever, as long as the choices meet `C`: the tables stay in the relation `I`, and when one
  returns the other returns too, with results in the relation `A`.

  Proved: a rule for a program that has returned and one for a statement on the pool, and what
  the two runs of a list of choices have in common (`Abreast.run`).
-/
import SylvaServer.ReadCommitted.World

namespace ReadCommitted

variable {E D W K M S ε α β : Type} [Store D W K]

/-- `p` on `sh` and `p'` on `sh'` stay together. -/
inductive Abreast (I : D → D → Prop) (A : Except ε α → Except ε α → Prop)
    (C : Choice E S → Prop) : Proc E D W K M S ε α → Shared D M → Proc E D W K M S ε α →
    Shared D M → Prop where
  | mk {p p' : Proc E D W K M S ε α} {sh sh' : Shared D M} (inv : I sh.db sh'.db)
      (stop : ∀ r, p = ⟨.ret r, none⟩ → ∃ r', p' = ⟨.ret r', none⟩ ∧ A r r')
      (both : ∀ c, C c → (p.step c sh).isSome = (p'.step c sh').isSome)
      (next : ∀ c, C c → ∀ q v q' v', p.step c sh = some (q, v) → p'.step c sh' = some (q', v') →
        Abreast I A C q v q' v') : Abreast I A C p sh p' sh'

namespace Abreast

variable {I : D → D → Prop} {A : Except ε α → Except ε α → Prop} {C : Choice E S → Prop}
  {p p' : Proc E D W K M S ε α} {sh sh' : Shared D M}

theorem at_end (h : Abreast I A C p sh p' sh') :
    I sh.db sh'.db ∧ ∀ r, p = ⟨.ret r, none⟩ → ∃ r', p' = ⟨.ret r', none⟩ ∧ A r r' := by
  cases h with
  | mk inv stop both next => exact ⟨inv, stop⟩

/-- **The runs stay together.** -/
theorem run {cs : List (Choice E S)} {q : Proc E D W K M S ε α} {v : Shared D M}
    (h : Abreast I A C p sh p' sh') (hC : ∀ c ∈ cs, C c) (hr : Proc.run cs p sh = some (q, v)) :
    ∃ q' v', Proc.run cs p' sh' = some (q', v') ∧ Abreast I A C q v q' v' := by
  induction cs generalizing p sh p' sh' with
  | nil =>
    simp only [Proc.run, Option.some.injEq, Prod.mk.injEq] at hr
    obtain ⟨rfl, rfl⟩ := hr
    exact ⟨p', sh', rfl, h⟩
  | cons c cs ih =>
    have hc : C c := hC c (by simp)
    cases h with
    | mk inv stop both next =>
      simp only [Proc.run] at hr ⊢
      split at hr
      · next p₁ sh₁ hs =>
        have hsome : (p'.step c sh').isSome := by
          rw [← both c hc, hs]
          rfl
        obtain ⟨⟨p₂, sh₂⟩, hs'⟩ := Option.isSome_iff_exists.mp hsome
        rw [hs']
        exact ih (next c hc _ _ _ _ hs hs') (fun a ha => hC a (by simp [ha])) hr
      · exact absurd hr (by simp)

theorem ret {r r' : Except ε α} (hI : I sh.db sh'.db) (hA : A r r') :
    Abreast I A C (⟨.ret r, none⟩ : Proc E D W K M S ε α) sh ⟨.ret r', none⟩ sh' := by
  refine ⟨hI, fun r₁ he => ?_, fun c _ => rfl, fun c _ q v q' v' hs => by simp [Proc.step] at hs⟩
  simp only [Proc.mk.injEq, Prog.ret.injEq, and_true] at he
  exact ⟨r', rfl, he ▸ hA⟩

/-- Both wait for the commit of a pool statement. -/
theorem commit {k k' : Except S Unit → Prog E D W K M S ε α} {ws ws' : List W} {ls ls' : List K}
    (hI : I sh.db sh'.db)
    (hfault : ∀ e, Abreast I A C ⟨k (.error e), none⟩ sh ⟨k' (.error e), none⟩ sh')
    (hdone : Abreast I A C ⟨k (.ok ()), none⟩ ⟨applyAll sh.db ws, sh.mem⟩ ⟨k' (.ok ()), none⟩
      ⟨applyAll sh'.db ws', sh'.mem⟩) :
    Abreast I A C ⟨.commit k, some (.active ws ls)⟩ sh
      ⟨.commit k', some (.active ws' ls')⟩ sh' := by
  refine ⟨hI, fun r he => by simp at he, fun c _ => ?_, fun c _ q v q' v' hs hs' => ?_⟩
  · simp only [Proc.step]
    split <;> rfl
  · simp only [Proc.step] at hs hs'
    cases hf : c.fault with
    | some e =>
      simp only [hf, Option.some.injEq, Prod.mk.injEq] at hs hs'
      obtain ⟨rfl, rfl⟩ := hs
      obtain ⟨rfl, rfl⟩ := hs'
      exact hfault e
    | none =>
      simp only [hf, Option.some.injEq, Prod.mk.injEq] at hs hs'
      obtain ⟨rfl, rfl⟩ := hs
      obtain ⟨rfl, rfl⟩ := hs'
      exact hdone

/-- What the two outcomes of a pool statement must have in common: the same error, or nothing
    to commit, or something to commit, on both sides. -/
inductive Joint (I : D → D → Prop) (A : Except ε α → Except ε α → Prop) (C : Choice E S → Prop)
    (k : Except S β → Prog E D W K M S ε α) (sh sh' : Shared D M)
    (o o' : Outcome W K M S β) : Prop where
  | failed (e : S) (he : o.result = .error e) (he' : o'.result = .error e)
      (h : Abreast I A C ⟨k (.error e), none⟩ ⟨sh.db, o.mem⟩ ⟨k (.error e), none⟩ ⟨sh'.db, o'.mem⟩)
  | idle (b b' : β) (hb : o.result = .ok b) (hb' : o'.result = .ok b')
      (hw : o.writes = [] ∧ o.locks = []) (hw' : o'.writes = [] ∧ o'.locks = [])
      (h : Abreast I A C ⟨k (.ok b), none⟩ ⟨sh.db, o.mem⟩ ⟨k (.ok b'), none⟩ ⟨sh'.db, o'.mem⟩)
  | wrote (b b' : β) (hb : o.result = .ok b) (hb' : o'.result = .ok b')
      (hw : o.writes ≠ []) (hw' : o'.writes ≠ [])
      (hfault : ∀ e, Abreast I A C ⟨k (.error e), none⟩ ⟨sh.db, o.mem⟩ ⟨k (.error e), none⟩
        ⟨sh'.db, o'.mem⟩)
      (h : Abreast I A C ⟨k (.ok b), none⟩ ⟨applyAll sh.db o.writes, o.mem⟩ ⟨k (.ok b'), none⟩
        ⟨applyAll sh'.db o'.writes, o'.mem⟩)

/-- A statement on the pool, on both sides. -/
theorem pool {s : Sql E D W K M S β} {k : Except S β → Prog E D W K M S ε α} (hI : I sh.db sh'.db)
    (hfault : ∀ e, Abreast I A C ⟨k (.error e), none⟩ sh ⟨k (.error e), none⟩ sh')
    (h : ∀ c, C c → Joint I A C k sh sh' (s c.env sh.mem sh.db) (s c.env sh'.mem sh'.db)) :
    Abreast I A C ⟨.pool s k, none⟩ sh ⟨.pool s k, none⟩ sh' := by
  refine ⟨hI, fun r he => by simp at he, fun c hc => ?_, fun c hc q v q' v' hs hs' => ?_⟩
  · simp only [Proc.step]
    cases c.fault with
    | some e => rfl
    | none =>
      rcases h c hc with ⟨e, he, he', -⟩ | ⟨b, b', hb, hb', hw, hw', -⟩ | ⟨b, b', hb,
        hb', hw, hw', -⟩
      · simp only [he, he', Option.isSome_some]
      · simp only [hb, hb', hw, hw', List.isEmpty_nil, Bool.and_self, if_true, Option.isSome_some]
      · simp only [hb, hb', List.isEmpty_iff, hw, hw', Bool.and_eq_true, false_and, if_false,
          Option.isSome_some]
  · simp only [Proc.step] at hs hs'
    cases hf : c.fault with
    | some e =>
      simp only [hf, Option.some.injEq, Prod.mk.injEq] at hs hs'
      obtain ⟨rfl, rfl⟩ := hs
      obtain ⟨rfl, rfl⟩ := hs'
      exact hfault e
    | none =>
      rcases h c hc with ⟨e, he, he', hn⟩ | ⟨b, b', hb, hb', hw, hw', hn⟩ |
        ⟨b, b', hb, hb', hw, hw', hn, hn'⟩
      · simp only [hf, he, he', Option.some.injEq, Prod.mk.injEq] at hs hs'
        obtain ⟨rfl, rfl⟩ := hs
        obtain ⟨rfl, rfl⟩ := hs'
        exact hn
      · simp only [hf, hb, hb', hw, hw', List.isEmpty_nil, Bool.and_self, if_true,
          Option.some.injEq, Prod.mk.injEq] at hs hs'
        obtain ⟨rfl, rfl⟩ := hs
        obtain ⟨rfl, rfl⟩ := hs'
        exact hn
      · simp only [hf, hb, hb', List.isEmpty_iff, hw, hw', Bool.and_eq_true, false_and, if_false,
          Option.some.injEq, Prod.mk.injEq] at hs hs'
        obtain ⟨rfl, rfl⟩ := hs
        obtain ⟨rfl, rfl⟩ := hs'
        exact commit hI hn hn'

end Abreast

end ReadCommitted
