/-
  A token bucket with claims on its tokens.

  A claim is made when a token is there for it, is used at some later moment and is paid for
  with a token later still, or dropped. The tokens never fall below the open claims, so what is
  used in a window of time is paid by the tokens of its start and those that come back in it.

  Proved: one lemma for each thing that can happen to the ledger, and the bound they give.
-/
import Mathlib.Algebra.Order.Ring.Rat
import Mathlib.Tactic.Linarith
import Mathlib.Tactic.Ring

namespace TokenBucket

/-- A moment of a bucket: the tokens, the claims on them, the claims not used yet, and how many
    were used in the window of interest. -/
structure Ledger where
  now : ℚ
  level : ℚ
  claims : ℕ
  waiting : ℕ
  spent : ℕ

/-- Every open claim has its token. -/
structure Sound (cap : ℚ) (l : Ledger) : Prop where
  waiting : l.waiting ≤ l.claims
  claims : (l.claims : ℚ) ≤ l.level
  level : l.level ≤ cap

/-- What a window of length `T` from `t` may have used by now. -/
structure WithinBudget (cap rate t T : ℚ) (l : Ledger) : Prop where
  before : l.now < t → l.spent = 0
  inside : t ≤ l.now → l.now ≤ t + T →
    (l.spent : ℚ) + l.waiting + (l.level - l.claims) ≤ cap + rate * (l.now - t)
  after : t + T < l.now → (l.spent : ℚ) ≤ cap + rate * T

section

variable {cap rate t T : ℚ} {l : Ledger}

theorem Sound.cap_nonneg (h : Sound cap l) : 0 ≤ cap :=
  le_trans (le_trans (Nat.cast_nonneg _) h.claims) h.level

theorem mul_sub_nonneg {a b : ℚ} (hrate : 0 ≤ rate) (h : a ≤ b) : 0 ≤ rate * (b - a) :=
  mul_nonneg hrate (by linarith)

/-- The bound on a window. -/
theorem WithinBudget.spent_le (h : WithinBudget cap rate t T l) (hs : Sound cap l)
    (hrate : 0 ≤ rate) (hT : 0 ≤ T) : (l.spent : ℚ) ≤ cap + rate * T := by
  have hcap := hs.cap_nonneg
  have hspan := mul_nonneg hrate hT
  rcases lt_or_ge l.now t with hb | hb
  · have hzero : (l.spent : ℚ) = 0 := by exact_mod_cast h.before hb
    linarith
  rcases le_or_gt l.now (t + T) with he | he
  · have hin := h.inside hb he
    have hwait : (0 : ℚ) ≤ l.waiting := Nat.cast_nonneg _
    have hmul : rate * (l.now - t) ≤ rate * T := mul_le_mul_of_nonneg_left (by linarith) hrate
    linarith [hs.claims]
  · exact h.after he

/-- Time passes and tokens come back, at most at the rate. -/
theorem pass {now' level' : ℚ} (h : WithinBudget cap rate t T l) (hs : Sound cap l)
    (hrate : 0 ≤ rate) (hT : 0 ≤ T) (hnow : l.now ≤ now') (hle : l.level ≤ level')
    (hcap : level' ≤ cap) (hgain : level' ≤ l.level + rate * (now' - l.now)) :
    Sound cap { l with now := now', level := level' } ∧
      WithinBudget cap rate t T { l with now := now', level := level' } := by
  have hspent := h.spent_le hs hrate hT
  refine ⟨⟨hs.waiting, le_trans hs.claims hle, hcap⟩, ⟨fun hb => h.before (lt_of_le_of_lt hnow hb),
    fun hb he => ?_, fun _ => hspent⟩⟩
  show (l.spent : ℚ) + l.waiting + (level' - l.claims) ≤ cap + rate * (now' - t)
  rcases lt_or_ge l.now t with hlt | hge
  · have hzero : (l.spent : ℚ) = 0 := by exact_mod_cast h.before hlt
    have hwait : (l.waiting : ℚ) ≤ l.claims := by exact_mod_cast hs.waiting
    have hmul : 0 ≤ rate * (now' - t) := mul_sub_nonneg hrate hb
    linarith
  · have hin := h.inside hge (by linarith)
    have hsum : rate * (l.now - t) + rate * (now' - l.now) = rate * (now' - t) := by ring
    linarith

/-- A claim is made, with a token for it. -/
theorem enter (h : WithinBudget cap rate t T l) (hs : Sound cap l)
    (hfree : (l.claims : ℚ) + 1 ≤ l.level) :
    Sound cap { l with claims := l.claims + 1, waiting := l.waiting + 1 } ∧
      WithinBudget cap rate t T { l with claims := l.claims + 1, waiting := l.waiting + 1 } := by
  have hw := hs.waiting
  refine ⟨⟨by simpa using hw, by push_cast; exact hfree, hs.level⟩,
    ⟨h.before, fun hb he => ?_, h.after⟩⟩
  have hin := h.inside hb he
  push_cast
  linarith

/-- A claim is used now. -/
theorem use {m : ℕ} (h : WithinBudget cap rate t T l) (hs : Sound cap l)
    (hm : l.waiting = m + 1) :
    Sound cap { l with
      waiting := m, spent := l.spent + if t ≤ l.now ∧ l.now ≤ t + T then 1 else 0 } ∧
    WithinBudget cap rate t T { l with
      waiting := m, spent := l.spent + if t ≤ l.now ∧ l.now ≤ t + T then 1 else 0 } := by
  have hw := hs.waiting
  refine ⟨⟨by simp only; omega, hs.claims, hs.level⟩, ⟨fun hb => ?_, fun hb he => ?_, fun ha => ?_⟩⟩
  · have hout : ¬ (t ≤ l.now ∧ l.now ≤ t + T) := fun hin => absurd hin.1 (not_le.mpr hb)
    simpa [hout] using h.before hb
  · have hin := h.inside hb he
    have hnow : t ≤ l.now ∧ l.now ≤ t + T := ⟨hb, he⟩
    rw [hm] at hin
    rw [if_pos hnow]
    push_cast at hin ⊢
    linarith
  · have hout : ¬ (t ≤ l.now ∧ l.now ≤ t + T) := fun hin => absurd hin.2 (not_le.mpr ha)
    simpa [hout] using h.after ha

/-- A claim is dropped unused. -/
theorem leave {m c : ℕ} (h : WithinBudget cap rate t T l) (hs : Sound cap l)
    (hm : l.waiting = m + 1) (hc : l.claims = c + 1) :
    Sound cap { l with waiting := m, claims := c } ∧
      WithinBudget cap rate t T { l with waiting := m, claims := c } := by
  have hw := hs.waiting
  have hle := hs.claims
  rw [hc] at hle
  push_cast at hle
  refine ⟨⟨by simp only; omega, by simp only; linarith, hs.level⟩,
    ⟨h.before, fun hb he => ?_, h.after⟩⟩
  have hin := h.inside hb he
  rw [hm, hc] at hin
  push_cast at hin ⊢
  linarith

/-- A used claim is paid for. -/
theorem charge {c : ℕ} (h : WithinBudget cap rate t T l) (hs : Sound cap l)
    (hc : l.claims = c + 1) (hw : l.waiting ≤ c) :
    Sound cap { l with claims := c, level := l.level - 1 } ∧
      WithinBudget cap rate t T { l with claims := c, level := l.level - 1 } := by
  have hle := hs.claims
  rw [hc] at hle
  push_cast at hle
  refine ⟨⟨hw, by simp only; linarith, by have := hs.level; simp only; linarith⟩,
    ⟨h.before, fun hb he => ?_, h.after⟩⟩
  have hin := h.inside hb he
  rw [hc] at hin
  push_cast at hin ⊢
  linarith

end

end TokenBucket
