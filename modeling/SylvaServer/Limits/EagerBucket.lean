/-
  The token bucket of the textbook: it starts full, gains its rate every millisecond and never holds
  more than its capacity.

  Proved: what a wait of any length gives (`wait_eq`), so that a wait may be cut anywhere
  (`wait_add`), and that a token taken leaves the level between nothing and the capacity
  (`spend_nonneg`, `spend_le`).
-/
import Mathlib.Algebra.Order.Ring.Rat
import Mathlib.Data.List.Basic
import Mathlib.Tactic.Linarith
import Mathlib.Tactic.Ring

/-- A token bucket. -/
structure EagerBucket where
  capacity : ℚ
  rate : ℚ
  capacity_nonneg : 0 ≤ capacity
  rate_nonneg : 0 ≤ rate

namespace EagerBucket

variable (eb : EagerBucket)

/-- One millisecond. -/
def tick (level : ℚ) : ℚ := min (level + eb.rate) eb.capacity

/-- So many milliseconds. -/
def wait : ℕ → ℚ → ℚ
  | 0, level => level
  | n + 1, level => eb.tick (wait n level)

/-- One token is taken, if one is there. -/
def spend (level : ℚ) : ℚ := max (level - 1) 0

/-- The bucket at a moment. -/
structure Moment where
  now : ℕ
  level : ℚ

/-- A token taken at `t`. -/
def take (m : Moment) (t : ℕ) : Moment := ⟨t, spend (eb.wait (t - m.now) m.level)⟩

/-- The level at `t` of a bucket full at the start, after tokens taken at some times. -/
def levelAt (takes : List ℕ) (t : ℕ) : ℚ :=
  let m := takes.foldl eb.take ⟨0, eb.capacity⟩
  eb.wait (t - m.now) m.level

section

variable {eb} {level : ℚ}

theorem wait_eq (h : level ≤ eb.capacity) (n : ℕ) :
    eb.wait n level = min (level + n * eb.rate) eb.capacity := by
  induction n with
  | zero => simp [wait, h]
  | succ n ih =>
    have hrate := eb.rate_nonneg
    unfold wait tick
    rw [ih]
    push_cast
    rcases le_total (level + n * eb.rate) eb.capacity with hle | hge
    · rw [min_eq_left hle]
      congr 1
      ring
    · rw [min_eq_right hge, min_eq_right (by linarith), min_eq_right (by linarith)]

/-- A full bucket stays full. -/
@[simp] theorem wait_capacity (n : ℕ) : eb.wait n eb.capacity = eb.capacity := by
  have hgain : 0 ≤ (n : ℚ) * eb.rate := mul_nonneg (Nat.cast_nonneg n) eb.rate_nonneg
  rw [wait_eq le_rfl, min_eq_right (by linarith)]

theorem wait_add (m n : ℕ) : eb.wait (m + n) level = eb.wait n (eb.wait m level) := by
  induction n with
  | zero => rfl
  | succ n ih =>
    show eb.tick (eb.wait (m + n) level) = _
    rw [ih]
    rfl

theorem spend_nonneg : 0 ≤ spend level := le_max_right _ _

theorem spend_le (h : level ≤ eb.capacity) : spend level ≤ eb.capacity :=
  max_le (by linarith) eb.capacity_nonneg

end

/-- One more token taken. -/
theorem levelAt_concat (takes : List ℕ) (t t' : ℕ) :
    eb.levelAt (takes ++ [t]) t' = eb.wait (t' - t) (spend (eb.levelAt takes t)) := by
  unfold levelAt
  rw [List.foldl_append]
  rfl

/-- The level later on, when no more tokens are taken. -/
theorem levelAt_wait {eb : EagerBucket} {takes : List ℕ} {t t' : ℕ} (h : ∀ s ∈ takes, s ≤ t)
    (htt' : t ≤ t') : eb.levelAt takes t' = eb.wait (t' - t) (eb.levelAt takes t) := by
  have hnow : (takes.foldl eb.take ⟨0, eb.capacity⟩).now ≤ t := by
    rcases List.eq_nil_or_concat' takes with rfl | ⟨l, s, rfl⟩
    · exact Nat.zero_le t
    · rw [List.foldl_concat]
      exact h s (by simp)
  unfold levelAt
  dsimp only
  rw [← wait_add]
  congr 1
  omega

/-- No tokens taken. -/
@[simp] theorem levelAt_nil (t : ℕ) : eb.levelAt [] t = eb.capacity := wait_capacity _

end EagerBucket
