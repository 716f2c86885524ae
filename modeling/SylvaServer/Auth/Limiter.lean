/-
  The rate limiter keeps a bucket only while it is asked.

  `refilled` creates the bucket of a key late, gives the tokens of a whole interval at once and
  moves the origin of the next interval. Nobody can tell: the answers are those of a bucket that
  starts full and is filled every millisecond, for each key on its own.

  Proved: the tokens of a key after any calls in order of time are the level of its eager bucket
  (`level_after`); from it what the answers are and what they do not depend on, with the bounds
  for calls in any order (`lazy_is_eager`).
-/
import SylvaServer.Limits.EagerBucket
import SylvaServer.Limits.TokenBucket
import SylvaServer.Model.RateLimit

namespace SylvaServer.Account.Limiter

open TokenBucket

/-! ## The level of a bucket -/

section Level

variable (rl : RateLimiter) (buckets : String → Option Bucket) (key : String)

/-- No more tokens than the capacity. -/
def Capped : Prop := ∀ b, buckets key = some b → 0 ≤ b.tokens ∧ b.tokens ≤ rl.capacity

/-- The tokens of a key, those that came back included. -/
def level (now : ℕ) : ℚ := (rl.refilled buckets key now).tokens

variable {rl buckets key}

theorem refilled_none (h : buckets key = none) (now : ℕ) :
    rl.refilled buckets key now = { tokens := rl.capacity, lastMs := now } := by
  simp [RateLimiter.refilled, h]

theorem refilled_some {b : Bucket} (h : buckets key = some b) (now : ℕ) :
    rl.refilled buckets key now = if 0 < now - b.lastMs then
      { tokens := min (b.tokens + (now - b.lastMs : ℕ) * rl.refillPerMs) rl.capacity
        lastMs := now } else b := by
  simp [RateLimiter.refilled, h]

/-- With the tokens capped, the level has one formula. -/
theorem level_some {b : Bucket} (hc : Capped rl buckets key) (h : buckets key = some b) (now : ℕ) :
    level rl buckets key now =
      min (b.tokens + (now - b.lastMs : ℕ) * rl.refillPerMs) rl.capacity := by
  unfold level
  rw [refilled_some h]
  split
  · rfl
  · next hpos =>
    have hzero : now - b.lastMs = 0 := by omega
    rw [hzero]
    simp [(hc b h).2]

theorem level_none (h : buckets key = none) (now : ℕ) : level rl buckets key now = rl.capacity := by
  rw [level, refilled_none h]

theorem level_le_capacity (hc : Capped rl buckets key) (now : ℕ) :
    level rl buckets key now ≤ rl.capacity := by
  cases h : buckets key with
  | none => rw [level_none h]
  | some b =>
    rw [level_some hc h]
    exact min_le_right _ _

theorem level_nonneg (hc : Capped rl buckets key) (now : ℕ) : 0 ≤ level rl buckets key now := by
  cases h : buckets key with
  | none =>
    rw [level_none h]
    exact Nat.cast_nonneg _
  | some b =>
    rw [level_some hc h]
    have hback : (0 : ℚ) ≤ (now - b.lastMs : ℕ) * rl.refillPerMs :=
      mul_nonneg (Nat.cast_nonneg _) rl.refill_nonneg
    exact le_min (by linarith [(hc b h).1]) (Nat.cast_nonneg _)

/-- Tokens come back over time. -/
theorem level_mono (hc : Capped rl buckets key) {now now' : ℕ} (h : now ≤ now') :
    level rl buckets key now ≤ level rl buckets key now' := by
  cases hb : buckets key with
  | none => rw [level_none hb, level_none hb]
  | some b =>
    rw [level_some hc hb, level_some hc hb]
    have hspan : ((now - b.lastMs : ℕ) : ℚ) ≤ (now' - b.lastMs : ℕ) := by
      exact_mod_cast Nat.sub_le_sub_right h _
    have hmul := mul_le_mul_of_nonneg_right hspan rl.refill_nonneg
    exact min_le_min (by linarith) le_rfl

/-- They come back at most at the refill rate. -/
theorem level_le_add (hc : Capped rl buckets key) {now now' : ℕ} (h : now ≤ now') :
    level rl buckets key now' ≤ level rl buckets key now + rl.refillPerMs * (now' - now) := by
  have hgain : 0 ≤ rl.refillPerMs * ((now' : ℚ) - now) := by
    have hle : (now : ℚ) ≤ now' := by exact_mod_cast h
    exact mul_sub_nonneg rl.refill_nonneg hle
  cases hb : buckets key with
  | none =>
    rw [level_none hb, level_none hb]
    linarith
  | some b =>
    rw [level_some hc hb, level_some hc hb]
    have hspan : ((now' - b.lastMs : ℕ) : ℚ) ≤ (now - b.lastMs : ℕ) + ((now' : ℚ) - now) := by
      have hnat : now' - b.lastMs ≤ (now - b.lastMs) + (now' - now) := by omega
      have hcast : ((now' - b.lastMs : ℕ) : ℚ) ≤ (now - b.lastMs : ℕ) + ((now' - now : ℕ) : ℚ) := by
        exact_mod_cast hnat
      rwa [Nat.cast_sub h] at hcast
    have hmul := mul_le_mul_of_nonneg_right hspan rl.refill_nonneg
    rcases min_choice (b.tokens + (now - b.lastMs : ℕ) * rl.refillPerMs) (rl.capacity : ℚ) with
      he | he
    · rw [he]
      refine le_trans (min_le_left _ _) ?_
      linarith
    · rw [he]
      refine le_trans (min_le_right _ _) ?_
      linarith

/-- A refilled bucket is refilled up to its moment. -/
theorem refilled_update (b : Bucket) {now : ℕ} (h : now ≤ b.lastMs) :
    rl.refilled (Function.update buckets key (some b)) key now = b := by
  rw [refilled_some (Function.update_self _ _ _), if_neg (by omega)]

theorem le_lastMs_refilled (now : ℕ) : now ≤ (rl.refilled buckets key now).lastMs := by
  cases h : buckets key with
  | none => rw [refilled_none h]
  | some b =>
    rw [refilled_some h]
    split
    · exact le_rfl
    · omega

/-- The bucket of the textbook with the limiter's parameters. -/
def eager (rl : RateLimiter) : EagerBucket where
  capacity := rl.capacity
  rate := rl.refillPerMs
  capacity_nonneg := Nat.cast_nonneg _
  rate_nonneg := rl.refill_nonneg

/-- An interval of any length is refilled at once. -/
theorem level_eq_wait {b : Bucket} (hc : Capped rl buckets key)
    (h : buckets key = some b) (now : ℕ) :
    level rl buckets key now = (eager rl).wait (now - b.lastMs) b.tokens := by
  rw [level_some hc h, EagerBucket.wait_eq (hc b h).2]
  rfl

theorem lastMs_le_refilled {b : Bucket} (h : buckets key = some b) (now : ℕ) :
    b.lastMs ≤ (rl.refilled buckets key now).lastMs := by
  rw [refilled_some h]
  split
  · show b.lastMs ≤ now
    omega
  · exact le_rfl

theorem lastMs_refilled {now : ℕ} (h : ∀ b, buckets key = some b → b.lastMs ≤ now) :
    (rl.refilled buckets key now).lastMs = now := by
  cases hb : buckets key with
  | none => rw [refilled_none hb]
  | some b =>
    have hle := h b hb
    rw [refilled_some hb]
    split
    · rfl
    · omega

end Level

/-! ## Runs -/

/-- A call of the limiter. -/
inductive Call where
  | allowed (key : String) (nowMs : ℕ)
  | failure (key : String) (nowMs : ℕ)

def Call.key : Call → String
  | .allowed key _ => key
  | .failure key _ => key

def Call.nowMs : Call → ℕ
  | .allowed _ nowMs => nowMs
  | .failure _ nowMs => nowMs

def Call.run (rl : RateLimiter) : Call → Mem → Mem
  | .allowed key nowMs, mem => (rl.allowedAt key nowMs mem).2
  | .failure key nowMs, mem => rl.recordFailureAt key nowMs mem

/-- The memory after some calls, the first of them on a new limiter. -/
def after (rl : RateLimiter) (calls : List Call) : Mem :=
  calls.foldl (fun mem call => call.run rl mem) Mem.fresh

/-- When the attempts of a key failed. -/
def failures (key : String) (calls : List Call) : List ℕ :=
  (calls.filter fun call => match call with
    | .allowed _ _ => false
    | .failure k _ => k == key).map Call.nowMs

/-- The clock does not go back. -/
def InOrder (calls : List Call) : Prop := calls.Pairwise fun call call' => call.nowMs ≤ call'.nowMs

variable {rl : RateLimiter} {key : String}

theorem after_concat (calls : List Call) (call : Call) :
    after rl (calls ++ [call]) = call.run rl (after rl calls) := by
  unfold after
  rw [List.foldl_append]
  rfl

theorem failures_append (calls more : List Call) :
    failures key (calls ++ more) = failures key calls ++ failures key more := by
  unfold failures
  rw [List.filter_append, List.map_append]

/-- A call leaves its key refilled, with a token less if it was a failure. -/
theorem run_self (call : Call) (mem : Mem) : ∃ b, (call.run rl mem).buckets call.key = some b ∧
    b.lastMs = (rl.refilled mem.buckets call.key call.nowMs).lastMs ∧
    ((failures call.key [call] = [] ∧ b.tokens = level rl mem.buckets call.key call.nowMs) ∨
      (failures call.key [call] = [call.nowMs] ∧
        b.tokens = EagerBucket.spend (level rl mem.buckets call.key call.nowMs))) := by
  cases call with
  | allowed key nowMs =>
    exact ⟨rl.refilled mem.buckets key nowMs, Function.update_self _ _ _, rfl, Or.inl ⟨rfl, rfl⟩⟩
  | failure key nowMs =>
    refine ⟨_, Function.update_self _ _ _, rfl, Or.inr ⟨?_, rfl⟩⟩
    simp [failures, Call.key]

theorem run_other {call : Call} (h : call.key ≠ key) (mem : Mem) :
    (call.run rl mem).buckets key = mem.buckets key := by
  cases call with
  | allowed k nowMs => exact Function.update_of_ne (Ne.symm h) _ _
  | failure k nowMs => exact Function.update_of_ne (Ne.symm h) _ _

theorem capped_run {mem : Mem} (hc : ∀ key, Capped rl mem.buckets key)
    (call : Call) (key : String) :
    Capped rl (call.run rl mem).buckets key := by
  intro b hb
  by_cases hk : call.key = key
  · subst hk
    obtain ⟨b', hb', -, htokens⟩ := run_self call mem
    obtain rfl : b' = b := Option.some.inj (hb'.symm.trans hb)
    have hpos := level_nonneg (hc call.key) call.nowMs
    have hle := level_le_capacity (hc call.key) call.nowMs
    rcases htokens with ⟨-, ht⟩ | ⟨-, ht⟩
    · rw [ht]
      exact ⟨hpos, hle⟩
    · rw [ht]
      exact ⟨EagerBucket.spend_nonneg, (eager rl).spend_le hle⟩
  · rw [run_other hk] at hb
    exact hc key b hb

/-- The tokens are between nothing and the capacity, whatever the clock does. -/
theorem capped_after (calls : List Call) (key : String) :
    Capped rl (after rl calls).buckets key := by
  induction calls using List.reverseRecOn generalizing key with
  | nil =>
    intro b hb
    exact absurd hb (by simp [after, Mem.fresh])
  | append_singleton calls call ih =>
    rw [after_concat]
    exact capped_run ih call key

theorem lastMs_run {mem : Mem} {b : Bucket} (call : Call) (h : mem.buckets key = some b) :
    ∃ b', (call.run rl mem).buckets key = some b' ∧ b.lastMs ≤ b'.lastMs := by
  by_cases hk : call.key = key
  · subst hk
    obtain ⟨b', hb', hlast, -⟩ := run_self call mem
    exact ⟨b', hb', hlast ▸ lastMs_le_refilled h _⟩
  · exact ⟨b, (run_other hk mem).trans h, le_rfl⟩

theorem lastMs_after {b : Bucket} (calls more : List Call)
    (h : (after rl calls).buckets key = some b) :
    ∃ b', (after rl (calls ++ more)).buckets key = some b' ∧ b.lastMs ≤ b'.lastMs := by
  induction more using List.reverseRecOn with
  | nil => exact ⟨b, by rwa [List.append_nil], le_rfl⟩
  | append_singleton more call ih =>
    obtain ⟨b₁, hb₁, hle₁⟩ := ih
    obtain ⟨b', hb', hle'⟩ := lastMs_run call hb₁
    rw [← List.append_assoc, after_concat]
    exact ⟨b', hb', le_trans hle₁ hle'⟩

/-- No bucket is ahead of the clock. -/
theorem lastMs_le {calls : List Call} {t : ℕ} (h : ∀ call ∈ calls, call.nowMs ≤ t) {b : Bucket}
    (hb : (after rl calls).buckets key = some b) : b.lastMs ≤ t := by
  induction calls using List.reverseRecOn generalizing b with
  | nil => exact absurd hb (by simp [after, Mem.fresh])
  | append_singleton calls call ih =>
    have hcalls : ∀ c ∈ calls, c.nowMs ≤ t := fun c hc => h c (List.mem_append_left _ hc)
    rw [after_concat] at hb
    by_cases hk : call.key = key
    · subst hk
      obtain ⟨b', hb', hlast, -⟩ := run_self call (after rl calls)
      obtain rfl : b' = b := Option.some.inj (hb'.symm.trans hb)
      have ht : call.nowMs ≤ t := h call (by simp)
      cases hold : (after rl calls).buckets call.key with
      | none =>
        rw [hlast, refilled_none hold]
        exact ht
      | some b₀ =>
        have hle := ih hcalls hold
        rw [hlast, refilled_some hold]
        split
        · exact ht
        · exact hle
    · rw [run_other hk] at hb
      exact ih hcalls hb

theorem failures_other {call : Call} (h : call.key ≠ key) : failures key [call] = [] := by
  cases call with
  | allowed k nowMs => rfl
  | failure k nowMs =>
    have hk : (k == key) = false := beq_eq_false_iff_ne.mpr h
    simp [failures, hk]

theorem failures_le {calls : List Call} {t : ℕ} (h : ∀ call ∈ calls, call.nowMs ≤ t) :
    ∀ s ∈ failures key calls, s ≤ t := by
  intro s hs
  obtain ⟨call, hcall, rfl⟩ := List.mem_map.mp hs
  exact h call (List.mem_of_mem_filter hcall)

/-- **The tokens of a key** are the level of its own eager bucket. -/
theorem level_after {calls : List Call} (h : InOrder calls) {t : ℕ}
    (ht : ∀ call ∈ calls, call.nowMs ≤ t) :
    level rl (after rl calls).buckets key t = (eager rl).levelAt (failures key calls) t := by
  induction calls using List.reverseRecOn generalizing t with
  | nil => exact (level_none rfl t).trans ((eager rl).levelAt_nil t).symm
  | append_singleton calls call ih =>
    obtain ⟨hcalls, -, hlast⟩ := List.pairwise_append.mp h
    have hbefore : ∀ c ∈ calls, c.nowMs ≤ call.nowMs := fun c hc => hlast c hc call (by simp)
    have hcall : call.nowMs ≤ t := ht call (by simp)
    have hcapped : Capped rl (after rl (calls ++ [call])).buckets key := capped_after _ key
    rw [after_concat] at hcapped ⊢
    rw [failures_append]
    by_cases hk : call.key = key
    · subst hk
      have hlevel := ih hcalls hbefore
      have horigin : (rl.refilled (after rl calls).buckets call.key call.nowMs).lastMs =
          call.nowMs := lastMs_refilled fun b hb => lastMs_le hbefore hb
      obtain ⟨b, hb, hlastMs, htokens⟩ := run_self call (after rl calls)
      rw [level_eq_wait hcapped hb, hlastMs, horigin]
      rcases htokens with ⟨hnone, htokens⟩ | ⟨hone, htokens⟩
      · rw [hnone, htokens, hlevel, List.append_nil,
          EagerBucket.levelAt_wait (failures_le hbefore) hcall]
      · rw [hone, htokens, hlevel, EagerBucket.levelAt_concat]
    · rw [failures_other hk, List.append_nil,
        ← ih hcalls fun c hc => ht c (List.mem_append_left _ hc)]
      unfold level RateLimiter.refilled
      rw [run_other hk]

/-- **The limiter is an eager token bucket for each key**: its answers depend on the failures of
    the key alone, and whatever the clock does the tokens stay in their bounds and no origin
    moves back. -/
theorem lazy_is_eager (rl : RateLimiter) :
    (∀ calls key t, InOrder (calls ++ [.allowed key t]) →
      (rl.allowedAt key t (after rl calls)).1 =
        decide (1 ≤ (eager rl).levelAt (failures key calls) t)) ∧
    (∀ calls calls' key t, InOrder (calls ++ [.allowed key t]) →
      InOrder (calls' ++ [.allowed key t]) → failures key calls = failures key calls' →
        (rl.allowedAt key t (after rl calls)).1 = (rl.allowedAt key t (after rl calls')).1) ∧
    (∀ calls key b, (after rl calls).buckets key = some b → 0 ≤ b.tokens ∧ b.tokens ≤ rl.capacity) ∧
    ∀ calls more key b, (after rl calls).buckets key = some b →
      ∃ b', (after rl (calls ++ more)).buckets key = some b' ∧ b.lastMs ≤ b'.lastMs := by
  have hanswer : ∀ calls key t, InOrder (calls ++ [.allowed key t]) →
      (rl.allowedAt key t (after rl calls)).1 =
        decide (1 ≤ (eager rl).levelAt (failures key calls) t) := by
    intro calls key t horder
    obtain ⟨hcalls, -, hlast⟩ := List.pairwise_append.mp horder
    have hbefore : ∀ c ∈ calls, c.nowMs ≤ t := fun c hc => hlast c hc _ (List.mem_singleton_self _)
    rw [← level_after hcalls hbefore]
    rfl
  refine ⟨hanswer, fun calls calls' key t h h' hsame => ?_, fun calls key => capped_after calls key,
    fun calls more key b => lastMs_after calls more⟩
  rw [hanswer calls key t h, hanswer calls' key t h', hsame]

end SylvaServer.Account.Limiter
