/-
  `auth::ratelimit`: a token bucket for each client key. Token arithmetic is exact, where the
  code has `f64`.
-/
import SylvaServer.Model.Tables
import Mathlib.Algebra.Order.Ring.Rat

namespace SylvaServer

open ReadCommitted ReadCommitted.Prog

structure RateLimiter where
  capacity : Nat
  refillPerMs : ℚ
  refill_nonneg : 0 ≤ refillPerMs

namespace RateLimiter

/-- A new key starts with a full bucket; tokens come back with the time that passed. -/
def refilled (rl : RateLimiter) (buckets : String → Option Bucket) (key : String) (nowMs : Nat) :
    Bucket :=
  let bucket := (buckets key).getD { tokens := rl.capacity, lastMs := nowMs }
  let elapsed := nowMs - bucket.lastMs
  if 0 < elapsed then
    { tokens := min (bucket.tokens + elapsed * rl.refillPerMs) rl.capacity, lastMs := nowMs }
  else bucket

def store (mem : Mem) (key : String) (bucket : Bucket) : Mem :=
  { mem with buckets := Function.update mem.buckets key (some bucket) }

/-- `allowed_at`: whether `key` has capacity for another attempt; no token is taken. -/
def allowedAt (rl : RateLimiter) (key : String) (nowMs : Nat) (mem : Mem) : Bool × Mem :=
  let bucket := rl.refilled mem.buckets key nowMs
  (decide (1 ≤ bucket.tokens), store mem key bucket)

/-- `record_failure_at`: charge one failed attempt. -/
def recordFailureAt (rl : RateLimiter) (key : String) (nowMs : Nat) (mem : Mem) : Mem :=
  let bucket := rl.refilled mem.buckets key nowMs
  store mem key { bucket with tokens := max (bucket.tokens - 1) 0 }

variable {ε : Type}

/-- Whether `key` has capacity for another attempt; no token is taken. -/
def allowed (rl : RateLimiter) (key : String) : Prog Env Db Write LockKey Mem SqlError ε Bool :=
  critical fun env mem => rl.allowedAt key env.nowMs mem

/-- Charge one failed attempt. -/
def recordFailure (rl : RateLimiter) (key : String) :
    Prog Env Db Write LockKey Mem SqlError ε Unit :=
  critical fun env mem => ((), rl.recordFailureAt key env.nowMs mem)

end RateLimiter

end SylvaServer
