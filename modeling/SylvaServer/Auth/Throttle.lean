/-
  How many guesses the login throttle lets through when requests run side by side.

  A request is admitted by `allowed` and charged by `record_failure` after its credentials were
  verified; in between others may be admitted on the same tokens. The bound of the throttle
  holds in every run where each admission finds a token besides those of the guesses still to
  be charged (`Backed`): the limiter then is a token bucket with claims on its tokens.

  Proved: the steps of a login (`start_step`, `verify_step`, `refused_step`), the ledger they
  keep and the bound (`guesses_le`). `two_guesses_one_token` is a run that breaks it.
-/
import SylvaServer.Auth.Limiter
import SylvaServer.Model.Account

namespace SylvaServer.Account

open ReadCommitted ReadCommitted.Prog TokenBucket

/-! ## The steps of a login -/

section Steps

variable (ctx : PlatformContext)

/-- A guess that failed and is still to be charged. -/
def refused (key : String) : Rpc LoginResponse :=
  login.afterVerify ctx key (.ok (.error .wrongPassword))

/-- The outcome for a user that was found, from the check of the password. -/
def passwordOutcome (user : User) :
    Except AuthError Bool → Except AuthError (Except Auth.CredentialOutcome User)
  | .error e => .error e
  | .ok true => .ok (.ok user)
  | .ok false => .ok (.error .wrongPassword)

/-- The outcome of the credential check from what its statement gave. -/
def outcome (password : String) :
    Except SqlError (Option (User × String)) → Except AuthError (Except Auth.CredentialOutcome User)
  | .error e => .error (.database e)
  | .ok none => .ok (.error .unknownEmail)
  | .ok (some (user, hash)) => passwordOutcome user (Auth.verifyPassword ctx.lib password hash)

theorem verify_eq (key : String) (req : LoginRequest) :
    login.verify ctx key req = .pool (Auth.userWithCredentials ctx.lib req.email)
      fun r => login.afterVerify ctx key (outcome ctx req.password r) := by
  refine congrArg (Prog.pool _) (funext fun r => ?_)
  rcases r with e | (_ | ⟨user, hash⟩)
  · rfl
  · rfl
  · change (((ret (Auth.verifyPassword ctx.lib req.password hash) : Auth Bool) >>= fun passwordOk =>
      if passwordOk then pure (.ok user) else pure (.error .wrongPassword)).attempt >>=
        login.afterVerify ctx key) = login.afterVerify ctx key
          (passwordOutcome user (Auth.verifyPassword ctx.lib req.password hash))
    rcases Auth.verifyPassword ctx.lib req.password hash with e | (_ | _) <;> rfl

theorem keeps_sessionCreate (lib : Libs) (userId : Uuid) :
    (SessionRepository.create lib userId Auth.defaultSessionTtl none none).Obeys
      (.keeps Mem.buckets) := by
  refine obeys_bind ⟨fun _ _ => rfl, fun _ => trivial⟩ fun token => ?_
  refine obeys_bind ⟨fun _ _ => rfl, fun _ => trivial⟩ fun now => ?_
  refine obeys_bind ⟨fun env m db => ?_, fun _ => trivial⟩ fun _ => trivial
  exact congrArg Mem.buckets (insertRow_mem _ _ _ _ _ _ _)

/-- What is left after a check that did not fail the guess leaves the limiter alone. -/
theorem afterVerify_cases (key : String)
    (o : Except AuthError (Except Auth.CredentialOutcome User)) :
    login.afterVerify ctx key o = refused ctx key ∨
      (login.afterVerify ctx key o).Obeys (.keeps Mem.buckets) := by
  rcases o with e | (o | user)
  · exact Or.inr trivial
  · exact Or.inl rfl
  · refine Or.inr (obeys_bind (obeys_mapError _ ⟨fun _ _ _ => rfl, fun _ => trivial⟩) fun mfa => ?_)
    split
    · trivial
    · refine obeys_bind ?_ fun _ => trivial
      refine obeys_bind (obeys_mapError _ ⟨trivial, fun _ => trivial⟩) fun _ => ?_
      refine obeys_bind (obeys_mapError _ ?_) fun _ => obeys_bind
        (obeys_mapError _ fun _ => trivial) fun _ => trivial
      exact keeps_sessionCreate ctx.lib user.id

/-- A login as it arrives. -/
theorem login_eq (metadata : Metadata) (req : LoginRequest) :
    login ctx metadata req = .mem (fun env mem =>
      (decide (1 ≤ (ctx.authRateLimiter.refilled mem.buckets (rateKey metadata ctx.trustProxy)
          env.nowMs).tokens),
        RateLimiter.store mem (rateKey metadata ctx.trustProxy) (ctx.authRateLimiter.refilled
          mem.buckets (rateKey metadata ctx.trustProxy) env.nowMs)))
      fun allowed => if !allowed then fail tooManyAttempts
        else if (trim req.email).isEmpty then fail ⟨.invalidArgument, "email is required"⟩
        else login.verify ctx (rateKey metadata ctx.trustProxy) req := rfl

theorem refused_eq (key : String) :
    refused ctx key = .mem (fun env mem =>
      ((), RateLimiter.store mem key { ctx.authRateLimiter.refilled mem.buckets key env.nowMs with
        tokens := max ((ctx.authRateLimiter.refilled mem.buckets key env.nowMs).tokens - 1) 0 }))
      fun _ => fail ⟨.unauthenticated, "invalid email or password"⟩ := rfl

variable {ctx} {metadata : Metadata} {req : LoginRequest} {key : String}

/-- The limiter looks at the bucket and admits the request or ends it. -/
theorem start_step {c : Choice Env SqlError} {p p' : Running LoginResponse} {sh sh' : Shared}
    (hp : p.prog = login ctx metadata req) (h : p.step c sh = some (p', sh')) :
    sh'.mem.buckets = Function.update sh.mem.buckets (rateKey metadata ctx.trustProxy)
        (some (ctx.authRateLimiter.refilled sh.mem.buckets (rateKey metadata ctx.trustProxy)
          c.env.nowMs)) ∧
      (p'.prog.Obeys (.keeps Mem.buckets) ∨
        1 ≤ Limiter.level ctx.authRateLimiter sh.mem.buckets (rateKey metadata ctx.trustProxy)
            c.env.nowMs ∧
          ¬ (trim req.email).isEmpty ∧
          p'.prog = login.verify ctx (rateKey metadata ctx.trustProxy) req) := by
  obtain ⟨q, tx⟩ := p
  obtain rfl : q = login ctx metadata req := hp
  rw [login_eq] at h
  simp only [Proc.step, Option.some.injEq, Prod.mk.injEq] at h
  obtain ⟨rfl, rfl⟩ := h
  refine ⟨rfl, ?_⟩
  by_cases hlevel : 1 ≤ (ctx.authRateLimiter.refilled sh.mem.buckets
      (rateKey metadata ctx.trustProxy) c.env.nowMs).tokens
  · by_cases hblank : (trim req.email).isEmpty
    · left
      simp only [hlevel, hblank, decide_true, Bool.not_true, Bool.false_eq_true, if_false, if_true]
      trivial
    · right
      refine ⟨hlevel, hblank, ?_⟩
      simp only [hlevel, hblank, decide_true, Bool.not_true, Bool.false_eq_true, if_false]
  · left
    simp only [hlevel, decide_false, Bool.not_false, if_true]
    trivial

/-- The credentials are verified: the guess failed, or the request has left the limiter. -/
theorem verify_step {c : Choice Env SqlError} {p p' : Running LoginResponse} {sh sh' : Shared}
    (hp : p.prog = login.verify ctx key req) (h : p.step c sh = some (p', sh')) :
    sh'.mem.buckets = sh.mem.buckets ∧
      (p'.prog = refused ctx key ∨ p'.prog.Obeys (.keeps Mem.buckets)) := by
  obtain ⟨q, tx⟩ := p
  obtain rfl : q = login.verify ctx key req := hp
  rw [verify_eq] at h
  cases tx with
  | some t => simp [Proc.step] at h
  | none =>
    simp only [Proc.step, Auth.userWithCredentials, select] at h
    split at h
    · next e _ =>
      simp only [Option.some.injEq, Prod.mk.injEq] at h
      obtain ⟨rfl, rfl⟩ := h
      exact ⟨rfl, afterVerify_cases ctx key (outcome ctx req.password (.error e))⟩
    · simp only [List.isEmpty_nil, Bool.and_self, if_true, Option.some.injEq, Prod.mk.injEq] at h
      obtain ⟨rfl, rfl⟩ := h
      exact ⟨rfl, afterVerify_cases ctx key _⟩

/-- A failed guess is charged. -/
theorem refused_step {c : Choice Env SqlError} {p p' : Running LoginResponse} {sh sh' : Shared}
    (hp : p.prog = refused ctx key) (h : p.step c sh = some (p', sh')) :
    sh'.mem.buckets = Function.update sh.mem.buckets key (some
        { ctx.authRateLimiter.refilled sh.mem.buckets key c.env.nowMs with
          tokens := max ((ctx.authRateLimiter.refilled sh.mem.buckets key
            c.env.nowMs).tokens - 1) 0 }) ∧
      p'.prog.Obeys (.keeps Mem.buckets) := by
  obtain ⟨q, tx⟩ := p
  obtain rfl : q = refused ctx key := hp
  rw [refused_eq] at h
  simp only [Proc.step, Option.some.injEq, Prod.mk.injEq] at h
  obtain ⟨rfl, rfl⟩ := h
  exact ⟨rfl, trivial⟩

/-! ### The phases differ -/

theorem not_keeps_refused : ¬ (refused ctx key).Obeys (.keeps Mem.buckets) := by
  rw [refused_eq]
  intro h
  have hnone := congrFun (h.1 (Env.at 0 0 0) Mem.fresh) key
  simp [RateLimiter.store, Mem.fresh] at hnone

theorem not_keeps_verify : ¬ (login.verify ctx key req).Obeys (.keeps Mem.buckets) := by
  rw [verify_eq]
  exact fun h => not_keeps_refused (h.2 (.ok none))

theorem verify_ne_refused : login.verify ctx key req ≠ refused ctx key := by
  rw [verify_eq, refused_eq]
  exact nofun

theorem login_ne_verify : login ctx metadata req ≠ login.verify ctx key req := by
  rw [verify_eq, login_eq]
  exact nofun

theorem login_ne_refused : login ctx metadata req ≠ refused ctx key := by
  rw [login_eq, refused_eq]
  intro h
  have htype : Bool = Unit := by injection h
  have hcard := congrArg (fun α => ∀ a b : α, a = b) htype
  exact absurd (hcard.mpr (fun _ _ => rfl) true false) (by decide)

end Steps

/-! ## Requests side by side -/

section Client

variable (ctx : PlatformContext) (key : String) {Pid : Type}
  (requests : Pid → Metadata × LoginRequest)

/-- Request `i` comes from the client. -/
def FromClient (i : Pid) : Prop := rateKey (requests i).1 ctx.trustProxy = key

/-- Admitted, its credentials not verified yet. -/
def Admitted (i : Pid) (p : Running LoginResponse) : Prop :=
  FromClient ctx key requests i ∧ p.prog = login.verify ctx key (requests i).2

/-- Admitted and not charged yet. -/
def Uncharged (i : Pid) (p : Running LoginResponse) : Prop :=
  FromClient ctx key requests i ∧
    (p.prog = login.verify ctx key (requests i).2 ∨ p.prog = refused ctx key)

/-- The step verifies credentials, and they are wrong. -/
def Guess (e : ServerEvent Pid LoginResponse) : Prop :=
  FromClient ctx key requests e.pid ∧
    (e.before.procs e.pid).prog = login.verify ctx key (requests e.pid).2 ∧
    (e.after.procs e.pid).prog = refused ctx key

open Classical in
/-- The guesses of the client in the window of length `T` from `t`. -/
noncomputable def guesses (es : List (ServerEvent Pid LoginResponse)) (t T : ℚ) : ℕ :=
  es.countP fun e => Guess ctx key requests e ∧ t ≤ e.choice.env.nowMs ∧
    (e.choice.env.nowMs : ℚ) ≤ t + T

/-- The clock never goes back. -/
def Clocked (es : List (ServerEvent Pid LoginResponse))
    (e : ServerEvent Pid LoginResponse) : Prop :=
  ∀ e' ∈ es, e'.choice.env.nowMs ≤ e.choice.env.nowMs

/-- The time of the last step. -/
def clock : List (ServerEvent Pid LoginResponse) → ℕ
  | [] => 0
  | e :: _ => e.choice.env.nowMs

/-- How far a login has come. -/
def Phase (request : Metadata × LoginRequest) (p : Rpc LoginResponse) : Prop :=
  p = login ctx request.1 request.2 ∨
    p = login.verify ctx (rateKey request.1 ctx.trustProxy) request.2 ∨
    p = refused ctx (rateKey request.1 ctx.trustProxy) ∨ p.Obeys (.keeps Mem.buckets)

variable {ctx key requests} {t T : ℚ} {es : List (ServerEvent Pid LoginResponse)} {i : Pid}
  {p : Running LoginResponse}

theorem not_uncharged_of_keeps (h : p.prog.Obeys (.keeps Mem.buckets)) :
    ¬ Uncharged ctx key requests i p := by
  rintro ⟨-, hp | hp⟩
  · exact not_keeps_verify (hp ▸ h)
  · exact not_keeps_refused (hp ▸ h)

theorem Admitted.uncharged (h : Admitted ctx key requests i p) : Uncharged ctx key requests i p :=
  ⟨h.1, Or.inl h.2⟩

theorem not_uncharged_of_start (h : p.prog = login ctx (requests i).1 (requests i).2) :
    ¬ Uncharged ctx key requests i p := by
  rintro ⟨-, hp | hp⟩
  · exact login_ne_verify (h.symm.trans hp)
  · exact login_ne_refused (h.symm.trans hp)

theorem not_admitted_of_refused (h : p.prog = refused ctx key) : ¬ Admitted ctx key requests i p :=
  fun ha => verify_ne_refused (ha.2.symm.trans h)

theorem guesses_cons (e : ServerEvent Pid LoginResponse) :
    guesses ctx key requests (e :: es) t T = guesses ctx key requests es t T +
      open Classical in if Guess ctx key requests e ∧ t ≤ e.choice.env.nowMs ∧
        (e.choice.env.nowMs : ℚ) ≤ t + T then 1 else 0 := by
  classical
  unfold guesses
  rw [List.countP_cons]
  simp only [decide_eq_true_eq]

theorem guesses_cons_of_not {e : ServerEvent Pid LoginResponse} (h : ¬ Guess ctx key requests e) :
    guesses ctx key requests (e :: es) t T = guesses ctx key requests es t T := by
  rw [guesses_cons, if_neg fun hg => h hg.1]
  rfl

theorem guesses_cons_of {e : ServerEvent Pid LoginResponse} (h : Guess ctx key requests e) :
    guesses ctx key requests (e :: es) t T = guesses ctx key requests es t T +
      if t ≤ e.choice.env.nowMs ∧ (e.choice.env.nowMs : ℚ) ≤ t + T then 1 else 0 := by
  rw [guesses_cons]
  simp only [h, true_and]

theorem clock_le {e : ServerEvent Pid LoginResponse} (h : Clocked es e) :
    clock es ≤ e.choice.env.nowMs := by
  cases es with
  | nil => exact Nat.zero_le _
  | cons e' es => exact h e' (by simp)

end Client

/-! ## The ledger of a client -/

section Server

variable (ctx : PlatformContext) (key : String) {Pid : Type} [DecidableEq Pid] [Fintype Pid]
  (requests : Pid → Metadata × LoginRequest)

/-- A request of the client that is about to be admitted finds a token besides those of the
    guesses that are still to be charged. -/
def Backed (e : ServerEvent Pid LoginResponse) : Prop :=
  FromClient ctx key requests e.pid →
    (e.before.procs e.pid).prog = login ctx (requests e.pid).1 (requests e.pid).2 →
    ¬ (trim (requests e.pid).2.email).isEmpty →
    1 ≤ Limiter.level ctx.authRateLimiter e.before.sh.mem.buckets key e.choice.env.nowMs →
    (e.before.count (Uncharged ctx key requests) : ℚ) + 1 ≤
      Limiter.level ctx.authRateLimiter e.before.sh.mem.buckets key e.choice.env.nowMs

/-- The bucket of the client with the claims of its requests. -/
noncomputable def ledger (t T : ℚ) (es : List (ServerEvent Pid LoginResponse))
    (w : Server Pid LoginResponse) : Ledger where
  now := clock es
  level := Limiter.level ctx.authRateLimiter w.sh.mem.buckets key (clock es)
  claims := w.count (Uncharged ctx key requests)
  waiting := w.count (Admitted ctx key requests)
  spent := guesses ctx key requests es t T

/-- What holds after each step of a backed run. -/
structure Throttled (t T : ℚ) (es : List (ServerEvent Pid LoginResponse))
    (w : Server Pid LoginResponse) : Prop where
  phases : ∀ i, Phase ctx (requests i) (w.procs i).prog
  capped : Limiter.Capped ctx.authRateLimiter w.sh.mem.buckets key
  sound : Sound ctx.authRateLimiter.capacity (ledger ctx key requests t T es w)
  budget : WithinBudget ctx.authRateLimiter.capacity ctx.authRateLimiter.refillPerMs t T
    (ledger ctx key requests t T es w)

variable {ctx key requests} {t T : ℚ} {es : List (ServerEvent Pid LoginResponse)}
  {w w' : Server Pid LoginResponse} {i : Pid} {c : Choice Env SqlError}

omit [DecidableEq Pid] in
/-- Before the step itself, time has passed. -/
theorem Throttled.pass (h : Throttled ctx key requests t T es w) (hT : 0 ≤ T)
    {e : ServerEvent Pid LoginResponse} (hc : Clocked es e) :
    Sound ctx.authRateLimiter.capacity { ledger ctx key requests t T es w with
        now := e.choice.env.nowMs
        level := Limiter.level ctx.authRateLimiter w.sh.mem.buckets key e.choice.env.nowMs } ∧
      WithinBudget ctx.authRateLimiter.capacity ctx.authRateLimiter.refillPerMs t T
        { ledger ctx key requests t T es w with
          now := e.choice.env.nowMs
          level := Limiter.level ctx.authRateLimiter w.sh.mem.buckets key e.choice.env.nowMs } := by
  have hle := clock_le hc
  have hnow : ((clock es : ℕ) : ℚ) ≤ e.choice.env.nowMs := by exact_mod_cast hle
  exact TokenBucket.pass h.budget h.sound ctx.authRateLimiter.refill_nonneg hT hnow
    (Limiter.level_mono h.capped hle) (Limiter.level_le_capacity h.capped _)
    (Limiter.level_le_add h.capped hle)

/-- After the step, with the ledger it leaves. -/
theorem Throttled.next (h : Throttled ctx key requests t T es w) (hs : w.step i c = some w')
    (hphase : Phase ctx (requests i) (w'.procs i).prog)
    (hcapped : Limiter.Capped ctx.authRateLimiter w'.sh.mem.buckets key) {l : Ledger}
    (hl : ledger ctx key requests t T (⟨w, i, c, w'⟩ :: es) w' = l)
    (hl' : Sound ctx.authRateLimiter.capacity l ∧ WithinBudget ctx.authRateLimiter.capacity
      ctx.authRateLimiter.refillPerMs t T l) :
    Throttled ctx key requests t T (⟨w, i, c, w'⟩ :: es) w' := by
  obtain ⟨-, -, hsame⟩ := World.step_spec hs
  refine ⟨fun j => ?_, hcapped, hl ▸ hl'.1, hl ▸ hl'.2⟩
  by_cases hj : j = i
  · exact hj ▸ hphase
  · rw [hsame j hj]
    exact h.phases j

/-- A step that neither claims nor pays. -/
theorem Throttled.idle (h : Throttled ctx key requests t T es w) (hT : 0 ≤ T)
    (hs : w.step i c = some w') (hc : Clocked es ⟨w, i, c, w'⟩)
    (hphase : Phase ctx (requests i) (w'.procs i).prog)
    (hcapped : Limiter.Capped ctx.authRateLimiter w'.sh.mem.buckets key)
    (hlevel : Limiter.level ctx.authRateLimiter w'.sh.mem.buckets key c.env.nowMs =
      Limiter.level ctx.authRateLimiter w.sh.mem.buckets key c.env.nowMs)
    (hbefore : ¬ Uncharged ctx key requests i (w.procs i))
    (hafter : ¬ Uncharged ctx key requests i (w'.procs i)) :
    Throttled ctx key requests t T (⟨w, i, c, w'⟩ :: es) w' := by
  have hguess : ¬ Guess ctx key requests ⟨w, i, c, w'⟩ := fun hg => hbefore ⟨hg.1, Or.inl hg.2.1⟩
  refine h.next hs hphase hcapped ?_ (h.pass hT hc)
  unfold ledger
  rw [World.count_same hs (iff_of_false hbefore hafter),
    World.count_same hs (iff_of_false (fun ha => hbefore ha.uncharged) fun ha =>
      hafter ha.uncharged),
    guesses_cons_of_not hguess]
  simp only [clock, hlevel]

theorem capped_update {buckets : String → Option Bucket} {b : Bucket} (h0 : 0 ≤ b.tokens)
    (h1 : b.tokens ≤ ctx.authRateLimiter.capacity) :
    Limiter.Capped ctx.authRateLimiter (Function.update buckets key (some b)) key := by
  intro b' hb'
  rw [Function.update_self, Option.some.injEq] at hb'
  exact hb' ▸ ⟨h0, h1⟩

/-- The bucket stored by `allowed` holds what was there. -/
theorem looked_at {buckets : String → Option Bucket}
    (hcapped : Limiter.Capped ctx.authRateLimiter buckets key) (now : ℕ) :
    Limiter.Capped ctx.authRateLimiter (Function.update buckets key
        (some (ctx.authRateLimiter.refilled buckets key now))) key ∧
      Limiter.level ctx.authRateLimiter (Function.update buckets key
        (some (ctx.authRateLimiter.refilled buckets key now))) key now =
      Limiter.level ctx.authRateLimiter buckets key now := by
  refine ⟨capped_update (Limiter.level_nonneg hcapped now)
    (Limiter.level_le_capacity hcapped now), ?_⟩
  unfold Limiter.level
  rw [Limiter.refilled_update _ (Limiter.le_lastMs_refilled now)]

/-- A step of another client. -/
theorem Throttled.other (h : Throttled ctx key requests t T es w) (hT : 0 ≤ T)
    (hs : w.step i c = some w') (hc : Clocked es ⟨w, i, c, w'⟩)
    (hi : ¬ FromClient ctx key requests i) :
    Throttled ctx key requests t T (⟨w, i, c, w'⟩ :: es) w' := by
  obtain ⟨hstep, -, -⟩ := World.step_spec hs
  have hne : key ≠ rateKey (requests i).1 ctx.trustProxy := fun he => hi he.symm
  -- whatever the step is, the bucket of the client stays as it is
  have hkeep : Phase ctx (requests i) (w'.procs i).prog ∧
      w'.sh.mem.buckets key = w.sh.mem.buckets key := by
    rcases h.phases i with hp | hp | hp | hp
    · obtain ⟨hb, hp' | ⟨-, -, hp'⟩⟩ := start_step hp hstep
      · exact ⟨Or.inr (Or.inr (Or.inr hp')), by rw [hb, Function.update_of_ne hne]⟩
      · exact ⟨Or.inr (Or.inl hp'), by rw [hb, Function.update_of_ne hne]⟩
    · obtain ⟨hb, hp' | hp'⟩ := verify_step hp hstep
      · exact ⟨Or.inr (Or.inr (Or.inl hp')), by rw [hb]⟩
      · exact ⟨Or.inr (Or.inr (Or.inr hp')), by rw [hb]⟩
    · obtain ⟨hb, hp'⟩ := refused_step hp hstep
      exact ⟨Or.inr (Or.inr (Or.inr hp')), by rw [hb, Function.update_of_ne hne]⟩
    · obtain ⟨hb, hp'⟩ := Proc.keeps_step hstep hp
      exact ⟨Or.inr (Or.inr (Or.inr hp')), by rw [hb]⟩
  obtain ⟨hphase, hbucket⟩ := hkeep
  refine h.idle hT hs hc hphase ?_ ?_ (fun hu => hi hu.1) fun hu => hi hu.1
  · intro b hb
    rw [hbucket] at hb
    exact h.capped b hb
  · unfold Limiter.level RateLimiter.refilled
    rw [hbucket]

/-- A request of the client arrives. -/
theorem Throttled.arrive (h : Throttled ctx key requests t T es w) (hT : 0 ≤ T)
    (hs : w.step i c = some w') (hc : Clocked es ⟨w, i, c, w'⟩)
    (hb : Backed ctx key requests ⟨w, i, c, w'⟩) (hi : FromClient ctx key requests i)
    (hp : (w.procs i).prog = login ctx (requests i).1 (requests i).2) :
    Throttled ctx key requests t T (⟨w, i, c, w'⟩ :: es) w' := by
  obtain ⟨hstep, -, -⟩ := World.step_spec hs
  obtain ⟨hbuckets, hp'⟩ := start_step hp hstep
  rw [show rateKey (requests i).1 ctx.trustProxy = key from hi] at hbuckets hp'
  obtain ⟨hcapped, hlevel⟩ := looked_at h.capped c.env.nowMs
  rw [← hbuckets] at hcapped hlevel
  have hbefore : ¬ Uncharged ctx key requests i (w.procs i) := not_uncharged_of_start hp
  rcases hp' with hp' | ⟨hone, hblank, hp'⟩
  · exact h.idle hT hs hc (Or.inr (Or.inr (Or.inr hp'))) hcapped hlevel hbefore
      (not_uncharged_of_keeps hp')
  · have hadmitted : Admitted ctx key requests i (w'.procs i) := ⟨hi, hp'⟩
    have hguess : ¬ Guess ctx key requests ⟨w, i, c, w'⟩ := fun hg => hbefore ⟨hg.1, Or.inl hg.2.1⟩
    obtain ⟨hsound, hbudget⟩ := h.pass hT hc
    refine h.next hs (Or.inr (Or.inl ?_)) hcapped ?_ (enter hbudget hsound (hb hi hp hblank hone))
    · rw [show rateKey (requests i).1 ctx.trustProxy = key from hi]
      exact hp'
    · unfold ledger
      rw [World.count_gain hs hbefore hadmitted.uncharged,
        World.count_gain hs (fun ha => hbefore ha.uncharged) hadmitted, guesses_cons_of_not hguess]
      simp only [clock, hlevel]

/-- The credentials of an admitted request are verified. -/
theorem Throttled.verified (h : Throttled ctx key requests t T es w) (hT : 0 ≤ T)
    (hs : w.step i c = some w') (hc : Clocked es ⟨w, i, c, w'⟩) (hi : FromClient ctx key requests i)
    (hp : (w.procs i).prog = login.verify ctx key (requests i).2) :
    Throttled ctx key requests t T (⟨w, i, c, w'⟩ :: es) w' := by
  obtain ⟨hstep, -, -⟩ := World.step_spec hs
  obtain ⟨hbuckets, hp'⟩ := verify_step hp hstep
  have hcapped : Limiter.Capped ctx.authRateLimiter w'.sh.mem.buckets key := hbuckets ▸ h.capped
  have hadmitted : Admitted ctx key requests i (w.procs i) := ⟨hi, hp⟩
  obtain ⟨hsound, hbudget⟩ := h.pass hT hc
  rcases hp' with hp' | hp'
  · have hafter : ¬ Admitted ctx key requests i (w'.procs i) := not_admitted_of_refused hp'
    have hguess : Guess ctx key requests ⟨w, i, c, w'⟩ := ⟨hi, hp, hp'⟩
    have hwait := World.count_lose hs hadmitted hafter
    refine h.next hs (Or.inr (Or.inr (Or.inl ?_))) hcapped ?_ (use hbudget hsound hwait)
    · rw [show rateKey (requests i).1 ctx.trustProxy = key from hi]
      exact hp'
    · unfold ledger
      rw [World.count_same hs (iff_of_true hadmitted.uncharged ⟨hi, Or.inr hp'⟩),
        guesses_cons_of hguess, hbuckets]
      rfl
  · have hafter : ¬ Uncharged ctx key requests i (w'.procs i) := not_uncharged_of_keeps hp'
    have hguess : ¬ Guess ctx key requests ⟨w, i, c, w'⟩ := fun hg =>
      not_keeps_refused (hg.2.2 ▸ hp')
    have hwait := World.count_lose hs hadmitted fun ha => hafter ha.uncharged
    have hclaims := World.count_lose hs hadmitted.uncharged hafter
    refine h.next hs (Or.inr (Or.inr (Or.inr hp'))) hcapped ?_ (leave hbudget hsound hwait hclaims)
    unfold ledger
    rw [guesses_cons_of_not hguess, hbuckets]
    rfl

/-- A failed guess of the client is charged. -/
theorem Throttled.charged (h : Throttled ctx key requests t T es w) (hT : 0 ≤ T)
    (hs : w.step i c = some w') (hc : Clocked es ⟨w, i, c, w'⟩) (hi : FromClient ctx key requests i)
    (hp : (w.procs i).prog = refused ctx key) :
    Throttled ctx key requests t T (⟨w, i, c, w'⟩ :: es) w' := by
  obtain ⟨hstep, -, -⟩ := World.step_spec hs
  obtain ⟨hbuckets, hp'⟩ := refused_step hp hstep
  obtain ⟨hsound, hbudget⟩ := h.pass hT hc
  have hafter : ¬ Uncharged ctx key requests i (w'.procs i) := not_uncharged_of_keeps hp'
  have hbefore : ¬ Admitted ctx key requests i (w.procs i) := not_admitted_of_refused hp
  have hguess : ¬ Guess ctx key requests ⟨w, i, c, w'⟩ := fun hg => hbefore ⟨hi, hg.2.1⟩
  have hclaims := World.count_lose hs ⟨hi, Or.inr hp⟩ hafter
  have hwait := World.count_same hs (iff_of_false hbefore fun ha => hafter ha.uncharged)
  -- the claim has its token, so the charge does not meet the floor
  have hone : 1 ≤ Limiter.level ctx.authRateLimiter w.sh.mem.buckets key c.env.nowMs := by
    have hle := hsound.claims
    have hcast : ((w.count (Uncharged ctx key requests) : ℕ) : ℚ) =
        (w'.count (Uncharged ctx key requests) : ℕ) + 1 := by exact_mod_cast hclaims
    simp only [ledger, hcast] at hle
    have hnn : (0 : ℚ) ≤ (w'.count (Uncharged ctx key requests) : ℕ) := Nat.cast_nonneg _
    linarith
  have hpaid : max (Limiter.level ctx.authRateLimiter w.sh.mem.buckets key c.env.nowMs - 1) 0 =
      Limiter.level ctx.authRateLimiter w.sh.mem.buckets key c.env.nowMs - 1 :=
    max_eq_left (by linarith)
  have hlevel : Limiter.level ctx.authRateLimiter w'.sh.mem.buckets key c.env.nowMs =
      Limiter.level ctx.authRateLimiter w.sh.mem.buckets key c.env.nowMs - 1 := by
    rw [hbuckets, ← hpaid]
    exact congrArg Bucket.tokens (Limiter.refilled_update { ctx.authRateLimiter.refilled
      w.sh.mem.buckets key c.env.nowMs with
        tokens := max ((ctx.authRateLimiter.refilled w.sh.mem.buckets key c.env.nowMs).tokens - 1)
          0 }
      (Limiter.le_lastMs_refilled c.env.nowMs))
  have hcapped : Limiter.Capped ctx.authRateLimiter w'.sh.mem.buckets key := by
    rw [hbuckets]
    have hle := Limiter.level_le_capacity h.capped c.env.nowMs
    refine capped_update (le_max_right _ _) (max_le ?_ (Nat.cast_nonneg _))
    unfold Limiter.level at hle
    linarith
  refine h.next hs (Or.inr (Or.inr (Or.inr hp'))) hcapped ?_ (charge hbudget hsound hclaims ?_)
  · unfold ledger
    rw [hwait, guesses_cons_of_not hguess]
    simp only [clock, hlevel]
  · rw [show (ledger ctx key requests t T es w).waiting = w'.count (Admitted ctx key requests) from
      hwait.symm]
    exact World.count_le fun j p ha => ha.uncharged

/-- **The step lemma.** -/
theorem Throttled.step (h : Throttled ctx key requests t T es w) (hT : 0 ≤ T)
    (hs : w.step i c = some w') (hc : Clocked es ⟨w, i, c, w'⟩)
    (hb : Backed ctx key requests ⟨w, i, c, w'⟩) :
    Throttled ctx key requests t T (⟨w, i, c, w'⟩ :: es) w' := by
  by_cases hi : FromClient ctx key requests i
  · have hphase := h.phases i
    unfold Phase at hphase
    rw [show rateKey (requests i).1 ctx.trustProxy = key from hi] at hphase
    rcases hphase with hp | hp | hp | hp
    · exact h.arrive hT hs hc hb hi hp
    · exact h.verified hT hs hc hi hp
    · exact h.charged hT hs hc hi hp
    · obtain ⟨hstep, -, -⟩ := World.step_spec hs
      obtain ⟨hbuckets, hp'⟩ := Proc.keeps_step hstep hp
      exact h.idle hT hs hc (Or.inr (Or.inr (Or.inr hp'))) (hbuckets ▸ h.capped) (by rw [hbuckets])
        (not_uncharged_of_keeps hp) (not_uncharged_of_keeps hp')
  · exact h.other hT hs hc hi

omit [DecidableEq Pid] in
/-- Before any request has arrived. -/
theorem throttled_start (hstart : ∀ i, (w.procs i).prog = login ctx (requests i).1 (requests i).2)
    (hcapped : Limiter.Capped ctx.authRateLimiter w.sh.mem.buckets key) (hT : 0 ≤ T) :
    Throttled ctx key requests t T [] w := by
  have hnone : w.count (Uncharged ctx key requests) = 0 :=
    World.count_eq_zero fun i => not_uncharged_of_start (hstart i)
  have hle : w.count (Admitted ctx key requests) ≤ w.count (Uncharged ctx key requests) :=
    World.count_le fun j p ha => ha.uncharged
  have hlevel := Limiter.level_nonneg hcapped 0
  have hcap := Limiter.level_le_capacity hcapped 0
  refine ⟨fun i => Or.inl (hstart i), hcapped, ⟨hle, ?_, hcap⟩, ⟨fun _ => rfl, fun hbefore _ => ?_,
    fun _ => ?_⟩⟩
  · simp only [ledger, hnone, clock]
    exact_mod_cast hlevel
  · have hwait : w.count (Admitted ctx key requests) = 0 := by omega
    have hmul := mul_sub_nonneg ctx.authRateLimiter.refill_nonneg hbefore
    simp only [ledger, hnone, hwait, clock, guesses, List.countP_nil, Nat.cast_zero] at hmul ⊢
    linarith
  · have hspan := mul_nonneg ctx.authRateLimiter.refill_nonneg hT
    simp only [ledger, guesses, List.countP_nil, Nat.cast_zero]
    linarith [Nat.cast_nonneg (α := ℚ) ctx.authRateLimiter.capacity]

/-- **The throttle bounds the guesses of a client.** In every run of login requests whose
    admissions are all backed, at most `C + r T` guesses fall into a window of length `T`. -/
theorem guesses_le {w₀ : Server Pid LoginResponse}
    (hstart : ∀ i, (w₀.procs i).prog = login ctx (requests i).1 (requests i).2)
    (hcapped : Limiter.Capped ctx.authRateLimiter w₀.sh.mem.buckets key)
    (hrun : World.Trace (fun es e => Clocked es e ∧ Backed ctx key requests e) w₀ es w)
    (t : ℚ) {T : ℚ} (hT : 0 ≤ T) :
    (guesses ctx key requests es t T : ℚ) ≤
      ctx.authRateLimiter.capacity + ctx.authRateLimiter.refillPerMs * T := by
  have hall : Throttled ctx key requests t T es w := by
    induction hrun with
    | start => exact throttled_start hstart hcapped hT
    | step i c _ hs hC ih => exact ih.step hT hs hC.1 hC.2
  exact hall.budget.spent_le hall.sound ctx.authRateLimiter.refill_nonneg hT

end Server

/-! ## Two guesses on one token -/

/-- One attempt at once, a new one every ten seconds. -/
def oneAttempt : PlatformContext where
  lib := Libs.sample
  authRateLimiter := { capacity := 1, refillPerMs := 1 / 10000, refill_nonneg := by norm_num }
  trustProxy := false

/-- The metadata of a request from one address. -/
def fromPeer : Metadata := ⟨none, none, some "203.0.113.7"⟩

/-- Two guesses at the password of one account. -/
def twoGuesses : Bool → Metadata × LoginRequest
  | false => (fromPeer, ⟨"ann@example.org", "letmein"⟩)
  | true => (fromPeer, ⟨"ann@example.org", "hunter2"⟩)

def guessing : Server Bool LoginResponse where
  procs i := ⟨login oneAttempt (twoGuesses i).1 (twoGuesses i).2, none⟩
  sh := ⟨Sample.db, Mem.fresh⟩

/-- One step at the first millisecond. -/
def tick (w : Server Bool LoginResponse) (i : Bool) : Server Bool LoginResponse :=
  (w.step i (Sample.calm 0)).getD w

def tickEvent (w : Server Bool LoginResponse) (i : Bool) : ServerEvent Bool LoginResponse :=
  ⟨w, i, Sample.calm 0, tick w i⟩

theorem tick_trace
    {C : List (ServerEvent Bool LoginResponse) → ServerEvent Bool LoginResponse → Prop}
    {es : List (ServerEvent Bool LoginResponse)} {w₀ w : Server Bool LoginResponse} (i : Bool)
    (hrun : World.Trace C w₀ es w) (hstep : (w.step i (Sample.calm 0)).isSome)
    (hC : C es (tickEvent w i)) : World.Trace C w₀ (tickEvent w i :: es) (tick w i) := by
  obtain ⟨w', hw'⟩ := Option.isSome_iff_exists.mp hstep
  have htick : tick w i = w' := by
    rw [tick, hw']
    rfl
  exact hrun.step i (Sample.calm 0) (htick ▸ hw') hC

theorem tick_clocked {es : List (ServerEvent Bool LoginResponse)} {w : Server Bool LoginResponse}
    {i : Bool} (h : ∀ e ∈ es, e.choice.env.nowMs = 0) : Clocked es (tickEvent w i) :=
  fun e he => le_of_eq (h e he)

/-- A guess at the first millisecond counts. -/
theorem lt_guesses_tick (ctx : PlatformContext) (es : List (ServerEvent Bool LoginResponse))
    {w : Server Bool LoginResponse} {i : Bool}
    (h : Guess ctx "203.0.113.7" twoGuesses (tickEvent w i)) :
    guesses ctx "203.0.113.7" twoGuesses es 0 0 <
      guesses ctx "203.0.113.7" twoGuesses (tickEvent w i :: es) 0 0 := by
  rw [guesses_cons_of h, if_pos (by simp [tickEvent, Sample.calm, Env.at])]
  exact Nat.lt_succ_self _

/-- Two attempts at once. -/
def twoAttempts : PlatformContext where
  lib := Libs.sample
  authRateLimiter := { capacity := 2, refillPerMs := 1 / 10000, refill_nonneg := by norm_num }
  trustProxy := false

/-- The two guesses where the bucket holds two tokens. -/
def guessingOnTwo : Server Bool LoginResponse where
  procs i := ⟨login twoAttempts (twoGuesses i).1 (twoGuesses i).2, none⟩
  sh := ⟨Sample.db, Mem.fresh⟩

/-- The first request finds a full bucket. -/
theorem first_backed :
    Backed twoAttempts "203.0.113.7" twoGuesses (tickEvent guessingOnTwo false) := by
  intro _ _ _ _
  have hnone : guessingOnTwo.count (Uncharged twoAttempts "203.0.113.7" twoGuesses) = 0 :=
    World.count_eq_zero fun i => not_uncharged_of_start rfl
  have hlevel : Limiter.level twoAttempts.authRateLimiter guessingOnTwo.sh.mem.buckets
      "203.0.113.7" 0 = (2 : ℕ) := Limiter.level_none rfl 0
  rw [show (tickEvent guessingOnTwo false).before = guessingOnTwo from rfl, hnone]
  change _ ≤ Limiter.level twoAttempts.authRateLimiter guessingOnTwo.sh.mem.buckets _ 0
  rw [hlevel]
  norm_num

/-- The second one finds a token besides that of the first, which is not charged yet. -/
theorem second_backed :
    Backed twoAttempts "203.0.113.7" twoGuesses (tickEvent (tick guessingOnTwo false) true) := by
  intro _ _ _ _
  have hstep : guessingOnTwo.step false (Sample.calm 0) = some (tick guessingOnTwo false) :=
    World.step_reach (by decide +kernel)
  have hnone : guessingOnTwo.count (Uncharged twoAttempts "203.0.113.7" twoGuesses) = 0 :=
    World.count_eq_zero fun i => not_uncharged_of_start rfl
  have hone : (tick guessingOnTwo false).count
      (Uncharged twoAttempts "203.0.113.7" twoGuesses) = 0 + 1 := by
    rw [← hnone]
    exact World.count_gain hstep (not_uncharged_of_start rfl) ⟨rfl, Or.inl rfl⟩
  have hlevel : Limiter.level twoAttempts.authRateLimiter
      (tick guessingOnTwo false).sh.mem.buckets "203.0.113.7" 0 = 2 := by decide +kernel
  rw [show (tickEvent (tick guessingOnTwo false) true).before = tick guessingOnTwo false from rfl,
    hone]
  change _ ≤ Limiter.level twoAttempts.authRateLimiter (tick guessingOnTwo false).sh.mem.buckets _ 0
  rw [hlevel]
  norm_num

/-- The theorem at a run where the second request is admitted before the first is charged. -/
theorem guesses_le_two : ∃ es w, World.Trace (fun es e => Clocked es e ∧
      Backed twoAttempts "203.0.113.7" twoGuesses e) guessingOnTwo es w ∧
    1 < guesses twoAttempts "203.0.113.7" twoGuesses es 0 0 ∧
    (guesses twoAttempts "203.0.113.7" twoGuesses es 0 0 : ℚ) ≤
      twoAttempts.authRateLimiter.capacity + twoAttempts.authRateLimiter.refillPerMs * 0 := by
  have hverifying : ∀ {w : Server Bool LoginResponse} {i : Bool},
      (w.procs i).prog = login.verify twoAttempts "203.0.113.7" (twoGuesses i).2 →
      Backed twoAttempts "203.0.113.7" twoGuesses (tickEvent w i) :=
    fun hprog _ hp => absurd (hp.symm.trans hprog) login_ne_verify
  have h₁ := tick_trace (C := fun es e => Clocked es e ∧
    Backed twoAttempts "203.0.113.7" twoGuesses e) (w := guessingOnTwo) false .start
    (by decide +kernel) ⟨tick_clocked (by simp), first_backed⟩
  have h₂ := tick_trace true h₁ (by decide +kernel)
    ⟨tick_clocked (by simp [tickEvent, Sample.calm, Env.at]), second_backed⟩
  have h₃ := tick_trace false h₂ (by decide +kernel)
    ⟨tick_clocked (by simp [tickEvent, Sample.calm, Env.at]), hverifying rfl⟩
  have h₄ := tick_trace true h₃ (by decide +kernel)
    ⟨tick_clocked (by simp [tickEvent, Sample.calm, Env.at]), hverifying rfl⟩
  have hfirst := lt_guesses_tick twoAttempts [tickEvent (tick guessingOnTwo false) true,
    tickEvent guessingOnTwo false] (w := tick (tick guessingOnTwo false) true) (i := false)
    ⟨rfl, rfl, rfl⟩
  have hsecond := lt_guesses_tick twoAttempts
    (tickEvent (tick (tick guessingOnTwo false) true) false ::
      [tickEvent (tick guessingOnTwo false) true, tickEvent guessingOnTwo false])
    (w := tick (tick (tick guessingOnTwo false) true) false) (i := true) ⟨rfl, rfl, rfl⟩
  refine ⟨_, _, h₄, lt_of_le_of_lt (Nat.succ_le_of_lt ?_) hsecond,
    guesses_le (fun i => rfl) (fun b hb => by cases hb) h₄ 0 le_rfl⟩
  exact lt_of_le_of_lt (Nat.zero_le _) hfirst

/-- Both requests are admitted before either is charged: two guesses at one moment, where the
    bucket holds one token. -/
theorem two_guesses_one_token : ∃ es w, World.Trace Clocked guessing es w ∧
    (∀ i, (guessing.procs i).prog = login oneAttempt (twoGuesses i).1 (twoGuesses i).2) ∧
    guessing.sh.mem.buckets = Mem.fresh.buckets ∧
    ¬ (guesses oneAttempt "203.0.113.7" twoGuesses es 0 0 : ℚ) ≤
      oneAttempt.authRateLimiter.capacity + oneAttempt.authRateLimiter.refillPerMs * 0 := by
  have h₁ := tick_trace (C := Clocked) false .start (w := guessing) (by decide +kernel)
    (tick_clocked (by simp))
  have h₂ := tick_trace true h₁ (by decide +kernel)
    (tick_clocked (by simp [tickEvent, Sample.calm, Env.at]))
  have h₃ := tick_trace false h₂ (by decide +kernel)
    (tick_clocked (by simp [tickEvent, Sample.calm, Env.at]))
  have h₄ := tick_trace true h₃ (by decide +kernel)
    (tick_clocked (by simp [tickEvent, Sample.calm, Env.at]))
  refine ⟨_, _, h₄, fun i => rfl, rfl, fun hle => ?_⟩
  have hfirst := lt_guesses_tick oneAttempt [tickEvent (tick guessing false) true,
    tickEvent guessing false] (w := tick (tick guessing false) true) (i := false) ⟨rfl, rfl, rfl⟩
  have hsecond := lt_guesses_tick oneAttempt (tickEvent (tick (tick guessing false) true) false ::
    [tickEvent (tick guessing false) true, tickEvent guessing false])
    (w := tick (tick (tick guessing false) true) false) (i := true) ⟨rfl, rfl, rfl⟩
  have htwo := Nat.succ_le_of_lt (lt_of_le_of_lt (Nat.succ_le_of_lt (lt_of_le_of_lt (Nat.zero_le _)
    hfirst)) hsecond)
  have hbound : (oneAttempt.authRateLimiter.capacity : ℚ) +
      oneAttempt.authRateLimiter.refillPerMs * 0 < 2 := by norm_num [oneAttempt]
  exact absurd (lt_of_le_of_lt hle hbound) (not_lt.mpr (by exact_mod_cast htwo))

end SylvaServer.Account
