/-
  Programs that look before they write.

  A gate of a program is a statement on the pool that only reads; what it finds decides whether
  the program goes on to its writes. `Prog.Gated R Q p` says that `p` keeps to the rules `R`
  until it has passed a gate, and that a gate it passes on tables `d` leaves a remainder `q` with
  `Q d q`. The tables may be different by the time of the writes; what remains true is that
  the gate was passed at some moment of the run (`Vouched`).

  Proved: the step lemma (`Proc.gated_step`) and, for the values of a `View`, that in every run a
  change is one the program may always make, or one it may make after a gate passed earlier
  in the run (`Vouched.trace`).
-/
import SylvaServer.ReadCommitted.Versions

namespace ReadCommitted

variable {E D W K M S ε ε' α β γ : Type}

/-- A statement that writes nothing and locks nothing. -/
def Reads (s : Sql E D W K M S β) : Prop :=
  ∀ env m d, (s env m d).writes = [] ∧ (s env m d).locks = []

namespace Prog

/-- Within the rules, up to a look at tables `d` after which the remainder `q` has `Q d q`. -/
def Gated (R : Rules E D W K M S) (Q : D → Prog E D W K M S ε α → Prop) :
    Prog E D W K M S ε α → Prop
  | ret _ => True
  | begin k => R.begin ∧ ∀ r, Gated R Q (k r)
  | stmt s k => R.stmt s ∧ ∀ r, Gated R Q (k r)
  | commit k => ∀ r, Gated R Q (k r)
  | pool s k => R.pool s ∧ ((∀ r, Gated R Q (k r)) ∨ (Reads s ∧ ∀ env m d,
      Gated R Q (k (s env m d).result) ∨ Q d (k (s env m d).result)) ∧
        ∀ e, Gated R Q (k (.error e)))
  | mem f k => R.mem f ∧ ∀ b, Gated R Q (k b)

variable {R : Rules E D W K M S} {Q : D → Prog E D W K M S ε α → Prop}

/-- A program without a gate. -/
theorem gated_of_obeys {p : Prog E D W K M S ε α} (h : p.Obeys R) : p.Gated R Q := by
  induction p with
  | ret r => trivial
  | begin k ih => exact ⟨h.1, fun r => ih r (h.2 r)⟩
  | stmt s k ih => exact ⟨h.1, fun r => ih r (h.2 r)⟩
  | commit k ih => exact fun r => ih r (h r)
  | pool s k ih => exact ⟨h.1, Or.inl fun r => ih r (h.2 r)⟩
  | mem f k ih => exact ⟨h.1, fun b => ih b (h.2 b)⟩

theorem gated_ite {c : Prop} [Decidable c] {p q : Prog E D W K M S ε α} (hp : p.Gated R Q)
    (hq : q.Gated R Q) : (if c then p else q).Gated R Q := by
  split
  · exact hp
  · exact hq

/-- The gate comes after a first part. -/
theorem gated_bind {p : Prog E D W K M S ε β} {f : β → Prog E D W K M S ε α} (hp : p.Obeys R)
    (hf : ∀ a, (f a).Gated R Q) : (p >>= f).Gated R Q := by
  induction p with
  | ret r =>
    cases r with
    | ok a => exact hf a
    | error e => trivial
  | begin k ih => exact ⟨hp.1, fun r => ih r (hp.2 r)⟩
  | stmt s k ih => exact ⟨hp.1, fun r => ih r (hp.2 r)⟩
  | commit k ih => exact fun r => ih r (hp r)
  | pool s k ih => exact ⟨hp.1, Or.inl fun r => ih r (hp.2 r)⟩
  | mem g k ih => exact ⟨hp.1, fun b => ih b (hp.2 b)⟩

/-- The gate comes before a last part. -/
theorem gated_followed {P : D → Prog E D W K M S ε β → Prop} {p : Prog E D W K M S ε β}
    {f : β → Prog E D W K M S ε α} (hp : p.Gated R P) (hf : ∀ a, (f a).Obeys R)
    (hQ : ∀ d q, P d q → Q d (q >>= f)) : (p >>= f).Gated R Q := by
  induction p with
  | ret r =>
    cases r with
    | ok a => exact gated_of_obeys (hf a)
    | error e => trivial
  | begin k ih => exact ⟨hp.1, fun r => ih r (hp.2 r)⟩
  | stmt s k ih => exact ⟨hp.1, fun r => ih r (hp.2 r)⟩
  | commit k ih => exact fun r => ih r (hp r)
  | pool s k ih =>
    refine ⟨hp.1, ?_⟩
    rcases hp.2 with hall | ⟨⟨hread, hgate⟩, herr⟩
    · exact Or.inl fun r => ih r (hall r)
    · exact Or.inr ⟨⟨hread, fun env m d => (hgate env m d).imp (ih _) (hQ d _)⟩,
        fun e => ih _ (herr e)⟩
  | mem g k ih => exact ⟨hp.1, fun b => ih b (hp.2 b)⟩

/-- The gate: a look on the pool, its errors mapped, and what is done with the result. -/
theorem gated_query {s : Sql E D W K M S β} (g : S → ε) {f : β → Prog E D W K M S ε α}
    (hpool : R.pool s) (hread : Reads s)
    (h : ∀ env m d b, (s env m d).result = .ok b → (f b).Gated R Q ∨ Q d (f b)) :
    ((onPool s).mapError g >>= f).Gated R Q := by
  refine ⟨hpool, Or.inr ⟨⟨hread, fun env m d => ?_⟩, fun e => trivial⟩⟩
  cases hr : (s env m d).result with
  | ok b => exact h env m d b hr
  | error e => exact Or.inl trivial

/-! ### Up to one request -/

/-- Within the rules up to a remainder that is a `P`. -/
inductive Until (R : Rules E D W K M S) (P : Prog E D W K M S ε α → Prop) :
    Prog E D W K M S ε α → Prop where
  | here {p} : P p → Until R P p
  | ret (r) : Until R P (.ret r)
  | begin {k} : R.begin → (∀ r, Until R P (k r)) → Until R P (.begin k)
  | stmt {γ : Type} {s : Sql E D W K M S γ} {k} : R.stmt s → (∀ r, Until R P (k r)) →
      Until R P (.stmt s k)
  | commit {k} : (∀ r, Until R P (k r)) → Until R P (.commit k)
  | pool {γ : Type} {s : Sql E D W K M S γ} {k} : R.pool s → (∀ r, Until R P (k r)) →
      Until R P (.pool s k)
  | mem {γ : Type} {f : E → M → γ × M} {k} : R.mem f → (∀ b, Until R P (k b)) → Until R P (.mem f k)

variable {P : Prog E D W K M S ε α → Prop}

theorem until_bind {p : Prog E D W K M S ε β} {f : β → Prog E D W K M S ε α} (hp : p.Obeys R)
    (hf : ∀ a, (f a).Until R P) : (p >>= f).Until R P := by
  induction p with
  | ret r =>
    cases r with
    | ok a => exact hf a
    | error e => exact .ret _
  | begin k ih => exact .begin hp.1 fun r => ih r (hp.2 r)
  | stmt s k ih => exact .stmt hp.1 fun r => ih r (hp.2 r)
  | commit k ih => exact .commit fun r => ih r (hp r)
  | pool s k ih => exact .pool hp.1 fun r => ih r (hp.2 r)
  | mem g k ih => exact .mem hp.1 fun b => ih b (hp.2 b)

/-- The next request is within the rules. -/
def First (R : Rules E D W K M S) : Prog E D W K M S ε α → Prop
  | ret _ => True
  | begin _ => R.begin
  | stmt s _ => R.stmt s
  | commit _ => True
  | pool s _ => R.pool s
  | mem f _ => R.mem f

/-- The next step is one of a `P`, or it is within the rules and does not get past a `P`. -/
theorem Until.next {p q : Prog E D W K M S ε α} (hp : p.Until R P) (h : p.Next q) :
    P p ∨ (p.First R ∧ q.Until R P) := by
  cases hp with
  | here hP => exact Or.inl hP
  | ret r =>
    cases h
    exact Or.inr ⟨trivial, .ret r⟩
  | begin hbegin hk =>
    cases h
    exact Or.inr ⟨hbegin, hk _⟩
  | stmt hstmt hk =>
    cases h
    exact Or.inr ⟨hstmt, hk _⟩
  | commit hk =>
    cases h
    exact Or.inr ⟨trivial, hk _⟩
  | pool hpool hk =>
    refine Or.inr ⟨hpool, ?_⟩
    cases h with
    | pool r => exact hk r
    | flush b => exact .commit fun r => hk _
  | mem hmem hk =>
    cases h
    exact Or.inr ⟨hmem, hk _⟩

end Prog

namespace Proc

variable [Store D W K] {R : Prog.Rules E D W K M S} {Q : D → Prog E D W K M S ε α → Prop}

omit [Store D W K] in
/-- A statement before the gate is within the rules. -/
theorem gated_stmt {p : Proc E D W K M S ε α} (hp : p.prog.Gated R Q) {s : Sql E D W K M S β}
    {k : Except S β → Prog E D W K M S ε α} :
    (p.prog = .stmt s k → R.stmt s) ∧ (p.prog = .pool s k → R.pool s) := by
  constructor <;> intro hprog <;> rw [hprog] at hp <;> exact hp.1

/-- A step stays before the gate, or it is the look that passes it. -/
theorem gated_step {c : Choice E S} {p p' : Proc E D W K M S ε α} {sh sh' : Shared D M}
    (h : p.step c sh = some (p', sh')) (hp : p.prog.Gated R Q) : p'.prog.Gated R Q ∨
      (Q sh.db p'.prog ∧ p.writes = [] ∧ p'.tx = none ∧ sh'.db = sh.db) := by
  obtain ⟨q, tx⟩ := p
  cases q with
  | ret r =>
    cases tx <;> simp only [step, Option.some.injEq, Prod.mk.injEq, reduceCtorEq] at h
    obtain ⟨rfl, -⟩ := h
    exact Or.inl trivial
  | begin k =>
    cases tx <;> simp only [step, reduceCtorEq] at h
    split at h <;> simp only [Option.some.injEq, Prod.mk.injEq] at h <;> obtain ⟨rfl, -⟩ := h <;>
      exact Or.inl (hp.2 _)
  | stmt s k =>
    rcases tx with _ | (⟨ws, ls⟩ | _)
    · simp [step] at h
    · simp only [step] at h
      split at h
      · simp only [Option.some.injEq, Prod.mk.injEq] at h
        obtain ⟨rfl, -⟩ := h
        exact Or.inl (hp.2 _)
      · split at h <;> simp only [Option.some.injEq, Prod.mk.injEq] at h <;>
          obtain ⟨rfl, -⟩ := h <;> exact Or.inl (hp.2 _)
    · simp only [step] at h
      split at h <;> simp only [Option.some.injEq, Prod.mk.injEq, reduceCtorEq] at h
      obtain ⟨rfl, -⟩ := h
      exact Or.inl (hp.2 _)
  | commit k =>
    rcases tx with _ | (⟨ws, ls⟩ | _)
    · simp [step] at h
    · simp only [step] at h
      split at h <;> simp only [Option.some.injEq, Prod.mk.injEq] at h <;> obtain ⟨rfl, -⟩ := h <;>
        exact Or.inl (hp _)
    · simp only [step] at h
      split at h <;> simp only [Option.some.injEq, Prod.mk.injEq] at h <;> obtain ⟨rfl, -⟩ := h <;>
        exact Or.inl (hp _)
  | pool s k =>
    cases tx with
    | some t => simp [step] at h
    | none =>
      simp only [step] at h
      rcases hp.2 with hall | ⟨⟨hread, hgate⟩, herr⟩
      · left
        split at h
        · simp only [Option.some.injEq, Prod.mk.injEq] at h
          obtain ⟨rfl, -⟩ := h
          exact hall _
        · split at h
          · split at h <;> simp only [Option.some.injEq, Prod.mk.injEq] at h <;>
              obtain ⟨rfl, -⟩ := h
            · exact hall _
            · exact fun r => hall _
          · simp only [Option.some.injEq, Prod.mk.injEq] at h
            obtain ⟨rfl, -⟩ := h
            exact hall _
      · obtain ⟨hw, hl⟩ := hread c.env sh.mem sh.db
        have hpass := hgate c.env sh.mem sh.db
        split at h
        · simp only [Option.some.injEq, Prod.mk.injEq] at h
          obtain ⟨rfl, -⟩ := h
          exact Or.inl (herr _)
        · split at h <;> rename_i hr
          · simp only [hw, hl, List.isEmpty_nil, Bool.and_self, if_true, Option.some.injEq,
              Prod.mk.injEq] at h
            obtain ⟨rfl, rfl⟩ := h
            rw [hr] at hpass
            exact hpass.imp_right fun hQ => ⟨hQ, rfl, rfl, rfl⟩
          · simp only [Option.some.injEq, Prod.mk.injEq] at h
            obtain ⟨rfl, -⟩ := h
            exact Or.inl (herr _)
  | mem f k =>
    simp only [step, Option.some.injEq, Prod.mk.injEq] at h
    obtain ⟨rfl, -⟩ := h
    exact Or.inl (hp.2 _)

/-- What is written before the gate. -/
theorem gated_writes {P : W → Prop}
    (hR : ∀ {γ : Type} (s : Sql E D W K M S γ), R.stmt s ∨ R.pool s →
      ∀ env m d, ∀ w ∈ (s env m d).writes, P w)
    {c : Choice E S} {p p' : Proc E D W K M S ε α} {sh sh' : Shared D M}
    (h : p.step c sh = some (p', sh')) (hp : p.prog.Gated R Q) (hwrites : ∀ w ∈ p.writes, P w) :
    ∀ w ∈ p'.writes, P w := by
  rcases writes_cases h with ⟨hws, -⟩ | ⟨hws, -⟩ | ⟨γ, s, k, hprog, hws, -⟩
  · rw [hws]
    exact hwrites
  · rw [hws]
    exact fun w hw => absurd hw List.not_mem_nil
  · obtain ⟨hstmt, hpool⟩ := gated_stmt hp (s := s) (k := k)
    rw [hws]
    intro w hw
    rcases List.mem_append.mp hw with hw | hw
    · exact hwrites w hw
    · exact hR s (hprog.imp hstmt hpool) _ _ _ w hw

end Proc

/-! ## Runs -/

variable {X V Pid : Type} [Store D W K] [DecidableEq Pid] [Fintype Pid] [DecidableEq K]

/-- Program `i` found tables with `F i` at some step of the run. -/
def Witnessed (F : Pid → D → Prop) (es : List (World.Event Pid E D W K M S ε α)) (i : Pid) : Prop :=
  ∃ e ∈ es, e.pid = i ∧ F i e.before.sh.db

/-- What holds at every moment of a run where program `i` may change cells as `T i` allows, and as
    `T' i` allows once it has found tables with `F i`. -/
structure Vouched (𝒱 : View D W X V) (T T' : Pid → X → V → V → Prop) (F : Pid → D → Prop)
    (es : List (World.Event Pid E D W K M S ε α)) (w : World Pid E D W K M S ε α) : Prop where
  flight : InFlight 𝒱 (fun i x v v' => T i x v v' ∨ (Witnessed F es i ∧ T' i x v v')) w
  progs : ∀ i, (w.procs i).prog.Gated (𝒱.rules (T i))
    (fun d q => F i d ∧ q.Obeys (𝒱.rules (T' i))) ∨
    (Witnessed F es i ∧ (w.procs i).prog.Obeys (𝒱.rules (T' i)))

namespace Vouched

variable {𝒱 : View D W X V} {T T' : Pid → X → V → V → Prop} {F : Pid → D → Prop}
  {es : List (World.Event Pid E D W K M S ε α)} {w w' : World Pid E D W K M S ε α} {i : Pid}
  {c : Choice E S}

theorem step (h : Vouched 𝒱 T T' F es w) (hs : w.step i c = some w') :
    Vouched 𝒱 T T' F (⟨w, i, c, w'⟩ :: es) w' := by
  obtain ⟨hstep, -, hsame⟩ := World.step_spec hs
  have hmono : ∀ j, Witnessed F es j → Witnessed F (⟨w, i, c, w'⟩ :: es) j :=
    fun j ⟨e, he, hpid, hF⟩ => ⟨e, List.mem_cons_of_mem _ he, hpid, hF⟩
  refine ⟨?_, fun j => ?_⟩
  · refine (h.flight.step hs fun β s k hprog => ?_).mono fun j x v v' =>
      Or.imp_right fun hT => ⟨hmono j hT.1, hT.2⟩
    have hsound := View.sound_applyAll h.flight.sound (w.procs i).writes
    rcases h.progs i with hgated | ⟨hwit, hobeys⟩
    · obtain ⟨hstmt, hpool⟩ := Proc.gated_stmt hgated (s := s) (k := k)
      refine View.Lawful.mono (fun x v v' => Or.inl) ?_
      exact hprog.elim (fun hp => hstmt hp _ _ _ hsound) fun hp => hpool hp _ _ _ hsound
    · refine View.Lawful.mono (fun x v v' hT => Or.inr ⟨hwit, hT⟩) ?_
      rcases hprog with hprog | hprog <;> rw [hprog] at hobeys <;> exact hobeys.1 _ _ _ hsound
  · by_cases hj : j = i
    · subst hj
      rcases h.progs j with hgated | ⟨hwit, hobeys⟩
      · rcases Proc.gated_step hstep hgated with hgated' | ⟨⟨hF, hobeys⟩, -⟩
        · exact Or.inl hgated'
        · exact Or.inr ⟨⟨_, List.mem_cons_self, rfl, hF⟩, hobeys⟩
      · exact Or.inr ⟨hmono j hwit, Proc.obeys_step hstep hobeys⟩
    · rw [hsame j hj]
      exact (h.progs j).imp_right fun hp => ⟨hmono j hp.1, hp.2⟩

/-- **Nothing changes without a gate.** -/
theorem trace {C : List (World.Event Pid E D W K M S ε α) → World.Event Pid E D W K M S ε α → Prop}
    (hnone : ∀ i, (w.procs i).tx = none) (hsound : 𝒱.sound w.sh.db)
    (hprogs : ∀ i, (w.procs i).prog.Gated (𝒱.rules (T i))
      fun d q => F i d ∧ q.Obeys (𝒱.rules (T' i)))
    (ht : World.Trace C w es w') : Vouched 𝒱 T T' F es w' := by
  induction ht with
  | start => exact ⟨.start hnone hsound, fun i => Or.inl (hprogs i)⟩
  | step i c _ hs _ ih => exact ih.step hs

end Vouched

end ReadCommitted
