/-
  Statements with demands.

  Documentation often says in which states an operation is meant to be called where the statement
  itself does not look. A `Catalog` lists the statements of a group of programs, each with what
  it demands of the tables it sees. A step is `Heeded` when its statement finds its demand
  met.

  Proved: if statements whose demands are met follow `T`, then in every run in which a
  transaction commits only after heeded steps (`CommitsOnly`) each commit follows `T`
  (`Followed.cell`).
-/
import SylvaServer.ReadCommitted.Versions

namespace ReadCommitted

variable {E D W K M S ε α X V Pid : Type} [Store D W K] [DecidableEq Pid] [Fintype Pid]
  [DecidableEq K]

/-- The step commits a transaction. -/
def World.Event.Commits (e : World.Event Pid E D W K M S ε α) : Prop :=
  ∃ k, (e.before.procs e.pid).prog = .commit k ∧ e.choice.fault = none

/-- A transaction is committed only if all steps of its program met `G`. -/
def CommitsOnly (G : World.Event Pid E D W K M S ε α → Prop)
    (es : List (World.Event Pid E D W K M S ε α)) (e : World.Event Pid E D W K M S ε α) : Prop :=
  e.Commits → ∀ e' ∈ es, e'.pid = e.pid → G e'

/-- What is in flight follows `T`, provided that the steps that wrote it met `G`. -/
def Provisional (𝒱 : View D W X V) (T : X → V → V → Prop)
    (G : World.Event Pid E D W K M S ε α → Prop) (es : List (World.Event Pid E D W K M S ε α))
    (w : World Pid E D W K M S ε α) : Prop :=
  InFlight 𝒱 (fun i x v v' => (∀ e ∈ es, e.pid = i → G e) → T x v v') w

namespace Provisional

variable {𝒱 : View D W X V} {T : X → V → V → Prop} {G : World.Event Pid E D W K M S ε α → Prop}
  {es : List (World.Event Pid E D W K M S ε α)} {w w' : World Pid E D W K M S ε α} {i : Pid}
  {c : Choice E S}

/-- A step whose statement, if the step meets `G`, follows `T` on the tables it sees. -/
theorem step (h : Provisional 𝒱 T G es w) (hs : w.step i c = some w')
    (hstmt : G ⟨w, i, c, w'⟩ → ∀ (β : Type) (s : Sql E D W K M S β) k,
      (w.procs i).prog = .stmt s k ∨ (w.procs i).prog = .pool s k →
      𝒱.Lawful T (applyAll w.sh.db (w.procs i).writes)
        (s c.env w.sh.mem (applyAll w.sh.db (w.procs i).writes)).writes) :
    Provisional 𝒱 T G (⟨w, i, c, w'⟩ :: es) w' := by
  refine (InFlight.mono (fun j x v v' hT hall => ?_) h).step hs fun β s k hprog => ?_
  · exact hT fun e he => hall e (List.mem_cons_of_mem _ he)
  · by_cases hG : G ⟨w, i, c, w'⟩
    · exact (hstmt hG β s k hprog).mono fun x v v' hT _ => hT
    · exact View.lawful_true fun x v v' hall => absurd (hall _ List.mem_cons_self rfl) hG

/-- What one step makes of a cell. -/
theorem cell (h : Provisional 𝒱 T G es w) (hs : w.step i c = some w')
    (hC : CommitsOnly G es ⟨w, i, c, w'⟩) (x : X) :
    Relation.ReflTransGen (T x) (𝒱.look w.sh.db x) (𝒱.look w'.sh.db x) := by
  rcases Proc.committed_cases (World.step_spec hs).1 with ⟨-, hdb⟩ | ⟨-, -, -, -, k, hprog, hfault⟩
  · rw [hdb]
  · exact Relation.ReflTransGen.mono (fun _ _ hT => hT (hC ⟨k, hprog, hfault⟩)) _ _
      (InFlight.cell h hs x)

end Provisional

/-! ## Catalogs -/

/-- Statements and what each of them demands of the environment and of the tables it sees. -/
abbrev Catalog (E D W K M S : Type) : Type 1 :=
  (β : Type) → Sql E D W K M S β → (E → D → Prop) → Prop

/-- Every statement is in the catalog. -/
abbrev Prog.Rules.listed (𝒞 : Catalog E D W K M S) : Prog.Rules E D W K M S where
  begin := True
  stmt s := ∃ demand, 𝒞 _ s demand
  pool s := ∃ demand, 𝒞 _ s demand
  mem _ := True

/-- The statement of this step, if there is one, finds its demand met. -/
def Heeded (𝒞 : Catalog E D W K M S) (e : World.Event Pid E D W K M S ε α) : Prop :=
  ∀ (β : Type) (s : Sql E D W K M S β) k,
    (e.before.procs e.pid).prog = .stmt s k ∨ (e.before.procs e.pid).prog = .pool s k →
    ∃ demand, 𝒞 β s demand ∧ demand e.choice.env (e.before.seen e.pid)

/-- Where the demand of a statement is met, it follows `T`. -/
def Catalog.Follows (𝒞 : Catalog E D W K M S) (𝒱 : View D W X V) (T : X → V → V → Prop) : Prop :=
  ∀ (β : Type) (s : Sql E D W K M S β) demand, 𝒞 β s demand → ∀ env m d, 𝒱.sound d → demand env d →
    𝒱.Lawful T d (s env m d).writes

/-- What holds at every moment of a run of listed programs. -/
structure Followed (𝒞 : Catalog E D W K M S) (𝒱 : View D W X V) (T : X → V → V → Prop)
    (es : List (World.Event Pid E D W K M S ε α)) (w : World Pid E D W K M S ε α) : Prop where
  provisional : Provisional 𝒱 T (Heeded 𝒞) es w
  rules : ∀ i, (w.procs i).prog.Obeys (.listed 𝒞)

namespace Followed

variable {𝒞 : Catalog E D W K M S} {𝒱 : View D W X V} {T : X → V → V → Prop}
  {es : List (World.Event Pid E D W K M S ε α)} {w w' : World Pid E D W K M S ε α} {i : Pid}
  {c : Choice E S}

theorem step (hfollows : 𝒞.Follows 𝒱 T) (h : Followed 𝒞 𝒱 T es w) (hs : w.step i c = some w') :
    Followed 𝒞 𝒱 T (⟨w, i, c, w'⟩ :: es) w' := by
  obtain ⟨hstep, -, hsame⟩ := World.step_spec hs
  refine ⟨h.provisional.step hs fun hheeded β s k hprog => ?_, fun j => ?_⟩
  · obtain ⟨demand, hlisted, hmet⟩ := hheeded β s k hprog
    exact hfollows β s demand hlisted _ _ _ (View.sound_applyAll h.provisional.sound _) hmet
  · by_cases hj : j = i
    · subst hj
      exact Proc.obeys_step hstep (h.rules j)
    · rw [hsame j hj]
      exact h.rules j

/-- **The rule for runs**, whatever the condition on the steps. -/
theorem trace {C : List (World.Event Pid E D W K M S ε α) → World.Event Pid E D W K M S ε α → Prop}
    (hfollows : 𝒞.Follows 𝒱 T) (hnone : ∀ i, (w.procs i).tx = none) (hsound : 𝒱.sound w.sh.db)
    (hprogs : ∀ i, (w.procs i).prog.Obeys (.listed 𝒞)) (ht : World.Trace C w es w') :
    Followed 𝒞 𝒱 T es w' := by
  induction ht with
  | start => exact ⟨.start hnone hsound, hprogs⟩
  | step i c _ hs _ ih => exact ih.step hfollows hs

/-- **A commit after heeded steps follows `T`.** -/
theorem cell (h : Followed 𝒞 𝒱 T es w) (hs : w.step i c = some w')
    (hC : CommitsOnly (Heeded 𝒞) es ⟨w, i, c, w'⟩) (x : X) :
    Relation.ReflTransGen (T x) (𝒱.look w.sh.db x) (𝒱.look w'.sh.db x) := h.provisional.cell hs hC x

/-- Heeded steps may be followed by a commit. -/
theorem commitsOnly (ht : World.Trace (fun _ e => Heeded 𝒞 e) w es w') :
    World.Trace (CommitsOnly (Heeded 𝒞)) w es w' := by
  have hall : ∀ {es w'}, World.Trace (fun _ e => Heeded 𝒞 e) w es w' → ∀ e ∈ es, Heeded 𝒞 e := by
    intro es w' ht e he
    obtain ⟨es', -, -, -, hheeded⟩ := ht.event he
    exact hheeded
  induction ht with
  | start => exact .start
  | step i c ht hs _ ih => exact ih.step i c hs fun _ e he _ => hall ht e he

/-- A transaction of one statement that finds its demand met: three heeded steps. -/
theorem transaction {w₀ w₁ w₂ w₃ : World Pid E D W K M S ε α} {c₁ c₂ c₃ : Choice E S} {β : Type}
    {s : Sql E D W K M S β} {k₁ k₂} {demand : E → D → Prop}
    (ht : World.Trace (fun _ e => Heeded 𝒞 e) w₀ es w) (h₁ : w.step i c₁ = some w₁)
    (h₂ : w₁.step i c₂ = some w₂) (h₃ : w₂.step i c₃ = some w₃)
    (hbegin : (w.procs i).prog = .begin k₁) (hok : c₁.fault = none)
    (hstmt : k₁ (.ok ()) = .stmt s k₂)
    (hend : ∀ r, (∃ k, k₂ r = .commit k) ∨ ∃ x, k₂ r = .ret x) (hlisted : 𝒞 β s demand)
    (hmet : demand c₂.env (w₁.seen i)) :
    World.Trace (fun _ e => Heeded 𝒞 e) w₀
      (⟨w₂, i, c₃, w₃⟩ :: ⟨w₁, i, c₂, w₂⟩ :: ⟨w, i, c₁, w₁⟩ :: es) w₃ := by
  have hprog₁ : (w₁.procs i).prog = .stmt s k₂ := by
    have hstep := (World.step_spec h₁).1
    generalize w.procs i = p at hbegin hstep
    obtain ⟨q, tx⟩ := p
    obtain rfl : q = .begin k₁ := hbegin
    cases tx <;> simp only [Proc.step, hok, Option.some.injEq, Prod.mk.injEq, reduceCtorEq] at hstep
    rw [← hstep.1]
    exact hstmt
  have hprog₂ : ∃ r, (w₂.procs i).prog = k₂ r := by
    have hnext := Proc.next_step (World.step_spec h₂).1
    rw [hprog₁] at hnext
    generalize (w₂.procs i).prog = q at hnext
    cases hnext with
    | stmt r => exact ⟨r, rfl⟩
  refine ((ht.step i c₁ h₁ ?_).step i c₂ h₂ ?_).step i c₃ h₃ ?_
  · intro β s k h
    rw [hbegin] at h
    exact absurd h (by simp)
  · intro β' s' k h
    rw [hprog₁] at h
    obtain ⟨rfl, hs, -⟩ := Prog.stmt.inj (h.resolve_right (by simp))
    obtain rfl := eq_of_heq hs
    exact ⟨demand, hlisted, hmet⟩
  · intro β s k h
    obtain ⟨r, hr⟩ := hprog₂
    rw [hr] at h
    rcases hend r with ⟨k', hk'⟩ | ⟨x, hx⟩
    · rw [hk'] at h
      exact absurd h (by simp)
    · rw [hx] at h
      exact absurd h (by simp)

end Followed

end ReadCommitted
