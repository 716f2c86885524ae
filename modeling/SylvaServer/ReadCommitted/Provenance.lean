/-
  What a write rests on.

  A program looks at the tables before it writes, and what it finds there is what entitles it to its
  writes; the tables may be different by the time it commits. A fact is something a query on the
  pool can find (`Evidence.finds`). The facts that are known, and the rows that the transaction has
  by then, decide which writes may be made (`Evidence.may`). `p.Cites V known` says that `p`,
  knowing the facts of `known`, makes only such writes, where each query on the pool adds the facts
  that hold of the tables it saw.

  Proved: the rules of `Cites` along a `do` block, what it says about one step (`Proc.cites_step`),
  and that in every run each write that is committed is one its program may make with the facts it
  knew from the start or found at an earlier step of the run, and with what it commits beside
  (`Rested.trace`).
-/
import SylvaServer.ReadCommitted.Gates

namespace ReadCommitted

variable {E D W K M S F ε ε' α β : Type}

/-- What a write may rest on: facts, and rows that the transaction has written. -/
structure Grounds (F W : Type) where
  facts : F → Prop
  rows : W → Prop

/-- Facts alone. -/
def Grounds.of (known : F → Prop) : Grounds F W := ⟨known, fun _ => False⟩

structure Grounds.Within (g g' : Grounds F W) : Prop where
  facts : ∀ f, g.facts f → g'.facts f
  rows : ∀ w, g.rows w → g'.rows w

theorem Grounds.of_within {known : F → Prop} {g : Grounds F W} (h : ∀ f, known f → g.facts f) :
    (Grounds.of known).Within g := ⟨h, fun _ => False.elim⟩

/-- Facts about the tables, and the writes that the grounds allow. -/
structure Evidence (F E D W : Type) where
  finds : F → E → D → Prop
  may : Grounds F W → W → Prop
  mono : ∀ {g g' : Grounds F W} {w : W}, g.Within g' → may g w → may g' w

namespace Prog

/-- What is known allows each write. -/
abbrev resting (V : Evidence F E D W) (known : F → Prop) : Rules E D W K M S where
  begin := True
  stmt s := ∀ env m d, ∀ w ∈ (s env m d).writes, V.may (.of known) w
  pool s := ∀ env m d, ∀ w ∈ (s env m d).writes, V.may (.of known) w
  mem _ := True

variable {V : Evidence F E D W} {g g' : Grounds F W} {known known' : F → Prop}

theorem Obeys.rests {p : Prog E D W K M S ε α} (h : p.Obeys (resting V known))
    (hmore : ∀ f, known f → known' f) : p.Obeys (resting V known') :=
  h.mono (R := resting V known) id
    (fun _ hs env m d w hw => V.mono (Grounds.of_within hmore) (hs env m d w hw))
    (fun _ hs env m d w hw => V.mono (Grounds.of_within hmore) (hs env m d w hw)) fun _ => id

/-- On the grounds `g` the program writes what it may by then. A statement of the transaction adds
    its rows to the grounds, until the transaction ends or fails; a query on the pool adds what it
    finds. -/
def CitesOn (V : Evidence F E D W) : Grounds F W → Prog E D W K M S ε α → Prop
  | _, ret _ => True
  | g, begin k => ∀ r, CitesOn V (.of g.facts) (k r)
  | g, stmt s k => (∀ env m d, ∀ w ∈ (s env m d).writes, V.may g w) ∧
      (∀ e, CitesOn V (.of g.facts) (k (.error e))) ∧
      ∀ env m d b, (s env m d).result = .ok b →
        CitesOn V ⟨g.facts, fun w => g.rows w ∨ w ∈ (s env m d).writes⟩ (k (.ok b))
  | g, commit k => ∀ r, CitesOn V (.of g.facts) (k r)
  | g, pool s k =>
      ((∀ env m d, ∀ w ∈ (s env m d).writes, V.may (.of g.facts) w) ∧
          ∀ r, CitesOn V (.of g.facts) (k r)) ∨
        (Reads s ∧ (∀ e, CitesOn V (.of g.facts) (k (.error e))) ∧ ∀ env m d b,
          (s env m d).result = .ok b →
            CitesOn V (.of fun f => g.facts f ∨ V.finds f env d) (k (.ok b)))
  | g, mem _ k => ∀ b, CitesOn V g (k b)

/-- Knowing the facts of `known`, the program writes what it may by then. -/
def Cites (V : Evidence F E D W) (known : F → Prop) (p : Prog E D W K M S ε α) : Prop :=
  p.CitesOn V (.of known)

theorem CitesOn.cites {p : Prog E D W K M S ε α} (h : p.CitesOn V (.of known)) :
    p.Cites V known := h

/-- There are more grounds. -/
theorem CitesOn.mono {p : Prog E D W K M S ε α} (hp : p.CitesOn V g) (h : g.Within g') :
    p.CitesOn V g' := by
  induction p generalizing g g' with
  | ret r => trivial
  | begin k ih => exact fun r => ih r (hp r) (Grounds.of_within h.facts)
  | stmt s k ih =>
    refine ⟨fun env m d w hw => V.mono h (hp.1 env m d w hw),
      fun e => ih _ (hp.2.1 e) (Grounds.of_within h.facts), fun env m d b hb => ?_⟩
    exact ih _ (hp.2.2 env m d b hb) ⟨h.facts, fun w => Or.imp_left (h.rows w)⟩
  | commit k ih => exact fun r => ih r (hp r) (Grounds.of_within h.facts)
  | pool s k ih =>
    have hfacts : (Grounds.of g.facts).Within (Grounds.of g'.facts : Grounds F W) :=
      Grounds.of_within h.facts
    rcases hp with ⟨hwrites, hall⟩ | ⟨hread, herror, hfound⟩
    · exact Or.inl ⟨fun env m d w hw => V.mono hfacts (hwrites env m d w hw),
        fun r => ih r (hall r) hfacts⟩
    · refine Or.inr ⟨hread, fun e => ih _ (herror e) hfacts, fun env m d b hb => ?_⟩
      exact ih _ (hfound env m d b hb) (Grounds.of_within fun f => Or.imp_left (h.facts f))
  | mem f k ih => exact fun b => ih b (hp b) h

/-- More is known. -/
theorem Cites.mono {p : Prog E D W K M S ε α} (hp : p.Cites V known)
    (h : ∀ f, known f → known' f) : p.Cites V known' := CitesOn.mono hp (Grounds.of_within h)

/-- A program that needs no rows. -/
theorem Cites.on {p : Prog E D W K M S ε α} (hp : p.Cites V g.facts) : p.CitesOn V g :=
  CitesOn.mono hp (Grounds.of_within fun _ => id)

/-- The first part looks for nothing. -/
theorem cites_bind {p : Prog E D W K M S ε β} {f : β → Prog E D W K M S ε α}
    (hp : p.Obeys (resting V known)) (hf : ∀ a, (f a).Cites V known) :
    (p >>= f).Cites V known := by
  have hon : ∀ rows : W → Prop, (p >>= f).CitesOn V ⟨known, rows⟩ := by
    induction p with
    | ret r =>
      cases r with
      | ok a => exact fun rows => Cites.on (hf a)
      | error e => exact fun _ => trivial
    | begin k ih => exact fun rows r => ih r (hp.2 r) _
    | stmt s k ih =>
      refine fun rows => ⟨fun env m d w hw => ?_, fun e => ih _ (hp.2 _) _,
        fun env m d b hb => ih _ (hp.2 _) _⟩
      exact V.mono (Grounds.of_within fun _ => id) (hp.1 env m d w hw)
    | commit k ih => exact fun rows r => ih r (hp r) _
    | pool s k ih => exact fun rows => Or.inl ⟨hp.1, fun r => ih r (hp.2 r) _⟩
    | mem g k ih => exact fun rows b => ih b (hp.2 b) rows
  exact hon _

/-- A program that looks for nothing. -/
theorem cites_of_obeys {p : Prog E D W K M S ε α} (h : p.Obeys (resting V known)) :
    p.Cites V known := by
  have hon : ∀ rows : W → Prop, p.CitesOn V ⟨known, rows⟩ := by
    induction p with
    | ret r => exact fun _ => trivial
    | begin k ih => exact fun _ r => ih r (h.2 r) _
    | stmt s k ih =>
      refine fun rows => ⟨fun env m d w hw => ?_, fun e => ih _ (h.2 _) _,
        fun env m d b hb => ih _ (h.2 _) _⟩
      exact V.mono (Grounds.of_within fun _ => id) (h.1 env m d w hw)
    | commit k ih => exact fun _ r => ih r (h r) _
    | pool s k ih => exact fun _ => Or.inl ⟨h.1, fun r => ih r (h.2 r) _⟩
    | mem g k ih => exact fun rows b => ih b (h.2 b) rows
  exact hon _

/-- Each branch knows that it was taken. -/
theorem cites_branch {c : Prop} [Decidable c] {p q : Prog E D W K M S ε α}
    (hp : c → p.Cites V known) (hq : ¬c → q.Cites V known) :
    (if c then p else q).Cites V known := by
  split
  · next h => exact hp h
  · next h => exact hq h

theorem cites_ite {c : Prop} [Decidable c] {p q : Prog E D W K M S ε α} (hp : p.Cites V known)
    (hq : q.Cites V known) : (if c then p else q).Cites V known :=
  cites_branch (fun _ => hp) fun _ => hq

theorem cites_ret (r : Except ε α) : (ret r : Prog E D W K M S ε α).Cites V known := trivial

/-- A result already computed. -/
theorem obeys_given {R : Rules E D W K M S} {r : Except ε β} {f : β → Prog E D W K M S ε α}
    (hf : ∀ a, r = .ok a → (f a).Obeys R) : (ofExcept r >>= f).Obeys R := by
  cases r with
  | ok a => exact hf a rfl
  | error e => exact obeys_ret (.error e)

theorem cites_given {r : Except ε β} {f : β → Prog E D W K M S ε α}
    (hf : ∀ a, r = .ok a → (f a).Cites V known) : (ofExcept r >>= f).Cites V known := by
  cases r with
  | ok a => exact hf a rfl
  | error e => exact cites_ret (.error e)

/-- The last part looks for nothing, whatever is known by then. -/
theorem cites_followed {p : Prog E D W K M S ε β} {f : β → Prog E D W K M S ε α}
    (hp : p.Cites V known) (hf : ∀ a, (f a).Obeys (resting V known)) :
    (p >>= f).Cites V known := by
  have hon : ∀ g : Grounds F W, p.CitesOn V g → (∀ x, known x → g.facts x) →
      (p >>= f).CitesOn V g := by
    clear hp
    induction p with
    | ret r =>
      intro g _ hmore
      cases r with
      | ok a => exact Cites.on (cites_of_obeys ((hf a).rests hmore))
      | error e => trivial
    | begin k ih => exact fun g hp hmore r => ih r _ (hp r) hmore
    | stmt s k ih =>
      exact fun g hp hmore => ⟨hp.1, fun e => ih _ _ (hp.2.1 e) hmore,
        fun env m d b hb => ih _ _ (hp.2.2 env m d b hb) hmore⟩
    | commit k ih => exact fun g hp hmore r => ih r _ (hp r) hmore
    | pool s k ih =>
      intro g hp hmore
      rcases hp with ⟨hwrites, hall⟩ | ⟨hread, herror, hfound⟩
      · exact Or.inl ⟨hwrites, fun r => ih r _ (hall r) hmore⟩
      · exact Or.inr ⟨hread, fun e => ih _ _ (herror e) hmore,
          fun env m d b hb => ih _ _ (hfound env m d b hb) fun x hx => Or.inl (hmore x hx)⟩
    | mem h k ih => exact fun g hp hmore b => ih b g (hp b) hmore
  exact hon _ hp fun _ => id

/-- A statement of the transaction, its errors mapped, and what is done with the result. -/
theorem citesOn_statement {s : Sql E D W K M S β} (h : S → ε) {f : β → Prog E D W K M S ε α}
    (hwrites : ∀ env m d, ∀ w ∈ (s env m d).writes, V.may g w)
    (hf : ∀ env m d b, (s env m d).result = .ok b →
      (f b).CitesOn V ⟨g.facts, fun w => g.rows w ∨ w ∈ (s env m d).writes⟩) :
    ((inTx s).mapError h >>= f).CitesOn V g := ⟨hwrites, fun _ => trivial, hf⟩

/-- A look at the environment inside the transaction. -/
theorem citesOn_ask {r : E → β} (h : ε' → ε) {f : β → Prog E D W K M S ε α}
    (hf : ∀ b, (f b).CitesOn V g) : ((ask r).mapError h >>= f).CitesOn V g := hf

theorem cites_statement {s : Sql E D W K M S β} (g : S → ε) {f : β → Prog E D W K M S ε α}
    (hwrites : ∀ env m d, ∀ w ∈ (s env m d).writes, V.may (.of known) w)
    (h : ∀ env m d b, (s env m d).result = .ok b → (f b).Cites V known) :
    ((inTx s).mapError g >>= f).Cites V known :=
  citesOn_statement g hwrites fun env m d b hb => Cites.on (h env m d b hb)

/-- A look on the pool. What it finds is known from then on. -/
theorem cites_pool {s : Sql E D W K M S β} {k : Except S β → Prog E D W K M S ε α} (hread : Reads s)
    (herror : ∀ e, (k (.error e)).Cites V known)
    (h : ∀ env m d b, (s env m d).result = .ok b →
      (k (.ok b)).Cites V fun f => known f ∨ V.finds f env d) : (pool s k).Cites V known :=
  Or.inr ⟨hread, herror, h⟩

theorem cites_query {s : Sql E D W K M S β} (g : S → ε) {f : β → Prog E D W K M S ε α}
    (hread : Reads s)
    (h : ∀ env m d b, (s env m d).result = .ok b →
      (f b).Cites V fun x => known x ∨ V.finds x env d) :
    ((onPool s).mapError g >>= f).Cites V known := cites_pool hread (fun _ => cites_ret _) h

end Prog

namespace Proc

variable [Store D W K] {V : Evidence F E D W} {known : F → Prop}

/-- The grounds of a program: what is known, and the rows its transaction has. -/
def grounds (p : Proc E D W K M S ε α) (known : F → Prop) : Grounds F W :=
  ⟨known, fun w => w ∈ p.writes⟩

omit [Store D W K] in
theorem grounds_within (p : Proc E D W K M S ε α) {known' : F → Prop}
    (h : ∀ f, known f → known' f) : (p.grounds known).Within (p.grounds known') := ⟨h, fun _ => id⟩

omit [Store D W K] in
/-- A program whose transaction has no rows. -/
theorem cites_ended {p : Proc E D W K M S ε α} {known' : F → Prop}
    (hp : p.prog.CitesOn V (.of known)) (hmore : ∀ f, known f → known' f) (hnone : p.writes = []) :
    p.prog.CitesOn V (p.grounds known') ∧ ∀ w ∈ p.writes, V.may (p.grounds known') w := by
  refine ⟨hp.mono (Grounds.of_within hmore), fun w hw => ?_⟩
  rw [hnone] at hw
  exact absurd hw List.not_mem_nil

/-- **One step**: what is known grows by what the tables show, and the writes rest on it. -/
theorem cites_step {c : Choice E S} {p p' : Proc E D W K M S ε α} {sh sh' : Shared D M}
    (h : p.step c sh = some (p', sh')) (hp : p.prog.CitesOn V (p.grounds known))
    (hwrites : ∀ w ∈ p.writes, V.may (p.grounds known) w) :
    p'.prog.CitesOn V (p'.grounds fun f => known f ∨ V.finds f c.env sh.db) ∧
      ∀ w ∈ p'.writes, V.may (p'.grounds fun f => known f ∨ V.finds f c.env sh.db) w := by
  have hmore : ∀ f, known f → known f ∨ V.finds f c.env sh.db := fun f => Or.inl
  obtain ⟨q, tx⟩ := p
  cases q with
  | ret r =>
    cases tx <;> simp only [step, Option.some.injEq, Prod.mk.injEq, reduceCtorEq] at h
    obtain ⟨rfl, -⟩ := h
    exact cites_ended trivial hmore rfl
  | begin k =>
    cases tx <;> simp only [step, reduceCtorEq] at h
    split at h <;> simp only [Option.some.injEq, Prod.mk.injEq] at h <;> obtain ⟨rfl, -⟩ := h <;>
      exact cites_ended (hp _) hmore rfl
  | stmt s k =>
    obtain ⟨hallowed, herror, hok⟩ := hp
    rcases tx with _ | (⟨ws, ls⟩ | _)
    · simp [step] at h
    · simp only [step] at h
      split at h
      · simp only [Option.some.injEq, Prod.mk.injEq] at h
        obtain ⟨rfl, -⟩ := h
        exact cites_ended (herror _) hmore rfl
      · split at h <;> rename_i hr <;> simp only [Option.some.injEq, Prod.mk.injEq] at h <;>
          obtain ⟨rfl, -⟩ := h
        · refine ⟨(hok _ _ _ _ hr).mono ⟨hmore, fun w hw => List.mem_append.mpr hw⟩, fun w hw => ?_⟩
          have hbefore : Grounds.Within (F := F) ⟨known, fun w => w ∈ ws⟩
              ⟨fun f => known f ∨ V.finds f c.env sh.db,
                fun w => w ∈ ws ++ (s c.env sh.mem (applyAll sh.db ws)).writes⟩ :=
            ⟨hmore, fun w => List.mem_append_left _⟩
          rcases List.mem_append.mp hw with hw | hw
          · exact V.mono hbefore (hwrites w hw)
          · exact V.mono hbefore (hallowed _ _ _ w hw)
        · exact cites_ended (herror _) hmore rfl
    · simp only [step] at h
      split at h <;> simp only [Option.some.injEq, Prod.mk.injEq, reduceCtorEq] at h
      obtain ⟨rfl, -⟩ := h
      exact cites_ended (herror _) hmore rfl
  | commit k =>
    rcases tx with _ | (⟨ws, ls⟩ | _) <;> simp only [step, reduceCtorEq] at h <;>
      split at h <;> simp only [Option.some.injEq, Prod.mk.injEq] at h <;> obtain ⟨rfl, -⟩ := h <;>
      exact cites_ended (hp _) hmore rfl
  | pool s k =>
    cases tx <;> simp only [step, reduceCtorEq] at h
    split at h
    · simp only [Option.some.injEq, Prod.mk.injEq] at h
      obtain ⟨rfl, -⟩ := h
      rcases hp with ⟨-, hall⟩ | ⟨-, herror, -⟩
      · exact cites_ended (hall _) hmore rfl
      · exact cites_ended (herror _) hmore rfl
    split at h <;> rename_i hr
    · rcases hp with ⟨hallowed, hall⟩ | ⟨hread, -, hfound⟩
      · split at h <;> simp only [Option.some.injEq, Prod.mk.injEq] at h <;> obtain ⟨rfl, -⟩ := h
        · exact cites_ended (hall _) hmore rfl
        · -- its rows wait for the commit
          refine ⟨fun r => (hall _).mono (Grounds.of_within hmore), fun w hw => ?_⟩
          exact V.mono (Grounds.of_within hmore) (hallowed _ _ _ w hw)
      · obtain ⟨hnone, hfree⟩ := hread c.env sh.mem sh.db
        simp only [hnone, hfree, List.isEmpty_nil, Bool.and_self, if_true, Option.some.injEq,
          Prod.mk.injEq] at h
        obtain ⟨rfl, -⟩ := h
        exact cites_ended (hfound _ _ _ _ hr) (fun _ => id) rfl
    · simp only [Option.some.injEq, Prod.mk.injEq] at h
      obtain ⟨rfl, -⟩ := h
      rcases hp with ⟨-, hall⟩ | ⟨-, herror, -⟩
      · exact cites_ended (hall _) hmore rfl
      · exact cites_ended (herror _) hmore rfl
  | mem f k =>
    simp only [step, Option.some.injEq, Prod.mk.injEq] at h
    obtain ⟨rfl, -⟩ := h
    have hwithin := grounds_within ⟨.mem f k, tx⟩ hmore
    exact ⟨(hp _).mono hwithin, fun w hw => V.mono hwithin (hwrites w hw)⟩

end Proc

/-! ## Runs -/

variable {Pid : Type} [Store D W K] [DecidableEq Pid] [Fintype Pid] [DecidableEq K]

/-- Program `i` was given the fact, or found it at some step of the run. -/
def Learnt (given : Pid → F → Prop) (V : Pid → Evidence F E D W)
    (es : List (World.Event Pid E D W K M S ε α)) (i : Pid) (f : F) : Prop :=
  given i f ∨ ∃ e ∈ es, e.pid = i ∧ (V i).finds f e.choice.env e.before.sh.db

/-- What holds at every moment of a run. -/
structure Rested (given : Pid → F → Prop) (V : Pid → Evidence F E D W)
    (es : List (World.Event Pid E D W K M S ε α)) (w : World Pid E D W K M S ε α) : Prop where
  progs : ∀ i, (w.procs i).prog.CitesOn (V i) ((w.procs i).grounds (Learnt given V es i))
  writes : ∀ i, ∀ x ∈ (w.procs i).writes, (V i).may ((w.procs i).grounds (Learnt given V es i)) x
  /-- What a step commits rests on facts and on what it commits beside. -/
  commits : ∀ later e earlier, es = later ++ e :: earlier →
    ∀ x ∈ (e.before.procs e.pid).committed e.choice, (V e.pid).may
      ⟨Learnt given V earlier e.pid, fun y => y ∈ (e.before.procs e.pid).committed e.choice⟩ x

namespace Rested

variable {given : Pid → F → Prop} {V : Pid → Evidence F E D W}
  {es : List (World.Event Pid E D W K M S ε α)} {w w' : World Pid E D W K M S ε α} {i : Pid}
  {c : Choice E S}

theorem step (h : Rested given V es w) (hs : w.step i c = some w') :
    Rested given V (⟨w, i, c, w'⟩ :: es) w' := by
  obtain ⟨hstep, -, hsame⟩ := World.step_spec hs
  have hlater : ∀ j f, Learnt given V es j f → Learnt given V (⟨w, i, c, w'⟩ :: es) j f := by
    intro j f hf
    exact hf.imp_right fun ⟨e, he, hfound⟩ => ⟨e, List.mem_cons_of_mem _ he, hfound⟩
  have hfound : ∀ f, Learnt given V es i f ∨ (V i).finds f c.env w.sh.db →
      Learnt given V (⟨w, i, c, w'⟩ :: es) i f := by
    intro f hf
    rcases hf with hf | hf
    · exact hlater i f hf
    · exact Or.inr ⟨_, List.mem_cons_self, rfl, hf⟩
  obtain ⟨hcites, hwrites⟩ := Proc.cites_step hstep (h.progs i) (h.writes i)
  refine ⟨fun j => ?_, fun j x hx => ?_, fun later e earlier hes x hx => ?_⟩
  · by_cases hj : j = i
    · rw [hj]
      exact hcites.mono (Proc.grounds_within _ hfound)
    · rw [hsame j hj]
      exact (h.progs j).mono (Proc.grounds_within _ (hlater j))
  · by_cases hj : j = i
    · rw [hj] at hx ⊢
      exact (V i).mono (Proc.grounds_within _ hfound) (hwrites x hx)
    · rw [hsame j hj] at hx ⊢
      exact (V j).mono (Proc.grounds_within _ (hlater j)) (h.writes j x hx)
  · cases later with
    | nil =>
      obtain ⟨rfl, rfl⟩ := List.cons.inj hes
      rcases Proc.committed_cases hstep with ⟨hnone, -⟩ | ⟨hall, -⟩
      · rw [hnone] at hx
        exact absurd hx List.not_mem_nil
      · rw [hall] at hx ⊢
        exact h.writes i x hx
    | cons e' later => exact h.commits later e earlier (List.cons.inj hes).2 x hx

/-- **Every committed write rests on what its program knew**, and on what it commits beside. -/
theorem trace {C : List (World.Event Pid E D W K M S ε α) → World.Event Pid E D W K M S ε α → Prop}
    (hnone : ∀ i, (w.procs i).tx = none) (hprogs : ∀ i, (w.procs i).prog.Cites (V i) (given i))
    (ht : World.Trace C w es w') : Rested given V es w' := by
  induction ht with
  | start =>
    have hempty : ∀ i, (w.procs i).writes = [] := by
      intro i
      unfold Proc.writes
      rw [hnone i]
    refine ⟨fun i => ?_, fun i => ?_, fun later e earlier hnil => absurd hnil (by simp)⟩
    · exact (Proc.cites_ended (hprogs i) (fun f hf => Or.inl hf) (hempty i)).1
    · exact (Proc.cites_ended (hprogs i) (fun f hf => Or.inl hf) (hempty i)).2
  | step i c _ hs _ ih => exact ih.step hs

end Rested

end ReadCommitted
