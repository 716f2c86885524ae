/-
  The versions of the rows of a table, in a run of many programs.

  A `View` is a part of the database read as a map from cells to values: a write sets one cell of
  it or leaves it alone, and all writes of a cell take the same row lock. A list of writes is
  `Lawful` when each of them changes its cell as a relation `T` allows. Statements that are
  lawful on the tables they see stay so until they are committed, whatever the others commit
  meanwhile: row locks keep the cells of two transactions apart.

  Proved: each commit of a run is lawful on the tables of that moment (`InFlight.committed`), so the
  committed values of every cell follow `T` (`Versioned.trace`); and a value that anyone sees comes
  from the start or from a statement (`World.visible_step`).
-/
import SylvaServer.ReadCommitted.World
import Mathlib.Logic.Relation

namespace ReadCommitted

/-- A part of the database, read as a map from cells to values. -/
structure View (D W : Type) {K : Type} [Store D W K] (X V : Type) where
  look : D → X → V
  /-- The cell a write sets, and its new value. -/
  target : W → Option (X × V)
  lock : X → K
  /-- What the database guarantees of this part. -/
  sound : D → Prop
  look_target : ∀ (d : D) (w : W) x v, target w = some (x, v) → look (Store.apply d w) x = v
  look_other : ∀ (d : D) (w : W) x, (∀ v, target w ≠ some (x, v)) →
    look (Store.apply d w) x = look d x
  rowLock_target : ∀ (w : W) x v, target w = some (x, v) → Store.rowLock D w = lock x
  sound_apply : ∀ (d : D) (w : W), sound d → sound (Store.apply d w)

namespace View

variable {D W K X V : Type} [Store D W K] (𝒱 : View D W X V)

/-- One of the writes sets the cell. -/
def Touches (ws : List W) (x : X) : Prop := ∃ w ∈ ws, ∃ v, 𝒱.target w = some (x, v)

/-- Each write changes its cell as `T` allows, one write after the other. -/
def Lawful (T : X → V → V → Prop) : D → List W → Prop
  | _, [] => True
  | d, w :: ws => (∀ x v, 𝒱.target w = some (x, v) → T x (𝒱.look d x) v) ∧
      Lawful T (Store.apply d w) ws

variable {𝒱} {T T' : X → V → V → Prop} {d d' : D} {ws ws' : List W} {x : X}

theorem not_touches_cons {w : W} (h : ¬ 𝒱.Touches (w :: ws) x) :
    (∀ v, 𝒱.target w ≠ some (x, v)) ∧ ¬ 𝒱.Touches ws x :=
  ⟨fun v hv => h ⟨w, by simp, v, hv⟩, fun ⟨u, hu, v, hv⟩ => h ⟨u, by simp [hu], v, hv⟩⟩

theorem look_of_not_touches (h : ¬ 𝒱.Touches ws x) : 𝒱.look (applyAll d ws) x = 𝒱.look d x := by
  induction ws generalizing d with
  | nil => rfl
  | cons w ws ih =>
    obtain ⟨hw, hws⟩ := not_touches_cons h
    rw [applyAll_cons, ih hws, 𝒱.look_other d w x hw]

theorem look_apply_congr (w : W) (h : 𝒱.look d x = 𝒱.look d' x) :
    𝒱.look (Store.apply d w) x = 𝒱.look (Store.apply d' w) x := by
  by_cases hw : ∃ v, 𝒱.target w = some (x, v)
  · obtain ⟨v, hv⟩ := hw
    rw [𝒱.look_target d w x v hv, 𝒱.look_target d' w x v hv]
  · have hne : ∀ v, 𝒱.target w ≠ some (x, v) := fun v hv => hw ⟨v, hv⟩
    rw [𝒱.look_other d w x hne, 𝒱.look_other d' w x hne, h]

/-- A cell that is written has the value of its last write. -/
theorem look_of_touches (h : 𝒱.Touches ws x) :
    𝒱.look (applyAll d ws) x = 𝒱.look (applyAll d' ws) x := by
  induction ws generalizing d d' with
  | nil =>
    obtain ⟨w, hw, -⟩ := h
    exact absurd hw (by simp)
  | cons w ws ih =>
    rw [applyAll_cons, applyAll_cons]
    by_cases hws : 𝒱.Touches ws x
    · exact ih hws
    · rw [look_of_not_touches hws, look_of_not_touches hws]
      obtain ⟨u, hu, v, hv⟩ := h
      rcases List.mem_cons.mp hu with rfl | hu
      · rw [𝒱.look_target d u x v hv, 𝒱.look_target d' u x v hv]
      · exact absurd ⟨u, hu, v, hv⟩ hws

/-- A cell after some writes: its value of before, or a value that one of them sets. -/
theorem look_applyAll_cases (d : D) (ws : List W) (x : X) :
    𝒱.look (applyAll d ws) x = 𝒱.look d x ∨
      ∃ u ∈ ws, 𝒱.target u = some (x, 𝒱.look (applyAll d ws) x) := by
  induction ws generalizing d with
  | nil => exact Or.inl rfl
  | cons w ws ih =>
    rw [applyAll_cons]
    rcases ih (Store.apply d w) with hold | ⟨u, hu, htarget⟩
    · by_cases hw : ∃ v, 𝒱.target w = some (x, v)
      · obtain ⟨v, hv⟩ := hw
        refine Or.inr ⟨w, List.mem_cons_self, ?_⟩
        rw [hold, 𝒱.look_target d w x v hv]
        exact hv
      · left
        rw [hold, 𝒱.look_other d w x fun v hv => hw ⟨v, hv⟩]
    · exact Or.inr ⟨u, List.mem_cons_of_mem _ hu, htarget⟩

theorem sound_applyAll (h : 𝒱.sound d) (ws : List W) : 𝒱.sound (applyAll d ws) := by
  induction ws generalizing d with
  | nil => exact h
  | cons w ws ih => exact ih (𝒱.sound_apply d w h)

theorem lawful_append : 𝒱.Lawful T d (ws ++ ws') ↔ 𝒱.Lawful T d ws ∧
    𝒱.Lawful T (applyAll d ws) ws' := by
  induction ws generalizing d with
  | nil => simp [Lawful]
  | cons w ws ih => simp only [List.cons_append, Lawful, ih, applyAll_cons, and_assoc]

/-- Only the cells that are written matter. -/
theorem lawful_congr (h : ∀ x, 𝒱.Touches ws x → 𝒱.look d x = 𝒱.look d' x) (hd : 𝒱.Lawful T d ws) :
    𝒱.Lawful T d' ws := by
  induction ws generalizing d d' with
  | nil => trivial
  | cons w ws ih =>
    refine ⟨fun x v hv => ?_, ih (fun x hx => ?_) hd.2⟩
    · rw [← h x ⟨w, by simp, v, hv⟩]
      exact hd.1 x v hv
    · obtain ⟨u, hu, v, hv⟩ := hx
      exact look_apply_congr w (h x ⟨u, by simp [hu], v, hv⟩)

/-- What each write has done. -/
theorem Lawful.of_mem {w : W} {v : V} (h : 𝒱.Lawful T d ws) (hw : w ∈ ws)
    (hv : 𝒱.target w = some (x, v)) : ∃ v₀, T x v₀ v := by
  induction ws generalizing d with
  | nil => exact absurd hw (by simp)
  | cons u us ih =>
    rcases List.mem_cons.mp hw with rfl | hw
    · exact ⟨_, h.1 x v hv⟩
    · exact ih h.2 hw

theorem Lawful.mono (hT : ∀ x v v', T x v v' → T' x v v') (h : 𝒱.Lawful T d ws) :
    𝒱.Lawful T' d ws := by
  induction ws generalizing d with
  | nil => trivial
  | cons w ws ih => exact ⟨fun x v hv => hT _ _ _ (h.1 x v hv), ih h.2⟩

/-- What lawful writes make of a cell. -/
theorem Lawful.cell (h : 𝒱.Lawful T d ws) (x : X) :
    Relation.ReflTransGen (T x) (𝒱.look d x) (𝒱.look (applyAll d ws) x) := by
  induction ws generalizing d with
  | nil => exact .refl
  | cons w ws ih =>
    have hrest := ih h.2
    by_cases hw : ∃ v, 𝒱.target w = some (x, v)
    · obtain ⟨v, hv⟩ := hw
      rw [𝒱.look_target d w x v hv] at hrest
      exact .head (h.1 x v hv) hrest
    · rw [𝒱.look_other d w x fun v hv => hw ⟨v, hv⟩] at hrest
      exact hrest

theorem lawful_true (h : ∀ x v v', T x v v') : 𝒱.Lawful T d ws := by
  induction ws generalizing d with
  | nil => trivial
  | cons w ws ih => exact ⟨fun x v _ => h x _ v, ih⟩

/-- Writes that do not concern this part. -/
theorem lawful_of_elsewhere (h : ∀ w ∈ ws, 𝒱.target w = none) : 𝒱.Lawful T d ws := by
  induction ws generalizing d with
  | nil => trivial
  | cons w ws ih =>
    refine ⟨fun x v hv => ?_, ih fun u hu => h u (by simp [hu])⟩
    rw [h w (by simp)] at hv
    exact absurd hv (by simp)

/-- Every statement is lawful on the tables it sees. -/
abbrev rules {E M S : Type} (𝒱 : View D W X V) (T : X → V → V → Prop) : Prog.Rules E D W K M S where
  begin := True
  stmt s := ∀ env m d, 𝒱.sound d → 𝒱.Lawful T d (s env m d).writes
  pool s := ∀ env m d, 𝒱.sound d → 𝒱.Lawful T d (s env m d).writes
  mem _ := True

end View

/-! ## Runs -/

variable {E D W K M S ε α X V Pid : Type} [Store D W K] [DecidableEq Pid] [Fintype Pid]
  [DecidableEq K]

omit [DecidableEq Pid] [Fintype Pid] [DecidableEq K] in
/-- The cells of two transactions are different. -/
theorem World.Orderly.cells {𝒱 : View D W X V} {w : World Pid E D W K M S ε α} (h : w.Orderly)
    {i j : Pid} (hij : i ≠ j) {x : X} (hi : 𝒱.Touches (w.procs i).writes x) :
    ¬ 𝒱.Touches (w.procs j).writes x := by
  rintro ⟨u, hu, v, hv⟩
  obtain ⟨u', hu', v', hv'⟩ := hi
  refine h.apart hij hu' hu ?_
  rw [𝒱.rowLock_target u x v hv, 𝒱.rowLock_target u' x v' hv']

/-- A value of a cell that some program sees: the committed one, or one in flight. -/
def World.Visible (𝒱 : View D W X V) (w : World Pid E D W K M S ε α) (x : X) (v : V) : Prop :=
  𝒱.look w.sh.db x = v ∨ ∃ i, ∃ u ∈ (w.procs i).writes, 𝒱.target u = some (x, v)

omit [DecidableEq Pid] [Fintype Pid] [DecidableEq K] in
theorem World.visible_seen (𝒱 : View D W X V) (w : World Pid E D W K M S ε α) (i : Pid) (x : X) :
    w.Visible 𝒱 x (𝒱.look (applyAll w.sh.db (w.procs i).writes) x) := by
  rcases View.look_applyAll_cases (𝒱 := 𝒱) w.sh.db (w.procs i).writes x with hold | ⟨u, hu, htarget⟩
  · exact Or.inl hold.symm
  · exact Or.inr ⟨i, u, hu, htarget⟩

/-- The writes of the statement that comes next, if one does. -/
def Proc.next (c : Choice E S) (p : Proc E D W K M S ε α) (sh : Shared D M) : List W :=
  match p.prog with
  | .stmt s _ => (s c.env sh.mem (applyAll sh.db p.writes)).writes
  | .pool s _ => (s c.env sh.mem (applyAll sh.db p.writes)).writes
  | _ => []

/-- Every statement writes what `Q` allows. -/
abbrev Prog.Rules.writing (Q : E → D → List W → Prop) : Prog.Rules E D W K M S where
  begin := True
  stmt s := ∀ env m d, Q env d (s env m d).writes
  pool s := ∀ env m d, Q env d (s env m d).writes
  mem _ := True

omit [DecidableEq K] in
theorem Proc.next_of_obeys {Q : E → D → List W → Prop} (c : Choice E S) {p : Proc E D W K M S ε α}
    (sh : Shared D M) (hnil : ∀ env d, Q env d []) (hp : p.prog.Obeys (.writing Q)) :
    Q c.env (applyAll sh.db p.writes) (p.next c sh) := by
  unfold Proc.next
  split <;> rename_i hprog
  · rw [hprog] at hp
    exact hp.1 _ _ _
  · rw [hprog] at hp
    exact hp.1 _ _ _
  · exact hnil _ _

/-- A value seen after a step was seen before, or the statement of this step has written it. -/
theorem World.visible_step {𝒱 : View D W X V} {w w' : World Pid E D W K M S ε α} {i : Pid}
    {c : Choice E S} (hs : w.step i c = some w') {x : X} {v : V} (hv : w'.Visible 𝒱 x v) :
    w.Visible 𝒱 x v ∨ ∃ u ∈ (w.procs i).next c w.sh, 𝒱.target u = some (x, v) := by
  obtain ⟨hstep, -, hsame⟩ := World.step_spec hs
  rcases hv with hv | ⟨j, u, hu, htarget⟩
  · left
    rcases Proc.committed_cases hstep with ⟨-, hdb⟩ | ⟨-, -, -, hsh, -⟩
    · exact Or.inl (hdb ▸ hv)
    · rw [hsh] at hv
      exact hv ▸ w.visible_seen 𝒱 i x
  · by_cases hj : j = i
    · subst hj
      rcases Proc.writes_cases hstep with ⟨hws, -⟩ | ⟨hws, -⟩ | ⟨β, s, k, hprog, hws, -⟩
      · exact Or.inl (Or.inr ⟨j, u, hws ▸ hu, htarget⟩)
      · rw [hws] at hu
        exact absurd hu (by simp)
      · rw [hws] at hu
        rcases List.mem_append.mp hu with hu | hu
        · exact Or.inl (Or.inr ⟨j, u, hu, htarget⟩)
        · refine Or.inr ⟨u, ?_, htarget⟩
          unfold Proc.next
          rcases hprog with hprog | hprog <;> rw [hprog] <;> exact hu
    · rw [hsame j hj] at hu
      exact Or.inl (Or.inr ⟨j, u, hu, htarget⟩)

/-- What is in flight is lawful: `T i` is what program `i` may do. -/
structure InFlight (𝒱 : View D W X V) (T : Pid → X → V → V → Prop)
    (w : World Pid E D W K M S ε α) : Prop where
  orderly : w.Orderly
  sound : 𝒱.sound w.sh.db
  pending : ∀ i, 𝒱.Lawful (T i) w.sh.db (w.procs i).writes

namespace InFlight

variable {𝒱 : View D W X V} {T T' : Pid → X → V → V → Prop} {w w' : World Pid E D W K M S ε α}
  {i : Pid} {c : Choice E S}

omit [DecidableEq Pid] [Fintype Pid] [DecidableEq K] in
/-- No transaction is open. -/
theorem start (hnone : ∀ i, (w.procs i).tx = none) (hsound : 𝒱.sound w.sh.db) : InFlight 𝒱 T w := by
  refine ⟨World.orderly_start hnone, hsound, fun i => ?_⟩
  have hproc : w.procs i = ⟨(w.procs i).prog, none⟩ := by rw [← hnone i]
  rw [hproc]
  trivial

omit [DecidableEq Pid] [Fintype Pid] [DecidableEq K] in
theorem mono (hT : ∀ i x v v', T i x v v' → T' i x v v') (h : InFlight 𝒱 T w) : InFlight 𝒱 T' w :=
  ⟨h.orderly, h.sound, fun i => (h.pending i).mono (hT i)⟩

/-- **Each commit is lawful** on the tables of that moment. -/
theorem committed (h : InFlight 𝒱 T w) (hs : w.step i c = some w') :
    𝒱.Lawful (T i) w.sh.db ((w.procs i).committed c) := by
  rcases Proc.committed_cases (World.step_spec hs).1 with ⟨hnone, -⟩ | ⟨hall, -⟩
  · rw [hnone]
    trivial
  · rw [hall]
    exact h.pending i

/-- A step whose statement is lawful on the tables it sees. -/
theorem step (h : InFlight 𝒱 T w) (hs : w.step i c = some w')
    (hstmt : ∀ (β : Type) (s : Sql E D W K M S β) k,
      (w.procs i).prog = .stmt s k ∨ (w.procs i).prog = .pool s k →
      𝒱.Lawful (T i) (applyAll w.sh.db (w.procs i).writes)
        (s c.env w.sh.mem (applyAll w.sh.db (w.procs i).writes)).writes) : InFlight 𝒱 T w' := by
  obtain ⟨hstep, -, hsame⟩ := World.step_spec hs
  have hdb := Proc.step_db hstep
  refine ⟨World.orderly_step h.orderly hs, ?_, fun j => ?_⟩
  · rw [hdb]
    exact View.sound_applyAll h.sound _
  by_cases hj : j = i
  · subst hj
    rcases Proc.committed_cases hstep with ⟨-, hdb⟩ | ⟨-, hnil, -⟩
    · rw [hdb]
      rcases Proc.writes_cases hstep with ⟨hws, -⟩ | ⟨hws, -⟩ | ⟨β, s, k, hprog, hws, -⟩
      · rw [hws]
        exact h.pending j
      · rw [hws]
        trivial
      · rw [hws]
        exact View.lawful_append.mpr ⟨h.pending j, hstmt β s k hprog⟩
    · rw [hnil]
      trivial
  · rw [hsame j hj, hdb]
    refine View.lawful_congr (fun x hx => ?_) (h.pending j)
    rcases Proc.committed_cases hstep with ⟨hnone, -⟩ | ⟨hall, -⟩
    · rw [hnone, applyAll_nil]
    · rw [hall, View.look_of_not_touches (h.orderly.cells hj hx)]

/-- What one step makes of a cell. -/
theorem cell (h : InFlight 𝒱 T w) (hs : w.step i c = some w') (x : X) :
    Relation.ReflTransGen (T i x) (𝒱.look w.sh.db x) (𝒱.look w'.sh.db x) := by
  rw [Proc.step_db (World.step_spec hs).1]
  exact (h.committed hs).cell x

end InFlight

/-- What holds at every moment of a run of lawful programs. -/
structure Versioned (𝒱 : View D W X V) (T : Pid → X → V → V → Prop)
    (w : World Pid E D W K M S ε α) : Prop where
  flight : InFlight 𝒱 T w
  rules : ∀ i, (w.procs i).prog.Obeys (𝒱.rules (T i))

namespace Versioned

variable {𝒱 : View D W X V} {T : Pid → X → V → V → Prop} {w w' : World Pid E D W K M S ε α}
  {i : Pid} {c : Choice E S}

theorem step (h : Versioned 𝒱 T w) (hs : w.step i c = some w') : Versioned 𝒱 T w' := by
  obtain ⟨hstep, -, hsame⟩ := World.step_spec hs
  refine ⟨h.flight.step hs fun β s k hprog => ?_, fun j => ?_⟩
  · have hrules := h.rules i
    have hsound := View.sound_applyAll h.flight.sound (w.procs i).writes
    rcases hprog with hprog | hprog <;> rw [hprog] at hrules <;> exact hrules.1 _ _ _ hsound
  · by_cases hj : j = i
    · subst hj
      exact Proc.obeys_step hstep (h.rules j)
    · rw [hsame j hj]
      exact h.rules j

/-- **The committed values of a cell** in a run. -/
theorem trace {C : List (World.Event Pid E D W K M S ε α) → World.Event Pid E D W K M S ε α → Prop}
    {es : List (World.Event Pid E D W K M S ε α)} (h : Versioned 𝒱 T w)
    (ht : World.Trace C w es w') :
    Versioned 𝒱 T w' ∧ ∀ x, Relation.ReflTransGen (fun v v' => ∃ i, T i x v v') (𝒱.look w.sh.db x)
      (𝒱.look w'.sh.db x) := by
  induction ht with
  | start => exact ⟨h, fun x => .refl⟩
  | step i c _ hs _ ih =>
    refine ⟨ih.1.step hs, fun x => (ih.2 x).trans ?_⟩
    exact Relation.ReflTransGen.mono (fun _ _ hT => ⟨i, hT⟩) _ _ (ih.1.flight.cell hs x)

end Versioned

end ReadCommitted
