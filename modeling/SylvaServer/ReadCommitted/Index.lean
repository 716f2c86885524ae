/-
  Unique indexes in a run of many programs.

  `entry` gives the index entry of a value, if it has one. A statement on tables without
  duplicates leaves none and locks each entry it adds. Each transaction alone then sees tables
  without duplicates; two transactions cannot add the same entry because of the locks, and where
  one adds an entry that the other leaves in place the first would have seen it twice. So
  there are no duplicates in the committed tables at any moment (`Indexed.step`,
  `Indexed.trace`).
-/
import SylvaServer.ReadCommitted.Versions

namespace ReadCommitted

variable {E D W K M S ε α X V I : Type} [Store D W K]

namespace View

variable {𝒱 : View D W X V} {entry : V → Option I} {ilock : I → K}

/-- No entry occurs twice. -/
def Unique (𝒱 : View D W X V) (entry : V → Option I) (d : D) : Prop :=
  ∀ x y e, entry (𝒱.look d x) = some e → entry (𝒱.look d y) = some e → x = y

/-- Each entry is one of before or is locked. -/
def Entered (𝒱 : View D W X V) (entry : V → Option I) (ilock : I → K) (d d' : D) (ls : List K) :
    Prop :=
  ∀ x e, entry (𝒱.look d' x) = some e → entry (𝒱.look d x) = some e ∨ ilock e ∈ ls

/-- Every statement leaves no entry twice and locks those it adds. -/
abbrev indexRules {E M S : Type} (𝒱 : View D W X V) (entry : V → Option I) (ilock : I → K) :
    Prog.Rules E D W K M S where
  begin := True
  stmt s := ∀ env m d, 𝒱.sound d → 𝒱.Unique entry d →
    𝒱.Unique entry (applyAll d (s env m d).writes) ∧
      𝒱.Entered entry ilock d (applyAll d (s env m d).writes) (s env m d).locks
  pool s := ∀ env m d, 𝒱.sound d → 𝒱.Unique entry d →
    𝒱.Unique entry (applyAll d (s env m d).writes) ∧
      𝒱.Entered entry ilock d (applyAll d (s env m d).writes) (s env m d).locks
  mem _ := True

/-- Writes that add no entry. -/
theorem entries_kept {d : D} {ws : List W} (h : 𝒱.Lawful (fun _ v v' => ∀ e, entry v' = some e →
    entry v = some e) d ws) (x : X) (e : I) (he : entry (𝒱.look (applyAll d ws) x) = some e) :
    entry (𝒱.look d x) = some e := by
  have hchain : ∀ v v' : V, Relation.ReflTransGen (fun v v' => ∀ e, entry v' = some e →
      entry v = some e) v v' → entry v' = some e → entry v = some e := by
    intro v v' hvv' he
    induction hvv' with
    | refl => exact he
    | tail _ hT ih => exact ih (hT e he)
  exact hchain _ _ (h.cell x) he

theorem index_of_kept {d : D} {ws : List W} {ls : List K} (hunique : 𝒱.Unique entry d)
    (h : 𝒱.Lawful (fun _ v v' => ∀ e, entry v' = some e → entry v = some e) d ws) :
    𝒱.Unique entry (applyAll d ws) ∧ 𝒱.Entered entry ilock d (applyAll d ws) ls :=
  ⟨fun x y e hx hy => hunique x y e (entries_kept h x e hx) (entries_kept h y e hy),
    fun x e he => Or.inl (entries_kept h x e he)⟩

end View

variable {Pid : Type} [DecidableEq Pid] [Fintype Pid] [DecidableEq K]

/-- What holds at every moment of a run whose statements keep the index. -/
structure Indexed (𝒱 : View D W X V) (entry : V → Option I) (ilock : I → K)
    (w : World Pid E D W K M S ε α) : Prop where
  orderly : w.Orderly
  sound : 𝒱.sound w.sh.db
  rules : ∀ i, (w.procs i).prog.Obeys (𝒱.indexRules entry ilock)
  unique : 𝒱.Unique entry w.sh.db
  seen : ∀ i, 𝒱.Unique entry (w.seen i)
  entered : ∀ i, 𝒱.Entered entry ilock w.sh.db (w.seen i) (w.procs i).locks

namespace Indexed

variable {𝒱 : View D W X V} {entry : V → Option I} {ilock : I → K}
  {w w' : World Pid E D W K M S ε α} {i : Pid} {c : Choice E S}

omit [DecidableEq Pid] [Fintype Pid] [DecidableEq K] in
/-- No transaction is open. -/
theorem start (hnone : ∀ i, (w.procs i).tx = none) (hsound : 𝒱.sound w.sh.db)
    (hrules : ∀ i, (w.procs i).prog.Obeys (𝒱.indexRules entry ilock))
    (hunique : 𝒱.Unique entry w.sh.db) : Indexed 𝒱 entry ilock w := by
  have hseen : ∀ i, w.seen i = w.sh.db := by
    intro i
    have hproc : w.procs i = ⟨(w.procs i).prog, none⟩ := by rw [← hnone i]
    rw [World.seen, hproc]
    rfl
  refine ⟨World.orderly_start hnone, hsound, hrules, hunique, fun i => ?_,
    fun i x e he => Or.inl ?_⟩
  · rw [hseen]
    exact hunique
  · rwa [hseen] at he

omit [DecidableEq Pid] [Fintype Pid] [DecidableEq K] in
/-- A cell that a program has not written. -/
theorem look_seen {j : Pid} {x : X} (hx : ¬ 𝒱.Touches (w.procs j).writes x) :
    𝒱.look (w.seen j) x = 𝒱.look w.sh.db x := View.look_of_not_touches hx

omit [DecidableEq Pid] [Fintype Pid] [DecidableEq K] in
/-- **Two transactions together**: a cell written by `j` and one that is not, with the entries they
    have once `i` has committed. -/
theorem pair (h : Indexed 𝒱 entry ilock w) {j : Pid} (hij : i ≠ j) {x y : X} {e : I}
    (hx : 𝒱.Touches (w.procs j).writes x) (hy : ¬ 𝒱.Touches (w.procs j).writes y)
    (hex : entry (𝒱.look (w.seen j) x) = some e) (hey : entry (𝒱.look (w.seen i) y) = some e) :
    x = y := by
  rcases h.entered i y e hey with hkept | hlocked
  · -- the entry of `y` was there before, and `j` sees it too
    refine h.seen j x y e hex ?_
    rw [look_seen hy]
    exact hkept
  · rcases h.entered j x e hex with hkept | hlocked'
    · -- the entry of `x` was there before, and `i` sees it too
      refine h.seen i x y e ?_ hey
      rw [look_seen (h.orderly.cells (Ne.symm hij) hx)]
      exact hkept
    · exact absurd hlocked' (h.orderly.exclusive i j hij _ hlocked)

omit [DecidableEq Pid] [Fintype Pid] [DecidableEq K] in
/-- The others after a commit: they see no entry twice. -/
theorem seen_commit (h : Indexed 𝒱 entry ilock w) {j : Pid} (hij : i ≠ j) :
    𝒱.Unique entry (applyAll (w.seen i) (w.procs j).writes) := by
  have hown : ∀ x, 𝒱.Touches (w.procs j).writes x →
      𝒱.look (applyAll (w.seen i) (w.procs j).writes) x = 𝒱.look (w.seen j) x :=
    fun x hx => View.look_of_touches hx
  have hothers : ∀ x, ¬ 𝒱.Touches (w.procs j).writes x →
      𝒱.look (applyAll (w.seen i) (w.procs j).writes) x = 𝒱.look (w.seen i) x :=
    fun x hx => View.look_of_not_touches hx
  intro x y e hex hey
  by_cases hx : 𝒱.Touches (w.procs j).writes x
  · rw [hown x hx] at hex
    by_cases hy : 𝒱.Touches (w.procs j).writes y
    · rw [hown y hy] at hey
      exact h.seen j x y e hex hey
    · rw [hothers y hy] at hey
      exact h.pair hij hx hy hex hey
  · rw [hothers x hx] at hex
    by_cases hy : 𝒱.Touches (w.procs j).writes y
    · rw [hown y hy] at hey
      exact (h.pair hij hy hx hey hex).symm
    · rw [hothers y hy] at hey
      exact h.seen i x y e hex hey

omit [DecidableEq Pid] [Fintype Pid] [DecidableEq K] in
/-- The others after a commit: the entries they add are locked. -/
theorem entered_commit (h : Indexed 𝒱 entry ilock w) {j : Pid} (hij : i ≠ j) :
    𝒱.Entered entry ilock (w.seen i) (applyAll (w.seen i) (w.procs j).writes)
      (w.procs j).locks := by
  intro x e he
  by_cases hx : 𝒱.Touches (w.procs j).writes x
  · have hseen : 𝒱.look (applyAll (w.seen i) (w.procs j).writes) x = 𝒱.look (w.seen j) x :=
      View.look_of_touches hx
    rw [hseen] at he
    rw [look_seen (h.orderly.cells (Ne.symm hij) hx)]
    exact h.entered j x e he
  · rw [View.look_of_not_touches hx] at he
    exact Or.inl he

theorem step (h : Indexed 𝒱 entry ilock w) (hs : w.step i c = some w') :
    Indexed 𝒱 entry ilock w' := by
  obtain ⟨hstep, -, hsame⟩ := World.step_spec hs
  have horderly := World.orderly_step h.orderly hs
  have hrules : ∀ j, (w'.procs j).prog.Obeys (𝒱.indexRules entry ilock) := by
    intro j
    by_cases hj : j = i
    · subst hj
      exact Proc.obeys_step hstep (h.rules j)
    · rw [hsame j hj]
      exact h.rules j
  have hsound : 𝒱.sound w'.sh.db := by
    rw [Proc.step_db hstep]
    exact View.sound_applyAll h.sound _
  rcases Proc.committed_cases hstep with ⟨-, hdb⟩ | ⟨-, hnil, -, hsh, -⟩
  · -- the tables stay; program `i` may see new rows of its own
    have hother : ∀ j, j ≠ i → w'.seen j = w.seen j := by
      intro j hj
      rw [World.seen, hsame j hj, hdb]
      rfl
    have hown : 𝒱.Unique entry (w'.seen i) ∧
        𝒱.Entered entry ilock w.sh.db (w'.seen i) (w'.procs i).locks := by
      rw [World.seen, hdb]
      rcases Proc.writes_cases hstep with ⟨hws, hls⟩ | ⟨hws, -⟩ | ⟨β, s, k, hprog, hws, hls⟩
      · rw [hws, hls]
        exact ⟨h.seen i, h.entered i⟩
      · rw [hws]
        exact ⟨h.unique, fun x e he => Or.inl he⟩
      · have hstmt : 𝒱.Unique entry (applyAll (w.seen i) (s c.env w.sh.mem (w.seen i)).writes) ∧
            𝒱.Entered entry ilock (w.seen i)
              (applyAll (w.seen i) (s c.env w.sh.mem (w.seen i)).writes)
              (s c.env w.sh.mem (w.seen i)).locks := by
          have hr := h.rules i
          have hsnd := View.sound_applyAll h.sound (w.procs i).writes
          rcases hprog with hprog | hprog <;> rw [hprog] at hr <;>
            exact hr.1 _ _ _ hsnd (h.seen i)
        rw [hws, hls, applyAll_append]
        refine ⟨hstmt.1, fun x e he => ?_⟩
        rcases hstmt.2 x e he with hkept | hlocked
        · exact (h.entered i x e hkept).imp_right (List.mem_append_left _)
        · exact Or.inr (List.mem_append_right _ (List.mem_append_right _ hlocked))
    refine ⟨horderly, hsound, hrules, hdb ▸ h.unique, fun j => ?_, fun j => ?_⟩
    · by_cases hj : j = i
      · exact hj ▸ hown.1
      · rw [hother j hj]
        exact h.seen j
    · rw [hdb]
      by_cases hj : j = i
      · exact hj ▸ hown.2
      · rw [hother j hj, hsame j hj]
        exact h.entered j
  · -- program `i` commits: the tables are what it has seen
    have hdb : w'.sh.db = w.seen i := by
      rw [hsh]
      rfl
    have hown : w'.seen i = w.seen i := by
      rw [World.seen, hnil, hdb]
      rfl
    refine ⟨horderly, hsound, hrules, hdb ▸ h.seen i, fun j => ?_, fun j => ?_⟩
    · by_cases hj : j = i
      · rw [hj, hown]
        exact h.seen i
      · rw [World.seen, hdb, hsame j hj]
        exact h.seen_commit (Ne.symm hj)
    · rw [hdb]
      by_cases hj : j = i
      · rw [hj, hown]
        exact fun x e he => Or.inl he
      · have hseen : w'.seen j = applyAll (w.seen i) (w.procs j).writes := by
          rw [World.seen, hdb, hsame j hj]
        rw [hseen, hsame j hj]
        exact h.entered_commit (Ne.symm hj)

/-- **No entry occurs twice** in the committed tables of a run. -/
theorem trace {C : List (World.Event Pid E D W K M S ε α) → World.Event Pid E D W K M S ε α → Prop}
    {es : List (World.Event Pid E D W K M S ε α)} (h : Indexed 𝒱 entry ilock w)
    (ht : World.Trace C w es w') : Indexed 𝒱 entry ilock w' := by
  induction ht with
  | start => exact h
  | step i c _ hs _ ih => exact ih.step hs

end Indexed

end ReadCommitted
