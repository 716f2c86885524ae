/-
  The tables as views: a table is a map from keys to rows, each row with its lock.

  Proved: what `INSERT`, `UPDATE` and `DELETE` do row by row (`lawful_insertRow`,
  `lawful_updateRows`, `lawful_deleteRows`), that statements about other tables do nothing here
  (`obeys_view`, `obeys_index`), and when an `INSERT` keeps a unique index (`index_insertRow`).
-/
import SylvaServer.ReadCommitted.Gates
import SylvaServer.ReadCommitted.Index
import SylvaServer.Model.Tables

namespace SylvaServer

open ReadCommitted

/-! ## One table as a map -/

/-- What a write sets in a table. -/
def Write.on (t : Table) : Write → Option (Key × Option t.Row)
  | .put t' row => if h : t' = t then some (t'.key row, some (h ▸ row)) else none
  | .delete t' k => if t' = t then some (k, none) else none

@[simp] theorem on_put_self (t : Table) (row : t.Row) :
    (Write.put t row).on t = some (t.key row, some row) := by
  simp [Write.on]

@[simp] theorem on_delete_self (t : Table) (k : Key) :
    (Write.delete t k).on t = some (k, none) := by
  simp [Write.on]

theorem on_of_ne {t : Table} {w : Write} (h : w.table ≠ t) : w.on t = none := by
  cases w with
  | put t' row => exact dif_neg h
  | delete t' k => exact if_neg h

theorem on_eq_some {t : Table} {w : Write} {k : Key} {v : Option t.Row} (h : w.on t = some (k, v)) :
    w.table = t ∧ w.key = k := by
  by_cases ht : w.table = t
  · subst ht
    cases w with
    | put t row =>
      exact ⟨rfl, (Prod.mk.inj (Option.some.inj ((on_put_self t row).symm.trans h))).1⟩
    | delete t k' =>
      exact ⟨rfl, (Prod.mk.inj (Option.some.inj ((on_delete_self t k').symm.trans h))).1⟩
  · rw [on_of_ne ht] at h
    exact absurd h (by simp)

theorem eq_put_of_on {t : Table} {w : Write} {k : Key} {row : t.Row}
    (h : w.on t = some (k, some row)) : w = .put t row := by
  obtain ⟨ht, -⟩ := on_eq_some h
  subst ht
  cases w with
  | put t r =>
    have hrow := (Prod.mk.inj (Option.some.inj ((on_put_self t r).symm.trans h))).2
    exact congrArg (Write.put t) (Option.some.inj hrow)
  | delete t k' =>
    have hrow := (Prod.mk.inj (Option.some.inj ((on_delete_self t k').symm.trans h))).2
    exact absurd hrow (by simp)

/-- The row of a key. -/
def Db.get (db : Db) (t : Table) (k : Key) : Option t.Row := (db.rows t).find? (t.key · == k)

theorem get_put (db : Db) (t : Table) (row : t.Row) (k : Key) :
    (db.put t row).get t k = if t.key row = k then some row else db.get t k := by
  unfold Db.get
  rw [put_rows_self, find?_putRow]

theorem get_delete (db : Db) (t : Table) (k k' : Key) :
    (db.delete t k').get t k = if k' = k then none else db.get t k := by
  unfold Db.get
  rw [delete_rows_self, find?_filter_ne]

theorem get_write_of_ne (db : Db) {w : Write} {t : Table} (h : w.table ≠ t) (k : Key) :
    (db.write w).get t k = db.get t k := by
  unfold Db.get
  rw [write_rows_of_ne db w h]

/-- A table as the transactions see it: rows under keys, each with its lock. -/
def Table.view (t : Table) : View Db Write Key (Option t.Row) where
  look db k := db.get t k
  target w := w.on t
  lock k := .row t k
  sound db := Keyed t.key (db.rows t)
  look_target db w k v h := by
    obtain ⟨ht, -⟩ := on_eq_some h
    subst ht
    cases w with
    | put t row =>
      obtain ⟨rfl, rfl⟩ := Prod.mk.inj (Option.some.inj ((on_put_self t row).symm.trans h))
      exact (get_put db t row _).trans (if_pos rfl)
    | delete t k =>
      obtain ⟨rfl, rfl⟩ := Prod.mk.inj (Option.some.inj ((on_delete_self t k).symm.trans h))
      exact (get_delete db t k k).trans (if_pos rfl)
  look_other db w k h := by
    by_cases ht : w.table = t
    · subst ht
      cases w with
      | put t row =>
        refine (get_put db t row k).trans (if_neg fun hk => h (some row) ?_)
        simp [hk]
      | delete t k' =>
        refine (get_delete db t k k').trans (if_neg fun hk => h none ?_)
        simp [hk]
    · exact get_write_of_ne db ht k
  rowLock_target w k v h := by
    obtain ⟨ht, hk⟩ := on_eq_some h
    rw [← ht, ← hk]
    rfl
  sound_apply db w h := by
    by_cases ht : w.table = t
    · subst ht
      cases w with
      | put t row =>
        exact (put_rows_self db t row).symm ▸ keyed_putRow h
      | delete t k =>
        exact (delete_rows_self db t k).symm ▸ keyed_filter h _
    · show Keyed t.key ((db.write w).rows t)
      rw [write_rows_of_ne db w ht]
      exact h

theorem get_of_mem {db : Db} {t : Table} (h : Keyed t.key (db.rows t)) {r : t.Row}
    (hr : r ∈ db.rows t) : db.get t (t.key r) = some r := find?_of_mem h hr

theorem mem_of_get {db : Db} {t : Table} {k : Key} {r : t.Row} (h : db.get t k = some r) :
    r ∈ db.rows t ∧ t.key r = k := ⟨List.mem_of_find?_eq_some h, by simpa using List.find?_some h⟩

theorem get_eq_none {db : Db} {t : Table} {k : Key} :
    db.get t k = none ↔ ∀ r ∈ db.rows t, t.key r ≠ k := by
  unfold Db.get
  rw [List.find?_eq_none]
  simp

/-! ## Statements row by row -/

section Lawful

variable {t : Table} {T : Key → Option t.Row → Option t.Row → Prop} {db : Db}

/-- A statement that does the same to each of some rows. -/
theorem lawful_rows {w : t.Row → Write} {v : t.Row → Option t.Row} {rows : List t.Row}
    (hw : ∀ r ∈ rows, (w r).on t = some (t.key r, v r)) (hnodup : (rows.map t.key).Nodup)
    (hget : ∀ r ∈ rows, db.get t (t.key r) = some r)
    (hT : ∀ r ∈ rows, T (t.key r) (some r) (v r)) : t.view.Lawful T db (rows.map w) := by
  induction rows generalizing db with
  | nil => trivial
  | cons r rs ih =>
    obtain ⟨hr, hrs⟩ := List.nodup_cons.mp hnodup
    have htarget := hw r (by simp)
    refine ⟨fun k x hx => ?_, ih (fun a ha => hw a (by simp [ha])) hrs (fun a ha => ?_)
      fun a ha => hT a (by simp [ha])⟩
    · obtain ⟨rfl, rfl⟩ := Prod.mk.inj (Option.some.inj (htarget.symm.trans hx))
      show T _ (db.get t (t.key r)) _
      rw [hget r (by simp)]
      exact hT r (by simp)
    · have hne : ∀ x, (w r).on t ≠ some (t.key a, x) := by
        intro x hx
        have hk := (Prod.mk.inj (Option.some.inj (htarget.symm.trans hx))).1
        exact hr (List.mem_map.mpr ⟨a, ha, hk.symm⟩)
      exact (t.view.look_other db (w r) (t.key a) hne).trans (hget a (by simp [ha]))

theorem lawful_put {row : t.Row} (h : T (t.key row) (db.get t (t.key row)) (some row)) :
    t.view.Lawful T db [.put t row] := by
  refine ⟨fun k v hv => ?_, trivial⟩
  obtain ⟨rfl, rfl⟩ := Prod.mk.inj (Option.some.inj ((on_put_self t row).symm.trans hv))
  exact h

theorem lawful_insertRow {row : t.Row} {taken : Bool} {refs : List (Table × Key)}
    {entries : List LockKey} {mem : Mem} (hT : T (t.key row) none (some row)) :
    t.view.Lawful T db (insertRow t row taken refs entries mem db).writes := by
  rcases insertRow_cases t row taken refs entries mem db with ⟨e, h⟩ | ⟨h, hfree, -⟩
  · rw [h]
    trivial
  · rw [h]
    refine lawful_put ?_
    rw [get_eq_none.mpr hfree]
    exact hT

theorem lawful_updateRows {p : t.Row → Bool} {f : t.Row → t.Row} (mem : Mem)
    (hkeyed : Keyed t.key (db.rows t)) (hkey : ∀ r, t.key (f r) = t.key r)
    (hT : ∀ r ∈ db.rows t, p r → T (t.key r) (some r) (some (f r))) :
    t.view.Lawful T db (updateRows t p f mem db).writes := by
  have hrows : (updateRows t p f mem db).writes = ((db.rows t).filter p).map
      fun r => .put t (f r) := by
    simp only [updateRows, List.map_map]
    rfl
  rw [hrows]
  refine lawful_rows (v := fun r => some (f r)) (fun r _ => ?_) (keyed_filter hkeyed p)
    (fun r hr => get_of_mem hkeyed (List.mem_of_mem_filter hr)) fun r hr => ?_
  · rw [on_put_self, hkey]
  · obtain ⟨hr, hp⟩ := List.mem_filter.mp hr
    exact hT r hr hp

theorem lawful_deleteRows {p : t.Row → Bool} {mem : Mem} (hkeyed : Keyed t.key (db.rows t))
    (hT : ∀ r ∈ db.rows t, p r → T (t.key r) (some r) none) :
    t.view.Lawful T db (deleteRows t p mem db).writes := by
  refine lawful_rows (v := fun _ => none) (fun r _ => on_delete_self t _) (keyed_filter hkeyed p)
    (fun r hr => get_of_mem hkeyed (List.mem_of_mem_filter hr)) fun r hr => ?_
  obtain ⟨hr, hp⟩ := List.mem_filter.mp hr
  exact hT r hr hp

/-! ### The whole table -/

/-- A table after an `UPDATE`. -/
theorem updateRows_rows {p : t.Row → Bool} {f : t.Row → t.Row} (mem : Mem)
    (hkeyed : Keyed t.key (db.rows t)) (hkey : ∀ r, t.key (f r) = t.key r) :
    (applyAll db (updateRows t p f mem db).writes).rows t =
      (db.rows t).map fun r => if p r then f r else r := by
  have hputs : ∀ (rows : List t.Row) (db : Db),
      (applyAll db (rows.map fun r => Write.put t (f r))).rows t =
      rows.foldl (fun acc r => putRow t.key (f r) acc) (db.rows t) := by
    intro rows
    induction rows with
    | nil => exact fun db => rfl
    | cons r rs ih =>
      intro db
      rw [List.map_cons, applyAll_cons, ih, List.foldl_cons]
      exact congrArg (rs.foldl fun acc r => putRow t.key (f r) acc) (put_rows_self db t (f r))
  have hwrites : (updateRows t p f mem db).writes = ((db.rows t).filter p).map
      fun r => .put t (f r) := by
    simp only [updateRows, List.map_map]
    rfl
  rw [hwrites, hputs,
    foldl_putRow hkey hkeyed (fun x hx => List.mem_of_mem_filter hx) (keyed_filter hkeyed p)]
  refine List.map_congr_left fun y hy => ?_
  have hmem : t.key y ∈ ((db.rows t).filter p).map t.key ↔ p y = true := by
    constructor
    · intro hk
      obtain ⟨x, hx, hxy⟩ := List.mem_map.mp hk
      obtain ⟨hx, hp⟩ := List.mem_filter.mp hx
      exact hkeyed.eq hx hy hxy ▸ hp
    · exact fun hp => List.mem_map.mpr ⟨y, List.mem_filter.mpr ⟨hy, hp⟩, rfl⟩
  by_cases hp : p y = true
  · rw [if_pos hp, if_pos (hmem.mpr hp)]
  · rw [if_neg hp, if_neg fun hk => hp (hmem.mp hk)]

/-- A table after a `DELETE`. -/
theorem deleteRows_rows {p : t.Row → Bool} (mem : Mem) (hkeyed : Keyed t.key (db.rows t)) :
    (applyAll db (deleteRows t p mem db).writes).rows t = (db.rows t).filter fun r => !p r := by
  have hdeletes : ∀ (rows : List t.Row) (db : Db),
      (applyAll db (rows.map fun r => Write.delete t (t.key r))).rows t =
        (db.rows t).filter fun x => !(rows.map t.key).any (t.key x == ·) := by
    intro rows
    induction rows with
    | nil => exact fun db => by simp
    | cons r rs ih =>
      intro db
      rw [List.map_cons, applyAll_cons, ih]
      show ((db.delete t (t.key r)).rows t).filter _ = _
      rw [delete_rows_self, List.filter_filter]
      refine List.filter_congr fun x _ => ?_
      simp only [List.map_cons, List.any_cons, Bool.not_or, bne]
      exact Bool.and_comm _ _
  have hwrites : (deleteRows t p mem db).writes =
      ((db.rows t).filter p).map fun r => Write.delete t (t.key r) := rfl
  rw [hwrites, hdeletes]
  refine List.filter_congr fun y hy => congrArg _ ?_
  rw [Bool.eq_iff_iff, List.any_eq_true]
  constructor
  · rintro ⟨k, hk, hyk⟩
    obtain ⟨x, hx, rfl⟩ := List.mem_map.mp hk
    obtain ⟨hx, hp⟩ := List.mem_filter.mp hx
    have hxy : t.key y = t.key x := by simpa using hyk
    exact hkeyed.eq hy hx hxy ▸ hp
  · exact fun hp => ⟨t.key y, List.mem_map.mpr ⟨y, List.mem_filter.mpr ⟨hy, hp⟩, rfl⟩, by simp⟩

/-- A table after the `INSERT` of a row whose key is new. -/
theorem put_rows_fresh {row : t.Row} (hfree : ∀ r ∈ db.rows t, t.key r ≠ t.key row) :
    (applyAll db [Write.put t row]).rows t = db.rows t ++ [row] :=
  (put_rows_self db t row).trans (putRow_fresh hfree)

theorem lawful_readAs {β γ : Type} {f : β → Except SqlError γ}
    {o : Outcome Write LockKey Mem SqlError β} (h : t.view.Lawful T db o.writes) :
    t.view.Lawful T db (readAs f o).writes := by
  rcases (readAs_cases f o).2 with ⟨-, hw, -⟩ | ⟨b, c, -, -, -, hw, -⟩
  · rw [hw]
    trivial
  · rw [hw]
    exact h

/-- A statement about another table. -/
theorem lawful_elsewhere {ws : List Write} (h : ∀ w ∈ ws, w.table ≠ t) : t.view.Lawful T db ws :=
  View.lawful_of_elsewhere fun w hw => on_of_ne (h w hw)

/-- Writes that do nothing in a table but delete rows. -/
theorem lawful_of_deletes {ws : List Write} (h : ∀ w ∈ ws, w.table ≠ t ∨ ∃ k, w = .delete t k)
    (hT : ∀ k v, T k v none) : t.view.Lawful T db ws := by
  induction ws generalizing db with
  | nil => trivial
  | cons w ws ih =>
    refine ⟨fun k v hv => ?_, ih fun u hu => h u (List.mem_cons_of_mem _ hu)⟩
    rcases h w List.mem_cons_self with hw | ⟨k', rfl⟩
    · exact absurd ((on_of_ne hw).symm.trans hv) (by simp)
    · obtain ⟨rfl, rfl⟩ := Prod.mk.inj (Option.some.inj ((on_delete_self t k').symm.trans hv))
      exact hT _ _

/-- Writes that may change no row. -/
theorem rows_of_lawful_false {ws : List Write}
    (h : t.view.Lawful (fun _ _ _ => False) db ws) : (applyAll db ws).rows t = db.rows t := by
  refine applyAll_rows_of_ne db ws fun w hw ht => ?_
  induction ws generalizing db with
  | nil => exact absurd hw (by simp)
  | cons u us ih =>
    rcases List.mem_cons.mp hw with rfl | hw
    · subst ht
      cases w with
      | put t row => exact h.1 _ _ (on_put_self t row)
      | delete t k => exact h.1 _ _ (on_delete_self t k)
    · exact ih h.2 hw

end Lawful

/-! ## Statements about other tables -/

/-- No write on a table. -/
abbrev avoids (t : Table) : Prog.Rules Env Db Write LockKey Mem SqlError where
  begin := True
  stmt s := ∀ env m db, ∀ w ∈ (s env m db).writes, w.table ≠ t
  pool s := ∀ env m db, ∀ w ∈ (s env m db).writes, w.table ≠ t
  mem _ := True

section Avoids

variable {ε α : Type} {t : Table} {T : Key → Option t.Row → Option t.Row → Prop}
  {p : Prog Env Db Write LockKey Mem SqlError ε α}

theorem obeys_view (h : p.Obeys (avoids t)) : p.Obeys (t.view.rules T) :=
  Prog.Obeys.mono (R := avoids t) id (fun _ hs env m db _ => lawful_elsewhere (hs env m db))
    (fun _ hs env m db _ => lawful_elsewhere (hs env m db)) (fun _ => id) h

theorem obeys_index {I : Type} {entry : Option t.Row → Option I} {ilock : I → LockKey}
    (h : p.Obeys (avoids t)) : p.Obeys (t.view.indexRules entry ilock) :=
  Prog.Obeys.mono (R := avoids t) id
    (fun _ hs env m db _ hunique => View.index_of_kept hunique (lawful_elsewhere (hs env m db)))
    (fun _ hs env m db _ hunique => View.index_of_kept hunique (lawful_elsewhere (hs env m db)))
    (fun _ => id) h

end Avoids

/-! ### What the statements write -/

theorem insertRow_table {t : Table} {row : t.Row} {taken : Bool} {refs : List (Table × Key)}
    {entries : List LockKey} {mem : Mem} {db : Db} :
    ∀ w ∈ (insertRow t row taken refs entries mem db).writes, w.table = t := by
  rcases insertRow_cases t row taken refs entries mem db with ⟨e, h⟩ | ⟨h, -⟩
  · rw [h]
    simp [failed]
  · rw [h]
    simp

theorem updateRows_table {t : Table} {p : t.Row → Bool} {f : t.Row → t.Row} {mem : Mem} {db : Db} :
    ∀ w ∈ (updateRows t p f mem db).writes, w.table = t := by
  intro w hw
  simp only [updateRows, List.mem_map] at hw
  obtain ⟨r, -, rfl⟩ := hw
  rfl

theorem deleteRows_table {t : Table} {p : t.Row → Bool} {mem : Mem} {db : Db} :
    ∀ w ∈ (deleteRows t p mem db).writes, w.table = t := by
  intro w hw
  simp only [deleteRows, List.mem_map] at hw
  obtain ⟨r, -, rfl⟩ := hw
  rfl

theorem readAs_writes {β γ : Type} {f : β → Except SqlError γ}
    {o : Outcome Write LockKey Mem SqlError β} : ∀ w ∈ (readAs f o).writes, w ∈ o.writes := by
  rcases (readAs_cases f o).2 with ⟨-, hw, -⟩ | ⟨b, c, -, -, -, hw, -⟩
  · rw [hw]
    simp
  · rw [hw]
    exact fun w hw => hw

/-- Primary keys. -/
def Db.PrimaryKeys (db : Db) : Prop := ∀ t : Table, Keyed t.key (db.rows t)

/-! ## Foreign keys -/

section References

variable {t : Table} {db : Db} {ws : List Write} {k : Key}

/-- A row after some writes was there before or is one of them. -/
theorem get_applyAll_cases {r : t.Row} (h : (applyAll db ws).get t k = some r) :
    db.get t k = some r ∨ .put t r ∈ ws := by
  induction ws generalizing db with
  | nil => exact Or.inl h
  | cons w ws ih =>
    rw [applyAll_cons] at h
    rcases ih h with h | h
    · by_cases hw : ∃ v, w.on t = some (k, v)
      · obtain ⟨v, hv⟩ := hw
        obtain rfl : v = some r := (t.view.look_target db w k v hv).symm.trans h
        exact Or.inr (eq_put_of_on hv ▸ List.mem_cons_self)
      · have hne : ∀ v, w.on t ≠ some (k, v) := fun v hv => hw ⟨v, hv⟩
        exact Or.inl ((t.view.look_other db w k hne).symm.trans h)
    · exact Or.inr (List.mem_cons_of_mem _ h)

/-- A row that is not deleted is still there. -/
theorem get_applyAll_of_kept (h : db.get t k ≠ none) (hws : .delete t k ∉ ws) :
    (applyAll db ws).get t k ≠ none := by
  induction ws generalizing db with
  | nil => exact h
  | cons w ws ih =>
    rw [List.mem_cons, not_or] at hws
    rw [applyAll_cons]
    refine ih ?_ hws.2
    by_cases hw : ∃ v, w.on t = some (k, v)
    · obtain ⟨v, hv⟩ := hw
      rw [show (Store.apply db w).get t k = v from t.view.look_target db w k v hv]
      obtain ⟨ht, hk⟩ := on_eq_some hv
      subst ht
      cases w with
      | put t row =>
        rw [← (Prod.mk.inj (Option.some.inj ((on_put_self t row).symm.trans hv))).2]
        simp
      | delete t k' => exact absurd (congrArg (Write.delete t) hk.symm) hws.1
    · have hne : ∀ v, w.on t ≠ some (k, v) := fun v hv => hw ⟨v, hv⟩
      rw [show (Store.apply db w).get t k = db.get t k from t.view.look_other db w k hne]
      exact h

/-- Every statement takes the right to remove the rows that it deletes. -/
abbrev removalRules (t : Table) : Prog.Rules Env Db Write LockKey Mem SqlError where
  begin := True
  stmt s := ∀ env m db k, .delete t k ∈ (s env m db).writes → .removal t k ∈ (s env m db).locks
  pool s := ∀ env m db k, .delete t k ∈ (s env m db).writes → .removal t k ∈ (s env m db).locks
  mem _ := True

theorem obeys_removal {ε α : Type} {p : Prog Env Db Write LockKey Mem SqlError ε α}
    (h : p.Obeys (avoids t)) : p.Obeys (removalRules t) :=
  Prog.Obeys.mono (R := avoids t) id (fun _ hs env m db _ hk => absurd rfl (hs env m db _ hk))
    (fun _ hs env m db _ hk => absurd rfl (hs env m db _ hk)) (fun _ => id) h

variable {Pid α : Type} [DecidableEq Pid] [Fintype Pid] {w w' : Server Pid α} {i : Pid}
  {c : Choice Env SqlError}

/-- Whoever has deleted a row holds the right to. -/
structure Removing (t : Table) (w : Server Pid α) : Prop where
  rules : ∀ i, (w.procs i).prog.Obeys (removalRules t)
  held : ∀ i k, .delete t k ∈ (w.procs i).writes → .removal t k ∈ (w.procs i).locks

omit [DecidableEq Pid] [Fintype Pid] in
theorem Removing.start (hnone : ∀ i, (w.procs i).tx = none)
    (hrules : ∀ i, (w.procs i).prog.Obeys (removalRules t)) : Removing t w := by
  refine ⟨hrules, fun i k hk => ?_⟩
  have hproc : w.procs i = ⟨(w.procs i).prog, none⟩ := by rw [← hnone i]
  rw [hproc] at hk
  simp at hk

theorem Removing.step (h : Removing t w) (hs : w.step i c = some w') : Removing t w' := by
  obtain ⟨hstep, -, hsame⟩ := World.step_spec hs
  refine ⟨fun j => ?_, fun j k hk => ?_⟩
  · by_cases hj : j = i
    · subst hj
      exact Proc.obeys_step hstep (h.rules j)
    · rw [hsame j hj]
      exact h.rules j
  · by_cases hj : j = i
    · subst hj
      rcases Proc.writes_cases hstep with ⟨hws, hls⟩ | ⟨hws, -⟩ | ⟨β, s, q, hprog, hws, hls⟩
      · rw [hws] at hk
        rw [hls]
        exact h.held j k hk
      · rw [hws] at hk
        exact absurd hk (by simp)
      · rw [hws] at hk
        rw [hls]
        rcases List.mem_append.mp hk with hk | hk
        · exact List.mem_append_left _ (h.held j k hk)
        · have hrules := h.rules j
          have hlock : LockKey.removal t k ∈ (s c.env w.sh.mem
              (applyAll w.sh.db (w.procs j).writes)).locks := by
            rcases hprog with hprog | hprog <;> rw [hprog] at hrules <;> exact hrules.1 _ _ _ k hk
          exact List.mem_append_right _ (List.mem_append_right _ hlock)
    · rw [hsame j hj] at hk ⊢
      exact h.held j k hk

omit [DecidableEq Pid] [Fintype Pid] in
/-- **A row that another transaction refers to is not deleted.** -/
theorem Removing.referenced (h : Removing t w) (ho : w.Orderly) {j : Pid}
    (hij : i ≠ j) {child : Table} {ck : Key}
    (href : .keyShare t k child ck ∈ (w.procs j).locks) : .delete t k ∉ (w.procs i).writes := by
  intro hk
  have hclash := ho.clear i j hij _ (h.held i k hk) _ href
  change LockKey.clash _ _ = false at hclash
  simp [LockKey.clash] at hclash

end References

/-! ## Unique indexes -/

section Unique

variable {t : Table} {I : Type} {f : t.Row → Option I} {ilock : I → LockKey} {db : Db}

/-- No two rows of the table have the same index entry. -/
theorem unique_rows (h : t.view.Unique (Option.bind · f) db) (hkeyed : Keyed t.key (db.rows t))
    {r r' : t.Row} (hr : r ∈ db.rows t) (hr' : r' ∈ db.rows t) {e : I} (he : f r = some e)
    (he' : f r' = some e) : r = r' := by
  have hget := get_of_mem hkeyed hr
  have hget' := get_of_mem hkeyed hr'
  refine hkeyed.eq hr hr' (h _ _ e ?_ ?_)
  · show (db.get t (t.key r)).bind f = some e
    rw [hget]
    exact he
  · show (db.get t (t.key r')).bind f = some e
    rw [hget']
    exact he'

theorem unique_of_rows (h : ∀ r ∈ db.rows t, ∀ r' ∈ db.rows t, ∀ e, f r = some e → f r' = some e →
    r = r') : t.view.Unique (Option.bind · f) db := by
  intro k k' e he he'
  obtain ⟨r, hr, her⟩ := Option.bind_eq_some_iff.mp he
  obtain ⟨r', hr', her'⟩ := Option.bind_eq_some_iff.mp he'
  obtain ⟨hmem, rfl⟩ := mem_of_get hr
  obtain ⟨hmem', rfl⟩ := mem_of_get hr'
  rw [h r hmem r' hmem' e her her']

/-- An `INSERT` whose entry no row has, and which locks it. -/
theorem index_insertRow {row : t.Row} {taken : Bool} {refs : List (Table × Key)}
    {entries : List LockKey} {mem : Mem} (hunique : t.view.Unique (Option.bind · f) db)
    (hkeyed : Keyed t.key (db.rows t))
    (hfree : taken = false → ∀ r ∈ db.rows t, ∀ e, f r = some e → f row ≠ some e)
    (hlock : ∀ e, f row = some e → ilock e ∈ entries) :
    t.view.Unique (Option.bind · f)
        (applyAll db (insertRow t row taken refs entries mem db).writes) ∧
      t.view.Entered (Option.bind · f) ilock db
        (applyAll db (insertRow t row taken refs entries mem db).writes)
        (insertRow t row taken refs entries mem db).locks := by
  rcases insertRow_cases t row taken refs entries mem db with ⟨e, h⟩ | ⟨h, hkey, htaken, -⟩
  · rw [h]
    exact ⟨hunique, fun x e he => Or.inl he⟩
  · rw [h]
    have hlook : ∀ k, (db.put t row).get t k = if t.key row = k then some row else db.get t k :=
      get_put db t row
    constructor
    · refine unique_of_rows fun r hr r' hr' e he he' => ?_
      have hcases : ∀ x ∈ (db.put t row).rows t, x = row ∨ x ∈ db.rows t := fun x hx => by
        rw [put_rows_self] at hx
        exact mem_putRow hx
      rcases hcases r hr with rfl | hold
      · rcases hcases r' hr' with rfl | hold'
        · rfl
        · exact absurd he (hfree htaken r' hold' e he')
      · rcases hcases r' hr' with rfl | hold'
        · exact absurd he' (hfree htaken r hold e he)
        · exact unique_rows hunique hkeyed hold hold' he he'
    · intro k e he
      change ((db.put t row).get t k).bind f = some e at he
      rw [hlook] at he
      split at he
      · exact Or.inr (List.mem_append_left _ (hlock e he))
      · exact Or.inl he

end Unique

end SylvaServer
