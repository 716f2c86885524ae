/-
  A table as a list of rows with a key: writing a row replaces the row of the same key or adds
  one at the end.
-/
import Mathlib.Data.List.Basic
import Mathlib.Data.List.Nodup
import Mathlib.Tactic.Common

namespace ReadCommitted

variable {R κ : Type} [DecidableEq κ] {key : R → κ}

/-- Write row `r` under its key. -/
def putRow (key : R → κ) (r : R) : List R → List R
  | [] => [r]
  | x :: xs => if key x = key r then r :: xs else x :: putRow key r xs

theorem putRow_fresh {r : R} {rows : List R} (h : ∀ x ∈ rows, key x ≠ key r) :
    putRow key r rows = rows ++ [r] := by
  induction rows with
  | nil => rfl
  | cons x xs ih =>
    rw [putRow, if_neg (h x (by simp)), ih fun y hy => h y (by simp [hy])]
    rfl

theorem mem_putRow {r x : R} {rows : List R} (h : x ∈ putRow key r rows) : x = r ∨ x ∈ rows := by
  induction rows with
  | nil => exact Or.inl (by simpa [putRow] using h)
  | cons y ys ih =>
    rw [putRow] at h
    split at h
    · rcases List.mem_cons.mp h with rfl | h
      · exact Or.inl rfl
      · exact Or.inr (by simp [h])
    · rcases List.mem_cons.mp h with rfl | h
      · exact Or.inr (by simp)
      · rcases ih h with h | h
        · exact Or.inl h
        · exact Or.inr (by simp [h])

theorem mem_putRow_self (r : R) (rows : List R) : r ∈ putRow key r rows := by
  induction rows with
  | nil => simp [putRow]
  | cons y ys ih =>
    rw [putRow]
    split
    · simp
    · simp [ih]

theorem mem_putRow_of_ne {r x : R} {rows : List R} (hx : x ∈ rows) (hk : key x ≠ key r) :
    x ∈ putRow key r rows := by
  induction rows with
  | nil => exact absurd hx (by simp)
  | cons y ys ih =>
    rw [putRow]
    split
    · next hy =>
      rcases List.mem_cons.mp hx with rfl | hx
      · exact absurd hy hk
      · simp [hx]
    · rcases List.mem_cons.mp hx with rfl | hx
      · simp
      · simp [ih hx]

/-- The row of a key. -/
theorem find?_putRow (r : R) (rows : List R) (k : κ) : (putRow key r rows).find? (key · == k) =
    if key r = k then some r else rows.find? (key · == k) := by
  induction rows with
  | nil =>
    by_cases hk : key r = k <;> simp [putRow, hk]
  | cons y ys ih =>
    rw [putRow]
    split
    · next hy =>
      by_cases hk : key r = k
      · simp [hk]
      · rw [List.find?_cons_of_neg (by simpa using hk), if_neg hk,
          List.find?_cons_of_neg (by simpa [hy] using hk)]
    · next hy =>
      by_cases hyk : key y = k
      · have hk : key r ≠ k := fun he => hy (hyk.trans he.symm)
        rw [List.find?_cons_of_pos (by simpa using hyk), if_neg hk,
          List.find?_cons_of_pos (by simpa using hyk)]
      · rw [List.find?_cons_of_neg (by simpa using hyk), ih,
          List.find?_cons_of_neg (by simpa using hyk)]

/-- The row of a key, once another one is removed. -/
theorem find?_filter_ne (rows : List R) (k k' : κ) :
    (rows.filter (key · != k')).find? (key · == k) =
    if k' = k then none else rows.find? (key · == k) := by
  rw [List.find?_filter]
  split
  · next h =>
    rw [List.find?_eq_none]
    rintro r -
    simp [h]
  · next h =>
    congr 1
    funext r
    by_cases hk : key r = k
    · simp [hk, Ne.symm h]
    · simp [hk]

/-- Writing a row of `p` under a key that only rows of `p` have. -/
theorem filter_putRow_of_pos {p : R → Bool} {r : R} {rows : List R} (hr : p r)
    (h : ∀ x ∈ rows, key x = key r → p x) :
    (putRow key r rows).filter p = putRow key r (rows.filter p) := by
  induction rows with
  | nil => simp [putRow, hr]
  | cons y ys ih =>
    have ih := ih fun x hx => h x (by simp [hx])
    by_cases hk : key y = key r
    · rw [putRow, if_pos hk, List.filter_cons_of_pos hr, List.filter_cons_of_pos (h y (by simp) hk),
        putRow, if_pos hk]
    · rw [putRow, if_neg hk]
      by_cases hy : p y
      · rw [List.filter_cons_of_pos hy, List.filter_cons_of_pos hy, ih, putRow, if_neg hk]
      · rw [List.filter_cons_of_neg hy, List.filter_cons_of_neg hy, ih]

/-- Writing a row outside `p` under a key that no row of `p` has. -/
theorem filter_putRow_of_neg {p : R → Bool} {r : R} {rows : List R} (hr : ¬ p r)
    (h : ∀ x ∈ rows, key x = key r → ¬ p x) : (putRow key r rows).filter p = rows.filter p := by
  induction rows with
  | nil => simp [putRow, hr]
  | cons y ys ih =>
    by_cases hk : key y = key r
    · rw [putRow, if_pos hk, List.filter_cons_of_neg hr, List.filter_cons_of_neg (h y (by simp) hk)]
    · rw [putRow, if_neg hk, List.filter_cons, List.filter_cons, ih fun x hx => h x (by simp [hx])]

/-- A map that keeps the key. -/
theorem map_putRow {g : R → R} (hg : ∀ x, key (g x) = key x) (r : R) (rows : List R) :
    (putRow key r rows).map g = putRow key (g r) (rows.map g) := by
  induction rows with
  | nil => rfl
  | cons y ys ih =>
    rw [putRow, List.map_cons, putRow, hg, hg]
    split
    · rfl
    · rw [List.map_cons, ih]

/-- No key occurs twice. -/
def Keyed (key : R → κ) (rows : List R) : Prop := (rows.map key).Nodup

instance (rows : List R) : Decidable (Keyed key rows) := inferInstanceAs (Decidable (List.Nodup _))

omit [DecidableEq κ] in
theorem Keyed.eq {rows : List R} (h : Keyed key rows) {x y : R} (hx : x ∈ rows) (hy : y ∈ rows)
    (hk : key x = key y) : x = y := List.inj_on_of_nodup_map h hx hy hk

omit [DecidableEq κ] in
theorem keyed_filter {rows : List R} (h : Keyed key rows) (p : R → Bool) :
    Keyed key (rows.filter p) := by
  unfold Keyed
  exact List.Nodup.sublist (List.filter_sublist.map key) h

omit [DecidableEq κ] in
theorem keyed_map {rows : List R} (h : Keyed key rows) {g : R → R} (hg : ∀ r, key (g r) = key r) :
    Keyed key (rows.map g) := by
  have hkeys : key ∘ g = key := funext hg
  unfold Keyed
  rw [List.map_map, hkeys]
  exact h

omit [DecidableEq κ] in
/-- At most one row has a key. -/
theorem keyed_filter_cases {rows : List R} (h : Keyed key rows) {p : R → Bool} {k : κ}
    (hp : ∀ r, p r → key r = k) : rows.filter p = [] ∨ ∃ r ∈ rows, p r ∧ rows.filter p = [r] := by
  have hmem : ∀ r ∈ rows.filter p, r ∈ rows ∧ p r := fun r hr => List.mem_filter.mp hr
  have hfilter := keyed_filter h p
  cases hrows : rows.filter p with
  | nil => exact Or.inl rfl
  | cons r rs =>
    right
    rw [hrows] at hmem hfilter
    obtain ⟨hr, hpr⟩ := hmem r List.mem_cons_self
    refine ⟨r, hr, hpr, ?_⟩
    have hnil : rs = [] := by
      refine List.eq_nil_iff_forall_not_mem.mpr fun x hx => ?_
      refine (List.nodup_cons.mp hfilter).1 (List.mem_map.mpr ⟨x, hx, ?_⟩)
      rw [hp r hpr, hp x (hmem x (List.mem_cons_of_mem _ hx)).2]
    rw [hnil]

omit [DecidableEq κ] in
/-- A filter that finds a row and no other key. -/
theorem keyed_filter_eq {rows : List R} (h : Keyed key rows) {r : R} (hr : r ∈ rows) {p : R → Bool}
    (hp : ∀ x, p x → key x = key r) (hpr : p r) : rows.filter p = [r] := by
  rcases keyed_filter_cases h hp with hnil | ⟨x, hx, hpx, hone⟩
  · exact absurd hpr (List.filter_eq_nil_iff.mp hnil r hr)
  · rw [hone, h.eq hx hr (hp x hpx)]

theorem find?_of_mem {rows : List R} (h : Keyed key rows) {r : R} (hr : r ∈ rows) :
    rows.find? (key · == key r) = some r := by
  cases hf : rows.find? (key · == key r) with
  | none => exact absurd (List.find?_eq_none.mp hf r hr) (by simp)
  | some x =>
    have hx : key x = key r := by simpa using List.find?_some hf
    rw [h.eq (List.mem_of_find?_eq_some hf) hr hx]

theorem mem_putRow_iff {r x : R} {rows : List R} (h : Keyed key rows) :
    x ∈ putRow key r rows ↔ x = r ∨ (x ∈ rows ∧ key x ≠ key r) := by
  induction rows with
  | nil => simp [putRow]
  | cons y ys ih =>
    obtain ⟨hy, hys⟩ := List.nodup_cons.mp h
    rw [putRow]
    split
    · next he =>
      have hne : x ∈ ys → key x ≠ key r := fun hx hk =>
        hy (List.mem_map.mpr ⟨x, hx, hk.trans he.symm⟩)
      constructor
      · intro hx
        rcases List.mem_cons.mp hx with rfl | hx
        · exact Or.inl rfl
        · exact Or.inr ⟨by simp [hx], hne hx⟩
      · rintro (rfl | ⟨hx, hk⟩)
        · simp
        · rcases List.mem_cons.mp hx with rfl | hx
          · exact absurd he hk
          · simp [hx]
    · next he =>
      rw [List.mem_cons, ih hys, List.mem_cons]
      constructor
      · rintro (rfl | rfl | ⟨hx, hk⟩)
        · exact Or.inr ⟨Or.inl rfl, he⟩
        · exact Or.inl rfl
        · exact Or.inr ⟨Or.inr hx, hk⟩
      · rintro (rfl | ⟨rfl | hx, hk⟩)
        · exact Or.inr (Or.inl rfl)
        · exact Or.inl rfl
        · exact Or.inr (Or.inr ⟨hx, hk⟩)

theorem keyed_putRow {r : R} {rows : List R} (h : Keyed key rows) :
    Keyed key (putRow key r rows) := by
  induction rows with
  | nil => simp [Keyed, putRow]
  | cons y ys ih =>
    obtain ⟨hy, hys⟩ := List.nodup_cons.mp h
    rw [putRow]
    split
    · next he => exact List.nodup_cons.mpr ⟨he ▸ hy, hys⟩
    · next he =>
      refine List.nodup_cons.mpr ⟨fun hmem => ?_, ih hys⟩
      obtain ⟨x, hx, hxy⟩ := List.mem_map.mp hmem
      rcases mem_putRow hx with rfl | hx
      · exact he hxy.symm
      · exact hy (List.mem_map.mpr ⟨x, hx, hxy⟩)

/-! ### Whole tables -/

theorem putRow_eq_map {r : R} {rows : List R} (h : Keyed key rows)
    (hr : ∃ x ∈ rows, key x = key r) :
    putRow key r rows = rows.map fun y => if key y = key r then r else y := by
  induction rows with
  | nil =>
    obtain ⟨x, hx, -⟩ := hr
    exact absurd hx (by simp)
  | cons y ys ih =>
    obtain ⟨hy, hys⟩ := List.nodup_cons.mp h
    rw [putRow, List.map_cons]
    split
    · next he =>
      have hrest : ∀ z ∈ ys, (if key z = key r then r else z) = z := fun z hz =>
        if_neg fun hk => hy (List.mem_map.mpr ⟨z, hz, hk.trans he.symm⟩)
      rw [List.map_congr_left hrest, List.map_id']
    · next he =>
      obtain ⟨x, hx, hk⟩ := hr
      rcases List.mem_cons.mp hx with rfl | hx
      · exact absurd hk he
      · rw [ih hys ⟨x, hx, hk⟩]

/-- Some rows of a table, each replaced by another with its key. -/
theorem foldl_putRow {f : R → R} (hf : ∀ r, key (f r) = key r) {xs rows : List R}
    (h : Keyed key rows) (hxs : ∀ x ∈ xs, x ∈ rows) (hnodup : Keyed key xs) :
    xs.foldl (fun acc r => putRow key (f r) acc) rows =
      rows.map fun y => if key y ∈ xs.map key then f y else y := by
  induction xs generalizing rows with
  | nil => simp
  | cons r rs ih =>
    obtain ⟨hr, hrs⟩ := List.nodup_cons.mp hnodup
    have hone : putRow key (f r) rows = rows.map fun y => if key y = key r then f y else y := by
      rw [putRow_eq_map h ⟨r, hxs r (by simp), (hf r).symm⟩, hf]
      refine List.map_congr_left fun y hy => ?_
      by_cases hk : key y = key r
      · rw [if_pos hk, if_pos hk, h.eq hy (hxs r (by simp)) hk]
      · rw [if_neg hk, if_neg hk]
    have hkeys : ∀ y, key (if key y = key r then f y else y) = key y := by
      intro y
      split
      · exact hf y
      · rfl
    rw [List.foldl_cons, hone, ih (keyed_map h hkeys) (fun x hx => ?_) hrs, List.map_map]
    · refine List.map_congr_left fun y _ => ?_
      simp only [Function.comp_apply, hkeys, List.map_cons, List.mem_cons]
      by_cases hk : key y = key r
      · rw [if_pos hk, if_pos (Or.inl hk), if_neg (hk ▸ hr)]
      · rw [if_neg hk]
        simp [hk]
    · have hne : key x ≠ key r := fun hk => hr (List.mem_map.mpr ⟨x, hx, hk⟩)
      exact List.mem_map.mpr ⟨x, hxs x (List.mem_cons_of_mem _ hx), if_neg hne⟩

end ReadCommitted
