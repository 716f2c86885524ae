/-
  Reading a list page by page behind a cursor.

  Each page is the first rows with a key below the key of the last row read. On a list with
  decreasing keys the pages are consecutive pieces of it, and the first empty page is the end.

  Proved: what is below the last row of a piece is the rest (`filter_below`), and the walk to the
  first empty page reads the list once and in order (`walk_reads`).
-/
import Mathlib.Data.List.Sort
import Mathlib.Order.Defs.LinearOrder

namespace Cursor

variable {α κ : Type} [LinearOrder κ] {key : α → κ} {rows : List α} {n m : ℕ} {x : α}

/-- **The rows below the last one read** are those not read yet. -/
theorem filter_below (h : rows.Pairwise fun a b => key b < key a)
    (hx : (rows.take m).getLast? = some x) :
    rows.filter (fun a => key a < key x) = rows.drop m := by
  obtain ⟨init, hinit⟩ := List.getLast?_eq_some_iff.mp hx
  have hsplit := h
  rw [← List.take_append_drop m rows] at hsplit
  obtain ⟨htake, -, hcross⟩ := List.pairwise_append.mp hsplit
  have hread : (rows.take m).filter (fun a => key a < key x) = [] := by
    refine List.filter_eq_nil_iff.mpr fun a ha => ?_
    rw [hinit] at ha htake
    rcases List.mem_append.mp ha with ha | ha
    · have := (List.pairwise_append.mp htake).2.2 a ha x (List.mem_singleton_self x)
      simpa using this.le
    · obtain rfl := List.mem_singleton.mp ha
      simp
  have hrest : (rows.drop m).filter (fun a => key a < key x) = rows.drop m := by
    refine List.filter_eq_self.mpr fun a ha => ?_
    simpa using hcross x (List.mem_of_getLast? hx) a ha
  conv_lhs => rw [← List.take_append_drop m rows]
  rw [List.filter_append, hread, hrest, List.nil_append]

/-- The pages of a walk: the first rows, then the first rows below the last one read. -/
structure Pages (key : α → κ) (n : ℕ) (rows : List α) (pages : ℕ → List α) : Prop where
  first : pages 0 = rows.take n
  next : ∀ k, ∀ x ∈ rows, (pages k).getLast? = some x →
    pages (k + 1) = (rows.filter fun a => key a < key x).take n

variable {pages : ℕ → List α}

/-- Pages that are pieces of the list, one after the other. -/
theorem flatMap_pages (k : ℕ) (h : ∀ i < k, pages i = (rows.drop (i * n)).take n) :
    (List.range k).flatMap pages = rows.take (k * n) := by
  induction k with
  | zero => simp
  | succ k ih =>
    rw [List.range_succ, List.flatMap_append, ih fun i hi => h i (by omega), List.flatMap_singleton,
      h k (by omega), Nat.succ_mul, List.take_add]

theorem Pages.page (h : Pages key n rows pages) (hn : 0 < n)
    (hsorted : rows.Pairwise fun a b => key b < key a) (k : ℕ) (hk : ∀ i < k, i * n < rows.length) :
    pages k = (rows.drop (k * n)).take n := by
  induction k with
  | zero => simpa using h.first
  | succ k ih =>
    have hpage := ih fun i hi => hk i (by omega)
    have hlt := hk k (by omega)
    have hne : pages k ≠ [] := by
      rw [hpage]
      refine List.ne_nil_of_length_pos ?_
      rw [List.length_take, List.length_drop]
      omega
    obtain ⟨x, hx⟩ := Option.ne_none_iff_exists'.mp (mt List.getLast?_eq_none_iff.mp hne)
    have hread : (rows.take ((k + 1) * n)).getLast? = some x := by
      rw [Nat.succ_mul, List.take_add, ← hpage, List.getLast?_append_of_ne_nil _ hne, hx]
    rw [h.next k x (List.mem_of_mem_take (List.mem_of_getLast? hread)) hx,
      filter_below hsorted hread]

/-- **The walk ends**, and reads every row once and in order. -/
theorem walk_reads (h : Pages key n rows pages) (hn : 0 < n)
    (hsorted : rows.Pairwise fun a b => key b < key a) :
    ∃ k, (∀ i < k, pages i ≠ []) ∧ pages k = [] ∧ (List.range k).flatMap pages = rows := by
  -- the first page that begins past the end
  have hend : ∃ k, rows.length ≤ k * n := ⟨rows.length, Nat.le_mul_of_pos_right _ hn⟩
  have hbefore : ∀ i < Nat.find hend, i * n < rows.length :=
    fun i hi => not_le.mp (Nat.find_min hend hi)
  have hpage : ∀ k ≤ Nat.find hend, pages k = (rows.drop (k * n)).take n := fun k hk =>
    h.page hn hsorted k fun i hi => hbefore i (by omega)
  refine ⟨Nat.find hend, fun i hi => ?_, ?_, ?_⟩
  · have := hbefore i hi
    rw [hpage i hi.le]
    refine List.ne_nil_of_length_pos ?_
    rw [List.length_take, List.length_drop]
    omega
  · rw [hpage _ le_rfl, List.drop_of_length_le (Nat.find_spec hend), List.take_nil]
  · rw [flatMap_pages _ fun i hi => hpage i hi.le, List.take_of_length_le (Nat.find_spec hend)]

end Cursor
