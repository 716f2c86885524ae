/-
  Reading a sorted list page by page when every page is sorted anew.

  An `ORDER BY` leaves open in which order rows of the same key come, and may answer differently on
  each page. The pages still cover the rows once each where no two rows of the same key lie on
  the two sides of a page boundary.

  Proved: a cut between different keys does not depend on the arrangement (`take_perm`), so the
  pages are the rows once each and in order (`pages_perm`, `pages_sorted`), and a tie across a
  boundary has arrangements that show a row twice (`exists_repeated`).
-/
import Mathlib.Data.List.Nodup
import Mathlib.Data.List.Sort
import Mathlib.Order.Defs.LinearOrder

namespace Paging

variable {α κ : Type} [LinearOrder κ] {key : α → κ} {rows L L' : List α} {n : ℕ}

/-- The rows in an order that `ORDER BY key DESC` allows. -/
structure Arranged (key : α → κ) (rows L : List α) : Prop where
  perm : L.Perm rows
  sorted : L.Pairwise fun a b => key b ≤ key a

/-- The first pages, each from an arrangement of its own. -/
def pages (n : ℕ) (Ls : ℕ → List α) : ℕ → List α
  | 0 => []
  | j + 1 => pages n Ls j ++ ((Ls j).drop (j * n)).take n

/-- The keys in order. -/
def sortedKeys (key : α → κ) (rows : List α) : List κ := (rows.map key).insertionSort (· ≥ ·)

/-- No key on both sides of a page boundary. -/
def NoTie (key : α → κ) (n : ℕ) (rows : List α) : Prop :=
  ∀ j, 0 < j → ∀ k, (sortedKeys key rows)[j * n - 1]? = some k →
    (sortedKeys key rows)[j * n]? ≠ some k

theorem Arranged.keys (h : Arranged key rows L) : L.map key = sortedKeys key rows := by
  have hsorted : (sortedKeys key rows).Pairwise (· ≥ ·) := List.pairwise_insertionSort _ _
  have hperm : (L.map key).Perm (sortedKeys key rows) :=
    (h.perm.map key).trans (List.perm_insertionSort _ _).symm
  exact hperm.eq_of_pairwise (fun a b _ _ hab hba => le_antisymm hba hab)
    (List.pairwise_map.mpr h.sorted) hsorted

theorem Arranged.length (h : Arranged key rows L) : L.length = rows.length := h.perm.length_eq

/-- A key between the rows before a cut and those after it. -/
theorem Arranged.take_eq {m : ℕ} {c : κ} (hbefore : ∀ a ∈ L.take m, c ≤ key a)
    (hafter : ∀ a ∈ L.drop m, key a < c) : L.take m = L.filter fun a => c ≤ key a := by
  have hsplit : (L.take m ++ L.drop m).filter (fun a => c ≤ key a) = L.take m := by
    rw [List.filter_append, List.filter_eq_self.mpr fun a ha => by simpa using hbefore a ha,
      List.filter_eq_nil_iff.mpr fun a ha => by simpa using hafter a ha, List.append_nil]
  rw [List.take_append_drop] at hsplit
  exact hsplit.symm

/-- **A cut between different keys is the same in every arrangement**, up to order. -/
theorem take_perm (h : Arranged key rows L) (h' : Arranged key rows L') {m : ℕ} (hm : 0 < m)
    (hcut : ∀ k, (sortedKeys key rows)[m - 1]? = some k → (sortedKeys key rows)[m]? ≠ some k) :
    (L.take m).Perm (L'.take m) := by
  rcases le_or_gt rows.length m with hle | hlt
  · rw [List.take_of_length_le (h.length.trans_le hle),
      List.take_of_length_le (h'.length.trans_le hle)]
    exact h.perm.trans h'.perm.symm
  have hlen : (sortedKeys key rows).length = rows.length := by
    rw [← h.keys, List.length_map, h.length]
  have hpred : m - 1 < (sortedKeys key rows).length := by omega
  have hself : m < (sortedKeys key rows).length := by omega
  have hsorted : (sortedKeys key rows).Pairwise (· ≥ ·) := List.pairwise_insertionSort _ _
  have hne : (sortedKeys key rows)[m] ≠ (sortedKeys key rows)[m - 1] := by
    intro he
    refine hcut _ (List.getElem?_eq_getElem hpred) ?_
    rw [List.getElem?_eq_getElem hself, he]
  have hle : (sortedKeys key rows)[m] ≤ (sortedKeys key rows)[m - 1] :=
    List.pairwise_iff_getElem.mp hsorted (m - 1) m hpred hself (by omega)
  have hgap := lt_of_le_of_ne hle hne
  -- the key of the last row before the cut tells the rows before it from those after it
  have hside : ∀ M, Arranged key rows M →
      M.take m = M.filter fun a => (sortedKeys key rows)[m - 1] ≤ key a := by
    intro M hM
    have hkeys := hM.keys
    refine Arranged.take_eq (fun a ha => ?_) fun a ha => ?_
    · obtain ⟨i, hi, rfl⟩ := List.mem_iff_getElem.mp ha
      have hi' : i < m ∧ i < M.length := by simpa using hi
      have hin : i < (sortedKeys key rows).length := by omega
      have hval : key (M.take m)[i] = (sortedKeys key rows)[i] := by
        simp only [List.getElem_take, ← hkeys, List.getElem_map]
      rw [hval]
      rcases Nat.lt_or_ge i (m - 1) with hilt | hige
      · exact List.pairwise_iff_getElem.mp hsorted i (m - 1) (by omega) hpred hilt
      · have hieq : i = m - 1 := by omega
        subst hieq
        exact le_rfl
    · obtain ⟨i, hi, rfl⟩ := List.mem_iff_getElem.mp ha
      have hi' : i < M.length - m := by simpa using hi
      have hlenM := hM.length
      have hin : m + i < (sortedKeys key rows).length := by omega
      have hval : key (M.drop m)[i] = (sortedKeys key rows)[m + i] := by
        simp only [List.getElem_drop, ← hkeys, List.getElem_map]
      rw [hval]
      refine lt_of_le_of_lt ?_ hgap
      rcases Nat.eq_zero_or_pos i with rfl | hipos
      · exact le_rfl
      · exact List.pairwise_iff_getElem.mp hsorted m (m + i) hself (by omega) (by omega)
  rw [hside L h, hside L' h']
  exact (h.perm.trans h'.perm.symm).filter _

/-- **The pages are the first rows**, in whatever order. -/
theorem pages_perm {Ls : ℕ → List α} (hn : 0 < n) (hLs : ∀ j, Arranged key rows (Ls j))
    (htie : NoTie key n rows) (j : ℕ) (hL : Arranged key rows L) :
    (pages n Ls j).Perm (L.take (j * n)) := by
  induction j generalizing L with
  | zero =>
    rw [Nat.zero_mul, List.take_zero]
    exact List.Perm.refl _
  | succ j ih =>
    have hpage : (pages n Ls (j + 1)).Perm ((Ls j).take ((j + 1) * n)) := by
      rw [Nat.succ_mul, List.take_add]
      exact (ih (hLs j)).append_right _
    exact hpage.trans (take_perm (hLs j) hL (Nat.mul_pos (Nat.succ_pos j) hn)
      (htie (j + 1) (Nat.succ_pos j)))

theorem pages_sorted {Ls : ℕ → List α} (hn : 0 < n) (hLs : ∀ j, Arranged key rows (Ls j))
    (htie : NoTie key n rows) (j : ℕ) : (pages n Ls j).Pairwise fun a b => key b ≤ key a := by
  induction j with
  | zero => exact List.Pairwise.nil
  | succ j ih =>
    have hwhole := (hLs j).sorted
    rw [← List.take_append_drop (j * n) (Ls j)] at hwhole
    obtain ⟨-, hdrop, hcross⟩ := List.pairwise_append.mp hwhole
    refine List.pairwise_append.mpr ⟨ih, hdrop.sublist (List.take_sublist _ _), fun a ha b hb => ?_⟩
    exact hcross a ((pages_perm hn hLs htie j (hLs j)).mem_iff.mp ha) b (List.mem_of_mem_take hb)

/-- All pages. -/
theorem pages_all {Ls : ℕ → List α} (hn : 0 < n) (hLs : ∀ j, Arranged key rows (Ls j))
    (htie : NoTie key n rows) {j : ℕ} (hj : rows.length ≤ j * n) :
    Arranged key rows (pages n Ls j) := by
  refine ⟨?_, pages_sorted hn hLs htie j⟩
  have hperm := pages_perm hn hLs htie j (hLs 0)
  rw [List.take_of_length_le ((hLs 0).length.trans_le hj)] at hperm
  exact hperm.trans (hLs 0).perm

/-! ## Ties -/

/-- The pages of one arrangement. -/
theorem pages_const (j : ℕ) {Ls : ℕ → List α} (h : ∀ i < j, Ls i = L) :
    pages n Ls j = L.take (j * n) := by
  induction j with
  | zero => simp [pages]
  | succ j ih =>
    rw [pages, ih fun i hi => h i (by omega), h j (by omega), Nat.succ_mul, List.take_add]

theorem pages_mono {Ls : ℕ → List α} {j j' : ℕ} (h : j ≤ j') : pages n Ls j <+: pages n Ls j' := by
  induction j' with
  | zero =>
    obtain rfl : j = 0 := by omega
    exact List.prefix_rfl
  | succ j' ih =>
    rcases Nat.lt_or_ge j' j with hlt | hge
    · obtain rfl : j = j' + 1 := by omega
      exact List.prefix_rfl
    · exact (ih hge).trans (List.prefix_append _ _)

/-- **A tie across a boundary has arrangements that show a row twice.** -/
theorem exists_repeated (hn : 0 < n) (hL : Arranged key rows L) (htie : ¬ NoTie key n rows) :
    ∃ (j : ℕ) (L' : List α), 0 < j ∧ j * n < rows.length ∧ Arranged key rows L' ∧
      ∀ j', j < j' → ¬ (pages n (fun i => if i = j then L' else L) j').Nodup := by
  simp only [NoTie, not_forall, not_not] at htie
  obtain ⟨j, hj, k, hpred, hself⟩ := htie
  have hpos : 0 < j * n := Nat.mul_pos hj hn
  rw [← hL.keys, List.getElem?_map, Option.map_eq_some_iff] at hpred hself
  obtain ⟨x, hx, hxk⟩ := hpred
  obtain ⟨y, hy, hyk⟩ := hself
  obtain ⟨hxlt, rfl⟩ := List.getElem?_eq_some_iff.mp hx
  obtain ⟨hylt, rfl⟩ := List.getElem?_eq_some_iff.mp hy
  have hsplit : L = L.take (j * n - 1) ++ (L[j * n - 1] :: L[j * n] :: L.drop (j * n + 1)) := by
    have hfirst := List.drop_eq_getElem_cons hxlt
    have hsecond := List.drop_eq_getElem_cons hylt
    have hnext : j * n - 1 + 1 = j * n := by omega
    rw [hnext] at hfirst
    rw [← hsecond, ← hfirst, List.take_append_drop]
  generalize hp : L.take (j * n - 1) = p at hsplit
  generalize hr : L.drop (j * n + 1) = r at hsplit
  generalize L[j * n - 1] = x at hsplit hxk
  generalize L[j * n] = y at hsplit hyk
  have hplen : p.length = j * n - 1 := by
    rw [← hp, List.length_take]
    omega
  have hswap : Arranged key rows (p ++ (y :: x :: r)) := by
    have hsorted := hL.sorted
    refine ⟨?_, ?_⟩
    · refine List.Perm.trans ?_ hL.perm
      rw [hsplit]
      exact (List.Perm.swap x y r).append_left p
    · rw [hsplit] at hsorted
      obtain ⟨hleft, hright, hcross⟩ := List.pairwise_append.mp hsorted
      refine List.pairwise_append.mpr ⟨hleft, ?_, fun a ha b hb =>
        hcross a ha b (by simp at hb ⊢; tauto)⟩
      simp only [List.pairwise_cons, List.mem_cons] at hright ⊢
      refine ⟨fun b hb => ?_, fun b hb => ?_, hright.2.2⟩
      · rcases hb with rfl | hb
        · rw [hxk, hyk]
        · exact hright.2.1 b hb
      · exact hright.1 b (Or.inr hb)
  have hlt : j * n < rows.length := hL.length ▸ hylt
  refine ⟨j, p ++ (y :: x :: r), hj, hlt, hswap, fun j' hj' hnodup => ?_⟩
  have hprefix := @pages_mono _ n (fun i => if i = j then p ++ (y :: x :: r) else L) _ _
    (show j + 1 ≤ j' by omega)
  have hsmall := hnodup.sublist hprefix.sublist
  rw [pages, pages_const j fun i hi => if_neg (by omega)] at hsmall
  -- `x` is the last row of the pages before and the first row of page `j`
  have hbefore : x ∈ L.take (j * n) := by
    have htake : L.take (j * n) = p ++ [x] := by
      rw [hsplit, List.take_append, hplen, List.take_of_length_le (by omega)]
      have hone : j * n - (j * n - 1) = 1 := by omega
      rw [hone]
      rfl
    rw [htake]
    simp
  have hpage : x ∈ ((p ++ (y :: x :: r)).drop (j * n)).take n := by
    have hdrop : (p ++ (y :: x :: r)).drop (j * n) = x :: r := by
      rw [List.drop_append, hplen, List.drop_of_length_le (by omega)]
      have hone : j * n - (j * n - 1) = 1 := by omega
      rw [hone]
      rfl
    rw [hdrop]
    obtain ⟨m, rfl⟩ := Nat.exists_eq_succ_of_ne_zero hn.ne'
    simp
  simp only [if_true] at hsmall
  exact (List.nodup_append.mp hsmall).2.2 x hbefore x hpage rfl

end Paging
