/-
  Where a text can be cut at a marker.

  A marker is a word that starts with a letter it does not contain again, such as a line break
  and the name of a field. Two ways of writing one text around a marker are the same, or one
  marker lies wholly before the other (`marker_cut`). Two markers that no text starts with both
  of never lie at the same place (`marker_cut_apart`).
-/
import Mathlib.Data.List.Infix
import Mathlib.Tactic.Common

namespace Marker

variable {α : Type}

/-- A word whose first letter occurs in it once. -/
def IsMarker (nl : α) (m : List α) : Prop := ∃ body, m = nl :: body ∧ nl ∉ body

/-- No text starts with both words. -/
def Apart (m m' : List α) : Prop := ∀ r r', m ++ r ≠ m' ++ r'

theorem apart_cons {nl c c' : α} {b b' : List α} (h : c ≠ c') :
    Apart (nl :: c :: b) (nl :: c' :: b') := by
  intro r r' he
  simp only [List.cons_append, List.cons.injEq] at he
  exact h he.2.1

theorem Apart.symm {m m' : List α} (h : Apart m m') : Apart m' m := fun r r' he => h r' r he.symm

/-- What follows a nonempty piece of a marker does not start with its first letter. -/
theorem marker_tail {nl : α} {m z y : List α} (hm : IsMarker nl m) (hz : z ≠ []) (h : m = z ++ y) :
    nl ∉ y := by
  obtain ⟨body, rfl, hbody⟩ := hm
  cases z with
  | nil => exact absurd rfl hz
  | cons c z =>
    obtain ⟨-, rfl⟩ := List.cons.inj h
    exact fun hy => hbody (by simp [hy])

/-- A text that starts with one marker and, after a nonempty piece, with another. -/
theorem marker_shift {nl : α} {m m' z r r' : List α} (hm : IsMarker nl m) (hm' : IsMarker nl m')
    (hz : z ≠ []) (h : m ++ r = z ++ (m' ++ r')) : ∃ y, z = m ++ y ∧ r = y ++ (m' ++ r') := by
  rcases List.append_eq_append_iff.mp h with ⟨y, hzy, hr⟩ | ⟨y, hmy, hr⟩
  · exact ⟨y, hzy, hr⟩
  · have hnl := marker_tail hm hz hmy
    cases y with
    | nil => exact ⟨[], by simpa using hmy.symm, by simpa using hr.symm⟩
    | cons c y =>
      obtain ⟨body, rfl, -⟩ := hm'
      obtain ⟨rfl, -⟩ := List.cons.inj hr
      exact absurd (by simp) hnl

/-- **Two cuts of one text.** -/
theorem marker_cut {nl : α} {m m' x x' r r' : List α} (hm : IsMarker nl m) (hm' : IsMarker nl m')
    (h : x ++ (m ++ r) = x' ++ (m' ++ r')) :
    (x = x' ∧ m ++ r = m' ++ r') ∨ (∃ y, x' = x ++ (m ++ y) ∧ r = y ++ (m' ++ r')) ∨
      (∃ y, x = x' ++ (m' ++ y) ∧ r' = y ++ (m ++ r)) := by
  rcases List.append_eq_append_iff.mp h with ⟨z, hx, hz⟩ | ⟨z, hx, hz⟩
  · by_cases hnil : z = []
    · subst hnil
      exact Or.inl ⟨by simpa using hx.symm, hz⟩
    · obtain ⟨y, rfl, hr⟩ := marker_shift hm hm' hnil hz
      exact Or.inr (Or.inl ⟨y, hx, hr⟩)
  · by_cases hnil : z = []
    · subst hnil
      exact Or.inl ⟨by simpa using hx, hz.symm⟩
    · obtain ⟨y, rfl, hr⟩ := marker_shift hm' hm hnil hz
      exact Or.inr (Or.inr ⟨y, hx, hr⟩)

theorem marker_cut_apart {nl : α} {m m' x x' r r' : List α} (hm : IsMarker nl m)
    (hm' : IsMarker nl m') (ha : Apart m m') (h : x ++ (m ++ r) = x' ++ (m' ++ r')) :
    (∃ y, x' = x ++ (m ++ y) ∧ r = y ++ (m' ++ r')) ∨
      (∃ y, x = x' ++ (m' ++ y) ∧ r' = y ++ (m ++ r)) := by
  rcases marker_cut hm hm' h with ⟨-, hr⟩ | h | h
  · exact absurd hr (ha r r')
  · exact Or.inl h
  · exact Or.inr h

/-- A marker that is not in the first part lies after the other one. -/
theorem marker_later {nl : α} {m m' x x' r r' : List α} (hm : IsMarker nl m) (hm' : IsMarker nl m')
    (ha : Apart m m') (hx : ¬ m <:+: x') (h : x ++ (m ++ r) = x' ++ (m' ++ r')) :
    ∃ y, x = x' ++ (m' ++ y) ∧ r' = y ++ (m ++ r) := by
  rcases marker_cut_apart hm hm' ha h with ⟨y, hy, -⟩ | h
  · exact absurd ⟨x, y, by rw [hy, List.append_assoc]⟩ hx
  · exact h

/-- A piece without the first letter holds no marker. -/
theorem not_infix_of_not_mem {nl : α} {m x : List α} (hm : IsMarker nl m) (hx : nl ∉ x) :
    ¬ m <:+: x := by
  intro h
  obtain ⟨body, rfl, -⟩ := hm
  exact hx (h.subset (by simp))

/-- A text cut at the first marker after a piece without its first letter. -/
theorem marker_first {nl : α} {m x x' r r' : List α} (hm : IsMarker nl m) (hx : nl ∉ x)
    (hx' : nl ∉ x') (h : x ++ (m ++ r) = x' ++ (m ++ r')) : x = x' ∧ r = r' := by
  rcases marker_cut hm hm h with ⟨rfl, hr⟩ | ⟨y, hy, -⟩ | ⟨y, hy, -⟩
  · exact ⟨rfl, List.append_cancel_left hr⟩
  · exact absurd ⟨x, y, by rw [hy, List.append_assoc]⟩ (not_infix_of_not_mem hm hx')
  · exact absurd ⟨x', y, by rw [hy, List.append_assoc]⟩ (not_infix_of_not_mem hm hx)

end Marker
