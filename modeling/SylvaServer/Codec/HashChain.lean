/-
  Hash chains: every row carries the hash of the row before it and its own hash, which covers
  that one and the row's content.

  Proved: a valid chain grows by one row exactly when that row links to the tip
  (`valid_concat`), and the tip determines the contents of the whole chain, whatever its length
  (`Valid.determined`), when equal row hashes mean equal content and equal previous hashes and
  no row hash is the genesis hash.
-/
import Mathlib.Data.List.Basic
import Mathlib.Data.List.Chain

namespace HashChain

/-- How rows of type `Row` link up. -/
structure Scheme (Row Hash : Type) where
  genesis : Hash
  prev : Row → Hash
  hash : Row → Hash
  /-- The hash a row should carry, after this previous hash. -/
  link : Hash → Row → Hash

namespace Scheme

variable {Row Hash κ : Type} (c : Scheme Row Hash)

structure Valid (rows : List Row) : Prop where
  first : ∀ r ∈ rows.head?, c.prev r = c.genesis
  next : rows.IsChain fun a b => c.prev b = c.hash a
  own : ∀ r ∈ rows, c.hash r = c.link (c.prev r) r

/-- What the next row has to link to. -/
def tip (rows : List Row) : Hash := (rows.getLast?.map c.hash).getD c.genesis

@[simp] theorem tip_nil : c.tip [] = c.genesis := rfl

@[simp] theorem tip_concat (rows : List Row) (r : Row) : c.tip (rows ++ [r]) = c.hash r := by
  simp [tip]

theorem valid_nil : c.Valid [] := ⟨by simp, List.isChain_nil, by simp⟩

theorem valid_concat {rows : List Row} {r : Row} :
    c.Valid (rows ++ [r]) ↔
      c.Valid rows ∧ c.prev r = c.tip rows ∧ c.hash r = c.link (c.tip rows) r := by
  constructor
  · rintro ⟨hfirst, hnext, hown⟩
    obtain ⟨hn, -, hlast⟩ := List.isChain_append.mp hnext
    have hprev : c.prev r = c.tip rows := by
      cases h : rows.getLast? with
      | none =>
        rw [List.getLast?_eq_none_iff] at h
        subst h
        simpa using hfirst r (by simp)
      | some a => simpa [tip, h] using hlast a h r (by simp)
    refine ⟨⟨fun a ha => hfirst a ?_, hn, fun a ha => hown a (by simp [ha])⟩, hprev, ?_⟩
    · cases rows <;> simp_all
    · rw [← hprev]
      exact hown r (by simp)
  · rintro ⟨⟨hfirst, hnext, hown⟩, hprev, hhash⟩
    refine ⟨fun a ha => ?_, ?_, fun a ha => ?_⟩
    · cases rows with
      | nil =>
        obtain rfl : r = a := by simpa using ha
        simpa using hprev
      | cons b rows => exact hfirst a (by simpa using ha)
    · refine List.isChain_append.mpr ⟨hnext, List.isChain_singleton r, fun a ha b hb => ?_⟩
      obtain rfl : r = b := by simpa using hb
      rw [hprev, tip, Option.mem_def.mp ha]
      rfl
    · rcases List.mem_append.mp ha with ha | ha
      · exact hown a ha
      · obtain rfl : a = r := by simpa using ha
        rw [hprev]
        exact hhash

/-- A row links to genesis or to a row of the chain. -/
theorem Valid.prev_mem {c : Scheme Row Hash} {rows : List Row} (hv : c.Valid rows) {r : Row}
    (hr : r ∈ rows) : c.prev r = c.genesis ∨ ∃ a ∈ rows, c.prev r = c.hash a := by
  induction rows using List.reverseRecOn with
  | nil => exact absurd hr (by simp)
  | append_singleton rs s ih =>
    obtain ⟨hrs, hprev, -⟩ := c.valid_concat.mp hv
    rcases List.mem_append.mp hr with hr | hr
    · rcases ih hrs hr with h | ⟨a, ha, h⟩
      · exact Or.inl h
      · exact Or.inr ⟨a, by simp [ha], h⟩
    · obtain rfl : r = s := by simpa using hr
      rcases List.eq_nil_or_concat' rs with rfl | ⟨ss, a, rfl⟩
      · exact Or.inl (by simpa using hprev)
      · exact Or.inr ⟨a, by simp, by simpa using hprev⟩

/-- **The tip determines the chain.** -/
theorem Valid.determined {c : Scheme Row Hash} {rows rows' : List Row} (key : Row → κ)
    (hv : c.Valid rows) (hv' : c.Valid rows') (htip : c.tip rows = c.tip rows')
    (hinj : ∀ r ∈ rows, ∀ r' ∈ rows', c.hash r = c.hash r' → c.prev r = c.prev r' ∧ key r = key r')
    (hgen : ∀ r ∈ rows, c.hash r ≠ c.genesis) (hgen' : ∀ r ∈ rows', c.hash r ≠ c.genesis) :
    rows.map key = rows'.map key := by
  induction rows using List.reverseRecOn generalizing rows' with
  | nil =>
    rcases List.eq_nil_or_concat' rows' with rfl | ⟨ss, s, rfl⟩
    · rfl
    · exact absurd (by simpa using htip.symm) (hgen' s (by simp))
  | append_singleton rs r ih =>
    rcases List.eq_nil_or_concat' rows' with rfl | ⟨ss, s, rfl⟩
    · exact absurd (by simpa using htip) (hgen r (by simp))
    · obtain ⟨hrs, hpr, -⟩ := c.valid_concat.mp hv
      obtain ⟨hss, hps, -⟩ := c.valid_concat.mp hv'
      obtain ⟨hprev, hkey⟩ := hinj r (by simp) s (by simp) (by simpa using htip)
      have hrest := ih hrs hss (by rw [← hpr, ← hps, hprev])
        (fun a ha b hb => hinj a (by simp [ha]) b (by simp [hb]))
        (fun a ha => hgen a (by simp [ha])) (fun a ha => hgen' a (by simp [ha]))
      rw [List.map_append, List.map_append, hrest]
      simp [hkey]

end Scheme

end HashChain
