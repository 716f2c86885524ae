/-
  Fields one after the other, each behind its length in four bytes.

  Proved: a field of at most `2^32 - 1` bytes is read back from any text it starts
  (`readField_field`), so are any number of them (`readFields_encode`), and no sequence of fields
  starts another one of as many (`encode_append_inj`).
-/
import Mathlib.Algebra.Group.Nat.Defs
import Mathlib.Data.List.Basic
import Mathlib.Data.Nat.Notation
import Mathlib.Tactic.Common

namespace LengthPrefix

/-- A number in so many bytes, the highest first. -/
def be : ℕ → ℕ → List UInt8
  | 0, _ => []
  | w + 1, n => be w (n / 256) ++ [UInt8.ofNat n]

def readBe (bytes : List UInt8) : ℕ := bytes.foldl (fun n b => 256 * n + b.toNat) 0

@[simp] theorem length_be (w n : ℕ) : (be w n).length = w := by
  induction w generalizing n with
  | zero => rfl
  | succ w ih => rw [be, List.length_append, ih, List.length_singleton]

theorem readBe_be {w n : ℕ} (h : n < 256 ^ w) : readBe (be w n) = n := by
  induction w generalizing n with
  | zero =>
    have hzero : n = 0 := by simpa using h
    rw [hzero]
    rfl
  | succ w ih =>
    have hdiv : n / 256 < 256 ^ w := by
      rw [Nat.pow_succ] at h
      omega
    have hread := ih hdiv
    unfold readBe at hread ⊢
    rw [be, List.foldl_append, hread]
    simp only [List.foldl_cons, List.foldl_nil, UInt8.toNat_ofNat']
    omega

/-- A field behind its length. -/
def field (bytes : List UInt8) : List UInt8 := be 4 bytes.length ++ bytes

def encode (fields : List (List UInt8)) : List UInt8 := fields.flatMap field

/-- The first field and what follows it. -/
def readField (bytes : List UInt8) : Option (List UInt8 × List UInt8) :=
  let n := readBe (bytes.take 4)
  let rest := bytes.drop 4
  if bytes.length < 4 ∨ rest.length < n then none else some (rest.take n, rest.drop n)

def readFields : ℕ → List UInt8 → Option (List (List UInt8) × List UInt8)
  | 0, bytes => some ([], bytes)
  | k + 1, bytes => do
    let (f, rest) ← readField bytes
    let (fs, rest) ← readFields k rest
    some (f :: fs, rest)

/-- A field whose length fits its four bytes. -/
def Fits (bytes : List UInt8) : Prop := bytes.length < 4294967296

theorem readField_field {f : List UInt8} (h : Fits f) (r : List UInt8) :
    readField (field f ++ r) = some (f, r) := by
  have hlen : (be 4 f.length).length = 4 := length_be 4 _
  have hsize : ¬ (field f ++ r).length < 4 := by
    simp only [field, List.length_append, hlen]
    omega
  unfold readField
  unfold field at hsize ⊢
  dsimp only
  rw [List.append_assoc] at hsize ⊢
  rw [List.take_left' hlen, List.drop_left' hlen, readBe_be h, List.take_left, List.drop_left,
    if_neg]
  rw [not_or, @List.length_append _ f]
  exact ⟨hsize, by omega⟩

theorem readFields_encode {fields : List (List UInt8)} (h : ∀ f ∈ fields, Fits f) (r : List UInt8) :
    readFields fields.length (encode fields ++ r) = some (fields, r) := by
  induction fields with
  | nil => rfl
  | cons f fs ih =>
    have hrest := ih fun g hg => h g (by simp [hg])
    unfold encode at hrest ⊢
    rw [List.flatMap_cons, List.append_assoc, List.length_cons, readFields,
      readField_field (h f (by simp))]
    simp [hrest]

/-- **No sequence of fields starts another.** -/
theorem encode_append_inj {fs gs : List (List UInt8)} {r : List UInt8} (hfs : ∀ f ∈ fs, Fits f)
    (hgs : ∀ g ∈ gs, Fits g) (hlen : fs.length = gs.length) (h : encode fs ++ r = encode gs) :
    fs = gs ∧ r = [] := by
  have hleft := readFields_encode hfs r
  have hright := readFields_encode hgs []
  rw [List.append_nil, ← h, ← hlen, hleft] at hright
  simpa using hright

end LengthPrefix
