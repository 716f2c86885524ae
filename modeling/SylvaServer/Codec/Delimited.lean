/-
  Unambiguous text: when does the concatenation of two pieces give both pieces back?

  Three sources of it are used: a first piece that runs up to the first character of another
  class (`append_inj_of_class`), a first piece of known length (`List.append_inj`), and a code
  word by word (`flatMap_inj_of_code`). Decimal numbers and hex digits follow.
-/
import Mathlib.Algebra.Group.Nat.Defs
import Mathlib.Data.List.Basic
import Mathlib.Data.Nat.Notation
import Mathlib.Tactic.Common

namespace Delimited

variable {α β : Type}

/-- `r` is empty or starts outside `P`. -/
def Stops (P : α → Prop) (r : List α) : Prop := ∀ a ∈ r.head?, ¬ P a

theorem stops_nil (P : α → Prop) : Stops P [] := by simp [Stops]

theorem stops_cons {P : α → Prop} {a : α} {r : List α} (h : ¬ P a) : Stops P (a :: r) := by
  simpa [Stops] using h

/-- Two pieces inside a class, each followed by something that starts outside it. -/
theorem append_inj_of_class {P : α → Prop} {xs ys r s : List α} (hx : ∀ a ∈ xs, P a)
    (hy : ∀ a ∈ ys, P a) (hr : Stops P r) (hs : Stops P s) (h : xs ++ r = ys ++ s) :
    xs = ys ∧ r = s := by
  induction xs generalizing ys with
  | nil =>
    cases ys with
    | nil => exact ⟨rfl, h⟩
    | cons y ys =>
      simp only [List.nil_append] at h
      subst h
      exact absurd (hy y (by simp)) (hr y (by simp))
  | cons x xs ih =>
    cases ys with
    | nil =>
      simp only [List.nil_append] at h
      subst h
      exact absurd (hx x (by simp)) (hs x (by simp))
    | cons y ys =>
      simp only [List.cons_append, List.cons.injEq] at h
      obtain ⟨hxs, hrs⟩ := ih (fun a ha => hx a (by simp [ha]))
        (fun a ha => hy a (by simp [ha])) h.2
      exact ⟨by rw [h.1, hxs], hrs⟩

/-- A code whose words can be read off the front of any text. -/
structure Code (f : α → List β) : Prop where
  read : ∀ a b r s, f a ++ r = f b ++ s → a = b ∧ r = s
  ne_nil : ∀ a, f a ≠ []

namespace Code

variable {f : α → List β}

/-- A code from a reader of one word. -/
theorem of_reader (g : List β → Option (α × List β)) (hg : ∀ a r, g (f a ++ r) = some (a, r))
    (hne : ∀ a, f a ≠ []) : Code f where
  read a b r s h := by
    have hab := (hg a r).symm.trans (h ▸ hg b s)
    simpa using hab
  ne_nil := hne

/-- Two coded texts, each followed by something no word starts with. -/
theorem flatMap_inj (hf : Code f) {xs ys : List α} {r s : List β}
    (hr : ∀ a r', f a ++ r' ≠ r) (hs : ∀ a s', f a ++ s' ≠ s)
    (h : xs.flatMap f ++ r = ys.flatMap f ++ s) : xs = ys ∧ r = s := by
  induction xs generalizing ys with
  | nil =>
    cases ys with
    | nil => exact ⟨rfl, h⟩
    | cons y ys =>
      simp only [List.flatMap_nil, List.nil_append, List.flatMap_cons, List.append_assoc] at h
      exact absurd h.symm (hr y _)
  | cons x xs ih =>
    cases ys with
    | nil =>
      simp only [List.flatMap_nil, List.nil_append, List.flatMap_cons, List.append_assoc] at h
      exact absurd h (hs x _)
    | cons y ys =>
      simp only [List.flatMap_cons, List.append_assoc] at h
      obtain ⟨rfl, h'⟩ := hf.read _ _ _ _ h
      obtain ⟨rfl, h''⟩ := ih h'
      exact ⟨rfl, h''⟩

theorem injective (hf : Code f) : Function.Injective fun xs : List α => xs.flatMap f := by
  intro xs ys h
  have hne : ∀ a r', f a ++ r' ≠ [] := fun a r' he => hf.ne_nil a (List.append_eq_nil_iff.mp he).1
  exact (hf.flatMap_inj (r := []) (s := []) hne hne (by simpa using h)).1

end Code

/-! ## Decimal numbers -/

/-- The decimal digits of a natural number. -/
def digits (n : Nat) : List Char := Nat.toDigits 10 n

theorem digits_inj {m n : Nat} (h : digits m = digits n) : m = n := by
  rw [← Nat.ofDigitChars_ten_toDigits (n := m), ← Nat.ofDigitChars_ten_toDigits (n := n)]
  exact congrArg _ h

theorem isDigit_of_mem_digits {n : Nat} {c : Char} (h : c ∈ digits n) : c.isDigit = true :=
  Nat.isDigit_of_mem_toDigits (by omega) (by omega) h

theorem digits_ne_nil (n : Nat) : digits n ≠ [] := Nat.toDigits_ne_nil

/-- The first digit, which every number has. -/
theorem digits_head (n : Nat) : ∃ c cs, digits n = c :: cs ∧ c.isDigit = true := by
  cases h : digits n with
  | nil => exact absurd h (digits_ne_nil n)
  | cons c cs => exact ⟨c, cs, rfl, isDigit_of_mem_digits (by rw [h]; simp)⟩

/-- A decimal integer, with a minus sign below zero. -/
def signedDigits (n : Int) : List Char :=
  if n < 0 then '-' :: digits n.natAbs else digits n.natAbs

theorem not_minus_of_isDigit {c : Char} (h : c.isDigit = true) : c ≠ '-' := by
  rintro rfl
  exact absurd h (by decide)

theorem signedDigits_inj {m n : Int} (h : signedDigits m = signedDigits n) : m = n := by
  obtain ⟨c, cs, hc, hcd⟩ := digits_head m.natAbs
  obtain ⟨d, ds, hd, hdd⟩ := digits_head n.natAbs
  unfold signedDigits at h
  split at h <;> split at h
  · have := digits_inj (List.cons.inj h).2
    omega
  · rw [hd] at h
    exact absurd (List.cons.inj h).1.symm (not_minus_of_isDigit hdd)
  · rw [hc] at h
    exact absurd (List.cons.inj h).1 (not_minus_of_isDigit hcd)
  · have := digits_inj h
    omega

/-- A digit or the minus sign. -/
def IsSigned (c : Char) : Prop := c.isDigit = true ∨ c = '-'

theorem isSigned_of_mem {n : Int} {c : Char} (h : c ∈ signedDigits n) : IsSigned c := by
  unfold signedDigits at h
  split at h
  · rcases List.mem_cons.mp h with rfl | h
    · exact Or.inr rfl
    · exact Or.inl (isDigit_of_mem_digits h)
  · exact Or.inl (isDigit_of_mem_digits h)

theorem signedDigits_ne_nil (n : Int) : signedDigits n ≠ [] := by
  unfold signedDigits
  split
  · simp
  · exact digits_ne_nil _

/-! ## Numbers of a fixed width -/

/-- Decimal digits with zeros in front up to `width`. -/
def pad (width n : Nat) : List Char :=
  List.replicate (width - (digits n).length) '0' ++ digits n

theorem ofDigitChars_zeros (k : Nat) (cs : List Char) :
    Nat.ofDigitChars 10 (List.replicate k '0' ++ cs) 0 = Nat.ofDigitChars 10 cs 0 := by
  induction k with
  | zero => rfl
  | succ k ih =>
    rw [List.replicate_succ, List.cons_append, Nat.ofDigitChars_cons]
    simpa using ih

/-- Reading a padded number back. -/
theorem ofDigitChars_pad (w n : Nat) : Nat.ofDigitChars 10 (pad w n) 0 = n := by
  rw [pad, ofDigitChars_zeros, digits, Nat.ofDigitChars_ten_toDigits]

theorem pad_inj {v w m n : Nat} (h : pad v m = pad w n) : m = n := by
  rw [← ofDigitChars_pad v m, h, ofDigitChars_pad]

theorem isDigit_of_mem_pad {w n : Nat} {c : Char} (h : c ∈ pad w n) : c.isDigit = true := by
  rcases List.mem_append.mp h with h | h
  · obtain ⟨-, rfl⟩ := List.mem_replicate.mp h
    decide
  · exact isDigit_of_mem_digits h

theorem pad_length {w n : Nat} (hw : 0 < w) (hn : n < 10 ^ w) : (pad w n).length = w := by
  have hle : (digits n).length ≤ w := (Nat.length_toDigits_le_iff (by omega) hw).mpr hn
  simp only [pad, List.length_append, List.length_replicate]
  omega

/-! ## Hex digits -/

/-- A lowercase hex digit. -/
def hexDigit (n : Nat) : Char := if n < 10 then Char.ofNat (48 + n) else Char.ofNat (87 + n)

/-- The value of a hex digit. -/
def hexVal (c : Char) : Nat := if c.isDigit then c.toNat - 48 else c.toNat - 87

theorem hexVal_hexDigit : ∀ n < 16, hexVal (hexDigit n) = n := by decide

/-- The two hex digits of a byte. -/
def hexByte (b : UInt8) : List Char := [hexDigit (b.toNat / 16), hexDigit (b.toNat % 16)]

theorem hexByte_code : Code hexByte := by
  refine Code.of_reader (fun
    | x :: y :: r => some (UInt8.ofNat (16 * hexVal x + hexVal y), r)
    | _ => none) (fun b r => ?_) (fun b => by simp [hexByte])
  have hlt : b.toNat < 256 := b.toNat_lt
  simp only [hexByte, List.cons_append, List.nil_append, hexVal_hexDigit _
    (show b.toNat / 16 < 16 by omega), hexVal_hexDigit _ (show b.toNat % 16 < 16 by omega)]
  rw [show 16 * (b.toNat / 16) + b.toNat % 16 = b.toNat by omega, UInt8.ofNat_toNat]

theorem hexDigit_ne_dash : ∀ n < 16, hexDigit n ≠ '-' := by decide

theorem not_dash_of_mem_hexByte {b : UInt8} {c : Char} (h : c ∈ hexByte b) : c ≠ '-' := by
  have hlt : b.toNat < 256 := b.toNat_lt
  simp only [hexByte, List.mem_cons, List.not_mem_nil, or_false] at h
  rcases h with rfl | rfl
  · exact hexDigit_ne_dash _ (by omega)
  · exact hexDigit_ne_dash _ (by omega)

end Delimited
