/-
  ASCII inside UTF-8.

  A byte below 128 in a UTF-8 text is a character of its own, so a text may be searched and cut at
  ASCII characters byte by byte.

  Proved: what the bytes of a character are (`encodeChar_cases`), which characters an ASCII byte
  comes from (`mem_encode_ascii`), and that ASCII texts are their own bytes (`encode_ascii`).
-/
import Mathlib.Data.List.Basic
import Mathlib.Tactic.Common

namespace Utf8

/-- The bytes of a text. -/
def encode (cs : List Char) : List UInt8 := cs.flatMap String.utf8EncodeChar

theorem encode_append (cs ds : List Char) : encode (cs ++ ds) = encode cs ++ encode ds :=
  List.flatMap_append

/-- One byte below 128, or only bytes from 128 on. -/
theorem encodeChar_cases (c : Char) :
    (c.toNat < 128 ∧ String.utf8EncodeChar c = [UInt8.ofNat c.toNat]) ∨
      (128 ≤ c.toNat ∧ ∀ b ∈ String.utf8EncodeChar c, 128 ≤ b.toNat) := by
  have hval : c.val.toNat = c.toNat := rfl
  have hmod : ∀ n, 128 ≤ n → n < 256 → 128 ≤ (UInt8.ofNat n).toNat := by
    intro n hn hlt
    rw [UInt8.toNat_ofNat']
    omega
  by_cases h : c.toNat < 128
  · refine Or.inl ⟨h, ?_⟩
    unfold String.utf8EncodeChar
    dsimp only
    rw [hval, if_pos (by omega)]
  · refine Or.inr ⟨by omega, ?_⟩
    unfold String.utf8EncodeChar
    dsimp only
    rw [hval, if_neg (by omega)]
    split
    · simp only [List.forall_mem_cons, List.not_mem_nil, false_imp_iff, implies_true, and_true]
      exact ⟨hmod _ (by omega) (by omega), hmod _ (by omega) (by omega)⟩
    · split
      · simp only [List.forall_mem_cons, List.not_mem_nil, false_imp_iff, implies_true, and_true]
        exact ⟨hmod _ (by omega) (by omega), hmod _ (by omega) (by omega),
          hmod _ (by omega) (by omega)⟩
      · simp only [List.forall_mem_cons, List.not_mem_nil, false_imp_iff, implies_true, and_true]
        exact ⟨hmod _ (by omega) (by omega), hmod _ (by omega) (by omega),
          hmod _ (by omega) (by omega), hmod _ (by omega) (by omega)⟩

theorem encodeChar_ascii {c : Char} (h : c.toNat < 128) :
    String.utf8EncodeChar c = [UInt8.ofNat c.toNat] := by
  rcases encodeChar_cases c with ⟨-, hbytes⟩ | ⟨hge, -⟩
  · exact hbytes
  · omega

/-- An ASCII byte is a character. -/
theorem mem_encode_ascii {cs : List Char} {b : UInt8} (hb : b ∈ encode cs) (h : b.toNat < 128) :
    Char.ofNat b.toNat ∈ cs := by
  obtain ⟨c, hc, hmem⟩ := List.mem_flatMap.mp hb
  rcases encodeChar_cases c with ⟨hlt, hbytes⟩ | ⟨-, hge⟩
  · rw [hbytes] at hmem
    obtain rfl : b = UInt8.ofNat c.toNat := by simpa using hmem
    have hback : (UInt8.ofNat c.toNat).toNat = c.toNat := by
      rw [UInt8.toNat_ofNat']
      omega
    rw [hback, Char.ofNat_toNat]
    exact hc
  · have := hge b hmem
    omega

theorem encode_ascii {cs : List Char} (h : ∀ c ∈ cs, c.toNat < 128) :
    encode cs = cs.map fun c => UInt8.ofNat c.toNat := by
  induction cs with
  | nil => rfl
  | cons c cs ih =>
    have hc := encodeChar_ascii (h c (by simp))
    have hcs := ih fun d hd => h d (by simp [hd])
    unfold encode at hcs ⊢
    rw [List.flatMap_cons, hc, hcs]
    rfl

/-- A text with bytes below 128 only. -/
theorem ascii_of_encode {cs : List Char} (h : ∀ b ∈ encode cs, b.toNat < 128) :
    ∀ c ∈ cs, c.toNat < 128 := by
  intro c hc
  rcases encodeChar_cases c with ⟨hlt, -⟩ | ⟨-, hge⟩
  · exact hlt
  · obtain ⟨b, hb⟩ := List.exists_mem_of_ne_nil _ (String.utf8EncodeChar_ne_nil (c := c))
    have hlt := h b (List.mem_flatMap.mpr ⟨c, hc, hb⟩)
    have hle := hge b hb
    omega

end Utf8
