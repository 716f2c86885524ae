/-
  Percent-encoding.

  A byte is coded by the character that stands for itself or by `%` and two hex digits; the decoder
  takes any other character as its UTF-8 bytes.

  Proved: a text coded word by word decodes to its bytes (`decode_words`), and its characters are
  unreserved ones, `%` and hex digits (`mem_words`), so no delimiter survives.
-/
import Mathlib.Data.List.Basic
import Mathlib.Tactic.Common

namespace Percent

/-- The characters that stand for themselves: letters, digits and `-._~`. -/
def unreserved (c : Char) : Bool := c.isAlphanum || c == '-' || c == '.' || c == '_' || c == '~'

/-- The value of a hex digit in either case. -/
def hexVal (c : Char) : Option ℕ :=
  if '0' ≤ c ∧ c ≤ '9' then some (c.toNat - 48)
  else if 'A' ≤ c ∧ c ≤ 'F' then some (c.toNat - 55)
  else if 'a' ≤ c ∧ c ≤ 'f' then some (c.toNat - 87)
  else none

/-- The bytes of a percent-encoded text; `none` where a `%` is not followed by two hex digits. -/
def decode : List Char → Option (List UInt8)
  | [] => some []
  | '%' :: x :: y :: cs => do
    let high ← hexVal x
    let low ← hexVal y
    let bytes ← decode cs
    some (UInt8.ofNat (16 * high + low) :: bytes)
  | c :: cs => if c = '%' then none else (decode cs).map (String.utf8EncodeChar c ++ ·)

/-- The ways to write a byte. -/
inductive Word (b : UInt8) : List Char → Prop
  | plain (c : Char) (hc : unreserved c = true) (hb : String.utf8EncodeChar c = [b]) : Word b [c]
  | triple (x y : Char) (high low : ℕ) (hx : hexVal x = some high) (hy : hexVal y = some low)
      (hb : UInt8.ofNat (16 * high + low) = b) : Word b ['%', x, y]

section Words

variable {b : UInt8} {w : List Char} {f : UInt8 → List Char}

theorem decode_plain {c : Char} (hc : c ≠ '%') (cs : List Char) :
    decode (c :: cs) = (decode cs).map (String.utf8EncodeChar c ++ ·) := by
  rw [decode.eq_3]
  · exact if_neg hc
  · rintro x y cs' rfl
    exact absurd rfl hc

theorem not_percent {c : Char} (hc : unreserved c = true) : c ≠ '%' := by
  rintro rfl
  exact absurd hc (by decide)

/-- A word is read off the front. -/
theorem decode_word (hw : Word b w) (cs : List Char) :
    decode (w ++ cs) = (decode cs).map (b :: ·) := by
  cases hw with
  | plain c hc hb =>
    rw [List.cons_append, List.nil_append, decode_plain (not_percent hc), hb]
    rfl
  | triple x y high low hx hy hb =>
    rw [List.cons_append, List.cons_append, List.cons_append, List.nil_append, decode, hx, hy]
    cases decode cs with
    | none => rfl
    | some bytes => exact congrArg (fun head => some (head :: bytes)) hb

/-- **Decoding gives the bytes back.** -/
theorem decode_words (hf : ∀ b, Word b (f b)) (bytes : List UInt8) :
    decode (bytes.flatMap f) = some bytes := by
  induction bytes with
  | nil => rfl
  | cons b bytes ih => rw [List.flatMap_cons, decode_word (hf b), ih, Option.map_some]

/-- A character of a coded text: none of the delimiters of a URI. -/
def Safe (c : Char) : Prop := unreserved c = true ∨ c = '%'

theorem safe_of_hexVal {c : Char} {n : ℕ} (h : hexVal c = some n) : Safe c := by
  have halphanum : ((c.isUpper || c.isLower) || c.isDigit) = true := by
    unfold hexVal at h
    split at h
    · next hdigit =>
      have hd : c.isDigit = true :=
          Bool.and_eq_true_iff.mpr ⟨decide_eq_true hdigit.1, decide_eq_true hdigit.2⟩
      rw [hd, Bool.or_true]
    · split at h
      · next hupper =>
        have hu : c.isUpper = true :=
          decide_eq_true ⟨hupper.1, Char.le_trans hupper.2 (by decide : 'F' ≤ 'Z')⟩
        rw [hu, Bool.true_or, Bool.true_or]
      · split at h
        · next hlower =>
          have hl : c.isLower = true :=
            Bool.and_eq_true_iff.mpr ⟨decide_eq_true hlower.1,
              decide_eq_true (Char.le_trans hlower.2 (by decide : 'f' ≤ 'z'))⟩
          rw [hl, Bool.or_true, Bool.true_or]
        · exact absurd h (by simp)
  have hunreserved : c.isAlphanum = true := halphanum
  exact Or.inl (by simp [unreserved, hunreserved])

theorem safe_word (hw : Word b w) : ∀ c ∈ w, Safe c := by
  cases hw with
  | plain c hc hb => exact fun d hd => Or.inl (List.mem_singleton.mp hd ▸ hc)
  | triple x y high low hx hy hb =>
    intro c hc
    rcases List.mem_cons.mp hc with rfl | hc
    · exact Or.inr rfl
    · rcases List.mem_pair.mp hc with rfl | rfl
      · exact safe_of_hexVal hx
      · exact safe_of_hexVal hy

theorem mem_words (hf : ∀ b, Word b (f b)) {bytes : List UInt8} {c : Char}
    (hc : c ∈ bytes.flatMap f) : Safe c := by
  obtain ⟨b, -, hc⟩ := List.mem_flatMap.mp hc
  exact safe_word (hf b) c hc

end Words

end Percent
