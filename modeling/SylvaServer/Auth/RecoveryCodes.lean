/-
  Recovery codes read off paper.

  A code packs five bytes into eight symbols, four times. Whoever types it in may lose or add
  hyphens and blanks, change the case and confuse `1` with `I` and `L` and `0` with `O`.

  Proved: the packing loses nothing (`symbols_inj`, `encodeChars_inj`), a code is its 32 characters
  in groups of four (`encodeGrouped_eq`), the canonical form is reached in one step
  (`canonicalize_idem`) and does not see the handling (`Handled.canonical`), and from these that
  codes never collide (`recovery_codes_survive`).
-/
import SylvaServer.Model.RecoveryCode
import Mathlib.Data.Nat.Bitwise
import Mathlib.Logic.Relation
import Mathlib.Tactic.SplitIfs

namespace SylvaServer.RecoveryCode

/-! ## Packing -/

/-- Two pieces side by side in one symbol. -/
theorem join_toNat (x y : UInt8) {m k j : UInt8} {i : ℕ} (hm : m.toNat = 2 ^ i - 1)
    (hk : k.toNat < 8) (hj : j.toNat < 8) (hik : i + k.toNat ≤ 8) (hjk : 8 ≤ k.toNat + j.toNat) :
    (((x &&& m) <<< k) ||| (y >>> j)).toNat =
      x.toNat % 2 ^ i * 2 ^ k.toNat + y.toNat / 2 ^ j.toNat := by
  have hhigh : x.toNat % 2 ^ i * 2 ^ k.toNat < 2 ^ 8 := by
    calc x.toNat % 2 ^ i * 2 ^ k.toNat < 2 ^ i * 2 ^ k.toNat :=
          Nat.mul_lt_mul_of_pos_right (Nat.mod_lt _ (Nat.two_pow_pos i)) (Nat.two_pow_pos _)
      _ = 2 ^ (i + k.toNat) := (Nat.pow_add ..).symm
      _ ≤ 2 ^ 8 := Nat.pow_le_pow_right (by decide) hik
  have hlow : y.toNat / 2 ^ j.toNat < 2 ^ k.toNat := by
    rw [Nat.div_lt_iff_lt_mul (Nat.two_pow_pos _), ← Nat.pow_add]
    exact lt_of_lt_of_le y.toNat_lt (Nat.pow_le_pow_right (by decide) hjk)
  rw [UInt8.toNat_or, UInt8.toNat_shiftLeft, UInt8.toNat_shiftRight, UInt8.toNat_and, hm,
    Nat.and_two_pow_sub_one_eq_mod, Nat.mod_eq_of_lt hk, Nat.mod_eq_of_lt hj, Nat.shiftLeft_eq,
    Nat.mod_eq_of_lt hhigh, Nat.shiftRight_eq_div_pow, Nat.mul_comm,
    Nat.two_pow_add_eq_or_of_lt hlow]

/-- One piece of five bits. -/
theorem piece_toNat (x : UInt8) {k : UInt8} (hk : k.toNat < 8) :
    ((x >>> k) &&& 0x1f).toNat = x.toNat / 2 ^ k.toNat % 32 := by
  have hmask : (0x1f : UInt8).toNat = 2 ^ 5 - 1 := rfl
  rw [UInt8.toNat_and, UInt8.toNat_shiftRight, hmask, Nat.and_two_pow_sub_one_eq_mod,
    Nat.mod_eq_of_lt hk, Nat.shiftRight_eq_div_pow]

theorem symbols_toNat (b₀ b₁ b₂ b₃ b₄ : UInt8) : (symbols b₀ b₁ b₂ b₃ b₄).map UInt8.toNat =
    [b₀.toNat / 8, b₀.toNat % 8 * 4 + b₁.toNat / 64, b₁.toNat / 2 % 32,
      b₁.toNat % 2 * 16 + b₂.toNat / 16, b₂.toNat % 16 * 2 + b₃.toNat / 128, b₃.toNat / 4 % 32,
      b₃.toNat % 4 * 8 + b₄.toNat / 32, b₄.toNat % 32] := by
  have hfirst : (b₀ >>> 3).toNat = b₀.toNat / 8 := by
    rw [UInt8.toNat_shiftRight]
    exact Nat.shiftRight_eq_div_pow _ _
  have hlast : (b₄ &&& 0x1f).toNat = b₄.toNat % 32 := by
    rw [UInt8.toNat_and]
    exact Nat.and_two_pow_sub_one_eq_mod b₄.toNat 5
  simp only [symbols, List.map_cons, List.map_nil]
  rw [hfirst, hlast, join_toNat b₀ b₁ (i := 3) rfl (by decide) (by decide) (by decide) (by decide),
    join_toNat b₁ b₂ (i := 1) rfl (by decide) (by decide) (by decide) (by decide),
    join_toNat b₂ b₃ (i := 4) rfl (by decide) (by decide) (by decide) (by decide),
    join_toNat b₃ b₄ (i := 2) rfl (by decide) (by decide) (by decide) (by decide),
    piece_toNat b₁ (by decide), piece_toNat b₃ (by decide)]
  rfl

theorem symbols_inj {b₀ b₁ b₂ b₃ b₄ c₀ c₁ c₂ c₃ c₄ : UInt8}
    (h : symbols b₀ b₁ b₂ b₃ b₄ = symbols c₀ c₁ c₂ c₃ c₄) :
    b₀ = c₀ ∧ b₁ = c₁ ∧ b₂ = c₂ ∧ b₃ = c₃ ∧ b₄ = c₄ := by
  have hnat := congrArg (List.map UInt8.toNat) h
  rw [symbols_toNat, symbols_toNat] at hnat
  simp only [List.cons.injEq, and_true] at hnat
  obtain ⟨h₀, h₁, h₂, h₃, h₄, h₅, h₆, h₇⟩ := hnat
  have hb₁ := b₁.toNat_lt
  have hc₁ := c₁.toNat_lt
  have hb₂ := b₂.toNat_lt
  have hc₂ := c₂.toNat_lt
  have hb₃ := b₃.toNat_lt
  have hc₃ := c₃.toNat_lt
  have hb₄ := b₄.toNat_lt
  have hc₄ := c₄.toNat_lt
  refine ⟨UInt8.toNat_inj.mp ?_, UInt8.toNat_inj.mp ?_, UInt8.toNat_inj.mp ?_,
    UInt8.toNat_inj.mp ?_, UInt8.toNat_inj.mp ?_⟩
  · clear h₂ h₃ h₄ h₅ h₆ h₇
    omega
  · clear h₀ h₄ h₅ h₆ h₇
    omega
  · clear h₀ h₁ h₂ h₅ h₆ h₇
    omega
  · clear h₀ h₁ h₂ h₃ h₇
    omega
  · clear h₀ h₁ h₂ h₃ h₄ h₅
    omega

theorem symbols_lt (b₀ b₁ b₂ b₃ b₄ : UInt8) : ∀ s ∈ symbols b₀ b₁ b₂ b₃ b₄, s.toNat < 32 := by
  intro s hs
  have hmem := List.mem_map_of_mem (f := UInt8.toNat) hs
  rw [symbols_toNat] at hmem
  have hb₀ := b₀.toNat_lt
  have hb₁ := b₁.toNat_lt
  have hb₂ := b₂.toNat_lt
  have hb₃ := b₃.toNat_lt
  have hb₄ := b₄.toNat_lt
  simp only [List.mem_cons, List.not_mem_nil, or_false] at hmem
  omega

/-! ## The characters of a code -/

/-- A symbol on paper. -/
def symbolChar (s : UInt8) : Char := crockford.getD s.toNat '0'

theorem symbolChar_inj {s t : UInt8} (hs : s.toNat < 32) (ht : t.toNat < 32)
    (h : symbolChar s = symbolChar t) : s = t := by
  have hnodup : ∀ i < 32, ∀ j < 32, crockford.getD i '0' = crockford.getD j '0' → i = j := by
    decide +kernel
  exact UInt8.toNat_inj.mp (hnodup _ hs _ ht h)

theorem map_symbolChar_inj {ss ts : List UInt8} (hs : ∀ s ∈ ss, s.toNat < 32)
    (ht : ∀ t ∈ ts, t.toNat < 32) (h : ss.map symbolChar = ts.map symbolChar) : ss = ts := by
  induction ss generalizing ts with
  | nil => exact (List.map_eq_nil_iff.mp h.symm).symm
  | cons s ss ih =>
    cases ts with
    | nil => exact absurd h (by simp)
    | cons t ts =>
      obtain ⟨hhead, htail⟩ := List.cons.inj h
      rw [symbolChar_inj (hs s (by simp)) (ht t (by simp)) hhead,
        ih (fun x hx => hs x (by simp [hx])) (fun x hx => ht x (by simp [hx])) htail]

theorem symbolChar_mem {s : UInt8} (hs : s.toNat < 32) : symbolChar s ∈ crockford := by
  have hmem : ∀ i < 32, crockford.getD i '0' ∈ crockford := by decide +kernel
  exact hmem _ hs

/-- The characters of five bytes. -/
def chunk (a : Entropy) (o : ℕ) : List Char :=
  (symbols (a.bytes.getD o 0) (a.bytes.getD (o + 1) 0) (a.bytes.getD (o + 2) 0)
    (a.bytes.getD (o + 3) 0) (a.bytes.getD (o + 4) 0)).map symbolChar

theorem encodeChars_eq (a : Entropy) :
    encodeChars a = chunk a 0 ++ (chunk a 5 ++ (chunk a 10 ++ chunk a 15)) := rfl

theorem encodeChars_mem (a : Entropy) : ∀ c ∈ encodeChars a, c ∈ crockford := by
  intro c hc
  have hchunk : ∀ o, c ∈ chunk a o → c ∈ crockford := by
    intro o ho
    obtain ⟨s, hs, rfl⟩ := List.mem_map.mp ho
    exact symbolChar_mem (symbols_lt _ _ _ _ _ s hs)
  rw [encodeChars_eq] at hc
  simp only [List.mem_append] at hc
  rcases hc with hc | hc | hc | hc <;> exact hchunk _ hc

theorem chunk_inj {a b : Entropy} {o : ℕ} (h : chunk a o = chunk b o) :
    ∀ i < 5, a.bytes.getD (o + i) 0 = b.bytes.getD (o + i) 0 := by
  obtain ⟨h₀, h₁, h₂, h₃, h₄⟩ := symbols_inj (map_symbolChar_inj (symbols_lt _ _ _ _ _)
    (symbols_lt _ _ _ _ _) h)
  intro i hi
  match i, hi with
  | 0, _ => exact h₀
  | 1, _ => exact h₁
  | 2, _ => exact h₂
  | 3, _ => exact h₃
  | 4, _ => exact h₄

/-- **The packing loses nothing.** -/
theorem encodeChars_inj {a b : Entropy} (h : encodeChars a = encodeChars b) : a = b := by
  have hlen : ∀ c o, (chunk c o).length = 8 := fun c o => rfl
  rw [encodeChars_eq, encodeChars_eq] at h
  obtain ⟨h₀, h⟩ := List.append_inj h (by rw [hlen, hlen])
  obtain ⟨h₅, h⟩ := List.append_inj h (by rw [hlen, hlen])
  obtain ⟨h₁₀, h₁₅⟩ := List.append_inj h (by rw [hlen, hlen])
  have hbytes : a.bytes = b.bytes := by
    refine List.ext_getElem (a.size.trans b.size.symm) fun i hi hi' => ?_
    have hlt : i < 20 := a.size ▸ hi
    have hget : a.bytes.getD i 0 = b.bytes.getD i 0 := by
      rcases lt_or_ge i 5 with hi₀ | hi₀
      · simpa using chunk_inj h₀ i hi₀
      rcases lt_or_ge i 10 with hi₁ | hi₁
      · simpa [Nat.add_sub_cancel' hi₀] using chunk_inj h₅ (i - 5) (by omega)
      rcases lt_or_ge i 15 with hi₂ | hi₂
      · simpa [Nat.add_sub_cancel' hi₁] using chunk_inj h₁₀ (i - 10) (by omega)
      · simpa [Nat.add_sub_cancel' hi₂] using chunk_inj h₁₅ (i - 15) (by omega)
    rwa [List.getD_eq_getElem _ _ hi, List.getD_eq_getElem _ _ hi'] at hget
  cases a
  cases b
  simpa using hbytes

/-- The groups of a code. -/
def groups (a : Entropy) : List (List Char) :=
  (List.range 8).map fun i => ((encodeChars a).drop (4 * i)).take 4

theorem encodeGrouped_eq (a : Entropy) :
    (encodeGrouped a).toList = List.intercalate ['-'] (groups a) := by
  unfold encodeGrouped
  rw [String.toList_ofList]
  rfl

theorem groups_flatten (a : Entropy) : (groups a).flatten = encodeChars a := rfl

theorem length_groups (a : Entropy) : (groups a).length = 8 := rfl

theorem groups_spec (a : Entropy) : ∀ g ∈ groups a, g.length = 4 ∧ ∀ c ∈ g, c ∈ crockford := by
  intro g hg
  obtain ⟨i, hi, rfl⟩ := List.mem_map.mp hg
  have hsize : (encodeChars a).length = 32 := rfl
  have hlt : i < 8 := List.mem_range.mp hi
  refine ⟨?_, fun c hc => encodeChars_mem a c (List.mem_of_mem_drop (List.mem_of_mem_take hc))⟩
  rw [List.length_take, List.length_drop]
  omega

/-! ## The canonical form -/

theorem toUpper_toNat (c : Char) : c.toUpper.toNat =
    if 97 ≤ c.toNat ∧ c.toNat ≤ 122 then c.toNat - 32 else c.toNat := by
  have hiff : ('a'.val ≤ c.val ∧ c.val ≤ 'z'.val) ↔ (97 ≤ c.toNat ∧ c.toNat ≤ 122) := by
    rw [UInt32.le_iff_toNat_le, UInt32.le_iff_toNat_le]
    rfl
  unfold Char.toUpper
  by_cases h : 97 ≤ c.toNat ∧ c.toNat ≤ 122
  · have hadd : (c.val + ('A'.val - 'a'.val)).toNat = (c.toNat + 4294967264) % 4294967296 :=
      UInt32.toNat_add _ _
    rw [dif_pos (hiff.mpr h), if_pos h]
    show (c.val + ('A'.val - 'a'.val)).toNat = _
    omega
  · rw [dif_neg fun hc => h (hiff.mp hc), if_neg h]

theorem toLower_toNat (c : Char) : c.toLower.toNat =
    if 65 ≤ c.toNat ∧ c.toNat ≤ 90 then c.toNat + 32 else c.toNat := by
  have hiff : (c.val ≥ 'A'.val ∧ c.val ≤ 'Z'.val) ↔ (65 ≤ c.toNat ∧ c.toNat ≤ 90) := by
    rw [ge_iff_le, UInt32.le_iff_toNat_le, UInt32.le_iff_toNat_le]
    rfl
  unfold Char.toLower
  by_cases h : 65 ≤ c.toNat ∧ c.toNat ≤ 90
  · have hadd : (c.val + ('a'.val - 'A'.val)).toNat = (c.toNat + 32) % 4294967296 :=
      UInt32.toNat_add _ _
    rw [dif_pos (hiff.mpr h), if_pos h]
    show (c.val + ('a'.val - 'A'.val)).toNat = _
    omega
  · rw [dif_neg fun hc => h (hiff.mp hc), if_neg h]

theorem toUpper_toUpper (c : Char) : c.toUpper.toUpper = c.toUpper := by
  apply Char.toNat_inj.mp
  rw [toUpper_toNat, toUpper_toNat]
  split_ifs <;> omega

theorem toUpper_toLower (c : Char) : c.toLower.toUpper = c.toUpper := by
  apply Char.toNat_inj.mp
  rw [toUpper_toNat, toUpper_toNat, toLower_toNat]
  split_ifs <;> omega

/-- Only the upper case of a character counts. -/
theorem canonicalChar_congr {c d : Char} (h : c.toUpper = d.toUpper) :
    canonicalChar c = canonicalChar d := by
  unfold canonicalChar
  rw [h]

/-- What is kept stays as it is. -/
theorem canonicalChar_idem {c d : Char} (h : canonicalChar c = some d) :
    canonicalChar d = some d := by
  have hsame := (canonicalChar_congr (toUpper_toUpper c)).trans h
  have hcases : d = '1' ∨ d = '0' ∨ d = c.toUpper := by
    unfold canonicalChar at h
    split at h
    case h_9 => exact Or.inr (Or.inr (Option.some.inj h).symm)
    case h_8 => exact Or.inr (Or.inl (Option.some.inj h).symm)
    case h_7 => exact Or.inl (Option.some.inj h).symm
    case h_6 => exact Or.inl (Option.some.inj h).symm
    all_goals exact absurd h (by simp)
  rcases hcases with rfl | rfl | rfl
  · decide +kernel
  · decide +kernel
  · exact hsame

theorem canonicalize_idem (s : String) : canonicalize (canonicalize s) = canonicalize s := by
  have hfix : ∀ cs : List Char, (cs.filterMap canonicalChar).filterMap canonicalChar =
      cs.filterMap canonicalChar := by
    intro cs
    induction cs with
    | nil => rfl
    | cons c cs ih =>
      cases hc : canonicalChar c with
      | none => rw [List.filterMap_cons_none hc, ih]
      | some d =>
        rw [List.filterMap_cons_some hc, List.filterMap_cons_some (canonicalChar_idem hc), ih]
  unfold canonicalize
  rw [String.toList_ofList, hfix]

/-- The alphabet is canonical. -/
theorem canonicalChar_crockford : ∀ c ∈ crockford, canonicalChar c = some c :=
  List.forall_iff_forall_mem.mp (by decide +kernel)

/-! ## Handling -/

/-- What happens to a code between paper and keyboard. -/
inductive Handled : List Char → List Char → Prop
  | insert (xs ys : List Char) (c : Char) (hc : c ∈ ['-', ' ', '\t', '\n', '\r']) :
      Handled (xs ++ ys) (xs ++ c :: ys)
  | remove (xs ys : List Char) (c : Char) (hc : c ∈ ['-', ' ', '\t', '\n', '\r']) :
      Handled (xs ++ c :: ys) (xs ++ ys)
  | upper (xs ys : List Char) (c : Char) : Handled (xs ++ c :: ys) (xs ++ c.toUpper :: ys)
  | lower (xs ys : List Char) (c : Char) : Handled (xs ++ c :: ys) (xs ++ c.toLower :: ys)
  | one (xs ys : List Char) (c : Char) (hc : c ∈ ['I', 'i', 'L', 'l']) :
      Handled (xs ++ '1' :: ys) (xs ++ c :: ys)
  | zero (xs ys : List Char) (c : Char) (hc : c ∈ ['O', 'o']) :
      Handled (xs ++ '0' :: ys) (xs ++ c :: ys)

/-- One character in place of another that counts the same. -/
theorem filterMap_replace {c d : Char} (h : canonicalChar d = canonicalChar c) (xs ys : List Char) :
    (xs ++ d :: ys).filterMap canonicalChar = (xs ++ c :: ys).filterMap canonicalChar := by
  rw [List.filterMap_append, List.filterMap_append, List.filterMap_cons, List.filterMap_cons, h]

theorem filterMap_blank {c : Char} (h : canonicalChar c = none) (xs ys : List Char) :
    (xs ++ c :: ys).filterMap canonicalChar = (xs ++ ys).filterMap canonicalChar := by
  rw [List.filterMap_append, List.filterMap_append, List.filterMap_cons_none h]

/-- Handling does not show. -/
theorem Handled.canonical {v w : List Char} (h : Handled v w) :
    w.filterMap canonicalChar = v.filterMap canonicalChar := by
  have hblank : ∀ c ∈ ['-', ' ', '\t', '\n', '\r'], canonicalChar c = none :=
    List.forall_iff_forall_mem.mp (by decide +kernel)
  have hone : ∀ c ∈ ['I', 'i', 'L', 'l'], canonicalChar c = canonicalChar '1' :=
    List.forall_iff_forall_mem.mp (by decide +kernel)
  have hzero : ∀ c ∈ ['O', 'o'], canonicalChar c = canonicalChar '0' :=
    List.forall_iff_forall_mem.mp (by decide +kernel)
  cases h with
  | insert xs ys c hc => exact filterMap_blank (hblank c hc) xs ys
  | remove xs ys c hc => exact (filterMap_blank (hblank c hc) xs ys).symm
  | upper xs ys c => exact filterMap_replace (canonicalChar_congr (toUpper_toUpper c)) xs ys
  | lower xs ys c => exact filterMap_replace (canonicalChar_congr (toUpper_toLower c)) xs ys
  | one xs ys c hc => exact filterMap_replace (hone c hc) xs ys
  | zero xs ys c hc => exact filterMap_replace (hzero c hc) xs ys

theorem canonicalize_handled {v w : String} (h : Relation.ReflTransGen Handled v.toList w.toList) :
    canonicalize w = canonicalize v := by
  have hsame : ∀ {x y : List Char}, Relation.ReflTransGen Handled x y →
      y.filterMap canonicalChar = x.filterMap canonicalChar := by
    intro x y hxy
    induction hxy with
    | refl => rfl
    | tail _ hstep ih => rw [hstep.canonical, ih]
  unfold canonicalize
  rw [hsame h]

theorem filterMap_crockford {g : List Char} (h : ∀ c ∈ g, c ∈ crockford) :
    g.filterMap canonicalChar = g := by
  induction g with
  | nil => rfl
  | cons c cs ih =>
    rw [List.filterMap_cons_some (canonicalChar_crockford c (h c (by simp))),
      ih fun x hx => h x (by simp [hx])]

/-- The hyphens between groups are what goes. -/
theorem filterMap_intercalate {gs : List (List Char)} (h : ∀ g ∈ gs, ∀ c ∈ g, c ∈ crockford) :
    (List.intercalate ['-'] gs).filterMap canonicalChar = gs.flatten := by
  have hhyphen : canonicalChar '-' = none := by decide +kernel
  induction gs with
  | nil => rfl
  | cons g gs ih =>
    have hg := filterMap_crockford (h g (by simp))
    have hrest := ih fun x hx => h x (by simp [hx])
    cases gs with
    | nil => simpa [List.intercalate] using hg
    | cons g' gs =>
      have hcons : List.intercalate ['-'] (g :: g' :: gs) =
          g ++ '-' :: List.intercalate ['-'] (g' :: gs) := by
        simp [List.intercalate]
      rw [hcons, List.filterMap_append, List.filterMap_cons_none hhyphen, hg, hrest]
      rfl

/-- The canonical form of a code is its characters. -/
theorem canonicalize_encodeGrouped (a : Entropy) :
    canonicalize (encodeGrouped a) = String.ofList (groups a).flatten := by
  unfold canonicalize
  rw [encodeGrouped_eq, filterMap_intercalate fun g hg => (groups_spec a g hg).2]

/-- **Recovery codes survive their handling and never collide.** -/
theorem recovery_codes_survive :
    (∀ (a b : Entropy) (v : String),
      Relation.ReflTransGen Handled (encodeGrouped a).toList v.toList →
        (canonicalize v = canonicalize (encodeGrouped b) ↔ a = b)) ∧
    (∀ s, canonicalize (canonicalize s) = canonicalize s) ∧
    ∀ a : Entropy, (encodeGrouped a).toList.length = 39 ∧
      (encodeGrouped a).toList = List.intercalate ['-'] (groups a) ∧ (groups a).length = 8 ∧
      (∀ g ∈ groups a, g.length = 4 ∧ ∀ c ∈ g, c ∈ crockford) ∧
      canonicalize (encodeGrouped a) = String.ofList (groups a).flatten := by
  refine ⟨fun a b v hv => ?_, canonicalize_idem, fun a => ⟨?_, encodeGrouped_eq a, length_groups a,
    groups_spec a, canonicalize_encodeGrouped a⟩⟩
  · rw [canonicalize_handled hv, canonicalize_encodeGrouped, canonicalize_encodeGrouped,
      groups_flatten, groups_flatten]
    constructor
    · intro h
      exact encodeChars_inj (String.ofList_inj.mp h)
    · intro h
      rw [h]
  · rw [encodeGrouped_eq]
    rfl

end SylvaServer.RecoveryCode
