/-
  The window of the one-time codes.

  A code is verified against three time steps, oldest first, and generated for one. Times before
  1970 all fall into step 0, and the step before it is skipped.

  Proved: a code is six ASCII digits (`wellFormed_iff`, `formatCode_sixDigits`), the step that
  matches is the least one of the window (`matchedStep_iff`), times no further apart than a step
  have neighbouring steps (`timeStep_near`), and from these the agreement of generation and
  verification (`totp_window`).
-/
import SylvaServer.Model.Totp
import Mathlib.Order.Bounds.Basic
import Mathlib.Data.Int.LeastGreatest
import Mathlib.Algebra.Order.Group.Int
import Mathlib.Algebra.Order.Group.Abs

namespace SylvaServer.Totp

variable {lib : Libs} {secret : Bytes} {code : String} {unixTime : Int64}

/-- Six ASCII digits. -/
def SixDigits (code : String) : Prop :=
  code.toList.length = 6 ∧ ∀ c ∈ code.toList, c.isDigit

theorem isDigit_iff {c : Char} : c.isDigit = true ↔ 48 ≤ c.toNat ∧ c.toNat ≤ 57 := by
  unfold Char.isDigit
  rw [Bool.and_eq_true, decide_eq_true_eq, decide_eq_true_eq, ge_iff_le, UInt32.le_iff_toNat_le,
    UInt32.le_iff_toNat_le]
  rfl

theorem wellFormed_iff : wellFormed code = true ↔ SixDigits code := by
  unfold wellFormed SixDigits
  rw [utf8_eq_encode]
  generalize code.toList = cs
  have hbytes : ∀ c : Char, c.toNat < 128 →
      ((48 ≤ UInt8.ofNat c.toNat ∧ UInt8.ofNat c.toNat ≤ 57) ↔ c.isDigit = true) := by
    intro c hc
    rw [isDigit_iff, UInt8.le_iff_toNat_le, UInt8.le_iff_toNat_le, UInt8.toNat_ofNat',
      Nat.mod_eq_of_lt (by omega)]
    rfl
  constructor
  · intro h
    obtain ⟨hlen, hall⟩ := Bool.and_eq_true_iff.mp h
    simp only [List.all_eq_true, Bool.and_eq_true, decide_eq_true_eq] at hall
    have hascii : ∀ c ∈ cs, c.toNat < 128 := by
      refine Utf8.ascii_of_encode fun b hb => ?_
      have hle : b.toNat ≤ 57 := UInt8.le_iff_toNat_le.mp (hall b hb).2
      omega
    rw [Utf8.encode_ascii hascii] at hlen hall
    refine ⟨by simpa [numDigits] using hlen, fun c hc => ?_⟩
    exact (hbytes c (hascii c hc)).mp (hall _ (List.mem_map.mpr ⟨c, hc, rfl⟩))
  · intro h
    obtain ⟨hlen, hall⟩ := h
    have hascii : ∀ c ∈ cs, c.toNat < 128 := by
      intro c hc
      have hle := (isDigit_iff.mp (hall c hc)).2
      omega
    rw [Utf8.encode_ascii hascii]
    simp only [Bool.and_eq_true, List.all_eq_true, decide_eq_true_eq]
    refine ⟨by simpa [numDigits] using hlen, fun b hb => ?_⟩
    obtain ⟨c, hc, rfl⟩ := List.mem_map.mp hb
    exact (hbytes c (hascii c hc)).mpr (hall c hc)

/-- Digits are not white space. -/
theorem SixDigits.trim (h : SixDigits code) : trim code = code := by
  refine trim_eq_self fun c hc => ?_
  obtain ⟨hge, hle⟩ := isDigit_iff.mp (h.2 c hc)
  unfold isWhiteSpace
  simp only [Bool.or_eq_false_iff, Bool.and_eq_false_iff, decide_eq_false_iff_not,
    beq_eq_false_iff_ne]
  omega

theorem hotp_lt (lib : Libs) (secret : Bytes) (counter : UInt64) :
    (hotp lib secret counter).toNat < 1000000 := by
  unfold hotp
  dsimp only
  rw [UInt32.toNat_mod]
  exact Nat.mod_lt _ (by decide)

theorem formatCode_sixDigits {value : UInt32} (h : value.toNat < 1000000) :
    SixDigits (formatCode value) := by
  unfold SixDigits formatCode
  rw [String.toList_ofList]
  exact ⟨Delimited.pad_length (by decide) h, fun c hc => Delimited.isDigit_of_mem_pad hc⟩

theorem formatCode_inj {value value' : UInt32} (h : formatCode value = formatCode value') :
    value = value' := by
  unfold formatCode at h
  exact UInt32.toNat_inj.mp (Delimited.pad_inj (String.ofList_inj.mp h))

/-! ## The window -/

/-- The steps whose code is `code`. -/
def Matching (lib : Libs) (secret : Bytes) (code : String) (unixTime : Int64) : Set Int :=
  {c | 0 ≤ c ∧ timeStep unixTime - 1 ≤ c ∧ c ≤ timeStep unixTime + 1 ∧
    formatCode (hotp lib secret (UInt64.ofInt c)) = code}

/-- A look through a number and its neighbours finds the least. -/
theorem find?_window {p : Int → Bool} {base c : Int} :
    ([-1, 0, 1].map fun delta => base + delta).find? p = some c ↔
      IsLeast {c | base - 1 ≤ c ∧ c ≤ base + 1 ∧ p c} c := by
  simp only [List.map_cons, List.map_nil, List.find?_cons, List.find?_nil]
  have hcases : ∀ x, base - 1 ≤ x → x ≤ base + 1 → x = base + -1 ∨ x = base + 0 ∨ x = base + 1 := by
    intro x hlow hhigh
    omega
  constructor
  · intro h
    split at h
    · next hp =>
      obtain rfl : base + -1 = c := Option.some.inj h
      exact ⟨⟨by omega, by omega, hp⟩, fun x hx => by have := hx.1; omega⟩
    · next hp =>
      split at h
      · next hp' =>
        obtain rfl : base + 0 = c := Option.some.inj h
        refine ⟨⟨by omega, by omega, hp'⟩, fun x hx => ?_⟩
        rcases hcases x hx.1 hx.2.1 with rfl | rfl | rfl
        · exact absurd (hp.symm.trans hx.2.2) (by decide)
        · exact le_rfl
        · omega
      · next hp' =>
        split at h
        · next hp'' =>
          obtain rfl : base + 1 = c := Option.some.inj h
          refine ⟨⟨by omega, by omega, hp''⟩, fun x hx => ?_⟩
          rcases hcases x hx.1 hx.2.1 with rfl | rfl | rfl
          · exact absurd (hp.symm.trans hx.2.2) (by decide)
          · exact absurd (hp'.symm.trans hx.2.2) (by decide)
          · exact le_rfl
        · exact absurd h (by simp)
  · intro h
    obtain ⟨⟨hlow, hhigh, hp⟩, hleast⟩ := h
    have hsmaller : ∀ x, base - 1 ≤ x → x < c → p x = false := by
      intro x hx hlt
      cases hpx : p x with
      | false => rfl
      | true =>
        have hle := hleast ⟨hx, by omega, hpx⟩
        omega
    rcases hcases c hlow hhigh with rfl | rfl | rfl
    · rw [hp]
    · rw [hsmaller (base + -1) (by omega) (by omega), hp]
    · rw [hsmaller (base + -1) (by omega) (by omega), hsmaller (base + 0) (by omega) (by omega), hp]

/-- **The step that matches** is the least one whose code is presented. -/
theorem matchedStep_iff {c : Int} : matchedStep lib secret code unixTime = some c ↔
    SixDigits (SylvaServer.trim code) ∧
    IsLeast (Matching lib secret (SylvaServer.trim code) unixTime) c := by
  unfold matchedStep
  generalize SylvaServer.trim code = text
  dsimp only
  have hset : {c | timeStep unixTime - 1 ≤ c ∧ c ≤ timeStep unixTime + 1 ∧ (decide (0 ≤ c) &&
      utf8 (formatCode (hotp lib secret (UInt64.ofInt c))) == utf8 text) = true} =
        Matching lib secret text unixTime := by
    ext x
    unfold Matching
    simp only [Set.mem_ofPred_eq, Bool.and_eq_true, decide_eq_true_eq, beq_iff_eq]
    constructor
    · intro h
      exact ⟨h.2.2.1, h.1, h.2.1, utf8_inj h.2.2.2⟩
    · intro h
      exact ⟨h.2.1, h.2.2.1, h.1, congrArg utf8 h.2.2.2⟩
  split
  · next hbad =>
    have hnot : ¬ SixDigits text := fun h => by
      rw [wellFormed_iff.mpr h] at hbad
      exact absurd hbad (by simp)
    simp [hnot]
  · next hgood =>
    have hdigits : SixDigits text := wellFormed_iff.mp (by simpa using hgood)
    rw [find?_window, hset]
    simp [hdigits]

/-! ## Steps of times -/

theorem timeStep_eq (unixTime : Int64) : timeStep unixTime = max unixTime.toInt 0 / 30 := by
  unfold timeStep timeStepSecs
  rcases le_total 0 unixTime.toInt with hnonneg | hneg
  · rw [Int.tdiv_eq_ediv_of_nonneg hnonneg]
    omega
  · have hle : unixTime.toInt.tdiv 30 ≤ 0 := by
      have hpos : 0 ≤ (-unixTime.toInt).tdiv 30 := Int.tdiv_nonneg (by omega) (by decide)
      rw [Int.neg_tdiv] at hpos
      omega
    omega

/-- Steps stay far inside 64 bits. -/
theorem timeStep_bounds (unixTime : Int64) :
    0 ≤ timeStep unixTime ∧ timeStep unixTime + 1 < 9223372036854775807 := by
  have hlt := unixTime.toInt_lt
  rw [timeStep_eq]
  omega

theorem timeStep_near {t u : Int64} (h : |u.toInt - t.toInt| ≤ 30) :
    timeStep t - 1 ≤ timeStep u ∧ timeStep u ≤ timeStep t + 1 := by
  obtain ⟨hlow, hhigh⟩ := abs_le.mp h
  rw [timeStep_eq, timeStep_eq]
  omega

/-- A step is the same counter in 64 bits. -/
theorem counter_toNat {c : Int} (h : 0 ≤ c) (hlt : c < 18446744073709551616) :
    ((UInt64.ofInt c).toNat : Int) = c := by
  unfold UInt64.ofInt
  rw [UInt64.toNat_ofNat']
  omega

/-- **Generation and verification agree on the window of three steps**, and nothing on the way runs
    out of its range. -/
theorem totp_window (lib : Libs) (secret : Bytes) :
    (∀ code unixTime c, matchedStep lib secret code unixTime = some c ↔
      SixDigits (SylvaServer.trim code) ∧
        IsLeast (Matching lib secret (SylvaServer.trim code) unixTime) c) ∧
    (∀ t u : Int64, |u.toInt - t.toInt| ≤ 30 →
      verifyCode lib secret (codeAt lib secret u) t = true) ∧
    (∀ (unixTime : Int64) (c : Int), 0 ≤ c → timeStep unixTime - 1 ≤ c → c ≤ timeStep unixTime + 1 →
      -9223372036854775808 ≤ timeStep unixTime - 1 ∧ timeStep unixTime + 1 ≤ 9223372036854775807 ∧
        ((UInt64.ofInt c).toNat : Int) = c) ∧
    (∀ message, (lib.hmacSha1 secret message).length = 20 ∧
      truncationOffset (lib.hmacSha1 secret message) + 3 < 20) ∧
    (∀ counter, SixDigits (formatCode (hotp lib secret counter))) ∧
    ∀ counter counter', formatCode (hotp lib secret counter) =
      formatCode (hotp lib secret counter') →
      hotp lib secret counter = hotp lib secret counter' := by
  refine ⟨fun code unixTime c => matchedStep_iff, fun t u h => ?_, fun unixTime c hc _ hhigh => ?_,
    fun message => ⟨lib.hmacSha1_size _ _, ?_⟩, fun counter => formatCode_sixDigits (hotp_lt ..),
    fun counter counter' => formatCode_inj⟩
  · have hdigits : SixDigits (codeAt lib secret u) := formatCode_sixDigits (hotp_lt ..)
    obtain ⟨hlow, hhigh⟩ := timeStep_near h
    have hmem : timeStep u ∈ Matching lib secret (codeAt lib secret u) t :=
      ⟨(timeStep_bounds u).1, hlow, hhigh, rfl⟩
    -- a finite set of integers has a least element
    obtain ⟨c, hc, hleast⟩ := Int.exists_least_of_bdd ⟨0, fun x hx => hx.1⟩ ⟨_, hmem⟩
    have hmatched : matchedStep lib secret (codeAt lib secret u) t = some c := by
      rw [matchedStep_iff, hdigits.trim]
      exact ⟨hdigits, hc, hleast⟩
    unfold verifyCode
    rw [hmatched]
    rfl
  · obtain ⟨hnonneg, hlt⟩ := timeStep_bounds unixTime
    exact ⟨by omega, by omega, counter_toNat hc (by omega)⟩
  · have hlt := truncationOffset_lt lib secret message
    rwa [lib.hmacSha1_size] at hlt

end SylvaServer.Totp
