/-
  Instants as text: RFC 3339 with as many fractional digits as the instant needs.

  An instant is a number of nanoseconds since the Unix epoch. `civil` goes from a day number to
  a year and a day of that year by 400-year cycles, `monthDay` on to month and day.

  Proved: the calendar loses nothing (`civil_inj`, `monthDay_inj`), so two instants with the
  same text are the same instant (`rfc3339_inj`).
-/
import SylvaServer.Codec.Delimited

namespace Calendar

open Delimited

/-! ## From days to dates -/

/-- Leap days among the first `y` years of a 400-year cycle. -/
def yearDelta (y : Nat) : Nat := (y + 3) / 4 - (y + 99) / 100 + (y + 399) / 400

/-- Year of the cycle and zero-based day of that year, from the day of the cycle. -/
def cycleToYo (cycle : Nat) : Nat × Nat :=
  let year := cycle / 365
  let ordinal0 := cycle % 365
  let delta := yearDelta year
  if ordinal0 < delta then (year - 1, ordinal0 + 365 - yearDelta (year - 1))
  else (year, ordinal0 - delta)

/-- Year and zero-based day of the year of a day number (days since 1970-01-01). -/
def civil (day : Int) : Int × Nat :=
  let d := day + 719528
  let yo := cycleToYo (d % 146097).toNat
  (400 * (d / 146097) + yo.1, yo.2)

def isLeap (year : Int) : Bool := year % 4 == 0 && (year % 100 != 0 || year % 400 == 0)

/-- Days before each month, from January on. -/
def monthStarts (leap : Bool) : List Nat :=
  if leap then [0, 31, 60, 91, 121, 152, 182, 213, 244, 274, 305, 335]
  else [0, 31, 59, 90, 120, 151, 181, 212, 243, 273, 304, 334]

/-- Month (1 to 12) and day (from 1) of a zero-based day of the year. -/
def monthDay (leap : Bool) (ordinal0 : Nat) : Nat × Nat :=
  let started := (monthStarts leap).filter (· ≤ ordinal0)
  (started.length, ordinal0 - started.getLastD 0 + 1)

theorem yearDelta_bounds : ∀ y ≤ 400, yearDelta y ≤ 97 ∧ yearDelta y ≤ yearDelta (y - 1) + 1 ∧
    yearDelta (y - 1) ≤ yearDelta y := by
  decide +kernel

/-- The day of the cycle that `cycleToYo` came from, and the bounds of its result. -/
theorem cycleToYo_spec (cycle : Nat) (h : cycle < 146097) :
    365 * (cycleToYo cycle).1 + yearDelta (cycleToYo cycle).1 + (cycleToYo cycle).2 = cycle ∧
      (cycleToYo cycle).1 < 400 ∧ (cycleToYo cycle).2 < 366 := by
  obtain ⟨hle, hstep, hmono⟩ := yearDelta_bounds (cycle / 365) (by omega)
  have h400 : yearDelta 400 = 97 := rfl
  have h0 : yearDelta 0 = 0 := rfl
  by_cases hlt : cycle % 365 < yearDelta (cycle / 365)
  · have hpos : cycle / 365 ≠ 0 := fun he => by
      rw [he, h0] at hlt
      omega
    simp only [cycleToYo, if_pos hlt]
    omega
  · have hlast : cycle / 365 ≠ 400 := fun he => by
      rw [he, h400] at hlt
      omega
    simp only [cycleToYo, if_neg hlt]
    omega

theorem civil_inj {a b : Int} (h : civil a = civil b) : a = b := by
  have ha := cycleToYo_spec (((a + 719528) % 146097).toNat) (by omega)
  have hb := cycleToYo_spec (((b + 719528) % 146097).toNat) (by omega)
  simp only [civil, Prod.mk.injEq] at h
  obtain ⟨hyear, hday⟩ := h
  have hcycle : (cycleToYo ((a + 719528) % 146097).toNat).1 =
      (cycleToYo ((b + 719528) % 146097).toNat).1 := by omega
  rw [hcycle, hday] at ha
  omega

theorem civil_ordinal_lt (day : Int) : (civil day).2 < 366 :=
  (cycleToYo_spec (((day + 719528) % 146097).toNat) (by omega)).2.2

/-- The day of the year of a month and a day. -/
def ordinal0 (leap : Bool) (md : Nat × Nat) : Nat := (monthStarts leap).getD (md.1 - 1) 0 + md.2 - 1

theorem ordinal0_monthDay : ∀ leap, ∀ n < 366, ordinal0 leap (monthDay leap n) = n := by
  decide +kernel

theorem monthDay_inj {leap : Bool} {m n : Nat} (hm : m < 366) (hn : n < 366)
    (h : monthDay leap m = monthDay leap n) : m = n := by
  rw [← ordinal0_monthDay leap m hm, h, ordinal0_monthDay leap n hn]

/-! ## Text -/

/-- A year: four digits from 0 to 9999, otherwise a sign and at least four digits. -/
def yearDigits (year : Int) : List Char :=
  if 0 ≤ year ∧ year ≤ 9999 then pad 4 year.toNat
  else (if year < 0 then '-' else '+') :: pad 4 year.natAbs

/-- The fraction of the second: none, milli-, micro- or nanoseconds. -/
def fraction (nano : Nat) : List Char :=
  if nano = 0 then []
  else if nano % 1000000 = 0 then '.' :: pad 3 (nano / 1000000)
  else if nano % 1000 = 0 then '.' :: pad 6 (nano / 1000)
  else '.' :: pad 9 nano

/-- RFC 3339 with the given offset text. -/
def rfc3339 (offset : List Char) (nanos : Int) : List Char :=
  let secs := nanos / 1000000000
  let yo := civil (secs / 86400)
  let md := monthDay (isLeap yo.1) yo.2
  let sod := (secs % 86400).toNat
  yearDigits yo.1 ++ '-' :: pad 2 md.1 ++ '-' :: pad 2 md.2 ++
    'T' :: pad 2 (sod / 3600) ++ ':' :: pad 2 (sod / 60 % 60) ++ ':' :: pad 2 (sod % 60) ++
    fraction (nanos % 1000000000).toNat ++ offset

def IsDigit (c : Char) : Prop := c.isDigit = true

theorem isDigit_pad {w n : Nat} : ∀ c ∈ pad w n, IsDigit c := fun _ => isDigit_of_mem_pad

theorem pad_head (w n : Nat) : ∃ c cs, pad w n = c :: cs ∧ IsDigit c := by
  cases h : pad w n with
  | nil => exact absurd (List.append_eq_nil_iff.mp h).2 (digits_ne_nil n)
  | cons c cs => exact ⟨c, cs, rfl, isDigit_pad c (by rw [h]; simp)⟩

/-- A padded number before something that is not a digit. -/
theorem pad_append_inj {v w m n : Nat} {r s : List Char} (hr : Stops IsDigit r)
    (hs : Stops IsDigit s) (h : pad v m ++ r = pad w n ++ s) : m = n ∧ r = s := by
  obtain ⟨he, hrs⟩ := append_inj_of_class isDigit_pad isDigit_pad hr hs h
  exact ⟨pad_inj he, hrs⟩

theorem stops_of {c : Char} {r : List Char} (h : c.isDigit = false) : Stops IsDigit (c :: r) :=
  stops_cons (by simp [IsDigit, h])

theorem sign_ne_pad {c : Char} (hc : c.isDigit = false) {w n : Nat} {r s : List Char} :
    c :: r ≠ pad w n ++ s := by
  obtain ⟨d, ds, hd, hdd⟩ := pad_head w n
  rw [hd]
  intro h
  rw [(List.cons.inj h).1] at hc
  exact absurd hdd (by simp [IsDigit, hc])

theorem yearDigits_append_inj {y z : Int} {r s : List Char}
    (h : yearDigits y ++ '-' :: r = yearDigits z ++ '-' :: s) : y = z ∧ r = s := by
  have hdash : ∀ t : List Char, Stops IsDigit ('-' :: t) := fun t => stops_of (by decide)
  have hsign : ∀ x : Int, (if x < 0 then '-' else '+').isDigit = false := by
    intro x
    split <;> decide
  by_cases hy : 0 ≤ y ∧ y ≤ 9999 <;> by_cases hz : 0 ≤ z ∧ z ≤ 9999
  · rw [yearDigits, yearDigits, if_pos hy, if_pos hz] at h
    obtain ⟨he, hrs⟩ := pad_append_inj (hdash r) (hdash s) h
    exact ⟨by omega, (List.cons.inj hrs).2⟩
  · rw [yearDigits, yearDigits, if_pos hy, if_neg hz] at h
    exact absurd h.symm (sign_ne_pad (hsign z))
  · rw [yearDigits, yearDigits, if_neg hy, if_pos hz] at h
    exact absurd h (sign_ne_pad (hsign y))
  · rw [yearDigits, yearDigits, if_neg hy, if_neg hz] at h
    obtain ⟨hsign, hrest⟩ := List.cons.inj h
    obtain ⟨he, hrs⟩ := pad_append_inj (hdash r) (hdash s) hrest
    refine ⟨?_, (List.cons.inj hrs).2⟩
    by_cases hy0 : y < 0 <;> by_cases hz0 : z < 0
    · omega
    · rw [if_pos hy0, if_neg hz0] at hsign
      exact absurd hsign (by decide)
    · rw [if_neg hy0, if_pos hz0] at hsign
      exact absurd hsign (by decide)
    · omega

/-- The nanoseconds a fraction stands for. -/
def fractionValue (text : List Char) : Nat :=
  Nat.ofDigitChars 10 text.tail 0 * 10 ^ (9 - text.tail.length)

theorem fractionValue_fraction {nano : Nat} (h : nano < 1000000000) :
    fractionValue (fraction nano) = nano := by
  have hread : ∀ w n, 0 < w → n < 10 ^ w → fractionValue ('.' :: pad w n) = n * 10 ^ (9 - w) := by
    intro w n hw hn
    rw [fractionValue, List.tail_cons, ofDigitChars_pad, pad_length hw hn]
  by_cases h0 : nano = 0
  · subst h0
    rfl
  by_cases h6 : nano % 1000000 = 0
  · rw [fraction, if_neg h0, if_pos h6, hread 3 _ (by omega) (by omega)]
    omega
  by_cases h3 : nano % 1000 = 0
  · rw [fraction, if_neg h0, if_neg h6, if_pos h3, hread 6 _ (by omega) (by omega)]
    omega
  · rw [fraction, if_neg h0, if_neg h6, if_neg h3, hread 9 _ (by omega) (by omega)]
    omega

theorem fraction_inj {m n : Nat} (hm : m < 1000000000) (hn : n < 1000000000)
    (h : fraction m = fraction n) : m = n := by
  rw [← fractionValue_fraction hm, h, fractionValue_fraction hn]

theorem stops_fraction (n : Nat) : Stops IsDigit (fraction n) := by
  unfold fraction
  split
  · exact stops_nil _
  · split
    · exact stops_of (by decide)
    · split <;> exact stops_of (by decide)

/-- **Equal texts, equal instants.** -/
theorem rfc3339_inj {offset : List Char} {m n : Int} (h : rfc3339 offset m = rfc3339 offset n) :
    m = n := by
  simp only [rfc3339, List.append_cancel_right_eq] at h
  simp only [List.append_assoc, List.cons_append] at h
  obtain ⟨hyear, h⟩ := yearDigits_append_inj h
  obtain ⟨hmonth, h⟩ := pad_append_inj (stops_of (by decide)) (stops_of (by decide)) h
  obtain ⟨hday, h⟩ := pad_append_inj (stops_of (by decide)) (stops_of (by decide))
    (List.cons.inj h).2
  obtain ⟨hhour, h⟩ := pad_append_inj (stops_of (by decide)) (stops_of (by decide))
    (List.cons.inj h).2
  obtain ⟨hmin, h⟩ := pad_append_inj (stops_of (by decide)) (stops_of (by decide))
    (List.cons.inj h).2
  obtain ⟨hsec, h⟩ := pad_append_inj (stops_fraction _) (stops_fraction _) (List.cons.inj h).2
  have hnano := fraction_inj (by omega) (by omega) h
  rw [hyear] at hmonth hday
  have hord := monthDay_inj (civil_ordinal_lt _) (civil_ordinal_lt _) (Prod.ext hmonth hday)
  have hdate : m / 1000000000 / 86400 = n / 1000000000 / 86400 := civil_inj (Prod.ext hyear hord)
  omega

end Calendar
