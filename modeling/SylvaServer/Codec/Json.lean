/-
  JSON values and their compact rendering: no blanks, object members in key order, short
  escapes where JSON has them and `\u00xx` for the other control characters.

  Integers and floats are different values. How a float is written is a parameter;
  `LawfulFloats` is what is relied on: a number literal that says it is not an integer, and a
  different one for each float.

  Proved: `render_append_inj` (a value can be read off the front of a text) and `render_inj`.
-/
import SylvaServer.Codec.Delimited
import Mathlib.Data.String.Basic

namespace CompactJson

open Delimited

inductive Value (F : Type) where
  | null
  | bool (b : Bool)
  | int (n : Int)
  | float (f : F)
  | str (s : String)
  | arr (vs : List (Value F))
  /-- The members, in key order. -/
  | obj (ms : List (String × Value F))

variable {F : Type}

/-! ## Objects as sorted maps -/

/-- Set a member of a sorted map. -/
def insertMember (k : String) (v : Value F) : List (String × Value F) → List (String × Value F)
  | [] => [(k, v)]
  | (k', v') :: ms =>
    if k < k' then (k, v) :: (k', v') :: ms
    else if k = k' then (k, v) :: ms
    else (k', v') :: insertMember k v ms

/-- An object from its members in any order; of two with one key the later stays. -/
def Value.object (ms : List (String × Value F)) : Value F :=
  .obj (ms.foldl (fun acc m => insertMember m.1 m.2 acc) [])

mutual

/-- No float anywhere in the value. -/
def Value.FloatFree : Value F → Prop
  | .float _ => False
  | .arr vs => ItemsFloatFree vs
  | .obj ms => MembersFloatFree ms
  | _ => True

def ItemsFloatFree : List (Value F) → Prop
  | [] => True
  | v :: vs => v.FloatFree ∧ ItemsFloatFree vs

def MembersFloatFree : List (String × Value F) → Prop
  | [] => True
  | (_, v) :: ms => v.FloatFree ∧ MembersFloatFree ms

end

theorem membersFloatFree_insert {k : String} {v : Value F} (hv : v.FloatFree)
    {ms : List (String × Value F)} (hms : MembersFloatFree ms) :
    MembersFloatFree (insertMember k v ms) := by
  induction ms with
  | nil => exact ⟨hv, trivial⟩
  | cons m ms ih =>
    obtain ⟨k', v'⟩ := m
    unfold insertMember
    split
    · exact ⟨hv, hms⟩
    · split
      · exact ⟨hv, hms.2⟩
      · exact ⟨hms.1, ih hms.2⟩

/-- An object of float-free members is float-free. -/
theorem floatFree_object {ms : List (String × Value F)} (hms : ∀ m ∈ ms, m.2.FloatFree) :
    (Value.object ms).FloatFree := by
  have hfold : ∀ (ms acc : List (String × Value F)), (∀ m ∈ ms, m.2.FloatFree) →
      MembersFloatFree acc →
      MembersFloatFree (ms.foldl (fun acc m => insertMember m.1 m.2 acc) acc) := by
    intro ms
    induction ms with
    | nil => exact fun acc _ hacc => hacc
    | cons m ms ih =>
      intro acc hms hacc
      exact ih _ (fun m' hm' => hms m' (List.mem_cons_of_mem _ hm'))
        (membersFloatFree_insert (hms m List.mem_cons_self) hacc)
  exact hfold ms [] hms trivial

/-! ## Rendering -/

def quote : Char := Char.ofNat 0x22

def backslash : Char := Char.ofNat 0x5c

/-- Characters with an escape of two characters, and its second character. -/
def shortEscapes : List (Char × Char) :=
  [(quote, quote), (backslash, backslash), (Char.ofNat 8, 'b'), (Char.ofNat 9, 't'),
    (Char.ofNat 10, 'n'), (Char.ofNat 12, 'f'), (Char.ofNat 13, 'r')]

def escapeChar (c : Char) : List Char :=
  match shortEscapes.lookup c with
  | some d => [backslash, d]
  | none =>
    if c.toNat < 0x20 then
      [backslash, 'u', '0', '0', hexDigit (c.toNat / 16), hexDigit (c.toNat % 16)]
    else [c]

/-- A string literal. -/
def quoted (s : String) : List Char := quote :: (s.toList.flatMap escapeChar ++ [quote])

/-- A comma before every item but the first. -/
def separator (first : Bool) : List Char := if first then [] else [',']

section Render

variable (text : F → List Char)

mutual

def render : Value F → List Char
  | .null => "null".toList
  | .bool b => (if b then "true" else "false").toList
  | .int n => signedDigits n
  | .float f => text f
  | .str s => quoted s
  | .arr vs => '[' :: renderItems true vs
  | .obj ms => '{' :: renderMembers true ms

def renderItems (first : Bool) : List (Value F) → List Char
  | [] => [']']
  | v :: vs => separator first ++ (render v ++ renderItems false vs)

def renderMembers (first : Bool) : List (String × Value F) → List Char
  | [] => ['}']
  | (k, v) :: ms => separator first ++ (quoted k ++ ':' :: (render v ++ renderMembers false ms))

end

end Render

/-! ## Strings -/

/-- Read one escaped character back. -/
def readChar : List Char → Option (Char × List Char)
  | [] => none
  | c :: r =>
    if c = backslash then
      match r with
      | 'u' :: _ :: _ :: a :: b :: r => some (Char.ofNat (16 * hexVal a + hexVal b), r)
      | d :: r => (shortEscapes.find? (·.2 = d)).map fun e => (e.1, r)
      | [] => none
    else some (c, r)

theorem readChar_escapeChar (c : Char) (r : List Char) :
    readChar (escapeChar c ++ r) = some (c, r) := by
  unfold escapeChar
  split
  · next d hd =>
    have hmem : (c, d) ∈ shortEscapes := by
      obtain ⟨l₁, l₂, h, -⟩ := List.lookup_eq_some_iff.mp hd
      simp [h]
    simp only [shortEscapes, List.mem_cons, Prod.mk.injEq, List.not_mem_nil, or_false] at hmem
    rcases hmem with ⟨rfl, rfl⟩ | ⟨rfl, rfl⟩ | ⟨rfl, rfl⟩ | ⟨rfl, rfl⟩ | ⟨rfl, rfl⟩ | ⟨rfl, rfl⟩ |
      ⟨rfl, rfl⟩ <;> rfl
  · next hnone =>
    split
    · next hlt =>
      have ha := hexVal_hexDigit (c.toNat / 16) (by omega)
      have hb := hexVal_hexDigit (c.toNat % 16) (by omega)
      simp only [List.cons_append, List.nil_append, readChar, if_true, ha, hb]
      rw [show 16 * (c.toNat / 16) + c.toNat % 16 = c.toNat by omega, Char.ofNat_toNat]
    · have hc : c ≠ backslash := by
        rintro rfl
        exact absurd hnone (by decide)
      simp [readChar, hc]

theorem escapeChar_ne_nil (c : Char) : escapeChar c ≠ [] := by
  unfold escapeChar
  split
  · simp
  · split <;> simp

theorem escapeChar_code : Code escapeChar :=
  Code.of_reader readChar readChar_escapeChar escapeChar_ne_nil

theorem escapeChar_not_quote (c : Char) (r s : List Char) : escapeChar c ++ r ≠ quote :: s := by
  intro h
  have hread := readChar_escapeChar c r
  rw [h] at hread
  simp only [readChar, if_neg (show quote ≠ backslash by decide), Option.some.injEq,
    Prod.mk.injEq] at hread
  obtain ⟨rfl, rfl⟩ := hread
  simp [escapeChar, shortEscapes, quote, backslash] at h

/-- A string literal can be read off the front of a text. -/
theorem quoted_append_inj {s t : String} {r r' : List Char} (h : quoted s ++ r = quoted t ++ r') :
    s = t ∧ r = r' := by
  simp only [quoted, List.cons_append, List.append_assoc, List.nil_append, List.cons.injEq,
    true_and] at h
  obtain ⟨hst, hr⟩ := escapeChar_code.flatMap_inj (fun c x => escapeChar_not_quote c x _)
    (fun c x => escapeChar_not_quote c x _) h
  exact ⟨String.toList_inj.mp hst, (List.cons.inj hr).2⟩

/-! ## Numbers -/

/-- What a number literal is made of. -/
def IsNumberChar (c : Char) : Prop := IsSigned c ∨ c = '.' ∨ c = 'e'

/-- The text of floats: number literals with a point or an exponent, different for different
    floats. -/
structure LawfulFloats (text : F → List Char) : Prop where
  injective : Function.Injective text
  chars : ∀ f, ∀ c ∈ text f, IsNumberChar c
  head : ∀ f, ∃ c cs, text f = c :: cs ∧ IsSigned c
  not_int : ∀ f, ∃ c ∈ text f, c = '.' ∨ c = 'e'

theorem not_isSigned_of_fraction {c : Char} (h : c = '.' ∨ c = 'e') : ¬ IsSigned c := by
  rcases h with rfl | rfl <;> simp [IsSigned]

theorem float_ne_int {text : F → List Char} (hl : LawfulFloats text) (f : F) (n : Int) :
    text f ≠ signedDigits n := by
  intro h
  obtain ⟨c, hc, hfrac⟩ := hl.not_int f
  exact not_isSigned_of_fraction hfrac (isSigned_of_mem (h ▸ hc))

/-! ## Which kind of value a text starts with -/

inductive Kind where
  | null | bool (b : Bool) | number | str | arr | obj | none
deriving DecidableEq

def kind : Value F → Kind
  | .null => .null
  | .bool b => .bool b
  | .int _ | .float _ => .number
  | .str _ => .str
  | .arr _ => .arr
  | .obj _ => .obj

/-- The kind of a value from the first character of its text. -/
def kindOf (c : Char) : Kind :=
  if c = 'n' then .null
  else if c = 't' then .bool true
  else if c = 'f' then .bool false
  else if c = quote then .str
  else if c = '[' then .arr
  else if c = '{' then .obj
  else if c.isDigit ∨ c = '-' then .number
  else .none

theorem kindOf_signed {c : Char} (h : IsSigned c) : kindOf c = .number := by
  have hne : ∀ d : Char, ¬ IsSigned d → c ≠ d := fun d hd he => hd (he ▸ h)
  unfold kindOf
  rw [if_neg (hne _ (by simp [IsSigned])), if_neg (hne _ (by simp [IsSigned])),
    if_neg (hne _ (by simp [IsSigned])), if_neg (hne _ (by simp [IsSigned, quote])),
    if_neg (hne _ (by simp [IsSigned])), if_neg (hne _ (by simp [IsSigned]))]
  exact if_pos h

variable {text : F → List Char}

theorem render_head (hl : LawfulFloats text) (v : Value F) :
    ∃ c cs, render text v = c :: cs ∧ kindOf c = kind v := by
  cases v with
  | null => exact ⟨_, _, rfl, rfl⟩
  | bool b => cases b <;> exact ⟨_, _, rfl, rfl⟩
  | int n =>
    cases h : signedDigits n with
    | nil => exact absurd h (signedDigits_ne_nil n)
    | cons c cs =>
      exact ⟨c, cs, by rw [render, h], kindOf_signed (isSigned_of_mem (n := n) (by rw [h]; simp))⟩
  | float f =>
    obtain ⟨c, cs, h, hc⟩ := hl.head f
    exact ⟨c, cs, by rw [render, h], kindOf_signed hc⟩
  | str s => exact ⟨_, _, by rw [render, quoted], by rfl⟩
  | arr vs => exact ⟨_, _, by rw [render], by rfl⟩
  | obj ms => exact ⟨_, _, by rw [render], by rfl⟩

theorem kind_eq_of_append (hl : LawfulFloats text) {v w : Value F} {r s : List Char}
    (h : render text v ++ r = render text w ++ s) : kind v = kind w := by
  obtain ⟨c, cs, hv, hcv⟩ := render_head hl v
  obtain ⟨d, ds, hw, hdw⟩ := render_head hl w
  rw [hv, hw] at h
  rw [← hcv, ← hdw, (List.cons.inj h).1]

/-! ## Reading a value off the front of a text -/

theorem isNumberChar_of_int {n : Int} : ∀ c ∈ signedDigits n, IsNumberChar c :=
  fun _ hc => Or.inl (isSigned_of_mem hc)

theorem stops_comma {r : List Char} : Stops IsNumberChar (',' :: r) :=
  stops_cons (by simp [IsNumberChar, IsSigned])

theorem stops_items (vs : List (Value F)) (r : List Char) :
    Stops IsNumberChar (renderItems text false vs ++ r) := by
  cases vs with
  | nil => exact stops_cons (by simp [IsNumberChar, IsSigned])
  | cons v vs => exact stops_comma

theorem stops_members (ms : List (String × Value F)) (r : List Char) :
    Stops IsNumberChar (renderMembers text false ms ++ r) := by
  cases ms with
  | nil => exact stops_cons (by simp [IsNumberChar, IsSigned])
  | cons m ms => exact stops_comma

/-- The list of items is never over where another item starts. -/
theorem item_ne_close (hl : LawfulFloats text) (first : Bool) (v : Value F) (r s : List Char) :
    separator first ++ (render text v ++ r) ≠ ']' :: s := by
  intro h
  cases first with
  | false => exact absurd (List.cons.inj h).1 (by decide)
  | true =>
    obtain ⟨c, cs, hv, hc⟩ := render_head hl v
    simp only [separator, if_true, List.nil_append, hv, List.cons_append, List.cons.injEq] at h
    obtain ⟨rfl, -⟩ := h
    cases v <;> exact absurd hc (by simp [kind, kindOf, quote])

theorem member_ne_close (first : Bool) (k : String) (r s : List Char) :
    separator first ++ (quoted k ++ r) ≠ '}' :: s := by
  intro h
  cases first with
  | false => exact absurd (List.cons.inj h).1 (by decide)
  | true => exact absurd (List.cons.inj h).1 (by decide)

mutual

/-- **Unique reading.** A rendered value can be read off the front of a text that goes on with
    no number character. -/
theorem render_append_inj (hl : LawfulFloats text) : ∀ (v w : Value F) {r s : List Char},
    Stops IsNumberChar r → Stops IsNumberChar s →
    render text v ++ r = render text w ++ s → v = w ∧ r = s
  | .null, w, r, s, _, _, h => by
    have hk := kind_eq_of_append hl h
    cases w <;> simp_all [kind, render]
  | .bool b, w, r, s, _, _, h => by
    have hk := kind_eq_of_append hl h
    cases w <;> simp_all [kind, render]
  | .int n, w, r, s, hr, hs, h => by
    have hk := kind_eq_of_append hl h
    cases w with
    | int m =>
      obtain ⟨he, hrs⟩ := append_inj_of_class isNumberChar_of_int isNumberChar_of_int hr hs
        (by simpa only [render] using h)
      exact ⟨by rw [signedDigits_inj he], hrs⟩
    | float f =>
      obtain ⟨he, -⟩ := append_inj_of_class isNumberChar_of_int (hl.chars f) hr hs
        (by simpa only [render] using h)
      exact absurd he.symm (float_ne_int hl f n)
    | _ => simp [kind] at hk
  | .float f, w, r, s, hr, hs, h => by
    have hk := kind_eq_of_append hl h
    cases w with
    | int m =>
      obtain ⟨he, -⟩ := append_inj_of_class (hl.chars f) isNumberChar_of_int hr hs
        (by simpa only [render] using h)
      exact absurd he (float_ne_int hl f m)
    | float g =>
      obtain ⟨he, hrs⟩ := append_inj_of_class (hl.chars f) (hl.chars g) hr hs
        (by simpa only [render] using h)
      exact ⟨by rw [hl.injective he], hrs⟩
    | _ => simp [kind] at hk
  | .str a, w, r, s, _, _, h => by
    have hk := kind_eq_of_append hl h
    cases w with
    | str b =>
      obtain ⟨rfl, hrs⟩ := quoted_append_inj (by simpa only [render] using h)
      exact ⟨rfl, hrs⟩
    | _ => simp [kind] at hk
  | .arr vs, w, r, s, _, _, h => by
    have hk := kind_eq_of_append hl h
    cases w with
    | arr ws =>
      obtain ⟨rfl, hrs⟩ := items_append_inj hl vs ws true (List.cons.inj (by
        simpa only [render, List.cons_append] using h)).2
      exact ⟨rfl, hrs⟩
    | _ => simp [kind] at hk
  | .obj ms, w, r, s, _, _, h => by
    have hk := kind_eq_of_append hl h
    cases w with
    | obj ns =>
      obtain ⟨rfl, hrs⟩ := members_append_inj hl ms ns true (List.cons.inj (by
        simpa only [render, List.cons_append] using h)).2
      exact ⟨rfl, hrs⟩
    | _ => simp [kind] at hk

theorem items_append_inj (hl : LawfulFloats text) : ∀ (vs ws : List (Value F)) (first : Bool)
    {r s : List Char}, renderItems text first vs ++ r = renderItems text first ws ++ s →
    vs = ws ∧ r = s
  | [], [], first, r, s, h => by simpa [renderItems] using h
  | [], w :: ws, first, r, s, h => by
    simp only [renderItems, List.append_assoc, List.cons_append, List.nil_append] at h
    exact absurd h.symm (item_ne_close hl first w _ _)
  | v :: vs, [], first, r, s, h => by
    simp only [renderItems, List.append_assoc, List.cons_append, List.nil_append] at h
    exact absurd h (item_ne_close hl first v _ _)
  | v :: vs, w :: ws, first, r, s, h => by
    simp only [renderItems, List.append_assoc, List.append_cancel_left_eq] at h
    obtain ⟨hv, hrest⟩ := render_append_inj hl v w (stops_items vs r) (stops_items ws s) h
    obtain ⟨hvs, hrs⟩ := items_append_inj hl vs ws false hrest
    exact ⟨by rw [hv, hvs], hrs⟩

theorem members_append_inj (hl : LawfulFloats text) : ∀ (ms ns : List (String × Value F))
    (first : Bool) {r s : List Char},
    renderMembers text first ms ++ r = renderMembers text first ns ++ s → ms = ns ∧ r = s
  | [], [], first, r, s, h => by simpa [renderMembers] using h
  | [], (k, w) :: ns, first, r, s, h => by
    simp only [renderMembers, List.append_assoc, List.cons_append, List.nil_append] at h
    exact absurd h.symm (member_ne_close first k _ _)
  | (k, v) :: ms, [], first, r, s, h => by
    simp only [renderMembers, List.append_assoc, List.cons_append, List.nil_append] at h
    exact absurd h (member_ne_close first k _ _)
  | (k, v) :: ms, (l, w) :: ns, first, r, s, h => by
    simp only [renderMembers, List.append_assoc, List.append_cancel_left_eq,
      List.cons_append] at h
    obtain ⟨hk, hrest⟩ := quoted_append_inj h
    obtain ⟨hv, hrest⟩ := render_append_inj hl v w (stops_members ms r) (stops_members ns s)
      (List.cons.inj hrest).2
    obtain ⟨hms, hrs⟩ := members_append_inj hl ms ns false hrest
    exact ⟨by rw [hk, hv, hms], hrs⟩

end

/-- **The compact rendering is injective.** -/
theorem render_inj (hl : LawfulFloats text) {v w : Value F} (h : render text v = render text w) :
    v = w :=
  (render_append_inj hl v w (stops_nil _) (stops_nil _) (congrArg (· ++ []) h)).1

end CompactJson
