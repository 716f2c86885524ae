/-
  Valid codes that are refused.

  `verifyAndConsume` goes through the authenticators of a user and stops at the first whose window
  has the code: "no other credential could match the same 6 digits". Six digits are not that many,
  and one secret may have the same code in neighbouring steps too.

  Proved: what the loop does (`tryCredentials_none`, `tryCredentials_first`), and that a valid
  unused code is accepted exactly where the first authenticator with the code has not used its
  earliest step with it, or no code is valid at all (`valid_code_accepted_iff`). Two authenticators
  with one code show a refusal (`valid_code_refused`).
-/
import SylvaServer.Auth.OneTimeCodes
import SylvaServer.Model.Context
import SylvaServer.Model.Views
import SylvaServer.ReadCommitted.Solo

namespace SylvaServer.ValidCodes

open ReadCommitted ReadCommitted.Prog UserTotp

/-! ## Valid codes -/

/-- The user's verified authenticators, in the order in which Postgres gives them. -/
def authenticators (env : Env) (db : Db) (userId : Uuid) : List TotpCredential :=
  orderAsc (fun cred => (env.rank cred.id : Int))
    (db.totpCredentials.filter fun cred => cred.userId == userId && cred.verifiedAt.isSome)

/-- The step is newer than the last one used. -/
def Unused (cred : TotpCredential) (s : Int) : Prop := ∀ last ∈ cred.lastUsedStep, last < s

instance (cred : TotpCredential) (s : Int) : Decidable (Unused cred s) := by
  unfold Unused
  infer_instance

/-- A verified authenticator of the user has the code at an unused step near the current one. -/
def Valid (lib : Libs) (secret : TotpCredential → Bytes) (db : Db) (userId : Uuid) (code : String)
    (unixTime : Int64) (cred : TotpCredential) (s : Int) : Prop :=
  cred ∈ db.totpCredentials ∧ cred.userId = userId ∧ cred.verifiedAt ≠ none ∧
    s ∈ Totp.Matching lib (secret cred) (trim code) unixTime ∧ Unused cred s

/-- The sealed secrets of the user's verified authenticators open. -/
def Opens (lib : Libs) (key : Bytes) (secret : TotpCredential → Bytes) (db : Db)
    (userId : Uuid) : Prop :=
  ∀ cred ∈ db.totpCredentials, cred.userId = userId → cred.verifiedAt ≠ none →
    Secretbox.open lib key cred.secretEnc = .ok (secret cred)

theorem mem_authenticators {env : Env} {db : Db} {userId : Uuid} {cred : TotpCredential} :
    cred ∈ authenticators env db userId ↔
      cred ∈ db.totpCredentials ∧ cred.userId = userId ∧ cred.verifiedAt ≠ none := by
  unfold authenticators
  rw [mem_orderAsc, List.mem_filter, Bool.and_eq_true, beq_iff_eq, Option.isSome_iff_ne_none]

/-! ## The loop -/

section Loop

variable {lib : Libs} {key : Bytes} {secret : TotpCredential → Bytes} {code : String}
  {unixTime : Int64} (env : Env) (sh : Shared)

/-- What the first statement reads of an authenticator. -/
def sealedSecret (cred : TotpCredential) : Uuid × Bytes := (cred.id, cred.secretEnc)

/-- Authenticators without the code are passed over. -/
theorem tryCredentials_pass {pre : List TotpCredential} (rows : List (Uuid × Bytes))
    (hopen : ∀ cred ∈ pre, Secretbox.open lib key cred.secretEnc = .ok (secret cred))
    (hpre : ∀ cred ∈ pre, Totp.matchedStep lib (secret cred) code unixTime = none) :
    (tryCredentials lib key code unixTime (pre.map sealedSecret ++ rows)).exec env none sh =
      (tryCredentials lib key code unixTime rows).exec env none sh := by
  induction pre with
  | nil => rfl
  | cons cred pre ih =>
    have hstep : tryCredentials lib key code unixTime ((cred :: pre).map sealedSecret ++ rows) =
        tryCredentials lib key code unixTime (pre.map sealedSecret ++ rows) := by
      simp only [List.map_cons, List.cons_append, sealedSecret, tryCredentials,
        hopen cred List.mem_cons_self, Prog.ofExcept, bind_ok, hpre cred List.mem_cons_self]
    rw [hstep]
    exact ih (fun c hc => hopen c (List.mem_cons_of_mem _ hc)) fun c hc =>
      hpre c (List.mem_cons_of_mem _ hc)

/-- The row an accepted step leaves. -/
def consumed (env : Env) (s : Int) (cred : TotpCredential) : TotpCredential :=
  { cred with
    lastUsedStep := some s
    lastUsedAt := some env.pgNow }

/-- The consuming `UPDATE` of an authenticator that is there. -/
theorem consume_eq (hkeyed : Keyed (Table.key .totpCredentials) sh.db.totpCredentials)
    {cred : TotpCredential} (hcred : cred ∈ sh.db.totpCredentials)
    (hverified : cred.verifiedAt ≠ none) (s : Int) : consume cred.id s env sh.mem sh.db =
      if Unused cred s then
        { result := .ok 1
          writes := [.put .totpCredentials (consumed env s cred)]
          locks := []
          mem := sh.mem }
      else { result := .ok 0, writes := [], locks := [], mem := sh.mem } := by
  have hsome : cred.verifiedAt.isSome = true := Option.isSome_iff_ne_none.mpr hverified
  have hrows : sh.db.totpCredentials.filter (fun c => c.id == cred.id && c.verifiedAt.isSome &&
      c.lastUsedStep.all fun last => decide (last < s)) = if Unused cred s then [cred] else [] := by
    have hmatch : (cred.id == cred.id && cred.verifiedAt.isSome &&
        cred.lastUsedStep.all fun last => decide (last < s)) = decide (Unused cred s) := by
      rw [beq_self_eq_true, hsome, Bool.true_and, Bool.true_and, Bool.eq_iff_iff,
        Option.all_eq_true, decide_eq_true_eq]
      exact forall₂_congr fun last _ => decide_eq_true_iff
    rcases keyed_filter_cases hkeyed (k := .uuid cred.id)
      (p := fun c : TotpCredential => c.id == cred.id && c.verifiedAt.isSome &&
        c.lastUsedStep.all fun last => decide (last < s))
      (fun c hc => congrArg Key.uuid
        (by simp only [Bool.and_eq_true, beq_iff_eq] at hc; exact hc.1.1))
      with hnil | ⟨c, hc, hp, hone⟩
    · have hnone := List.filter_eq_nil_iff.mp hnil cred hcred
      rw [hmatch, decide_eq_true_eq] at hnone
      rw [hnil, if_neg hnone]
    · have hid : c.id = cred.id := by
        simp only [Bool.and_eq_true, beq_iff_eq] at hp
        exact hp.1.1
      obtain rfl : c = cred := hkeyed.eq hc hcred (congrArg Key.uuid hid)
      rw [hmatch, decide_eq_true_eq] at hp
      rw [hone, if_pos hp]
  have hdb : sh.db.rows .totpCredentials = sh.db.totpCredentials := rfl
  unfold consume updateRows readAs
  dsimp only
  rw [hdb, hrows]
  by_cases hunused : Unused cred s
  · rw [if_pos hunused, if_pos hunused]
    rfl
  · rw [if_neg hunused, if_neg hunused]
    rfl

/-- **The first authenticator with the code decides.** -/
theorem tryCredentials_first {pre : List TotpCredential} (rows : List (Uuid × Bytes))
    {cred : TotpCredential} {s : Int}
    (hopen : ∀ c ∈ pre, Secretbox.open lib key c.secretEnc = .ok (secret c))
    (hopens : Secretbox.open lib key cred.secretEnc = .ok (secret cred))
    (hpre : ∀ c ∈ pre, Totp.matchedStep lib (secret c) code unixTime = none)
    (hstep : Totp.matchedStep lib (secret cred) code unixTime = some s)
    (hkeyed : Keyed (Table.key .totpCredentials) sh.db.totpCredentials)
    (hcred : cred ∈ sh.db.totpCredentials) (hverified : cred.verifiedAt ≠ none) :
    (tryCredentials lib key code unixTime (pre.map sealedSecret ++ sealedSecret cred :: rows)).exec
      env none sh =
      if Unused cred s then
        some (.ok (some cred.id), none, ⟨sh.db.put .totpCredentials (consumed env s cred), sh.mem⟩)
      else some (.ok none, none, sh) := by
  rw [tryCredentials_pass env sh _ hopen hpre]
  simp only [sealedSecret, tryCredentials, hopens, Prog.ofExcept, bind_ok, hstep]
  rw [exec_bind, exec_mapError, exec_onPool, consume_eq env sh hkeyed hcred hverified s]
  split <;> rfl

/-- And no code goes through where none has it. -/
theorem tryCredentials_none {pre : List TotpCredential}
    (hopen : ∀ c ∈ pre, Secretbox.open lib key c.secretEnc = .ok (secret c))
    (hpre : ∀ c ∈ pre, Totp.matchedStep lib (secret c) code unixTime = none) :
    (tryCredentials lib key code unixTime (pre.map sealedSecret)).exec env none sh =
      some (.ok none, none, sh) := by
  have hpass := tryCredentials_pass env sh [] hopen hpre
  rw [List.append_nil] at hpass
  rw [hpass]
  rfl

end Loop

/-! ## Accepted exactly where it is valid -/

/-- The first authenticator with the code, and its earliest step with it. -/
def FirstMatch (lib : Libs) (secret : TotpCredential → Bytes) (env : Env) (db : Db) (userId : Uuid)
    (code : String) (unixTime : Int64) (cred : TotpCredential) (s : Int) : Prop :=
  ∃ pre post, authenticators env db userId = pre ++ cred :: post ∧
    (∀ c ∈ pre, Totp.Matching lib (secret c) (trim code) unixTime = ∅) ∧
    IsLeast (Totp.Matching lib (secret cred) (trim code) unixTime) s

/-- The code goes through exactly if it is valid, and the authenticator that has it then remembers
    its step. -/
def Accepts (lib : Libs) (key : Bytes) (secret : TotpCredential → Bytes) (env : Env) (sh : Shared)
    (userId : Uuid) (code : String) (unixTime : Int64) : Prop :=
  ∃ res sh', (verifyAndConsume lib key userId code unixTime).alone env sh = some (.ok res, sh') ∧
    (res.isSome ↔ ∃ cred s, Valid lib secret sh.db userId code unixTime cred s) ∧
    ∀ id, res = some id → ∃ cred s, Valid lib secret sh.db userId code unixTime cred s ∧
      cred.id = id ∧
      sh'.db.totpCredentials = sh.db.totpCredentials.map fun c => if c.id == id then
        consumed env s c else c

section Accepts

variable {lib : Libs} {key : Bytes} {secret : TotpCredential → Bytes} {code : String}
  {unixTime : Int64} {env : Env} {sh : Shared} {userId : Uuid}

theorem matchedStep_eq_some {bytes : Bytes} {s : Int} :
    Totp.matchedStep lib bytes code unixTime = some s ↔
    IsLeast (Totp.Matching lib bytes (trim code) unixTime) s := by
  rw [Totp.matchedStep_iff]
  constructor
  · intro h
    exact h.2
  · intro h
    -- the text of a counter has six digits
    obtain ⟨-, -, -, hcode⟩ := h.1
    exact ⟨hcode ▸ Totp.formatCode_sixDigits (Totp.hotp_lt ..), h⟩

theorem matchedStep_eq_none {bytes : Bytes} : Totp.matchedStep lib bytes code unixTime = none ↔
    Totp.Matching lib bytes (trim code) unixTime = ∅ := by
  constructor
  · intro h
    refine Set.eq_empty_iff_forall_notMem.mpr fun x hx => ?_
    obtain ⟨s, hs, hleast⟩ := Int.exists_least_of_bdd
      (P := fun x => x ∈ Totp.Matching lib bytes (trim code) unixTime) ⟨0, fun z hz => hz.1⟩ ⟨x, hx⟩
    exact absurd (h.symm.trans (matchedStep_eq_some.mpr ⟨hs, hleast⟩)) (by simp)
  · intro h
    cases hstep : Totp.matchedStep lib bytes code unixTime with
    | none => rfl
    | some s => exact absurd (matchedStep_eq_some.mp hstep).1 (by rw [h]; exact Set.notMem_empty s)

/-- A list of authenticators is passed over, or has a first one with the code. -/
theorem first_or_none (lib : Libs) (secret : TotpCredential → Bytes) (code : String)
    (unixTime : Int64) (creds : List TotpCredential) :
    (∀ c ∈ creds, Totp.matchedStep lib (secret c) code unixTime = none) ∨
      ∃ pre cred post s, creds = pre ++ cred :: post ∧
        (∀ c ∈ pre, Totp.matchedStep lib (secret c) code unixTime = none) ∧
        Totp.matchedStep lib (secret cred) code unixTime = some s := by
  induction creds with
  | nil => exact Or.inl fun c hc => absurd hc List.not_mem_nil
  | cons cred creds ih =>
    cases hstep : Totp.matchedStep lib (secret cred) code unixTime with
    | some s =>
      exact Or.inr ⟨[], cred, creds, s, rfl, fun c hc => absurd hc List.not_mem_nil, hstep⟩
    | none =>
      rcases ih with hnone | ⟨pre, first, post, s, rfl, hpre, hs⟩
      · exact Or.inl (List.forall_mem_cons.mpr ⟨hstep, hnone⟩)
      · exact Or.inr ⟨cred :: pre, first, post, s, rfl, List.forall_mem_cons.mpr ⟨hstep, hpre⟩, hs⟩

/-- There is one first match. -/
theorem firstMatch_unique {cred cred' : TotpCredential} {s s' : Int}
    (h : FirstMatch lib secret env sh.db userId code unixTime cred s)
    (h' : FirstMatch lib secret env sh.db userId code unixTime cred' s') :
    cred = cred' ∧ s = s' := by
  obtain ⟨pre, post, hsplit, hpre, hleast⟩ := h
  obtain ⟨pre', post', hsplit', hpre', hleast'⟩ := h'
  have hhead :
      ∀ {pre : List TotpCredential} {cred : TotpCredential} {post : List TotpCredential} {s : Int},
      (∀ c ∈ pre, Totp.Matching lib (secret c) (trim code) unixTime = ∅) →
      IsLeast (Totp.Matching lib (secret cred) (trim code) unixTime) s →
      (pre ++ cred :: post).find?
        (fun c => (Totp.matchedStep lib (secret c) code unixTime).isSome) = some cred := by
    intro pre cred post s hpre hleast
    refine List.find?_eq_some_iff_append.mpr ⟨?_, pre, post, rfl, fun c hc => ?_⟩
    · rw [matchedStep_eq_some.mpr hleast]
      rfl
    · rw [matchedStep_eq_none.mpr (hpre c hc)]
      rfl
  obtain rfl : cred = cred' := Option.some.inj ((hhead hpre hleast).symm.trans
    (hsplit ▸ hsplit' ▸ hhead hpre' hleast'))
  exact ⟨rfl, hleast.unique hleast'⟩

/-- The reads before the loop. -/
theorem verifyAndConsume_exec : (verifyAndConsume lib key userId code unixTime).exec env none sh =
    (tryCredentials lib key code unixTime ((authenticators env sh.db userId).map sealedSecret)).exec
      env none sh := by
  unfold verifyAndConsume
  rw [exec_bind, exec_mapError, exec_onPool]
  rfl

/-- A row that changes keeps its place. -/
theorem consumed_rows (hkeyed : Keyed (Table.key .totpCredentials) sh.db.totpCredentials)
    {cred : TotpCredential} (hcred : cred ∈ sh.db.totpCredentials) (s : Int) :
    (sh.db.put .totpCredentials (consumed env s cred)).totpCredentials =
      sh.db.totpCredentials.map fun c => if c.id == cred.id then consumed env s c else c := by
  have hput : (sh.db.put .totpCredentials (consumed env s cred)).totpCredentials =
      putRow (Table.key .totpCredentials) (consumed env s cred) sh.db.totpCredentials :=
    put_rows_self sh.db .totpCredentials (consumed env s cred)
  have hkey : Table.key .totpCredentials (consumed env s cred) =
      Table.key .totpCredentials cred := rfl
  rw [hput, putRow_eq_map hkeyed ⟨cred, hcred, hkey.symm⟩, hkey]
  refine List.map_congr_left fun c hc => ?_
  by_cases hid : c.id = cred.id
  · obtain rfl := hkeyed.eq hc hcred (congrArg Key.uuid hid)
    rw [if_pos (beq_self_eq_true _), if_pos rfl]
  · have hne : Table.key .totpCredentials c ≠ Table.key .totpCredentials cred :=
      fun h => hid (Key.uuid.inj h)
    rw [if_neg (mt beq_iff_eq.mp hid), if_neg hne]

/-- **A valid unused code is accepted** exactly where the first authenticator with the code has not
    used its earliest step with it, or where no code is valid. -/
theorem valid_code_accepted_iff (hopens : Opens lib key secret sh.db userId)
    (hkeyed : Keyed (Table.key .totpCredentials) sh.db.totpCredentials) :
    Accepts lib key secret env sh userId code unixTime ↔
      (∃ cred s, FirstMatch lib secret env sh.db userId code unixTime cred s ∧ Unused cred s) ∨
        ∀ cred s, ¬ Valid lib secret sh.db userId code unixTime cred s := by
  have hopen : ∀ c ∈ authenticators env sh.db userId, Secretbox.open lib key c.secretEnc =
      .ok (secret c) := by
    intro c hc
    obtain ⟨hmem, hown, hverified⟩ := mem_authenticators.mp hc
    exact hopens c hmem hown hverified
  unfold Accepts alone
  rw [verifyAndConsume_exec]
  rcases first_or_none lib secret code unixTime (authenticators env sh.db userId)
    with hnone | ⟨pre, cred, post, s, hsplit, hpre, hstep⟩
  · -- nobody has the code
    have hinvalid : ∀ c x, ¬ Valid lib secret sh.db userId code unixTime c x := by
      rintro c x ⟨hc, hown, hverified, hx, -⟩
      rw [matchedStep_eq_none.mp (hnone c (mem_authenticators.mpr ⟨hc, hown, hverified⟩))] at hx
      exact hx
    rw [tryCredentials_none env sh hopen hnone]
    refine ⟨fun _ => Or.inr hinvalid, fun _ =>
      ⟨none, sh, rfl, ?_, fun id hid => absurd hid (by simp)⟩⟩
    constructor
    · intro h
      exact absurd h (by simp)
    · rintro ⟨c, x, hvalid⟩
      exact absurd hvalid (hinvalid c x)
  · have hmem : cred ∈ authenticators env sh.db userId := by
      rw [hsplit]
      exact List.mem_append_right _ List.mem_cons_self
    obtain ⟨hcred, hown, hverified⟩ := mem_authenticators.mp hmem
    have hfirst : FirstMatch lib secret env sh.db userId code unixTime cred s :=
      ⟨pre, post, hsplit, fun c hc => matchedStep_eq_none.mp (hpre c hc),
        matchedStep_eq_some.mp hstep⟩
    have hrun := tryCredentials_first env sh (post.map sealedSecret)
      (fun c hc => hopen c (hsplit ▸ List.mem_append_left _ hc))
        (hopen cred hmem) hpre hstep hkeyed hcred hverified
    rw [hsplit, List.map_append, List.map_cons, hrun]
    by_cases hunused : Unused cred s
    · rw [if_pos hunused]
      have hvalid : Valid lib secret sh.db userId code unixTime cred s :=
        ⟨hcred, hown, hverified, (matchedStep_eq_some.mp hstep).1, hunused⟩
      refine ⟨fun _ => Or.inl ⟨cred, s, hfirst, hunused⟩,
        fun _ => ⟨_, _, rfl, ⟨fun _ => ⟨cred, s, hvalid⟩, fun _ => rfl⟩, ?_⟩⟩
      intro id hid
      obtain rfl := Option.some.inj hid
      exact ⟨cred, s, hvalid, rfl, consumed_rows hkeyed hcred s⟩
    · rw [if_neg hunused]
      constructor
      · rintro ⟨res, sh', hres, hiff, -⟩
        obtain ⟨hres, -⟩ := Prod.mk.inj (Option.some.inj hres)
        obtain rfl : none = res := Except.ok.inj hres
        exact Or.inr fun c x hvalid => absurd (hiff.mpr ⟨c, x, hvalid⟩) (by simp)
      · rintro (⟨cred', s', hfirst', hunused'⟩ | hinvalid)
        · obtain ⟨rfl, rfl⟩ : cred' = cred ∧ s' = s := firstMatch_unique hfirst' hfirst
          exact absurd hunused' hunused
        · refine ⟨none, sh, rfl, ⟨fun h => absurd h (by simp), ?_⟩,
            fun id hid => absurd hid (by simp)⟩
          rintro ⟨c, x, hvalid⟩
          exact absurd hvalid (hinvalid c x)

end Accepts

/-! ## Two authenticators with one code -/

section TwoAuthenticators

/-- An authenticator of Ann's with the secret whose last byte is `n`. -/
def authenticator (n : UInt8) (lastUsedStep : Option Int) : TotpCredential where
  id := Sample.uuid n
  userId := Sample.ann.id
  label := "Phone"
  secretEnc := List.replicate 24 0 ++ List.replicate 32 7 ++ (List.replicate 19 0 ++ [n])
  createdAt := ⟨0⟩
  verifiedAt := some ⟨0⟩
  lastUsedAt := none
  lastUsedStep := lastUsedStep

/-- Two authenticators of Ann's; the last step used with the first is `last`. -/
def twoPhones (last : Option Int) : Shared := ⟨⟨fun
  | .users => [Sample.ann]
  | .totpCredentials => [authenticator 8 last, authenticator 9 none]
  | _ => []⟩, Mem.fresh⟩

def sealingKey : Bytes := List.replicate 32 7

/-- The secret of an authenticator. -/
def secretOf (cred : TotpCredential) : Bytes := cred.secretEnc.drop 56

def currentCode : String := Totp.codeAt Libs.sample (secretOf (authenticator 9 none)) 61

theorem twoPhones_opens (last : Option Int) :
    Opens Libs.sample sealingKey secretOf (twoPhones last).db Sample.ann.id := by
  intro cred hcred _ _
  have hcases : cred ∈ [authenticator 8 last, authenticator 9 none] := hcred
  rcases List.mem_pair.mp hcases with rfl | rfl
  · rfl
  · rfl

theorem twoPhones_keyed (last : Option Int) :
    Keyed (Table.key .totpCredentials) (twoPhones last).db.totpCredentials := by
  have hkeys : (twoPhones last).db.totpCredentials.map (Table.key .totpCredentials) =
      [.uuid (Sample.uuid 8), .uuid (Sample.uuid 9)] := rfl
  unfold Keyed
  rw [hkeys]
  decide

/-- Both have the code of the current step. -/
theorem twoPhones_step (n : UInt8) (hn : n = 8 ∨ n = 9) (last : Option Int) :
    Totp.matchedStep Libs.sample (secretOf (authenticator n last)) currentCode 61 = some 2 := by
  rcases hn with rfl | rfl
  · change Totp.matchedStep Libs.sample (secretOf (authenticator 8 none)) currentCode 61 = some 2
    decide +kernel
  · change Totp.matchedStep Libs.sample (secretOf (authenticator 9 none)) currentCode 61 = some 2
    decide +kernel

theorem twoPhones_first (last : Option Int) :
    FirstMatch Libs.sample secretOf (Env.at 0 0 1) (twoPhones last).db
    Sample.ann.id currentCode 61 (authenticator 8 last) 2 :=
  ⟨[], [authenticator 9 none], rfl, fun _ hc => absurd hc List.not_mem_nil,
    matchedStep_eq_some.mp (twoPhones_step 8 (Or.inl rfl) last)⟩

theorem valid_code_accepted_iff_ann :
    Accepts Libs.sample sealingKey secretOf (Env.at 0 0 1) (twoPhones none)
    Sample.ann.id currentCode 61 :=
  (valid_code_accepted_iff (twoPhones_opens none) (twoPhones_keyed none)).mpr
    (Or.inl ⟨_, _, twoPhones_first none, by decide⟩)

/-- **A valid code is refused**: another authenticator has the same code and has used it. -/
theorem valid_code_refused :
    Opens Libs.sample sealingKey secretOf (twoPhones (some 2)).db Sample.ann.id ∧
      Valid Libs.sample secretOf (twoPhones (some 2)).db Sample.ann.id currentCode 61
        (authenticator 9 none) 2 ∧
      (verifyAndConsume Libs.sample sealingKey Sample.ann.id currentCode 61).alone (Env.at 0 0 1)
        (twoPhones (some 2)) = some (.ok none, twoPhones (some 2)) ∧
      ¬ Accepts Libs.sample sealingKey secretOf (Env.at 0 0 1)
        (twoPhones (some 2)) Sample.ann.id currentCode 61 := by
  have hvalid : Valid Libs.sample secretOf (twoPhones (some 2)).db Sample.ann.id currentCode 61
      (authenticator 9 none) 2 :=
    ⟨List.mem_cons_of_mem _ List.mem_cons_self, rfl, by decide,
      (matchedStep_eq_some.mp (twoPhones_step 9 (Or.inr rfl) none)).1, by decide⟩
  have hrun : (verifyAndConsume Libs.sample sealingKey Sample.ann.id currentCode 61).alone
      (Env.at 0 0 1) (twoPhones (some 2)) = some (.ok none, twoPhones (some 2)) := by
    have hfirst := tryCredentials_first (Env.at 0 0 1) (twoPhones (some 2))
      [sealedSecret (authenticator 9 none)] (fun _ hc => absurd hc List.not_mem_nil)
      (twoPhones_opens (some 2) _ List.mem_cons_self rfl (by decide))
        (fun _ hc => absurd hc List.not_mem_nil)
      (twoPhones_step 8 (Or.inl rfl) (some 2)) (twoPhones_keyed _) List.mem_cons_self (by decide)
    rw [if_neg (by decide)] at hfirst
    unfold alone
    rw [verifyAndConsume_exec]
    exact congrArg (Option.map fun x => (x.1, x.2.2)) hfirst
  refine ⟨twoPhones_opens _, hvalid, hrun, ?_⟩
  rintro ⟨res, sh', hres, hiff, -⟩
  obtain ⟨hres, -⟩ := Prod.mk.inj (Option.some.inj (hrun.symm.trans hres))
  obtain rfl : none = res := Except.ok.inj hres
  exact absurd (hiff.mpr ⟨_, _, hvalid⟩) (by simp)

end TwoAuthenticators

end SylvaServer.ValidCodes
