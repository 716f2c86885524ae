/-
  The tokens of an invitation.

  The operations of `InvitationRepository` one after the other, each a transaction of its own. A
  reissue writes a new hash and a new expiry where the invitation is pending, and reads the row
  again where its guard has found none.

  Proved: what an operation does to the table (`perform_spec`), that the hash of a row is the hash
  of the token last issued for it (`Held.step`), and from these that `find_active` finds an
  invitation by that token alone, that a closed invitation stays closed and that a reissue of one
  says why it refuses (`latest_token_opens`).
-/
import SylvaServer.Model.Identity
import SylvaServer.Model.Views
import SylvaServer.Model.Context
import SylvaServer.ReadCommitted.Solo

namespace SylvaServer.InvitationTokens

open ReadCommitted ReadCommitted.Prog

/-! ## The operations -/

/-- An operation of `InvitationRepository`. -/
inductive InvitationOp where
  | create (invitedBy : Uuid) (email : String) (instanceRole : InstanceRole) (ttl : Int)
  | markAccepted (id acceptedUser : Uuid)
  | revoke (id : Uuid)
  | reissue (id : Uuid)

/-- What it answers. -/
inductive InvitationReply where
  | created (r : Except SqlError (Invitation × String))
  | done (r : Except SqlError Unit)
  | reissued (r : Except SqlError (Except ReissueRejection (Invitation × String)))

/-- An operation in a transaction of its own. -/
def perform (lib : Libs) (op : InvitationOp) (env : Env) (sh : Shared) :
    Option (InvitationReply × Shared) :=
  match op with
  | .create invitedBy email instanceRole ttl =>
    ((inTransaction (InvitationRepository.create lib invitedBy email instanceRole ttl)).alone
      env sh).map fun x => (.created x.1, x.2)
  | .markAccepted id acceptedUser =>
    ((inTransaction (inTx (InvitationRepository.markAccepted id acceptedUser))).alone env sh).map
      fun x => (.done x.1, x.2)
  | .revoke id =>
    ((inTransaction (inTx (InvitationRepository.revoke id))).alone env sh).map fun x =>
      (.done x.1, x.2)
  | .reissue id =>
    ((inTransaction (InvitationRepository.reissue lib id)).alone env sh).map
      fun x => (.reissued x.1, x.2)

/-- An operation that has run. -/
abbrev InvitationStep := Done InvitationOp Env InvitationReply Shared

/-- The token an operation draws. -/
def drawn (d : InvitationStep) : Option String :=
  match d.op with
  | .create .. => some (generateInviteToken d.env.random)
  | .reissue _ => some (generateInviteToken d.env.random)
  | .markAccepted .. => none
  | .revoke _ => none

/-- The token an operation hands out, and the invitation it is for. -/
def issued : InvitationReply → Option (Uuid × String)
  | .created (.ok (invitation, token)) => some (invitation.id, token)
  | .reissued (.ok (.ok (invitation, token))) => some (invitation.id, token)
  | _ => none

/-- The token most recently issued for an invitation. -/
def lastToken (id : Uuid) : List InvitationStep → Option String
  | [] => none
  | d :: h =>
    match issued d.reply with
    | some (id', token) => if id' = id then some token else lastToken id h
    | none => lastToken id h

/-- The clock does not go back, and a token drawn is one of `tokens` and a new one. -/
abbrev Fresh (tokens : Set String) : List InvitationStep → InvitationStep → Prop :=
  Drawing (fun env => env.pgNow.nanos) drawn tokens

/-! ## What an operation does -/

/-- An invitation closed at a moment: accepted, revoked or expired. -/
def Closed (now : DateTime) (i : Invitation) : Prop :=
  i.acceptedAt ≠ none ∨ i.revokedAt ≠ none ∨ i.expiresAt.nanos ≤ now.nanos

theorem pending_iff {now : DateTime} {i : Invitation} : InvitationRepository.pending now i = true ↔
    i.acceptedAt = none ∧ i.revokedAt = none ∧ now.nanos < i.expiresAt.nanos := by
  simp [InvitationRepository.pending, and_assoc]

theorem closed_iff {now : DateTime} {i : Invitation} :
    Closed now i ↔ InvitationRepository.pending now i = false := by
  unfold Closed
  rw [← Bool.not_eq_true, pending_iff, not_and_or, not_and_or, not_lt]

/-- Same id, token and expiry, and what was stamped stays stamped. -/
structure Stamped (i i' : Invitation) : Prop where
  id : i'.id = i.id
  tokenHash : i'.tokenHash = i.tokenHash
  expiresAt : i'.expiresAt = i.expiresAt
  acceptedAt : i.acceptedAt ≠ none → i'.acceptedAt ≠ none
  revokedAt : i.revokedAt ≠ none → i'.revokedAt ≠ none

theorem stamped_refl (i : Invitation) : Stamped i i := ⟨rfl, rfl, rfl, id, id⟩

/-- A row after a reissue. -/
def rotated (newHash : Bytes) (newExpiresAt : DateTime) (i : Invitation) : Invitation :=
  { i with
    tokenHash := newHash
    expiresAt := newExpiresAt }

/-- What a reissue looks for. -/
def guarded (id : Uuid) (now : DateTime) (i : Invitation) : Bool :=
  i.id == id && InvitationRepository.pending now i

/-- What an operation does to the table. -/
inductive Effect (lib : Libs) (d : InvitationStep) : Prop where
  | stamp (f : Invitation → Invitation) (hf : ∀ i, Stamped i (f i))
      (hissued : issued d.reply = none)
      (hrows : d.after.db.invitations = d.before.db.invitations.map f)
  | insert (token : String) (row : Invitation) (hdrawn : drawn d = some token)
      (hissued : issued d.reply = some (row.id, token))
      (hhash : row.tokenHash = hashInviteToken lib token)
      (hfree : ∀ i ∈ d.before.db.invitations, i.id ≠ row.id)
      (hrows : d.after.db.invitations = d.before.db.invitations ++ [row])
  | rotate (row : Invitation) (token : String) (expiresAt : DateTime)
      (hdrawn : drawn d = some token)
      (hissued : issued d.reply = some (row.id, token)) (hrow : row ∈ d.before.db.invitations)
      (hguard : guarded row.id d.env.pgNow row = true)
      (hrows : d.after.db.invitations = d.before.db.invitations.map fun i =>
        if guarded row.id d.env.pgNow i then rotated (hashInviteToken lib token) expiresAt i else i)

/-- Nothing is changed. -/
theorem effect_none {lib : Libs} {d : InvitationStep} (hissued : issued d.reply = none)
    (hrows : d.after.db.invitations = d.before.db.invitations) : Effect lib d :=
  .stamp id stamped_refl hissued (by rw [hrows, List.map_id])

section Specs

variable (lib : Libs) (env : Env) (sh : Shared)

theorem create_spec (invitedBy : Uuid) (email : String) (instanceRole : InstanceRole) (ttl : Int) :
    (∃ e, perform lib (.create invitedBy email instanceRole ttl) env sh =
        some (.created (.error e), sh)) ∨
      ∃ row : Invitation, perform lib (.create invitedBy email instanceRole ttl) env sh =
          some (.created (.ok (row, generateInviteToken env.random)),
            ⟨applyAll sh.db [Write.put .invitations row], sh.mem⟩) ∧
        row.tokenHash = hashInviteToken lib (generateInviteToken env.random) ∧
        ∀ i ∈ sh.db.invitations, i.id ≠ row.id := by
  have hrun : ∀ o, InvitationRepository.insert lib invitedBy email instanceRole
        (hashInviteToken lib (generateInviteToken env.random))
          ⟨env.now.nanos + ttl⟩ env sh.mem sh.db = o →
      perform lib (.create invitedBy email instanceRole ttl) env sh =
        some (match o.result with
          | .ok row =>
              (.created (.ok (row, generateInviteToken env.random)),
                ⟨applyAll sh.db o.writes, o.mem⟩)
          | .error e => (.created (.error e), ⟨sh.db, o.mem⟩)) := by
    intro o ho
    unfold perform InvitationRepository.create
    cases hr : o.result with
    | ok row =>
      simp [alone_inTransaction, inTx, ask, critical, exec, ho, hr, close]
    | error e =>
      simp [alone_inTransaction, inTx, ask, critical, exec, ho, hr, close]
  unfold InvitationRepository.insert at hrun
  rcases insertRow_cases .invitations _ _ _ _ sh.mem sh.db with ⟨e, h⟩ | ⟨h, hfree, -⟩
  · exact Or.inl ⟨e, hrun _ h⟩
  · refine Or.inr ⟨_, hrun _ h, rfl, fun i hi hid => hfree i hi (congrArg Key.uuid hid)⟩

theorem markAccepted_spec (id acceptedUser : Uuid) :
    (∃ e, perform lib (.markAccepted id acceptedUser) env sh = some (.done (.error e), sh)) ∨
      perform lib (.markAccepted id acceptedUser) env sh = some (.done (.ok ()),
        ⟨applyAll sh.db (updateRows .invitations (·.id == id) (fun i => { i with
          acceptedAt := some env.pgNow
          acceptedUserId := some acceptedUser }) sh.mem sh.db).writes, sh.mem⟩) := by
  unfold perform InvitationRepository.markAccepted
  simp only [alone_inTx]
  split
  · exact Or.inl ⟨_, rfl⟩
  · exact Or.inr rfl

theorem revoke_spec (id : Uuid) : perform lib (.revoke id) env sh = some (.done (.ok ()),
    ⟨applyAll sh.db (updateRows .invitations (·.id == id) (fun i => { i with
      revokedAt := i.revokedAt <|> some env.pgNow }) sh.mem sh.db).writes, sh.mem⟩) := by
  unfold perform InvitationRepository.revoke
  simp only [alone_inTx]
  rfl

/-- The guarded `UPDATE` fails, or gives back the first row it has changed. -/
theorem rotate_cases (id : Uuid) (newHash : Bytes) (newExpiresAt : DateTime) (mem : Mem) (db : Db) :
    ((∃ i ∈ db.invitations, guarded id env.pgNow i = true) ∧
        InvitationRepository.rotate lib id newHash newExpiresAt env mem db =
          failed uniqueViolation mem) ∨
      ∃ locks, InvitationRepository.rotate lib id newHash newExpiresAt env mem db =
        { result := .ok ((db.invitations.filter (guarded id env.pgNow)).map
            (rotated newHash (lib.timestamptz newExpiresAt))).head?
          writes := (updateRows .invitations (guarded id env.pgNow)
            (rotated newHash (lib.timestamptz newExpiresAt)) mem db).writes
          locks := locks
          mem := mem } := by
  unfold InvitationRepository.rotate
  split
  · next htaken =>
    exact Or.inl ⟨List.any_eq_true.mp (Bool.and_eq_true_iff.mp htaken).1, rfl⟩
  · exact Or.inr ⟨_, rfl⟩

/-- A reissue fails, rotates a pending invitation, or refuses and changes nothing. -/
theorem reissue_spec (id : Uuid) :
    ((∃ i ∈ sh.db.invitations, guarded id env.pgNow i = true) ∧
        ∃ e, perform lib (.reissue id) env sh = some (.reissued (.error e), sh)) ∨
      (∃ row ∈ sh.db.invitations, row.id = id ∧ guarded id env.pgNow row = true ∧ ∃ expiresAt,
        perform lib (.reissue id) env sh =
          some (.reissued (.ok (.ok
              (rotated (hashInviteToken lib (generateInviteToken env.random)) expiresAt row,
                generateInviteToken env.random))),
            ⟨applyAll sh.db (updateRows .invitations (guarded id env.pgNow)
              (rotated (hashInviteToken lib (generateInviteToken env.random)) expiresAt)
                sh.mem sh.db).writes, sh.mem⟩)) ∨
      ((∀ i ∈ sh.db.invitations, i.id = id → Closed env.pgNow i) ∧
        perform lib (.reissue id) env sh =
          some (.reissued (.ok (.error (InvitationRepository.rejection
          (sh.db.invitations.find? (·.id == id))))), sh)) := by
  set expiresAt := lib.timestamptz ⟨env.now.nanos + defaultInvitationTtl⟩ with hexpires
  unfold perform
  rcases rotate_cases lib env id (hashInviteToken lib (generateInviteToken env.random))
    ⟨env.now.nanos + defaultInvitationTtl⟩ sh.mem sh.db with ⟨hpending, hfail⟩ | ⟨locks, hrotate⟩
  · left
    refine ⟨hpending, ?_⟩
    simp [InvitationRepository.reissue, alone_inTransaction, inTx, ask, critical, exec, hfail,
      failed, close]
  · rw [← hexpires] at hrotate
    cases hrows : sh.db.invitations.filter (guarded id env.pgNow) with
    | cons row rows =>
      right
      left
      have hmem : row ∈ sh.db.invitations.filter (guarded id env.pgNow) :=
        hrows ▸ List.mem_cons_self
      obtain ⟨hrow, hguard⟩ := List.mem_filter.mp hmem
      have hid : row.id = id := by
        unfold guarded at hguard
        simpa using (Bool.and_eq_true_iff.mp hguard).1
      rw [hrows] at hrotate
      refine ⟨row, hrow, hid, hguard, expiresAt, ?_⟩
      simp [InvitationRepository.reissue, alone_inTransaction, inTx, ask, critical, exec, hrotate,
        close]
    | nil =>
      right
      right
      have hclosed : ∀ i ∈ sh.db.invitations, i.id = id → Closed env.pgNow i := by
        intro i hi hid
        have hguard := List.filter_eq_nil_iff.mp hrows i hi
        rw [closed_iff]
        simpa [guarded, hid] using hguard
      have hwrites : (updateRows .invitations (guarded id env.pgNow)
          (rotated (hashInviteToken lib (generateInviteToken env.random)) expiresAt)
            sh.mem sh.db).writes = [] := by
        unfold updateRows
        rw [hrows]
        rfl
      rw [hrows, hwrites] at hrotate
      refine ⟨hclosed, ?_⟩
      simp [InvitationRepository.reissue, InvitationRepository.findById, select,
        alone_inTransaction, inTx, ask, critical, exec, hrotate, close]

variable {lib env sh} {sh' : Shared} {r : InvitationReply}

/-- **What an operation does to the table.** -/
theorem perform_spec {op : InvitationOp}
    (hkeyed : Keyed (Table.key .invitations) sh.db.invitations)
    (h : perform lib op env sh = some (r, sh')) : Effect lib ⟨op, env, sh, r, sh'⟩ := by
  cases op with
  | create invitedBy email instanceRole ttl =>
    rcases create_spec lib env sh invitedBy email instanceRole ttl with
      ⟨e, hfail⟩ | ⟨row, hcreate, hhash, hfree⟩
    · obtain ⟨rfl, rfl⟩ := Prod.mk.inj (Option.some.inj (h.symm.trans hfail))
      exact effect_none rfl rfl
    · obtain ⟨rfl, rfl⟩ := Prod.mk.inj (Option.some.inj (h.symm.trans hcreate))
      exact .insert _ row rfl rfl hhash hfree
        (put_rows_fresh fun i hi hkey => hfree i hi (Key.uuid.inj hkey))
  | markAccepted id acceptedUser =>
    rcases markAccepted_spec lib env sh id acceptedUser with
      ⟨e, hfail⟩ | haccept
    · obtain ⟨rfl, rfl⟩ := Prod.mk.inj (Option.some.inj (h.symm.trans hfail))
      exact effect_none rfl rfl
    · obtain ⟨rfl, rfl⟩ := Prod.mk.inj (Option.some.inj (h.symm.trans haccept))
      refine .stamp _ (fun i => ?_) rfl (updateRows_rows sh.mem hkeyed fun _ => rfl)
      split
      · exact ⟨rfl, rfl, rfl, fun _ => by simp, fun hi => hi⟩
      · exact stamped_refl i
  | revoke id =>
    obtain ⟨rfl, rfl⟩ := Prod.mk.inj (Option.some.inj (h.symm.trans (revoke_spec lib env sh id)))
    refine .stamp _ (fun i => ?_) rfl (updateRows_rows sh.mem hkeyed fun _ => rfl)
    split
    · refine ⟨rfl, rfl, rfl, fun hi => hi, fun _ => ?_⟩
      cases i.revokedAt <;> simp
    · exact stamped_refl i
  | reissue id =>
    rcases reissue_spec lib env sh id with
      ⟨-, e, hfail⟩ | ⟨row, hrow, rfl, hguard, expiresAt, hrotate⟩ | ⟨-, hrefuse⟩
    · obtain ⟨rfl, rfl⟩ := Prod.mk.inj (Option.some.inj (h.symm.trans hfail))
      exact effect_none rfl rfl
    · obtain ⟨rfl, rfl⟩ := Prod.mk.inj (Option.some.inj (h.symm.trans hrotate))
      exact .rotate row _ expiresAt rfl rfl hrow hguard (updateRows_rows sh.mem hkeyed fun _ => rfl)
    · obtain ⟨rfl, rfl⟩ := Prod.mk.inj (Option.some.inj (h.symm.trans hrefuse))
      exact effect_none rfl rfl

end Specs

/-! ## Closed invitations -/

section Closed

variable {lib : Libs} {now now' : DateTime} {i i' : Invitation} {d : InvitationStep}

theorem Closed.later (h : Closed now i) (hle : now.nanos ≤ now'.nanos) : Closed now' i :=
  h.imp_right (Or.imp_right fun hexpired => hexpired.trans hle)

theorem Closed.stamped (h : Closed now i) (hs : Stamped i i') : Closed now i' := by
  rcases h with haccepted | hrevoked | hexpired
  · exact Or.inl (hs.acceptedAt haccepted)
  · exact Or.inr (Or.inl (hs.revokedAt hrevoked))
  · refine Or.inr (Or.inr ?_)
    rw [hs.expiresAt]
    exact hexpired

/-- No operation opens a closed invitation. -/
theorem Effect.closed (h : Effect lib d) (hle : now.nanos ≤ d.env.pgNow.nanos)
    (hi : i ∈ d.before.db.invitations) (hclosed : Closed now i) :
    ∃ i' ∈ d.after.db.invitations, i'.id = i.id ∧ Closed now i' := by
  cases h with
  | stamp f hf _ hrows =>
    rw [hrows]
    exact ⟨f i, List.mem_map_of_mem hi, (hf i).id, hclosed.stamped (hf i)⟩
  | insert _ row _ _ _ _ hrows =>
    rw [hrows]
    exact ⟨i, List.mem_append_left _ hi, rfl, hclosed⟩
  | rotate row token expiresAt _ _ _ _ hrows =>
    have hskip : guarded row.id d.env.pgNow i = false := by
      unfold guarded
      rw [closed_iff.mp (hclosed.later hle), Bool.and_false]
    rw [hrows]
    refine ⟨i, List.mem_map.mpr ⟨i, hi, ?_⟩, rfl, hclosed⟩
    rw [hskip]
    rfl

end Closed

/-! ## Issued tokens -/

/-- The tokens drawn. -/
def Drawn (h : List InvitationStep) (t : String) : Prop := ∃ d ∈ h, drawn d = some t

/-- Ids are keys, and the hash of a row is the hash of the token last issued for it, a token of
    its own. -/
structure Held (lib : Libs) (h : List InvitationStep) (invitations : List Invitation) : Prop where
  keyed : Keyed (Table.key .invitations) invitations
  token : ∀ i ∈ invitations, ∃ t, lastToken i.id h = some t ∧ Drawn h t ∧
    i.tokenHash = hashInviteToken lib t
  own : ∀ i ∈ invitations, ∀ j ∈ invitations, lastToken i.id h = lastToken j.id h → i = j

section Held

variable {lib : Libs} {h : List InvitationStep} {d : InvitationStep}

theorem lastToken_silent (hissued : issued d.reply = none) (id : Uuid) :
    lastToken id (d :: h) = lastToken id h := by
  rw [lastToken, hissued]

theorem lastToken_self {id : Uuid} {t : String} (hissued : issued d.reply = some (id, t)) :
    lastToken id (d :: h) = some t := by
  rw [lastToken, hissued]
  exact if_pos rfl

theorem lastToken_other {id id' : Uuid} {t : String} (hissued : issued d.reply = some (id, t))
    (hne : id ≠ id') : lastToken id' (d :: h) = lastToken id' h := by
  rw [lastToken, hissued]
  exact if_neg hne

/-- A token drawn before is not the one drawn now. -/
theorem Fresh.ne {tokens : Set String} {t token : String} (hfresh : Fresh tokens h d)
    (hdrawn : drawn d = some token) (ht : Drawn h t) : t ≠ token := by
  obtain ⟨d', hd', hdrawn'⟩ := ht
  rintro rfl
  exact (hfresh.token t hdrawn).2 d' hd' hdrawn'

theorem Drawn.older {t : String} (ht : Drawn h t) : Drawn (d :: h) t := by
  obtain ⟨d', hd', hdrawn⟩ := ht
  exact ⟨d', List.mem_cons_of_mem _ hd', hdrawn⟩

/-- The tokens after an operation that issues one for `row`: the other rows keep theirs. -/
theorem Held.issue {tokens : Set String} {row : Invitation} {token : String}
    {rows rows' : List Invitation} (hheld : Held lib h rows) (hfresh : Fresh tokens h d)
    (hdrawn : drawn d = some token) (hissued : issued d.reply = some (row.id, token))
    (hhash : row.tokenHash = hashInviteToken lib token)
    (hkeyed : Keyed (Table.key .invitations) rows')
    (hrows : ∀ i ∈ rows', i = row ∨ (i ∈ rows ∧ row.id ≠ i.id)) : Held lib (d :: h) rows' := by
  have hother : ∀ i ∈ rows', i ≠ row → ∃ t, lastToken i.id (d :: h) = some t ∧ Drawn h t ∧
      lastToken i.id h = some t ∧ i ∈ rows := by
    intro i hi hne
    obtain ⟨hold, hid⟩ := (hrows i hi).resolve_left hne
    obtain ⟨t, ht, hdrawn', -⟩ := hheld.token i hold
    exact ⟨t, (lastToken_other hissued hid).trans ht, hdrawn', ht, hold⟩
  refine ⟨hkeyed, fun i hi => ?_, fun i hi j hj hsame => ?_⟩
  · rcases hrows i hi with rfl | ⟨hold, hid⟩
    · exact ⟨token, lastToken_self hissued, ⟨d, List.mem_cons_self, hdrawn⟩, hhash⟩
    · obtain ⟨t, ht, hdrawn', hhash'⟩ := hheld.token i hold
      exact ⟨t, (lastToken_other hissued hid).trans ht, hdrawn'.older, hhash'⟩
  · by_cases hir : i = row <;> by_cases hjr : j = row
    · rw [hir, hjr]
    · obtain ⟨t, ht, hdrawn', -⟩ := hother j hj hjr
      rw [hir, lastToken_self hissued, ht] at hsame
      exact absurd (Option.some.inj hsame).symm (hfresh.ne hdrawn hdrawn')
    · obtain ⟨t, ht, hdrawn', -⟩ := hother i hi hir
      rw [hjr, lastToken_self hissued, ht] at hsame
      exact absurd (Option.some.inj hsame) (hfresh.ne hdrawn hdrawn')
    · obtain ⟨t, ht, -, ht', hiold⟩ := hother i hi hir
      obtain ⟨u, hu, -, hu', hjold⟩ := hother j hj hjr
      rw [ht, hu] at hsame
      exact hheld.own i hiold j hjold (by rw [ht', hu', hsame])

/-- One operation more. -/
theorem Held.step {tokens : Set String} (hheld : Held lib h d.before.db.invitations)
    (hfresh : Fresh tokens h d) (heffect : Effect lib d) :
    Held lib (d :: h) d.after.db.invitations := by
  cases heffect with
  | stamp f hf hissued hrows =>
    rw [hrows]
    refine ⟨keyed_map hheld.keyed fun i => congrArg Key.uuid (hf i).id, ?_, ?_⟩
    · intro i' hi'
      obtain ⟨i, hi, rfl⟩ := List.mem_map.mp hi'
      obtain ⟨t, ht, hdrawn, hhash⟩ := hheld.token i hi
      refine ⟨t, ?_, hdrawn.older, (hf i).tokenHash.trans hhash⟩
      rw [lastToken_silent hissued, (hf i).id, ht]
    · intro i' hi' j' hj' hsame
      obtain ⟨i, hi, rfl⟩ := List.mem_map.mp hi'
      obtain ⟨j, hj, rfl⟩ := List.mem_map.mp hj'
      rw [lastToken_silent hissued, lastToken_silent hissued, (hf i).id, (hf j).id] at hsame
      rw [hheld.own i hi j hj hsame]
  | insert token row hdrawn hissued hhash hfree hrows =>
    have hput : d.before.db.invitations ++ [row] =
        putRow (Table.key .invitations) row d.before.db.invitations :=
      (putRow_fresh fun i hi hkey => hfree i hi (Key.uuid.inj hkey)).symm
    refine hheld.issue hfresh hdrawn hissued hhash ?_ fun i hi => ?_
    · rw [hrows, hput]
      exact keyed_putRow hheld.keyed
    · rw [hrows] at hi
      rcases List.mem_append.mp hi with hi | hi
      · exact Or.inr ⟨hi, (hfree i hi).symm⟩
      · exact Or.inl (List.mem_singleton.mp hi)
  | rotate row token expiresAt hdrawn hissued hrow hguard hrows =>
    have hissued : issued d.reply =
        some ((rotated (hashInviteToken lib token) expiresAt row).id, token) :=
      hissued
    refine hheld.issue hfresh hdrawn hissued rfl ?_ fun i hi => ?_
    · rw [hrows]
      refine keyed_map hheld.keyed fun i => ?_
      split
      · rfl
      · rfl
    · rw [hrows] at hi
      obtain ⟨j, hj, rfl⟩ := List.mem_map.mp hi
      by_cases hid : j.id = row.id
      · rw [hheld.keyed.eq hj hrow (congrArg Key.uuid hid), if_pos hguard]
        exact Or.inl rfl
      · have hskip : guarded row.id d.env.pgNow j = false := by simp [guarded, hid]
        rw [hskip]
        exact Or.inr ⟨hj, Ne.symm hid⟩

theorem held_history {tokens : Set String} {s₀ s : Shared} (hs₀ : s₀.db.invitations = [])
    (hh : History (perform lib) (Fresh tokens) s₀ h s) : Held lib h s.db.invitations := by
  induction hh with
  | start =>
    rw [hs₀]
    exact ⟨List.nodup_nil, by simp, by simp⟩
  | step op env _ hperform hfresh ih => exact ih.step hfresh (perform_spec ih.keyed hperform)

end Held

/-! ## The latest token -/

/-- What a reissue reports about an invitation that is not pending. -/
inductive Reason (invitations : List Invitation) (id : Uuid) (now : DateTime) :
    ReissueRejection → Prop where
  | notFound (hnone : ∀ i ∈ invitations, i.id ≠ id) : Reason invitations id now .notFound
  | alreadyAccepted (i : Invitation) (hi : i ∈ invitations) (hid : i.id = id)
      (haccepted : i.acceptedAt ≠ none) : Reason invitations id now .alreadyAccepted
  | alreadyRevoked (i : Invitation) (hi : i ∈ invitations) (hid : i.id = id)
      (hopen : i.acceptedAt = none)
      (hrevoked : i.revokedAt ≠ none) : Reason invitations id now .alreadyRevoked
  | expired (i : Invitation) (hi : i ∈ invitations) (hid : i.id = id) (hopen : i.acceptedAt = none)
      (hvalid : i.revokedAt = none) (hexpired : i.expiresAt.nanos ≤ now.nanos) :
      Reason invitations id now .expired

theorem rejection_reason {invitations : List Invitation} {id : Uuid} {now : DateTime}
    (hclosed : ∀ i ∈ invitations, i.id = id → Closed now i) :
    Reason invitations id now
      (InvitationRepository.rejection (invitations.find? (·.id == id))) := by
  cases hfind : invitations.find? (·.id == id) with
  | none =>
    refine .notFound fun i hi hid => ?_
    exact List.find?_eq_none.mp hfind i hi (beq_iff_eq.mpr hid)
  | some i =>
    have hi := List.mem_of_find?_eq_some hfind
    have hid : i.id = id := by simpa using List.find?_some hfind
    unfold InvitationRepository.rejection
    dsimp only
    split
    · next haccepted => exact .alreadyAccepted i hi hid (Option.isSome_iff_ne_none.mp haccepted)
    · next hopen =>
      rw [Option.not_isSome_iff_eq_none] at hopen
      split
      · next hrevoked =>
          exact .alreadyRevoked i hi hid hopen (Option.isSome_iff_ne_none.mp hrevoked)
      · next hvalid =>
        rw [Option.not_isSome_iff_eq_none] at hvalid
        refine .expired i hi hid hopen hvalid ?_
        exact ((hclosed i hi hid).resolve_left (not_not.mpr hopen)).resolve_left
          (not_not.mpr hvalid)

section Runs

variable {lib : Libs} {tokens : Set String} {s₀ s : Shared} {h : List InvitationStep}

theorem drawn_mem (hh : History (perform lib) (Fresh tokens) s₀ h s) {t : String} (ht : Drawn h t) :
    t ∈ tokens := by
  induction hh with
  | start =>
    obtain ⟨d, hd, -⟩ := ht
    exact absurd hd List.not_mem_nil
  | step op env _ _ hfresh ih =>
    obtain ⟨d, hd, hdrawn⟩ := ht
    rcases List.mem_cons.mp hd with rfl | hd
    · exact (hfresh.token t hdrawn).1
    · exact ih ⟨d, hd, hdrawn⟩

/-- The hash of a token is in the rows of the invitation it was last issued for. -/
theorem tokenHash_iff (hinj : Set.InjOn (hashInviteToken lib) tokens) (hs₀ : s₀.db.invitations = [])
    (hh : History (perform lib) (Fresh tokens) s₀ h s) {t : String} (ht : t ∈ tokens)
    {i : Invitation} (hi : i ∈ s.db.invitations) :
    i.tokenHash = hashInviteToken lib t ↔ lastToken i.id h = some t := by
  obtain ⟨u, hu, hdrawn, hhash⟩ := (held_history hs₀ hh).token i hi
  rw [hhash, hu]
  constructor
  · intro hsame
    rw [hinj (drawn_mem hh hdrawn) ht hsame]
  · intro hsame
    rw [Option.some.inj hsame]

theorem findActive_iff (hinj : Set.InjOn (hashInviteToken lib) tokens)
    (hs₀ : s₀.db.invitations = []) (hh : History (perform lib) (Fresh tokens) s₀ h s) {t : String}
    (ht : t ∈ tokens) (env : Env) (i : Invitation) :
    (InvitationRepository.findActive lib t env s.mem s.db).result = .ok (some i) ↔
      i ∈ s.db.invitations ∧ lastToken i.id h = some t ∧ i.acceptedAt = none ∧ i.revokedAt = none ∧
        env.pgNow.nanos < i.expiresAt.nanos := by
  have hmatch : ∀ j ∈ s.db.invitations, (j.tokenHash == hashInviteToken lib t &&
      InvitationRepository.pending env.pgNow j) = true ↔ lastToken j.id h = some t ∧
        j.acceptedAt = none ∧ j.revokedAt = none ∧ env.pgNow.nanos < j.expiresAt.nanos := by
    intro j hj
    rw [Bool.and_eq_true, beq_iff_eq, pending_iff, tokenHash_iff hinj hs₀ hh ht hj]
  unfold InvitationRepository.findActive select
  simp only [Except.ok.injEq]
  constructor
  · intro hfind
    have hi := List.mem_of_find?_eq_some hfind
    have hfound := List.find?_some hfind
    exact ⟨hi, (hmatch i hi).mp hfound⟩
  · rintro ⟨hi, hlast, hpending⟩
    cases hfind : s.db.invitations.find? fun j => j.tokenHash == hashInviteToken lib t &&
        InvitationRepository.pending env.pgNow j with
    | none => exact absurd ((hmatch i hi).mpr ⟨hlast, hpending⟩) (List.find?_eq_none.mp hfind i hi)
    | some j =>
      have hj := List.mem_of_find?_eq_some hfind
      have hfound := List.find?_some hfind
      have hlast' := ((hmatch j hj).mp hfound).1
      rw [(held_history hs₀ hh).own j hj i hi (hlast'.trans hlast.symm)]

/-- A closed invitation is closed in every later state. -/
theorem closed_history (hs₀ : s₀.db.invitations = []) {h₁ h₂ : List InvitationStep} {s₁ : Shared}
    (hh₁ : History (perform lib) (Fresh tokens) s₀ h₁ s₁)
    (hh : History (perform lib) (Fresh tokens) s₀ (h₂ ++ h₁) s) {now : DateTime} {i : Invitation}
    (hi : i ∈ s₁.db.invitations) (hclosed : Closed now i)
    (hlater : ∀ d ∈ h₂, now.nanos ≤ d.env.pgNow.nanos) :
    ∃ i' ∈ s.db.invitations, i'.id = i.id ∧ Closed now i' := by
  induction h₂ generalizing s with
  | nil =>
    rw [hh₁.unique hh] at hi
    exact ⟨i, hi, rfl, hclosed⟩
  | cons d h₂ ih =>
    cases hh with
    | step op env hh hperform _ =>
      obtain ⟨j, hj, hid, hclosed'⟩ := ih hh fun d' hd' => hlater d' (List.mem_cons_of_mem _ hd')
      have heffect := perform_spec (held_history hs₀ hh).keyed hperform
      obtain ⟨i', hi', hid', hstill⟩ := heffect.closed (hlater _ List.mem_cons_self) hj hclosed'
      exact ⟨i', hi', hid'.trans hid, hstill⟩

/-- **Only the latest token opens an invitation, and a closed invitation never reopens.** -/
theorem latest_token_opens (hinj : Set.InjOn (hashInviteToken lib) tokens)
    (hs₀ : s₀.db.invitations = []) (hh : History (perform lib) (Fresh tokens) s₀ h s) :
    (∀ (env : Env), ∀ t ∈ tokens, ∀ i : Invitation,
      (InvitationRepository.findActive lib t env s.mem s.db).result = .ok (some i) ↔
        i ∈ s.db.invitations ∧ lastToken i.id h = some t ∧ i.acceptedAt = none ∧
          i.revokedAt = none ∧ env.pgNow.nanos < i.expiresAt.nanos) ∧
    (∀ (h₁ h₂ : List InvitationStep) (s₁ : Shared), h = h₂ ++ h₁ →
      History (perform lib) (Fresh tokens) s₀ h₁ s₁ → ∀ (now : DateTime), ∀ i ∈ s₁.db.invitations,
        Closed now i → (∀ d ∈ h₂, now.nanos ≤ d.env.pgNow.nanos) →
          ∀ (env : Env) (t : String) (j : Invitation), now.nanos ≤ env.pgNow.nanos →
            (InvitationRepository.findActive lib t env s.mem s.db).result = .ok (some j) →
            j.id ≠ i.id) ∧
    ∀ (env : Env) (id : Uuid), (∀ i ∈ s.db.invitations, i.id = id → Closed env.pgNow i) →
      ∃ why, Reason s.db.invitations id env.pgNow why ∧
        perform lib (.reissue id) env s = some (.reissued (.ok (.error why)), s) := by
  refine ⟨fun env t ht i => findActive_iff hinj hs₀ hh ht env i, ?_, fun env id hclosed => ?_⟩
  · rintro h₁ h₂ s₁ rfl hh₁ now i hi hclosed hlater env t j hnow hfind hid
    obtain ⟨i', hi', hid', hclosed'⟩ := closed_history hs₀ hh₁ hh hi hclosed hlater
    unfold InvitationRepository.findActive select at hfind
    simp only [Except.ok.injEq] at hfind
    have hj := List.mem_of_find?_eq_some hfind
    have hsame : j = i' := (held_history hs₀ hh).keyed.eq hj hi'
      (congrArg Key.uuid (hid.trans hid'.symm))
    have hfound := List.find?_some hfind
    have hpending := (Bool.and_eq_true_iff.mp hfound).2
    rw [hsame, closed_iff.mp (hclosed'.later hnow)] at hpending
    exact absurd hpending (by simp)
  · have hnone : ∀ i ∈ s.db.invitations, guarded id env.pgNow i ≠ true := by
      intro i hi hguard
      unfold guarded at hguard
      obtain ⟨hid, hpending⟩ := Bool.and_eq_true_iff.mp hguard
      rw [closed_iff.mp (hclosed i hi (by simpa using hid))] at hpending
      exact absurd hpending (by simp)
    rcases reissue_spec lib env s id with
      ⟨⟨i, hi, hguard⟩, -⟩ | ⟨i, hi, -, hguard, -⟩ | ⟨-, hrefuse⟩
    · exact absurd hguard (hnone i hi)
    · exact absurd hguard (hnone i hi)
    · exact ⟨_, rejection_reason hclosed, hrefuse⟩

end Runs

/-! ## An invitation that is sent again -/

def firstMail : String := hex (List.replicate 32 5)

def secondMail : String := hex (List.replicate 32 6)

/-- Ann invites a colleague and then sends the mail again: the second one counts. -/
theorem latest_token_opens_second_mail : ∃ (d d' : InvitationStep) (s : Shared),
    History (perform Libs.sample) (Fresh {firstMail, secondMail}) ⟨Sample.db, Mem.fresh⟩ [d', d] s ∧
      ∃ i, (InvitationRepository.findActive Libs.sample secondMail
        (Env.at 3000 0 7) s.mem s.db).result =
          .ok (some i) ∧
        (InvitationRepository.findActive Libs.sample firstMail
          (Env.at 3000 0 7) s.mem s.db).result ≠
          .ok (some i) := by
  have hdistinct : firstMail ≠ secondMail := by decide +kernel
  let op : InvitationOp := .create Sample.ann.id "bo@example.org" .member (DateTime.hours 1)
  let x := (perform Libs.sample op (Env.at 1000 0 5) ⟨Sample.db, Mem.fresh⟩).get (by decide +kernel)
  let x' := (perform Libs.sample (.reissue (Sample.uuid 5)) (Env.at 2000 0 6) x.2).get
    (by decide +kernel)
  have hcreate : History (perform Libs.sample) (Fresh {firstMail, secondMail})
      ⟨Sample.db, Mem.fresh⟩ [⟨op, Env.at 1000 0 5, ⟨Sample.db, Mem.fresh⟩, x.1, x.2⟩] x.2 :=
    History.start.step op _ (Option.some_get _).symm
      ⟨by simp, fun t ht => ⟨Or.inl (Option.some.inj ht).symm, by simp⟩⟩
  let d' : InvitationStep := ⟨.reissue (Sample.uuid 5), Env.at 2000 0 6, x.2, x'.1, x'.2⟩
  have hdrawn : drawn d' = some secondMail := rfl
  have hfresh : Fresh {firstMail, secondMail}
      [⟨op, Env.at 1000 0 5, ⟨Sample.db, Mem.fresh⟩, x.1, x.2⟩] d' := by
    refine ⟨by simp [d', Env.at], fun t ht => ?_⟩
    obtain rfl := Option.some.inj (hdrawn.symm.trans ht)
    refine ⟨Or.inr rfl, fun d hd hfirst => ?_⟩
    rw [List.mem_singleton.mp hd] at hfirst
    exact hdistinct (Option.some.inj hfirst)
  have hboth : History (perform Libs.sample) (Fresh {firstMail, secondMail}) ⟨Sample.db, Mem.fresh⟩
      [d', ⟨op, Env.at 1000 0 5, ⟨Sample.db, Mem.fresh⟩, x.1, x.2⟩] x'.2 :=
    hcreate.step _ _ (Option.some_get _).symm hfresh
  obtain ⟨hfind, -, -⟩ := latest_token_opens
    (Set.injOn_pair.mpr fun hsame => absurd hsame (by decide +kernel)) rfl hboth
  obtain ⟨i, hi, hid, hpending⟩ : ∃ i ∈ x'.2.db.invitations, i.id = Sample.uuid 5 ∧
      i.acceptedAt = none ∧ i.revokedAt = none ∧
      (Env.at 3000 0 7).pgNow.nanos < i.expiresAt.nanos := by
    decide +kernel
  have hissued : issued x'.1 = some (i.id, secondMail) := by
    rw [hid]
    decide +kernel
  refine ⟨_, _, _, hboth, i, (hfind _ _ (Or.inr rfl) i).mpr ⟨hi, lastToken_self hissued, hpending⟩,
    fun hold => ?_⟩
  have hlast := ((hfind _ _ (Or.inl rfl) i).mp hold).2.1
  rw [lastToken_self hissued] at hlast
  exact hdistinct (Option.some.inj hlast).symm

end SylvaServer.InvitationTokens
