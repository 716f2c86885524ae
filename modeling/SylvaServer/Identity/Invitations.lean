/-
  Invitations are accepted once.

  `find_active` looks at the state of an invitation; `mark_accepted` and `revoke`, which end it,
  look at its id alone. Only `reissue` repeats the look in its `UPDATE`. Between the look of one
  invitee and the `UPDATE` others may accept, revoke or reissue, and the clock moves on.

  Proved: in every run in which a transaction commits only if each `mark_accepted` found an
  invitation that is still open and each `revoke` one that is not accepted (`Operations`), an
  accepted invitation is never written again, none is both accepted and revoked, and each was
  accepted before it expired (`invitations_exclusive`). `accepted_twice` is a run in which the
  second invitee replaces the first.
-/
import SylvaServer.Model.Context
import SylvaServer.Model.Views
import SylvaServer.ReadCommitted.Demands

namespace SylvaServer.Invitations

open ReadCommitted ReadCommitted.Prog

/-! ## The calls -/

/-- An operation of `InvitationRepository` in the caller's transaction. -/
inductive InvitationOp where
  | create (invitedBy : Uuid) (email : String) (instanceRole : InstanceRole) (ttl : Int)
  | markAccepted (id acceptedUser : Uuid)
  | revoke (id : Uuid)
  | reissue (id : Uuid)

def InvitationOp.program (lib : Libs) : InvitationOp → Query Unit
  | .create invitedBy email instanceRole ttl => do
    let _ ← InvitationRepository.create lib invitedBy email instanceRole ttl
  | .markAccepted id acceptedUser => inTx (InvitationRepository.markAccepted id acceptedUser)
  | .revoke id => inTx (InvitationRepository.revoke id)
  | .reissue id => do
    let _ ← InvitationRepository.reissue lib id

inductive InvitationCall where
  | findActive (token : String)
  | transaction (ops : List InvitationOp)

def InvitationCall.program (lib : Libs) : InvitationCall → Query Unit
  | .findActive token => do
    let _ ← onPool (InvitationRepository.findActive lib token)
  | .transaction ops => inTransaction (inOrder (ops.map (InvitationOp.program lib)))

/-! ## What the statements demand -/

/-- The invitation with an id, if there is one, is neither accepted nor revoked nor expired. -/
def StillOpen (id : Uuid) (env : Env) (db : Db) : Prop :=
  ∀ i ∈ db.invitations, i.id = id → InvitationRepository.pending env.pgNow i

/-- The invitation with an id, if there is one, is not accepted. -/
def NotAccepted (id : Uuid) (_ : Env) (db : Db) : Prop :=
  ∀ i ∈ db.invitations, i.id = id → i.acceptedAt = none

instance (id : Uuid) (env : Env) (db : Db) : Decidable (StillOpen id env db) :=
  List.decidableBAll _ _

instance (id : Uuid) (env : Env) (db : Db) : Decidable (NotAccepted id env db) :=
  List.decidableBAll _ _

/-- The statements of the operations, with what keeps an invitation's end unique. -/
inductive Operations (lib : Libs) : Catalog Env Db Write LockKey Mem SqlError
  | insert (invitedBy : Uuid) (email : String) (instanceRole : InstanceRole) (tokenHash : Bytes)
      (expiresAt : DateTime) :
      Operations lib _ (InvitationRepository.insert lib invitedBy email instanceRole tokenHash
        expiresAt) fun _ _ => True
  | findActive (token : String) :
      Operations lib _ (InvitationRepository.findActive lib token) fun _ _ => True
  | markAccepted (id acceptedUser : Uuid) :
      Operations lib _ (InvitationRepository.markAccepted id acceptedUser) (StillOpen id)
  | revoke (id : Uuid) : Operations lib _ (InvitationRepository.revoke id) (NotAccepted id)
  | rotate (id : Uuid) (newHash : Bytes) (newExpiresAt : DateTime) :
      Operations lib _ (InvitationRepository.rotate lib id newHash newExpiresAt) fun _ _ => True
  | findById (id : Uuid) : Operations lib _ (InvitationRepository.findById id) fun _ _ => True

theorem obeys_program (lib : Libs) (call : InvitationCall) :
    (call.program lib).Obeys (.listed (Operations lib)) := by
  cases call with
  | findActive token => exact ⟨⟨_, .findActive token⟩, fun r => by cases r <;> trivial⟩
  | transaction ops =>
    refine obeys_inTransaction trivial (obeys_inOrder fun q hq => ?_)
    obtain ⟨op, -, rfl⟩ := List.mem_map.mp hq
    cases op with
    | create invitedBy email instanceRole ttl =>
      refine obeys_bind (obeys_bind ⟨trivial, fun _ => trivial⟩ fun token =>
        obeys_bind ⟨trivial, fun _ => trivial⟩ fun now => ?_) fun _ => trivial
      exact obeys_bind ⟨⟨_, .insert ..⟩, fun _ => trivial⟩ fun _ => trivial
    | markAccepted id acceptedUser => exact ⟨⟨_, .markAccepted id acceptedUser⟩, fun _ => trivial⟩
    | revoke id => exact ⟨⟨_, .revoke id⟩, fun _ => trivial⟩
    | reissue id =>
      refine obeys_bind (obeys_bind ⟨trivial, fun _ => trivial⟩ fun token =>
        obeys_bind ⟨trivial, fun _ => trivial⟩ fun now => ?_) fun _ => trivial
      refine obeys_bind ⟨⟨_, .rotate ..⟩, fun _ => trivial⟩ fun updated => ?_
      cases updated with
      | some row => trivial
      | none => exact obeys_bind ⟨⟨_, .findById id⟩, fun _ => trivial⟩ fun _ => trivial

/-! ## The life of an invitation -/

/-- One step of an invitation. -/
inductive Moves (i : Invitation) : Invitation → Prop
  | accept (t : DateTime) (user : Uuid) (haccepted : i.acceptedAt = none)
      (hrevoked : i.revokedAt = none) (htime : t.nanos < i.expiresAt.nanos) :
      Moves i { i with acceptedAt := some t, acceptedUserId := some user }
  | revoke (t : DateTime) (haccepted : i.acceptedAt = none) : Moves i { i with revokedAt := some t }
  | reissue (newHash : Bytes) (newExpiresAt : DateTime) (haccepted : i.acceptedAt = none)
      (hrevoked : i.revokedAt = none) :
      Moves i { i with tokenHash := newHash, expiresAt := newExpiresAt }

/-- Invitations are added open, moved along and never removed. -/
def Recorded : Option Invitation → Option Invitation → Prop
  | none, some i => i.acceptedAt = none ∧ i.revokedAt = none
  | none, none => True
  | some i, some i' => Moves i i'
  | some _, none => False

/-- At most one end, and in time. -/
structure Settled (i : Invitation) : Prop where
  exclusive : i.acceptedAt = none ∨ i.revokedAt = none
  inTime : ∀ t, i.acceptedAt = some t → t.nanos < i.expiresAt.nanos

theorem Moves.settled {i i' : Invitation} (h : Moves i i') (hi : Settled i) : Settled i' := by
  cases h with
  | accept t user haccepted hrevoked htime =>
    refine ⟨Or.inr hrevoked, fun t' ht' => ?_⟩
    obtain rfl : t = t' := Option.some.inj ht'
    exact htime
  | revoke t haccepted => exact ⟨Or.inl haccepted, hi.inTime⟩
  | reissue newHash newExpiresAt haccepted hrevoked =>
    refine ⟨Or.inl haccepted, fun t ht => ?_⟩
    rw [show ({ i with tokenHash := newHash, expiresAt := newExpiresAt } : Invitation).acceptedAt =
      i.acceptedAt from rfl, haccepted] at ht
    exact absurd ht (by simp)

/-- What stays of an invitation: everything once it is accepted, the refusal once it is revoked. -/
structure Keeps (i i' : Invitation) : Prop where
  id : i'.id = i.id
  accepted : i.acceptedAt.isSome → i' = i
  revoked : i.revokedAt.isSome → i'.revokedAt.isSome ∧ i'.acceptedAt = i.acceptedAt

theorem Keeps.refl (i : Invitation) : Keeps i i := ⟨rfl, fun _ => rfl, fun h => ⟨h, rfl⟩⟩

theorem Keeps.not_accepted {i i₁ : Invitation} (h : Keeps i i₁) (hnone : i₁.acceptedAt = none) :
    ¬ i.acceptedAt.isSome := by
  intro hsome
  rw [h.accepted hsome] at hnone
  rw [hnone] at hsome
  exact absurd hsome (by simp)

theorem Keeps.not_revoked {i i₁ : Invitation} (h : Keeps i i₁) (hnone : i₁.revokedAt = none) :
    ¬ i.revokedAt.isSome := by
  intro hsome
  have hrevoked := (h.revoked hsome).1
  rw [hnone] at hrevoked
  exact absurd hrevoked (by simp)

theorem Keeps.move {i i₁ i' : Invitation} (h : Keeps i i₁) (hmove : Moves i₁ i') : Keeps i i' := by
  cases hmove with
  | accept t user haccepted hrevoked htime =>
    exact ⟨h.id, fun ha => absurd ha (h.not_accepted haccepted),
      fun hr => absurd hr (h.not_revoked hrevoked)⟩
  | revoke t haccepted =>
    exact ⟨h.id, fun ha => absurd ha (h.not_accepted haccepted), fun hr => ⟨rfl, (h.revoked hr).2⟩⟩
  | reissue newHash newExpiresAt haccepted hrevoked =>
    exact ⟨h.id, fun ha => absurd ha (h.not_accepted haccepted),
      fun hr => absurd hr (h.not_revoked hrevoked)⟩

theorem keeps_path {i : Invitation} {v' : Option Invitation}
    (h : Relation.ReflTransGen Recorded (some i) v') :
    ∃ i', v' = some i' ∧ Keeps i i' ∧ (Settled i → Settled i') := by
  induction h with
  | refl => exact ⟨i, rfl, .refl i, fun h => h⟩
  | @tail v v' _ hstep ih =>
    obtain ⟨i₁, rfl, hkeeps, hsettled⟩ := ih
    cases v' with
    | none => exact hstep.elim
    | some i' => exact ⟨i', rfl, hkeeps.move hstep, fun hi => Moves.settled hstep (hsettled hi)⟩

theorem settled_path {v v' : Option Invitation} (h : Relation.ReflTransGen Recorded v v')
    (hv : ∀ i, v = some i → Settled i) : ∀ i', v' = some i' → Settled i' := by
  induction h with
  | refl => exact hv
  | @tail v v' _ hstep ih =>
    intro i' hi'
    subst hi'
    cases v with
    | none =>
      obtain ⟨haccepted, -⟩ : i'.acceptedAt = none ∧ i'.revokedAt = none := hstep
      exact ⟨Or.inl haccepted, fun t ht => absurd (haccepted.symm.trans ht) (by simp)⟩
    | some i => exact Moves.settled hstep (ih i rfl)

theorem pending_iff {now : DateTime} {i : Invitation} : InvitationRepository.pending now i ↔
    i.acceptedAt = none ∧ i.revokedAt = none ∧ now.nanos < i.expiresAt.nanos := by
  unfold InvitationRepository.pending
  simp only [Bool.and_eq_true, beq_iff_eq, decide_eq_true_eq, and_assoc]

/-- **The operations move invitations along**, where their demands are met. -/
theorem operations_follow (lib : Libs) :
    (Operations lib).Follows (Table.view .invitations) fun _ => Recorded := by
  intro β s demand hs env mem db hkeyed hdemand
  cases hs with
  | insert invitedBy email instanceRole tokenHash expiresAt => exact lawful_insertRow ⟨rfl, rfl⟩
  | findActive token => trivial
  | markAccepted id acceptedUser =>
    unfold InvitationRepository.markAccepted
    split
    · trivial
    · refine lawful_readAs (lawful_updateRows mem hkeyed (fun _ => rfl) fun i hi hp => ?_)
      obtain ⟨haccepted, hrevoked, htime⟩ := pending_iff.mp (hdemand i hi (by simpa using hp))
      exact .accept env.pgNow acceptedUser haccepted hrevoked htime
  | revoke id =>
    refine lawful_readAs (lawful_updateRows mem hkeyed (fun _ => rfl) fun i hi hp => ?_)
    have haccepted := hdemand i hi (by simpa using hp)
    cases hrevoked : i.revokedAt with
    | none => exact .revoke env.pgNow haccepted
    | some t => exact .revoke t haccepted
  | rotate id newHash newExpiresAt =>
    unfold InvitationRepository.rotate
    split
    · trivial
    · refine lawful_readAs (lawful_updateRows mem hkeyed (fun _ => rfl) fun i hi hp => ?_)
      simp only [Bool.and_eq_true] at hp
      obtain ⟨haccepted, hrevoked, -⟩ := pending_iff.mp hp.2
      exact .reissue newHash (lib.timestamptz newExpiresAt) haccepted hrevoked
  | findById id => trivial

/-! ## Runs -/

section Runs

variable {lib : Libs} {Pid : Type} [DecidableEq Pid] [Fintype Pid] {calls : Pid → InvitationCall}
  {es : List (TransactionEvent Pid Unit)} {w₀ w w' : Transactions Pid Unit} {i : Pid}
  {c : Choice Env SqlError}

/-- The calls have not begun, ids are unique, and so far every invitation has at most one end. -/
structure Beginning (lib : Libs) (calls : Pid → InvitationCall) (w₀ : Transactions Pid Unit) :
    Prop where
  procs : ∀ i, w₀.procs i = ⟨(calls i).program lib, none⟩
  ids : Keyed (Table.key .invitations) w₀.sh.db.invitations
  settled : ∀ i ∈ w₀.sh.db.invitations, Settled i

theorem followed_trace {C : List (TransactionEvent Pid Unit) → TransactionEvent Pid Unit → Prop}
    (hb : Beginning lib calls w₀) (ht : World.Trace C w₀ es w) :
    Followed (Operations lib) (Table.view .invitations) (fun _ => Recorded) es w := by
  refine Followed.trace (operations_follow lib) (fun i => ?_) hb.ids (fun i => ?_) ht
  · rw [hb.procs i]
  · rw [hb.procs i]
    exact obeys_program lib (calls i)

/-- What a step keeps of an invitation. -/
theorem keeps_step
    (h : Followed (Operations lib) (Table.view .invitations) (fun _ => Recorded) es w)
    (hs : w.step i c = some w') (hC : CommitsOnly (Heeded (Operations lib)) es ⟨w, i, c, w'⟩)
    {inv : Invitation} (hinv : inv ∈ w.sh.db.invitations) :
    ∃ inv' ∈ w'.sh.db.invitations, Keeps inv inv' := by
  have hget : (Table.view .invitations).look w.sh.db (.uuid inv.id) = some inv :=
    get_of_mem h.provisional.sound hinv
  have hcell := h.cell hs hC (.uuid inv.id)
  rw [hget] at hcell
  obtain ⟨inv', hinv', hkeeps, -⟩ := keeps_path hcell
  exact ⟨inv', (mem_of_get hinv').1, hkeeps⟩

/-- The invitations after a run. -/
structure Exclusive (es : List (TransactionEvent Pid Unit)) (w : Transactions Pid Unit) : Prop where
  /-- None is both accepted and revoked, and each was accepted before it expired. -/
  settled : ∀ i ∈ w.sh.db.invitations, Settled i
  /-- No step removes an invitation, nor accepts one that is revoked. -/
  keeps : ∀ e ∈ es, ∀ i ∈ e.before.sh.db.invitations, ∃ i' ∈ e.after.sh.db.invitations, Keeps i i'
  /-- Once accepted it stays as it is, with the user who accepted it. -/
  accepted : ∀ e ∈ es, ∀ i ∈ e.before.sh.db.invitations, i.acceptedAt.isSome →
    i ∈ e.after.sh.db.invitations ∧ i ∈ w.sh.db.invitations

/-- **Invitations end once**, in every run in which a transaction commits only if its operations
    found what they demand. -/
theorem invitations_exclusive (hb : Beginning lib calls w₀)
    (ht : World.Trace (CommitsOnly (Heeded (Operations lib))) w₀ es w) : Exclusive es w := by
  refine ⟨?_, fun e he inv hinv => ?_, ?_⟩
  · induction ht with
    | start => exact hb.settled
    | @step es w w' i c ht hs hC ih =>
      intro inv' hinv'
      have hkeyed : Keyed (Table.key .invitations) w'.sh.db.invitations :=
        (followed_trace hb (ht.step i c hs hC)).provisional.sound
      refine settled_path ((followed_trace hb ht).cell hs hC (.uuid inv'.id))
        (fun inv hinv => ?_) inv' (get_of_mem hkeyed hinv')
      exact ih inv (mem_of_get hinv).1
  · obtain ⟨es', -, ht', hs, hC⟩ := ht.event he
    exact keeps_step (followed_trace hb ht') hs hC hinv
  · induction ht with
    | start => exact fun e he => absurd he (by simp)
    | @step es w w' i c ht hs hC ih =>
      have hnext : ∀ inv ∈ w.sh.db.invitations, inv.acceptedAt.isSome →
          inv ∈ w'.sh.db.invitations := by
        intro inv hinv haccepted
        obtain ⟨inv', hinv', hkeeps⟩ := keeps_step (followed_trace hb ht) hs hC hinv
        exact hkeeps.accepted haccepted ▸ hinv'
      intro e he inv hinv haccepted
      rcases List.mem_cons.mp he with rfl | he
      · exact ⟨hnext inv hinv haccepted, hnext inv hinv haccepted⟩
      · obtain ⟨hafter, hnow⟩ := ih e he inv hinv haccepted
        exact ⟨hafter, hnext inv hnow haccepted⟩

end Runs

/-! ## Two invitees -/

/-- An invitation by Ann, valid for a day. -/
def invitation : Invitation where
  id := Sample.uuid 9
  email := "bob@example.org"
  tokenHash := Libs.sample.sha256 (utf8 "c3d4")
  invitedByUserId := Sample.ann.id
  instanceRole := .member
  createdAt := ⟨0⟩
  expiresAt := ⟨DateTime.hours 24⟩
  acceptedAt := none
  acceptedUserId := none
  revokedAt := none

/-- Who has opened the same link twice. -/
def bob : User := { Sample.ann with
  id := Sample.uuid 10
  email := "bob@example.org"
  instanceRole := .member }

/-- Two requests accept the invitation, for different users. -/
def invitees (i : Bool) : InvitationCall :=
  if i then .transaction [.markAccepted invitation.id Sample.ann.id]
  else .transaction [.markAccepted invitation.id bob.id]

def invited : Transactions Bool Unit where
  procs i := ⟨(invitees i).program Libs.sample, none⟩
  sh :=
    { db := ⟨fun
        | .users => [Sample.ann, bob]
        | .invitations => [invitation]
        | _ => []⟩
      mem := Mem.fresh }

theorem invited_beginning : Beginning Libs.sample invitees invited where
  procs _ := rfl
  ids := List.nodup_singleton _
  settled i hi := by
    obtain rfl : i = invitation := List.mem_singleton.mp hi
    exact ⟨Or.inl rfl, fun t ht => absurd ht (by simp [invitation])⟩

/-- **The user who accepted is replaced**: the second `UPDATE` does not look at the first. -/
theorem accepted_twice : Beginning Libs.sample invitees invited ∧
    ∃ w w', World.Run World.anyStep invited w ∧ World.Run World.anyStep w w' ∧
      ∃ i ∈ w.sh.db.invitations, ∃ i' ∈ w'.sh.db.invitations, i'.id = i.id ∧
        i.acceptedUserId = some bob.id ∧ i'.acceptedUserId = some Sample.ann.id :=
  ⟨invited_beginning, _, _, World.run_followD _ (Sample.steps false 40 3),
    World.run_followD _ (Sample.steps true 40 3), by decide +kernel⟩

/-- Another invitation by Ann, to an address she mistyped. -/
def mistyped : Invitation := { invitation with
  id := Sample.uuid 11
  email := "bbo@example.org"
  tokenHash := Libs.sample.sha256 (utf8 "d4e5") }

/-- Bob accepts his invitation, Ann takes the other one back. -/
def tidying (i : Bool) : InvitationCall :=
  .transaction [if i then .revoke mistyped.id else .markAccepted invitation.id bob.id]

def twoInvitations : Transactions Bool Unit where
  procs i := ⟨(tidying i).program Libs.sample, none⟩
  sh := { invited.sh with db := applyAll invited.sh.db [Write.put .invitations mistyped] }

theorem twoInvitations_beginning : Beginning Libs.sample tidying twoInvitations where
  procs _ := rfl
  ids := by decide +kernel
  settled i hi := by
    have htwo : twoInvitations.sh.db.invitations = [invitation, mistyped] := by decide +kernel
    rw [htwo] at hi
    obtain rfl | rfl : i = invitation ∨ i = mistyped := by simpa using hi
    · exact ⟨Or.inl rfl, fun t ht => absurd ht (by simp [invitation])⟩
    · exact ⟨Or.inl rfl, fun t ht => absurd ht (by simp [mistyped, invitation])⟩

/-- The theorem after both requests. -/
theorem invitations_exclusive_two : ∃ es w,
    World.Trace (CommitsOnly (Heeded (Operations Libs.sample))) twoInvitations es w ∧
      w.sh.db.invitations.map (fun i => (i.acceptedUserId, i.revokedAt.isSome)) =
        [(some bob.id, false), (none, true)] ∧ Exclusive es w := by
  let c : Choice Env SqlError := Sample.calm 40
  let w₁ := twoInvitations.reach [(false, c)]
  let w₂ := w₁.reach [(false, c)]
  let w₃ := w₂.reach [(false, c)]
  let w₄ := w₃.reach [(true, c)]
  let w₅ := w₄.reach [(true, c)]
  let w₆ := w₅.reach [(true, c)]
  have h₁ : twoInvitations.step false c = some w₁ := World.step_reach (by decide +kernel)
  have h₂ : w₁.step false c = some w₂ := World.step_reach (by decide +kernel)
  have h₃ : w₂.step false c = some w₃ := World.step_reach (by decide +kernel)
  have h₄ : w₃.step true c = some w₄ := World.step_reach (by decide +kernel)
  have h₅ : w₄.step true c = some w₅ := World.step_reach (by decide +kernel)
  have h₆ : w₅.step true c = some w₆ := World.step_reach (by decide +kernel)
  have hsame : w₃.procs true = twoInvitations.procs true :=
    ((World.step_spec h₃).2.2 true (by decide)).trans
      (((World.step_spec h₂).2.2 true (by decide)).trans
        ((World.step_spec h₁).2.2 true (by decide)))
  have haccepted := Followed.transaction .start h₁ h₂ h₃ rfl rfl rfl
    (fun r => by cases r <;> first | exact Or.inl ⟨_, rfl⟩ | exact Or.inr ⟨_, rfl⟩)
    (@Operations.markAccepted Libs.sample invitation.id bob.id) (by decide +kernel)
  have hboth := Followed.transaction haccepted h₄ h₅ h₆ (congrArg Proc.prog hsame) rfl rfl
    (fun r => by cases r <;> first | exact Or.inl ⟨_, rfl⟩ | exact Or.inr ⟨_, rfl⟩)
    (@Operations.revoke Libs.sample mistyped.id) (by decide +kernel)
  have ht := Followed.commitsOnly hboth
  exact ⟨_, w₆, ht, by decide +kernel, invitations_exclusive twoInvitations_beginning ht⟩

end SylvaServer.Invitations
