/-
  What is left of a deleted account.

  `hard_remove` deletes one row of `identity.users`; the foreign keys carry the deletion on. One
  column with a user id has no foreign key: `resources.last_modified_by`. That it does not keep a
  deleted user rests on the statements which write it.

  Proved: every statement of the repositories writes resources that their owner has modified last
  (`lawful_statement`), so in every run of the server all resources are such (`signed_trace`); what
  the deletion makes of each table (`hardRemove_rows`); and from both that after it no row outside
  the audit log refers to the user (`deletion_leaves_no_trace`).
-/
import SylvaServer.Model.Repository
import SylvaServer.Model.Views
import SylvaServer.ReadCommitted.Solo

namespace SylvaServer

open ReadCommitted ReadCommitted.Prog

/-! ## Links to users -/

/-- The user ids in a row. -/
def Table.userIds : (t : Table) → t.Row → List Uuid
  | .users, r => [r.id]
  | .invitations, r => r.invitedByUserId :: r.acceptedUserId.toList
  | .credentials, r => [r.userId]
  | .userKeys, r => [r.userId]
  | .userAvatars, r => [r.userId]
  | .machines, r => r.claimedByUserId.toList
  | .machineSessions, _ => []
  | .machineTelemetry, _ => []
  | .devices, r => [r.userId]
  | .sessions, r => [r.userId]
  | .recoveryCodes, r => r.createdByUserId.toList ++ r.rotatedByUserId.toList
  | .userRecoveryCodes, r => [r.userId]
  | .totpCredentials, r => [r.userId]
  | .webauthnCredentials, r => [r.userId]
  | .webauthnChallenges, r => r.userId.toList
  | .events, r => r.actorUserId.toList
  | .trustedPublishers, r => r.addedBy.toList
  | .registeredApps, r => r.registeredBy.toList
  | .resources, r => [r.ownerUserId, r.lastModifiedBy]

/-- The row belongs to a user. -/
def Table.ownedBy (u : Uuid) : (t : Table) → t.Row → Bool
  | .users, r => r.id == u
  | .invitations, r => r.invitedByUserId == u
  | .credentials, r => r.userId == u
  | .userKeys, r => r.userId == u
  | .userAvatars, r => r.userId == u
  | .devices, r => r.userId == u
  | .sessions, r => r.userId == u
  | .userRecoveryCodes, r => r.userId == u
  | .totpCredentials, r => r.userId == u
  | .webauthnCredentials, r => r.userId == u
  | .webauthnChallenges, r => r.userId == some u
  | .resources, r => r.ownerUserId == u
  | .machines, _ => false
  | .machineSessions, _ => false
  | .machineTelemetry, _ => false
  | .recoveryCodes, _ => false
  | .events, _ => false
  | .trustedPublishers, _ => false
  | .registeredApps, _ => false

/-- The row without its nullable links to a user. -/
def Table.unlink (u : Uuid) : (t : Table) → t.Row → t.Row
  | .invitations, r => { r with acceptedUserId := r.acceptedUserId.filter (· != u) }
  | .machines, r => { r with claimedByUserId := r.claimedByUserId.filter (· != u) }
  | .recoveryCodes, r => { r with
      createdByUserId := r.createdByUserId.filter (· != u)
      rotatedByUserId := r.rotatedByUserId.filter (· != u) }
  | .trustedPublishers, r => { r with addedBy := r.addedBy.filter (· != u) }
  | .registeredApps, r => { r with registeredBy := r.registeredBy.filter (· != u) }
  | .users, r => r
  | .credentials, r => r
  | .userKeys, r => r
  | .userAvatars, r => r
  | .devices, r => r
  | .sessions, r => r
  | .userRecoveryCodes, r => r
  | .totpCredentials, r => r
  | .webauthnCredentials, r => r
  | .webauthnChallenges, r => r
  | .resources, r => r
  | .machineSessions, r => r
  | .machineTelemetry, r => r
  | .events, r => r

namespace HardRemoval

open UserRepository (hardRemove)

section Links

variable {t : Table} {u : Uuid} {r : t.Row}

theorem filter_ne_self {link : Option Uuid} (h : u ∉ link.toList) :
    link.filter (· != u) = link := by
  cases link with
  | none => rfl
  | some v =>
    have hne : v ≠ u := by
      rintro rfl
      exact h (by simp)
    simp [hne]

theorem not_mem_filter (link : Option Uuid) : u ∉ (link.filter (· != u)).toList := by
  cases link with
  | none => simp
  | some v =>
    by_cases h : v = u
    · simp [h]
    · simp [h]

/-- Who owns a row is in it. -/
theorem not_owned (h : u ∉ t.userIds r) : t.ownedBy u r = false := by
  cases t with
  | users | invitations | credentials | userKeys | userAvatars | devices | sessions
  | userRecoveryCodes | totpCredentials | webauthnCredentials | webauthnChallenges | resources =>
    simp only [Table.userIds, List.mem_cons, not_or, Option.mem_toList] at h
    simp only [Table.ownedBy, beq_eq_false_iff_ne]
    grind
  | machines | machineSessions | machineTelemetry | recoveryCodes | events | trustedPublishers
  | registeredApps => rfl

/-- Without a link there is nothing to clear. -/
theorem unlink_eq_self (h : u ∉ t.userIds r) : t.unlink u r = r := by
  cases t with
  | machines | trustedPublishers | registeredApps => simp only [Table.unlink, filter_ne_self h]
  | invitations =>
    have haccepted := filter_ne_self fun hmem => h (List.mem_cons_of_mem _ hmem)
    simp only [Table.unlink, haccepted]
  | recoveryCodes =>
    have hcreated := filter_ne_self fun hmem => h (List.mem_append_left _ hmem)
    have hrotated := filter_ne_self fun hmem => h (List.mem_append_right _ hmem)
    simp only [Table.unlink, hcreated, hrotated]
  | users | credentials | userKeys | userAvatars | machineSessions | machineTelemetry | devices
  | sessions | userRecoveryCodes | totpCredentials | webauthnCredentials | webauthnChallenges
  | events
  | resources => rfl

/-- A row of somebody else no longer refers to the user. -/
theorem not_mem_unlink (ht : t ≠ .events) (hresource : t ≠ .resources)
    (hnot : t.ownedBy u r = false) : u ∉ t.userIds (t.unlink u r) := by
  cases t with
  | users | credentials | userKeys | userAvatars | devices | sessions | userRecoveryCodes
  | totpCredentials | webauthnCredentials =>
    have hne := beq_eq_false_iff_ne.mp hnot
    exact fun hmem => hne (List.mem_singleton.mp hmem).symm
  | webauthnChallenges =>
    have hne := beq_eq_false_iff_ne.mp hnot
    exact fun hmem => hne (Option.mem_toList.mp hmem)
  | machines | trustedPublishers | registeredApps => exact not_mem_filter _
  | recoveryCodes => exact List.not_mem_append (not_mem_filter _) (not_mem_filter _)
  | invitations =>
    have hne := beq_eq_false_iff_ne.mp hnot
    exact List.not_mem_cons_of_ne_of_not_mem (Ne.symm hne) (not_mem_filter _)
  | machineSessions | machineTelemetry => exact List.not_mem_nil
  | events => exact absurd rfl ht
  | resources => exact absurd rfl hresource

end Links

/-! ## The deletion, table by table -/

section Rows

variable {db : Db} {t : Table} {u : Uuid} (env : Env) (mem : Mem)

theorem filter_updateRows (t' : Table) (p : t'.Row → Bool) (f : t'.Row → t'.Row) :
    (updateRows t' p f mem db).writes.filter (fun w => decide (w.table = t)) =
      if t' = t then (updateRows t' p f mem db).writes else [] := by
  split
  · next h =>
    exact List.filter_eq_self.mpr fun w hw => decide_eq_true ((updateRows_table w hw).trans h)
  · next h =>
    refine List.filter_eq_nil_iff.mpr fun w hw hd => h ?_
    exact (updateRows_table w hw).symm.trans (of_decide_eq_true hd)

theorem filter_deleteRows (t' : Table) (p : t'.Row → Bool) :
    (deleteRows t' p mem db).writes.filter (fun w => decide (w.table = t)) =
      if t' = t then (deleteRows t' p mem db).writes else [] := by
  split
  · next h =>
    exact List.filter_eq_self.mpr fun w hw => decide_eq_true ((deleteRows_table w hw).trans h)
  · next h =>
    refine List.filter_eq_nil_iff.mpr fun w hw hd => h ?_
    exact (deleteRows_table w hw).symm.trans (of_decide_eq_true hd)

theorem hardRemove_result : (hardRemove u env mem db).result = .ok () := by
  unfold hardRemove
  split <;> rfl

theorem hardRemove_mem : (hardRemove u env mem db).mem = mem := by
  unfold hardRemove
  split <;> rfl

/-- An `UPDATE` writes the same where the rows it is about are the same. -/
theorem updateRows_congr {db' : Db} {p : t.Row → Bool} (f : t.Row → t.Row)
    (h : (db.rows t).filter p = (db'.rows t).filter p) :
    (updateRows t p f mem db).writes = (updateRows t p f mem db').writes := by
  simp only [updateRows, h]

/-- A link is cleared where it is, and a row without it stays as it was. -/
theorem filter_link (link : Option Uuid) :
    link.filter (· != u) = if link == some u then none else link := by
  cases link with
  | none => rfl
  | some v =>
    by_cases h : v = u
    · simp [h]
    · simp [h]

/-- A table whose rows of the user are deleted, and which has no other link. -/
theorem rows_deleted (hkeyed : Keyed t.key (db.rows t)) {p : t.Row → Bool}
    (hp : ∀ r, t.ownedBy u r = p r) (hlink : ∀ r, t.unlink u r = r) :
    (applyAll db (deleteRows t p mem db).writes).rows t =
      ((db.rows t).filter fun r => !t.ownedBy u r).map (t.unlink u) := by
  have hsame : t.unlink u = id := funext hlink
  rw [deleteRows_rows mem hkeyed, hsame, List.map_id]
  exact List.filter_congr fun r _ => by rw [hp]

/-- A table no row of which is the user's. -/
theorem rows_unlinked (hkeyed : Keyed t.key (db.rows t)) {p : t.Row → Bool} {f : t.Row → t.Row}
    (hkey : ∀ r, t.key (f r) = t.key r) (hnone : ∀ r, t.ownedBy u r = false)
    (hlink : ∀ r, (if p r then f r else r) = t.unlink u r) :
    (applyAll db (updateRows t p f mem db).writes).rows t =
      ((db.rows t).filter fun r => !t.ownedBy u r).map (t.unlink u) := by
  rw [updateRows_rows mem hkeyed hkey, List.filter_eq_self.mpr fun r _ => by rw [hnone]; rfl]
  exact List.map_congr_left fun r _ => hlink r

/-- A table whose rows of the user are deleted, while the links in others are cleared. -/
theorem rows_deleted_unlinked (hkeyed : Keyed t.key (db.rows t)) {p q : t.Row → Bool}
    {f : t.Row → t.Row} (hp : ∀ r, t.ownedBy u r = p r) (hkey : ∀ r, t.key (f r) = t.key r)
    (hq : ∀ r, q r = true → p r = false)
    (hlink : ∀ r, p r = false → (if q r then f r else r) = t.unlink u r) :
    (applyAll db ((deleteRows t p mem db).writes ++ (updateRows t q f mem db).writes)).rows t =
      ((db.rows t).filter fun r => !t.ownedBy u r).map (t.unlink u) := by
  rw [applyAll_append]
  have hdeleted := deleteRows_rows (p := p) mem hkeyed
  generalize applyAll db (deleteRows t p mem db).writes = db' at hdeleted
  have hmatching : (db.rows t).filter q = (db'.rows t).filter q := by
    rw [hdeleted, List.filter_filter]
    refine List.filter_congr fun r _ => ?_
    cases hqr : q r with
    | false => rfl
    | true => rw [hq r hqr]; rfl
  have hkeyed' : Keyed t.key (db'.rows t) := by
    rw [hdeleted]
    exact keyed_filter hkeyed _
  rw [updateRows_congr mem f hmatching, updateRows_rows mem hkeyed' hkey, hdeleted]
  have howned : (fun r => !t.ownedBy u r) = fun r => !p r := funext fun r => by rw [hp]
  rw [howned]
  refine List.map_congr_left fun r hr => hlink r ?_
  simpa using (List.mem_filter.mp hr).2

/-- A table without links to users. -/
theorem rows_untouched (hnone : ∀ r, t.ownedBy u r = false) (hlink : ∀ r, t.unlink u r = r) :
    db.rows t = ((db.rows t).filter fun r => !t.ownedBy u r).map (t.unlink u) := by
  have hsame : t.unlink u = id := funext hlink
  rw [hsame, List.map_id, List.filter_eq_self.mpr fun r _ => by rw [hnone]; rfl]

/-- **What the deletion makes of a table.** -/
theorem hardRemove_rows (hkeyed : Keyed t.key (db.rows t)) (hu : ∃ r ∈ db.users, r.id = u) :
    (applyAll db (hardRemove u env mem db).writes).rows t =
      ((db.rows t).filter fun r => !t.ownedBy u r).map (t.unlink u) := by
  have hany : db.users.any (fun r => r.id == u) = true := by
    obtain ⟨r, hr, hid⟩ := hu
    exact List.any_eq_true.mpr ⟨r, hr, by simpa using hid⟩
  rw [applyAll_rows_filter]
  unfold hardRemove
  rw [if_pos hany]
  simp only [List.flatMap_cons, List.flatMap_nil, hardRemove.both, List.filter_append,
    filter_deleteRows, filter_updateRows, List.append_nil]
  cases t with
  | users | credentials | sessions | totpCredentials | webauthnCredentials | webauthnChallenges
  | userRecoveryCodes | userAvatars | userKeys | devices | resources =>
    simp only [reduceCtorEq, reduceIte, List.nil_append, List.append_nil]
    refine rows_deleted mem hkeyed ?_ ?_
    · exact fun _ => rfl
    · exact fun _ => rfl
  | machineSessions | machineTelemetry | events =>
    simp only [reduceCtorEq, reduceIte, List.nil_append]
    refine rows_untouched ?_ ?_
    · exact fun _ => rfl
    · exact fun _ => rfl
  | machines | trustedPublishers | registeredApps =>
    simp only [reduceCtorEq, reduceIte, List.nil_append, List.append_nil]
    refine rows_unlinked mem hkeyed (fun _ => rfl) (fun _ => rfl) fun r => ?_
    simp only [Table.unlink, filter_link]
    split
    · rfl
    · rfl
  | recoveryCodes =>
    simp only [reduceCtorEq, reduceIte, List.nil_append, List.append_nil]
    refine rows_unlinked mem hkeyed (fun _ => rfl) (fun _ => rfl) fun r => ?_
    simp only [Table.unlink, filter_link]
    split
    · rfl
    · next h =>
      simp only [Bool.or_eq_true, not_or] at h
      rw [if_neg h.1, if_neg h.2]
  | invitations =>
    simp only [reduceCtorEq, reduceIte, List.nil_append, List.append_nil]
    refine rows_deleted_unlinked mem hkeyed (fun _ => rfl) (fun _ => rfl) (fun r hr => ?_)
      fun r hr => ?_
    · simpa using (Bool.and_eq_true_iff.mp hr).2
    · have hinvited : (r.invitedByUserId != u) = true := by simpa using hr
      simp only [Table.unlink, filter_link, hinvited, Bool.and_true]
      split
      · rfl
      · rfl

/-- A user that is not there is not removed. -/
theorem hardRemove_absent (hu : ∀ r ∈ db.users, r.id ≠ u) :
    (hardRemove u env mem db).writes = [] := by
  have hany : ¬ db.users.any (fun r => r.id == u) = true := by
    intro h
    obtain ⟨r, hr, hid⟩ := List.any_eq_true.mp h
    exact hu r hr (by simpa using hid)
  unfold hardRemove
  rw [if_neg hany]

theorem hardRemove_users (hkeyed : Keyed (Table.key .users) db.users) :
    (applyAll db (hardRemove u env mem db).writes).users = db.users.filter fun r => r.id != u := by
  by_cases hu : ∃ r ∈ db.users, r.id = u
  · exact (hardRemove_rows (t := .users) env mem hkeyed hu).trans (List.map_id _)
  · rw [hardRemove_absent env mem fun r hr hid => hu ⟨r, hr, hid⟩]
    refine (List.filter_eq_self.mpr fun r hr => ?_).symm
    simpa using fun hid => hu ⟨r, hr, hid⟩

end Rows

/-! ## Whoever has modified a resource last -/

/-- The owner has modified the resource last. -/
def Signed (r : Resource) : Prop := r.lastModifiedBy = r.ownerUserId

/-- A resource that its owner has modified last becomes another such one. -/
def KeepsSigned (old new : Option Resource) : Prop := (∀ r ∈ old, Signed r) → ∀ r ∈ new, Signed r

section Statements

variable {lib : Libs} {β : Type} {db : Db} {t : Table} (env : Env) (mem : Mem)
  {T : Key → Option Resource → Option Resource → Prop}

/-- An `INSERT` into another table. -/
theorem elsewhere_insert (ht : t ≠ .resources) {row : t.Row} {taken : Bool}
    {refs : List (Table × Key)} {entries : List LockKey} :
    (Table.view .resources).Lawful T db (insertRow t row taken refs entries mem db).writes :=
  lawful_elsewhere fun w hw => by rwa [insertRow_table w hw]

/-- An `UPDATE` of another table. -/
theorem elsewhere_update (ht : t ≠ .resources) {p : t.Row → Bool} {f : t.Row → t.Row} :
    (Table.view .resources).Lawful T db (updateRows t p f mem db).writes :=
  lawful_elsewhere fun w hw => by rwa [updateRows_table w hw]

/-- A `DELETE` from another table. -/
theorem elsewhere_delete (ht : t ≠ .resources) {p : t.Row → Bool} :
    (Table.view .resources).Lawful T db (deleteRows t p mem db).writes :=
  lawful_elsewhere fun w hw => by rwa [deleteRows_table w hw]

/-- The deletion of a user only deletes resources. -/
theorem hardRemove_deletes {u : Uuid} :
    ∀ w ∈ (hardRemove u env mem db).writes, w.table ≠ .resources ∨
    ∃ k, w = .delete .resources k := by
  intro w hw
  by_cases ht : w.table = .resources
  · have hfilter : w ∈ (hardRemove u env mem db).writes.filter fun w =>
        decide (w.table = .resources) :=
      List.mem_filter.mpr ⟨hw, decide_eq_true ht⟩
    unfold hardRemove at hfilter
    split at hfilter
    · simp only [List.flatMap_cons, List.flatMap_nil, hardRemove.both, List.filter_append,
        filter_deleteRows, filter_updateRows, List.append_nil, reduceCtorEq, reduceIte,
        List.nil_append] at hfilter
      obtain ⟨r, -, rfl⟩ := List.mem_map.mp hfilter
      exact Or.inr ⟨_, rfl⟩
    · exact absurd hfilter (by simp)
  · exact Or.inl ht

/-- An update by the owner. -/
theorem lawful_updateOne {id owner : Uuid} {f : Env → Int → Resource → Resource}
    (hkeyed : Keyed (Table.key .resources) db.resources) (hid : ∀ env n r, (f env n r).id = r.id)
    (hf : ∀ n r, ResourceRepository.owned id owner r = true → Signed r → Signed (f env n r)) :
    (Table.view .resources).Lawful (fun _ => KeepsSigned) db
      (ResourceRepository.updateOne id owner f env mem db).writes := by
  unfold ResourceRepository.updateOne
  split
  · trivial
  · next r hfind =>
    split
    · trivial
    · next n _ =>
      refine lawful_put fun hold r' hr' => ?_
      obtain rfl := Option.some.inj hr'
      refine hf n r (List.find?_some hfind) (hold r ?_)
      have hget := get_of_mem hkeyed (List.mem_of_find?_eq_some hfind)
      show db.get .resources (.uuid (f env n r).id) = some r
      rw [hid]
      exact hget

/-- **Every statement of the repositories keeps the resources signed by their owners.** -/
theorem lawful_statement {s : Statement β} (hs : RepositoryStatement lib s)
    (hkeyed : Keyed (Table.key .resources) db.resources) :
    (Table.view .resources).Lawful (fun _ => KeepsSigned) db (s env mem db).writes := by
  cases hs with
  | select | advisoryXactLock => trivial
  | emailForUpdate => exact lawful_readAs trivial
  | createUser | createInvitation | createMachine | createMachineSession | registerDevice
  | createSession | insertEvent => exact elsewhere_insert mem (by decide)
  | updateProfile | setInstanceRole | deactivate | reactivate | revokeInvitation | updateUserKeys
  | touchCheckin | setLocationEnabled | revokeDevice | updatePasswordHash | touchLastSeen
  | revokeSession | revokeAllForUserExcept | revokeAllForUser | setLabel | confirmTotp | consumeTotp
  | renameTotp | stampTotp | verifyAndStamp | setAppStatus =>
    exact lawful_readAs (elsewhere_update mem (by decide))
  | createUserKeys | createCredentials | insertTotp | insertRecoveryCode | bootstrapUserCode =>
    exact lawful_readAs (elsewhere_insert mem (by decide))
  | deleteCredentials | deleteUnverified | deleteTotp | removeTrustedPublisher =>
    exact lawful_readAs (elsewhere_delete mem (by decide))
  | auditList like filter =>
    unfold Audit.list
    generalize filter.offset.getD 0 = offset
    dsimp only
    split
    · trivial
    · trivial
  | nextSeqno =>
    unfold Audit.nextSeqno
    split
    · trivial
    · trivial
  | updateEmail id newEmail =>
    unfold UserRepository.updateEmail
    split
    · trivial
    · exact lawful_readAs (elsewhere_update mem (by decide))
  | redact id =>
    unfold UserRepository.redact
    split
    · trivial
    · exact lawful_readAs (elsewhere_update mem (by decide))
  | markAccepted id acceptedUser =>
    unfold InvitationRepository.markAccepted
    split
    · trivial
    · exact lawful_readAs (elsewhere_update mem (by decide))
  | reissueInvitation id newHash newExpiresAt =>
    unfold InvitationRepository.rotate
    split
    · trivial
    · exact lawful_readAs (elsewhere_update mem (by decide))
  | markRotated currentHash byUserId =>
    unfold RecoveryCode.markRotated
    dsimp only
    split
    · trivial
    · exact lawful_readAs (elsewhere_update mem (by decide))
  | upsertAvatar userId avatar =>
    unfold UserAvatarRepository.upsert
    split
    · exact lawful_elsewhere (by simp)
    · exact lawful_readAs (elsewhere_insert mem (by decide))
  | rotateUserCode userId newRaw =>
    unfold UserRecoveryCode.rotate
    dsimp only
    split
    · exact lawful_elsewhere (by simp)
    · exact lawful_readAs (elsewhere_insert mem (by decide))
  | registerOrUpdate identityPublic platform label =>
    unfold MachineRepository.registerOrUpdate
    split
    · exact lawful_elsewhere (by simp)
    · exact lawful_readAs (elsewhere_insert mem (by decide))
  | insertTelemetry machineId blob =>
    unfold MachineTelemetryRepository.insertBlob
    split
    · trivial
    · exact lawful_readAs (elsewhere_insert _ (by decide))
  | addTrustedPublisher publisher publicKey addedBy =>
    unfold Registry.addTrustedPublisher
    dsimp only
    split
    · split
      · trivial
      · exact lawful_elsewhere (by simp)
    · exact lawful_readAs (elsewhere_insert mem (by decide))
  | upsertApp decl registeredBy =>
    unfold Registry.upsertApp
    split
    · exact lawful_elsewhere (by simp)
    · exact elsewhere_insert mem (by decide)
  | deleteApp id =>
    unfold Registry.deleteApp
    split
    · trivial
    · refine View.lawful_append.mpr ⟨?_, ?_⟩
      · exact elsewhere_delete mem (t := .registeredApps) (by decide)
      · refine lawful_of_deletes (fun w hw => Or.inr ?_) fun _ _ _ r hr => absurd hr (by simp)
        obtain ⟨r, -, rfl⟩ := List.mem_map.mp hw
        exact ⟨_, rfl⟩
  | hardRemove id =>
    exact lawful_of_deletes (hardRemove_deletes env mem) fun _ _ _ r hr => absurd hr (by simp)
  | adminHardDelete appId id =>
    exact lawful_readAs (lawful_deleteRows hkeyed fun r _ _ _ r' hr' => absurd hr' (by simp))
  | createResource new =>
    unfold ResourceRepository.create
    split
    · trivial
    · refine lawful_insertRow fun _ r hr => ?_
      obtain rfl := Option.some.inj hr
      rfl
  | updateOwned id owner contentBlob contentSignature schemaVersion parentResourceId =>
    refine lawful_updateOne env mem hkeyed (fun _ _ _ => rfl) fun _ r hr _ => ?_
    simp only [ResourceRepository.owned, Bool.and_eq_true, beq_iff_eq] at hr
    exact hr.1.2.symm
  | softDeleteOwned id owner =>
    exact lawful_readAs (lawful_updateOne env mem hkeyed (fun _ _ _ => rfl)
      fun _ _ _ hsigned => hsigned)

end Statements

/-! ## Every run -/

section Runs

variable {ctx : PlatformContext} {Pid : Type} [DecidableEq Pid] [Fintype Pid]
  {w₀ w : Server Pid Unit} {es : List (ServerEvent Pid Unit)}

/-- The server on empty tables; each program is a gRPC method or made of repository statements. -/
structure Beginning (ctx : PlatformContext) (w₀ : Server Pid Unit) : Prop where
  empty : w₀.sh.db = Db.empty
  idle : ∀ i, (w₀.procs i).tx = none
  programs : ∀ i, (∃ call : RpcCall, (w₀.procs i).prog = call.program ctx) ∨
    (w₀.procs i).prog.Obeys (repositoryRules ctx.lib)

theorem keys_trace (hb : Beginning ctx w₀) (ht : World.Trace World.anyEvent w₀ es w) :
    w.sh.db.PrimaryKeys := by
  intro t
  have hsound : t.view.sound w₀.sh.db := by
    rw [hb.empty]
    exact List.nodup_nil
  have hany : ∀ i, (w₀.procs i).prog.Obeys (t.view.rules fun _ _ _ => True) := fun i =>
    obeys_all trivial (fun _ _ _ _ _ => View.lawful_true fun _ _ _ => trivial)
      (fun _ _ _ _ _ => View.lawful_true fun _ _ _ => trivial) fun _ => trivial
  have hversioned : Versioned t.view (fun _ _ _ _ => True) w₀ := ⟨.start hb.idle hsound, hany⟩
  exact (hversioned.trace ht).1.flight.sound

/-- In every state the owner of a resource has modified it last. -/
theorem signed_trace (hb : Beginning ctx w₀) (ht : World.Trace World.anyEvent w₀ es w) :
    ∀ r ∈ w.sh.db.resources, Signed r := by
  have hsound : (Table.view .resources).sound w₀.sh.db := by
    rw [hb.empty]
    exact List.nodup_nil
  have hrules : ∀ i, (w₀.procs i).prog.Obeys
      ((Table.view .resources).rules fun _ => KeepsSigned) := by
    intro i
    have hrepository : (w₀.procs i).prog.Obeys (repositoryRules ctx.lib) := by
      rcases hb.programs i with ⟨call, hcall⟩ | h
      · rw [hcall]
        exact repository_call call
      · exact h
    exact Obeys.mono (R := repositoryRules ctx.lib) id
      (fun _ hs env mem _ hkeyed => lawful_statement env mem hs hkeyed)
      (fun _ hs env mem _ hkeyed => lawful_statement env mem hs hkeyed) (fun _ => id) hrepository
  have hversioned : Versioned (Table.view .resources) (fun _ _ => KeepsSigned) w₀ :=
    ⟨.start hb.idle hsound, hrules⟩
  intro r hr
  have hlook : (Table.view .resources).look w.sh.db (.uuid r.id) = some r :=
    get_of_mem (keys_trace hb ht .resources) hr
  have hpath := (hversioned.trace ht).2 (.uuid r.id)
  rw [hlook, show (Table.view .resources).look w₀.sh.db (.uuid r.id) = none by rw [hb.empty]; rfl]
    at hpath
  have hsigned : ∀ v, Relation.ReflTransGen (fun v v' => ∃ _ : Pid, KeepsSigned v v') none v →
      ∀ r ∈ v, Signed r := by
    intro v hv
    induction hv with
    | refl => exact fun r hr => absurd hr (by simp)
    | tail _ hstep ih =>
      obtain ⟨-, hkeeps⟩ := hstep
      exact hkeeps ih
  exact hsigned _ hpath r rfl

/-- What is left after a user. -/
structure Erased (lib : Libs) (u : Uuid) (db db' : Db) : Prop where
  /-- Outside the audit log no row refers to the user. -/
  gone : ∀ t : Table, t ≠ .events → ∀ r ∈ db'.rows t, u ∉ t.userIds r
  /-- The rows of others are there, without their links to the user. -/
  rows : ∀ t : Table, db'.rows t = ((db.rows t).filter fun r => !t.ownedBy u r).map (t.unlink u)
  /-- A row without such a link is as it was. -/
  kept : ∀ t : Table, ∀ r ∈ db.rows t, u ∉ t.userIds r → r ∈ db'.rows t
  log : db'.events = db.events
  chain : (Audit.chain lib).Valid (orderAsc AuditEvent.seqno db.events) →
    (Audit.chain lib).Valid (orderAsc AuditEvent.seqno db'.events)

/-- **A deleted account leaves no trace outside the audit log.** -/
theorem deletion_leaves_no_trace (hb : Beginning ctx w₀) (ht : World.Trace World.anyEvent w₀ es w)
    {u : Uuid} (hu : ∃ r ∈ w.sh.db.users, r.id = u) (env : Env) :
    ∃ after : Shared, (inTransaction (inTx (hardRemove u))).alone env w.sh = some (.ok (), after) ∧
      after.mem = w.sh.mem ∧ Erased ctx.lib u w.sh.db after.db := by
  have hkeys := keys_trace hb ht
  have hrows := fun t => hardRemove_rows env w.sh.mem (hkeys t) hu
  have hlog := (hrows .events).trans (rows_untouched (fun _ => rfl) fun _ => rfl).symm
  refine ⟨⟨applyAll w.sh.db (hardRemove u env w.sh.mem w.sh.db).writes, w.sh.mem⟩, ?_, rfl, ?_⟩
  · rw [alone_inTx, settle_ok (hardRemove_result env w.sh.mem), hardRemove_result, hardRemove_mem]
  · refine ⟨fun t htable r hr => ?_, hrows, fun t r hr hnone => ?_, ?_, fun hvalid => ?_⟩
    · rw [hrows] at hr
      obtain ⟨r₀, hr₀, rfl⟩ := List.mem_map.mp hr
      obtain ⟨hmem, hnot⟩ := List.mem_filter.mp hr₀
      have hnot : t.ownedBy u r₀ = false := by simpa using hnot
      by_cases hresource : t = .resources
      · subst hresource
        -- the owner is somebody else, and has modified the resource last
        have hsigned : r₀.lastModifiedBy = r₀.ownerUserId := signed_trace hb ht r₀ hmem
        have hne : r₀.ownerUserId ≠ u := beq_eq_false_iff_ne.mp hnot
        show u ∉ [r₀.ownerUserId, r₀.lastModifiedBy]
        rw [hsigned]
        simpa using Ne.symm hne
      · exact not_mem_unlink htable hresource hnot
    · rw [hrows]
      exact List.mem_map.mpr ⟨r, List.mem_filter.mpr ⟨hr, by rw [not_owned hnone]; rfl⟩,
        unlink_eq_self hnone⟩
    · exact hlog
    · exact (congrArg (fun rows => (Audit.chain ctx.lib).Valid (orderAsc AuditEvent.seqno rows))
        hlog).mpr hvalid

end Runs

/-! ### Ann and her task -/

def context : PlatformContext where
  lib := Libs.sample
  authRateLimiter := { capacity := 5, refillPerMs := 1, refill_nonneg := zero_le_one }
  trustProxy := false

/-- An account, an app that it registers and a resource of its own, in one transaction. -/
def annAndTask : Rpc Unit :=
  (inTransaction (do
    let user ← inTx (UserRepository.create Libs.sample "ann@example.org" "Ann" .owner .active)
    let app ← inTx (Registry.upsertApp
      { appIdentifier := "garden.tasks"
        displayName := "Tasks"
        publisher := "garden"
        appPublicKey := []
        schemaVersion := 1
        resourceTypes := ["task"] } (some user.id))
    let _ ← inTx (ResourceRepository.create
      { appId := app.id
        resourceType := "task"
        appResourceId := Sample.uuid 9
        parentResourceId := none
        ownerUserId := user.id
        contentBlob := [1]
        contentSignature := [2]
        schemaVersion := 1 }))).mapError fun _ => internal "provision"

/-- The transaction, and a machine that checks in. -/
def annWorld : Server Bool Unit where
  procs i := ⟨if i then annAndTask else RpcCall.program context (.checkIn Sample.asAnn), none⟩
  sh := { db := Db.empty, mem := Mem.fresh }

/-- The transaction is committed. -/
def annThere : Server Bool Unit := annWorld.reach
  [(true, Sample.calm 1), (true, Sample.calm 1), (true, Sample.calm 2), (true, Sample.calm 3),
    (true, Sample.calm 4)]

theorem annWorld_beginning : Beginning context annWorld where
  empty := rfl
  idle _ := rfl
  programs i := by
    cases i with
    | false => exact Or.inl ⟨.checkIn Sample.asAnn, rfl⟩
    | true =>
      refine Or.inr (obeys_mapError _ (obeys_inTransaction trivial ?_))
      refine obeys_bind (obeys_inTx (.createUser _ _ _ _)) fun user => ?_
      refine obeys_bind (obeys_inTx (.upsertApp _ _)) fun app => ?_
      exact obeys_bind (obeys_inTx (.createResource _)) fun _ => trivial

theorem deletion_leaves_no_trace_ann : annThere.sh.db.resources.length = 1 ∧ ∃ after : Shared,
    (inTransaction (inTx (hardRemove (Sample.uuid 1)))).alone (Env.at 0 0 5) annThere.sh =
        some (.ok (), after) ∧
      after.mem = annThere.sh.mem ∧ Erased Libs.sample (Sample.uuid 1) annThere.sh.db after.db := by
  obtain ⟨es, -, ht⟩ : ∃ es, [] <:+ es ∧ World.Trace World.anyEvent annWorld es annThere :=
    World.trace_reach (fun _ _ _ _ _ => trivial) .start (by decide +kernel)
  exact ⟨by decide +kernel, deletion_leaves_no_trace annWorld_beginning ht (by decide +kernel) _⟩

end HardRemoval

end SylvaServer
