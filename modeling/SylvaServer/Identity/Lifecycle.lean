/-
  The life of an account.

  The documentation of `UserLifecycle` describes a state machine: an active account may be
  deactivated and a deactivated one reactivated, any account may be anonymized, and an
  anonymized one stays as it is. The `UPDATE`s of the repository look at the id alone, so
  what keeps to the machine is the caller.

  Proved: in every run in which a transaction commits only if each of its operations found its user
  in a state the documentation allows (`Operations`), every committed change is a path of the
  machine, and an anonymized row is never changed again (`lifecycle_documented`).
  `anonymized_reactivated` is a run in which a closed account becomes active again.
-/
import SylvaServer.Model.Context
import SylvaServer.Model.Views
import SylvaServer.ReadCommitted.Demands

namespace SylvaServer.Lifecycle

open ReadCommitted ReadCommitted.Prog

/-! ## The calls -/

/-- An operation of `UserRepository` in the caller's transaction. -/
inductive UserOp where
  | create (email displayName : String) (instanceRole : InstanceRole) (lifecycle : UserLifecycle)
  | updateProfile (id : Uuid) (displayName locale : Option String)
  | updateEmail (id : Uuid) (newEmail : String)
  | setInstanceRole (id : Uuid) (newRole : InstanceRole)
  | deactivate (id : Uuid)
  | reactivate (id : Uuid)
  | anonymize (id : Uuid)

def UserOp.program (lib : Libs) : UserOp → Query Unit
  | .create email displayName instanceRole lifecycle => do
    let _ ← inTx (UserRepository.create lib email displayName instanceRole lifecycle)
  | .updateProfile id displayName locale => do
    let _ ← inTx (UserRepository.updateProfile id displayName locale)
  | .updateEmail id newEmail => do
    let _ ← inTx (UserRepository.updateEmail lib id newEmail)
  | .setInstanceRole id newRole => do
    let _ ← inTx (UserRepository.setInstanceRole id newRole)
  | .deactivate id => do
    let _ ← inTx (UserRepository.deactivate id)
  | .reactivate id => do
    let _ ← inTx (UserRepository.reactivate id)
  | .anonymize id => do
    let _ ← UserRepository.anonymize lib id

/-- The users with an id are in one of these states. -/
def Meets (id : Uuid) (states : UserLifecycle → Prop) (_ : Env) (db : Db) : Prop :=
  ∀ u ∈ db.users, u.id = id → states u.lifecycle

instance (id : Uuid) (states : UserLifecycle → Prop) [DecidablePred states] (env : Env) (db : Db) :
    Decidable (Meets id states env db) := List.decidableBAll _ _

/-- The statements of the operations, with what the documentation asks of the tables. -/
inductive Operations (lib : Libs) : Catalog Env Db Write LockKey Mem SqlError
  | create (email displayName : String) (instanceRole : InstanceRole) (lifecycle : UserLifecycle) :
      Operations lib _ (UserRepository.create lib email displayName instanceRole lifecycle)
        fun _ _ => True
  | updateProfile (id : Uuid) (displayName locale : Option String) :
      Operations lib _ (UserRepository.updateProfile id displayName locale)
        (Meets id (· ≠ .anonymized))
  | updateEmail (id : Uuid) (newEmail : String) :
      Operations lib _ (UserRepository.updateEmail lib id newEmail) (Meets id (· ≠ .anonymized))
  | setInstanceRole (id : Uuid) (newRole : InstanceRole) :
      Operations lib _ (UserRepository.setInstanceRole id newRole) (Meets id (· ≠ .anonymized))
  | deactivate (id : Uuid) :
      Operations lib _ (UserRepository.deactivate id) (Meets id (· = .active))
  | reactivate (id : Uuid) :
      Operations lib _ (UserRepository.reactivate id) (Meets id (· = .deactivated))
  | emailForUpdate (id : Uuid) :
      Operations lib _ (UserRepository.emailForUpdate id) fun _ _ => True
  | redact (id : Uuid) :
      Operations lib _ (UserRepository.redact lib id) (Meets id (· ≠ .anonymized))

theorem obeys_program (lib : Libs) (ops : List UserOp) :
    (inTransaction (inOrder (ops.map (UserOp.program lib)))).Obeys (.listed (Operations lib)) := by
  refine obeys_inTransaction trivial (obeys_inOrder fun q hq => ?_)
  obtain ⟨op, -, rfl⟩ := List.mem_map.mp hq
  cases op with
  | create email displayName instanceRole lifecycle =>
    exact ⟨⟨_, .create email displayName instanceRole lifecycle⟩, fun r => by cases r <;> trivial⟩
  | updateProfile id displayName locale =>
    exact ⟨⟨_, .updateProfile id displayName locale⟩, fun r => by cases r <;> trivial⟩
  | updateEmail id newEmail =>
    exact ⟨⟨_, .updateEmail id newEmail⟩, fun r => by cases r <;> trivial⟩
  | setInstanceRole id newRole =>
    exact ⟨⟨_, .setInstanceRole id newRole⟩, fun r => by cases r <;> trivial⟩
  | deactivate id => exact ⟨⟨_, .deactivate id⟩, fun r => by cases r <;> trivial⟩
  | reactivate id => exact ⟨⟨_, .reactivate id⟩, fun r => by cases r <;> trivial⟩
  | anonymize id =>
    refine obeys_bind (obeys_bind ⟨⟨_, .emailForUpdate id⟩, fun _ => trivial⟩ fun email => ?_)
      fun _ => trivial
    exact obeys_bind ⟨⟨_, .redact id⟩, fun _ => trivial⟩ fun _ => trivial

/-! ## The documented machine -/

/-- What is left of a closed account. -/
def Redacted (u : User) : Prop :=
  u.email = UserRepository.redactedEmail u.id ∧ u.displayName = "[deleted user]" ∧ u.locale = none

/-- One step of an account. -/
def Moves (u u' : User) : Prop :=
  u'.id = u.id ∧
    match u.lifecycle, u'.lifecycle with
    | .pendingInvite, .pendingInvite => True
    | .active, .active => True
    | .deactivated, .deactivated => True
    | .active, .deactivated => True
    | .deactivated, .active => True
    | .anonymized, _ => False
    | _, .anonymized => Redacted u'
    | _, _ => False

/-- Rows are added, moved along the machine and never removed. -/
def Documented : Option User → Option User → Prop
  | none, _ => True
  | some u, some u' => Moves u u'
  | some _, none => False

/-- An account that is not closed is changed without a change of its state. -/
theorem moves_same {u u' : User} (hopen : u.lifecycle ≠ .anonymized) (hid : u'.id = u.id)
    (hlifecycle : u'.lifecycle = u.lifecycle) : Moves u u' := by
  refine ⟨hid, ?_⟩
  rw [hlifecycle]
  cases hl : u.lifecycle with
  | anonymized => exact absurd hl hopen
  | pendingInvite => trivial
  | active => trivial
  | deactivated => trivial

theorem moves_anonymized {u u' : User} (h : u.lifecycle = .anonymized) : ¬ Moves u u' := by
  rintro ⟨-, hmove⟩
  rw [h] at hmove
  exact hmove

/-- A path of the machine keeps the id, and from a closed account it leads nowhere. -/
theorem moves_path {u : User} {v' : Option User}
    (h : Relation.ReflTransGen Documented (some u) v') :
    ∃ u', v' = some u' ∧ u'.id = u.id ∧ Relation.ReflTransGen Moves u u' ∧
      (u.lifecycle = .anonymized → u' = u) := by
  induction h with
  | refl => exact ⟨u, rfl, rfl, .refl, fun _ => rfl⟩
  | @tail v v' _ hstep ih =>
    obtain ⟨u₁, rfl, hid, hpath, hclosed⟩ := ih
    cases v' with
    | none => exact hstep.elim
    | some u' =>
      have hmove : Moves u₁ u' := hstep
      refine ⟨u', rfl, hmove.1.trans hid, hpath.tail hmove, fun hl => ?_⟩
      rw [hclosed hl] at hmove
      exact absurd hmove (moves_anonymized hl)

/-! ## Requests in a state the documentation allows -/

section Runs

variable {lib : Libs} {Pid : Type} [DecidableEq Pid] [Fintype Pid] {calls : Pid → List UserOp}
  {es : List (TransactionEvent Pid Unit)} {w₀ w w' : Transactions Pid Unit} {i : Pid}
  {c : Choice Env SqlError}

/-- An `UPDATE` of the user with an id. -/
theorem lawful_update {db : Db} (mem : Mem) {id : Uuid} {f : User → User}
    (hkeyed : Keyed (Table.key .users) db.users) (hid : ∀ u, (f u).id = u.id)
    (hmoves : ∀ u ∈ db.users, u.id = id → Moves u (f u)) :
    (Table.view .users).Lawful (fun _ => Documented) db
      (updateRows .users (·.id == id) f mem db).writes :=
  lawful_updateRows mem hkeyed (fun u => congrArg Key.uuid (hid u)) fun u hu hp =>
    hmoves u hu (by simpa using hp)

/-- An operation that finds its user in source follows the machine. -/
theorem operations_follow (lib : Libs) :
    (Operations lib).Follows (Table.view .users) fun _ => Documented := by
  intro β s demand hs env mem db hkeyed hdemand
  cases hs with
  | create email displayName instanceRole lifecycle => exact lawful_insertRow trivial
  | updateProfile id displayName locale =>
    exact lawful_readAs (lawful_update mem hkeyed (fun _ => rfl) fun u hu hid =>
      moves_same (hdemand u hu hid) rfl rfl)
  | updateEmail id newEmail =>
    unfold UserRepository.updateEmail
    split
    · trivial
    · exact lawful_readAs (lawful_update mem hkeyed (fun _ => rfl) fun u hu hid =>
        moves_same (hdemand u hu hid) rfl rfl)
  | setInstanceRole id newRole =>
    exact lawful_readAs (lawful_update mem hkeyed (fun _ => rfl) fun u hu hid =>
      moves_same (hdemand u hu hid) rfl rfl)
  | deactivate id =>
    refine lawful_readAs (lawful_update mem hkeyed (fun _ => rfl) fun u hu hid => ⟨rfl, ?_⟩)
    rw [hdemand u hu hid]
    trivial
  | reactivate id =>
    refine lawful_readAs (lawful_update mem hkeyed (fun _ => rfl) fun u hu hid => ⟨rfl, ?_⟩)
    rw [hdemand u hu hid]
    trivial
  | emailForUpdate id => exact lawful_readAs trivial
  | redact id =>
    unfold UserRepository.redact
    split
    · trivial
    · refine lawful_readAs (lawful_update mem hkeyed (fun _ => rfl) fun u hu hid => ⟨rfl, ?_⟩)
      have hopen := hdemand u hu hid
      have hredacted : UserRepository.redactedEmail id =
          UserRepository.redactedEmail u.id := by rw [hid]
      cases hl : u.lifecycle with
      | anonymized => exact absurd hl hopen
      | pendingInvite => exact ⟨hredacted, rfl, rfl⟩
      | active => exact ⟨hredacted, rfl, rfl⟩
      | deactivated => exact ⟨hredacted, rfl, rfl⟩

/-- The transactions have not begun, and ids are unique. -/
structure Beginning (lib : Libs) (calls : Pid → List UserOp)
    (w₀ : Transactions Pid Unit) : Prop where
  procs : ∀ i, w₀.procs i = ⟨inTransaction (inOrder ((calls i).map (UserOp.program lib))), none⟩
  ids : Keyed (Table.key .users) w₀.sh.db.users

theorem followed_trace {C : List (TransactionEvent Pid Unit) → TransactionEvent Pid Unit → Prop}
    (hb : Beginning lib calls w₀) (ht : World.Trace C w₀ es w) :
    Followed (Operations lib) (Table.view .users) (fun _ => Documented) es w := by
  refine Followed.trace (operations_follow lib) (fun i => ?_) hb.ids (fun i => ?_) ht
  · rw [hb.procs i]
  · rw [hb.procs i]
    exact obeys_program lib (calls i)

/-- One commit moves each account along the machine, and no closed one. -/
theorem moves_step (h : Followed (Operations lib) (Table.view .users) (fun _ => Documented) es w)
    (hs : w.step i c = some w') (hC : CommitsOnly (Heeded (Operations lib)) es ⟨w, i, c, w'⟩)
    {u : User} (hu : u ∈ w.sh.db.users) :
    ∃ u' ∈ w'.sh.db.users, u'.id = u.id ∧ Relation.ReflTransGen Moves u u' ∧
      (u.lifecycle = .anonymized → u' = u) := by
  have hget : w.sh.db.get .users (.uuid u.id) = some u := get_of_mem h.provisional.sound hu
  have hcell := h.cell hs hC (.uuid u.id)
  have hlook : (Table.view .users).look w.sh.db (.uuid u.id) = some u := hget
  rw [hlook] at hcell
  obtain ⟨u', hu', hid, hpath, hclosed⟩ := moves_path hcell
  exact ⟨u', (mem_of_get hu').1, hid, hpath, hclosed⟩

/-- The accounts after a run. -/
structure Machine (es : List (TransactionEvent Pid Unit)) (w : Transactions Pid Unit) : Prop where
  /-- Every step takes each account along a path of the machine. -/
  moves : ∀ e ∈ es, ∀ u ∈ e.before.sh.db.users, ∃ u' ∈ e.after.sh.db.users, u'.id = u.id ∧
    Relation.ReflTransGen Moves u u'
  /-- A closed account stays as it is. -/
  terminal : ∀ e ∈ es, ∀ u ∈ e.before.sh.db.users, u.lifecycle = .anonymized →
    u ∈ e.after.sh.db.users ∧ u ∈ w.sh.db.users

/-- **The lifecycle is the documented one** in every run in which a transaction commits only if its
    operations found their users in source. -/
theorem lifecycle_documented (hb : Beginning lib calls w₀)
    (ht : World.Trace (CommitsOnly (Heeded (Operations lib))) w₀ es w) : Machine es w := by
  have hkept : ∀ e ∈ es, ∀ u ∈ e.before.sh.db.users, ∃ u' ∈ e.after.sh.db.users, u'.id = u.id ∧
      Relation.ReflTransGen Moves u u' ∧ (u.lifecycle = .anonymized → u' = u) := by
    intro e he u hu
    obtain ⟨es', -, ht', hs, hC⟩ := ht.event he
    exact moves_step (followed_trace hb ht') hs hC hu
  refine ⟨fun e he u hu => ?_, ?_⟩
  · obtain ⟨u', hu', hid, hpath, -⟩ := hkept e he u hu
    exact ⟨u', hu', hid, hpath⟩
  · clear hkept
    induction ht with
    | start => exact fun e he => absurd he (by simp)
    | @step es w w' i c ht hs hC ih =>
      have hnext : ∀ u ∈ w.sh.db.users, u.lifecycle = .anonymized → u ∈ w'.sh.db.users := by
        intro u hu hl
        obtain ⟨u', hu', -, -, hclosed⟩ := moves_step (followed_trace hb ht) hs hC hu
        exact hclosed hl ▸ hu'
      intro e he u hu hl
      rcases List.mem_cons.mp he with rfl | he
      · exact ⟨hnext u hu hl, hnext u hu hl⟩
      · obtain ⟨hafter, hu'⟩ := ih e he u hu hl
        exact ⟨hafter, hnext u hu' hl⟩

end Runs

/-! ## A closed account -/

/-- Ann is deactivated, and then reactivated. -/
def suspended (i : Bool) : List UserOp :=
  if i then [.reactivate Sample.ann.id] else [.deactivate Sample.ann.id]

/-- Ann's account is closed, and then reactivated. -/
def closed (i : Bool) : List UserOp :=
  if i then [.reactivate Sample.ann.id] else [.anonymize Sample.ann.id]

/-- Some calls on the sample tables. -/
def starting (calls : Bool → List UserOp) : Transactions Bool Unit where
  procs i := ⟨inTransaction (inOrder ((calls i).map (UserOp.program Libs.sample))), none⟩
  sh := { db := Sample.db, mem := Mem.fresh }

theorem starting_beginning (calls : Bool → List UserOp) :
    Beginning Libs.sample calls (starting calls) where
  procs _ := rfl
  ids := List.nodup_singleton _

/-- **A closed account becomes active again**: nothing in `reactivate` looks at the state. -/
theorem anonymized_reactivated : Beginning Libs.sample closed (starting closed) ∧
    ∃ w w', World.Run World.anyStep (starting closed) w ∧ World.Run World.anyStep w w' ∧
      ∃ u ∈ w.sh.db.users, ∃ u' ∈ w'.sh.db.users, u'.id = u.id ∧ u.lifecycle = .anonymized ∧
        u'.lifecycle = .active :=
  ⟨starting_beginning closed, _, _, World.run_followD _ (Sample.steps false 40 4),
    World.run_followD _ (Sample.steps true 40 3), by decide +kernel⟩

/-- A user whose account is closed. -/
def formerUser : User := { Sample.ann with
  id := Sample.uuid 12
  email := "deleted@example.org"
  lifecycle := .anonymized }

/-- `suspended` beside the closed account. -/
def suspending : Transactions Bool Unit where
  procs := (starting suspended).procs
  sh := { db := applyAll Sample.db [Write.put .users formerUser], mem := Mem.fresh }

theorem suspending_beginning : Beginning Libs.sample suspended suspending where
  procs _ := rfl
  ids := by decide +kernel

/-- The theorem after the deactivation and the reactivation. -/
theorem lifecycle_documented_suspended : ∃ es w,
    World.Trace (CommitsOnly (Heeded (Operations Libs.sample))) suspending es w ∧
      (∃ e ∈ es, e.after.sh.db.users.map User.lifecycle = [.deactivated, .anonymized]) ∧
      w.sh.db.users.map User.lifecycle = [.active, .anonymized] ∧ Machine es w := by
  let c : Choice Env SqlError := Sample.calm 40
  let w₁ := suspending.reach [(false, c)]
  let w₂ := w₁.reach [(false, c)]
  let w₃ := w₂.reach [(false, c)]
  let w₄ := w₃.reach [(true, c)]
  let w₅ := w₄.reach [(true, c)]
  let w₆ := w₅.reach [(true, c)]
  have h₁ : suspending.step false c = some w₁ := World.step_reach (by decide +kernel)
  have h₂ : w₁.step false c = some w₂ := World.step_reach (by decide +kernel)
  have h₃ : w₂.step false c = some w₃ := World.step_reach (by decide +kernel)
  have h₄ : w₃.step true c = some w₄ := World.step_reach (by decide +kernel)
  have h₅ : w₄.step true c = some w₅ := World.step_reach (by decide +kernel)
  have h₆ : w₅.step true c = some w₆ := World.step_reach (by decide +kernel)
  have hsame : w₃.procs true = suspending.procs true :=
    ((World.step_spec h₃).2.2 true (by decide)).trans
      (((World.step_spec h₂).2.2 true (by decide)).trans
        ((World.step_spec h₁).2.2 true (by decide)))
  have hfirst := Followed.transaction .start h₁ h₂ h₃ rfl rfl rfl
    (fun r => by cases r <;> first | exact Or.inl ⟨_, rfl⟩ | exact Or.inr ⟨_, rfl⟩)
    (@Operations.deactivate Libs.sample Sample.ann.id) (by decide +kernel)
  have hboth := Followed.transaction hfirst h₄ h₅ h₆ (congrArg Proc.prog hsame) rfl rfl
    (fun r => by cases r <;> first | exact Or.inl ⟨_, rfl⟩ | exact Or.inr ⟨_, rfl⟩)
    (@Operations.reactivate Libs.sample Sample.ann.id) (by decide +kernel)
  have ht := Followed.commitsOnly hboth
  refine ⟨_, w₆, ht, ⟨⟨w₂, false, c, w₃⟩, ?_, by decide +kernel⟩, by decide +kernel,
    lifecycle_documented suspending_beginning ht⟩
  simp

end SylvaServer.Lifecycle
