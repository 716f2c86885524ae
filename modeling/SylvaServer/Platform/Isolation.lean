/-
  Owner isolation of the `Resources` service, as a statement about two runs.

  Two stores with the same rows of one user, whatever the others own, give this user the same
  answers and the same effect on her rows. `change_seq` is left aside: all users draw it from one
  sequence. What shows through is the unique key `(app_id, resource_type, app_resource_id)`,
  which knows no owner (`key_shows`).

  Proved: what the two runs have in common through `authenticate` and each call
  (`abreast_authenticate`, `abreast_as`), and the theorem for whole runs (`owner_isolated`).
-/
import SylvaServer.ReadCommitted.TwoRuns
import SylvaServer.Model.Resources

namespace SylvaServer.Resources

open ReadCommitted ReadCommitted.Prog

/-! ## The six calls -/

inductive Call where
  | create (req : CreateResourceRequest)
  | read (id : String)
  | update (req : UpdateResourceRequest)
  | delete (id : String)
  | list (req : ListResourcesRequest)
  | changes (req : StreamChangesRequest)

inductive Answer where
  | resource (r : ProtoResource)
  | deleted
  | page (p : ListResourcesResponse)
  | changes (rows : List ProtoResource)
deriving DecidableEq

/-- The call of an authenticated user. -/
def Call.as (lib : Libs) (owner : Uuid) : Call → Rpc Answer
  | .create req => do pure (.resource (← createResource.as lib owner req))
  | .read id => do pure (.resource (← readResource.as lib owner id))
  | .update req => do pure (.resource (← updateResource.as lib owner req))
  | .delete id => do
    deleteResource.as lib owner id
    pure .deleted
  | .list req => do pure (.page (← listResources.as lib owner req))
  | .changes req => do pure (.changes (← streamChanges.as lib owner req))

/-- The call as it arrives. -/
def Call.program (lib : Libs) (metadata : Metadata) : Call → Rpc Answer
  | .create req => do pure (.resource (← createResource lib metadata req))
  | .read id => do pure (.resource (← readResource lib metadata id))
  | .update req => do pure (.resource (← updateResource lib metadata req))
  | .delete id => do
    deleteResource lib metadata id
    pure .deleted
  | .list req => do pure (.page (← listResources lib metadata req))
  | .changes req => do pure (.changes (← streamChanges lib metadata req))

theorem program_eq (lib : Libs) (metadata : Metadata) (call : Call) :
    call.program lib metadata = authenticate lib metadata >>= fun user => call.as lib user.id := by
  cases call <;> exact Prog.bind_assoc _ _ _

/-! ## What a user can tell of a store -/

/-- The rows of a user. -/
def ownRows (owner : Uuid) (db : Db) : List Resource :=
  db.resources.filter (·.ownerUserId == owner)

/-- The rows of all the others. -/
def otherRows (owner : Uuid) (db : Db) : List Resource :=
  db.resources.filter (·.ownerUserId != owner)

/-- A row, its `change_seq` left aside. -/
def withoutSeq (r : Resource) : Resource := { r with changeSeq := 0 }

/-- Two stores that differ in rows of other users and in the sequences at most. -/
structure SameFor (owner : Uuid) (sh sh' : Shared) : Prop where
  tables : ∀ t, t ≠ .resources → sh.db.rows t = sh'.db.rows t
  own : ownRows owner sh.db = ownRows owner sh'.db
  keyed : Keyed (Table.key .resources) sh.db.resources
  keyed' : Keyed (Table.key .resources) sh'.db.resources
  /-- The sequence has values left in both or in none. -/
  seq : sh.mem.changeSeq < lastSeq ↔ sh'.mem.changeSeq < lastSeq

/-- The bearer token belongs to sessions of this user only. -/
def IssuedBy (lib : Libs) (metadata : Metadata) (owner : Uuid) (db : Db) : Prop :=
  ∀ token, bearerToken metadata = .ok token →
    ∀ s ∈ db.sessions, s.tokenHash = Auth.hashToken lib token → s.userId = owner

/-- An id that no row of another user has. -/
def NewId (owner : Uuid) (db : Db) (id : Uuid) : Prop := ∀ r ∈ otherRows owner db, r.id ≠ id

/-- The call creates a resource under a key that another user's row has. -/
def Call.KeyTaken (lib : Libs) (owner : Uuid) (db : Db) : Call → Prop
  | .create req => ∃ r ∈ otherRows owner db, lib.parseUuid (trim req.appId) = some r.appId ∧
      req.resourceType = r.resourceType ∧ lib.parseUuid (trim req.appResourceId) =
        some r.appResourceId
  | _ => False

/-- The same answer, the `change_seq` of a resource left aside. -/
def SameAnswer (r r' : Except Status Answer) : Prop :=
  r = r' ∨ ∃ x y, r = .ok (.resource x) ∧ r' = .ok (.resource y) ∧
    ({ x with changeSeq := 0 } : ProtoResource) = { y with changeSeq := 0 }

/-- What two runs, begun with `db₀` and `db₀'`, have in common: the rows of the user. The rows of
    the others are those of the beginning. -/
structure Kept (owner : Uuid) (db₀ db₀' db db' : Db) : Prop where
  own : (ownRows owner db).map withoutSeq = (ownRows owner db').map withoutSeq
  others : otherRows owner db = otherRows owner db₀
  others' : otherRows owner db' = otherRows owner db₀'

/-! ## Two runs side by side -/

section Runs

variable {lib : Libs} {owner : Uuid} {sh₀ sh₀' sh sh' : Shared}

/-- Two runs before they write a resource. -/
structure Twin (owner : Uuid) (sh₀ sh₀' sh sh' : Shared) : Prop where
  same : SameFor owner sh sh'
  others : otherRows owner sh.db = otherRows owner sh₀.db
  others' : otherRows owner sh'.db = otherRows owner sh₀'.db

theorem Twin.kept (h : Twin owner sh₀ sh₀' sh sh') : Kept owner sh₀.db sh₀'.db sh.db sh'.db :=
  ⟨congrArg _ h.same.own, h.others, h.others'⟩

/-- The ids the server makes up are new in both stores. -/
abbrev FreshIds (owner : Uuid) (sh₀ sh₀' : Shared) (c : Choice Env SqlError) : Prop :=
  NewId owner sh₀.db c.env.uuid ∧ NewId owner sh₀'.db c.env.uuid

/-- Two calls of the user that go together. -/
abbrev Together (owner : Uuid) (sh₀ sh₀' : Shared) (p : Rpc Answer) (sh sh' : Shared) : Prop :=
  Abreast (Kept owner sh₀.db sh₀'.db) SameAnswer (FreshIds owner sh₀ sh₀')
    ⟨p, none⟩ sh ⟨p, none⟩ sh'

theorem together_fail (h : Twin owner sh₀ sh₀' sh sh') (r : Except Status Answer) :
    Together owner sh₀ sh₀' (.ret r) sh sh' := Abreast.ret h.kept (Or.inl rfl)

/-- A check of the request, which sees no store. -/
theorem together_ofExcept {β : Type} {x : Except Status β} {k : β → Rpc Answer}
    (h : Twin owner sh₀ sh₀' sh sh') (hk : ∀ b, x = .ok b → Together owner sh₀ sh₀' (k b) sh sh') :
    Together owner sh₀ sh₀' (ofExcept x >>= k) sh sh' := by
  cases x with
  | error e => exact together_fail h _
  | ok b => exact hk b rfl

/-- A query that sees no row of others. -/
theorem together_query {β : Type} {f : Env → Db → β} {g : SqlError → Status} {k : β → Rpc Answer}
    (h : Twin owner sh₀ sh₀' sh sh') (hf : ∀ env, f env sh.db = f env sh'.db)
    (hk : ∀ env, Together owner sh₀ sh₀' (k (f env sh.db)) sh sh') :
    Together owner sh₀ sh₀' ((onPool (select f)).mapError g >>= k) sh sh' := by
  refine Abreast.pool h.kept (fun e => together_fail h _) fun c _ => ?_
  refine .idle (f c.env sh.db) (f c.env sh'.db) rfl rfl ⟨rfl, rfl⟩ ⟨rfl, rfl⟩ ?_
  rw [← hf c.env]
  exact hk c.env

/-- The same writes outside the table of resources. -/
theorem Twin.elsewhere (h : Twin owner sh₀ sh₀' sh sh') {ws : List Write}
    (hws : ∀ w ∈ ws, w.table ≠ .resources) :
    Twin owner sh₀ sh₀' ⟨applyAll sh.db ws, sh.mem⟩ ⟨applyAll sh'.db ws, sh'.mem⟩ := by
  have hres : ∀ db : Db, (applyAll db ws).resources = db.resources := fun db =>
    applyAll_rows_of_ne db ws hws
  refine ⟨⟨fun t ht => applyAll_rows_congr ws (h.same.tables t ht), ?_, ?_, ?_, h.same.seq⟩, ?_, ?_⟩
  · unfold ownRows
    rw [hres, hres]
    exact h.same.own
  · rw [hres]
    exact h.same.keyed
  · rw [hres]
    exact h.same.keyed'
  · rw [← h.others]
    unfold otherRows
    rw [hres]
  · rw [← h.others']
    unfold otherRows
    rw [hres]

/-- The activity bump, the same in both runs. -/
theorem together_touch {id : Uuid} {p : Rpc Answer} (h : Twin owner sh₀ sh₀' sh sh')
    (hp : ∀ sh sh', Twin owner sh₀ sh₀' sh sh' → Together owner sh₀ sh₀' p sh sh') :
    Together owner sh₀ sh₀' ((onPool (SessionRepository.touchLastSeen id)).attempt >>= fun _ => p)
      sh sh' := by
  refine Abreast.pool h.kept (fun e => hp _ _ h) fun c _ => ?_
  have hsessions : sh'.db.rows .sessions = sh.db.rows .sessions :=
    (h.same.tables .sessions (by simp)).symm
  have hsame : SessionRepository.touchLastSeen id c.env sh'.mem sh'.db =
      { SessionRepository.touchLastSeen id c.env sh.mem sh.db with mem := sh'.mem } := by
    simp only [SessionRepository.touchLastSeen, updateRows, readAs, Except.bind, hsessions]
  have hmem : (SessionRepository.touchLastSeen id c.env sh.mem sh.db).mem = sh.mem := rfl
  have hlocks : (SessionRepository.touchLastSeen id c.env sh.mem sh.db).locks = [] := rfl
  have hok : (SessionRepository.touchLastSeen id c.env sh.mem sh.db).result = .ok () := rfl
  have hws : ∀ w ∈ (SessionRepository.touchLastSeen id c.env sh.mem sh.db).writes,
      w.table ≠ .resources := by
    intro w hw
    obtain ⟨s, -, rfl⟩ := List.mem_map.mp hw
    simp
  rw [hsame]
  by_cases hnil : (SessionRepository.touchLastSeen id c.env sh.mem sh.db).writes = []
  · exact .idle () () hok hok ⟨hnil, hlocks⟩ ⟨hnil, hlocks⟩ (hmem ▸ hp _ _ h)
  · exact .wrote () () hok hok hnil hnil (fun e => hmem ▸ hp _ _ h)
      (hmem ▸ hp _ _ (h.elsewhere hws))

/-- **`authenticate` in two runs**: both fail, or both go on with the user. -/
theorem together_authenticate {metadata : Metadata} {f : User → Rpc Answer}
    (h : Twin owner sh₀ sh₀' sh sh') (hissued : IssuedBy lib metadata owner sh.db)
    (hf : ∀ user sh sh', user.id = owner → Twin owner sh₀ sh₀' sh sh' →
      Together owner sh₀ sh₀' (f user) sh sh') :
    Together owner sh₀ sh₀' (authenticate lib metadata >>= f) sh sh' := by
  have hsessions : sh.db.rows .sessions = sh'.db.rows .sessions := h.same.tables .sessions (by simp)
  have husers : sh.db.rows .users = sh'.db.rows .users := h.same.tables .users (by simp)
  unfold authenticate
  cases htoken : bearerToken metadata with
  | error e => exact together_fail h _
  | ok token =>
    simp only [Prog.ofExcept, bind_ok, Prog.bind_assoc]
    refine together_query h (fun env => ?_) fun env => ?_
    · simp only [hsessions, husers]
    · cases hsession : sh.db.sessions.find? _ with
      | none => exact together_fail h _
      | some session =>
        have howner : session.userId = owner := by
          have hfound := List.find?_some hsession
          simp only [Bool.and_eq_true, beq_iff_eq] at hfound
          exact hissued token htoken session (List.mem_of_find?_eq_some hsession) hfound.1.1.1
        simp only [Prog.bind_assoc]
        refine together_query h (fun env => ?_) fun env => ?_
        · simp only [husers]
        · cases huser : sh.db.users.find? _ with
          | none => exact together_fail h _
          | some user =>
            have hid := List.find?_some huser
            simp only [Bool.and_eq_true, beq_iff_eq] at hid
            simp only [Prog.bind_assoc]
            exact together_touch h fun v v' hv => hf user v v' (hid.1.trans howner) hv

/-! ### Reads -/

/-- A search among the user's rows. -/
theorem find?_own {p : Resource → Bool} (hp : ∀ r, p r → r.ownerUserId = owner) (db : Db) :
    db.resources.find? p = (ownRows owner db).find? p := by
  unfold ownRows
  rw [List.find?_filter]
  congr 1
  funext r
  cases hr : p r with
  | false => simp
  | true => simp [hp r hr]

/-- A selection among the user's rows. -/
theorem filter_own {p : Resource → Bool} (hp : ∀ r, p r → r.ownerUserId = owner) (db : Db) :
    db.resources.filter p = (ownRows owner db).filter p := by
  unfold ownRows
  rw [List.filter_filter]
  refine List.filter_congr fun r _ => ?_
  cases hr : p r with
  | false => simp
  | true => simp [hp r hr]

theorem owned_owner {id : Uuid} {r : Resource} (h : ResourceRepository.owned id owner r) :
    r.ownerUserId = owner ∧ r.id = id := by
  simp only [ResourceRepository.owned, Bool.and_eq_true, beq_iff_eq] at h
  exact ⟨h.1.2, h.1.1⟩

theorem listed_owner {appId : Uuid} {resourceType : String} {deleted : Bool} {r : Resource}
    (h : ResourceRepository.listed appId resourceType owner deleted r) : r.ownerUserId = owner := by
  simp only [ResourceRepository.listed, Bool.and_eq_true, beq_iff_eq] at h
  exact h.1.2

theorem inFeed_owner {appId : Uuid} {resourceType : Option String} {r : Resource}
    (h : ResourceRepository.inFeed appId resourceType owner r) : r.ownerUserId = owner := by
  simp only [ResourceRepository.inFeed, Bool.and_eq_true, beq_iff_eq] at h
  exact h.1.1

/-- Every row of the table is the user's or another's. -/
theorem any_resources (owner : Uuid) (p : Resource → Bool) (db : Db) :
    db.resources.any p = ((ownRows owner db).any p || (otherRows owner db).any p) := by
  rw [Bool.eq_iff_iff]
  simp only [ownRows, otherRows, Bool.or_eq_true, List.any_eq_true, List.mem_filter, beq_iff_eq,
    bne_iff_ne]
  constructor
  · rintro ⟨r, hr, hp⟩
    by_cases ho : r.ownerUserId = owner
    · exact Or.inl ⟨r, ⟨hr, ho⟩, hp⟩
    · exact Or.inr ⟨r, ⟨hr, ho⟩, hp⟩
  · rintro (⟨r, ⟨hr, -⟩, hp⟩ | ⟨r, ⟨hr, -⟩, hp⟩) <;> exact ⟨r, hr, hp⟩

theorem together_read (h : Twin owner sh₀ sh₀' sh sh') (id : String) :
    Together owner sh₀ sh₀' ((Call.read id).as lib owner) sh sh' := by
  simp only [Call.as, readResource.as, Prog.bind_assoc]
  refine together_ofExcept h fun id _ => together_query h (fun env => ?_) fun env => ?_
  · rw [find?_own fun r hr => (owned_owner hr).1, find?_own fun r hr => (owned_owner hr).1,
      h.same.own]
  · cases sh.db.resources.find? (ResourceRepository.owned id owner) <;> exact together_fail h _

theorem together_list (h : Twin owner sh₀ sh₀' sh sh') (req : ListResourcesRequest) :
    Together owner sh₀ sh₀' ((Call.list req).as lib owner) sh sh' := by
  simp only [Call.as, listResources.as]
  split
  · exact together_fail h _
  simp only [ResourceRepository.listOwned, Prog.mapError_bind, Prog.bind_assoc]
  refine together_ofExcept h fun appId _ => ?_
  have hown : ∀ db, db.resources.filter (ResourceRepository.listed appId req.resourceType owner
      req.includeDeleted) = (ownRows owner db).filter (ResourceRepository.listed appId
        req.resourceType owner req.includeDeleted) := filter_own fun r hr => listed_owner hr
  refine together_query h (fun env => ?_) fun env => together_query h (fun env => ?_) fun env => ?_
  · rw [hown, hown, h.same.own]
  · rw [hown, hown, h.same.own]
  · exact together_fail h _

theorem together_changes (h : Twin owner sh₀ sh₀' sh sh') (req : StreamChangesRequest) :
    Together owner sh₀ sh₀' ((Call.changes req).as lib owner) sh sh' := by
  simp only [Call.as, streamChanges.as, Prog.bind_assoc]
  refine together_ofExcept h fun appId _ => together_query h (fun env => ?_) fun env => ?_
  · have howner : ∀ r, (ResourceRepository.inFeed appId (typeFilter req.resourceType) owner r &&
        decide (sinceCursor req.sinceCursor < r.changeSeq)) → r.ownerUserId = owner :=
      fun r hr => inFeed_owner (Bool.and_eq_true _ _ ▸ hr).1
    rw [filter_own howner, filter_own howner, h.same.own]
  · exact together_fail h _

/-! ### Writes -/

/-- Both runs write the same row of the user, `change_seq` left aside. -/
theorem Twin.put (h : Twin owner sh₀ sh₀' sh sh') {row row' : Resource}
    (hown : row.ownerUserId = owner) (hrow : withoutSeq row = withoutSeq row')
    (hfree : NewId owner sh.db row.id) (hfree' : NewId owner sh'.db row.id) :
    Kept owner sh₀.db sh₀'.db (sh.db.put .resources row) (sh'.db.put .resources row') := by
  obtain ⟨hid, hown'⟩ : row.id = row'.id ∧ row'.ownerUserId = owner := by
    have hid : (withoutSeq row).id = (withoutSeq row').id := by rw [hrow]
    have howner : (withoutSeq row).ownerUserId = (withoutSeq row').ownerUserId := by rw [hrow]
    exact ⟨hid, howner.symm.trans hown⟩
  -- a write of the user's row, in the user's part and in the rest
  have hput : ∀ (db : Db) (r : Resource), r.ownerUserId = owner → NewId owner db r.id →
      ownRows owner (db.put .resources r) = putRow (Table.key .resources) r (ownRows owner db) ∧
        otherRows owner (db.put .resources r) = otherRows owner db := by
    intro db r hr hnew
    have hmine : ∀ x ∈ db.resources, Table.key .resources x = Table.key .resources r →
        x.ownerUserId = owner := by
      intro x hx hk
      by_contra hne
      exact hnew x (List.mem_filter.mpr ⟨hx, by simpa using hne⟩) (by simpa [Table.key] using hk)
    have hrows : (db.put .resources r).resources = putRow (Table.key .resources) r db.resources :=
      put_rows_self _ _ _
    unfold ownRows otherRows
    rw [hrows]
    exact ⟨filter_putRow_of_pos (by simpa using hr) fun x hx hk => by simpa using hmine x hx hk,
      filter_putRow_of_neg (by simpa using hr) fun x hx hk => by simpa using hmine x hx hk⟩
  obtain ⟨hmine, hothers⟩ := hput sh.db row hown hfree
  obtain ⟨hmine', hothers'⟩ := hput sh'.db row' hown' (hid ▸ hfree')
  refine ⟨?_, hothers.trans h.others, hothers'.trans h.others'⟩
  have hkey : ∀ r : Resource, Table.key .resources (withoutSeq r) = Table.key .resources r :=
    fun _ => rfl
  rw [hmine, hmine', map_putRow hkey, map_putRow hkey, hrow, h.same.own]

/-- The sequence gives a value in both runs or in none. -/
theorem nextval_both (h : Twin owner sh₀ sh₀' sh sh') :
    (∃ e, nextval sh.mem.changeSeq = .error e ∧ nextval sh'.mem.changeSeq = .error e) ∨
      ∃ n n', nextval sh.mem.changeSeq = .ok n ∧ nextval sh'.mem.changeSeq = .ok n' := by
  by_cases hlt : sh.mem.changeSeq < lastSeq
  · exact Or.inr ⟨_, _, if_pos hlt, if_pos (h.same.seq.mp hlt)⟩
  · exact Or.inl ⟨_, if_neg hlt, if_neg fun hlt' => hlt (h.same.seq.mpr hlt')⟩

theorem toProto_withoutSeq {row row' : Resource} (h : withoutSeq row = withoutSeq row') :
    ({ toProto row with changeSeq := 0 } : ProtoResource) =
      { toProto row' with changeSeq := 0 } := by
  have hrow : ∀ r, ({ toProto r with changeSeq := 0 } : ProtoResource) = toProto (withoutSeq r) :=
    fun _ => rfl
  rw [hrow, hrow, h]

/-- The user writes a resource in both runs, or the statement fails in both. -/
inductive BothWrite (owner : Uuid) (sh₀ sh₀' sh sh' : Shared) :
    Outcome Write LockKey Mem SqlError Resource →
    Outcome Write LockKey Mem SqlError Resource → Prop where
  | failed (e : SqlError) (m m' : Mem) : BothWrite owner sh₀ sh₀' sh sh' (failed e m) (failed e m')
  | wrote (row row' : Resource) (ls ls' : List LockKey) (m m' : Mem)
      (hrow : withoutSeq row = withoutSeq row')
      (h : Kept owner sh₀.db sh₀'.db (sh.db.put .resources row) (sh'.db.put .resources row')) :
      BothWrite owner sh₀ sh₀' sh sh' ⟨.ok row, [.put .resources row], ls, m⟩
        ⟨.ok row', [.put .resources row'], ls', m'⟩

/-- **An update in two runs**: no row of the user's is there, or the same one is changed. -/
theorem updateOne_both (h : Twin owner sh₀ sh₀' sh sh') (id : Uuid)
    {f : Env → ℤ → Resource → Resource} (hid : ∀ env n r, (f env n r).id = r.id)
    (howner : ∀ env n r, (f env n r).ownerUserId = r.ownerUserId)
    (hseq : ∀ env n n' r, withoutSeq (f env n r) = withoutSeq (f env n' r)) (env : Env) :
    (ResourceRepository.updateOne id owner f env sh.mem sh.db = ⟨.ok none, [], [], sh.mem⟩ ∧
      ResourceRepository.updateOne id owner f env sh'.mem sh'.db = ⟨.ok none, [], [], sh'.mem⟩) ∨
    ∃ o o', BothWrite owner sh₀ sh₀' sh sh' o o' ∧
      ResourceRepository.updateOne id owner f env sh.mem sh.db =
        readAs (fun row => .ok (some row)) o ∧
      ResourceRepository.updateOne id owner f env sh'.mem sh'.db =
        readAs (fun row => .ok (some row)) o' := by
  unfold ResourceRepository.updateOne
  have hfind : ∀ db, db.resources.find? (ResourceRepository.owned id owner) =
      (ownRows owner db).find? (ResourceRepository.owned id owner) :=
    find?_own fun r hr => (owned_owner hr).1
  rw [hfind, hfind, ← h.same.own]
  cases hr : (ownRows owner sh.db).find? (ResourceRepository.owned id owner) with
  | none => exact Or.inl ⟨rfl, rfl⟩
  | some r =>
    have hmem := List.mem_of_find?_eq_some hr
    obtain ⟨hmine, -⟩ := owned_owner (List.find?_some hr)
    -- no row of another user has the id of the row found
    have hfree : ∀ db, Keyed (Table.key .resources) db.resources → r ∈ ownRows owner db →
        NewId owner db r.id := by
      intro db hkeyed hown x hx hxr
      obtain rfl : x = r := hkeyed.eq (List.mem_of_mem_filter hx) (List.mem_of_mem_filter hown)
        (congrArg Key.uuid hxr)
      simpa [hmine] using (List.mem_filter.mp hx).2
    refine Or.inr ?_
    rcases nextval_both h with ⟨e, he, he'⟩ | ⟨n, n', hn, hn'⟩
    · simp only [he, he']
      exact ⟨_, _, .failed e sh.mem sh'.mem, rfl, rfl⟩
    · simp only [hn, hn']
      refine ⟨_, _, .wrote (f env n r) (f env n' r) [] [] _ _ (hseq env n n' r) (h.put ?_
        (hseq env n n' r) ?_ ?_), rfl, rfl⟩
      · rw [howner, hmine]
      · rw [hid]
        exact hfree _ h.same.keyed hmem
      · rw [hid]
        exact hfree _ h.same.keyed' (h.same.own ▸ hmem)

theorem together_update (h : Twin owner sh₀ sh₀' sh sh') (req : UpdateResourceRequest) :
    Together owner sh₀ sh₀' ((Call.update req).as lib owner) sh sh' := by
  simp only [Call.as, updateResource.as, Prog.bind_assoc]
  refine together_ofExcept h fun id _ => together_ofExcept h fun parent _ => ?_
  refine Abreast.pool h.kept (fun e => together_fail h _) fun c _ => ?_
  have hboth := updateOne_both h id
    (f := fun env changeSeq r => { r with
      contentBlob := req.contentBlob
      contentSignature := req.contentSignature
      schemaVersion := req.schemaVersion
      parentResourceId := parent
      lastModifiedBy := owner
      updatedAt := env.pgNow
      changeSeq := changeSeq })
    (fun _ _ _ => rfl) (fun _ _ _ => rfl) (fun _ _ _ _ => rfl) c.env
  unfold ResourceRepository.updateOwned
  rcases hboth with ⟨ho, ho'⟩ | ⟨o, o', hw, ho, ho'⟩
  · rw [ho, ho']
    exact .idle none none rfl rfl ⟨rfl, rfl⟩ ⟨rfl, rfl⟩ (together_fail h _)
  · rw [ho, ho']
    cases hw with
    | failed e m m' => exact .failed e rfl rfl (Abreast.ret h.kept (Or.inl rfl))
    | wrote row row' ls ls' m m' hrow hkept =>
      refine .wrote (some row) (some row') rfl rfl (by simp [readAs, Except.bind])
        (by simp [readAs, Except.bind])
        (fun e => Abreast.ret h.kept (Or.inl rfl)) (Abreast.ret hkept (Or.inr ?_))
      exact ⟨_, _, rfl, rfl, toProto_withoutSeq hrow⟩

theorem together_delete (h : Twin owner sh₀ sh₀' sh sh') (id : String) :
    Together owner sh₀ sh₀' ((Call.delete id).as lib owner) sh sh' := by
  simp only [Call.as, deleteResource.as, Prog.bind_assoc]
  refine together_ofExcept h fun id _ => ?_
  refine Abreast.pool h.kept (fun e => together_fail h _) fun c _ => ?_
  have hboth := updateOne_both h id
    (f := fun env changeSeq r => { r with
      deletedAt := some env.pgNow
      updatedAt := env.pgNow
      changeSeq := changeSeq })
    (fun _ _ _ => rfl) (fun _ _ _ => rfl) (fun _ _ _ _ => rfl) c.env
  unfold ResourceRepository.softDeleteOwned
  rcases hboth with ⟨ho, ho'⟩ | ⟨o, o', hw, ho, ho'⟩
  · rw [ho, ho']
    exact .idle false false rfl rfl ⟨rfl, rfl⟩ ⟨rfl, rfl⟩ (together_fail h _)
  · rw [ho, ho']
    cases hw with
    | failed e m m' => exact .failed e rfl rfl (Abreast.ret h.kept (Or.inl rfl))
    | wrote row row' ls ls' m m' hrow hkept =>
      exact .wrote true true rfl rfl (by simp [readAs, Except.bind]) (by simp [readAs, Except.bind])
        (fun e => Abreast.ret h.kept (Or.inl rfl)) (Abreast.ret hkept (Or.inl rfl))

/-! ### Create -/

theorem parseUuid_ok {value field : String} {id : Uuid} (h : parseUuid lib value field = .ok id) :
    lib.parseUuid (trim value) = some id := by
  unfold parseUuid at h
  split at h
  · next id' hid =>
    rw [hid]
    simpa using h
  · exact absurd h (by simp)

/-- The same insert in both runs, refused in both or in none. -/
theorem insertRow_both {row row' : Resource} {taken taken' : Bool} {refs : List (Table × Key)}
    {ls : List LockKey} {m m' : Mem} (hrefs : refs.any sh.db.dangles = refs.any sh'.db.dangles)
    (hclash : ((sh.db.rows .resources).any
      (fun r => Table.key .resources r == Table.key .resources row) || taken) =
        ((sh'.db.rows .resources).any (fun r => Table.key .resources r == Table.key .resources row')
          || taken'))
    (hrow : withoutSeq row = withoutSeq row')
    (h : Kept owner sh₀.db sh₀'.db (sh.db.put .resources row) (sh'.db.put .resources row')) :
    BothWrite owner sh₀ sh₀' sh sh' (insertRow .resources row taken refs ls m sh.db)
      (insertRow .resources row' taken' refs ls m' sh'.db) := by
  unfold insertRow
  rw [hclash, hrefs]
  split
  · exact .failed _ _ _
  · split
    · exact .failed _ _ _
    · exact .wrote row row' _ _ m m' hrow h

/-- A row with the unique key of a new resource. -/
def sameKey (new : NewResource) (r : Resource) : Bool :=
  r.appId == new.appId && r.resourceType == new.resourceType && r.appResourceId == new.appResourceId

/-- **An insert in two runs**, where another user's row has the key in both stores or in none. -/
theorem create_both (h : Twin owner sh₀ sh₀' sh sh') {new : NewResource} {env : Env}
    (howner : new.ownerUserId = owner) (hid : NewId owner sh.db env.uuid)
    (hid' : NewId owner sh'.db env.uuid)
    (hkey : (otherRows owner sh.db).any (sameKey new) =
      (otherRows owner sh'.db).any (sameKey new)) :
    BothWrite owner sh₀ sh₀' sh sh' (ResourceRepository.create new env sh.mem sh.db)
      (ResourceRepository.create new env sh'.mem sh'.db) := by
  have hnone : ∀ db, NewId owner db env.uuid →
      (otherRows owner db).any (fun r => Table.key .resources r == .uuid env.uuid) = false := by
    intro db hnew
    rw [List.any_eq_false]
    intro r hr
    simpa [Table.key] using hnew r hr
  have hclash : (sh.db.resources.any (fun r => Table.key .resources r == .uuid env.uuid) ||
        sh.db.resources.any (sameKey new)) =
      (sh'.db.resources.any (fun r => Table.key .resources r == .uuid env.uuid) ||
        sh'.db.resources.any (sameKey new)) := by
    simp only [any_resources owner]
    rw [hnone _ hid, hnone _ hid', hkey, h.same.own]
  have hrefs : [(Table.users, Key.uuid new.ownerUserId), (.registeredApps, .uuid new.appId)].any
        sh.db.dangles =
      [(Table.users, Key.uuid new.ownerUserId), (.registeredApps, .uuid new.appId)].any
        sh'.db.dangles := by
    simp only [List.any_cons, List.any_nil, Db.dangles, h.same.tables .users (by simp),
      h.same.tables .registeredApps (by simp)]
  unfold ResourceRepository.create
  rcases nextval_both h with ⟨e, he, he'⟩ | ⟨n, n', hn, hn'⟩
  · simp only [he, he']
    exact .failed e _ _
  · simp only [hn, hn']
    exact insertRow_both hrefs hclash rfl (h.put howner rfl hid hid')

/-- What the request asks for, once it is parsed. -/
theorem newResource_ok {req : CreateResourceRequest} {appId : Uuid} {new : NewResource}
    (h : newResource lib owner appId req = .ok new) :
    new.ownerUserId = owner ∧ new.appId = appId ∧ new.resourceType = req.resourceType ∧
      lib.parseUuid (trim req.appResourceId) = some new.appResourceId := by
  unfold newResource at h
  cases hid : parseUuid lib req.appResourceId "app_resource_id" with
  | error e => simp [hid, bind, Except.bind] at h
  | ok id =>
    cases hparent : parseOptUuid lib req.parentResourceId "parent_resource_id" with
    | error e => simp [hid, hparent, bind, Except.bind] at h
    | ok parent =>
      simp only [hid, hparent, bind, Except.bind, pure, Except.pure, Except.ok.injEq] at h
      subst h
      exact ⟨rfl, rfl, rfl, parseUuid_ok hid⟩

theorem keyTaken_iff {req : CreateResourceRequest} {appId : Uuid} {new : NewResource} {db : Db}
    (happ : parseUuid lib req.appId "app_id" = .ok appId)
    (hnew : newResource lib owner appId req = .ok new) :
    (Call.create req).KeyTaken lib owner db ↔ (otherRows owner db).any (sameKey new) := by
  obtain ⟨-, hnewApp, hnewType, hid⟩ := newResource_ok hnew
  simp only [Call.KeyTaken, parseUuid_ok happ, hid, Option.some.injEq, List.any_eq_true, sameKey,
    Bool.and_eq_true, beq_iff_eq, hnewApp, hnewType]
  refine exists_congr fun r => and_congr_right fun _ => ?_
  constructor
  · rintro ⟨ha, ht, hr⟩
    exact ⟨⟨ha.symm, ht.symm⟩, hr.symm⟩
  · rintro ⟨⟨ha, ht⟩, hr⟩
    exact ⟨ha.symm, ht.symm, hr.symm⟩

theorem together_create (h : Twin owner sh₀ sh₀' sh sh') (req : CreateResourceRequest)
    (hkey : (Call.create req).KeyTaken lib owner sh₀.db ↔
      (Call.create req).KeyTaken lib owner sh₀'.db) :
    Together owner sh₀ sh₀' ((Call.create req).as lib owner) sh sh' := by
  simp only [Call.as, createResource.as]
  split
  · exact together_fail h _
  simp only [Prog.bind_assoc]
  refine together_ofExcept h fun appId happ => together_query h (fun env => ?_) fun env => ?_
  · have happs : sh.db.rows .registeredApps = sh'.db.rows .registeredApps :=
      h.same.tables .registeredApps (by simp)
    simp only [happs]
  refine together_ofExcept h fun _ _ => together_ofExcept h fun new hnew => ?_
  refine Abreast.pool h.kept (fun e => together_fail h _) fun c hc => ?_
  have hfresh : ∀ (v v₀ : Shared), otherRows owner v.db = otherRows owner v₀.db →
      NewId owner v₀.db c.env.uuid → NewId owner v.db c.env.uuid := by
    intro v v₀ hv hnew
    unfold NewId
    rwa [hv]
  have htaken : (otherRows owner sh.db).any (sameKey new) =
      (otherRows owner sh'.db).any (sameKey new) := by
    rw [h.others, h.others', Bool.eq_iff_iff, ← keyTaken_iff happ hnew, ← keyTaken_iff happ hnew]
    exact hkey
  have hboth := create_both h (newResource_ok hnew).1 (hfresh _ _ h.others hc.1)
    (hfresh _ _ h.others' hc.2) htaken
  cases ho : ResourceRepository.create new c.env sh.mem sh.db with
  | mk result writes locks mem =>
    cases ho' : ResourceRepository.create new c.env sh'.mem sh'.db with
    | mk result' writes' locks' mem' =>
      rw [ho, ho'] at hboth
      cases hboth with
      | failed e m m' => exact .failed e rfl rfl (Abreast.ret h.kept (Or.inl rfl))
      | wrote row row' ls ls' m m' hrow hkept =>
        refine .wrote row row' rfl rfl (by simp) (by simp)
          (fun e => Abreast.ret h.kept (Or.inl rfl)) (Abreast.ret hkept (Or.inr ?_))
        exact ⟨_, _, rfl, rfl, toProto_withoutSeq hrow⟩

/-- **Each call in two runs.** -/
theorem together_as (h : Twin owner sh₀ sh₀' sh sh') (call : Call)
    (hkey : call.KeyTaken lib owner sh₀.db ↔ call.KeyTaken lib owner sh₀'.db) :
    Together owner sh₀ sh₀' (call.as lib owner) sh sh' := by
  cases call with
  | create req => exact together_create h req hkey
  | read id => exact together_read h id
  | update req => exact together_update h req
  | delete id => exact together_delete h id
  | list req => exact together_list h req
  | changes req => exact together_changes h req

/-- A call goes the same way in two stores. -/
def SameEffect (lib : Libs) (owner : Uuid) (metadata : Metadata) (call : Call) (sh sh' : Shared)
    (cs : List (Choice Env SqlError)) : Prop :=
  ∀ p v, Proc.run cs ⟨call.program lib metadata, none⟩ sh = some (p, v) →
    ∃ p' v', Proc.run cs ⟨call.program lib metadata, none⟩ sh' = some (p', v') ∧
      (∀ r, p = ⟨.ret r, none⟩ → ∃ r', p' = ⟨.ret r', none⟩ ∧ SameAnswer r r') ∧
      (ownRows owner v.db).map withoutSeq = (ownRows owner v'.db).map withoutSeq

/-- A call changes no row of another user. -/
def OthersKept (lib : Libs) (owner : Uuid) (metadata : Metadata) (call : Call) (sh : Shared)
    (cs : List (Choice Env SqlError)) : Prop :=
  ∀ p v, Proc.run cs ⟨call.program lib metadata, none⟩ sh = some (p, v) →
    otherRows owner v.db = otherRows owner sh.db

theorem run_together (hsame : SameFor owner sh sh') {metadata : Metadata}
    (hissued : IssuedBy lib metadata owner sh.db) {call : Call} {cs : List (Choice Env SqlError)}
    (hfresh : ∀ c ∈ cs, FreshIds owner sh sh' c)
    (hkey : call.KeyTaken lib owner sh.db ↔ call.KeyTaken lib owner sh'.db) {p : Running Answer}
    {v : Shared} (hrun : Proc.run cs ⟨call.program lib metadata, none⟩ sh = some (p, v)) :
    ∃ p' v', Proc.run cs ⟨call.program lib metadata, none⟩ sh' = some (p', v') ∧
      (∀ r, p = ⟨.ret r, none⟩ → ∃ r', p' = ⟨.ret r', none⟩ ∧ SameAnswer r r') ∧
      Kept owner sh.db sh'.db v.db v'.db := by
  have hstart : Together owner sh sh' (call.program lib metadata) sh sh' := by
    rw [program_eq]
    refine together_authenticate ⟨hsame, rfl, rfl⟩ hissued fun user v v' huser hv => ?_
    rw [huser]
    exact together_as hv call hkey
  obtain ⟨p', v', hrun', htogether⟩ := hstart.run hfresh hrun
  exact ⟨p', v', hrun', htogether.at_end.2, htogether.at_end.1⟩

/-- **Owner isolation.** Two stores that differ in rows of other users only: a call of a user
    changes no row of another, and it has the same answer and the same effect on her rows in
    both stores, where another user has the key of a resource to create in both or in none. -/
theorem owner_isolated (lib : Libs) (metadata : Metadata) (call : Call)
    (hsame : SameFor owner sh sh') (hissued : IssuedBy lib metadata owner sh.db)
    {cs : List (Choice Env SqlError)} (hfresh : ∀ c ∈ cs, FreshIds owner sh sh' c) :
    OthersKept lib owner metadata call sh cs ∧ OthersKept lib owner metadata call sh' cs ∧
      ((call.KeyTaken lib owner sh.db ↔ call.KeyTaken lib owner sh'.db) →
        SameEffect lib owner metadata call sh sh' cs) := by
  have hissued' : IssuedBy lib metadata owner sh'.db := by
    unfold IssuedBy Db.sessions
    rw [← hsame.tables .sessions (by simp)]
    exact hissued
  refine ⟨fun p v hrun => ?_, fun p v hrun => ?_, fun hkey p v hrun => ?_⟩
  · obtain ⟨_, _, -, -, hkept⟩ := run_together
      ⟨fun _ _ => rfl, rfl, hsame.keyed, hsame.keyed, Iff.rfl⟩
      hissued (fun c hc => ⟨(hfresh c hc).1, (hfresh c hc).1⟩) Iff.rfl hrun
    exact hkept.others
  · obtain ⟨_, _, -, -, hkept⟩ := run_together
      ⟨fun _ _ => rfl, rfl, hsame.keyed', hsame.keyed', Iff.rfl⟩
      hissued' (fun c hc => ⟨(hfresh c hc).2, (hfresh c hc).2⟩) Iff.rfl hrun
    exact hkept.others
  · obtain ⟨p', v', hrun', hanswer, hkept⟩ := run_together hsame hissued hfresh hkey hrun
    exact ⟨p', v', hrun', hanswer, hkept.own⟩

end Runs

/-! ## The key that shows -/

/-- A task of another user. -/
def bobTask : Resource where
  id := Sample.uuid 40
  appId := Sample.tasks.id
  resourceType := "task"
  appResourceId := Sample.uuid 20
  parentResourceId := none
  ownerUserId := Sample.uuid 4
  createdAt := ⟨0⟩
  updatedAt := ⟨0⟩
  deletedAt := none
  contentBlob := [1]
  contentSignature := [2]
  lastModifiedBy := Sample.uuid 4
  schemaVersion := 1
  changeSeq := 1

/-- A store without any resource. -/
def noTask : Shared := ⟨Sample.db, Mem.fresh⟩

/-- The same store with another user's task. -/
def foreignTask : Shared :=
  ⟨Sample.db.put .resources bobTask, { Mem.fresh with changeSeq := 1 }⟩

/-- Ann creates a task with a given id of the app. -/
def annCreates (appResourceId : UInt8) : Call :=
  .create
    { appId := Sample.tasks.id.toString
      resourceType := "task"
      appResourceId := (Sample.uuid appResourceId).toString
      parentResourceId := none
      contentBlob := [3]
      contentSignature := [4]
      schemaVersion := 1 }

/-- Nothing goes wrong in any of the steps. -/
def calmSteps (n : ℕ) : List (Choice Env SqlError) := List.replicate n (Sample.calm 30)

theorem same_for_ann : SameFor Sample.ann.id noTask foreignTask where
  tables t ht := by cases t <;> first | rfl | exact absurd rfl ht
  own := by decide
  keyed := List.nodup_nil
  keyed' := List.nodup_singleton _
  seq := by decide

theorem issued_by_ann : IssuedBy Libs.sample Sample.asAnn Sample.ann.id noTask.db := by
  intro token _ s hs _
  obtain rfl : s = Sample.annSession := List.mem_singleton.mp hs
  rfl

theorem fresh_for_ann (n : ℕ) : ∀ c ∈ calmSteps n, FreshIds Sample.ann.id noTask foreignTask c := by
  intro c hc
  obtain rfl := List.eq_of_mem_replicate hc
  unfold FreshIds NewId
  decide

/-- The theorem where the user creates a task under a key that is free in both stores. -/
theorem owner_isolated_ann : SameEffect Libs.sample Sample.ann.id Sample.asAnn
    (annCreates 21) noTask
    foreignTask (calmSteps 6) := by
  refine (owner_isolated Libs.sample Sample.asAnn (annCreates 21) same_for_ann issued_by_ann
    (fresh_for_ann 6)).2.2 ⟨?_, ?_⟩
  · rintro ⟨r, hr, -⟩
    exact absurd (show r ∈ [] from hr) (by simp)
  · rintro ⟨r, hr, -, -, hid⟩
    obtain rfl : r = bobTask := List.mem_singleton.mp (show r ∈ [bobTask] from hr)
    exact absurd hid (by decide +kernel)

/-- Ann cannot create a task whose key another user has, and so she learns of it. -/
theorem key_shows : SameFor Sample.ann.id noTask foreignTask ∧
    IssuedBy Libs.sample Sample.asAnn Sample.ann.id noTask.db ∧
    (∀ c ∈ calmSteps 6, FreshIds Sample.ann.id noTask foreignTask c) ∧
    (∃ v x, Proc.run (calmSteps 6) ⟨(annCreates 20).program Libs.sample Sample.asAnn, none⟩ noTask =
      some (⟨.ret (.ok (.resource x)), none⟩, v)) ∧
    (∃ v, Proc.run (calmSteps 5) ⟨(annCreates 20).program Libs.sample Sample.asAnn, none⟩
      foreignTask =
      some (⟨.ret (.error (createError uniqueViolation)), none⟩, v)) ∧
    ¬ SameEffect Libs.sample Sample.ann.id Sample.asAnn (annCreates 20) noTask foreignTask
      (calmSteps 6) := by
  have hcreated : ∃ v x, Proc.run (calmSteps 6)
      ⟨(annCreates 20).program Libs.sample Sample.asAnn, none⟩
      noTask = some (⟨.ret (.ok (.resource x)), none⟩, v) := ⟨_, _, rfl⟩
  have hrefused : ∃ v, Proc.run (calmSteps 5)
      ⟨(annCreates 20).program Libs.sample Sample.asAnn, none⟩
      foreignTask = some (⟨.ret (.error (createError uniqueViolation)), none⟩, v) := ⟨_, rfl⟩
  refine ⟨same_for_ann, issued_by_ann, fresh_for_ann 6, hcreated, hrefused, fun h => ?_⟩
  obtain ⟨v, x, hrun⟩ := hcreated
  obtain ⟨p', v', hrun', -⟩ := h _ _ hrun
  have hstuck : Proc.run (calmSteps 6) ⟨(annCreates 20).program Libs.sample Sample.asAnn, none⟩
      foreignTask = none := rfl
  rw [hstuck] at hrun'
  exact absurd hrun' (by simp)

end SylvaServer.Resources
