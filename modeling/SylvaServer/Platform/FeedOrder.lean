/-
  What `StreamChanges` delivers to one client, in order.

  `Sync.Log` is a run with two lists: the rows the client has received and the versions of all
  resources in the order of their commits. A version of a resource follows a live one with a
  smaller `change_seq`, because an update holds the row from the moment it takes its number.

  Proved: what a run keeps of the two lists (`logged_log`), and that the feed never regresses
  (`feed_never_regresses`).
-/
import SylvaServer.Platform.Sync

namespace SylvaServer.Resources

open ReadCommitted ReadCommitted.Prog

/-! ## Commits of writers -/

/-- The resources among some writes. -/
def resourcesOf (ws : List Write) : List Resource :=
  ws.filterMap fun
    | .put .resources r => some r
    | _ => none

/-- One version of a resource comes after another. -/
def Later (r r' : Resource) : Prop := Succeeds r r' ∧ r.changeSeq < r'.changeSeq

theorem Later.trans {r₁ r₂ r₃ : Resource} (h : Later r₁ r₂) (h' : Later r₂ r₃) : Later r₁ r₃ where
  left :=
    { scope :=
        { ownerUserId := h.1.scope.ownerUserId.trans h'.1.scope.ownerUserId
          appId := h.1.scope.appId.trans h'.1.scope.appId
          resourceType := h.1.scope.resourceType.trans h'.1.scope.resourceType
          appResourceId := h.1.scope.appResourceId.trans h'.1.scope.appResourceId }
      live := h.1.live }
  right := h.2.trans h'.2

section Server

variable {Pid : Type} [DecidableEq Pid] [Fintype Pid] {w w' : Server Pid Unit} {i : Pid}
  {c : Choice Env SqlError}

/-- A step of a writer commits no resource, or one that comes after the row it replaces. -/
theorem stamped_committed (h : Stamped w) (hs : w.step i c = some w') :
    (resourcesOf ((w.procs i).committed c) = [] ∧ w'.sh.db.resources = w.sh.db.resources) ∨
      ∃ row, resourcesOf ((w.procs i).committed c) = [row] ∧
        w'.sh.db.resources = putRow (Table.key .resources) row w.sh.db.resources ∧
        0 < row.changeSeq ∧ row.changeSeq ≤ lastSeq ∧
        ∀ r ∈ w.sh.db.resources, r.id = row.id → Later r row := by
  rcases Proc.committed_cases (World.step_spec hs).1 with ⟨hnone, hdb⟩ | ⟨hall, -, -, hsh, -⟩
  · exact Or.inl ⟨by rw [hnone]; rfl, by rw [hdb]⟩
  · rcases h.pending i with hq | ⟨row, hw, hpos, hle, -, hlater⟩
    · refine Or.inl ⟨?_, ?_⟩
      · rw [hall]
        refine List.filterMap_eq_nil_iff.mpr fun v hv => ?_
        have hne := hq v hv
        cases v with
        | put t r => cases t <;> first | rfl | exact absurd rfl hne
        | delete t k => rfl
      · rw [hsh]
        exact applyAll_rows_of_ne _ _ hq
    · refine Or.inr ⟨row, ?_, ?_, hpos, hle.trans h.stored.seq_limit, hlater⟩
      · rw [hall, hw]
        rfl
      · rw [hsh, hw]
        exact put_rows_self _ _ _

end Server

/-! ## A run with what was delivered -/

section Log

variable {Pid : Type} [DecidableEq Pid] [Fintype Pid] {feed : Subscription}

/-- A run of writers and calls, with the rows received so far and the versions committed so far,
    oldest first; the rows at the beginning count as committed. -/
inductive Sync.Log (feed : Subscription) (s₀ : Sync Pid) :
    List ProtoResource → List Resource → Sync Pid → Prop where
  | start : Log feed s₀ [] s₀.server.sh.db.resources s₀
  | write {rs vs s v} (i : Pid) (c : Choice Env SqlError) : Log feed s₀ rs vs s →
      s.server.step i c = some v →
      Log feed s₀ rs (vs ++ resourcesOf ((s.server.procs i).committed c)) { s with server := v }
  | call {rs vs s} (env : Env) (limit : UInt32) : Log feed s₀ rs vs s →
      Log feed s₀ (rs ++ s.call feed env limit) vs (s.receive (s.call feed env limit))

/-- What holds of the versions: those of a resource come one after the other, and the table has
    the last one of each. -/
structure Recorded (vs : List Resource) (db : Db) : Prop where
  ordered : vs.Pairwise fun r r' => r.id = r'.id → Later r r'
  numbered : ∀ r ∈ vs, 0 < r.changeSeq ∧ r.changeSeq ≤ lastSeq
  current : ∀ r ∈ db.resources, r ∈ vs
  last : ∀ r ∈ vs, ∃ r' ∈ db.resources, r'.id = r.id ∧ (r = r' ∨ Later r r')

/-- What holds of the rows received. -/
structure Delivered (feed : Subscription) (rs : List ProtoResource) (vs : List Resource)
    (cursor : UInt64) : Prop where
  increasing : rs.Pairwise fun x y => stamp x < stamp y
  bounded : ∀ x ∈ rs, stamp x ≤ cursor.toNat
  committed : ∀ x ∈ rs, ∃ r ∈ vs, toProto r = x

/-- What holds at every moment of a run. -/
structure Logged (feed : Subscription) (rs : List ProtoResource) (vs : List Resource)
    (s : Sync Pid) : Prop where
  stamped : Stamped s.server
  cursor : (s.cursor.toNat : ℤ) ≤ lastSeq
  recorded : Recorded vs s.server.sh.db
  delivered : Delivered feed rs vs s.cursor

/-- The table at the beginning. -/
theorem recorded_start {sh : Shared} (h : Stored sh) : Recorded sh.db.resources sh.db where
  ordered := by
    have hne : sh.db.resources.Pairwise fun r r' => Table.key .resources r ≠
        Table.key .resources r' :=
      List.pairwise_map.mp h.keyed
    exact hne.imp fun hk hid => absurd (congrArg Key.uuid hid) hk
  numbered r hr := ⟨h.positive r hr, (h.bounded r hr).trans h.seq_limit⟩
  current _ hr := hr
  last r hr := ⟨r, hr, rfl, Or.inl rfl⟩

/-- A new version is committed. -/
theorem Recorded.write {vs : List Resource} {db db' : Db} {row : Resource} (h : Recorded vs db)
    (hkeyed : Keyed (Table.key .resources) db.resources)
    (hdb : db'.resources = putRow (Table.key .resources) row db.resources)
    (hpos : 0 < row.changeSeq) (hle : row.changeSeq ≤ lastSeq)
    (hlater : ∀ r ∈ db.resources, r.id = row.id → Later r row) : Recorded (vs ++ [row]) db' := by
  have hin : ∀ r, r ∈ db'.resources ↔ r = row ∨ (r ∈ db.resources ∧
      Table.key .resources r ≠ Table.key .resources row) := by
    rw [hdb]
    exact fun r => mem_putRow_iff hkeyed
  -- every version of the resource comes before the new one
  have hall : ∀ r ∈ vs, r.id = row.id → Later r row := by
    intro r hr hid
    obtain ⟨r', hr', hid', hrr'⟩ := h.last r hr
    have hnew := hlater r' hr' (hid'.trans hid)
    rcases hrr' with rfl | hrr'
    · exact hnew
    · exact hrr'.trans hnew
  refine ⟨?_, fun r hr => ?_, fun r hr => ?_, fun r hr => ?_⟩
  · refine List.pairwise_append.mpr ⟨h.ordered, List.pairwise_singleton _ _, fun r hr r' hr' => ?_⟩
    obtain rfl := List.mem_singleton.mp hr'
    exact hall r hr
  · rcases List.mem_append.mp hr with hr | hr
    · exact h.numbered r hr
    · obtain rfl := List.mem_singleton.mp hr
      exact ⟨hpos, hle⟩
  · rcases (hin r).mp hr with rfl | ⟨hr, -⟩
    · simp
    · exact List.mem_append_left _ (h.current r hr)
  · rcases List.mem_append.mp hr with hr | hr
    · by_cases hid : r.id = row.id
      · exact ⟨row, (hin row).mpr (Or.inl rfl), hid.symm, Or.inr (hall r hr hid)⟩
      · obtain ⟨r', hr', hid', hrr'⟩ := h.last r hr
        refine ⟨r', (hin r').mpr (Or.inr ⟨hr', fun hk => hid ?_⟩), hid', hrr'⟩
        exact hid'.symm.trans (by simpa [Table.key] using hk)
    · obtain rfl := List.mem_singleton.mp hr
      exact ⟨r, (hin r).mpr (Or.inl rfl), rfl, Or.inl rfl⟩

theorem logged_write {rs : List ProtoResource} {vs : List Resource} {s : Sync Pid}
    {v : Server Pid Unit} {i : Pid} {c : Choice Env SqlError} (h : Logged feed rs vs s)
    (hs : s.server.step i c = some v) :
    Logged feed rs (vs ++ resourcesOf ((s.server.procs i).committed c)) { s with server := v } := by
  refine ⟨(stamped_step h.stamped hs).1, h.cursor, ?_, h.delivered.increasing, h.delivered.bounded,
    fun x hx => ?_⟩
  · rcases stamped_committed h.stamped hs with ⟨hnone, hdb⟩ | ⟨row, hone, hdb, hpos, hle, hlater⟩
    · rw [hnone, List.append_nil]
      exact ⟨h.recorded.ordered, h.recorded.numbered, hdb ▸ h.recorded.current,
        hdb ▸ h.recorded.last⟩
    · rw [hone]
      exact h.recorded.write h.stamped.stored.keyed hdb hpos hle hlater
  · obtain ⟨r, hr, he⟩ := h.delivered.committed x hx
    exact ⟨r, List.mem_append_left _ hr, he⟩

omit [DecidableEq Pid] [Fintype Pid] in
/-- A page has the numbers above the cursor, each larger than the one before it. -/
theorem call_page (feed : Subscription) {s : Sync Pid} (hstored : Stored s.server.sh)
    (hcursor : (s.cursor.toNat : ℤ) ≤ lastSeq) (env : Env) (limit : UInt32) :
    (s.call feed env limit).Pairwise (fun x y => stamp x < stamp y) ∧
      ∀ x ∈ s.call feed env limit, (s.cursor.toNat : ℤ) < stamp x ∧
        ∃ r ∈ s.server.sh.db.resources, toProto r = x := by
  rw [call_eq hcursor]
  have hmem : ∀ r ∈ (changes feed s.server.sh.db s.cursor.toNat).take (clampChangesLimit limit),
      r ∈ s.server.sh.db.resources ∧ (s.cursor.toNat : ℤ) < r.changeSeq := fun r hr =>
    have h := mem_changes.mp (List.mem_of_mem_take hr)
    ⟨h.1, h.2.2⟩
  constructor
  · rw [List.pairwise_map]
    have hsorted : (changes feed s.server.sh.db s.cursor.toNat).Pairwise fun a b =>
        a.changeSeq ≤ b.changeSeq := pairwise_orderAsc _ _
    have hne : (changes feed s.server.sh.db s.cursor.toNat).Pairwise fun a b => a ≠ b := by
      have hnodup : s.server.sh.db.resources.Nodup := List.Nodup.of_map _ hstored.keyed
      exact (List.perm_insertionSort _ _).nodup_iff.mpr (hnodup.filter _)
    refine ((hsorted.and hne).sublist (List.take_sublist _ _)).imp_of_mem fun {a b} ha hb hab => ?_
    rw [stored_stamp hstored (hmem a ha).1, stored_stamp hstored (hmem b hb).1]
    exact lt_of_le_of_ne hab.1 fun he =>
      hab.2 (hstored.distinct a (hmem a ha).1 b (hmem b hb).1 he)
  · intro x hx
    obtain ⟨r, hr, rfl⟩ := List.mem_map.mp hx
    rw [stored_stamp hstored (hmem r hr).1]
    exact ⟨(hmem r hr).2, r, (hmem r hr).1, rfl⟩

omit [DecidableEq Pid] [Fintype Pid] in
/-- The client makes a call. -/
theorem logged_call {rs : List ProtoResource} {vs : List Resource} {s : Sync Pid}
    (h : Logged feed rs vs s) (env : Env) (limit : UInt32) :
    Logged feed (rs ++ s.call feed env limit) vs (s.receive (s.call feed env limit)) := by
  obtain ⟨hsorted, hpage⟩ := call_page feed h.stamped.stored h.cursor env limit
  obtain ⟨hcursor, hle⟩ := foldl_seen (s.call feed env limit) s.cursor
  have hseen := le_foldl_seen (s.call feed env limit) s.cursor
  refine ⟨h.stamped, ?_, h.recorded, ?_, fun x hx => ?_, fun x hx => ?_⟩
  · show (((s.call feed env limit).foldl Sync.seen s.cursor).toNat : ℤ) ≤ lastSeq
    rcases hcursor with hc | ⟨x, hx, hc⟩
    · rw [hc]
      exact h.cursor
    · rw [hc]
      obtain ⟨-, r, hr, rfl⟩ := hpage x hx
      have hstamp := stored_stamp h.stamped.stored hr
      rw [show (((toProto r).changeSeq.toNat : ℕ) : ℤ) = r.changeSeq from hstamp]
      exact (h.stamped.stored.bounded r hr).trans h.stamped.stored.seq_limit
  · refine List.pairwise_append.mpr ⟨h.delivered.increasing, hsorted, fun x hx y hy => ?_⟩
    exact lt_of_le_of_lt (h.delivered.bounded x hx) (hpage y hy).1
  · show stamp x ≤ (((s.call feed env limit).foldl Sync.seen s.cursor).toNat : ℤ)
    rcases List.mem_append.mp hx with hx | hx
    · exact (h.delivered.bounded x hx).trans (by exact_mod_cast hle)
    · exact Int.ofNat_le.mpr (hseen x hx)
  · rcases List.mem_append.mp hx with hx | hx
    · exact h.delivered.committed x hx
    · obtain ⟨-, r, hr, he⟩ := hpage x hx
      exact ⟨r, h.recorded.current r hr, he⟩

/-- Whatever writers and calls do, the two lists are in order. -/
theorem logged_log {rs : List ProtoResource} {vs : List Resource} {s₀ s : Sync Pid}
    (hstamped : Stamped s₀.server) (hcursor : s₀.cursor = 0) (hlog : Sync.Log feed s₀ rs vs s) :
    Logged feed rs vs s := by
  induction hlog with
  | start =>
    refine ⟨hstamped, ?_, recorded_start hstamped.stored, List.Pairwise.nil, by simp, by simp⟩
    rw [hcursor]
    unfold lastSeq
    simp
  | write i c _ hs ih => exact logged_write ih hs
  | call env limit _ ih => exact logged_call ih env limit

omit [DecidableEq Pid] [Fintype Pid] in
/-- Of two versions of a resource the one with the larger number comes after the other. -/
theorem Recorded.later {vs : List Resource} {db : Db} (h : Recorded vs db) {r r' : Resource}
    (hr : r ∈ vs) (hr' : r' ∈ vs) (hid : r.id = r'.id) (hlt : r.changeSeq < r'.changeSeq) :
    Later r r' := by
  have heither : vs.Pairwise fun a b => a.id = b.id → a = b ∨ Later a b ∨ Later b a :=
    h.ordered.imp fun hab he => Or.inr (Or.inl (hab he))
  have hsymm : ∀ a b : Resource, (a.id = b.id → a = b ∨ Later a b ∨ Later b a) →
      b.id = a.id → b = a ∨ Later b a ∨ Later a b :=
    fun a b hab he => (hab he.symm).imp Eq.symm Or.symm
  have : Std.Symm fun a b : Resource => a.id = b.id → a = b ∨ Later a b ∨ Later b a := ⟨hsymm⟩
  rcases heither.forall_of_forall (fun a _ _ => Or.inl rfl) hr hr' hid with rfl | hl | hl
  · exact absurd hlt (lt_irrefl _)
  · exact hl
  · exact absurd (hlt.trans hl.2) (lt_irrefl _)

omit [DecidableEq Pid] [Fintype Pid] in
/-- The received states of a resource are committed versions of it, in the order of the commits. -/
theorem delivered_sublist {rs : List ProtoResource} {vs : List Resource} {db : Db} {cursor : UInt64}
    (hrec : Recorded vs db) (hdel : Delivered feed rs vs cursor) (id : Uuid) :
    (rs.filter fun x => x.id = id.toString).Sublist
      ((vs.filter fun r => r.id = id).map toProto) := by
  refine Feed.sublist_of_subset (f := stamp) (hdel.increasing.filter _) ?_ fun x hx => ?_
  · rw [List.pairwise_map]
    refine (hrec.ordered.filter _).imp_of_mem fun {r r'} hr hr' hrr' => ?_
    simp only [List.mem_filter, decide_eq_true_eq] at hr hr'
    have hlt := (hrr' (hr.2.trans hr'.2.symm)).2
    rw [stamp_toProto (hrec.numbered r hr.1).1 (hrec.numbered r hr.1).2,
      stamp_toProto (hrec.numbered r' hr'.1).1 (hrec.numbered r' hr'.1).2]
    exact hlt
  · simp only [List.mem_filter, decide_eq_true_eq] at hx
    obtain ⟨r, hr, rfl⟩ := hdel.committed x hx.1
    refine List.mem_map.mpr ⟨r, List.mem_filter.mpr ⟨hr, ?_⟩, rfl⟩
    simpa using Uuid.toString_inj hx.2

/-- **The feed never regresses.** In every run of writers and calls of one client: the numbers
    received increase, no pair of a resource and a number comes twice, the states received of a
    resource are committed versions of it in the order of their commits, nothing comes after a
    tombstone, and the columns that identify a resource stay the same. -/
theorem feed_never_regresses (lib : Libs) (calls : Pid → WriteCall) {s₀ s : Sync Pid}
    (hprocs : ∀ i, s₀.server.procs i = ⟨(calls i).program lib, none⟩)
    (hstored : Stored s₀.server.sh) (hcursor : s₀.cursor = 0) {rs : List ProtoResource}
    {vs : List Resource} (hlog : Sync.Log feed s₀ rs vs s) :
    rs.Pairwise (fun x y => x.changeSeq < y.changeSeq) ∧
      (rs.map fun x => (x.id, x.changeSeq)).Nodup ∧
      (∀ id : Uuid, (rs.filter fun x => x.id = id.toString).Sublist
        ((vs.filter fun r => r.id = id).map toProto)) ∧
      rs.Pairwise fun x y => x.id = y.id → x.deletedAt = none ∧ x.ownerUserId = y.ownerUserId ∧
        x.appId = y.appId ∧ x.resourceType = y.resourceType ∧
        x.appResourceId = y.appResourceId := by
  have h := logged_log (stamped_start lib calls hprocs hstored) hcursor hlog
  refine ⟨h.delivered.increasing.imp fun hlt => ?_, ?_,
    delivered_sublist h.recorded h.delivered, ?_⟩
  · exact UInt64.lt_iff_toNat_lt.mpr (Int.ofNat_lt.mp hlt)
  · refine List.pairwise_map.mpr (h.delivered.increasing.imp fun hlt he => ?_)
    rw [stamp, stamp, (Prod.mk.inj he).2] at hlt
    exact absurd hlt (lt_irrefl _)
  · refine h.delivered.increasing.imp_of_mem fun {x y} hx hy hlt hid => ?_
    obtain ⟨r, hr, rfl⟩ := h.delivered.committed x hx
    obtain ⟨r', hr', rfl⟩ := h.delivered.committed y hy
    rw [stamp_toProto (h.recorded.numbered r hr).1 (h.recorded.numbered r hr).2,
      stamp_toProto (h.recorded.numbered r' hr').1 (h.recorded.numbered r' hr').2] at hlt
    obtain ⟨hlater, -⟩ := h.recorded.later hr hr' (toProto_id_inj hid) hlt
    refine ⟨?_, congrArg Uuid.toString hlater.scope.ownerUserId,
      congrArg Uuid.toString hlater.scope.appId, hlater.scope.resourceType,
      congrArg Uuid.toString hlater.scope.appResourceId⟩
    show r.deletedAt.map DateTime.toRfc3339 = none
    rw [hlater.live]
    rfl

/-- Writers follow a schedule. -/
theorem Sync.log_follow {s₀ s : Sync Pid} {rs : List ProtoResource} {vs : List Resource}
    {cs : List (Pid × Choice Env SqlError)} {v : Server Pid Unit} (hlog : Sync.Log feed s₀ rs vs s)
    (h : s.server.follow cs = some v) : ∃ vs', Sync.Log feed s₀ rs vs' { s with server := v } := by
  induction cs generalizing s vs with
  | nil =>
    simp only [World.follow, Option.some.injEq] at h
    exact ⟨vs, h ▸ hlog⟩
  | cons a cs ih =>
    simp only [World.follow, Option.bind_eq_some_iff] at h
    obtain ⟨u, hu, h⟩ := h
    exact ih (s := { s with server := u }) (hlog.write a.1 a.2 hu) h

end Log

/-- A call that creates a task, and one that deletes it. -/
def oneTask (i : Bool) : WriteCall :=
  if i then .delete Sample.asAnn (Sample.uuid 30).toString else twoTasks false

/-- Ann's client has seen nothing, the two calls are about to begin. -/
def shortLived : Sync Bool where
  server := ⟨fun i => ⟨(oneTask i).program Libs.sample, none⟩, ⟨Sample.db, Mem.fresh⟩⟩
  cursor := 0
  replica := []

theorem log_after {s : Sync Bool} {rs : List ProtoResource} {vs : List Resource}
    {cs : List (Bool × Choice Env SqlError)} (hlog : Sync.Log annTasks shortLived rs vs s)
    (h : (s.server.follow cs).isSome) :
    ∃ vs', Sync.Log annTasks shortLived rs vs' (s.after cs) := by
  obtain ⟨v, hv⟩ := Option.isSome_iff_exists.mp h
  rw [Sync.after, hv]
  exact Sync.log_follow hlog hv

/-- The theorem where the client gets the task and then its tombstone. -/
theorem feed_never_regresses_tombstone : ∃ rs vs s, Sync.Log annTasks shortLived rs vs s ∧
    (∃ x y, rs = [x, y] ∧ x.id = y.id ∧ x.deletedAt = none ∧ y.deletedAt ≠ none) ∧
      rs.Pairwise (fun x y => x.changeSeq < y.changeSeq) ∧
      (rs.map fun x => (x.id, x.changeSeq)).Nodup ∧
      (∀ id : Uuid, (rs.filter fun x => x.id = id.toString).Sublist
        ((vs.filter fun r => r.id = id).map toProto)) ∧
      rs.Pairwise fun x y => x.id = y.id → x.deletedAt = none ∧ x.ownerUserId = y.ownerUserId ∧
        x.appId = y.appId ∧ x.resourceType = y.resourceType ∧
        x.appResourceId = y.appResourceId := by
  have hfirst : (shortLived.server.follow (Sample.steps false 30 6)).isSome := by decide +kernel
  obtain ⟨vs₁, hcreate⟩ := log_after .start hfirst
  have hsecond : ((shortLived.after (Sample.steps false 30 6)).sync.server.follow
      (Sample.steps true 31 5)).isSome := by
    decide +kernel
  obtain ⟨vs₂, hdelete⟩ := log_after (hcreate.call (Env.at 0 0 0) 0) hsecond
  have hlog := hdelete.call (Env.at 0 0 0) 0
  have hstored : Stored shortLived.server.sh := quiet_stored
  exact ⟨_, vs₂, _, hlog, ⟨_, _, rfl, by decide +kernel, by decide +kernel, by decide +kernel⟩,
    feed_never_regresses Libs.sample oneTask (fun _ => rfl) hstored rfl hlog⟩

end SylvaServer.Resources
