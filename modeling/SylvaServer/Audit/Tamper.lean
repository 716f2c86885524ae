/-
  The audit log is tamper-evident from its head.

  Proved: the canonical bytes of a row determine the hashed fields (`Canonical.toVec_inj`), and
  so the hash of the last row determines every row of a valid log, whatever its length
  (`head_determines_log`). SHA-256 is injective on the byte strings that the two logs hash.
-/
import SylvaServer.Model.Audit
import Mathlib.Data.Set.Function

namespace SylvaServer.Audit

open CompactJson (LawfulFloats render render_inj)

/-! ## The canonical bytes -/

theorem optionalString_inj {s t : Option String} (h : optionalString s = optionalString t) :
    s = t := by
  cases s <;> cases t <;> simp_all [optionalString]

theorem Canonical.toVec_inj {lib : Libs} (hl : LawfulFloats lib.ryu) {c d : Canonical}
    (h : c.toVec lib = d.toVec lib) : c = d := by
  have hjson : c.toJson = d.toJson := by
    have htext := congrArg String.toList (utf8_inj h)
    rw [String.toList_ofList, String.toList_ofList] at htext
    exact render_inj hl htext
  simp only [Canonical.toJson, CompactJson.Value.obj.injEq, List.cons.injEq, Prod.mk.injEq,
    true_and, and_true, CompactJson.Value.str.injEq, CompactJson.Value.int.injEq] at hjson
  obtain ⟨hname, huser, happ, hdata, htype, htime, hseq⟩ := hjson
  have hid : c.actorUserId = d.actorUserId :=
    Option.map_injective (fun _ _ => Uuid.toString_inj) (optionalString_inj huser)
  have hnanos : c.occurredAt.nanos = d.occurredAt.nanos := by
    have := congrArg String.toList htime
    rw [String.toList_ofList, String.toList_ofList] at this
    exact Calendar.rfc3339_inj this
  have htime : c.occurredAt = d.occurredAt := by
    cases hc : c.occurredAt
    cases hd : d.occurredAt
    rw [hc, hd] at hnanos
    exact congrArg _ hnanos
  have hname := optionalString_inj hname
  have happ := optionalString_inj happ
  cases c
  cases d
  simp_all

/-! ## The log -/

/-- The byte strings hashed for a log: the genesis literal and what each row's hash covers. -/
def hashInputs (lib : Libs) (rows : List AuditEvent) : Set Bytes :=
  insert (utf8 "sylva-audit-genesis")
    ((fun r : AuditEvent => r.prevHash ++ (canonicalOf r).toVec lib) '' {r | r ∈ rows})

theorem genesis_mem_hashInputs (lib : Libs) (rows : List AuditEvent) :
    utf8 "sylva-audit-genesis" ∈ hashInputs lib rows := Set.mem_insert _ _

theorem row_mem_hashInputs (lib : Libs) {rows : List AuditEvent} {r : AuditEvent} (h : r ∈ rows) :
    r.prevHash ++ (canonicalOf r).toVec lib ∈ hashInputs lib rows :=
  Set.mem_insert_of_mem _ ⟨r, h, rfl⟩

theorem prevHash_size {lib : Libs} {rows : List AuditEvent} (hv : (chain lib).Valid rows)
    {r : AuditEvent} (hr : r ∈ rows) : r.prevHash.length = 32 := by
  rcases hv.prev_mem hr with h | ⟨a, ha, h⟩
  · rw [show r.prevHash = genesisHash lib from h]
    exact lib.sha256_size _
  · rw [show r.prevHash = a.hash from h, show a.hash = _ from hv.own a ha]
    exact lib.sha256_size _

/-- No row of a valid log carries the genesis hash. -/
theorem hash_ne_genesis {lib : Libs} {rows : List AuditEvent} (hv : (chain lib).Valid rows)
    (hinj : Set.InjOn lib.sha256 (hashInputs lib rows)) {r : AuditEvent} (hr : r ∈ rows) :
    r.hash ≠ genesisHash lib := by
  intro h
  rw [show r.hash = _ from hv.own r hr] at h
  have hbytes := hinj (row_mem_hashInputs lib hr) (genesis_mem_hashInputs lib rows) h
  have hlen := congrArg List.length hbytes
  rw [List.length_append, prevHash_size hv hr] at hlen
  have hlit : (utf8 "sylva-audit-genesis").length = 19 := by decide
  omega

/-- **Tamper evidence.** Two valid logs whose last rows carry the same hash agree in length
    and, row by row, in every hashed field. -/
theorem head_determines_log (lib : Libs) (hl : LawfulFloats lib.ryu)
    (rows rows' : List AuditEvent)
    (hinj : Set.InjOn lib.sha256 (hashInputs lib rows ∪ hashInputs lib rows'))
    (hv : (chain lib).Valid rows) (hv' : (chain lib).Valid rows')
    (last last' : AuditEvent) (hlast : rows.getLast? = some last)
    (hlast' : rows'.getLast? = some last') (hhash : last.hash = last'.hash) :
    rows.length = rows'.length ∧ rows.map canonicalOf = rows'.map canonicalOf := by
  have htip : (chain lib).tip rows = (chain lib).tip rows' := by
    simp only [HashChain.Scheme.tip, hlast, hlast', Option.map_some, Option.getD_some]
    exact hhash
  have hkeys : rows.map canonicalOf = rows'.map canonicalOf := by
    refine hv.determined canonicalOf hv' htip (fun r hr r' hr' h => ?_)
      (fun r hr => hash_ne_genesis hv (hinj.mono Set.subset_union_left) hr)
      (fun r hr => hash_ne_genesis hv' (hinj.mono Set.subset_union_right) hr)
    rw [hv.own r hr, hv'.own r' hr'] at h
    have hbytes := hinj (Or.inl (row_mem_hashInputs lib hr))
      (Or.inr (row_mem_hashInputs lib hr')) h
    obtain ⟨hprev, hcanon⟩ := List.append_inj hbytes
      ((prevHash_size hv hr).trans (prevHash_size hv' hr').symm)
    exact ⟨hprev, Canonical.toVec_inj hl hcanon⟩
  exact ⟨by simpa using congrArg List.length hkeys, hkeys⟩

/-! ### A log of two rows -/

/-- The first row of a log. -/
def firstEvent : AuditEvent where
  seqno := 1
  occurredAt := ⟨1700000000123456000⟩
  actorUserId := none
  actorDisplayName := some "Joe"
  appId := none
  eventType := "test"
  eventData := .obj []
  prevHash := [46, 255, 172, 235, 206, 50, 224, 195, 238, 42, 235, 153, 43, 20, 96, 116, 209, 94,
    114, 240, 144, 154, 246, 144, 47, 60, 222, 190, 236, 84, 139, 32]
  hash := [0, 42, 190, 247, 58, 255, 231, 64, 213, 251, 49, 48, 151, 233, 84, 130, 43, 207, 81, 79,
    128, 202, 147, 69, 1, 112, 164, 114, 147, 116, 111, 68]

/-- The row after it. -/
def secondEvent : AuditEvent where
  seqno := 2
  occurredAt := ⟨1700000001123456000⟩
  actorUserId := none
  actorDisplayName := some "Ann"
  appId := none
  eventType := "test"
  eventData := .obj []
  prevHash := firstEvent.hash
  hash := [49, 4, 73, 85, 238, 234, 167, 64, 211, 105, 163, 29, 207, 44, 232, 243, 229, 224, 237,
    121, 7, 45, 156, 195, 54, 121, 23, 60, 18, 77, 239, 183]

/-- SHA-256 on the three byte strings that the two rows hash. -/
def twoEventsLibs : Libs :=
  { Libs.sample with
    sha256 := fun bytes =>
      if bytes = utf8 "sylva-audit-genesis" then firstEvent.prevHash
      else if bytes.take 32 = firstEvent.prevHash then firstEvent.hash
      else secondEvent.hash
    sha256_size := fun bytes => by
      split
      · rfl
      · split <;> rfl }

/-- The three byte strings. -/
def twoEventsInputs : List Bytes :=
  [utf8 "sylva-audit-genesis", firstEvent.prevHash ++ (canonicalOf firstEvent).toVec twoEventsLibs,
    secondEvent.prevHash ++ (canonicalOf secondEvent).toVec twoEventsLibs]

theorem twoEvents_hashed : twoEventsInputs.map twoEventsLibs.sha256 =
    [firstEvent.prevHash, firstEvent.hash, secondEvent.hash] := by decide +kernel

theorem twoEvents_valid : (chain twoEventsLibs).Valid [firstEvent, secondEvent] := by
  have hhashed := twoEvents_hashed
  simp only [twoEventsInputs, List.map_cons, List.map_nil, List.cons.injEq, and_true] at hhashed
  obtain ⟨hgenesis, hfirst, hsecond⟩ := hhashed
  refine ⟨fun r hr => ?_, List.isChain_pair.mpr rfl, fun r hr => ?_⟩
  · obtain rfl : firstEvent = r := by simpa using hr
    exact hgenesis.symm
  · obtain rfl | rfl : r = firstEvent ∨ r = secondEvent := by simpa using hr
    · exact hfirst.symm
    · exact hsecond.symm

theorem twoEvents_injOn :
    Set.InjOn twoEventsLibs.sha256 (hashInputs twoEventsLibs [firstEvent, secondEvent]) := by
  have hmem : ∀ x ∈ hashInputs twoEventsLibs [firstEvent, secondEvent], x ∈ twoEventsInputs := by
    intro x hx
    obtain rfl | ⟨r, hr, rfl⟩ := hx
    · exact List.mem_cons_self
    · obtain rfl | rfl : r = firstEvent ∨ r = secondEvent := by simpa using hr
      · exact List.mem_cons_of_mem _ List.mem_cons_self
      · exact List.mem_cons_of_mem _ (List.mem_cons_of_mem _ List.mem_cons_self)
  have hnodup : (twoEventsInputs.map twoEventsLibs.sha256).Nodup := by
    rw [twoEvents_hashed]
    decide
  intro a ha b hb hab
  exact List.inj_on_of_nodup_map hnodup (hmem a ha) (hmem b hb) hab

/-- The theorem at two copies of a log of two rows, the second linked to the first. -/
theorem head_determines_log_two : secondEvent.prevHash = firstEvent.hash ∧
    [firstEvent, secondEvent].length = [firstEvent, secondEvent].length ∧
      [firstEvent, secondEvent].map canonicalOf = [firstEvent, secondEvent].map canonicalOf := by
  refine ⟨rfl, head_determines_log twoEventsLibs sampleFloat_lawful [firstEvent, secondEvent]
    [firstEvent, secondEvent] ?_ twoEvents_valid twoEvents_valid secondEvent
      secondEvent rfl rfl rfl⟩
  rw [Set.union_self]
  exact twoEvents_injOn

end SylvaServer.Audit
