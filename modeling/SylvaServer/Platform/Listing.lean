/-
  `ListResources` page by page.

  A client asks with offset 0, then with the offset increased by the number of rows it got, until a
  page is empty. The order of the pages is `updated_at DESC` and nothing else, so rows of one
  microsecond may come in another order on each page; and the total is cast to `u32`.

  Proved: every matching resource comes exactly once, newest first, with the right total on each
  page, in whatever order Postgres leaves rows of one instant, exactly where the count fits in 32
  bits and no instant lies on both sides of a page boundary (`listing_once_iff`). Two resources
  of one instant on two pages are answered one twice and the other never
  (`tied_resources_listed_twice`).
-/
import SylvaServer.Feed.Paging
import SylvaServer.ReadCommitted.Solo
import SylvaServer.Model.Resources

namespace SylvaServer.Listing

open ReadCommitted ReadCommitted.Prog Paging Resources

/-! ## The walk -/

section Walk

variable (lib : Libs) (owner : Uuid) (req : ListResourcesRequest) (sh : Shared)

/-- The call with this offset answers `resp`, and the store stays as it is. -/
def Answers (env : Env) (offset : UInt32) (resp : ListResourcesResponse) : Prop :=
  (listResources.as lib owner { req with offset := offset }).alone env sh = some (.ok resp, sh)

/-- Page `k` and those after it, page `i` answered in `envs i`. -/
inductive Walk (envs : ℕ → Env) : ℕ → UInt32 → List ListResourcesResponse → Prop where
  | last {k offset resp} : Answers lib owner req sh (envs k) offset resp → resp.resources = [] →
      Walk envs k offset [resp]
  | next {k offset resp resps} : Answers lib owner req sh (envs k) offset resp →
      resp.resources ≠ [] → Walk envs (k + 1) (offset + UInt32.ofNat resp.resources.length) resps →
      Walk envs k offset (resp :: resps)

end Walk

/-- The rows a request is about. -/
def matching (appId owner : Uuid) (req : ListResourcesRequest) (db : Db) : List Resource :=
  db.resources.filter (ResourceRepository.listed appId req.resourceType owner req.includeDeleted)

/-- The sort key, `updated_at`. -/
def updated (r : Resource) : ℤ := r.updatedAt.nanos

/-- Each row once, newest first, and each page with the number of rows. -/
structure Complete (rows : List Resource) (resps : List ListResourcesResponse) : Prop where
  once : ∃ shown : List Resource, resps.flatMap (·.resources) = shown.map toProto ∧
    shown.Perm rows ∧ shown.Pairwise fun a b => updated b ≤ updated a
  total : ∀ resp ∈ resps, resp.total.toNat = rows.length

/-! ## Arrangements -/

section Order

variable {rows L : List Resource} {rank : Uuid → ℕ}

/-- The order of a page. -/
def Before (rank : Uuid → ℕ) (a b : Resource) : Prop :=
  updated b < updated a ∨ (updated b = updated a ∧ rank a.id ≤ rank b.id)

instance : DecidableRel (Before rank) := fun _ _ => inferInstanceAs (Decidable (_ ∨ _))

theorem newestFirst_perm : (ResourceRepository.newestFirst rank rows).Perm rows :=
  List.perm_insertionSort _ _

theorem newestFirst_pairwise :
    (ResourceRepository.newestFirst rank rows).Pairwise (Before rank) := by
  have : Std.Total (Before rank) := ⟨fun a b => by unfold Before; omega⟩
  have : IsTrans Resource (Before rank) := ⟨fun a b c h h' => by unfold Before at *; omega⟩
  exact List.pairwise_insertionSort (Before rank) rows

theorem newestFirst_arranged : Arranged updated rows (ResourceRepository.newestFirst rank rows) :=
  ⟨newestFirst_perm, newestFirst_pairwise.imp fun h => h.elim le_of_lt fun h => h.1.le⟩

/-- The place of an id in a list of rows. -/
def place (L : List Resource) (id : Uuid) : ℕ := (L.map (·.id)).idxOf id

theorem place_getElem (hids : (L.map (·.id)).Nodup) {i : ℕ} (hi : i < L.length) :
    place L L[i].id = i := by
  have := hids.idxOf_getElem i (by simpa using hi)
  rwa [List.getElem_map] at this

/-- **Postgres may answer with any arrangement.** -/
theorem newestFirst_place (h : Arranged updated rows L) (hids : (rows.map (·.id)).Nodup) :
    ResourceRepository.newestFirst (place L) rows = L := by
  have hLids : (L.map (·.id)).Nodup := ((h.perm.map (·.id)).nodup_iff).mpr hids
  have hL : L.Pairwise (Before (place L)) := by
    refine List.pairwise_iff_getElem.mpr fun i j hi hj hij => ?_
    have hle := List.pairwise_iff_getElem.mp h.sorted i j hi hj hij
    unfold Before
    rw [place_getElem hLids hi, place_getElem hLids hj]
    omega
  refine (newestFirst_perm.trans h.perm.symm).eq_of_pairwise (fun a b ha hb hab hba => ?_)
    newestFirst_pairwise hL
  -- rows of one rank have one id
  have hrank : place L a.id = place L b.id := by
    unfold Before at hab hba
    omega
  have haL : a ∈ L := h.perm.symm.mem_iff.mp (newestFirst_perm.mem_iff.mp ha)
  have hid : a.id = b.id := (List.idxOf_inj (List.mem_map_of_mem haL)).mp hrank
  exact List.inj_on_of_nodup_map hLids haL hb hid

end Order

/-! ## Pages -/

theorem clampLimit_pos (requested : UInt32) : 0 < clampLimit requested := by
  unfold clampLimit
  split
  · decide
  · next h =>
    have hne : requested.toNat ≠ 0 := fun he => h (UInt32.toNat_inj.mp he)
    omega

section Run

variable {lib : Libs} {owner appId : Uuid} {req : ListResourcesRequest} {sh : Shared}
  {envs : ℕ → Env} {k : ℕ} {offset : UInt32} {resps : List ListResourcesResponse}

/-- The page of a call. -/
def page (appId owner : Uuid) (req : ListResourcesRequest) (db : Db) (env : Env) (offset : UInt32) :
    List Resource :=
  ((ResourceRepository.newestFirst env.rank (matching appId owner req db)).drop offset.toNat).take
    (clampLimit req.limit)

theorem answers_iff (happ : parseUuid lib req.appId "app_id" = .ok appId)
    (htype : (trim req.resourceType).isEmpty = false) (env : Env) (offset : UInt32)
    (resp : ListResourcesResponse) : Answers lib owner req sh env offset resp ↔
      resp = { resources := (page appId owner req sh.db env offset).map toProto
               total := UInt32.ofNat (matching appId owner req sh.db).length } := by
  have hrun : (listResources.as lib owner { req with offset := offset }).alone env sh =
      some (.ok { resources := (page appId owner req sh.db env offset).map toProto
                  total := UInt32.ofNat (matching appId owner req sh.db).length }, sh) := by
    unfold listResources.as
    simp only [htype, Bool.false_eq_true, if_false, happ]
    simp [alone, ResourceRepository.listOwned, ResourceRepository.listPage,
      ResourceRepository.listCount, onPool, Prog.ofExcept, mapError, select, exec, page, matching]
  unfold Answers
  rw [hrun]
  simp only [Option.some.injEq, Prod.mk.injEq, Except.ok.injEq, and_true]
  exact eq_comm

variable (happ : parseUuid lib req.appId "app_id" = .ok appId)
  (htype : (trim req.resourceType).isEmpty = false)

/-- The arrangement behind page `i`. -/
def arrangement (appId owner : Uuid) (req : ListResourcesRequest) (db : Db)
    (envs : ℕ → Env) (i : ℕ) :
    List Resource :=
  ResourceRepository.newestFirst (envs i).rank (matching appId owner req db)

theorem arrangement_arranged (i : ℕ) :
    Arranged updated (matching appId owner req sh.db) (arrangement appId owner req sh.db envs i) :=
  newestFirst_arranged

/-- The offset of page `k`, and no more than there are rows. -/
def AtPage (rows : List Resource) (n k : ℕ) (offset : UInt32) : Prop :=
  offset.toNat = min (k * n) rows.length

theorem page_eq (hat : AtPage (matching appId owner req sh.db) (clampLimit req.limit) k offset) :
    page appId owner req sh.db (envs k) offset =
      ((arrangement appId owner req sh.db envs k).drop (k * clampLimit req.limit)).take
        (clampLimit req.limit) := by
  have hlen : (arrangement appId owner req sh.db envs k).length =
      (matching appId owner req sh.db).length :=
    (arrangement_arranged k).length
  unfold AtPage at hat
  change ((arrangement appId owner req sh.db envs k).drop offset.toNat).take _ = _
  rw [hat]
  rcases le_total (k * clampLimit req.limit) (matching appId owner req sh.db).length with hle | hle
  · rw [min_eq_left hle]
  · rw [min_eq_right hle, List.drop_of_length_le (hlen.trans_le le_rfl),
      List.drop_of_length_le (hlen.trans_le hle)]

theorem page_length (hat : AtPage (matching appId owner req sh.db) (clampLimit req.limit) k offset)
    (env : Env) : (page appId owner req sh.db env offset).length =
      min (clampLimit req.limit)
        ((matching appId owner req sh.db).length - k * clampLimit req.limit) := by
  unfold AtPage at hat
  unfold page
  rw [List.length_take, List.length_drop, newestFirst_perm.length_eq, hat]
  omega

theorem atPage_zero (rows : List Resource) (n : ℕ) : AtPage rows n 0 0 := by
  unfold AtPage
  rw [Nat.zero_mul, Nat.zero_min]
  rfl

theorem atPage_next (hlt : (matching appId owner req sh.db).length < 2 ^ 32)
    (hat : AtPage (matching appId owner req sh.db) (clampLimit req.limit) k offset) (env : Env) :
    AtPage (matching appId owner req sh.db) (clampLimit req.limit) (k + 1)
      (offset + UInt32.ofNat (page appId owner req sh.db env offset).length) := by
  have hlen := page_length hat env
  unfold AtPage at hat ⊢
  rw [UInt32.toNat_add, UInt32.toNat_ofNat', hlen, hat, Nat.succ_mul]
  omega

include happ htype

/-- **The walk ends**, whatever order the pages come in. -/
theorem exists_walk (hlt : (matching appId owner req sh.db).length < 2 ^ 32) (d : ℕ)
    (hat : AtPage (matching appId owner req sh.db) (clampLimit req.limit) k offset)
    (hd : (matching appId owner req sh.db).length - k * clampLimit req.limit ≤ d) :
    ∃ resps, Walk lib owner req sh envs k offset resps := by
  induction d generalizing k offset with
  | zero =>
    have hlen := page_length hat (envs k)
    have hnil : page appId owner req sh.db (envs k) offset = [] :=
      List.eq_nil_of_length_eq_zero (by omega)
    exact ⟨_, .last ((answers_iff happ htype (envs k) offset _).mpr rfl) (by rw [hnil]; rfl)⟩
  | succ d ih =>
    have hanswer : Answers lib owner req sh (envs k) offset _ :=
      (answers_iff happ htype _ _ _).mpr rfl
    by_cases hnil : page appId owner req sh.db (envs k) offset = []
    · exact ⟨_, .last hanswer (by rw [hnil]; rfl)⟩
    · have hnext := atPage_next hlt hat (envs k)
      have hpos := clampLimit_pos req.limit
      obtain ⟨resps, hwalk⟩ := ih hnext (by rw [Nat.succ_mul]; omega)
      exact ⟨_ :: resps, .next hanswer (by simpa using hnil) (by simpa using hwalk)⟩

/-- **A walk shows the pages** of the arrangements behind it, to the last row. -/
theorem walk_pages (hlt : (matching appId owner req sh.db).length < 2 ^ 32)
    (hwalk : Walk lib owner req sh envs k offset resps)
    (hat : AtPage (matching appId owner req sh.db) (clampLimit req.limit) k offset) :
    ∃ (j : ℕ) (shown : List Resource),
      (matching appId owner req sh.db).length ≤ j * clampLimit req.limit ∧
      resps.flatMap (·.resources) = shown.map toProto ∧
      pages (clampLimit req.limit) (arrangement appId owner req sh.db envs) k ++ shown =
        pages (clampLimit req.limit) (arrangement appId owner req sh.db envs) j := by
  induction hwalk with
  | @last k offset resp hanswer hnil =>
    rw [answers_iff happ htype] at hanswer
    subst hanswer
    have hlen := page_length hat (envs k)
    have hpos := clampLimit_pos req.limit
    simp only [List.map_eq_nil_iff] at hnil
    rw [hnil, List.length_nil] at hlen
    refine ⟨k, [], by omega, ?_, List.append_nil _⟩
    simp [hnil]
  | @next k offset resp resps hanswer hne hrest ih =>
    rw [answers_iff happ htype] at hanswer
    subst hanswer
    rw [List.length_map] at ih
    obtain ⟨j, shown, hj, hflat, hpages⟩ := ih (atPage_next hlt hat (envs k))
    refine ⟨j, page appId owner req sh.db (envs k) offset ++ shown, hj, ?_, ?_⟩
    · rw [List.flatMap_cons, hflat, List.map_append]
    · rw [← hpages, pages, ← page_eq hat, List.append_assoc]

theorem walk_total (hwalk : Walk lib owner req sh envs k offset resps) :
    resps ≠ [] ∧ ∀ resp ∈ resps, resp.total =
      UInt32.ofNat (matching appId owner req sh.db).length := by
  induction hwalk with
  | last hanswer hnil =>
    rw [answers_iff happ htype] at hanswer
    subst hanswer
    simp
  | next hanswer hne hrest ih =>
    rw [answers_iff happ htype] at hanswer
    subst hanswer
    refine ⟨by simp, fun resp hresp => ?_⟩
    rcases List.mem_cons.mp hresp with rfl | hresp
    · rfl
    · exact ih.2 resp hresp

omit happ htype in
theorem walk_unique {resps' : List ListResourcesResponse}
    (hwalk : Walk lib owner req sh envs k offset resps)
    (hwalk' : Walk lib owner req sh envs k offset resps') : resps = resps' := by
  have hsame : ∀ {env : Env} {offset : UInt32} {resp resp' : ListResourcesResponse},
      Answers lib owner req sh env offset resp → Answers lib owner req sh env offset resp' →
      resp = resp' := by
    intro env offset resp resp' hanswer hanswer'
    simpa using hanswer.symm.trans hanswer'
  induction hwalk generalizing resps' with
  | last hanswer hnil =>
    cases hwalk' with
    | last hanswer' _ => rw [hsame hanswer hanswer']
    | next hanswer' hne _ => exact absurd (hsame hanswer hanswer' ▸ hnil) hne
  | next hanswer hne _ ih =>
    cases hwalk' with
    | last hanswer' hnil => exact absurd (hsame hanswer hanswer' ▸ hnil) hne
    | next hanswer' _ hrest' =>
      obtain rfl := hsame hanswer hanswer'
      rw [ih hrest']

omit happ htype in
/-- Pages that show the rows once each are without repetition. -/
theorem nodup_of_shown {rows shown L : List Resource} (hids : (rows.map (·.id)).Nodup)
    (hperm : shown.Perm rows) (hsame : L.map toProto = shown.map toProto) : L.Nodup := by
  have hstrings : (shown.map fun r => (toProto r).id).Nodup := by
    have hnodup : ((shown.map (·.id)).map Uuid.toString).Nodup :=
      (((hperm.map (·.id)).nodup_iff).mpr hids).map fun _ _ => Uuid.toString_inj
    rwa [List.map_map] at hnodup
  have hL : (L.map fun r => (toProto r).id) = shown.map fun r => (toProto r).id := by
    have hboth := congrArg (List.map ProtoResource.id) hsame
    rwa [List.map_map, List.map_map] at hboth
  rw [← hL] at hstrings
  exact hstrings.of_map _

theorem complete_of_noTie (hlt : (matching appId owner req sh.db).length < 2 ^ 32)
    (htie : NoTie updated (clampLimit req.limit) (matching appId owner req sh.db)) :
    ∃ resps, Walk lib owner req sh envs 0 0 resps ∧
    Complete (matching appId owner req sh.db) resps := by
  have hat := atPage_zero (matching appId owner req sh.db) (clampLimit req.limit)
  obtain ⟨resps, hwalk⟩ : ∃ resps, Walk lib owner req sh envs 0 0 resps :=
    exists_walk happ htype hlt _ hat le_rfl
  obtain ⟨j, shown, hj, hflat, hpages⟩ := walk_pages happ htype hlt hwalk hat
  have hall := pages_all (clampLimit_pos req.limit)
    (@arrangement_arranged owner appId req sh envs) htie hj
  rw [pages, List.nil_append] at hpages
  refine ⟨resps, hwalk, ⟨shown, hflat, ?_, ?_⟩, fun resp hresp => ?_⟩
  · rw [hpages]
    exact hall.perm
  · rw [hpages]
    exact hall.sorted
  · rw [(walk_total happ htype hwalk).2 resp hresp, UInt32.toNat_ofNat', Nat.mod_eq_of_lt hlt]

/-- A tie across a boundary is shown twice in some order of the pages. -/
theorem exists_incomplete (hids : (sh.db.resources.map (·.id)).Nodup)
    (hlt : (matching appId owner req sh.db).length < 2 ^ 32)
    (htie : ¬ NoTie updated (clampLimit req.limit) (matching appId owner req sh.db)) :
    ∃ envs : ℕ → Env, ∀ resps, Walk lib owner req sh envs 0 0 resps →
      ¬ Complete (matching appId owner req sh.db) resps := by
  have hrows : ((matching appId owner req sh.db).map (·.id)).Nodup :=
    hids.sublist (List.filter_sublist.map _)
  have hsorted : Arranged updated (matching appId owner req sh.db)
      (ResourceRepository.newestFirst (fun _ => 0) (matching appId owner req sh.db)) :=
        newestFirst_arranged
  obtain ⟨j, L', hj, hlong, hL', htwice⟩ := exists_repeated (clampLimit_pos req.limit) hsorted htie
  -- page `j` comes in the order `L'`, the others in the order of the table
  let envs : ℕ →
      Env := fun i => { Env.at 0 0 0 with rank := if i = j then place L' else fun _ => 0 }
  have henvs : arrangement appId owner req sh.db envs = fun i => if i = j then L' else
      ResourceRepository.newestFirst (fun _ => 0) (matching appId owner req sh.db) := by
    funext i
    by_cases hi : i = j
    · simp only [arrangement, envs, if_pos hi]
      exact newestFirst_place hL' hrows
    · simp only [arrangement, envs, if_neg hi]
  refine ⟨envs, fun resps hwalk hcomplete => ?_⟩
  obtain ⟨j', shown, hj', hflat, hpages⟩ := walk_pages happ htype hlt hwalk (atPage_zero _ _)
  obtain ⟨shown', hflat', hperm, -⟩ := hcomplete.once
  rw [pages, List.nil_append, henvs] at hpages
  have hjj' : j < j' := by
    by_contra hge
    have := Nat.mul_le_mul_right (clampLimit req.limit) (not_lt.mp hge)
    omega
  refine htwice j' hjj' ?_
  rw [← hpages]
  exact nodup_of_shown hrows hperm (hflat.symm.trans hflat')

end Run

/-! ## The condition -/

/-- **Every matching resource exactly once**, in whatever order Postgres leaves rows of one instant,
    exactly where the count fits in 32 bits and no instant is on both sides of a page boundary. -/
theorem listing_once_iff (lib : Libs) (owner appId : Uuid) (req : ListResourcesRequest)
    (sh : Shared) (hids : Keyed (Table.key .resources) sh.db.resources)
    (happ : parseUuid lib req.appId "app_id" = .ok appId)
    (htype : (trim req.resourceType).isEmpty = false) :
    (∀ envs : ℕ → Env, ∃ resps, Walk lib owner req sh envs 0 0 resps ∧
        Complete (matching appId owner req sh.db) resps) ↔
      (matching appId owner req sh.db).length < 2 ^ 32 ∧
        NoTie updated (clampLimit req.limit) (matching appId owner req sh.db) := by
  have hnodup : (sh.db.resources.map (·.id)).Nodup := by
    have hkeys : ((sh.db.resources.map (·.id)).map Key.uuid).Nodup := by
      rw [List.map_map]
      exact hids
    exact hkeys.of_map _
  constructor
  · intro hall
    have hlt : (matching appId owner req sh.db).length < 2 ^ 32 := by
      obtain ⟨resps, hwalk, hcomplete⟩ := hall fun _ => Env.at 0 0 0
      obtain ⟨resp, hresp⟩ := List.exists_mem_of_ne_nil resps (walk_total happ htype hwalk).1
      rw [← hcomplete.total resp hresp]
      exact resp.total.toNat_lt
    refine ⟨hlt, ?_⟩
    by_contra htie
    obtain ⟨envs, hbad⟩ := @exists_incomplete lib owner appId req sh happ htype hnodup hlt htie
    obtain ⟨resps, hwalk, hcomplete⟩ := hall envs
    exact hbad resps hwalk hcomplete
  · rintro ⟨hlt, htie⟩ envs
    exact complete_of_noTie happ htype hlt htie

/-- Two resources of Ann's, made in one microsecond. -/
def tied (n : UInt8) : Resource where
  id := Sample.uuid n
  appId := Sample.tasks.id
  resourceType := "task"
  appResourceId := Sample.uuid n
  parentResourceId := none
  ownerUserId := Sample.ann.id
  createdAt := ⟨0⟩
  updatedAt := ⟨0⟩
  deletedAt := none
  contentBlob := []
  contentSignature := []
  lastModifiedBy := Sample.ann.id
  schemaVersion := 1
  changeSeq := n.toNat

def tiedStore : Shared := ⟨⟨fun
  | .resources => [tied 10, tied 11]
  | t => Sample.db.rows t⟩, Mem.fresh⟩

/-- One task a page. -/
def oneByOne : ListResourcesRequest where
  appId := Sample.tasks.id.toString
  resourceType := "task"
  limit := 1
  offset := 0
  includeDeleted := false

/-- The same two, the second a microsecond later. -/
def laterStore : Shared := ⟨⟨fun
  | .resources => [tied 10, { tied 11 with updatedAt := ⟨1000⟩ }]
  | t => Sample.db.rows t⟩, Mem.fresh⟩

theorem later_resources_listed_once :
    (matching Sample.tasks.id Sample.ann.id oneByOne laterStore.db).length = 2 ∧
      ∀ envs : ℕ → Env, ∃ resps, Walk Libs.sample Sample.ann.id oneByOne laterStore envs 0 0 resps ∧
        Complete (matching Sample.tasks.id Sample.ann.id oneByOne laterStore.db) resps := by
  have hkeys : sortedKeys updated (matching Sample.tasks.id Sample.ann.id oneByOne laterStore.db) =
      [1000, 0] := by decide +kernel
  refine ⟨by decide +kernel, (listing_once_iff Libs.sample Sample.ann.id Sample.tasks.id oneByOne
    laterStore (by decide +kernel) rfl (by decide +kernel)).mpr ⟨by decide +kernel, ?_⟩⟩
  intro j hj k hbefore hafter
  rw [hkeys, show clampLimit oneByOne.limit = 1 from rfl, Nat.mul_one] at hbefore hafter
  obtain ⟨hlt, -⟩ := List.getElem?_eq_some_iff.mp hafter
  obtain rfl : j = 1 := by
    simp only [List.length_cons, List.length_nil] at hlt
    omega
  simp only [Nat.sub_self, List.getElem?_cons_zero, List.getElem?_cons_succ,
    Option.some.injEq] at hbefore hafter
  omega

/-- The second page comes in another order than the first. -/
def swapped (i : ℕ) : Env :=
  { Env.at 0 0 0 with rank := fun id => if (id = Sample.uuid 10) = (i = 0) then 0 else 1 }

/-- Two resources of one microsecond: the first is on both pages and the second on none. -/
theorem tied_resources_listed_twice :
    Walk Libs.sample Sample.ann.id oneByOne tiedStore swapped 0 0
        [⟨[toProto (tied 10)], 2⟩, ⟨[toProto (tied 10)], 2⟩, ⟨[], 2⟩] ∧
      ¬ ∃ resps, Walk Libs.sample Sample.ann.id oneByOne tiedStore swapped 0 0 resps ∧
        Complete (matching Sample.tasks.id Sample.ann.id oneByOne tiedStore.db) resps := by
  have happ : parseUuid Libs.sample oneByOne.appId "app_id" = .ok Sample.tasks.id := by rfl
  have htype : (trim oneByOne.resourceType).isEmpty = false := by decide +kernel
  have hwalk : Walk Libs.sample Sample.ann.id oneByOne tiedStore swapped 0 0
      [⟨[toProto (tied 10)], 2⟩, ⟨[toProto (tied 10)], 2⟩, ⟨[], 2⟩] := by
    refine .next ((answers_iff happ htype _ _ _).mpr (by decide +kernel)) (by simp) ?_
    refine .next ((answers_iff happ htype _ _ _).mpr (by decide +kernel)) (by simp) ?_
    exact .last ((answers_iff happ htype _ _ _).mpr (by decide +kernel)) rfl
  refine ⟨hwalk, ?_⟩
  rintro ⟨resps, hwalk', hcomplete⟩
  obtain rfl := walk_unique hwalk hwalk'
  obtain ⟨shown, hflat, hperm, -⟩ := hcomplete.once
  have hids : ((matching Sample.tasks.id Sample.ann.id oneByOne tiedStore.db).map
      (·.id)).Nodup := by
    decide +kernel
  have hnodup := nodup_of_shown (L := [tied 10, tied 10]) hids hperm hflat
  exact absurd hnodup (by decide)

end SylvaServer.Listing
