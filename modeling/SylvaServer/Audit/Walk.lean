/-
  Walking back through the audit log.

  A reader asks `list` for the newest events, then again and again with the last `seqno` as its
  cursor, until a page is empty. Meanwhile transactions append, commit and roll back as they like.
  What they commit has greater numbers than anything committed before, so it stays above the cursor.

  Proved: the log stays in order (`ordered_growth`), `list` and `count_filtered` filter by the same
  condition (`listed_iff`, `counted_iff`), and the walk ends and shows the events that matched when
  it began, newest first and once each, as many as `count_filtered` counted then (`walk_complete`).
-/
import SylvaServer.Audit.Chain
import SylvaServer.Feed.Cursor

namespace SylvaServer.Audit

open ReadCommitted ReadCommitted.Prog

/-! ## The order of the log -/

/-- A log in `seqno` order, with no `seqno` past the sequence. -/
structure Ordered (events : List AuditEvent) (eventsSeq : Int) : Prop where
  sorted : events.Pairwise fun a b => a.seqno < b.seqno
  bounded : ∀ r ∈ events, r.seqno ≤ eventsSeq

/-- **The log stays in order**, whatever the rows say and however they are hashed. -/
theorem ordered_growth (lib : Libs) : Growth lib (fun _ => True) Ordered where
  mono events m n h hle := ⟨h.sorted, fun r hr => le_trans (h.bounded r hr) hle⟩
  concat events m row h hlt _ _ := by
    refine ⟨List.pairwise_append.mpr
      ⟨h.sorted, List.pairwise_singleton _ _, fun a ha b hb => ?_⟩, fun r hr => ?_⟩
    · obtain rfl := List.mem_singleton.mp hb
      have := h.bounded a ha
      change a.seqno < row.seqno
      omega
    · rcases List.mem_append.mp hr with hr | hr
      · have := h.bounded r hr
        omega
      · obtain rfl := List.mem_singleton.mp hr
        exact le_refl row.seqno

/-! ## The filter -/

/-- What a caller asks for with a filter. -/
structure Matches (lib : Libs) (text : PgText) (filter : ListFilter) (e : AuditEvent) : Prop where
  actor : ∀ a, filter.actor = some a → e.actorUserId = some a
  since : ∀ since, filter.since = some since → (lib.timestamptz since).nanos < e.occurredAt.nanos
  eventType : ∀ eventType, filter.eventType = some eventType → e.eventType = eventType
  search : ∀ search, filter.search = some search →
    searched text ("%" ++ search ++ "%") e

section Filter

variable {lib : Libs} {text : PgText} {filter : ListFilter} {e : AuditEvent}

theorem counted_iff : counted lib text filter e = true ↔ Matches lib text filter e := by
  simp only [counted, Bool.and_eq_true, Option.all_eq_true, beq_iff_eq, decide_eq_true_eq]
  constructor
  · rintro ⟨⟨⟨hactor, hsince⟩, htype⟩, hsearch⟩
    exact ⟨hactor, hsince, htype, hsearch⟩
  · intro h
    exact ⟨⟨⟨h.actor, h.since⟩, h.eventType⟩, h.search⟩

/-- The two conditions differ by the cursor alone. -/
theorem listed_eq : listed lib text filter e =
    (counted lib text filter e && filter.beforeSeqno.all fun before =>
      decide (e.seqno < before)) := by
  unfold listed counted
  cases filter.actor.all (fun a => e.actorUserId == some a) <;>
    cases filter.since.all
      (fun since => decide ((lib.timestamptz since).nanos < e.occurredAt.nanos)) <;>
    cases filter.beforeSeqno.all (fun before => decide (e.seqno < before)) <;> simp

theorem pageLimit_pos (filter : ListFilter) : 0 < pageLimit filter := by
  unfold pageLimit
  omega

end Filter

/-! ## Pages -/

/-- The filter for page `k`: no cursor, then the last `seqno` received. -/
def pageFilter (filter : ListFilter) (pages : ℕ → List AuditEvent) : ℕ → ListFilter
  | 0 => { filter with beforeSeqno := none }
  | k + 1 => { filter with beforeSeqno := (pages k).getLast?.map AuditEvent.seqno }

/-- Page `k` is what `list` answers in state `k`. -/
def Walks {Pid : Type} (lib : Libs) (text : PgText) (filter : ListFilter)
    (worlds : ℕ → Transactions Pid Unit) (pages : ℕ → List AuditEvent) : Prop :=
  ∀ k, ∃ env, (list lib text (pageFilter filter pages k) env (worlds k).sh.mem
    (worlds k).sh.db).result = .ok (pages k)

/-- Rows in `seqno` order, backwards. -/
theorem orderDesc_eq_reverse {events : List AuditEvent}
    (h : events.Pairwise fun a b => a.seqno < b.seqno) :
    orderDesc AuditEvent.seqno events = events.reverse := by
  have hperm : (orderDesc AuditEvent.seqno events).Perm events.reverse :=
    (List.perm_insertionSort _ _).trans (List.reverse_perm events).symm
  have hdesc : events.reverse.Pairwise fun a b => b.seqno ≤ a.seqno :=
    List.pairwise_reverse.mpr (h.imp le_of_lt)
  refine hperm.eq_of_pairwise (fun a b ha hb hab hba => ?_) (pairwise_orderDesc _ _) hdesc
  have hnodup : (events.map AuditEvent.seqno).Nodup :=
    (List.pairwise_map.mpr h).imp ne_of_lt
  exact List.inj_on_of_nodup_map hnodup (mem_orderDesc.mp ha) (List.mem_reverse.mp hb)
    (le_antisymm hba hab)

/-- What a page shows of a log in order. -/
theorem list_ordered {lib : Libs} {text : PgText} {filter : ListFilter} {sh : Shared}
    (hsorted : sh.db.events.Pairwise fun a b => a.seqno < b.seqno) (hoffset : filter.offset = none)
    (env : Env) : (list lib text filter env sh.mem sh.db).result =
      .ok ((sh.db.events.filter (listed lib text filter)).reverse.take (pageLimit filter)) := by
  unfold list
  rw [hoffset]
  simp only [Option.getD_none, lt_self_iff_false, if_false, Int.toNat_zero, List.drop_zero]
  rw [orderDesc_eq_reverse (hsorted.filter _)]

/-! ## The walk -/

section Walk

variable {Pid : Type} {lib : Libs} {text : PgText} {filter : ListFilter}
  {worlds : ℕ → Transactions Pid Unit} {pages : ℕ → List AuditEvent}

/-- The matching events of the first state, newest first. -/
def matching (lib : Libs) (text : PgText) (filter : ListFilter) (db : Db) : List AuditEvent :=
  (db.events.filter (counted lib text filter)).reverse

/-- Rows committed later have greater numbers, so below a row of the first state there is nothing
    new. -/
theorem filter_below_cursor (filter : ListFilter) {events rows : List AuditEvent} {x : AuditEvent}
    {filter' : ListFilter} (hsorted : (events ++ rows).Pairwise fun a b => a.seqno < b.seqno)
    (hx : x ∈ events) (hfilter : filter' = { filter with beforeSeqno := some x.seqno }) :
    ((events ++ rows).filter (listed lib text filter')).reverse =
      ((events.filter (counted lib text filter)).reverse).filter fun e => e.seqno < x.seqno := by
  have hsame : ∀ e, listed lib text filter' e =
      (decide (e.seqno < x.seqno) && counted lib text filter e) := by
    intro e
    rw [listed_eq, hfilter, Bool.and_comm]
    rfl
  have hnew : rows.filter (listed lib text filter') = [] := by
    refine List.filter_eq_nil_iff.mpr fun e he => ?_
    have := (List.pairwise_append.mp hsorted).2.2 x hx e he
    rw [hsame]
    simp [this.le]
  rw [List.filter_append, hnew, List.append_nil, List.filter_reverse, List.filter_filter]
  exact congrArg List.reverse (List.filter_congr fun e _ => hsame e)

theorem pages_of_walks (hwalk : Walks lib text filter worlds pages) (hoffset : filter.offset = none)
    (hsorted : ∀ k, (worlds k).sh.db.events.Pairwise fun a b => a.seqno < b.seqno)
    (hgrown : ∀ k, (worlds 0).sh.db.events <+: (worlds k).sh.db.events) :
    Cursor.Pages AuditEvent.seqno (pageLimit filter)
      (matching lib text filter (worlds 0).sh.db) pages := by
  have hpage : ∀ k, pages k = (((worlds k).sh.db.events.filter
      (listed lib text (pageFilter filter pages k))).reverse).take (pageLimit filter) := by
    intro k
    obtain ⟨env, hanswer⟩ := hwalk k
    have hoff : (pageFilter filter pages k).offset = none := by cases k <;> exact hoffset
    rw [list_ordered (hsorted k) hoff] at hanswer
    have hlimit : pageLimit (pageFilter filter pages k) = pageLimit filter := by cases k <;> rfl
    rw [hlimit] at hanswer
    exact (Except.ok.inj hanswer).symm
  refine ⟨?_, fun k x hx hlast => ?_⟩
  · rw [hpage 0]
    have hsame : ∀ e, listed lib text (pageFilter filter pages 0) e =
        counted lib text filter e := by
      intro e
      rw [listed_eq]
      exact Bool.and_true _
    rw [List.filter_congr fun e _ => hsame e]
    rfl
  · obtain ⟨rows, hrows⟩ := hgrown (k + 1)
    have hevents : x ∈ (worlds 0).sh.db.events :=
      List.mem_of_mem_filter (List.mem_reverse.mp hx)
    have hnext := hsorted (k + 1)
    rw [hpage (k + 1), ← hrows]
    rw [← hrows] at hnext
    rw [filter_below_cursor filter hnext hevents (by rw [pageFilter, hlast]; rfl)]
    rfl

end Walk

/-- **The walk ends and is complete.** While any transactions append, commit and roll back, the
    pages up to the first empty one show the events that matched when the first page was read,
    newest first and once each, and `count_filtered` would have counted them then. -/
theorem walk_complete {Pid : Type} [DecidableEq Pid] [Fintype Pid] (lib : Libs) (text : PgText)
    (filter : ListFilter) (hoffset : filter.offset = none) (txs : Pid → AuditTx) (sh : Shared)
    (h₀ : sh.db.events = []) (worlds : ℕ → Transactions Pid Unit) (pages : ℕ → List AuditEvent)
    (hstart : World.Run World.anyStep (auditWorld lib txs sh) (worlds 0))
    (hnext : ∀ k, World.Run World.anyStep (worlds k) (worlds (k + 1)))
    (hwalk : Walks lib text filter worlds pages) :
    ∃ n, (∀ k < n, pages k ≠ []) ∧ pages n = [] ∧
      ((List.range n).flatMap pages).Pairwise (fun a b => b.seqno < a.seqno) ∧
      (∀ e, e ∈ (List.range n).flatMap pages ↔
        e ∈ (worlds 0).sh.db.events ∧ Matches lib text filter e) ∧
      ∀ env, (countFiltered lib text filter env (worlds 0).sh.mem (worlds 0).sh.db).result =
        .ok ((List.range n).flatMap pages).length := by
  have hbegin : Appending Ordered (auditWorld lib txs sh) := by
    apply appending_start (ordered_growth lib) fun i => (txs i).allowed_true
    rw [h₀]
    exact ⟨List.Pairwise.nil, by simp⟩
  have hall : ∀ k, Appending Ordered (worlds k) ∧
      (worlds 0).sh.db.events <+: (worlds k).sh.db.events := by
    intro k
    induction k with
    | zero => exact ⟨(log_grows hbegin hstart).1, List.prefix_rfl⟩
    | succ k ih =>
      obtain ⟨happending, hgrown⟩ := log_grows ih.1 (hnext k)
      exact ⟨happending, ih.2.trans hgrown⟩
  have hpages := pages_of_walks hwalk hoffset (fun k => (hall k).1.log.sorted) fun k => (hall k).2
  have hsorted : (matching lib text filter (worlds 0).sh.db).Pairwise fun a b =>
      b.seqno < a.seqno :=
    List.pairwise_reverse.mpr ((hall 0).1.log.sorted.filter _)
  obtain ⟨n, hnonempty, hempty, hread⟩ := Cursor.walk_reads hpages (pageLimit_pos filter) hsorted
  refine ⟨n, hnonempty, hempty, ?_, fun e => ?_, fun env => ?_⟩
  · rw [hread]
    exact hsorted
  · rw [hread, matching, List.mem_reverse, List.mem_filter, counted_iff]
  · rw [hread, matching, List.length_reverse]
    rfl

/-! ### A page, an append, the next page -/

/-- The pages of a walk through given states. -/
def pagesOf {Pid : Type} (lib : Libs) (text : PgText) (filter : ListFilter)
    (worlds : ℕ → Transactions Pid Unit) : ℕ → List AuditEvent
  | 0 => answer { filter with beforeSeqno := none } (worlds 0)
  | k + 1 => answer { filter with
      beforeSeqno := (pagesOf lib text filter worlds k).getLast?.map AuditEvent.seqno }
        (worlds (k + 1))
where
  answer (filter : ListFilter) (w : Transactions Pid Unit) : List AuditEvent :=
    ((list lib text filter (Env.at 0 0 0) w.sh.mem w.sh.db).result.toOption).getD []

theorem walks_pagesOf {Pid : Type} (lib : Libs) (text : PgText) {filter : ListFilter}
    (hoffset : filter.offset = none) (worlds : ℕ → Transactions Pid Unit) :
    Walks lib text filter worlds (pagesOf lib text filter worlds) := by
  have hanswer : ∀ (filter : ListFilter) (w : Transactions Pid Unit), filter.offset = none →
      (list lib text filter (Env.at 0 0 0) w.sh.mem w.sh.db).result =
        .ok (pagesOf.answer lib text filter w) := by
    intro filter w hoffset
    unfold pagesOf.answer list
    rw [hoffset]
    rfl
  intro k
  refine ⟨Env.at 0 0 0, ?_⟩
  cases k with
  | zero => exact hanswer _ _ hoffset
  | succ k => exact hanswer _ _ hoffset

/-- All steps of one transaction. -/
def inFull (i : Fin 3) : List (Fin 3 × Choice Env SqlError) :=
  List.replicate 7 (i, ⟨Env.at 1700000000123456789 0 1, none⟩)

def threeEvents : Transactions (Fin 3) Unit :=
  auditWorld Libs.sample (fun _ => oneEvent true) ⟨Db.empty, Mem.fresh⟩

/-- Two events are there when the first page is read; the third comes before the second page. -/
def threeWorlds : ℕ → Transactions (Fin 3) Unit
  | 0 => threeEvents.reach (inFull 0 ++ inFull 1)
  | _ + 1 => (threeEvents.reach (inFull 0 ++ inFull 1)).reach (inFull 2)

/-- Texts are compared for equality. -/
def sampleText : PgText := ⟨fun s pattern => s == pattern, fun _ => ""⟩

/-- One event a page, of whatever kind. -/
def newestOne : ListFilter := ⟨none, none, none, some 1, none, none, none⟩

theorem walk_complete_two : (threeWorlds 0).sh.db.events.map AuditEvent.seqno = [1, 2] ∧
    (threeWorlds 1).sh.db.events.map AuditEvent.seqno = [1, 2, 3] ∧
    ∃ n, (∀ k < n, pagesOf Libs.sample sampleText newestOne threeWorlds k ≠ []) ∧
      pagesOf Libs.sample sampleText newestOne threeWorlds n = [] ∧
      ((List.range n).flatMap (pagesOf Libs.sample sampleText newestOne threeWorlds)).Pairwise
        (fun a b => b.seqno < a.seqno) ∧
      (∀ e, e ∈ (List.range n).flatMap (pagesOf Libs.sample sampleText newestOne threeWorlds) ↔
        e ∈ (threeWorlds 0).sh.db.events ∧ Matches Libs.sample sampleText newestOne e) ∧
      ∀ env, (countFiltered Libs.sample sampleText newestOne env (threeWorlds 0).sh.mem
          (threeWorlds 0).sh.db).result =
        .ok ((List.range n).flatMap
          (pagesOf Libs.sample sampleText newestOne threeWorlds)).length := by
  refine ⟨by decide +kernel, by decide +kernel, walk_complete Libs.sample sampleText newestOne rfl
    (fun _ => oneEvent true) ⟨Db.empty, Mem.fresh⟩ rfl threeWorlds _
    (World.run_followD threeEvents (inFull 0 ++ inFull 1)) (fun k => ?_)
    (walks_pagesOf Libs.sample sampleText rfl threeWorlds)⟩
  cases k with
  | zero => exact World.run_followD (threeWorlds 0) (inFull 2)
  | succ k => exact .start

end SylvaServer.Audit
