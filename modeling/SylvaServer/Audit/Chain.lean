/-
  The audit chain is intact in every reachable state.

  `Append` says what lasts under appends; here it is that the log is a valid chain. A row is
  hashed as it was written and read back as the table gives it, so its data must come back as
  they went in.

  Proved: an intact log stays intact under an append (`intact_growth`), and the theorem for every
  run (`chain_intact`).
-/
import SylvaServer.Audit.Append

namespace SylvaServer.Audit

open ReadCommitted ReadCommitted.Prog

/-! ## What holds of the log -/

/-- A log that is a valid chain, in `seqno` order, with no `seqno` past the sequence. -/
structure Intact (lib : Libs) (events : List AuditEvent) (eventsSeq : Int) : Prop where
  valid : (chain lib).Valid events
  sorted : events.Pairwise fun a b => a.seqno < b.seqno
  bounded : ∀ r ∈ events, r.seqno ≤ eventsSeq

theorem intact_nil (lib : Libs) (n : Int) : Intact lib [] n :=
  ⟨HashChain.Scheme.valid_nil _, List.Pairwise.nil, by simp⟩

/-- In an intact log the last hash is the tip of the chain. -/
theorem Intact.lastHash_eq {lib : Libs} {events : List AuditEvent} {n : Int}
    (h : Intact lib events n) : lastHashOf lib events = (chain lib).tip events := by
  rw [lastHashOf, head_orderDesc h.sorted]
  rfl

/-- **The chain grows by what is appended**, where the table gives the row back as it was hashed. -/
theorem intact_growth {lib : Libs}
    (htime : ∀ ts : DateTime, ts.nanos % 1000 = 0 → lib.timestamptz ts = ts)
    (hjson : ∀ v : EventData, v.FloatFree → lib.jsonb v = v) :
    Growth lib CompactJson.Value.FloatFree (Intact lib) where
  mono events m n h hle := ⟨h.valid, h.sorted, fun r hr => le_trans (h.bounded r hr) hle⟩
  concat events m row h hlt hdata happended := by
    have hstored : storedEvent lib row = row := by
      rw [storedEvent, htime _ happended.micros, hjson _ hdata]
    have hprev : row.prevHash = (chain lib).tip events := happended.links.trans h.lastHash_eq
    rw [hstored]
    refine ⟨?_, ?_, ?_⟩
    · have hhash := happended.hashed
      rw [hprev] at hhash
      exact (chain lib).valid_concat.mpr ⟨h.valid, hprev, hhash⟩
    · refine List.pairwise_append.mpr ⟨h.sorted, List.pairwise_singleton _ _, fun a ha b hb => ?_⟩
      obtain rfl : b = row := by simpa using hb
      have := h.bounded a ha
      omega
    · intro r hr
      rcases List.mem_append.mp hr with hr | hr
      · have := h.bounded r hr
        omega
      · obtain rfl : r = row := by simpa using hr
        omega

/-! ## Every run -/

/-- **The audit chain is intact in every reachable state.** Starting from an empty log, the
    committed rows in `seqno` order are a valid chain: the first links to genesis, each later
    one to the row before it, and every hash is that of the row read back. -/
theorem chain_intact {Pid : Type} [DecidableEq Pid] [Fintype Pid] (lib : Libs)
    (htime : ∀ ts : DateTime, ts.nanos % 1000 = 0 → lib.timestamptz ts = ts)
    (hjson : ∀ v : EventData, v.FloatFree → lib.jsonb v = v) (txs : Pid → AuditTx)
    (hf : ∀ i, (txs i).FloatFree) (sh : Shared) (h₀ : sh.db.events = [])
    (w : World Pid Env Db Write LockKey Mem SqlError SqlError Unit)
    (hr : World.Run World.anyStep (auditWorld lib txs sh) w) :
    (chain lib).Valid (orderAsc AuditEvent.seqno w.sh.db.events) := by
  have hstart : Appending (Intact lib) (auditWorld lib txs sh) :=
    appending_start (intact_growth htime hjson) (fun i => (hf i).allowed) (h₀ ▸ intact_nil lib _)
  have hint := (log_grows hstart hr).1.log
  rw [orderAsc_eq_self hint.sorted]
  exact hint.valid

/-! ### Two transactions, one rolled back -/

/-- Append one event, then commit or roll back. -/
def oneEvent (commits : Bool) : AuditTx :=
  .append none none "test" (.obj []) fun _ => if commits then .commit else .rollback

/-- `false` draws a number and rolls back, then `true` appends and commits. -/
def oneEventSchedule : List (Bool × Choice Env SqlError) :=
  let c : Choice Env SqlError := ⟨Env.at 1700000000123456789 0 1, none⟩
  [(true, c), (false, c), (false, c), (false, c), (false, c), (false, c), (false, c), (false, c),
    (true, c), (true, c), (true, c), (true, c), (true, c), (true, c)]

def oneEventWorld : World Bool Env Db Write LockKey Mem SqlError SqlError Unit :=
  auditWorld Libs.sample oneEvent ⟨Db.empty, Mem.fresh⟩

theorem sample_timestamptz (ts : DateTime) (h : ts.nanos % 1000 = 0) :
    Libs.sample.timestamptz ts = ts := by
  have hnanos : ts.nanos / 1000 * 1000 = ts.nanos := by omega
  cases ts
  simpa [Libs.sample] using hnanos

example : (oneEventWorld.follow oneEventSchedule).map (fun w => w.sh.db.events.map
    AuditEvent.seqno) = some [2] := by decide +kernel

theorem chain_intact_two : (chain Libs.sample).Valid (orderAsc AuditEvent.seqno
    ((oneEventWorld.follow oneEventSchedule).getD oneEventWorld).sh.db.events) :=
  chain_intact Libs.sample sample_timestamptz (fun _ _ => rfl) oneEvent
    (fun i => ⟨trivial, fun _ => by cases i <;> trivial⟩) ⟨Db.empty, Mem.fresh⟩ rfl _
    (World.run_followD _ _)

end SylvaServer.Audit
