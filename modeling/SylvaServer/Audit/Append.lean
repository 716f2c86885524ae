/-
  What appends keep of the audit log.

  Any number of transactions run side by side, each appending any number of events, looking at
  each result before it goes on, and then committing or rolling back. The advisory lock makes
  the holder's uncommitted rows a continuation of the committed log; gaps left by rollbacks
  do not matter because only the order of `seqno` counts.

  Proved: one walk through `append`, for every property of the log that lasts when a number is
  drawn and when a row is added with it (`safe_append`); in every run such a property holds and
  the log only grows, at its end (`log_grows`).
-/
import SylvaServer.Model.Audit
import SylvaServer.ReadCommitted.Logic
import Mathlib.Data.Fintype.Basic

namespace SylvaServer.Audit

open ReadCommitted ReadCommitted.Prog

/-! ## Transactions that append -/

/-- A transaction that appends events and then ends; each next move depends on what the last
    append gave. -/
inductive AuditTx where
  | commit
  | rollback
  | append (actor : Option Actor) (appId : Option String) (eventType : String)
      (eventData : EventData) (next : Except SqlError AuditEvent → AuditTx)

namespace AuditTx

/-- What it runs after `BEGIN`. -/
def body (lib : Libs) : AuditTx → Query Unit
  | .commit => commitTx
  | .rollback => pure ()
  | .append actor appId eventType eventData next => do
    let r ← (Audit.append lib actor appId eventType eventData).attempt
    (next r).body lib

def program (lib : Libs) (t : AuditTx) : Query Unit := do
  beginTx
  t.body lib

/-- Every event it may append has data without floats. -/
def FloatFree : AuditTx → Prop
  | .commit => True
  | .rollback => True
  | .append _ _ _ eventData next => eventData.FloatFree ∧ ∀ r, (next r).FloatFree

/-- Every event it may append has allowed data. -/
def Allowed (allowed : EventData → Prop) : AuditTx → Prop
  | .commit => True
  | .rollback => True
  | .append _ _ _ eventData next => allowed eventData ∧ ∀ r, (next r).Allowed allowed

theorem FloatFree.allowed {t : AuditTx} (h : t.FloatFree) :
    t.Allowed CompactJson.Value.FloatFree := by
  induction t with
  | commit => trivial
  | rollback => trivial
  | append actor appId eventType eventData next ih => exact ⟨h.1, fun r => ih r (h.2 r)⟩

theorem allowed_true (t : AuditTx) : t.Allowed fun _ => True := by
  induction t with
  | commit => trivial
  | rollback => trivial
  | append actor appId eventType eventData next ih => exact ⟨trivial, ih⟩

end AuditTx

/-- An append that hands its result over, as a chain of statements. -/
theorem append_attempt (lib : Libs) (actor : Option Actor) (appId : Option String)
    (eventType : String) (eventData : EventData) {ε α : Type}
    (f : Except SqlError AuditEvent → Prog Env Db Write LockKey Mem SqlError ε α) :
    ((append lib actor appId eventType eventData).attempt >>= f) =
      .stmt advisoryXactLock fun
        | .error e => f (.error e)
        | .ok () => .stmt nextSeqno fun
          | .error e => f (.error e)
          | .ok seqno => .stmt lastHash fun
            | .error e => f (.error e)
            | .ok last => .mem (fun env m => (env.now, m)) fun now =>
              .stmt (insertEvent lib
                { seqno := seqno
                  occurredAt := truncateToMicros now
                  actorUserId := actor.map Actor.userId
                  actorDisplayName := actor.map Actor.displayName
                  appId := appId
                  eventType := eventType
                  eventData := eventData
                  prevHash := last.getD (genesisHash lib)
                  hash := computeHash lib (last.getD (genesisHash lib)) (Canonical.toVec lib
                    { actorDisplayName := actor.map Actor.displayName
                      actorUserId := actor.map Actor.userId
                      appId := appId
                      eventData := eventData
                      eventType := eventType
                      occurredAt := truncateToMicros now
                      seqno := seqno }) }) f := by
  unfold append inTx ask critical
  simp only [bind_stmt, bind_mem, attempt]
  refine congrArg (Prog.stmt _) (funext fun r => ?_)
  cases r with
  | error e => rfl
  | ok u =>
    refine congrArg (Prog.stmt _) (funext fun r => ?_)
    cases r with
    | error e => rfl
    | ok seqno =>
      refine congrArg (Prog.stmt _) (funext fun r => ?_)
      cases r with
      | error e => rfl
      | ok last => rfl

theorem truncateToMicros_nanos (ts : DateTime) : (truncateToMicros ts).nanos % 1000 = 0 := by
  have hlt : ts.nanosecond / 1000 * 1000 < 2000000000 := by
    unfold DateTime.nanosecond
    omega
  simp only [truncateToMicros, DateTime.withNanosecond, if_pos hlt, Option.getD_some]
  unfold DateTime.nanosecond
  omega

/-! ## What lasts under appends -/

/-- What `SELECT hash … ORDER BY seqno DESC LIMIT 1` finds, or the genesis hash. -/
def lastHashOf (lib : Libs) (events : List AuditEvent) : Bytes :=
  ((orderDesc AuditEvent.seqno events).head?.map AuditEvent.hash).getD (genesisHash lib)

/-- A row as `append` hands it to the table: linked to the last hash, hashed, on whole
    microseconds. -/
structure Appended (lib : Libs) (events : List AuditEvent) (row : AuditEvent) : Prop where
  links : row.prevHash = lastHashOf lib events
  hashed : row.hash = computeHash lib row.prevHash ((canonicalOf row).toVec lib)
  micros : row.occurredAt.nanos % 1000 = 0

/-- The row as the table gives it back. -/
def storedEvent (lib : Libs) (row : AuditEvent) : AuditEvent :=
  { row with
    occurredAt := lib.timestamptz row.occurredAt
    eventData := lib.jsonb row.eventData }

/-- `I`, of the log and its sequence, lasts when a number is drawn, and when a row with allowed
    data is appended with that number. -/
structure Growth (lib : Libs) (allowed : EventData → Prop) (I : List AuditEvent → Int → Prop) :
    Prop where
  mono : ∀ events m n, I events m → m ≤ n → I events n
  concat : ∀ events m row, I events m → m < row.seqno → allowed row.eventData →
    Appended lib events row → I (events ++ [storedEvent lib row]) row.seqno

/-! ## The contract of a transaction -/

/-- Log and sequence are the same. -/
def SameLog (sh sh' : Shared) : Prop :=
  sh'.db.events = sh.db.events ∧ sh'.mem.eventsSeq = sh.mem.eventsSeq

/-- `I` holds of the log, which grows at its end. While a transaction holds the advisory lock
    nobody else touches the log or its sequence; a transaction that does not hold it leaves them
    alone. -/
def logContract (I : List AuditEvent → Int → Prop) {ε α : Type} :
    Contract Env Db Write LockKey Mem SqlError ε α where
  inv sh := I sh.db.events sh.mem.eventsSeq
  rely p sh sh' := .auditAdvisory ∈ p.locks → SameLog sh sh'
  guar p sh p' sh' := I sh'.db.events sh'.mem.eventsSeq ∧ sh.db.events <+: sh'.db.events ∧
    (.auditAdvisory ∉ p.locks → .auditAdvisory ∉ p'.locks → SameLog sh sh')
  done _ _ := True

/-- The transaction holds the lock, has its rows at the end of the log, and `P` holds of the log
    it sees and of the sequence. -/
structure Pinned (P : List AuditEvent → Int → Prop) (ws : List Write) (ls : List LockKey)
    (sh : Shared) : Prop where
  lock : .auditAdvisory ∈ ls
  grown : sh.db.events <+: (applyAll sh.db ws).events
  log : P (applyAll sh.db ws).events sh.mem.eventsSeq

theorem Pinned.stable {P : List AuditEvent → Int → Prop} {ws : List Write} {ls : List LockKey}
    {sh sh₁ : Shared} (h : Pinned P ws ls sh) (hr : .auditAdvisory ∈ ls → SameLog sh sh₁) :
    Pinned P ws ls sh₁ := by
  obtain ⟨hev, hseq⟩ := hr h.lock
  have hview : (applyAll sh₁.db ws).events = (applyAll sh.db ws).events :=
    applyAll_rows_congr ws hev
  refine ⟨h.lock, ?_, ?_⟩
  · rw [hview, hev]
    exact h.grown
  · rw [hview, hseq]
    exact h.log

/-- It has drawn `n`, which is past every row. -/
abbrev Drawn (I : List AuditEvent → Int → Prop) (n : Int) :=
  Pinned fun events seq => seq = n ∧ ∃ m < n, I events m

/-- It has drawn `n` and read the last hash. -/
abbrev Linked (lib : Libs) (I : List AuditEvent → Int → Prop) (n : Int) (prevHash : Bytes) :=
  Pinned fun events seq => seq = n ∧ (∃ m < n, I events m) ∧ prevHash = lastHashOf lib events

/-- What a transaction knows of the log: it has no row there, or it holds the lock. -/
def Known (I : List AuditEvent → Int → Prop) (ws : List Write) (ls : List LockKey)
    (sh : Shared) : Prop := (∀ w ∈ ws, w.table ≠ .events) ∨ Pinned I ws ls sh

theorem known_nil {I : List AuditEvent → Int → Prop} (ls : List LockKey) (sh : Shared) :
    Known I [] ls sh := Or.inl (by simp)

section Safety

variable {lib : Libs} {allowed : EventData → Prop} {I : List AuditEvent → Int → Prop}
  {sh : Shared} {ws : List Write} {ls : List LockKey} {ε α : Type}

theorem guar_same {p p' : Proc Env Db Write LockKey Mem SqlError ε α} {sh' : Shared}
    (h : I sh.db.events sh.mem.eventsSeq) (hsame : SameLog sh sh') :
    (logContract I).guar p sh p' sh' := by
  refine ⟨?_, ?_, fun _ _ => hsame⟩
  · rw [hsame.1, hsame.2]
    exact h
  · rw [hsame.1]

theorem guar_quiet {p p' : Proc Env Db Write LockKey Mem SqlError ε α}
    (h : I sh.db.events sh.mem.eventsSeq) : (logContract I).guar p sh p' sh :=
  guar_same h ⟨rfl, rfl⟩

/-- What the holder of the lock commits continues the log. -/
theorem Pinned.guar_commit {p p' : Proc Env Db Write LockKey Mem SqlError ε α}
    (h : Pinned I p.writes p.locks sh) :
    (logContract I).guar p sh p' ⟨applyAll sh.db p.writes, sh.mem⟩ :=
  ⟨h.log, h.grown, fun hn => absurd h.lock hn⟩

theorem safe_ret (r : Except ε α) (tx : Option (Tx Write LockKey)) :
    Safe (logContract I) ⟨.ret r, tx⟩ sh :=
  .ret (fun _ _ hinv _ => guar_quiet hinv) fun _ _ _ _ _ _ => trivial

/-- Nothing an aborted transaction can still do touches the log. -/
theorem safe_aborted (t : AuditTx) : Safe (logContract I) ⟨t.body lib, some .aborted⟩ sh := by
  induction t generalizing sh with
  | commit =>
    exact .commit_aborted fun sh₁ hinv _ r => ⟨guar_quiet hinv, safe_ret r none⟩
  | rollback => exact safe_ret _ _
  | append actor appId eventType eventData next ih =>
    rw [AuditTx.body, append_attempt]
    exact .stmt_aborted fun sh₁ hinv _ e => ⟨guar_quiet hinv, ih (.error e)⟩

/-- `nextval` on the sequence of the log. -/
theorem nextSeqno_spec (env : Env) (mem : Mem) (db : Db) :
    (∃ e, nextSeqno env mem db = failed e mem) ∨
    nextSeqno env mem db =
      { result := .ok (mem.eventsSeq + 1), writes := [], locks := [],
        mem := { mem with eventsSeq := mem.eventsSeq + 1 } } := by
  by_cases h : mem.eventsSeq < 9223372036854775807
  · right
    unfold nextSeqno nextval
    rw [if_pos h]
  · left
    unfold nextSeqno nextval
    rw [if_neg h]
    exact ⟨_, rfl⟩

section Append

variable {f : Except SqlError AuditEvent → Prog Env Db Write LockKey Mem SqlError ε α}
  (hI : Growth lib allowed I)
  (herr : ∀ e sh, Safe (logContract I) ⟨f (.error e), some .aborted⟩ sh)
  (hok : ∀ row ws ls sh, Pinned I ws ls sh →
    Safe (logContract I) ⟨f (.ok row), some (.active ws ls)⟩ sh)

include hI herr hok

/-- The insert, with the number drawn and the last hash read. -/
theorem safe_insertEvent {row : AuditEvent} (hdata : allowed row.eventData)
    (hmicros : row.occurredAt.nanos % 1000 = 0)
    (hhash : row.hash = computeHash lib row.prevHash ((canonicalOf row).toVec lib))
    (h : Linked lib I row.seqno row.prevHash ws ls sh) :
    Safe (logContract I) ⟨.stmt (insertEvent lib row) f, some (.active ws ls)⟩ sh := by
  refine .stmt fun sh₁ hinv hr => ⟨fun e => ⟨guar_quiet hinv, herr e _⟩, fun env o ho => ?_⟩
  have h₁ := h.stable hr
  obtain ⟨hseq, ⟨m, hm, hrows⟩, hprev⟩ := h₁.log
  have hinsert : insertEvent lib row env sh₁.mem (applyAll sh₁.db ws) =
      insertRow .events (storedEvent lib row) false [] [] sh₁.mem (applyAll sh₁.db ws) := rfl
  rw [hinsert] at ho
  subst ho
  rcases insertRow_cases .events (storedEvent lib row) false [] [] sh₁.mem (applyAll sh₁.db ws)
    with ⟨e, he⟩ | ⟨heq, hfresh, -, -⟩
  · rw [he]
    exact ⟨fun e _ => ⟨guar_quiet hinv, herr e _⟩, fun b hb => by simp [failed] at hb⟩
  rw [heq]
  refine ⟨fun e he => by simp at he, fun b _ => ⟨guar_quiet hinv, ?_⟩⟩
  have hview : (applyAll sh₁.db (ws ++ [.put .events (storedEvent lib row)])).events =
      (applyAll sh₁.db ws).events ++ [storedEvent lib row] := by
    rw [applyAll_append, applyAll_cons, applyAll_nil]
    exact (put_rows_self _ Table.events (storedEvent lib row)).trans (putRow_fresh hfresh)
  refine hok b _ _ _ ⟨by simp [h₁.lock], ?_, ?_⟩
  · rw [hview]
    exact h₁.grown.trans (List.prefix_append _ _)
  · rw [hview]
    change I _ sh₁.mem.eventsSeq
    rw [hseq]
    exact hI.concat _ m row hrows hm hdata ⟨hprev, hhash, hmicros⟩

/-- **One append.** Started without rows of its own or with the lock, an append keeps the
    contract; on success its row continues the log, on failure the transaction is aborted. -/
theorem safe_append {actor : Option Actor} {appId : Option String} {eventType : String}
    {eventData : EventData} (hdata : allowed eventData) (h : Known I ws ls sh) :
    Safe (logContract I)
      ⟨(append lib actor appId eventType eventData).attempt >>= f, some (.active ws ls)⟩ sh := by
  rw [append_attempt]
  -- the advisory lock: from here on the log and its sequence stand still
  refine .stmt fun sh₁ hinv hr => ⟨fun e => ⟨guar_quiet hinv, herr e _⟩, fun env o ho => ?_⟩
  have hheld : Pinned I ws (ls ++ [.auditAdvisory]) sh₁ := by
    rcases h with hother | h
    · have hsame : (applyAll sh₁.db ws).events = sh₁.db.events :=
        applyAll_rows_of_ne (t := .events) _ _ hother
      refine ⟨by simp, ?_, ?_⟩
      · rw [hsame]
      · rw [hsame]
        exact hinv
    · exact ⟨by simp, (h.stable hr).grown, (h.stable hr).log⟩
  subst ho
  refine ⟨fun e he => by simp [advisoryXactLock] at he, fun u _ => ⟨guar_quiet hinv, ?_⟩⟩
  simp only [advisoryXactLock, List.append_nil, List.map_nil, List.nil_append]
  -- the number
  refine .stmt fun sh₂ hinv₂ hr₂ => ⟨fun e => ⟨guar_quiet hinv₂, herr e _⟩, fun env₂ o₂ ho₂ => ?_⟩
  obtain ⟨hl, hgrown, hrows⟩ := hheld.stable hr₂
  rcases nextSeqno_spec env₂ sh₂.mem (applyAll sh₂.db ws) with ⟨e₂, he₂⟩ | hn
  · rw [he₂] at ho₂
    subst ho₂
    exact ⟨fun e _ => ⟨guar_quiet hinv₂, herr e _⟩, fun b hb => by simp [failed] at hb⟩
  rw [hn] at ho₂
  subst ho₂
  refine ⟨fun e he => by simp at he, fun seqno hs => ?_⟩
  obtain rfl : sh₂.mem.eventsSeq + 1 = seqno := by simpa using hs
  have hcommitted : I sh₂.db.events (sh₂.mem.eventsSeq + 1) :=
    hI.mono _ _ _ hinv₂ (by omega)
  have hdrawn : Drawn I (sh₂.mem.eventsSeq + 1) ws (ls ++ [.auditAdvisory])
      ⟨sh₂.db, { sh₂.mem with eventsSeq := sh₂.mem.eventsSeq + 1 }⟩ :=
    ⟨hl, hgrown, rfl, _, by omega, hrows⟩
  refine ⟨⟨hcommitted, List.prefix_rfl, fun hn => absurd hl hn⟩, ?_⟩
  simp only [List.append_nil, List.map_nil]
  generalize sh₂.mem.eventsSeq + 1 = seqno at *
  -- the last hash
  refine .stmt fun sh₃ hinv₃ hr₃ => ⟨fun e => ⟨guar_quiet hinv₃, herr e _⟩, fun env₃ o₃ ho₃ => ?_⟩
  obtain ⟨hl₃, hgrown₃, hseq₃, hrows₃⟩ := hdrawn.stable hr₃
  subst ho₃
  refine ⟨fun e he => by simp [lastHash, select] at he, fun last hlast => ⟨guar_quiet hinv₃, ?_⟩⟩
  simp only [lastHash, select, List.append_nil, List.map_nil]
  have hlinked : Linked lib I seqno (last.getD (genesisHash lib)) ws (ls ++ [.auditAdvisory])
      sh₃ := by
    refine ⟨hl₃, hgrown₃, hseq₃, hrows₃, ?_⟩
    simp only [lastHash, select, Except.ok.injEq] at hlast
    rw [← hlast]
    rfl
  -- the clock, then the insert
  refine .mem fun sh₄ hinv₄ hr₄ env₄ => ⟨guar_quiet hinv₄, ?_⟩
  exact safe_insertEvent hI herr hok hdata (truncateToMicros_nanos _) rfl (hlinked.stable hr₄)

end Append

variable (hI : Growth lib allowed I)

include hI

/-- **A transaction.** Whatever it appends and however it ends, it keeps the contract. -/
theorem safe_body (t : AuditTx) (ht : t.Allowed allowed) (h : Known I ws ls sh) :
    Safe (logContract I) ⟨t.body lib, some (.active ws ls)⟩ sh := by
  induction t generalizing sh ws ls with
  | commit =>
    refine .commit fun sh₁ hinv hr => ⟨fun e => ⟨guar_quiet hinv, safe_ret _ _⟩, ?_, safe_ret _ _⟩
    rcases h with hother | h
    · exact guar_same hinv ⟨applyAll_rows_of_ne (t := .events) _ _ hother, rfl⟩
    · exact (h.stable hr).guar_commit
  | rollback => exact safe_ret _ _
  | append actor appId eventType eventData next ih =>
    exact safe_append hI (fun e sh => safe_aborted (next (.error e)))
      (fun row ws ls sh hheld => ih (.ok row) (ht.2 _) (Or.inr hheld)) ht.1 h

theorem safe_program (t : AuditTx) (ht : t.Allowed allowed) :
    Safe (logContract I) ⟨t.program lib, none⟩ sh := by
  refine .begin fun sh₁ hinv _ =>
    ⟨fun e => ⟨guar_quiet hinv, safe_ret _ _⟩, guar_quiet hinv, ?_⟩
  exact safe_body hI t ht (known_nil _ _)

end Safety

/-! ## Every run -/

section Runs

variable {Pid : Type} [DecidableEq Pid] [Fintype Pid] {I : List AuditEvent → Int → Prop}
  {ε α : Type} {w₀ w : World Pid Env Db Write LockKey Mem SqlError ε α}

/-- What holds at every moment of a run of programs that keep the contract. -/
structure Appending (I : List AuditEvent → Int → Prop)
    (w : World Pid Env Db Write LockKey Mem SqlError ε α) : Prop where
  log : I w.sh.db.events w.sh.mem.eventsSeq
  exclusive : w.Exclusive
  safe : ∀ i, Safe (logContract I) (w.procs i) w.sh

/-- **The log grows at its end**, and `I` holds of it throughout. -/
theorem log_grows (h : Appending I w₀) (hr : World.Run World.anyStep w₀ w) :
    Appending I w ∧ w₀.sh.db.events <+: w.sh.db.events := by
  have hrun := hr.safe (fun _ => logContract I)
    (fun w => I w.sh.db.events w.sh.mem.eventsSeq ∧ w₀.sh.db.events <+: w.sh.db.events)
    (fun _ _ _ _ => ⟨rfl, rfl⟩)
    (fun _ p sh sh₁ sh₂ h h' hl => ⟨(h' hl).1.trans (h hl).1, (h' hl).2.trans (h hl).2⟩)
    (fun _ _ h => h.1) ?_ ⟨h.log, List.prefix_rfl⟩ h.exclusive h.safe
  · exact ⟨⟨hrun.1.1, hrun.2.1, hrun.2.2⟩, hrun.1.2⟩
  intro w i c w' hJ hx hx' hs _ hg
  obtain ⟨hlog, hgrown, honly⟩ := hg
  refine ⟨⟨hlog, hJ.2.trans hgrown⟩, fun j hj hl => ?_⟩
  -- `j` holds the lock before and after the step, so `i` does not
  obtain ⟨-, -, hsame⟩ := World.step_spec hs
  refine honly (fun hi => hx i j (Ne.symm hj) _ hi hl) fun hi => ?_
  exact hx' i j (Ne.symm hj) _ hi (hsame j hj ▸ hl)

/-- The transactions before they start. -/
def auditWorld (lib : Libs) (txs : Pid → AuditTx) (sh : Shared) :
    World Pid Env Db Write LockKey Mem SqlError SqlError Unit :=
  ⟨fun i => ⟨(txs i).program lib, none⟩, sh⟩

omit [DecidableEq Pid] [Fintype Pid] in
theorem appending_start {lib : Libs} {allowed : EventData → Prop} (hI : Growth lib allowed I)
    {txs : Pid → AuditTx} (htxs : ∀ i, (txs i).Allowed allowed) {sh : Shared}
    (h₀ : I sh.db.events sh.mem.eventsSeq) : Appending I (auditWorld lib txs sh) :=
  ⟨h₀, fun i j hij l hl => by simp [auditWorld] at hl, fun i => safe_program hI (txs i) (htxs i)⟩

end Runs

end SylvaServer.Audit
