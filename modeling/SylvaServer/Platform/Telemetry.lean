/-
  Batches of telemetry.

  `ReportTelemetry` stores the blobs of a batch one by one, each insert a transaction of its own,
  and squeezes the sequence number of a blob, a `u64`, into a `BIGINT`. What a fault leaves behind
  is the blobs before it, and a client that sends the batch again stores them again.

  Proved: a call stores a prefix of its batch (`call_stores`), and a client that resends until it is
  answered finds the batch stored once and as it sent it exactly where every failed call failed
  at its first insert and every sequence number fits (`batch_stored_once_iff`). A fault at the
  second insert leaves the first blob (`half_a_batch_is_stored`).
-/
import SylvaServer.ReadCommitted.Solo
import SylvaServer.Model.Machine

namespace SylvaServer.Telemetry

open ReadCommitted ReadCommitted.Prog MachineService

/-! ## What is stored -/

/-- A row without its id, its machine and its date. -/
def envelope (r : MachineTelemetry) : NewTelemetry where
  kind := r.kind
  recipientKeyId := r.recipientKeyId
  seq := r.seq
  ciphertext := r.ciphertext
  signature := r.signature

/-- A blob as it was sent. -/
def verbatim (b : TelemetryBlob) : NewTelemetry where
  kind := b.kind
  recipientKeyId := b.recipientKeyId
  seq := b.seq.toNat
  ciphertext := b.ciphertext
  signature := b.signature

/-- These blobs are new in the table, in this order and for this machine, and nothing else is. -/
def Appends (m : Uuid) (batch : List NewTelemetry) (sh sh' : Shared) : Prop :=
  ∃ rows : List MachineTelemetry, sh'.db.machineTelemetry = sh.db.machineTelemetry ++ rows ∧
    (∀ r ∈ rows, r.machineId = m) ∧ rows.map envelope = batch

/-- The machine is known, and the ids of the table come from the sequence. -/
structure Sound (m : Uuid) (sh : Shared) : Prop where
  machine : sh.db.dangles (.machines, .uuid m) = false
  ids : ∀ r ∈ sh.db.machineTelemetry, r.id ≤ sh.mem.telemetrySeq

section Appends

variable {m : Uuid} {batch batch' : List NewTelemetry} {sh sh' sh'' : Shared}

theorem appends_nil (h : sh'.db.machineTelemetry = sh.db.machineTelemetry) : Appends m [] sh sh' :=
  ⟨[], by rw [h, List.append_nil], by simp, rfl⟩

theorem Appends.trans (h : Appends m batch sh sh') (h' : Appends m batch' sh' sh'') :
    Appends m (batch ++ batch') sh sh'' := by
  obtain ⟨rows, hrows, hm, rfl⟩ := h
  obtain ⟨rows', hrows', hm', rfl⟩ := h'
  refine ⟨rows ++ rows', ?_, ?_, List.map_append⟩
  · rw [hrows', hrows, List.append_assoc]
  · intro r hr
    exact (List.mem_append.mp hr).elim (hm r) (hm' r)

theorem Appends.unique (h : Appends m batch sh sh') (h' : Appends m batch' sh sh') :
    batch = batch' := by
  obtain ⟨rows, hrows, -, rfl⟩ := h
  obtain ⟨rows', hrows', -, rfl⟩ := h'
  rw [List.append_cancel_left (hrows.symm.trans hrows')]

end Appends

/-! ## Faults -/

/-- Something from outside fails in this step. -/
def faulty (c : Option (Choice Env SqlError)) : Bool := c.any (·.fault.isSome)

/-- Insert `i` of a call cannot be stored: its statement or its commit fails, or the sequence has no
    number left. -/
def Struck (cs : List (Choice Env SqlError)) (last : ℤ) (i : ℕ) : Prop :=
  faulty cs[2 * i]? ∨ faulty cs[2 * i + 1]? ∨ lastSeq ≤ last + i

theorem struck_succ (c c' : Choice Env SqlError) (cs : List (Choice Env SqlError)) (last : ℤ)
    (i : ℕ) : Struck (c :: c' :: cs) last (i + 1) ↔ Struck cs (last + 1) i := by
  have hidx : 2 * (i + 1) = 2 * i + 1 + 1 := by omega
  have hlast : lastSeq ≤ last + ((i + 1 : ℕ) : ℤ) ↔ lastSeq ≤ last + 1 + (i : ℤ) := by omega
  unfold Struck
  rw [hidx, hlast, List.getElem?_cons_succ, List.getElem?_cons_succ, List.getElem?_cons_succ,
    List.getElem?_cons_succ]

/-! ## The loop -/

section Insert

variable {m : Uuid} {sh sh' : Shared} {g : SqlError → Status} {r : Except Status Unit}

/-- The row of a blob. -/
def row (m : Uuid) (id : ℤ) (createdAt : DateTime) (b : NewTelemetry) : MachineTelemetry where
  id := id
  machineId := m
  kind := b.kind
  recipientKeyId := b.recipientKeyId
  seq := b.seq
  ciphertext := b.ciphertext
  signature := b.signature
  createdAt := createdAt

theorem insertBlob_ok (hsound : Sound m sh) (hseq : sh.mem.telemetrySeq < lastSeq) (env : Env)
    (b : NewTelemetry) :
    MachineTelemetryRepository.insertBlob m b env sh.mem sh.db =
      { result := .ok ()
        writes := [.put .machineTelemetry (row m (sh.mem.telemetrySeq + 1) env.pgNow b)]
        locks := [.keyShare .machines (.uuid m) .machineTelemetry
          (.seqno (sh.mem.telemetrySeq + 1))]
        mem := { sh.mem with telemetrySeq := sh.mem.telemetrySeq + 1 } } := by
  have hfresh : (sh.db.rows .machineTelemetry).any (fun r => Table.key .machineTelemetry r ==
      Table.key .machineTelemetry (row m (sh.mem.telemetrySeq + 1) env.pgNow b)) = false := by
    refine List.any_eq_false.mpr fun r hr hkey => ?_
    have hid : r.id = sh.mem.telemetrySeq + 1 := by simpa [Table.key, row] using hkey
    have := hsound.ids r hr
    omega
  have hmachine : ([(.machines, .uuid m)] : List (Table × Key)).any sh.db.dangles = false := by
    simp [hsound.machine]
  have hnext : nextval sh.mem.telemetrySeq = .ok (sh.mem.telemetrySeq + 1) := if_pos hseq
  unfold MachineTelemetryRepository.insertBlob
  rw [hnext]
  change readAs _ (insertRow .machineTelemetry (row m (sh.mem.telemetrySeq + 1) env.pgNow b)
    false _ _ _ _) = _
  unfold insertRow
  rw [hfresh, hmachine]
  rfl

theorem insertBlob_full (hseq : lastSeq ≤ sh.mem.telemetrySeq) (env : Env) (b : NewTelemetry) :
    MachineTelemetryRepository.insertBlob m b env sh.mem sh.db =
      failed (.database "2200H") sh.mem := by
  have hnext : nextval sh.mem.telemetrySeq = .error (.database "2200H") := if_neg (not_lt.mpr hseq)
  unfold MachineTelemetryRepository.insertBlob
  rw [hnext]

/-- The store after one blob. -/
theorem insertBlob_stored (hsound : Sound m sh) (at' : DateTime) (b : NewTelemetry) :
    Appends m [b] sh ⟨sh.db.put .machineTelemetry (row m (sh.mem.telemetrySeq + 1) at' b),
        { sh.mem with telemetrySeq := sh.mem.telemetrySeq + 1 }⟩ ∧
      Sound m ⟨sh.db.put .machineTelemetry (row m (sh.mem.telemetrySeq + 1) at' b),
        { sh.mem with telemetrySeq := sh.mem.telemetrySeq + 1 }⟩ := by
  have hput :
      (sh.db.put .machineTelemetry (row m (sh.mem.telemetrySeq + 1) at' b)).machineTelemetry =
      sh.db.machineTelemetry ++ [row m (sh.mem.telemetrySeq + 1) at' b] := by
    rw [Db.machineTelemetry, put_rows_self]
    refine putRow_fresh fun r hr hkey => ?_
    have hid : r.id = sh.mem.telemetrySeq + 1 := by simpa [Table.key, row] using hkey
    have := hsound.ids r hr
    omega
  refine ⟨⟨_, hput, by simp [row], rfl⟩, ?_, fun r hr => ?_⟩
  · have hmachines : (sh.db.put .machineTelemetry (row m (sh.mem.telemetrySeq + 1) at' b)).rows
        .machines =
        sh.db.rows .machines := write_rows_of_ne sh.db (.put .machineTelemetry _) (by simp)
    have := hsound.machine
    unfold Db.dangles at this ⊢
    change (!((sh.db.put .machineTelemetry _).rows .machines).any _) = false
    rw [hmachines]
    exact this
  · rw [hput] at hr
    rcases List.mem_append.mp hr with hr | hr
    · have := hsound.ids r hr
      show r.id ≤ sh.mem.telemetrySeq + 1
      omega
    · obtain rfl := List.mem_singleton.mp hr
      exact le_rfl

/-- A program that has ended does nothing more. -/
theorem run_ret {cs : List (Choice Env SqlError)} {r' : Except Status Unit}
    (h : Proc.run cs (⟨.ret r, none⟩ : Running Unit) sh = some (⟨.ret r', none⟩, sh')) :
    r' = r ∧ sh' = sh := by
  cases cs with
  | nil =>
    simp only [Proc.run, Option.some.injEq, Prod.mk.injEq, Proc.mk.injEq, Prog.ret.injEq,
      and_true] at h
    exact ⟨h.1.symm, h.2.symm⟩
  | cons c cs => simp [Proc.run, Proc.step] at h

/-- **What a call leaves behind**: the blobs before the first insert that fails. -/
theorem run_insert (batch : List NewTelemetry) {cs : List (Choice Env SqlError)}
    (hsound : Sound m sh)
    (h : Proc.run cs (⟨(MachineTelemetryRepository.insert m batch).mapError g, none⟩ : Running Unit)
      sh = some (⟨.ret r, none⟩, sh')) :
    Sound m sh' ∧ ∃ k, Appends m (batch.take k) sh sh' ∧
      (∀ i < k, ¬ Struck cs sh.mem.telemetrySeq i) ∧
      ((r = .ok () ∧ k = batch.length) ∨
        ((∃ e, r = .error e) ∧ k < batch.length ∧ Struck cs sh.mem.telemetrySeq k)) := by
  induction batch generalizing cs sh with
  | nil =>
    obtain ⟨rfl, rfl⟩ := run_ret h
    exact ⟨hsound, 0, appends_nil rfl, by simp, Or.inl ⟨rfl, rfl⟩⟩
  | cons b batch ih =>
    -- the first insert fails, and nothing is stored
    have hfirst : ∀ {e : Status} {sh₁ : Shared}, Sound m sh₁ →
        sh₁.db.machineTelemetry = sh.db.machineTelemetry → Struck cs sh.mem.telemetrySeq 0 →
        r = .error e → sh' = sh₁ →
        Sound m sh' ∧ ∃ k, Appends m ((b :: batch).take k) sh sh' ∧
          (∀ i < k, ¬ Struck cs sh.mem.telemetrySeq i) ∧
          ((r = .ok () ∧ k = (b :: batch).length) ∨
            ((∃ e, r = .error e) ∧ k < (b :: batch).length ∧ Struck cs sh.mem.telemetrySeq k)) := by
      intro e sh₁ hsound₁ hsame hstruck hr hsh
      subst hsh
      exact ⟨hsound₁, 0, appends_nil hsame, by simp, Or.inr ⟨⟨e, hr⟩, by simp, hstruck⟩⟩
    cases cs with
    | nil => simp [Proc.run, MachineTelemetryRepository.insert, onPool, mapError] at h
    | cons c cs =>
      cases hfault : c.fault with
      | some e =>
        simp only [Proc.run, MachineTelemetryRepository.insert, onPool, bind_pool, mapError,
          Proc.step, hfault, bind_error] at h
        obtain ⟨hr, hsh⟩ := run_ret h
        exact hfirst hsound rfl (Or.inl (by simp [faulty, hfault])) hr hsh
      | none =>
        rcases lt_or_ge sh.mem.telemetrySeq lastSeq with hseq | hseq
        · simp only [Proc.run, MachineTelemetryRepository.insert, onPool, bind_pool, mapError,
            Proc.step, hfault, insertBlob_ok hsound hseq] at h
          cases cs with
          | nil => simp [Proc.run] at h
          | cons c' cs =>
            obtain ⟨happends, hsound'⟩ := insertBlob_stored hsound c.env.pgNow b
            cases hfault' : c'.fault with
            | some e =>
              simp only [List.isEmpty_cons, Bool.false_and, Bool.false_eq_true, if_false, Proc.run,
                Proc.step, hfault', Except.map, bind_error, mapError] at h
              obtain ⟨hr, hsh⟩ := run_ret h
              have hsound₁ : Sound m
                  ⟨sh.db, { sh.mem with telemetrySeq := sh.mem.telemetrySeq + 1 }⟩ :=
                ⟨hsound.machine, fun r hr => (hsound.ids r hr).trans (by simp)⟩
              exact hfirst hsound₁ rfl (Or.inr (Or.inl (by simp [faulty, hfault']))) hr hsh
            | none =>
              simp only [List.isEmpty_cons, Bool.false_and, Bool.false_eq_true, if_false, Proc.run,
                Proc.step, hfault', Except.map, bind_ok] at h
              obtain ⟨hsound'', k, hk, hbefore, hend⟩ := ih hsound' h
              refine ⟨hsound'', k + 1, ?_, fun i hi => ?_, ?_⟩
              · rw [List.take_succ_cons]
                exact happends.trans hk
              · cases i with
                | zero =>
                  rintro (hc | hc | hc)
                  · simp [faulty, hfault] at hc
                  · simp [faulty, hfault'] at hc
                  · simp only [Nat.cast_zero, add_zero] at hc
                    omega
                | succ i =>
                  rw [struck_succ]
                  exact hbefore i (by omega)
              · rcases hend with ⟨hr, rfl⟩ | ⟨he, hlt, hstruck⟩
                · exact Or.inl ⟨hr, rfl⟩
                · exact Or.inr ⟨he, by simpa using hlt, (struck_succ _ _ _ _ _).mpr hstruck⟩
        · simp only [Proc.run, MachineTelemetryRepository.insert, onPool, bind_pool, mapError,
            Proc.step, hfault, insertBlob_full hseq, failed, bind_error] at h
          obtain ⟨hr, hsh⟩ := run_ret h
          exact @hfirst _ ⟨sh.db, sh.mem⟩ hsound rfl
            (Or.inr (Or.inr (by simpa using hseq))) hr hsh

end Insert

/-! ## Calls -/

section Calls

variable (ctx : PlatformContext) (metadata : Metadata) (blobs : List TelemetryBlob)

/-- A call with the choices made for its steps, once it has been answered. -/
def perform (_ : Unit) (cs : List (Choice Env SqlError)) (sh : Shared) :
    Option (Except Status Unit × Shared) :=
  match Proc.run cs (⟨reportTelemetry ctx metadata blobs, none⟩ : Running Unit) sh with
  | some (⟨.ret r, none⟩, sh') => some (r, sh')
  | _ => none

/-- A call that has been answered. -/
abbrev Call := Done Unit (List (Choice Env SqlError)) (Except Status Unit) Shared

/-- The first step finds the session of the machine. -/
def Authenticated (m : Uuid) (cs : List (Choice Env SqlError)) (sh : Shared) : Prop :=
  ∃ c cs', cs = c :: cs' ∧ c.fault = none ∧
    (authenticateMachine ctx metadata).alone c.env sh = some (.ok m, sh)

/-- A client that resends its batch until it is answered. -/
def Resends (m : Uuid) (h : List Call) (d : Call) : Prop :=
  Authenticated ctx metadata m d.env d.before ∧ ∀ d' ∈ h, ∃ e, d'.reply = .error e

/-- The call fails at its first insert, or at none, and then every sequence number fits. -/
def Clean (d : Call) : Prop :=
  Struck (d.env.drop 1) d.before.mem.telemetrySeq 0 ∨
    ((∀ i < blobs.length, ¬ Struck (d.env.drop 1) d.before.mem.telemetrySeq i) ∧
      ∀ b ∈ blobs, b.seq.toNat ≤ 9223372036854775807)

/-- `Ok` stands for the batch as it was sent, an error for nothing. -/
def AllOrNothing (m : Uuid) (sh sh' : Shared) : Except Status Unit → Prop
  | .ok _ => Appends m (blobs.map verbatim) sh sh'
  | .error _ => sh'.db.machineTelemetry = sh.db.machineTelemetry

end Calls

section Runs

variable {ctx : PlatformContext} {metadata : Metadata} {blobs : List TelemetryBlob} {m : Uuid}
  {cs : List (Choice Env SqlError)} {sh sh' : Shared} {r : Except Status Unit}

/-- After its first step a call is the loop of inserts. -/
theorem run_authenticated {c : Choice Env SqlError} (hfault : c.fault = none)
    (hauth : (authenticateMachine ctx metadata).alone c.env sh = some (.ok m, sh)) :
    Proc.run (c :: cs) (⟨reportTelemetry ctx metadata blobs, none⟩ : Running Unit) sh =
      Proc.run cs ⟨(MachineTelemetryRepository.insert m (blobs.map newTelemetry)).mapError
        fun _ => internal "report_telemetry", none⟩ sh := by
  have hloop : ∀ m : Uuid, (if (blobs.map newTelemetry).isEmpty then pure () else
      (MachineTelemetryRepository.insert m (blobs.map newTelemetry)).mapError
        fun _ => internal "report_telemetry" : Rpc Unit) =
      (MachineTelemetryRepository.insert m (blobs.map newTelemetry)).mapError
        fun _ => internal "report_telemetry" := by
    intro m
    cases blobs <;> rfl
  unfold reportTelemetry
  simp only [hloop]
  unfold authenticateMachine at hauth ⊢
  cases htoken : machineToken metadata with
  | error e => simp [htoken, Prog.ofExcept, alone, exec] at hauth
  | ok token =>
    obtain ⟨found, hfound⟩ : ∃ found, MachineSessionRepository.findActive ctx.lib token
        c.env sh.mem sh.db =
        { result := .ok found, writes := [], locks := [], mem := sh.mem } := ⟨_, rfl⟩
    cases found with
    | none => simp [htoken, Prog.ofExcept, onPool, alone, mapError, exec, hfound, fail] at hauth
    | some session =>
      simp [htoken, Prog.ofExcept, onPool, alone, mapError, exec, hfound] at hauth
      simp [Prog.ofExcept, onPool, mapError, Proc.run, Proc.step, hfault, hfound, hauth]

theorem perform_eq {cs : List (Choice Env SqlError)}
    (h : perform ctx metadata blobs () cs sh = some (r, sh')) :
    Proc.run cs (⟨reportTelemetry ctx metadata blobs, none⟩ : Running Unit) sh =
      some (⟨.ret r, none⟩, sh') := by
  unfold perform at h
  split at h
  · next r' sh₁ hrun =>
    simp only [Option.some.injEq, Prod.mk.injEq] at h
    rw [hrun, h.1, h.2]
  · exact absurd h (by simp)

/-- **A call stores a prefix of its batch**, up to the first insert that is struck. -/
theorem call_stores (hsound : Sound m sh) (hauth : Authenticated ctx metadata m cs sh)
    (h : perform ctx metadata blobs () cs sh = some (r, sh')) :
    Sound m sh' ∧ ∃ k, Appends m ((blobs.map newTelemetry).take k) sh sh' ∧
      (∀ i < k, ¬ Struck (cs.drop 1) sh.mem.telemetrySeq i) ∧
      ((r = .ok () ∧ k = blobs.length) ∨
        ((∃ e, r = .error e) ∧ k < blobs.length ∧ Struck (cs.drop 1) sh.mem.telemetrySeq k)) := by
  obtain ⟨c, cs', rfl, hfault, hfound⟩ := hauth
  have hrun := perform_eq h
  rw [run_authenticated hfault hfound] at hrun
  have hloop := run_insert (blobs.map newTelemetry) hsound hrun
  rwa [List.length_map] at hloop

/-- What a failed call stores is nothing exactly where it fails at once. -/
theorem clean_of_error (blobs : List TelemetryBlob) {d : Call} {k : ℕ} {e : Status}
    (he : d.reply = .error e)
    (hbefore : ∀ i < k, ¬ Struck (d.env.drop 1) d.before.mem.telemetrySeq i)
    (hend : (d.reply = .ok () ∧ k = blobs.length) ∨
      ((∃ e, d.reply = .error e) ∧ k < blobs.length ∧
        Struck (d.env.drop 1) d.before.mem.telemetrySeq k)) :
    k < blobs.length ∧ (Clean blobs d ↔ k = 0) := by
  obtain ⟨hok, -⟩ | ⟨-, hlt, hstruck⟩ := hend
  · rw [he] at hok
    exact absurd hok (by simp)
  refine ⟨hlt, fun hclean => ?_, fun hk => Or.inl (hk ▸ hstruck)⟩
  rcases hclean with hfirst | ⟨hnone, -⟩
  · by_contra hne
    exact hbefore 0 (by omega) hfirst
  · exact absurd hstruck (hnone k hlt)

/-- The failed calls of a client have left some blobs behind, and none where each failed at once. -/
theorem failed_calls {C : List Call → Call → Prop} {h : List Call} (hsound : Sound m sh)
    (hC : ∀ h d, C h d → Resends ctx metadata m h d)
    (hfailed : ∀ d ∈ h, ∃ e, d.reply = .error e)
    (hh : History (perform ctx metadata blobs) C sh h sh') :
    Sound m sh' ∧ ∃ batch, Appends m batch sh sh' ∧ (batch = [] ↔ ∀ d ∈ h, Clean blobs d) := by
  induction hh with
  | start => exact ⟨hsound, [], appends_nil rfl, by simp⟩
  | @step h s₁ r₁ s₂ op cs hh hperform hCd ih =>
    obtain ⟨hsound₁, batch, hbatch, hiff⟩ := ih fun d hd => hfailed d (List.mem_cons_of_mem _ hd)
    obtain ⟨hsound₂, k, hk, hbefore, hend⟩ := call_stores hsound₁ (hC _ _ hCd).1 hperform
    obtain ⟨e, he⟩ := hfailed _ List.mem_cons_self
    obtain ⟨hlt, hclean⟩ := clean_of_error blobs (d := ⟨op, cs, s₁, r₁, s₂⟩) he hbefore hend
    refine ⟨hsound₂, _, hbatch.trans hk, ?_⟩
    rw [List.append_eq_nil_iff, List.forall_mem_cons, hclean, hiff, and_comm]
    have hnil : (blobs.map newTelemetry).take k = [] ↔ k = 0 := by
      rw [List.take_eq_nil_iff, List.map_eq_nil_iff]
      refine ⟨fun hor => hor.elim id fun hb => ?_, Or.inl⟩
      rw [hb, List.length_nil] at hlt
      omega
    rw [hnil]

theorem newTelemetry_verbatim (b : TelemetryBlob) :
    newTelemetry b = verbatim b ↔ b.seq.toNat ≤ 9223372036854775807 := by
  unfold newTelemetry verbatim seqToI64
  split
  · next hle => simp [hle]
  · next hgt =>
    simp only [NewTelemetry.mk.injEq, true_and, and_true, hgt, iff_false]
    omega

theorem map_newTelemetry : blobs.map newTelemetry = blobs.map verbatim ↔
    ∀ b ∈ blobs, b.seq.toNat ≤ 9223372036854775807 := by
  rw [List.map_inj_left]
  exact forall₂_congr fun b _ => newTelemetry_verbatim b

end Runs

/-! ## The condition -/

/-- **A batch is stored once and as it was sent, or not at all**, exactly where every call fails at
    its first insert or at none and, if it stores the batch, every sequence number fits. -/
theorem batch_stored_once_iff (ctx : PlatformContext) (metadata : Metadata)
    (blobs : List TelemetryBlob) (m : Uuid) {sh sh' : Shared} {h : List Call} {d : Call}
    (hsound : Sound m sh)
    (hh : History (perform ctx metadata blobs) (Resends ctx metadata m) sh (d :: h) sh') :
    AllOrNothing blobs m sh sh' d.reply ↔ ∀ d' ∈ d :: h, Clean blobs d' := by
  obtain _ | @⟨_, s₁, r₁, _, op, cs, hh, hperform, hauth, hfailed⟩ := hh
  obtain ⟨hsound₁, batch, hbatch, hiff⟩ := failed_calls hsound (fun _ _ hC => hC) hfailed hh
  obtain ⟨-, k, hk, hbefore, hend⟩ := call_stores hsound₁ hauth hperform
  have htotal := hbatch.trans hk
  rw [List.forall_mem_cons, ← hiff]
  rcases hend with ⟨rfl, rfl⟩ | ⟨⟨e, rfl⟩, hlt, hstruck⟩
  · -- the last call is answered with `Ok`
    rw [List.take_of_length_le (by simp)] at htotal
    have hclean : Clean blobs ⟨op, cs, s₁, .ok (), sh'⟩ ↔
        ∀ b ∈ blobs, b.seq.toNat ≤ 9223372036854775807 := by
      refine ⟨fun hclean b hb => ?_, fun hfit => Or.inr ⟨hbefore, hfit⟩⟩
      rcases hclean with hfirst | ⟨-, hfit⟩
      · exact absurd hfirst (hbefore 0 (List.length_pos_of_mem hb))
      · exact hfit b hb
    rw [hclean, ← map_newTelemetry]
    constructor
    · intro hall
      have hsame := htotal.unique hall
      have hnil : batch = [] := by
        have hlen := congrArg List.length hsame
        simp only [List.length_append, List.length_map] at hlen
        exact List.eq_nil_of_length_eq_zero (by omega)
      rw [hnil, List.nil_append] at hsame
      exact ⟨hsame, hnil⟩
    · rintro ⟨hsame, rfl⟩
      rw [List.nil_append, hsame] at htotal
      exact htotal
  · obtain ⟨-, hclean⟩ := clean_of_error blobs (d := ⟨op, cs, s₁, .error e, sh'⟩) rfl hbefore
      (Or.inr ⟨⟨e, rfl⟩, hlt, hstruck⟩)
    rw [hclean]
    constructor
    · intro hall
      have hnone := htotal.unique (appends_nil hall)
      obtain ⟨hnil, htake⟩ := List.append_eq_nil_iff.mp hnone
      refine ⟨?_, hnil⟩
      rcases List.take_eq_nil_iff.mp htake with hk0 | hb
      · exact hk0
      · rw [List.map_eq_nil_iff] at hb
        rw [hb, List.length_nil] at hlt
        omega
    · rintro ⟨rfl, rfl⟩
      obtain ⟨rows, hrows, -, hmap⟩ := htotal
      have hnil : rows.map envelope = [] := hmap
      rw [List.map_eq_nil_iff.mp hnil, List.append_nil] at hrows
      exact hrows

/-! ## A laptop that reports twice -/

def laptop : Machine where
  id := Sample.uuid 4
  label := "laptop"
  platform := "linux"
  claimedByUserId := none
  machineIdentityPublic := none
  createdAt := ⟨0⟩
  lastSeenAt := none

def laptopSession : MachineSession where
  id := Sample.uuid 5
  machineId := laptop.id
  tokenHash := Libs.sample.sha256 (utf8 "c3d4")
  createdAt := ⟨0⟩
  expiresAt := ⟨DateTime.hours 24⟩
  revokedAt := none

def laptopStore : Shared := ⟨⟨fun
  | .machines => [laptop]
  | .machineSessions => [laptopSession]
  | _ => []⟩, Mem.fresh⟩

def anyContext : PlatformContext where
  lib := Libs.sample
  authRateLimiter := { capacity := 1, refillPerMs := 0, refill_nonneg := le_rfl }
  trustProxy := false

def asLaptop : Metadata := ⟨some (utf8 "Bearer c3d4"), none, none⟩

def reading (seq : UInt64) : TelemetryBlob where
  kind := "location"
  recipientKeyId := [1]
  seq := seq
  ciphertext := [2]
  signature := []

/-- The connection to the database is lost. -/
def lost : Choice Env SqlError := ⟨Env.at 0 0 0, some .io⟩

theorem laptopStore_sound : Sound laptop.id laptopStore :=
  ⟨by decide +kernel, fun _ hr => absurd hr List.not_mem_nil⟩

theorem asLaptop_authenticated (cs : List (Choice Env SqlError)) :
    Authenticated anyContext asLaptop laptop.id (Sample.calm 0 :: cs) laptopStore := by
  have htoken : machineToken asLaptop = .ok "c3d4" := by rfl
  have hfound : MachineSessionRepository.findActive Libs.sample "c3d4"
      (Sample.calm 0).env laptopStore.mem laptopStore.db =
        { result := .ok (some laptopSession), writes := [], locks := [],
          mem := laptopStore.mem } := by
    rfl
  refine ⟨Sample.calm 0, cs, rfl, rfl, ?_⟩
  simp [authenticateMachine, htoken, Prog.ofExcept, onPool, alone, mapError, exec, anyContext,
    hfound, laptopSession]

/-- The first call fails at once, the second stores the batch. -/
theorem resent_batch_stored_once : ∃ (d d' : Call) (sh' : Shared),
    History (perform anyContext asLaptop [reading 1, reading 2])
      (Resends anyContext asLaptop laptop.id)
        laptopStore [d', d] sh' ∧
      d.reply = .error (internal "report_telemetry") ∧ d'.reply = .ok () ∧
      AllOrNothing [reading 1, reading 2] laptop.id laptopStore sh' d'.reply := by
  have hfirst : History (perform anyContext asLaptop [reading 1, reading 2])
      (Resends anyContext asLaptop laptop.id) laptopStore
      [⟨(), [Sample.calm 0, lost], laptopStore, .error (internal "report_telemetry"), laptopStore⟩]
          laptopStore :=
    .step () _ .start rfl ⟨asLaptop_authenticated _, by simp⟩
  have hboth := hfirst.step () (List.replicate 5 (Sample.calm 0)) (r := .ok ()) rfl
    ⟨asLaptop_authenticated _, by simp⟩
  refine ⟨_, _, _, hboth, rfl, rfl, ?_⟩
  refine (batch_stored_once_iff _ _ _ _ laptopStore_sound hboth).mpr fun d hd => ?_
  rcases List.mem_pair.mp hd with rfl | rfl
  · exact Or.inr ⟨by unfold Struck; decide +kernel, by decide +kernel⟩
  · exact Or.inl (Or.inl rfl)

/-- A batch of two whose second insert fails: the first blob stays. A sequence number from `2^63` on
    is stored as another one. -/
theorem half_a_batch_is_stored :
    (∃ sh', perform anyContext asLaptop [reading 1, reading 2] ()
          [Sample.calm 0, Sample.calm 0, Sample.calm 0, lost] laptopStore =
          some (.error (internal "report_telemetry"), sh') ∧
        sh'.db.machineTelemetry.map envelope = [verbatim (reading 1)] ∧
        ¬ AllOrNothing [reading 1, reading 2] laptop.id laptopStore sh'
          (.error (internal "report_telemetry"))) ∧
      ∃ sh', perform anyContext asLaptop [reading 9223372036854775808] ()
          [Sample.calm 0, Sample.calm 0, Sample.calm 0] laptopStore = some (.ok (), sh') ∧
        ¬ AllOrNothing [reading 9223372036854775808] laptop.id laptopStore sh' (.ok ()) := by
  constructor
  · exact ⟨_, rfl, rfl, fun h => absurd (congrArg List.length h) (by decide)⟩
  · obtain ⟨sh', hperform⟩ : ∃ sh', perform anyContext asLaptop [reading 9223372036854775808] ()
        [Sample.calm 0, Sample.calm 0, Sample.calm 0] laptopStore = some (.ok (), sh') := ⟨_, rfl⟩
    refine ⟨sh', hperform, fun h => ?_⟩
    obtain ⟨-, k, hk, -, hend⟩ := call_stores laptopStore_sound (asLaptop_authenticated _) hperform
    obtain ⟨-, rfl⟩ | ⟨⟨e, he⟩, -⟩ := hend
    · exact absurd (hk.unique h) (by decide)
    · exact absurd he (by simp)

end SylvaServer.Telemetry
