/-
  The audit crate: the hash chain and `append`.
-/
import SylvaServer.Codec.HashChain
import SylvaServer.Model.Tables

namespace SylvaServer

open ReadCommitted ReadCommitted.Prog

namespace Audit

/-- The `prev_hash` of the first row. -/
def genesisHash (lib : Libs) : Bytes := lib.sha256 (utf8 "sylva-audit-genesis")

/-- Who performed the audited action. -/
structure Actor where
  userId : Uuid
  displayName : String

/-- The fields that go into the hash, in alphabetical order. -/
structure Canonical where
  actorDisplayName : Option String
  actorUserId : Option Uuid
  appId : Option String
  eventData : EventData
  eventType : String
  occurredAt : DateTime
  seqno : Int

/-- `null` or a string. -/
def optionalString (s : Option String) : EventData :=
  match s with
  | some s => .str s
  | none => .null

namespace Canonical

/-- The value `serde` serializes, fields in the order of the struct. -/
def toJson (c : Canonical) : EventData :=
  .obj [("actor_display_name", optionalString c.actorDisplayName),
    ("actor_user_id", optionalString (c.actorUserId.map Uuid.toString)),
    ("app_id", optionalString c.appId),
    ("event_data", c.eventData),
    ("event_type", .str c.eventType),
    ("occurred_at", .str (String.ofList (Calendar.rfc3339 ['Z'] c.occurredAt.nanos))),
    ("seqno", .int c.seqno)]

/-- `serde_json::to_vec`. -/
def toVec (lib : Libs) (c : Canonical) : Bytes :=
  utf8 (String.ofList (CompactJson.render lib.ryu c.toJson))

end Canonical

/-- Drop the sub-microsecond fraction. -/
def truncateToMicros (ts : DateTime) : DateTime :=
  let micros := ts.nanosecond / 1000
  (ts.withNanosecond (micros * 1000)).getD ts

def computeHash (lib : Libs) (prevHash canonicalBytes : Bytes) : Bytes :=
  lib.sha256 (prevHash ++ canonicalBytes)

/-- `SELECT pg_advisory_xact_lock(AUDIT_ADVISORY_LOCK_KEY)`. -/
def advisoryXactLock : Statement Unit := fun _ mem _ =>
  { result := .ok (), writes := [], locks := [.auditAdvisory], mem := mem }

/-- `SELECT nextval('audit.events_seqno_seq')`. -/
def nextSeqno : Statement Int := fun _ mem _ =>
  match nextval mem.eventsSeq with
  | .ok n => { result := .ok n, writes := [], locks := [], mem := { mem with eventsSeq := n } }
  | .error e => failed e mem

/-- `SELECT hash FROM audit.events ORDER BY seqno DESC LIMIT 1`. -/
def lastHash : Statement (Option Bytes) :=
  select fun _ db => (orderDesc AuditEvent.seqno db.events).head?.map AuditEvent.hash

/-- `INSERT INTO audit.events … RETURNING …`: the row as the table gives it back. -/
def insertEvent (lib : Libs) (row : AuditEvent) : Statement AuditEvent := fun _ mem db =>
  insertRow .events { row with
    occurredAt := lib.timestamptz row.occurredAt
    eventData := lib.jsonb row.eventData } false [] [] mem db

/-- Append a new event to the chain within the caller's transaction. -/
def append (lib : Libs) (actor : Option Actor) (appId : Option String) (eventType : String)
    (eventData : EventData) : Query AuditEvent := do
  inTx advisoryXactLock
  let seqno ← inTx nextSeqno
  let last ← inTx lastHash
  let prevHash := last.getD (genesisHash lib)
  let now ← ask Env.now
  let occurredAt := truncateToMicros now
  let actorUserId := actor.map Actor.userId
  let actorDisplayName := actor.map Actor.displayName
  let canonicalBytes := Canonical.toVec lib
    { actorDisplayName, actorUserId, appId, eventData, eventType, occurredAt, seqno }
  let hash := computeHash lib prevHash canonicalBytes
  inTx (insertEvent lib
    { seqno, occurredAt, actorUserId, actorDisplayName, appId, eventType, eventData, prevHash,
      hash })

/-! ## Reading the log -/

/-- Filter and pagination of `list`; a field that is `none` does not filter. -/
structure ListFilter where
  actor : Option Uuid
  since : Option DateTime
  /-- Cursor: only events with a smaller `seqno`. -/
  beforeSeqno : Option Int
  limit : Option UInt32
  eventType : Option String
  search : Option String
  offset : Option Int

/-- Text in Postgres: `ILIKE`, and the text of a `JSONB` value. -/
structure PgText where
  ilike : String → String → Bool
  jsonbText : EventData → String

def defaultPageSize : UInt32 := 50

def maxPageSize : UInt32 := 200

section Listing

variable (lib : Libs) (text : PgText) (filter : ListFilter)

/-- `event_type ILIKE … OR actor_display_name ILIKE … OR event_data::text ILIKE …`. -/
def searched (pattern : String) (e : AuditEvent) : Bool :=
  text.ilike e.eventType pattern || e.actorDisplayName.any (text.ilike · pattern) ||
    text.ilike (text.jsonbText e.eventData) pattern

/-- The `WHERE` clause of `list`. -/
def listed (e : AuditEvent) : Bool :=
  filter.actor.all (fun a => e.actorUserId == some a) &&
    filter.since.all (fun since => decide ((lib.timestamptz since).nanos < e.occurredAt.nanos)) &&
    filter.beforeSeqno.all (fun before => decide (e.seqno < before)) &&
    filter.eventType.all (fun eventType => e.eventType == eventType) &&
    filter.search.all (fun search => searched text ("%" ++ search ++ "%") e)

/-- The rows of a page: `limit` is clamped to `[1, MAX_PAGE_SIZE]`. -/
def pageLimit : Nat :=
  max 1 (min (filter.limit.getD defaultPageSize).toNat maxPageSize.toNat)

/-- Paginated list of audit events, newest first. -/
def list : Statement (List AuditEvent) := fun _ mem db =>
  let offset := filter.offset.getD 0
  if offset < 0 then failed (.database "2201X") mem
  else
    { result := .ok (((orderDesc AuditEvent.seqno (db.events.filter (listed lib text filter))).drop
        offset.toNat).take (pageLimit filter))
      writes := []
      locks := []
      mem := mem }

/-- The `WHERE` clause of `count_filtered`. -/
def counted (e : AuditEvent) : Bool :=
  filter.actor.all (fun a => e.actorUserId == some a) &&
    filter.since.all (fun since => decide ((lib.timestamptz since).nanos < e.occurredAt.nanos)) &&
    filter.eventType.all (fun eventType => e.eventType == eventType) &&
    filter.search.all (fun search => searched text ("%" ++ search ++ "%") e)

/-- Count the events that match; the pagination is ignored. -/
def countFiltered : Statement Nat :=
  select fun _ db => (db.events.filter (counted lib text filter)).length

end Listing

/-! ## The chain -/

/-- The hashed fields of a stored row. -/
def canonicalOf (row : AuditEvent) : Canonical where
  actorDisplayName := row.actorDisplayName
  actorUserId := row.actorUserId
  appId := row.appId
  eventData := row.eventData
  eventType := row.eventType
  occurredAt := row.occurredAt
  seqno := row.seqno

/-- The audit log as a hash chain. -/
def chain (lib : Libs) : HashChain.Scheme AuditEvent Bytes where
  genesis := genesisHash lib
  prev := AuditEvent.prevHash
  hash := AuditEvent.hash
  link prevHash row := computeHash lib prevHash ((canonicalOf row).toVec lib)

end Audit

end SylvaServer
