/-
  Resources: the repository and the `Resources` gRPC service.
-/
import SylvaServer.Model.Context
import SylvaServer.Model.Registry

namespace SylvaServer

open ReadCommitted ReadCommitted.Prog

/-! ## The repository -/

/-- Fields for creating a resource; the owner is the authenticated caller. -/
structure NewResource where
  appId : Uuid
  resourceType : String
  appResourceId : Uuid
  parentResourceId : Option Uuid
  ownerUserId : Uuid
  contentBlob : Bytes
  contentSignature : Bytes
  schemaVersion : Int32

/-- The key fields of a hard-deleted resource. -/
structure DeletedResource where
  id : Uuid
  appId : Uuid
  resourceType : String
  appResourceId : Uuid
  ownerUserId : Uuid

namespace ResourceRepository

/-- Insert a new resource. The default of `change_seq` takes its value before the row is
    checked; `(app_id, resource_type, app_resource_id)` is unique. -/
def create (new : NewResource) : Statement Resource := fun env mem db =>
  match nextval mem.changeSeq with
  | .error e => failed e mem
  | .ok changeSeq =>
    insertRow .resources
      { id := env.uuid
        appId := new.appId
        resourceType := new.resourceType
        appResourceId := new.appResourceId
        parentResourceId := new.parentResourceId
        ownerUserId := new.ownerUserId
        createdAt := env.pgNow
        updatedAt := env.pgNow
        deletedAt := none
        contentBlob := new.contentBlob
        contentSignature := new.contentSignature
        lastModifiedBy := new.ownerUserId
        schemaVersion := new.schemaVersion
        changeSeq := changeSeq }
      (db.resources.any fun r => r.appId == new.appId && r.resourceType == new.resourceType &&
        r.appResourceId == new.appResourceId)
      [(.users, .uuid new.ownerUserId), (.registeredApps, .uuid new.appId)]
      [.resourceKey new.appId new.resourceType new.appResourceId]
      { mem with changeSeq := changeSeq } db

/-- An active resource with this id, of this owner. -/
def owned (id owner : Uuid) (r : Resource) : Bool :=
  r.id == id && r.ownerUserId == owner && r.deletedAt == none

/-- Owner-scoped read of an active resource. -/
def getOwned (id owner : Uuid) : Statement (Option Resource) :=
  select fun _ db => db.resources.find? (owned id owner)

/-- An owner-scoped update of one active resource; the row it changes gets a fresh
    `change_seq`. -/
def updateOne (id owner : Uuid) (f : Env → Int → Resource → Resource) :
    Statement (Option Resource) := fun env mem db =>
  match db.resources.find? (owned id owner) with
  | none => { result := .ok none, writes := [], locks := [], mem := mem }
  | some r =>
    match nextval mem.changeSeq with
    | .error e => failed e mem
    | .ok changeSeq =>
      { result := .ok (some (f env changeSeq r))
        writes := [.put .resources (f env changeSeq r)]
        locks := []
        mem := { mem with changeSeq := changeSeq } }

/-- Owner-scoped full-blob replacement. -/
def updateOwned (id owner : Uuid) (contentBlob contentSignature : Bytes) (schemaVersion : Int32)
    (parentResourceId : Option Uuid) : Statement (Option Resource) :=
  updateOne id owner fun env changeSeq r => { r with
    contentBlob := contentBlob
    contentSignature := contentSignature
    schemaVersion := schemaVersion
    parentResourceId := parentResourceId
    lastModifiedBy := owner
    updatedAt := env.pgNow
    changeSeq := changeSeq }

/-- Owner-scoped soft delete; whether a row was affected. -/
def softDeleteOwned (id owner : Uuid) : Statement Bool := fun env mem db =>
  readAs (fun r => .ok r.isSome) (updateOne id owner (fun env changeSeq r => { r with
    deletedAt := some env.pgNow
    updatedAt := env.pgNow
    changeSeq := changeSeq }) env mem db)

/-- Delete one resource of an app for good; its key fields. -/
def adminHardDelete (appId id : Uuid) : Statement (Option DeletedResource) := fun _ mem db =>
  readAs (fun rows => .ok (rows.head?.map fun r =>
      { id := r.id
        appId := r.appId
        resourceType := r.resourceType
        appResourceId := r.appResourceId
        ownerUserId := r.ownerUserId }))
    (deleteRows .resources (fun r => r.id == id && r.appId == appId) mem db)

/-- The rows `list_owned` is about. -/
def listed (appId : Uuid) (resourceType : String) (owner : Uuid) (includeDeleted : Bool)
    (r : Resource) : Bool :=
  r.appId == appId && r.resourceType == resourceType && r.ownerUserId == owner &&
    (includeDeleted || r.deletedAt == none)

/-- `ORDER BY updated_at DESC`; rows of one instant come in the order Postgres picks. -/
def newestFirst (rank : Uuid → Nat) (rows : List Resource) : List Resource :=
  rows.insertionSort fun a b => b.updatedAt.nanos < a.updatedAt.nanos ∨
    (b.updatedAt.nanos = a.updatedAt.nanos ∧ rank a.id ≤ rank b.id)

/-- The page of an owner-scoped list, newest first. -/
def listPage (appId : Uuid) (resourceType : String) (owner : Uuid) (limit offset : Nat)
    (includeDeleted : Bool) : Statement (List Resource) :=
  select fun env db => ((newestFirst env.rank (db.resources.filter
    (listed appId resourceType owner includeDeleted))).drop offset).take limit

/-- `SELECT COUNT(*)` of the same rows. -/
def listCount (appId : Uuid) (resourceType : String) (owner : Uuid) (includeDeleted : Bool) :
    Statement Nat :=
  select fun _ db => (db.resources.filter (listed appId resourceType owner includeDeleted)).length

/-- Owner-scoped list: the page and the total, in two statements. -/
def listOwned (appId : Uuid) (resourceType : String) (owner : Uuid) (limit offset : Nat)
    (includeDeleted : Bool) : Query (List Resource × Nat) := do
  let rows ← onPool (listPage appId resourceType owner limit offset includeDeleted)
  let total ← onPool (listCount appId resourceType owner includeDeleted)
  pure (rows, total)

/-- The feed `list_changes` is about. -/
def inFeed (appId : Uuid) (resourceType : Option String) (owner : Uuid) (r : Resource) : Bool :=
  r.ownerUserId == owner && r.appId == appId && resourceType.all (r.resourceType == ·)

/-- Owner-scoped incremental sync: tombstones included, oldest change first. -/
def listChanges (appId : Uuid) (resourceType : Option String) (owner : Uuid) (sinceCursor : Int)
    (limit : Nat) : Statement (List Resource) :=
  select fun _ db => (orderAsc Resource.changeSeq (db.resources.filter fun r =>
    inFeed appId resourceType owner r && decide (sinceCursor < r.changeSeq))).take limit

end ResourceRepository

/-! ## The service -/

namespace Resources

/-- The wire form of a row. -/
structure ProtoResource where
  id : String
  appId : String
  resourceType : String
  appResourceId : String
  parentResourceId : Option String
  ownerUserId : String
  createdAt : String
  updatedAt : String
  deletedAt : Option String
  contentBlob : Bytes
  contentSignature : Bytes
  lastModifiedBy : String
  schemaVersion : Int32
  changeSeq : UInt64
deriving DecidableEq

structure CreateResourceRequest where
  appId : String
  resourceType : String
  appResourceId : String
  parentResourceId : Option String
  contentBlob : Bytes
  contentSignature : Bytes
  schemaVersion : Int32

structure UpdateResourceRequest where
  id : String
  parentResourceId : Option String
  contentBlob : Bytes
  contentSignature : Bytes
  schemaVersion : Int32

structure ListResourcesRequest where
  appId : String
  resourceType : String
  limit : UInt32
  offset : UInt32
  includeDeleted : Bool

structure ListResourcesResponse where
  resources : List ProtoResource
  total : UInt32
deriving DecidableEq

structure StreamChangesRequest where
  appId : String
  resourceType : String
  sinceCursor : UInt64
  limit : UInt32

/-- A stored row on the wire; a negative `change_seq` would read as 0. -/
def toProto (row : Resource) : ProtoResource where
  id := row.id.toString
  appId := row.appId.toString
  resourceType := row.resourceType
  appResourceId := row.appResourceId.toString
  parentResourceId := row.parentResourceId.map Uuid.toString
  ownerUserId := row.ownerUserId.toString
  createdAt := row.createdAt.toRfc3339
  updatedAt := row.updatedAt.toRfc3339
  deletedAt := row.deletedAt.map DateTime.toRfc3339
  contentBlob := row.contentBlob
  contentSignature := row.contentSignature
  lastModifiedBy := row.lastModifiedBy.toString
  schemaVersion := row.schemaVersion
  changeSeq := UInt64.ofNat row.changeSeq.toNat

def clampLimit (requested : UInt32) : Nat :=
  if requested = 0 then 50 else min requested.toNat 200

def clampChangesLimit (requested : UInt32) : Nat :=
  if requested = 0 then 500 else min requested.toNat 2000

/-- `i64::try_from(cursor).unwrap_or(i64::MAX)`. -/
def sinceCursor (cursor : UInt64) : Int :=
  if cursor.toNat < 9223372036854775808 then cursor.toNat else 9223372036854775807

/-- A blank type means all types. -/
def typeFilter (resourceType : String) : Option String :=
  if (trim resourceType).isEmpty then none else some resourceType

def resourceNotFound : Status := ⟨.notFound, "resource not found"⟩

def appNotRegistered : Status := ⟨.failedPrecondition, "app is not registered"⟩

/-- The errors of the insert, by SQLSTATE. -/
def createError : SqlError → Status
  | .database "23505" =>
    ⟨.alreadyExists, "a resource with that app_resource_id already exists"⟩
  | .database "23503" => appNotRegistered
  | _ => internal "create_resource"

/-- The app must be enabled and declare the type. -/
def checkApp (app : Option RegisteredApp) (resourceType : String) : Except Status Unit :=
  match app with
  | none => .error appNotRegistered
  | some app =>
    if app.status != "enabled" then .error ⟨.failedPrecondition, "app is disabled"⟩
    else if !app.resourceTypes.any (· == resourceType) then
      .error ⟨.invalidArgument, "resource_type '" ++ resourceType ++
        "' is not declared by app '" ++ app.appIdentifier ++ "'"⟩
    else .ok ()

/-- The resource to insert, once its app is checked. -/
def newResource (lib : Libs) (owner appId : Uuid) (req : CreateResourceRequest) :
    Except Status NewResource := do
  let appResourceId ← parseUuid lib req.appResourceId "app_resource_id"
  let parentResourceId ← parseOptUuid lib req.parentResourceId "parent_resource_id"
  pure
    { appId := appId
      resourceType := req.resourceType
      appResourceId := appResourceId
      parentResourceId := parentResourceId
      ownerUserId := owner
      contentBlob := req.contentBlob
      contentSignature := req.contentSignature
      schemaVersion := req.schemaVersion }

variable (lib : Libs)

/-- `create_resource` for an authenticated caller. -/
def createResource.as (owner : Uuid) (req : CreateResourceRequest) : Rpc ProtoResource := do
  if (trim req.resourceType).isEmpty then
    fail ⟨.invalidArgument, "resource_type is required"⟩
  else do
    let appId ← ofExcept (parseUuid lib req.appId "app_id")
    let app ← (onPool (Registry.getApp appId)).mapError fun _ => internal "create_resource:get_app"
    ofExcept (checkApp app req.resourceType)
    let new ← ofExcept (newResource lib owner appId req)
    let row ← (onPool (ResourceRepository.create new)).mapError createError
    pure (toProto row)

def createResource (metadata : Metadata) (req : CreateResourceRequest) : Rpc ProtoResource := do
  let user ← authenticate lib metadata
  createResource.as lib user.id req

def readResource.as (owner : Uuid) (id : String) : Rpc ProtoResource := do
  let id ← ofExcept (parseUuid lib id "id")
  let row ← (onPool (ResourceRepository.getOwned id owner)).mapError fun _ =>
      internal "read_resource"
  match row with
  | some row => pure (toProto row)
  | none => fail resourceNotFound

def readResource (metadata : Metadata) (id : String) : Rpc ProtoResource := do
  let user ← authenticate lib metadata
  readResource.as lib user.id id

def updateResource.as (owner : Uuid) (req : UpdateResourceRequest) : Rpc ProtoResource := do
  let id ← ofExcept (parseUuid lib req.id "id")
  let parent ← ofExcept (parseOptUuid lib req.parentResourceId "parent_resource_id")
  let row ← (onPool (ResourceRepository.updateOwned id owner req.contentBlob req.contentSignature
    req.schemaVersion parent)).mapError fun _ => internal "update_resource"
  match row with
  | some row => pure (toProto row)
  | none => fail resourceNotFound

def updateResource (metadata : Metadata) (req : UpdateResourceRequest) : Rpc ProtoResource := do
  let user ← authenticate lib metadata
  updateResource.as lib user.id req

def deleteResource.as (owner : Uuid) (id : String) : Rpc Unit := do
  let id ← ofExcept (parseUuid lib id "id")
  let affected ← (onPool (ResourceRepository.softDeleteOwned id owner)).mapError
    fun _ => internal "delete_resource"
  if affected then pure () else fail resourceNotFound

def deleteResource (metadata : Metadata) (id : String) : Rpc Unit := do
  let user ← authenticate lib metadata
  deleteResource.as lib user.id id

def listResources.as (owner : Uuid) (req : ListResourcesRequest) : Rpc ListResourcesResponse := do
  if (trim req.resourceType).isEmpty then
    fail ⟨.invalidArgument, "resource_type is required"⟩
  else do
    let appId ← ofExcept (parseUuid lib req.appId "app_id")
    let (rows, total) ← (ResourceRepository.listOwned appId req.resourceType owner
      (clampLimit req.limit) req.offset.toNat req.includeDeleted).mapError
      fun _ => internal "list_resources"
    pure { resources := rows.map toProto, total := UInt32.ofNat total }

def listResources (metadata : Metadata) (req : ListResourcesRequest) :
    Rpc ListResourcesResponse := do
  let user ← authenticate lib metadata
  listResources.as lib user.id req

/-- The statement of a `StreamChanges` call. -/
def streamChanges.query (owner appId : Uuid) (req : StreamChangesRequest) :
    Statement (List Resource) :=
  ResourceRepository.listChanges appId (typeFilter req.resourceType) owner
    (sinceCursor req.sinceCursor) (clampChangesLimit req.limit)

def streamChanges.as (owner : Uuid) (req : StreamChangesRequest) : Rpc (List ProtoResource) := do
  let appId ← ofExcept (parseUuid lib req.appId "app_id")
  let rows ← (onPool (streamChanges.query owner appId req)).mapError
    fun _ => internal "stream_changes"
  pure (rows.map toProto)

def streamChanges (metadata : Metadata) (req : StreamChangesRequest) :
    Rpc (List ProtoResource) := do
  let user ← authenticate lib metadata
  streamChanges.as lib user.id req

end Resources

end SylvaServer
