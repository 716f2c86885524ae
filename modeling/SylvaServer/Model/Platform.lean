/-
  The `Platform` gRPC service: app registration.
-/
import SylvaServer.Model.Audit
import SylvaServer.Model.Context
import SylvaServer.Model.Registry

namespace SylvaServer

open ReadCommitted ReadCommitted.Prog

namespace Platform

structure RegisterAppRequest where
  appIdentifier : String
  displayName : String
  publisher : String
  appPublicKey : Bytes
  schemaVersion : Int32
  resourceTypes : List String
  signature : Bytes

structure AppRegistration where
  id : String
  appIdentifier : String
  displayName : String
  publisher : String
  schemaVersion : Int32
  resourceTypes : List String
  status : String
  createdAt : String
  updatedAt : String
deriving DecidableEq

def appToProto (row : RegisteredApp) : AppRegistration where
  id := row.id.toString
  appIdentifier := row.appIdentifier
  displayName := row.displayName
  publisher := row.publisher
  schemaVersion := row.schemaVersion
  resourceTypes := row.resourceTypes
  status := row.status
  createdAt := row.createdAt.toRfc3339
  updatedAt := row.updatedAt.toRfc3339

/-- The declaration of a request. -/
def RegisterAppRequest.decl (req : RegisterAppRequest) : Registry.AppDeclaration where
  appIdentifier := req.appIdentifier
  displayName := req.displayName
  publisher := req.publisher
  appPublicKey := req.appPublicKey
  schemaVersion := req.schemaVersion
  resourceTypes := req.resourceTypes

variable (lib : Libs)

/-- Upsert the registration and audit it, in one transaction. -/
def registerApp.write (user : User) (decl : Registry.AppDeclaration) : Rpc AppRegistration := do
  beginTx.mapError fun _ => internal "register_app:begin"
  let row ← (inTx (Registry.upsertApp decl (some user.id))).mapError
    fun _ => internal "register_app:upsert"
  let _ ← (Audit.append lib (some ⟨user.id, user.displayName⟩) none "app_registered" (.object
    [("app_id", .str row.id.toString),
      ("app_identifier", .str row.appIdentifier),
      ("publisher", .str row.publisher),
      ("schema_version", .int row.schemaVersion.toInt)])).mapError
    fun _ => internal "register_app:audit"
  commitTx.mapError fun _ => internal "register_app:commit"
  pure (appToProto row)

def registerApp (metadata : Metadata) (req : RegisterAppRequest) : Rpc AppRegistration := do
  let user ← authenticate lib metadata
  if (trim req.appIdentifier).isEmpty || (trim req.displayName).isEmpty ||
      (trim req.publisher).isEmpty then
    fail ⟨.invalidArgument, "app_identifier, display_name, and publisher are required"⟩
  else do
    let publisher ← (onPool (Registry.getTrustedPublisher req.publisher)).mapError
      fun _ => internal "register_app:get_publisher"
    match publisher with
    | none => fail ⟨.permissionDenied, "publisher is not trusted on this server"⟩
    | some publisher =>
      if !Registry.verifyDeclarationSignature lib publisher.publicKey req.decl req.signature then
        fail ⟨.permissionDenied, "invalid publisher signature"⟩
      else registerApp.write lib user req.decl

def getAppRegistration (metadata : Metadata) (appIdentifier : String) : Rpc AppRegistration := do
  let _ ← authenticate lib metadata
  let row ← (onPool (Registry.getAppByIdentifier appIdentifier)).mapError
    fun _ => internal "get_app_registration"
  match row with
  | some row => pure (appToProto row)
  | none => fail ⟨.notFound, "app not registered"⟩

end Platform

end SylvaServer
