/-
  App registration: declarations and their signed bytes, trusted publishers, registered apps.
-/
import SylvaServer.Model.Tables
import Mathlib.Data.String.Basic

namespace SylvaServer

open ReadCommitted ReadCommitted.Prog

namespace Registry

/-- The signed-over fields of an app registration. -/
structure AppDeclaration where
  appIdentifier : String
  displayName : String
  publisher : String
  appPublicKey : Bytes
  schemaVersion : Int32
  resourceTypes : List String
deriving DecidableEq

/-- `types.join(",")`. -/
def joinTypes (types : List String) : String :=
  String.ofList (List.intercalate [','] (types.map String.toList))

/-- `types.sort()`. -/
def sortTypes (types : List String) : List String := types.insertionSort (· ≤ ·)

/-- The text of a declaration for signing and verification. -/
def canonicalDeclaration (decl : AppDeclaration) : String :=
  "sylva-app-registration:v1\napp_identifier=" ++ decl.appIdentifier ++
    "\ndisplay_name=" ++ decl.displayName ++
    "\npublisher=" ++ decl.publisher ++
    "\nschema_version=" ++ String.ofList (Delimited.signedDigits decl.schemaVersion.toInt) ++
    "\napp_public_key=" ++ hex decl.appPublicKey ++
    "\nresource_types=" ++ joinTypes (sortTypes decl.resourceTypes)

def canonicalDeclarationBytes (decl : AppDeclaration) : Bytes := utf8 (canonicalDeclaration decl)

/-- Verify a publisher's Ed25519 signature over a declaration. -/
def verifyDeclarationSignature (lib : Libs) (publisherPublicKey : Bytes) (decl : AppDeclaration)
    (signature : Bytes) : Bool :=
  publisherPublicKey.length == 32 && lib.ed25519Key publisherPublicKey && signature.length == 64 &&
    lib.verifyStrict publisherPublicKey (canonicalDeclarationBytes decl) signature

/-- `SELECT publisher, public_key FROM platform.trusted_publishers WHERE publisher = $1`. -/
def getTrustedPublisher (publisher : String) : Statement (Option TrustedPublisher) :=
  select fun _ db => db.trustedPublishers.find? (·.publisher == publisher)

/-- Remove a trusted publisher; whether a row was deleted. -/
def removeTrustedPublisher (publisher : String) : Statement Bool := fun _ mem db =>
  readAs (fun rows => .ok !rows.isEmpty)
    (deleteRows .trustedPublishers (·.publisher == publisher) mem db)

/-- Add, or replace, a trusted publisher's key. -/
def addTrustedPublisher (publisher : String) (publicKey : Bytes) (addedBy : Option Uuid) :
    Statement Unit := fun env mem db =>
  let row : TrustedPublisher :=
    { publisher := publisher, publicKey := publicKey, addedBy := addedBy, addedAt := env.pgNow }
  let refs : List (Table × Key) := addedBy.toList.map fun id => (.users, .uuid id)
  match db.trustedPublishers.find? (·.publisher == publisher) with
  | some _ =>
    if refs.any db.dangles then failed foreignKeyViolation mem
    else
      { result := .ok ()
        writes := [.put .trustedPublishers row]
        locks := refs.map fun ref => .keyShare ref.1 ref.2 .trustedPublishers (.name publisher)
        mem := mem }
  | none => readAs (fun _ => .ok ()) (insertRow .trustedPublishers row false refs [] mem db)

/-- `SELECT … FROM platform.registered_apps WHERE id = $1`. -/
def getApp (id : Uuid) : Statement (Option RegisteredApp) :=
  select fun _ db => db.registeredApps.find? (·.id == id)

/-- `SELECT … FROM platform.registered_apps WHERE app_identifier = $1`. -/
def getAppByIdentifier (appIdentifier : String) : Statement (Option RegisteredApp) :=
  select fun _ db => db.registeredApps.find? (·.appIdentifier == appIdentifier)

/-- Set an app's `status`; the updated row, or nothing if no app has that id. -/
def setAppStatus (id : Uuid) (status : String) : Statement (Option RegisteredApp) :=
  fun env mem db => readAs (fun rows => .ok rows.head?)
    (updateRows .registeredApps (·.id == id)
      (fun app => { app with status := status, updatedAt := env.pgNow }) mem db)

/-- Delete an app registration; its resources go with it. The deleted row, or nothing if no app
    had that id. -/
def deleteApp (id : Uuid) : Statement (Option RegisteredApp) := fun _ mem db =>
  match db.registeredApps.find? (·.id == id) with
  | none => { result := .ok none, writes := [], locks := [], mem := mem }
  | some app =>
    let apps := deleteRows .registeredApps (·.id == id) mem db
    let resources := deleteRows .resources (·.appId == id) mem db
    { result := .ok (some app)
      writes := apps.writes ++ resources.writes
      locks := apps.locks ++ resources.locks
      mem := mem }

/-- Insert or update an app registration, keyed on `app_identifier`; a registration again keeps
    `registered_by` and `status`. -/
def upsertApp (decl : AppDeclaration) (registeredBy : Option Uuid) : Statement RegisteredApp :=
  fun env mem db =>
    match db.registeredApps.find? (·.appIdentifier == decl.appIdentifier) with
    | some app =>
      let row := { app with
        displayName := decl.displayName
        publisher := decl.publisher
        appPublicKey := decl.appPublicKey
        schemaVersion := decl.schemaVersion
        resourceTypes := decl.resourceTypes
        updatedAt := env.pgNow }
      { result := .ok row, writes := [.put .registeredApps row], locks := [], mem := mem }
    | none =>
      insertRow .registeredApps
        { id := env.uuid
          appIdentifier := decl.appIdentifier
          displayName := decl.displayName
          publisher := decl.publisher
          appPublicKey := decl.appPublicKey
          schemaVersion := decl.schemaVersion
          resourceTypes := decl.resourceTypes
          status := "enabled"
          registeredBy := registeredBy
          createdAt := env.pgNow
          updatedAt := env.pgNow }
        false (registeredBy.toList.map fun id => (.users, .uuid id))
        [.appIdentifier decl.appIdentifier] mem db

end Registry

end SylvaServer
