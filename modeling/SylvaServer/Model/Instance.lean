/-
  `server::config`, `server::instance` and the head of `server::serve`: the secret key and the
  identity a server starts with.

  A start talks to the `sylva_meta.instance` singleton and to the file `secret.key`. The file is
  the memory that no transaction rolls back; what the file system answers is up to the environment.
-/
import SylvaServer.Model.Discovery
import SylvaServer.Model.Totp

namespace SylvaServer

open ReadCommitted ReadCommitted.Prog

/-- An `anyhow::Error`: its messages, the outermost first. -/
abbrev AnyError := List String

/-- `.context(message)`. -/
def withContext {α : Type} (message : String) (r : Except AnyError α) : Except AnyError α :=
  r.mapError (message :: ·)

/-! ## The secret key -/

def hexNibble (b : UInt8) : Except AnyError UInt8 :=
  if 48 ≤ b && b ≤ 57 then .ok (b - 48)
  else if 97 ≤ b && b ≤ 102 then .ok (b - 97 + 10)
  else if 65 ≤ b && b ≤ 70 then .ok (b - 65 + 10)
  else .error ["invalid hex digit"]

/-- The loop over `chunks_exact(2)`. -/
def decodeChunks : Bytes → Except AnyError Bytes
  | high :: low :: chunks => do
    let byte := (← hexNibble high) <<< 4 ||| (← hexNibble low)
    pure (byte :: (← decodeChunks chunks))
  | _ => pure []

def decodeHex32 (s : String) : Except AnyError Bytes :=
  let len := (utf8 s).length
  if len ≠ 64 then .error [s!"expected 64 hex chars, got {len}"] else decodeChunks (utf8 s)

/-- How the file system fails. -/
structure IoFault where
  message : String
  /-- How much of the new contents a write that fails has left; `none` where the file was not
      opened. -/
  torn : Option Nat

/-- What a start gets from outside at one step. -/
structure HostEnv where
  random : Nat → UInt8
  fault : Option IoFault

/-- `fill_bytes` on an array of `n`. -/
def HostEnv.fill (env : HostEnv) (n : Nat) : Bytes := (List.range n).map env.random

theorem HostEnv.fill_length (env : HostEnv) (n : Nat) : (env.fill n).length = n := by
  unfold fill
  rw [List.length_map, List.length_range]

/-- What a start reads and writes of `sylva_meta.instance`. -/
structure InstanceRow where
  instanceName : Option String
  serverIdentityPublic : Option Bytes
  serverIdentityPrivEnc : Option Bytes
deriving DecidableEq

instance : Store (Option InstanceRow) InstanceRow Unit where
  apply _ row := some row
  rowLock _ := ()
  clash _ _ := true
  clash_comm _ _ := rfl

/-- The singleton and the file `secret.key`. -/
abbrev Host := ReadCommitted.Shared (Option InstanceRow) (Option Bytes)

abbrev Startup := Prog HostEnv (Option InstanceRow) InstanceRow Unit (Option Bytes) String AnyError

/-- What a start takes from `Config`, from `SYLVA_SECRET_KEY` (`none` also where it is not Unicode)
    and from the path of the key file. -/
structure Config where
  secretKeyVar : Option String
  dataDir : String
  keyPath : String
  instanceName : String
  grpcPort : UInt16

/-- `SYLVA_SECRET_KEY` without white space around it, where something is left. -/
def Config.secretKeyHex (config : Config) : Option String :=
  (config.secretKeyVar.map trim).filter fun hex => hex != ""

inductive IoError where
  | notFound
  | other (message : String)

/-- `std::fs::read` of the key file. -/
def readKeyFile : Startup (Except IoError Bytes) :=
  critical fun env file => (match env.fault, file with
    | some fault, _ => .error (.other fault.message)
    | none, some bytes => .ok bytes
    | none, none => .error .notFound, file)

/-- `std::fs::create_dir_all`. -/
def createDirAll : Startup (Except AnyError Unit) :=
  critical fun env file => (match env.fault with
    | some fault => .error [fault.message]
    | none => .ok (), file)

/-- `std::fs::write` of the key file: it is emptied when it is opened. -/
def writeKeyFile (key : Bytes) : Startup (Except AnyError Unit) :=
  critical fun env file => match env.fault with
    | some fault => (.error [fault.message], match fault.torn with
      | some n => some (key.take n)
      | none => file)
    | none => (.ok (), some key)

def writeSecretKey (config : Config) (key : Bytes) : Startup Unit := do
  ofExcept (withContext ("creating " ++ config.dataDir) (← createDirAll))
  ofExcept (withContext ("writing " ++ config.keyPath) (← writeKeyFile key))

def generateKey : Startup Bytes := ask fun env => env.fill 32

def loadSecretKey (config : Config) : Startup Bytes :=
  match config.secretKeyHex with
  | some hex =>
    ofExcept (withContext "SYLVA_SECRET_KEY must be 64 hex chars (32 bytes)" (decodeHex32 hex))
  | none => do
    match ← readKeyFile with
    | .ok bytes =>
      if bytes.length = 32 then pure bytes
      else fail [config.keyPath ++ " exists but is not a 32-byte key; delete it to regenerate"]
    | .error .notFound =>
      let key ← generateKey
      writeSecretKey config key
      pure key
    | .error (.other message) => fail ["reading " ++ config.keyPath, message]

/-! ## The server identity -/

/-- `ed25519_dalek`, as far as a server signs with it. -/
structure Ed25519 where
  /-- `SigningKey::from_bytes(seed).verifying_key()`. -/
  verifyingKey : Bytes → Bytes
  verifyingKey_size : ∀ seed, (verifyingKey seed).length = 32
  /-- `SigningKey::from_bytes(seed).sign(message)`. -/
  sign : (seed message : Bytes) → Bytes

structure ServerIdentity where
  seed : Bytes
  publicKey : Bytes
deriving DecidableEq

/-- `Secretbox::seal` under a given nonce. -/
def Secretbox.sealWith (lib : Libs) (key nonce plaintext : Bytes) : Except AuthError Bytes :=
  match lib.xchachaEncrypt key nonce plaintext with
  | some ciphertext => .ok (nonce ++ ciphertext)
  | none => .error .crypto

theorem Secretbox.seal_eq (lib : Libs) (key plaintext : Bytes) : Secretbox.seal lib key plaintext =
    (ask fun env => env.random.take Secretbox.nonceLen) >>= fun nonce =>
      ofExcept (Secretbox.sealWith lib key nonce plaintext) := rfl

/-- A statement of a start on the singleton. -/
abbrev InstanceStatement := Sql HostEnv (Option InstanceRow) InstanceRow Unit (Option Bytes) String

/-- `SELECT server_identity_public, server_identity_priv_enc`. -/
def selectIdentity : InstanceStatement (Option (Option Bytes × Option Bytes)) := fun _ file table =>
  ⟨.ok (table.map fun row => (row.serverIdentityPublic, row.serverIdentityPrivEnc)), [], [], file⟩

/-- `UPDATE sylva_meta.instance SET server_identity_public = .., server_identity_priv_enc = ..`. -/
def updateIdentity (publicKey privEnc : Bytes) : InstanceStatement Unit := fun _ file table =>
  ⟨.ok (), (table.map fun row => { row with
    serverIdentityPublic := some publicKey
    serverIdentityPrivEnc := some privEnc }).toList, [], file⟩

def ensureServerIdentity (lib : Libs) (ed : Ed25519) (secretKey : Bytes) :
    Startup ServerIdentity := do
  let row ← (onPool selectIdentity).mapError ([·])
  match row with
  | some (some publicKey, some privEnc) =>
    let seed ← ofExcept ((Secretbox.open lib secretKey privEnc).mapError fun _ =>
      ["decrypting server identity key"])
    if seed.length ≠ 32 then fail ["stored server identity key has the wrong length"]
    else if publicKey.length ≠ 32 then
      fail ["stored server identity public key has the wrong length"]
    else pure ⟨seed, publicKey⟩
  | _ =>
    let seed ← ask fun env => env.fill 32
    let nonce ← ask fun env => env.fill Secretbox.nonceLen
    let privEnc ← ofExcept ((Secretbox.sealWith lib secretKey nonce seed).mapError fun _ =>
      ["sealing server identity key"])
    (onPool (updateIdentity (ed.verifyingKey seed) privEnc)).mapError ([·])
    pure ⟨seed, ed.verifyingKey seed⟩

/-- `SELECT instance_name`. -/
def selectInstanceName : InstanceStatement (Option (Option String)) := fun _ file table =>
  ⟨.ok (table.map InstanceRow.instanceName), [], [], file⟩

def serverName (config : Config) : Startup String := do
  let stored ← (onPool selectInstanceName).mapError ([·])
  pure (stored.join.getD config.instanceName)

/-- What the listeners are started with. -/
structure Started where
  secretKey : Bytes
  instanceName : String
  identity : ServerIdentity
deriving DecidableEq

/-- `serve`, from the migrations to the listeners. -/
def serve (lib : Libs) (ed : Ed25519) (config : Config) : Startup Started := do
  let secretKey ← loadSecretKey config
  let instanceName ← serverName config
  let identity ← ensureServerIdentity lib ed secretKey
  pure ⟨secretKey, instanceName, identity⟩

/-- What the discovery handler of a started server finds. -/
def Started.discoveryState (ed : Ed25519) (config : Config) (started : Started) :
    Discovery.DiscoveryState where
  instanceName := started.instanceName
  grpcPort := config.grpcPort
  serverIdentity := started.identity.publicKey
  sign := ed.sign started.identity.seed

end SylvaServer
