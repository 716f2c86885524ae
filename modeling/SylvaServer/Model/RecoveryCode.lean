/-
  `auth::recovery_code` and `auth::user_recovery_code`: codes for paper, their canonical form, the
  one active code of the server and the one of each user.
-/
import SylvaServer.Model.Auth

namespace SylvaServer

open ReadCommitted ReadCommitted.Prog

namespace RecoveryCode

/-! ## Codes -/

/-- The Crockford base32 alphabet: no `I`, `L`, `O`, `U`. -/
def crockford : List Char := "0123456789ABCDEFGHJKMNPQRSTVWXYZ".toList

/-- `[u8; CODE_ENTROPY_BYTES]`. -/
structure Entropy where
  bytes : Bytes
  size : bytes.length = 20
deriving DecidableEq

/-- The symbols of five bytes, as indices into the alphabet. -/
def symbols (b₀ b₁ b₂ b₃ b₄ : UInt8) : List UInt8 :=
  [b₀ >>> 3,
    ((b₀ &&& 0x07) <<< 2) ||| (b₁ >>> 6),
    (b₁ >>> 1) &&& 0x1f,
    ((b₁ &&& 0x01) <<< 4) ||| (b₂ >>> 4),
    ((b₂ &&& 0x0f) <<< 1) ||| (b₃ >>> 7),
    (b₃ >>> 2) &&& 0x1f,
    ((b₃ &&& 0x03) <<< 3) ||| (b₄ >>> 5),
    b₄ &&& 0x1f]

/-- The 32 characters of a code. -/
def encodeChars (entropy : Entropy) : List Char :=
  let b := fun i => entropy.bytes.getD i 0
  ((List.range 4).flatMap fun chunk =>
    let o := chunk * 5
    symbols (b o) (b (o + 1)) (b (o + 2)) (b (o + 3)) (b (o + 4))).map
      fun symbol => crockford.getD symbol.toNat '0'

/-- The characters with a hyphen before every fourth but the first. -/
def encodeGrouped (entropy : Entropy) : String :=
  String.ofList ((encodeChars entropy).zipIdx.flatMap fun (c, i) =>
    if 0 < i ∧ i % 4 = 0 then ['-', c] else [c])

/-- What is kept of a character; `to_ascii_uppercase` first. -/
def canonicalChar (ch : Char) : Option Char :=
  match ch.toUpper with
  | '-' | ' ' | '\t' | '\n' | '\r' => none
  | 'I' | 'L' => some '1'
  | 'O' => some '0'
  | other => some other

/-- Without dashes and blanks, in upper case, look-alikes mapped to digits. -/
def canonicalize (input : String) : String := String.ofList (input.toList.filterMap canonicalChar)

/-- The hash of a code for storage and comparison. -/
def hashCode (lib : Libs) (raw : String) : Bytes := lib.sha256 (utf8 (canonicalize raw))

/-! ## The active code of the server -/

/-- `INSERT INTO auth.recovery_codes …`: at most one row may have `rotated_at` NULL. -/
def insert (codeHash : Bytes) (byUserId : Option Uuid) : Statement Uuid := fun env mem db =>
  readAs (fun row => .ok row.id) (insertRow .recoveryCodes
    { id := env.uuid
      codeHash := codeHash
      createdAt := env.pgNow
      createdByUserId := byUserId
      rotatedAt := none
      rotatedByUserId := none }
    (db.recoveryCodes.any (·.rotatedAt == none)) (byUserId.toList.map fun id => (.users, .uuid id))
    [.activeRecoveryCode] mem db)

/-- The first recovery code, at provision time. -/
def bootstrap (lib : Libs) (rawCode : String) (byUserId : Option Uuid) : Query Uuid :=
  inTx (insert (hashCode lib rawCode) byUserId)

/-- The id of the active code if `presented` matches it. -/
def verify (lib : Libs) (presented : String) : Statement (Option Uuid) :=
  select fun _ db => (db.recoveryCodes.find? fun row =>
    row.rotatedAt == none && row.codeHash == hashCode lib presented).map (·.id)

/-- Mark the active row rotated if its hash matches. A row that is changed keeps its reference to
    the user who created it; the new reference to who rotated it is checked. -/
def markRotated (currentHash : Bytes) (byUserId : Uuid) : Statement (Option Uuid) :=
  fun env mem db =>
    let matching := fun row : SylvaServer.RecoveryCode =>
      row.rotatedAt == none && row.codeHash == currentHash
    if db.recoveryCodes.any matching && db.dangles (.users, .uuid byUserId) then
      failed foreignKeyViolation mem
    else
      let o := updateRows .recoveryCodes matching (fun row => { row with
        rotatedAt := some env.pgNow
        rotatedByUserId := some byUserId }) mem db
      readAs (fun rows => .ok (rows.head?.map (·.id))) { o with
        locks := (db.recoveryCodes.filter matching).flatMap fun row =>
          [.activeRecoveryCode, .keyShare .users (.uuid byUserId) .recoveryCodes (.uuid row.id)] }

/-- Replace the active code if `currentRaw` matches it; the new id and the one before. -/
def rotate (lib : Libs) (currentRaw newRaw : String) (byUserId : Uuid) :
    Query (Option (Uuid × Uuid)) := do
  let previous ← inTx (markRotated (hashCode lib currentRaw) byUserId)
  match previous with
  | none => pure none
  | some previousId =>
    let newId ← inTx (insert (hashCode lib newRaw) (some byUserId))
    pure (some (newId, previousId))

end RecoveryCode

/-! ## The code of a user -/

namespace UserRecoveryCode

/-- The first code of a user, one for each. -/
def bootstrap (lib : Libs) (userId : Uuid) (rawCode : String) : Statement Unit := fun env mem db =>
  readAs (fun _ => .ok ()) (insertRow .userRecoveryCodes
    { userId := userId
      codeHash := RecoveryCode.hashCode lib rawCode
      generatedAt := env.pgNow
      lastUsedAt := none }
    false [(.users, .uuid userId)] [] mem db)

/-- Replace the code of a user, or put the first one in. -/
def rotate (lib : Libs) (userId : Uuid) (newRaw : String) : Statement Unit := fun env mem db =>
  let row : SylvaServer.UserRecoveryCode :=
    { userId := userId
      codeHash := RecoveryCode.hashCode lib newRaw
      generatedAt := env.pgNow
      lastUsedAt := none }
  match db.userRecoveryCodes.find? (·.userId == userId) with
  | some _ => { result := .ok (), writes := [.put .userRecoveryCodes row], locks := [], mem := mem }
  | none => readAs (fun _ => .ok ())
      (insertRow .userRecoveryCodes row false [(.users, .uuid userId)] [] mem db)

/-- Stamp the code of a user if `presented` matches it; whether it does. -/
def verifyAndStamp (lib : Libs) (userId : Uuid) (presented : String) : Statement Bool :=
  fun env mem db => readAs (fun rows => .ok !rows.isEmpty) (updateRows .userRecoveryCodes
    (fun row => row.userId == userId && row.codeHash == RecoveryCode.hashCode lib presented)
    (fun row => { row with lastUsedAt := some env.pgNow }) mem db)

end UserRecoveryCode

end SylvaServer
