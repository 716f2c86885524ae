/-
  Authenticator-app codes: secrets sealed at rest, one-time codes (RFC 6238), and the
  credentials of the users.
-/
import SylvaServer.Model.Auth

namespace SylvaServer

open ReadCommitted ReadCommitted.Prog

namespace Secretbox

def nonceLen : Nat := 24

/-- Encrypt under a fresh nonce; `nonce || ciphertext`. -/
def «seal» (lib : Libs) (key plaintext : Bytes) : Auth Bytes := do
  let nonce ← ask fun env => env.random.take nonceLen
  ofExcept (match lib.xchachaEncrypt key nonce plaintext with
    | some ciphertext => .ok (nonce ++ ciphertext)
    | none => .error .crypto)

/-- Decrypt a blob that `seal` produced. -/
def «open» (lib : Libs) (key blob : Bytes) : Except AuthError Bytes :=
  if blob.length < nonceLen then .error .crypto
  else match lib.xchachaDecrypt key (blob.take nonceLen) (blob.drop nonceLen) with
    | some plaintext => .ok plaintext
    | none => .error .crypto

end Secretbox

namespace Totp

def numDigits : Nat := 6

def timeStepSecs : Int := 30

/-- An uppercase hex digit. -/
def upperHexDigit (n : Nat) : Char := if n < 10 then Char.ofNat (48 + n) else Char.ofNat (55 + n)

/-- The unreserved set (RFC 3986): letters, digits and `-._~`. -/
def unreservedByte (b : UInt8) : Bool :=
  (65 ≤ b && b ≤ 90) || (97 ≤ b && b ≤ 122) || (48 ≤ b && b ≤ 57) || b == 45 || b == 46 ||
    b == 95 || b == 126

/-- A byte as itself if it is unreserved, or as `%XX`. -/
def percentByte (b : UInt8) : List Char :=
  if unreservedByte b then [Char.ofNat b.toNat]
  else ['%', upperHexDigit (b.toNat / 16), upperHexDigit (b.toNat % 16)]

/-- Percent-encode a string for the label and the query. -/
def percentEncode (s : String) : String := String.ofList ((utf8 s).flatMap percentByte)

/-- The provisioning URI an authenticator app reads. -/
def otpauthUri (issuer account secretB32 : String) : String :=
  let iss := percentEncode issuer
  let acc := percentEncode account
  "otpauth://totp/" ++ iss ++ ":" ++ acc ++ "?secret=" ++ secretB32 ++ "&issuer=" ++ iss ++
    "&algorithm=SHA1&digits=6&period=30"

/-- `counter.to_be_bytes()`. -/
def toBeBytes (counter : UInt64) : Bytes :=
  ([56, 48, 40, 32, 24, 16, 8, 0] : List UInt64).map fun shift => (counter >>> shift).toUInt8

/-- The last nibble of a hash says where the code is taken from. -/
def truncationOffset (hash : Bytes) : Nat := ((hash.getLast?.getD 0) &&& 0x0f).toNat

/-- Where a code is taken from an HMAC-SHA1, its four bytes are there. -/
theorem truncationOffset_lt (lib : Libs) (secret message : Bytes) :
    truncationOffset (lib.hmacSha1 secret message) + 3 < (lib.hmacSha1 secret message).length := by
  rw [lib.hmacSha1_size]
  have hnibble : truncationOffset (lib.hmacSha1 secret message) ≤ 15 := by
    unfold truncationOffset
    rw [UInt8.toNat_and]
    exact Nat.and_le_right
  omega

/-- HOTP truncation (RFC 4226) to six digits. -/
def hotp (lib : Libs) (secret : Bytes) (counter : UInt64) : UInt32 :=
  let hash := lib.hmacSha1 secret (toBeBytes counter)
  let offset := truncationOffset hash
  let byte := fun i => (hash.getD (offset + i) 0).toUInt32
  let bin := ((byte 0 &&& 0x7f) <<< 24) ||| (byte 1 <<< 16) ||| (byte 2 <<< 8) ||| byte 3
  bin % 1000000

/-- A number with zeros in front, six characters. -/
def formatCode (value : UInt32) : String := String.ofList (Delimited.pad numDigits value.toNat)

/-- The time step of an instant, 0 before 1970. -/
def timeStep (unixTime : Int64) : Int := max (unixTime.toInt.tdiv timeStepSecs) 0

/-- The code for `secret` at `unixTime`. -/
def codeAt (lib : Libs) (secret : Bytes) (unixTime : Int64) : String :=
  formatCode (hotp lib secret (UInt64.ofInt (timeStep unixTime)))

/-- Exactly six ASCII digits. -/
def wellFormed (code : String) : Bool :=
  (utf8 code).length == numDigits && (utf8 code).all fun b => 48 ≤ b && b ≤ 57

/-- The time step whose code is presented, the current one or one of its neighbours. -/
def matchedStep (lib : Libs) (secret : Bytes) (code : String) (unixTime : Int64) : Option Int :=
  let code := trim code
  if !wellFormed code then none
  else
    let base := timeStep unixTime
    ([-1, 0, 1].map fun delta => base + delta).find? fun counter =>
      decide (0 ≤ counter) && utf8 (formatCode (hotp lib secret (UInt64.ofInt counter))) ==
        utf8 code

/-- What a matched step is. -/
theorem matchedStep_spec {lib : Libs} {secret : Bytes} {code : String} {unixTime : Int64}
    {step : Int} (h : matchedStep lib secret code unixTime = some step) :
    0 ≤ step ∧ timeStep unixTime - 1 ≤ step ∧ step ≤ timeStep unixTime + 1 ∧
      trim code = formatCode (hotp lib secret (UInt64.ofInt step)) := by
  unfold matchedStep at h
  generalize trim code = text at h ⊢
  dsimp only at h
  split at h
  · exact absurd h (by simp)
  · have hmem := List.mem_of_find?_eq_some h
    have hfound := List.find?_some h
    simp only [Bool.and_eq_true, decide_eq_true_eq, beq_iff_eq] at hfound
    simp only [List.map_cons, List.map_nil, List.mem_cons, List.not_mem_nil, or_false] at hmem
    refine ⟨hfound.1, ?_, ?_, (utf8_inj hfound.2).symm⟩ <;> omega

/-- Verify a presented code at `unixTime`. -/
def verifyCode (lib : Libs) (secret : Bytes) (code : String) (unixTime : Int64) : Bool :=
  (matchedStep lib secret code unixTime).isSome

end Totp

namespace UserTotp

/-- `DELETE` of a user's half-finished enrollments. -/
def deleteUnverified (userId : Uuid) : Statement Unit := fun _ mem db =>
  readAs (fun _ => .ok ()) (deleteRows .totpCredentials
    (fun cred => cred.userId == userId && cred.verifiedAt == none) mem db)

def insert (userId : Uuid) (enc : Bytes) : Statement Uuid := fun env mem db =>
  readAs (fun cred => .ok cred.id) (insertRow .totpCredentials
    { id := env.uuid
      userId := userId
      label := "Authenticator"
      secretEnc := enc
      createdAt := env.pgNow
      verifiedAt := none
      lastUsedAt := none
      lastUsedStep := none }
    false [(.users, .uuid userId)] [] mem db)

/-- Begin enrollment of a new authenticator; its id. -/
def startEnrollment (lib : Libs) (key : Bytes) (userId : Uuid) (rawSecret : Bytes) : Auth Uuid := do
  (inTx (deleteUnverified userId)).mapError .database
  let enc ← Secretbox.seal lib key rawSecret
  (inTx (insert userId enc)).mapError .database

/-- Mark a credential in progress verified and set its label; whether a row matched. -/
def confirm (userId credId : Uuid) (label : String) : Statement Bool := fun env mem db =>
  readAs (fun rows => .ok !rows.isEmpty) (updateRows .totpCredentials
    (fun cred => cred.id == credId && cred.userId == userId && cred.verifiedAt == none)
    (fun cred => { cred with verifiedAt := some env.pgNow, label := label }) mem db)

/-- The verified credentials of a user with their sealed secrets, in any order. -/
def verifiedSecrets (userId : Uuid) : Statement (List (Uuid × Bytes)) :=
  select fun env db =>
    (orderAsc (fun cred => (env.rank cred.id : Int))
      (db.totpCredentials.filter fun cred => cred.userId == userId && cred.verifiedAt.isSome)).map
        fun cred => (cred.id, cred.secretEnc)

/-- The consuming `UPDATE`; the rows affected. -/
def consume (credId : Uuid) (step : Int) : Statement Nat := fun env mem db =>
  readAs (fun rows => .ok rows.length) (updateRows .totpCredentials
    (fun cred => cred.id == credId && cred.verifiedAt.isSome &&
      cred.lastUsedStep.all fun last => decide (last < step))
    (fun cred => { cred with lastUsedStep := some step, lastUsedAt := some env.pgNow }) mem db)

/-- Try the credentials one by one; the first that matches decides. -/
def tryCredentials (lib : Libs) (key : Bytes) (code : String) (unixTime : Int64) :
    List (Uuid × Bytes) → Auth (Option Uuid)
  | [] => pure none
  | (id, enc) :: rows => do
    let secret ← ofExcept (Secretbox.open lib key enc)
    match Totp.matchedStep lib secret code unixTime with
    | some step =>
      let affected ← (onPool (consume id step)).mapError .database
      pure (if affected == 1 then some id else none)
    | none => tryCredentials lib key code unixTime rows

/-- Verify a code against the user's verified authenticators and consume the one that matches. -/
def verifyAndConsume (lib : Libs) (key : Bytes) (userId : Uuid) (code : String) (unixTime : Int64) :
    Auth (Option Uuid) := do
  let rows ← (onPool (verifiedSecrets userId)).mapError .database
  tryCredentials lib key code unixTime rows

/-- Rename a verified authenticator; whether a row matched. -/
def rename (userId credId : Uuid) (label : String) : Statement Bool := fun _ mem db =>
  readAs (fun rows => .ok !rows.isEmpty) (updateRows .totpCredentials
    (fun cred => cred.id == credId && cred.userId == userId && cred.verifiedAt.isSome)
    (fun cred => { cred with label := label }) mem db)

/-- Stamp the credential that satisfied a sign-in. -/
def stampUsed (credId : Uuid) : Statement Unit := fun env mem db =>
  readAs (fun _ => .ok ()) (updateRows .totpCredentials (·.id == credId)
    (fun cred => { cred with lastUsedAt := some env.pgNow }) mem db)

/-- Remove one authenticator; whether a row matched. -/
def delete (userId credId : Uuid) : Statement Bool := fun _ mem db =>
  readAs (fun rows => .ok !rows.isEmpty) (deleteRows .totpCredentials
    (fun cred => cred.id == credId && cred.userId == userId) mem db)

end UserTotp

end SylvaServer
