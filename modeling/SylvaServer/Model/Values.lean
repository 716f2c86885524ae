/-
  The values the server moves around: bytes, UUIDs, instants, text helpers, gRPC statuses.

  An instant is the number of nanoseconds since the Unix epoch; leap seconds, which neither
  `Utc::now()` nor Postgres gives, are left out.
-/
import SylvaServer.Codec.Calendar
import SylvaServer.Codec.Json
import SylvaServer.Codec.Utf8

namespace SylvaServer

open Calendar (rfc3339)

abbrev Bytes := List UInt8

/-! ## Text -/

/-- The UTF-8 bytes of a string. -/
def utf8 (s : String) : Bytes := s.toByteArray.data.toList

/-- Unicode `White_Space`, what `str::trim` removes. -/
def isWhiteSpace (c : Char) : Bool :=
  let n := c.toNat
  (9 ≤ n && n ≤ 13) || n == 0x20 || n == 0x85 || n == 0xa0 || n == 0x1680 ||
    (0x2000 ≤ n && n ≤ 0x200a) || n == 0x2028 || n == 0x2029 || n == 0x202f || n == 0x205f ||
    n == 0x3000

/-- `str::trim`. -/
def trim (s : String) : String :=
  String.ofList (((s.toList.dropWhile isWhiteSpace).reverse.dropWhile isWhiteSpace).reverse)

/-- `str::strip_prefix`. -/
def stripPrefix (pre s : String) : Option String :=
  if pre.toList.isPrefixOf s.toList then some (String.ofList (s.toList.drop pre.toList.length))
  else none

/-- Lowercase hex of a byte slice (`registry::hex`, `auth::hex_encode`). -/
def hex (bytes : Bytes) : String :=
  String.ofList (bytes.flatMap Delimited.hexByte)

theorem utf8_inj {s t : String} (h : utf8 s = utf8 t) : s = t := by
  have hdata : s.toByteArray.data = t.toByteArray.data := Array.toList_inj.mp h
  exact String.toByteArray_inj.mp (ByteArray.ext hdata)

theorem utf8_eq_encode (s : String) : utf8 s = Utf8.encode s.toList := by
  unfold utf8 Utf8.encode
  have h := String.utf8Encode_toList (b := s)
  unfold List.utf8Encode at h
  rw [← h]
  simp [List.data_toByteArray]

theorem utf8_append (s t : String) : utf8 (s ++ t) = utf8 s ++ utf8 t := by
  rw [utf8_eq_encode, String.toList_append, Utf8.encode_append, ← utf8_eq_encode, ← utf8_eq_encode]

/-- A text that neither begins nor ends with white space. -/
theorem trim_eq_self {s : String} (h : ∀ c ∈ s.toList, isWhiteSpace c = false) : trim s = s := by
  have hdrop : ∀ cs : List Char, (∀ c ∈ cs, isWhiteSpace c = false) →
      cs.dropWhile isWhiteSpace = cs := by
    intro cs hcs
    cases cs with
    | nil => rfl
    | cons c cs => rw [List.dropWhile_cons, hcs c (by simp), if_neg (by simp)]
  unfold trim
  rw [hdrop _ h, hdrop _ fun c hc => h c (List.mem_reverse.mp hc), List.reverse_reverse,
    String.ofList_toList]

theorem hex_toList (bytes : Bytes) : (hex bytes).toList = bytes.flatMap Delimited.hexByte :=
  String.toList_ofList

theorem hex_inj {a b : Bytes} (h : hex a = hex b) : a = b := by
  have := congrArg String.toList h
  rw [hex_toList, hex_toList] at this
  exact Delimited.hexByte_code.injective this

/-- Hex before a dash can be read back. -/
theorem hex_append_inj {a b : Bytes} {r s : List Char}
    (h : (hex a).toList ++ '-' :: r = (hex b).toList ++ '-' :: s) : a = b ∧ r = s := by
  have hclass : ∀ bytes : Bytes, ∀ c ∈ (hex bytes).toList, c ≠ '-' := by
    intro bytes c hc
    rw [hex_toList, List.mem_flatMap] at hc
    obtain ⟨byte, -, hc⟩ := hc
    exact Delimited.not_dash_of_mem_hexByte hc
  obtain ⟨he, hr⟩ := Delimited.append_inj_of_class (hclass a) (hclass b)
    (Delimited.stops_cons (by simp)) (Delimited.stops_cons (by simp)) h
  exact ⟨hex_inj (String.toList_inj.mp he), (List.cons.inj hr).2⟩

/-! ## UUIDs -/

structure Uuid where
  bytes : Bytes
  size : bytes.length = 16
deriving DecidableEq

/-- One byte sixteen times. -/
def Uuid.ofByte (n : UInt8) : Uuid := ⟨List.replicate 16 n, List.length_replicate⟩

/-- Hyphenated lowercase form, `8-4-4-4-12`. -/
def Uuid.toString (u : Uuid) : String :=
  hex (u.bytes.take 4) ++ "-" ++ hex ((u.bytes.drop 4).take 2) ++ "-" ++
    hex ((u.bytes.drop 6).take 2) ++ "-" ++ hex ((u.bytes.drop 8).take 2) ++ "-" ++
    hex (u.bytes.drop 10)

theorem Uuid.toString_inj {u v : Uuid} (h : u.toString = v.toString) : u = v := by
  have h := congrArg String.toList h
  have hdash : "-".toList = ['-'] := rfl
  simp only [Uuid.toString, String.toList_append, List.append_assoc, hdash, List.cons_append,
    List.nil_append] at h
  obtain ⟨h₀, h⟩ := hex_append_inj h
  obtain ⟨h₁, h⟩ := hex_append_inj h
  obtain ⟨h₂, h⟩ := hex_append_inj h
  obtain ⟨h₃, h⟩ := hex_append_inj h
  have h₄ := hex_inj (String.toList_inj.mp h)
  have hjoin : ∀ w : Uuid, w.bytes = w.bytes.take 4 ++ ((w.bytes.drop 4).take 2 ++
      ((w.bytes.drop 6).take 2 ++ ((w.bytes.drop 8).take 2 ++ w.bytes.drop 10))) := by
    intro w
    have hsplit : ∀ m k, (w.bytes.drop m).take k ++ w.bytes.drop (m + k) = w.bytes.drop m := by
      intro m k
      rw [← List.drop_drop, List.take_append_drop]
    rw [hsplit 8 2, hsplit 6 2, hsplit 4 2, List.take_append_drop]
  have hbytes : u.bytes = v.bytes := by
    rw [hjoin u, hjoin v, h₀, h₁, h₂, h₃, h₄]
  cases u
  cases v
  simpa using hbytes

/-! ## Instants -/

structure DateTime where
  nanos : Int
deriving DecidableEq

namespace DateTime

/-- `ts.nanosecond()`: the nanoseconds within the second. -/
def nanosecond (ts : DateTime) : Nat := (ts.nanos % 1000000000).toNat

/-- `ts.with_nanosecond(n)`. -/
def withNanosecond (ts : DateTime) (n : Nat) : Option DateTime :=
  if n < 2000000000 then some ⟨ts.nanos - ts.nanosecond + n⟩ else none

/-- `to_rfc3339()`, the form on the wire. -/
def toRfc3339 (ts : DateTime) : String := String.ofList (rfc3339 "+00:00".toList ts.nanos)

/-- Nanoseconds of so many hours. -/
def hours (n : Int) : Int := n * 3600000000000

end DateTime

/-! ## gRPC statuses -/

inductive Code where
  | invalidArgument
  | unauthenticated
  | permissionDenied
  | notFound
  | alreadyExists
  | failedPrecondition
  | resourceExhausted
  | internal
deriving DecidableEq

structure Status where
  code : Code
  message : String
deriving DecidableEq

/-- Every unexpected failure looks the same on the wire; `op` only goes to the log. -/
def internal (_op : String) : Status := ⟨.internal, "internal error"⟩

/-! ## Failed statements -/

/-- What a statement can fail with: a database error with its SQLSTATE, or no row where one
    was asked for, or a broken connection. -/
inductive SqlError where
  | database (code : String)
  | rowNotFound
  | io
deriving DecidableEq

def uniqueViolation : SqlError := .database "23505"

def foreignKeyViolation : SqlError := .database "23503"

/-! ## Code from outside the repository -/

/-- A JSON value; a float is given by the bits of a finite `f64`. -/
abbrev EventData := CompactJson.Value UInt64

/-- What the server calls in other crates and in Postgres. -/
structure Libs where
  sha256 : Bytes → Bytes
  sha256_size : ∀ bytes, (sha256 bytes).length = 32
  /-- `Argon2::hash_password`: the PHC string of a password under a salt. -/
  argon2Hash : (password : String) → (salt : Bytes) → Option String
  /-- `Argon2::verify_password`; `none` where the PHC string is malformed. -/
  argon2Verify : (password phc : String) → Option Bool
  /-- HMAC-SHA1 of a message under a key of any length. -/
  hmacSha1 : (key message : Bytes) → Bytes
  hmacSha1_size : ∀ key message, (hmacSha1 key message).length = 20
  /-- `XChaCha20Poly1305::encrypt`. -/
  xchachaEncrypt : (key nonce plaintext : Bytes) → Option Bytes
  /-- `XChaCha20Poly1305::decrypt`; `none` where the tag fails. -/
  xchachaDecrypt : (key nonce ciphertext : Bytes) → Option Bytes
  /-- `VerifyingKey::from_bytes` succeeds. -/
  ed25519Key : Bytes → Bool
  /-- `VerifyingKey::verify_strict` of a message and a signature. -/
  verifyStrict : (key message signature : Bytes) → Bool
  /-- `uuid::Uuid::parse_str`. -/
  parseUuid : String → Option Uuid
  /-- How `serde_json` writes a float. -/
  ryu : UInt64 → List Char
  /-- Postgres `lower`. -/
  lower : String → String
  /-- What a `TIMESTAMPTZ` column gives back for an instant stored in it. -/
  timestamptz : DateTime → DateTime
  /-- What a `JSONB` column gives back for a value stored in it. -/
  jsonb : EventData → EventData

/-! ### A stand-in for concrete runs -/

/-- The bytes of a hex text, dashes skipped. -/
def unhex : List Char → Option Bytes
  | [] => some []
  | [c] => if c = '-' then some [] else none
  | c :: d :: r =>
    if c = '-' then unhex (d :: r)
    else (unhex r).map fun bytes =>
      UInt8.ofNat (16 * Delimited.hexVal c + Delimited.hexVal d) :: bytes

/-- Float texts for `Libs.sample`: the bits as a decimal fraction. -/
def sampleFloat (bits : UInt64) : List Char := Delimited.digits bits.toNat ++ ['.', '0']

theorem sampleFloat_lawful : CompactJson.LawfulFloats sampleFloat where
  injective a b h := UInt64.toNat_inj.mp (Delimited.digits_inj (List.append_cancel_right h))
  chars f c hc := by
    rcases List.mem_append.mp hc with hc | hc
    · exact Or.inl (Or.inl (Delimited.isDigit_of_mem_digits hc))
    · rcases List.mem_cons.mp hc with rfl | hc
      · exact Or.inr (Or.inl rfl)
      · obtain rfl : c = '0' := by simpa using hc
        exact Or.inl (Or.inl (by decide))
  head f := by
    obtain ⟨c, cs, h, hc⟩ := Delimited.digits_head f.toNat
    exact ⟨c, cs ++ ['.', '0'], by simp [sampleFloat, h], Or.inl hc⟩
  not_int f := ⟨'.', by simp [sampleFloat], Or.inl rfl⟩

/-- Small functions with the behaviour the server relies on. -/
def Libs.sample : Libs where
  sha256 bytes := (bytes ++ List.replicate 32 0).take 32
  sha256_size bytes := by simp
  argon2Hash password salt := some (hex salt ++ "$" ++ password)
  argon2Verify password phc := some (phc.toList.drop 65 = password.toList)
  hmacSha1 key message := (message.reverse ++ key ++ List.replicate 20 0).take 20
  hmacSha1_size key message := by
    simp only [List.length_take, List.length_append, List.length_replicate]
    omega
  xchachaEncrypt key _ plaintext := some (key ++ plaintext)
  xchachaDecrypt key _ ciphertext :=
    if key.isPrefixOf ciphertext then some (ciphertext.drop key.length) else none
  ed25519Key _ := true
  verifyStrict key message signature := signature == key ++ message
  parseUuid s := (unhex s.toList).bind fun bytes =>
    if h : bytes.length = 16 then some ⟨bytes, h⟩ else none
  ryu := sampleFloat
  lower s := String.ofList (s.toList.map Char.toLower)
  timestamptz ts := ⟨ts.nanos / 1000 * 1000⟩
  jsonb data := data

end SylvaServer
