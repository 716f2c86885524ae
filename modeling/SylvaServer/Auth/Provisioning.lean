/-
  The provisioning URI of an authenticator.

  The issuer and the account are percent-encoded, and the secret is base32, so no delimiter of the
  URI comes out of them.

  Proved: `percent_encode` is a code of the bytes (`percentByte_word`) and reads back
  (`readText_percentEncode`), and an app that cuts the URI at its delimiters finds the
  label and the parameters that went in (`uri_reads_back`).
-/
import SylvaServer.Model.Totp
import SylvaServer.Codec.Percent

namespace SylvaServer.Totp

/-! ## What an app reads -/

/-- Percent-decoded text. -/
def readText (cs : List Char) : Option String :=
  (Percent.decode cs).bind fun bytes => String.fromUTF8? ⟨bytes.toArray⟩

/-- A parameter: a name, one `=` and a value. -/
def readParam (cs : List Char) : Option (String × String) :=
  match cs.splitOn '=' with
  | [name, value] => do
    let name ← readText name
    let value ← readText value
    some (name, value)
  | _ => none

/-- What a provisioning URI says. -/
structure Provisioning where
  /-- The label, cut at each `:`. -/
  label : List String
  params : List (String × String)
deriving DecidableEq

/-- Read a provisioning URI: cut it at the first `?`, the label at `:` and the query at `&`. -/
def readUri (uri : String) : Option Provisioning := do
  let front := uri.toList.takeWhile (· != '?')
  let query := uri.toList.drop (front.length + 1)
  let path ← List.isPrefixOf? "otpauth://totp/".toList front
  let label ← (path.splitOn ':').mapM readText
  let params ← (query.splitOn '&').mapM readParam
  some ⟨label, params⟩

/-! ## Percent-encoding -/

theorem hexVal_upperHexDigit : ∀ n < 16, Percent.hexVal (upperHexDigit n) = some n := by decide

theorem unreserved_of_byte (b : UInt8) (h : unreservedByte b = true) :
    b.toNat < 128 ∧ (Char.ofNat b.toNat).toNat = b.toNat ∧
      Percent.unreserved (Char.ofNat b.toNat) = true := by
  have hall : ∀ n < 256, unreservedByte (UInt8.ofNat n) = true →
      n < 128 ∧ (Char.ofNat n).toNat = n ∧ Percent.unreserved (Char.ofNat n) = true := by
        decide +kernel
  exact hall b.toNat b.toNat_lt (by rwa [UInt8.ofNat_toNat])

theorem percentByte_word (b : UInt8) : Percent.Word b (percentByte b) := by
  have hlt : b.toNat < 256 := b.toNat_lt
  unfold percentByte
  split
  · next h =>
    obtain ⟨hascii, hchar, hunreserved⟩ := unreserved_of_byte b h
    refine .plain _ hunreserved ?_
    rw [Utf8.encodeChar_ascii (by omega), hchar, UInt8.ofNat_toNat]
  · refine .triple _ _ _ _ (hexVal_upperHexDigit _ (by omega))
      (hexVal_upperHexDigit _ (by omega)) ?_
    rw [Nat.div_add_mod, UInt8.ofNat_toNat]

/-- The bytes of a text read as UTF-8. -/
theorem fromUTF8?_utf8 (s : String) : String.fromUTF8? ⟨(utf8 s).toArray⟩ = some s := by
  have hbytes : (⟨(utf8 s).toArray⟩ : ByteArray) = s.toByteArray := rfl
  rw [hbytes]
  exact dif_pos s.isValidUTF8

theorem readText_percentEncode (s : String) : readText (percentEncode s).toList = some s := by
  unfold readText percentEncode
  rw [String.toList_ofList, Percent.decode_words percentByte_word]
  exact fromUTF8?_utf8 s

theorem percentEncode_inj {s t : String} (h : percentEncode s = percentEncode t) : s = t := by
  have hread := readText_percentEncode s
  rw [h, readText_percentEncode] at hread
  exact (Option.some.inj hread).symm

/-! ## The URI -/

/-- The base32 alphabet (RFC 4648), without padding. -/
def base32 : List Char := "ABCDEFGHIJKLMNOPQRSTUVWXYZ234567".toList

/-- The characters that cut a URI. -/
def delimiters : List Char := ['?', '&', '=', ':', '/', '#']

theorem safe_not_delimiter {c : Char} (h : Percent.Safe c) : c ∉ delimiters := by
  intro hc
  have hall : ∀ c ∈ delimiters, ¬ (Percent.unreserved c = true ∨ c = '%') :=
    List.forall_iff_forall_mem.mp (by decide)
  exact hall c hc h

theorem safe_percentEncode {s : String} {c : Char} (hc : c ∈ (percentEncode s).toList) :
    Percent.Safe c := by
  unfold percentEncode at hc
  rw [String.toList_ofList] at hc
  exact Percent.mem_words percentByte_word hc

theorem base32_unreserved : ∀ c ∈ base32, Percent.unreserved c = true :=
  List.forall_iff_forall_mem.mp (by decide +kernel)

/-- An unencoded text of unreserved characters reads as itself. -/
theorem readText_plain {s : String} (h : ∀ c ∈ s.toList, Percent.unreserved c = true) :
    readText s.toList = some s := by
  have hdecode : ∀ cs : List Char, (∀ c ∈ cs, Percent.unreserved c = true) →
      Percent.decode cs = some (Utf8.encode cs) := by
    intro cs hcs
    induction cs with
    | nil => rfl
    | cons c cs ih =>
      have hc := hcs c List.mem_cons_self
      rw [Percent.decode_plain (Percent.not_percent hc),
        ih fun d hd => hcs d (List.mem_cons_of_mem _ hd)]
      rfl
  unfold readText
  rw [hdecode _ h, ← utf8_eq_encode]
  exact fromUTF8?_utf8 s

/-- A parameter with its value as it is written and as it is meant. -/
structure Param where
  name : String
  written : List Char
  value : String

def Param.text (p : Param) : List Char := p.name.toList ++ '=' :: p.written

/-- No delimiter in the name and the value, and the value reads as it is meant. -/
structure Param.Clean (p : Param) : Prop where
  name : ∀ c ∈ p.name.toList, Percent.unreserved c = true
  written : ∀ c ∈ p.written, Percent.Safe c
  reads : readText p.written = some p.value

theorem clean_plain {name value : String} (hname : ∀ c ∈ name.toList, Percent.unreserved c = true)
    (hvalue : ∀ c ∈ value.toList, Percent.unreserved c = true) :
    Param.Clean ⟨name, value.toList, value⟩ :=
  ⟨hname, fun c hc => Or.inl (hvalue c hc), readText_plain hvalue⟩

/-- Safe text has no delimiters. -/
theorem not_mem_of_safe {cs : List Char} {d : Char} (h : ∀ c ∈ cs, Percent.Safe c)
    (hd : d ∈ delimiters) : d ∉ cs := fun hc => safe_not_delimiter (h d hc) hd

theorem Param.Clean.readParam {p : Param} (h : p.Clean) :
    readParam p.text = some (p.name, p.value) := by
  have hall : ∀ part ∈ [p.name.toList, p.written], '=' ∉ part := by
    intro part hpart
    rcases List.mem_pair.mp hpart with rfl | rfl
    · exact not_mem_of_safe (fun c hc => Or.inl (h.name c hc)) (by decide)
    · exact not_mem_of_safe h.written (by decide)
  have hsplit : p.text.splitOn '=' = [p.name.toList, p.written] := by
    simpa [Param.text, List.intercalate] using List.splitOn_intercalate '=' hall (by simp)
  unfold Totp.readParam
  rw [hsplit]
  simp [readText_plain h.name, h.reads]

theorem Param.Clean.no_ampersand {p : Param} (h : p.Clean) : '&' ∉ p.text := by
  unfold Param.text
  simp only [List.mem_append, List.mem_cons, not_or]
  exact ⟨not_mem_of_safe (fun c hc => Or.inl (h.name c hc)) (by decide), by decide,
    not_mem_of_safe h.written (by decide)⟩

theorem mapM_readParam {ps : List Param} (h : ∀ p ∈ ps, p.Clean) :
    (ps.map Param.text).mapM readParam = some (ps.map fun p => (p.name, p.value)) := by
  induction ps with
  | nil => rfl
  | cons p ps ih =>
    rw [List.map_cons, List.mapM_cons, (h p List.mem_cons_self).readParam,
      ih fun q hq => h q (List.mem_cons_of_mem _ hq)]
    rfl

/-- The parameters of the URI. -/
def uriParams (issuer secretB32 : String) : List Param :=
  [⟨"secret", secretB32.toList, secretB32⟩, ⟨"issuer", (percentEncode issuer).toList, issuer⟩,
    ⟨"algorithm", "SHA1".toList, "SHA1"⟩, ⟨"digits", "6".toList, "6"⟩,
    ⟨"period", "30".toList, "30"⟩]

theorem uriParams_clean (issuer : String) {secretB32 : String}
    (hsecret : ∀ c ∈ secretB32.toList, c ∈ base32) : ∀ p ∈ uriParams issuer secretB32, p.Clean := by
  have hname : ∀ text : String, text.toList.all Percent.unreserved = true →
      ∀ c ∈ text.toList, Percent.unreserved c = true := fun _ h => List.all_eq_true.mp h
  intro p hp
  simp only [uriParams, List.mem_cons, List.not_mem_nil, or_false] at hp
  rcases hp with rfl | rfl | rfl | rfl | rfl
  · exact clean_plain (hname "secret" (by decide)) fun c hc => base32_unreserved c (hsecret c hc)
  · exact ⟨hname "issuer" (by decide), fun c hc => safe_percentEncode hc,
      readText_percentEncode issuer⟩
  · exact clean_plain (hname "algorithm" (by decide)) (hname "SHA1" (by decide))
  · exact clean_plain (hname "digits" (by decide)) (hname "6" (by decide))
  · exact clean_plain (hname "period" (by decide)) (hname "30" (by decide))

theorem otpauthUri_toList (issuer account secretB32 : String) :
    (otpauthUri issuer account secretB32).toList =
      ("otpauth://totp/".toList ++ List.intercalate [':']
        [(percentEncode issuer).toList, (percentEncode account).toList]) ++
        '?' :: List.intercalate ['&'] ((uriParams issuer secretB32).map Param.text) := by
  have hcolon : ":".toList = [':'] := rfl
  have hsecret : "?secret=".toList = '?' :: ("secret".toList ++ ['=']) := rfl
  have hissuer : "&issuer=".toList = '&' :: ("issuer".toList ++ ['=']) := rfl
  have hfixed : "&algorithm=SHA1&digits=6&period=30".toList = '&' :: ("algorithm".toList ++
      '=' :: ("SHA1".toList ++ '&' :: ("digits".toList ++ '=' :: ("6".toList ++ '&' ::
        ("period".toList ++ '=' :: "30".toList))))) := by decide +kernel
  unfold otpauthUri uriParams Param.text
  simp only [String.toList_append, List.map_cons, List.map_nil]
  rw [hcolon, hsecret, hissuer, hfixed]
  -- the literals are opaque from here on
  generalize "otpauth://totp/".toList = scheme
  generalize "secret".toList = n₁, "issuer".toList = n₂, "algorithm".toList = n₃,
    "SHA1".toList = v₃,
    "digits".toList = n₄, "6".toList = v₄, "period".toList = n₅, "30".toList = v₅
  simp [List.intercalate]

/-- **An app reads what went in.** -/
theorem readUri_otpauthUri (issuer account : String) {secretB32 : String}
    (hsecret : ∀ c ∈ secretB32.toList, c ∈ base32) :
    readUri (otpauthUri issuer account secretB32) = some
      { label := [issuer, account]
        params :=
      [("secret", secretB32), ("issuer", issuer), ("algorithm", "SHA1"), ("digits", "6"),
          ("period", "30")] } := by
  have hclean := uriParams_clean issuer hsecret
  set label := [(percentEncode issuer).toList, (percentEncode account).toList] with hlabel
  have hsafe : ∀ part ∈ label, ∀ c ∈ part, Percent.Safe c := by
    intro part hpart c hc
    rcases List.mem_pair.mp hpart with rfl | rfl
    · exact safe_percentEncode hc
    · exact safe_percentEncode hc
  have hquestion : ∀ c ∈ "otpauth://totp/".toList ++ List.intercalate [':'] label,
      (c != '?') = true := by
    intro c hc
    have hscheme : ∀ c ∈ "otpauth://totp/".toList, (c != '?') = true :=
      List.forall_iff_forall_mem.mp (by decide)
    rcases List.mem_append.mp hc with hc | hc
    · exact hscheme c hc
    · have hmem : c ∈ (percentEncode issuer).toList ∨ c = ':' ∨
          c ∈ (percentEncode account).toList := by
        simpa [hlabel, List.intercalate] using hc
      rcases hmem with hc | rfl | hc
      · exact bne_iff_ne.mpr fun hd => safe_not_delimiter (safe_percentEncode hc) (hd ▸ by decide)
      · decide
      · exact bne_iff_ne.mpr fun hd => safe_not_delimiter (safe_percentEncode hc) (hd ▸ by decide)
  have hfront : (otpauthUri issuer account secretB32).toList.takeWhile (· != '?') =
      "otpauth://totp/".toList ++ List.intercalate [':'] label := by
    rw [otpauthUri_toList, List.takeWhile_append_of_pos hquestion]
    simp
  have hquery : (otpauthUri issuer account secretB32).toList.drop
      (("otpauth://totp/".toList ++ List.intercalate [':'] label).length + 1) =
        List.intercalate ['&'] ((uriParams issuer secretB32).map Param.text) := by
    rw [otpauthUri_toList, ← List.drop_drop, List.drop_left]
    rfl
  have hpath : List.isPrefixOf? "otpauth://totp/".toList ("otpauth://totp/".toList ++
      List.intercalate [':'] label) = some (List.intercalate [':'] label) := by
    rfl
  have hparts : ∀ part ∈ (uriParams issuer secretB32).map Param.text, '&' ∉ part := by
    intro part hpart
    obtain ⟨p, hp, rfl⟩ := List.mem_map.mp hpart
    exact (hclean p hp).no_ampersand
  unfold readUri
  simp only [hfront, hquery, hpath, Option.bind_eq_bind, Option.bind_some]
  rw [List.splitOn_intercalate ':' (fun part hpart => not_mem_of_safe (hsafe part hpart)
    (by decide)) (by simp [hlabel]),
    List.splitOn_intercalate '&' hparts (by simp [uriParams]), mapM_readParam hclean]
  simp [hlabel, readText_percentEncode, uriParams]

/-- A piece of a percent-encoded text: an unreserved character or `%XX`. -/
def IsPiece (piece : List Char) : Prop :=
  (∃ c, Percent.unreserved c = true ∧ piece = [c]) ∨
    ∃ x y, (Percent.hexVal x).isSome ∧ (Percent.hexVal y).isSome ∧ piece = ['%', x, y]

theorem percentByte_piece (b : UInt8) : IsPiece (percentByte b) := by
  have hword := percentByte_word b
  generalize percentByte b = piece at hword ⊢
  cases hword with
  | plain c hc _ => exact Or.inl ⟨c, hc, rfl⟩
  | triple x y high low hx hy _ => exact Or.inr ⟨x, y, by simp [hx], by simp [hy], rfl⟩

/-- **The provisioning URI cannot be injected into.** -/
theorem uri_reads_back :
    (∀ issuer account secretB32 : String, (∀ c ∈ secretB32.toList, c ∈ base32) →
      readUri (otpauthUri issuer account secretB32) = some
        { label := [issuer, account]
          params :=
        [("secret", secretB32), ("issuer", issuer), ("algorithm", "SHA1"), ("digits", "6"),
            ("period", "30")] }) ∧
    Function.Injective percentEncode ∧
    (∀ s, readText (percentEncode s).toList = some s) ∧
    ∀ s, ∃ pieces : List (List Char), (percentEncode s).toList = pieces.flatten ∧
      ∀ piece ∈ pieces, IsPiece piece := by
  refine ⟨fun issuer account secretB32 hsecret => readUri_otpauthUri issuer account hsecret,
    fun s t h => percentEncode_inj h, readText_percentEncode,
    fun s => ⟨(utf8 s).map percentByte, ?_, ?_⟩⟩
  · unfold percentEncode
    rw [String.toList_ofList, List.flatMap_def]
  · intro piece hpiece
    obtain ⟨b, -, rfl⟩ := List.mem_map.mp hpiece
    exact percentByte_piece b

/-- An account that looks like a parameter stays in the label. -/
theorem uri_reads_back_mallory :
    readUri (otpauthUri "Sylva Server" "a?secret=AAAA&b" "JBSWY3DP") = some
    { label := ["Sylva Server", "a?secret=AAAA&b"]
      params :=
    [("secret", "JBSWY3DP"), ("issuer", "Sylva Server"), ("algorithm", "SHA1"), ("digits", "6"),
        ("period", "30")] } :=
  uri_reads_back.1 _ _ _ (List.forall_iff_forall_mem.mp (by decide +kernel))

end SylvaServer.Totp
