/-
  Which declarations share a signature with another declaration.

  The signed text flattens six fields and a list with line breaks, `=` and commas and quotes
  nothing. `Unambiguous` is the exact condition under which the text can be read in one way
  only. Line breaks that begin a field name are markers, so the ways to read one text are
  compared marker by marker.

  Proved: `unambiguous_iff` (the signed text of a declaration belongs to no other declaration,
  up to the order of its types, exactly when it is unambiguous) and from it
  `signature_authorises_one_iff`. `two_declarations_one_signature` is a signature accepted for
  two declarations.
-/
import SylvaServer.Codec.Marker
import SylvaServer.Model.Registry

namespace SylvaServer.Registry

open Marker Delimited

/-! ## The text as a list of characters -/

def nameMark : List Char := "\ndisplay_name=".toList

def publisherMark : List Char := "\npublisher=".toList

def versionMark : List Char := "\nschema_version=".toList

def keyMark : List Char := "\napp_public_key=".toList

def typesMark : List Char := "\nresource_types=".toList

theorem nameMark_marker : IsMarker '\n' nameMark := ⟨"display_name=".toList, rfl, by decide⟩

theorem publisherMark_marker : IsMarker '\n' publisherMark := ⟨"publisher=".toList, rfl, by decide⟩

theorem versionMark_marker : IsMarker '\n' versionMark := ⟨"schema_version=".toList, rfl, by decide⟩

theorem keyMark_marker : IsMarker '\n' keyMark := ⟨"app_public_key=".toList, rfl, by decide⟩

theorem typesMark_marker : IsMarker '\n' typesMark := ⟨"resource_types=".toList, rfl, by decide⟩

theorem name_publisher_apart : Apart nameMark publisherMark := apart_cons (by decide)

theorem version_name_apart : Apart versionMark nameMark := apart_cons (by decide)

theorem version_publisher_apart : Apart versionMark publisherMark := apart_cons (by decide)

theorem version_key_apart : Apart versionMark keyMark := apart_cons (by decide)

theorem version_types_apart : Apart versionMark typesMark := apart_cons (by decide)

/-- The decimal text of a schema version. -/
def versionText (v : Int32) : List Char := signedDigits v.toInt

/-- The text of a public key. -/
def keyText (key : Bytes) : List Char := key.flatMap hexByte

/-- The signed text after the prefix, from the texts of the fields. -/
def layout (identifier name publisher version key types : List Char) : List Char :=
  identifier ++ (nameMark ++ (name ++ (publisherMark ++ (publisher ++ (versionMark ++ (version ++
    (keyMark ++ (key ++ (typesMark ++ types)))))))))

def typesText (types : List String) : List Char := (joinTypes (sortTypes types)).toList

theorem canonicalDeclaration_toList (d : AppDeclaration) :
    (canonicalDeclaration d).toList = "sylva-app-registration:v1\napp_identifier=".toList ++
      layout d.appIdentifier.toList d.displayName.toList d.publisher.toList
        (versionText d.schemaVersion) (keyText d.appPublicKey) (typesText d.resourceTypes) := by
  have hversion : (String.ofList (signedDigits d.schemaVersion.toInt)).toList =
      versionText d.schemaVersion := String.toList_ofList
  unfold canonicalDeclaration layout
  rw [String.toList_append, String.toList_append, String.toList_append, String.toList_append,
    String.toList_append, String.toList_append, String.toList_append, String.toList_append,
    String.toList_append, String.toList_append, String.toList_append, hversion, hex_toList]
  repeat rw [List.append_assoc]
  rfl

theorem newline_not_mem_versionText (v : Int32) : '\n' ∉ versionText v := by
  intro h
  rcases isSigned_of_mem h with h | h
  · exact absurd h (by decide)
  · exact absurd h (by decide)

theorem hexDigit_ne_newline : ∀ n < 16, hexDigit n ≠ '\n' := by decide

theorem newline_not_mem_keyText (key : Bytes) : '\n' ∉ keyText key := by
  intro h
  obtain ⟨b, -, hb⟩ := List.mem_flatMap.mp h
  have hlt : b.toNat < 256 := b.toNat_lt
  simp only [hexByte, List.mem_cons, List.not_mem_nil, or_false] at hb
  rcases hb with hb | hb
  · exact hexDigit_ne_newline _ (by omega) hb.symm
  · exact hexDigit_ne_newline _ (by omega) hb.symm

/-- Text that reads as the lines of a version and a key and the start of the types. -/
def block (version : Int32) (key : Bytes) : List Char :=
  versionMark ++ (versionText version ++ (keyMark ++ (keyText key ++ typesMark)))

/-! ## The exact condition -/

/-- The fields cannot be read in another way: no field name inside an earlier field, no block
    of version and key inside the publisher or the types, and a single type that no cut at a
    comma turns into sorted types. -/
structure Unambiguous (d : AppDeclaration) : Prop where
  identifier : ¬ nameMark <:+: d.appIdentifier.toList
  name : ¬ nameMark <:+: d.displayName.toList
  name_publisher : ¬ publisherMark <:+: d.displayName.toList
  publisher : ¬ publisherMark <:+: d.publisher.toList
  publisher_block : ∀ v k, ¬ block v k <:+: d.publisher.toList
  types : ∃ t : String, d.resourceTypes = [t] ∧ t ≠ "" ∧ (∀ v k, ¬ block v k <:+: t.toList) ∧
    ∀ a b : String, t.toList = a.toList ++ ',' :: b.toList → ¬ a ≤ b

/-- The same declaration, up to the order of the resource types. -/
structure Same (d d' : AppDeclaration) : Prop where
  appIdentifier : d.appIdentifier = d'.appIdentifier
  displayName : d.displayName = d'.displayName
  publisher : d.publisher = d'.publisher
  schemaVersion : d.schemaVersion = d'.schemaVersion
  appPublicKey : d.appPublicKey = d'.appPublicKey
  resourceTypes : d.resourceTypes.Perm d'.resourceTypes

/-! ## One reading -/

section Reading

variable {a n p t a' n' p' t' : List Char} {v v' : Int32} {k k' : Bytes}

/-- A version line inside a field, read against a text that starts right after a version mark,
    lies in the types there. -/
theorem version_later {y r : List Char}
    (h : versionText v ++ (keyMark ++ (keyText k ++ (typesMark ++ t))) = y ++ (versionMark ++ r)) :
    ∃ z, t = z ++ (versionMark ++ r) ∧
      y = versionText v ++ (keyMark ++ (keyText k ++ (typesMark ++ z))) := by
  obtain ⟨z, rfl, hz⟩ := marker_later versionMark_marker keyMark_marker version_key_apart
    (not_infix_of_not_mem versionMark_marker (newline_not_mem_versionText v)) h.symm
  obtain ⟨x, rfl, hx⟩ := marker_later versionMark_marker typesMark_marker version_types_apart
    (not_infix_of_not_mem versionMark_marker (newline_not_mem_keyText k)) hz.symm
  exact ⟨x, hx, rfl⟩

/-- Before the version line, only one way to cut out the name and the publisher is left. -/
theorem cut_before_version {w : List Char} (ha : ¬ nameMark <:+: a) (hn : ¬ nameMark <:+: w)
    (hp : ¬ publisherMark <:+: w)
    (h : a ++ (nameMark ++ w) = a' ++ (nameMark ++ (n' ++ (publisherMark ++ p')))) : False := by
  rcases marker_cut nameMark_marker nameMark_marker h with ⟨-, hw⟩ | ⟨y, -, hw⟩ | ⟨y, hw, -⟩
  · exact hp ⟨n', p', by rw [List.append_cancel_left hw, List.append_assoc]⟩
  · exact hn ⟨y, n' ++ (publisherMark ++ p'), by rw [hw, List.append_assoc]⟩
  · exact ha ⟨a', y, by rw [hw, List.append_assoc]⟩

/-- The version line of another reading does not lie before the real one. -/
theorem no_earlier_version {z : List Char} (ha : ¬ nameMark <:+: a) (hn : ¬ nameMark <:+: n)
    (hnp : ¬ publisherMark <:+: n) (hpb : ∀ v k, ¬ block v k <:+: p)
    (h : a ++ (nameMark ++ (n ++ (publisherMark ++ p))) =
      a' ++ (nameMark ++ (n' ++ (publisherMark ++ (p' ++ (versionMark ++ (versionText v' ++
        (keyMark ++ (keyText k' ++ (typesMark ++ z)))))))))) : False := by
  have hleft : ∀ x : List Char, a' ++ (nameMark ++ (n' ++ (publisherMark ++ (p' ++ x)))) =
      (a' ++ (nameMark ++ (n' ++ (publisherMark ++ p')))) ++ x := by
    intro x
    simp only [List.append_assoc]
  rw [hleft] at h
  rcases marker_cut_apart nameMark_marker versionMark_marker version_name_apart.symm h with
    ⟨y, hy, hw⟩ | ⟨y, hy, -⟩
  · rcases marker_cut_apart publisherMark_marker versionMark_marker version_publisher_apart.symm
      hw with ⟨x, hx, hp⟩ | ⟨x, hx, -⟩
    · refine hpb v' k' ⟨x, z, ?_⟩
      rw [hp, block]
      simp only [List.append_assoc]
    · have hsub : ∀ m, ¬ m <:+: n → ¬ m <:+: y := by
        rintro m hm ⟨s, e, he⟩
        exact hm ⟨s, e ++ (versionMark ++ x), by rw [hx, ← he]; simp only [List.append_assoc]⟩
      exact cut_before_version ha (hsub _ hn) (hsub _ hnp) hy.symm
  · exact ha ⟨a', n' ++ (publisherMark ++ p') ++ (versionMark ++ y), by
      rw [hy]
      simp only [List.append_assoc]⟩

theorem versionText_inj {v v' : Int32} (h : versionText v = versionText v') : v = v' :=
  Int32.toInt_inj.mp (signedDigits_inj h)

theorem keyText_inj {k k' : Bytes} (h : keyText k = keyText k') : k = k' := hexByte_code.injective h

/-- The names and the publisher, with the version line found. -/
theorem names_inj (ha : ¬ nameMark <:+: a) (hn : ¬ nameMark <:+: n) (hnp : ¬ publisherMark <:+: n)
    (hp : ¬ publisherMark <:+: p)
    (h : a ++ (nameMark ++ (n ++ (publisherMark ++ p))) =
      a' ++ (nameMark ++ (n' ++ (publisherMark ++ p')))) : a = a' ∧ n = n' ∧ p = p' := by
  rcases marker_cut nameMark_marker nameMark_marker h with ⟨rfl, hw⟩ | ⟨y, -, hw⟩ | ⟨y, hw, -⟩
  · have hw := List.append_cancel_left hw
    rcases marker_cut publisherMark_marker publisherMark_marker hw with ⟨rfl, hr⟩ | ⟨y, -, hr⟩ |
      ⟨y, hr, -⟩
    · exact ⟨rfl, rfl, List.append_cancel_left hr⟩
    · exact absurd ⟨y, p', by rw [hr, List.append_assoc]⟩ hp
    · exact absurd ⟨n', y, by rw [hr, List.append_assoc]⟩ hnp
  · obtain ⟨x, -, hx⟩ := marker_later nameMark_marker publisherMark_marker name_publisher_apart hn
      hw.symm
    refine absurd ⟨x ++ (nameMark ++ n'), p', ?_⟩ hp
    rw [hx]
    simp only [List.append_assoc]
  · exact absurd ⟨a', y, by rw [hw, List.append_assoc]⟩ ha

/-- The version, the key and the types, with the version line found. -/
theorem tail_inj
    (h : versionText v ++ (keyMark ++ (keyText k ++ (typesMark ++ t))) =
      versionText v' ++ (keyMark ++ (keyText k' ++ (typesMark ++ t')))) :
    v = v' ∧ k = k' ∧ t = t' := by
  obtain ⟨hv, h⟩ := marker_first keyMark_marker (newline_not_mem_versionText v)
    (newline_not_mem_versionText v') h
  obtain ⟨hk, ht⟩ := marker_first typesMark_marker (newline_not_mem_keyText k)
    (newline_not_mem_keyText k') h
  exact ⟨versionText_inj hv, keyText_inj hk, ht⟩

/-- **One reading.** Where no field holds a marker or a block it must not hold, the text has no
    other reading. -/
theorem layout_inj (ha : ¬ nameMark <:+: a) (hn : ¬ nameMark <:+: n) (hnp : ¬ publisherMark <:+: n)
    (hp : ¬ publisherMark <:+: p) (hpb : ∀ v k, ¬ block v k <:+: p)
    (htb : ∀ v k, ¬ block v k <:+: t)
    (h : layout a n p (versionText v) (keyText k) t =
      layout a' n' p' (versionText v') (keyText k') t') :
    (a = a' ∧ n = n' ∧ p = p') ∧ v = v' ∧ k = k' ∧ t = t' := by
  have hleft : ∀ x y z w : List Char, layout x y z w = fun key types =>
      (x ++ (nameMark ++ (y ++ (publisherMark ++ z)))) ++ (versionMark ++ (w ++ (keyMark ++ (key ++
        (typesMark ++ types))))) := by
    intro x y z w
    funext key types
    simp only [layout, List.append_assoc]
  rw [hleft, hleft] at h
  rcases marker_cut versionMark_marker versionMark_marker h with ⟨hx, hr⟩ | ⟨y, -, hr⟩ | ⟨y, hy, hr⟩
  · exact ⟨names_inj ha hn hnp hp hx, tail_inj (List.append_cancel_left hr)⟩
  · obtain ⟨z, rfl, -⟩ := version_later hr
    refine absurd ⟨z, t', ?_⟩ (htb v' k')
    rw [block]
    simp only [List.append_assoc]
  · obtain ⟨z, -, rfl⟩ := version_later hr
    have hz : a ++ (nameMark ++ (n ++ (publisherMark ++ p))) =
        a' ++ (nameMark ++ (n' ++ (publisherMark ++ (p' ++ (versionMark ++ (versionText v' ++
          (keyMark ++ (keyText k' ++ (typesMark ++ z))))))))) := by
      rw [hy]
      simp only [List.append_assoc]
    exact (no_earlier_version ha hn hnp hpb hz).elim

end Reading

/-! ## The resource types -/

theorem typesText_nil : typesText [] = [] := rfl

theorem typesText_singleton (t : String) : typesText [t] = t.toList := by
  simp [typesText, joinTypes, sortTypes, List.intercalate]

theorem joinTypes_cons (x y : String) (r : List String) :
    (joinTypes (x :: y :: r)).toList = x.toList ++ ',' :: (joinTypes (y :: r)).toList := by
  simp [joinTypes, List.intercalate]

theorem sortTypes_sorted (types : List String) : (sortTypes types).Pairwise (· ≤ ·) :=
  List.pairwise_insertionSort _ types

theorem sortTypes_perm (types : List String) : (sortTypes types).Perm types :=
  List.perm_insertionSort _ types

/-- A name is at most any text it starts. -/
theorem le_joinTypes (y : String) (r : List String) : y ≤ joinTypes (y :: r) := by
  rw [String.le_iff_toList_le]
  cases r with
  | nil => simp [joinTypes, List.intercalate]
  | cons z r =>
    rw [joinTypes_cons]
    refine le_of_not_gt fun hlt => ?_
    exact List.not_lt.mpr (List.le_append_left (α := Char)) hlt

/-- A single type that no cut turns into sorted types has a text of its own. -/
theorem types_inj {t : String} {types : List String} (hne : t ≠ "")
    (hcut : ∀ a b : String, t.toList = a.toList ++ ',' :: b.toList → ¬ a ≤ b)
    (h : t.toList = typesText types) : types = [t] := by
  have hsorted := sortTypes_sorted types
  have hperm := sortTypes_perm types
  rw [typesText] at h
  match hs : sortTypes types with
  | [] =>
    rw [hs] at h
    exact absurd (String.toList_inj.mp h) hne
  | [x] =>
    rw [hs] at h hperm
    have hx : t = x := by
      refine String.toList_inj.mp (h.trans ?_)
      simp [joinTypes, List.intercalate]
    rw [hx]
    exact List.perm_singleton.mp hperm.symm
  | x :: y :: r =>
    rw [hs, joinTypes_cons] at h
    rw [hs] at hsorted
    have hxy : x ≤ y := (List.pairwise_cons.mp hsorted).1 y (by simp)
    exact absurd (hxy.trans (le_joinTypes y r)) (hcut x _ h)

/-! ## Exactness -/

/-- The texts of the fields of a declaration, laid out. -/
def layoutOf (d : AppDeclaration) : List Char :=
  layout d.appIdentifier.toList d.displayName.toList d.publisher.toList
    (versionText d.schemaVersion) (keyText d.appPublicKey) (typesText d.resourceTypes)

theorem canonicalDeclarationBytes_eq_iff (d d' : AppDeclaration) :
    canonicalDeclarationBytes d = canonicalDeclarationBytes d' ↔ layoutOf d = layoutOf d' := by
  constructor
  · intro h
    have htext := congrArg String.toList (utf8_inj h)
    rw [canonicalDeclaration_toList, canonicalDeclaration_toList] at htext
    exact List.append_cancel_left htext
  · intro h
    refine congrArg utf8 (String.toList_inj.mp ?_)
    rw [canonicalDeclaration_toList, canonicalDeclaration_toList]
    exact congrArg _ h

/-- An unambiguous declaration shares its text with no other. -/
theorem Unambiguous.same {d d' : AppDeclaration} (hd : Unambiguous d)
    (h : layoutOf d = layoutOf d') : Same d d' := by
  obtain ⟨t, ht, hne, htb, hcut⟩ := hd.types
  have htext : typesText d.resourceTypes = t.toList := by rw [ht, typesText_singleton]
  have htb' : ∀ v k, ¬ block v k <:+: typesText d.resourceTypes := fun v k => htext ▸ htb v k
  obtain ⟨⟨ha, hn, hp⟩, hv, hk, htypes⟩ := layout_inj hd.identifier hd.name hd.name_publisher
    hd.publisher hd.publisher_block htb' h
  have htypes' := types_inj hne hcut (htext.symm.trans htypes)
  exact ⟨String.toList_inj.mp ha, String.toList_inj.mp hn, String.toList_inj.mp hp, hv, hk,
    by rw [ht, htypes']⟩

/-- A proper piece of a text is another text. -/
theorem ne_of_piece {x m y s : List Char} (hm : m ≠ []) (h : x ++ m ++ y = s) : s ≠ x := by
  rintro rfl
  have hlen := congrArg List.length h
  have hpos := List.length_pos_of_ne_nil hm
  simp only [List.length_append] at hlen
  omega

theorem block_ne_nil (v : Int32) (k : Bytes) : block v k ≠ [] := by
  rw [block]
  exact List.append_ne_nil_of_left_ne_nil (by decide) _

section Exactness

variable {d : AppDeclaration} (h : ∀ d', layoutOf d = layoutOf d' → Same d d')

include h

/-- No name mark in the identifier: the rest of it could start the display name. -/
theorem identifier_of_same : ¬ nameMark <:+: d.appIdentifier.toList := by
  rintro ⟨x, y, hxy⟩
  have hsame := h { d with
    appIdentifier := String.ofList x
    displayName := String.ofList (y ++ (nameMark ++ d.displayName.toList)) } (by
      simp only [layoutOf, layout, String.toList_ofList, ← hxy, List.append_assoc])
  refine ne_of_piece (by decide) hxy ?_
  rw [hsame.appIdentifier, String.toList_ofList]

theorem name_of_same : ¬ nameMark <:+: d.displayName.toList := by
  rintro ⟨x, y, hxy⟩
  have hsame := h { d with
    appIdentifier := String.ofList (d.appIdentifier.toList ++ (nameMark ++ x))
    displayName := String.ofList y } (by
      simp only [layoutOf, layout, String.toList_ofList, ← hxy, List.append_assoc])
  have hid := congrArg (List.length ∘ String.toList) hsame.appIdentifier
  have hpos : 0 < nameMark.length := by decide
  simp only [Function.comp_apply, String.toList_ofList, List.length_append] at hid
  omega

theorem name_publisher_of_same : ¬ publisherMark <:+: d.displayName.toList := by
  rintro ⟨x, y, hxy⟩
  have hsame := h { d with
    displayName := String.ofList x
    publisher := String.ofList (y ++ (publisherMark ++ d.publisher.toList)) } (by
      simp only [layoutOf, layout, String.toList_ofList, ← hxy, List.append_assoc])
  refine ne_of_piece (by decide) hxy ?_
  rw [hsame.displayName, String.toList_ofList]

theorem publisher_of_same : ¬ publisherMark <:+: d.publisher.toList := by
  rintro ⟨x, y, hxy⟩
  have hsame := h { d with
    displayName := String.ofList (d.displayName.toList ++ (publisherMark ++ x))
    publisher := String.ofList y } (by
      simp only [layoutOf, layout, String.toList_ofList, ← hxy, List.append_assoc])
  have hid := congrArg (List.length ∘ String.toList) hsame.displayName
  have hpos : 0 < publisherMark.length := by decide
  simp only [Function.comp_apply, String.toList_ofList, List.length_append] at hid
  omega

/-- No block in the publisher: what follows it could be the single resource type. -/
theorem publisher_block_of_same (v : Int32) (k : Bytes) : ¬ block v k <:+: d.publisher.toList := by
  rintro ⟨x, y, hxy⟩
  have hsame := h { d with
    publisher := String.ofList x
    schemaVersion := v
    appPublicKey := k
    resourceTypes := [String.ofList (y ++ (versionMark ++ (versionText d.schemaVersion ++
      (keyMark ++ (keyText d.appPublicKey ++ (typesMark ++ typesText d.resourceTypes))))))] } (by
      simp only [layoutOf, layout, String.toList_ofList, ← hxy, List.append_assoc, block,
        typesText_singleton])
  refine ne_of_piece (block_ne_nil v k) hxy ?_
  rw [hsame.publisher, String.toList_ofList]

theorem types_of_same : ∃ t : String, d.resourceTypes = [t] ∧ t ≠ "" ∧
    (∀ v k, ¬ block v k <:+: t.toList) ∧
    ∀ a b : String, t.toList = a.toList ++ ',' :: b.toList → ¬ a ≤ b := by
  -- the whole text of the types is a single type with the same text
  have hone := h { d with resourceTypes := [String.ofList (typesText d.resourceTypes)] } (by
    simp only [layoutOf, typesText_singleton, String.toList_ofList])
  have ht := List.perm_singleton.mp hone.resourceTypes
  generalize String.ofList (typesText d.resourceTypes) = t at ht
  have htext : typesText d.resourceTypes = t.toList := by rw [ht, typesText_singleton]
  refine ⟨t, ht, ?_, ?_, ?_⟩
  · rintro rfl
    have hnil := h { d with resourceTypes := [] } (by
      simp only [layoutOf, htext, typesText_nil]
      rfl)
    have hlen := hnil.resourceTypes.length_eq
    simp [ht] at hlen
  · rintro v k ⟨x, y, hxy⟩
    have hsame := h { d with
      publisher := String.ofList (d.publisher.toList ++
        (versionMark ++ (versionText d.schemaVersion ++
        (keyMark ++ (keyText d.appPublicKey ++ (typesMark ++ x))))))
      schemaVersion := v
      appPublicKey := k
      resourceTypes := [String.ofList y] } (by
        simp only [layoutOf, layout, htext, ← hxy, block, typesText_singleton, String.toList_ofList,
          List.append_assoc])
    have hid := congrArg (List.length ∘ String.toList) hsame.publisher
    have hpos : 0 < versionMark.length := by decide
    simp only [Function.comp_apply, String.toList_ofList, List.length_append] at hid
    omega
  · intro a b hab hle
    have hsort : sortTypes [a, b] = [a, b] := by
      simp [sortTypes, hle]
    have hsame := h { d with resourceTypes := [a, b] } (by
      simp only [layoutOf, htext, hab]
      rw [typesText, hsort, joinTypes_cons, ← typesText_singleton b, typesText]
      simp [sortTypes])
    have hlen := hsame.resourceTypes.length_eq
    simp [ht] at hlen

end Exactness

/-- **Exactly the unambiguous declarations** share their signed text with no other. -/
theorem unambiguous_iff (d : AppDeclaration) :
    (∀ d', layoutOf d = layoutOf d' → Same d d') ↔ Unambiguous d :=
  ⟨fun h => ⟨identifier_of_same h, name_of_same h, name_publisher_of_same h, publisher_of_same h,
      publisher_block_of_same h, types_of_same h⟩,
    fun hd _ h => hd.same h⟩

/-- Ed25519 accepts a signature under a key for at most one message. -/
def OneMessage (lib : Libs) : Prop :=
  ∀ key signature m m', lib.verifyStrict key m signature = true →
    lib.verifyStrict key m' signature = true → m = m'

/-- **When a signature authorises one declaration.** A signature accepted for `d` is accepted
    for no other declaration exactly when `d` is unambiguous. -/
theorem signature_authorises_one_iff (lib : Libs) (hone : OneMessage lib) (key signature : Bytes)
    (d : AppDeclaration) (hd : verifyDeclarationSignature lib key d signature = true) :
    (∀ d', verifyDeclarationSignature lib key d' signature = true → Same d d') ↔
      Unambiguous d := by
  have haccept : ∀ d', verifyDeclarationSignature lib key d' signature = true ↔
      layoutOf d = layoutOf d' := by
    intro d'
    rw [← canonicalDeclarationBytes_eq_iff]
    simp only [verifyDeclarationSignature, Bool.and_eq_true] at hd ⊢
    constructor
    · intro h
      exact hone key signature _ _ hd.2 h.2
    · intro h
      exact ⟨hd.1, h ▸ hd.2⟩
  rw [← unambiguous_iff d]
  exact forall_congr' fun d' => imp_congr_left (haccept d')

/-- A publisher key that signs, as Ed25519 does, one message for each of the signatures of
    `tasks`. -/
def publisherKey : Bytes :=
  [25, 127, 107, 35, 225, 108, 133, 50, 198, 171, 200, 56, 250, 205, 94, 167, 137, 190, 12, 118,
    178, 146, 3, 52, 3, 155, 250, 139, 61, 54, 141, 97]

/-- A task app with the given resource types. -/
def tasks (types : List String) : AppDeclaration where
  appIdentifier := "garden.ubivera.tasks"
  displayName := "Tasks"
  publisher := "Ubivera, LLC"
  appPublicKey := List.replicate 32 7
  schemaVersion := 1
  resourceTypes := types

/-- The publisher's signature over `tasks ["task"]`. -/
def taskSignature : Bytes :=
  [15, 42, 43, 52, 112, 20, 59, 155, 111, 83, 84, 59, 235, 188, 231, 183, 26, 38, 118, 186, 169,
    35, 168, 80, 29, 227, 174, 139, 127, 206, 221, 125, 128, 206, 30, 18, 138, 163, 119, 0, 137,
    125, 175, 211, 70, 49, 118, 73, 107, 150, 173, 202, 35, 65, 133, 101, 34, 174, 206, 142, 54, 46,
    208, 2]

/-- The publisher's signature over `tasks ["project", "task"]`. -/
def projectTaskSignature : Bytes :=
  [37, 187, 42, 19, 10, 30, 144, 37, 185, 132, 133, 17, 254, 118, 89, 189, 34, 94, 4, 85, 82, 207,
    38, 48, 164, 158, 68, 5, 233, 168, 0, 21, 96, 45, 41, 52, 240, 220, 199, 42, 213, 236, 150, 76,
    124, 21, 130, 66, 212, 26, 7, 150, 66, 102, 174, 170, 216, 117, 50, 15, 61, 7, 168, 9]

/-- Verification of these two signatures. -/
def publisherLibs : Libs := { Libs.sample with
  verifyStrict := fun key m signature => key == publisherKey &&
    (signature == taskSignature && m == canonicalDeclarationBytes (tasks ["task"]) ||
      signature == projectTaskSignature &&
        m == canonicalDeclarationBytes (tasks ["project", "task"])) }

theorem publisherLibs_oneMessage : OneMessage publisherLibs := by
  have hne : taskSignature ≠ projectTaskSignature := by decide
  intro key signature m m' hm hm'
  simp only [publisherLibs, Bool.and_eq_true, Bool.or_eq_true, beq_iff_eq] at hm hm'
  obtain ⟨-, ⟨hs, rfl⟩ | ⟨hs, rfl⟩⟩ := hm
  · obtain ⟨-, ⟨-, rfl⟩ | ⟨hs', -⟩⟩ := hm'
    · rfl
    · exact absurd (hs.symm.trans hs') hne
  · obtain ⟨-, ⟨hs', -⟩ | ⟨-, rfl⟩⟩ := hm'
    · exact absurd (hs'.symm.trans hs) hne
    · rfl

/-- A declaration whose text is read in one way only. -/
theorem tasks_task_unambiguous : Unambiguous (tasks ["task"]) where
  identifier := not_infix_of_not_mem nameMark_marker (by decide)
  name := not_infix_of_not_mem nameMark_marker (by decide)
  name_publisher := not_infix_of_not_mem publisherMark_marker (by decide)
  publisher := not_infix_of_not_mem publisherMark_marker (by decide)
  publisher_block v k := fun h =>
    not_infix_of_not_mem versionMark_marker (x := "Ubivera, LLC".toList) (by decide)
      (((List.prefix_append _ _).isInfix).trans h)
  types := by
    refine ⟨"task", rfl, by decide, fun v k h => ?_, fun a b h => ?_⟩
    · exact not_infix_of_not_mem versionMark_marker (x := "task".toList) (by decide)
        (((List.prefix_append _ _).isInfix).trans h)
    · have hmem : ',' ∈ "task".toList := h ▸ by simp
      exact absurd hmem (by decide)

/-- The theorem at a signature accepted for one declaration alone. -/
theorem signature_authorises_one_iff_task :
    OneMessage publisherLibs ∧
      verifyDeclarationSignature publisherLibs publisherKey (tasks ["task"]) taskSignature = true ∧
      ∀ d', verifyDeclarationSignature publisherLibs publisherKey d' taskSignature = true →
        Same (tasks ["task"]) d' :=
  have haccept : verifyDeclarationSignature publisherLibs publisherKey (tasks ["task"])
      taskSignature = true := by decide +kernel
  ⟨publisherLibs_oneMessage, haccept,
    (signature_authorises_one_iff publisherLibs publisherLibs_oneMessage publisherKey taskSignature
      (tasks ["task"]) haccept).mpr tasks_task_unambiguous⟩

/-- One signature for two resource types and for one type with a comma in its name. -/
theorem two_declarations_one_signature :
    OneMessage publisherLibs ∧
      verifyDeclarationSignature publisherLibs publisherKey (tasks ["project", "task"])
        projectTaskSignature = true ∧
      verifyDeclarationSignature publisherLibs publisherKey (tasks ["project,task"])
        projectTaskSignature = true ∧
      ¬ Same (tasks ["project", "task"]) (tasks ["project,task"]) := by
  refine ⟨publisherLibs_oneMessage, by decide +kernel, by decide +kernel, fun h => ?_⟩
  exact absurd h.resourceTypes.length_eq (by decide)

end SylvaServer.Registry
