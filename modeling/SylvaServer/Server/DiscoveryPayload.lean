/-
  What a discovery signature is about.

  Proved: the payload is its six fields behind their lengths (`canonicalBytes_eq`), so it can be
  decoded and starts no other payload, and its first byte tells it from everything else the
  server asks to be signed (`payload_unambiguous`).
-/
import SylvaServer.Model.Discovery
import SylvaServer.Model.Machine
import SylvaServer.Platform.Declaration

namespace SylvaServer.Discovery

open LengthPrefix

/-- The fields of a payload, within their bounds. -/
structure Payload where
  nonce : String
  publicKey : Bytes
  grpcPort : UInt16
  name : String
  nonce_le : (utf8 nonce).length ≤ maxNonceLen
  publicKey_size : publicKey.length = 32
  name_lt : (utf8 name).length < 4294967296

namespace Payload

def bytes (p : Payload) : Bytes := canonicalBytes p.nonce p.publicKey p.grpcPort p.name

def fields (p : Payload) : List Bytes :=
  [domain, be 4 payloadVersion.toNat, utf8 p.nonce, p.publicKey, be 2 p.grpcPort.toNat, utf8 p.name]

end Payload

/-- `from_utf8`. -/
def readUtf8 (bytes : Bytes) : Option String := String.fromUTF8? ⟨bytes.toArray⟩

/-- A payload read back into nonce, public key, port and name. -/
def decode (bytes : Bytes) : Option (String × Bytes × UInt16 × String) :=
  match readFields 6 bytes with
  | some ([tag, version, nonce, publicKey, grpcPort, name], []) =>
    if tag = domain ∧ version = be 4 payloadVersion.toNat then do
      let nonce ← readUtf8 nonce
      let name ← readUtf8 name
      some (nonce, publicKey, UInt16.ofNat (readBe grpcPort), name)
    else none
  | _ => none

theorem readUtf8_utf8 (s : String) : readUtf8 (utf8 s) = some s := by
  have hbytes : (⟨(utf8 s).toArray⟩ : ByteArray) = s.toByteArray := by
    unfold utf8
    rw [Array.toArray_toList]
  unfold readUtf8 String.fromUTF8?
  rw [hbytes, dif_pos s.isValidUTF8]
  rfl

theorem pushField_eq {f : Bytes} (h : Fits f) (out : Bytes) : pushField out f = out ++ field f := by
  unfold pushField field
  have hlen : (UInt32.ofNat f.length).toNat = f.length := by
    rw [UInt32.toNat_ofNat']
    exact Nat.mod_eq_of_lt h
  rw [hlen, List.append_assoc]

theorem fits_fields (p : Payload) : ∀ f ∈ p.fields, Fits f := by
  have hdomain : domain.length = 18 := by decide +kernel
  have hnonce := p.nonce_le
  have hkey := p.publicKey_size
  have hname := p.name_lt
  unfold maxNonceLen at hnonce
  unfold Payload.fields Fits
  simp only [List.forall_mem_cons, length_be, List.not_mem_nil, false_imp_iff, implies_true,
    and_true]
  exact ⟨by omega, by omega, by omega, by omega, by omega, hname⟩

/-- The payload is its fields behind their lengths. -/
theorem canonicalBytes_eq (p : Payload) : p.bytes = encode p.fields := by
  have hfits := fits_fields p
  unfold Payload.fields at hfits
  simp only [List.forall_mem_cons, List.not_mem_nil, false_imp_iff, implies_true, and_true] at hfits
  obtain ⟨htag, hversion, hnonce, hkey, hport, hname⟩ := hfits
  unfold Payload.bytes canonicalBytes Payload.fields encode
  dsimp only
  rw [pushField_eq htag, pushField_eq hversion, pushField_eq hnonce, pushField_eq hkey,
    pushField_eq hport, pushField_eq hname]
  simp only [List.flatMap_cons, List.flatMap_nil, List.nil_append, List.append_nil,
    List.append_assoc]

theorem decode_bytes (p : Payload) :
    decode p.bytes = some (p.nonce, p.publicKey, p.grpcPort, p.name) := by
  have hread : readFields 6 p.bytes = some (p.fields, []) := by
    rw [canonicalBytes_eq]
    exact List.append_nil (encode p.fields) ▸ readFields_encode (fits_fields p) []
  have hport : UInt16.ofNat (readBe (be 2 p.grpcPort.toNat)) = p.grpcPort := by
    rw [readBe_be p.grpcPort.toNat_lt, UInt16.ofNat_toNat]
  unfold decode
  rw [hread]
  simp [Payload.fields, readUtf8_utf8, hport]

/-- Every payload starts with the length of the domain. -/
theorem head_bytes (p : Payload) : p.bytes.head? = some 0 := by
  rw [canonicalBytes_eq]
  rfl

/-- The other signed texts start with the `s` of their own tags. -/
theorem head_declaration (decl : Registry.AppDeclaration) :
    (Registry.canonicalDeclarationBytes decl).head? = some 115 := by
  have htag : (Utf8.encode "sylva-app-registration:v1\napp_identifier=".toList).head? =
      some 115 := by
    decide +kernel
  unfold Registry.canonicalDeclarationBytes
  rw [utf8_eq_encode, Registry.canonicalDeclaration_toList, Utf8.encode_append, List.head?_append,
    htag]
  rfl

theorem head_machine (publicKey : Bytes) (platform label : String) :
    (MachineService.canonicalMachineBytes publicKey platform label).head? = some 115 := by
  have htag : (utf8 "sylva-machine-registration:v1\n").head? = some 115 := by decide +kernel
  unfold MachineService.canonicalMachineBytes
  simp only [List.append_assoc]
  rw [List.head?_append, htag]
  rfl

/-- **A discovery payload is itself only**: it is decoded to its fields, starts no other payload and
    is no text that an app declaration or a machine registration signs. -/
theorem payload_unambiguous (p : Payload) :
    decode p.bytes = some (p.nonce, p.publicKey, p.grpcPort, p.name) ∧
    (∀ q : Payload, p.bytes <+: q.bytes → p = q) ∧
    (∀ decl, p.bytes ≠ Registry.canonicalDeclarationBytes decl) ∧
    ∀ publicKey platform label,
      p.bytes ≠ MachineService.canonicalMachineBytes publicKey platform label := by
  have hhead := head_bytes p
  refine ⟨decode_bytes p, fun q hprefix => ?_, fun decl h => ?_,
    fun publicKey platform label h => ?_⟩
  · obtain ⟨r, hr⟩ := hprefix
    rw [canonicalBytes_eq, canonicalBytes_eq] at hr
    have hfields := (encode_append_inj (fits_fields p) (fits_fields q) rfl hr).1
    have hbytes : p.bytes = q.bytes := by rw [canonicalBytes_eq, canonicalBytes_eq, hfields]
    have hdecoded := (decode_bytes p).symm.trans (hbytes ▸ decode_bytes q)
    obtain ⟨hnonce, hkey, hport, hname⟩ :
        p.nonce = q.nonce ∧ p.publicKey = q.publicKey ∧ p.grpcPort = q.grpcPort ∧
            p.name = q.name := by
      simpa using hdecoded
    cases p
    cases q
    cases hnonce
    cases hkey
    cases hport
    cases hname
    rfl
  · rw [h] at hhead
    exact absurd (hhead.symm.trans (head_declaration decl)) (by decide)
  · rw [h] at hhead
    exact absurd (hhead.symm.trans (head_machine publicKey platform label)) (by decide)

/-- What the handler signs is a payload with the caller's nonce. -/
theorem handler_signs {state : DiscoveryState} {nonce : String} {r : DiscoveryResponse}
    (hkey : state.serverIdentity.length = 32)
    (hname : (utf8 state.instanceName).length < 4294967296) (h : handler state nonce = some r) :
    ∃ p : Payload, p.nonce = nonce ∧ p.publicKey = state.serverIdentity ∧
      p.grpcPort = r.grpcPort ∧ p.name = r.name ∧ r.signature = hex (state.sign p.bytes) := by
  unfold handler at h
  split at h
  · exact absurd h (by simp)
  · next hle =>
    obtain rfl := Option.some.inj h
    exact ⟨⟨nonce, state.serverIdentity, state.grpcPort, state.instanceName, by omega, hkey, hname⟩,
      rfl, rfl, rfl, rfl, rfl⟩

end SylvaServer.Discovery
