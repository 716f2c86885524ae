/-
  Restarts: the secret key and the identity that clients pin.

  A start may fail or be killed at any step, the key file may be left torn, and the settings may
  change between starts. What a start has returned is nevertheless still what the host holds
  (`Kept`): a key file that is there is never written, nor an identity that is stored.

  Proved: all starts that come to their end return one public key, and those with one
  `SYLVA_SECRET_KEY` one secret key and one signing key, whose answers verify under it
  (`server_identity_stable`); a start that nothing disturbs comes to its end unless the setting is
  not a key or the key file is torn (`restart_succeeds_iff`).
-/
import SylvaServer.Model.Instance
import SylvaServer.ReadCommitted.Crash
import SylvaServer.ReadCommitted.Solo

namespace SylvaServer.Startup

open ReadCommitted ReadCommitted.Prog

/-! ## The key in the environment -/

/-- What a hex digit of either case stands for; other ASCII bytes are refused. -/
theorem hexNibble_ascii : ∀ m < 128,
    (∃ n < 16, hexNibble (UInt8.ofNat m) = .ok (UInt8.ofNat n) ∧
      (Char.ofNat m).toLower = Delimited.hexDigit n) ∨
      (hexNibble (UInt8.ofNat m) = .error ["invalid hex digit"] ∧
        ∀ n < 16, (Char.ofNat m).toLower ≠ Delimited.hexDigit n) := by
  decide +kernel

theorem hexNibble_ok {b n : UInt8} (h : hexNibble b = .ok n) : b.toNat < 128 := by
  unfold hexNibble at h
  split_ifs at h with h₀ h₁ h₂
  · simp only [Bool.and_eq_true, decide_eq_true_eq, UInt8.le_iff_toNat_le] at h₀
    have hle : b.toNat ≤ 57 := h₀.2
    omega
  · simp only [Bool.and_eq_true, decide_eq_true_eq, UInt8.le_iff_toNat_le] at h₁
    have hle : b.toNat ≤ 102 := h₁.2
    omega
  · simp only [Bool.and_eq_true, decide_eq_true_eq, UInt8.le_iff_toNat_le] at h₂
    have hle : b.toNat ≤ 70 := h₂.2
    omega

/-- The two digits of a byte, put together again. -/
theorem join_nibbles : ∀ m < 16, ∀ n < 16,
    UInt8.ofNat m <<< 4 ||| UInt8.ofNat n = UInt8.ofNat (16 * m + n) := by
  decide +kernel

theorem hexByte_join {m n : Nat} (hm : m < 16) (hn : n < 16) :
    Delimited.hexByte (UInt8.ofNat (16 * m + n)) =
      [Delimited.hexDigit m, Delimited.hexDigit n] := by
  have hvalue : (UInt8.ofNat (16 * m + n)).toNat = 16 * m + n := by
    rw [UInt8.toNat_ofNat']
    omega
  unfold Delimited.hexByte
  rw [hvalue, show (16 * m + n) / 16 = m by omega, show (16 * m + n) % 16 = n by omega]

theorem decodeChunks_cons (high low : UInt8) (chunks : Bytes) :
    decodeChunks (high :: low :: chunks) =
    (hexNibble high).bind fun m => (hexNibble low).bind fun n =>
      (decodeChunks chunks).bind fun key => .ok ((m <<< 4 ||| n) :: key) := rfl

theorem decodeChunks_ascii : ∀ {bytes key : Bytes}, decodeChunks bytes = .ok key →
    bytes.length % 2 = 0 → ∀ b ∈ bytes, b.toNat < 128
  | [], _, _, _, _, hb => absurd hb (by simp)
  | [_], _, _, heven, _, _ => absurd heven (by simp)
  | high :: low :: chunks, key, h, heven, b, hb => by
    rw [decodeChunks_cons] at h
    cases hm : hexNibble high with
    | error e => simp [hm, Except.bind] at h
    | ok m =>
      cases hn : hexNibble low with
      | error e => simp [hm, hn, Except.bind] at h
      | ok n =>
        cases hk : decodeChunks chunks with
        | error e => simp [hm, hn, hk, Except.bind] at h
        | ok key' =>
          simp only [List.mem_cons] at hb
          rcases hb with rfl | rfl | hb
          · exact hexNibble_ok hm
          · exact hexNibble_ok hn
          · refine decodeChunks_ascii hk ?_ b hb
            simp only [List.length_cons] at heven
            omega

/-- On ASCII text the loop reads hex digits of either case and nothing else. -/
theorem decodeChunks_iff : ∀ {cs : List Char} {key : Bytes}, (∀ c ∈ cs, c.toNat < 128) →
    cs.length % 2 = 0 → (decodeChunks (cs.map fun c => UInt8.ofNat c.toNat) = .ok key ↔
      cs.map Char.toLower = key.flatMap Delimited.hexByte)
  | [], key, _, _ => by
    cases key with
    | nil => exact ⟨fun _ => rfl, fun _ => rfl⟩
    | cons b key => simp [decodeChunks, Delimited.hexByte, pure, Except.pure]
  | [_], _, _, heven => absurd heven (by simp)
  | c :: d :: cs, key, hascii, heven => by
    have hc := hexNibble_ascii c.toNat (hascii c (by simp))
    have hd := hexNibble_ascii d.toNat (hascii d (by simp))
    rw [Char.ofNat_toNat] at hc hd
    have hrest : ∀ b ∈ cs, b.toNat < 128 := fun b hb => hascii b (by simp [hb])
    have hsize : cs.length % 2 = 0 := by
      simp only [List.length_cons] at heven
      omega
    rw [List.map_cons, List.map_cons, decodeChunks_cons]
    refine ⟨fun h => ?_, fun h => ?_⟩
    · rcases hc with ⟨m, hm, hhigh, hlower⟩ | ⟨hhigh, -⟩
      · rcases hd with ⟨n, hn, hlow, hlower'⟩ | ⟨hlow, -⟩
        · simp only [hhigh, hlow, Except.bind] at h
          cases hk : decodeChunks (cs.map fun c => UInt8.ofNat c.toNat) with
          | error e => simp [hk] at h
          | ok key' =>
            rw [hk] at h
            obtain rfl := Except.ok.inj h
            rw [List.map_cons, List.map_cons, hlower, hlower', List.flatMap_cons,
              join_nibbles m hm n hn, hexByte_join hm hn, (decodeChunks_iff hrest hsize).mp hk]
            rfl
        · simp [hhigh, hlow, Except.bind] at h
      · simp [hhigh, Except.bind] at h
    · cases key with
      | nil => exact absurd h (by simp)
      | cons b key' =>
        have hlt : b.toNat < 256 := b.toNat_lt
        rw [List.map_cons, List.map_cons, List.flatMap_cons] at h
        obtain ⟨hlower, h⟩ := List.cons.inj h
        obtain ⟨hlower', h⟩ := List.cons.inj h
        have hk := (decodeChunks_iff hrest hsize).mpr h
        rcases hc with ⟨m, hm, hhigh, hcm⟩ | ⟨-, hno⟩
        · rcases hd with ⟨n, hn, hlow, hdn⟩ | ⟨-, hno⟩
          · have hmb := Delimited.hexVal_hexDigit m hm
            have hnb := Delimited.hexVal_hexDigit n hn
            rw [← hcm, hlower, Delimited.hexVal_hexDigit _ (by omega)] at hmb
            rw [← hdn, hlower', Delimited.hexVal_hexDigit _ (by omega)] at hnb
            simp only [hhigh, hlow, hk, Except.bind]
            rw [join_nibbles m hm n hn, show 16 * m + n = b.toNat by omega, UInt8.ofNat_toNat]
          · exact absurd hlower' (hno _ (by omega))
        · exact absurd hlower (hno _ (by omega))

theorem ascii_of_lower {c : Char} (h : c.toLower.toNat < 128) : c.toNat < 128 := by
  unfold Char.toLower at h
  split at h
  · next hupper =>
    have hle : c.toNat ≤ 90 := hupper.2
    omega
  · exact h

theorem ascii_of_hexByte {b : UInt8} {c : Char} (h : c ∈ Delimited.hexByte b) : c.toNat < 128 := by
  have hlt : b.toNat < 256 := b.toNat_lt
  have hdigit : ∀ n < 16, (Delimited.hexDigit n).toNat < 128 := by decide
  simp only [Delimited.hexByte, List.mem_cons, List.not_mem_nil, or_false] at h
  rcases h with rfl | rfl
  · exact hdigit _ (by omega)
  · exact hdigit _ (by omega)

/-- **`SYLVA_SECRET_KEY`**: 64 hex digits of either case are accepted and nothing else, and the key
    is what they spell. -/
theorem decodeHex32_iff {s : String} {key : Bytes} : decodeHex32 s = .ok key ↔
    key.length = 32 ∧ s.toList.map Char.toLower = (hex key).toList := by
  rw [hex_toList]
  have hsize : (key.flatMap Delimited.hexByte).length = 2 * key.length := by
    induction key with
    | nil => rfl
    | cons b key ih =>
      rw [List.flatMap_cons, List.length_append, ih, List.length_cons]
      simp only [Delimited.hexByte, List.length_cons, List.length_nil]
      omega
  refine ⟨fun h => ?_, fun hspells => ?_⟩
  · unfold decodeHex32 at h
    dsimp only at h
    split_ifs at h with hlen
    rw [not_not] at hlen
    have hbytes := decodeChunks_ascii h (by rw [hlen])
    rw [utf8_eq_encode] at hbytes h hlen
    have hascii := Utf8.ascii_of_encode hbytes
    rw [Utf8.encode_ascii hascii] at h hlen
    rw [List.length_map] at hlen
    have hlower := (decodeChunks_iff hascii (by rw [hlen])).mp h
    refine ⟨?_, hlower⟩
    have hcount := congrArg List.length hlower
    rw [List.length_map, hsize] at hcount
    omega
  · obtain ⟨hkey, h⟩ := hspells
    have hascii : ∀ c ∈ s.toList, c.toNat < 128 := by
      intro c hc
      have hmem : c.toLower ∈ key.flatMap Delimited.hexByte := by
        rw [← h]
        exact List.mem_map_of_mem hc
      obtain ⟨b, -, hdigit⟩ := List.mem_flatMap.mp hmem
      exact ascii_of_lower (ascii_of_hexByte hdigit)
    have hcount := congrArg List.length h
    rw [List.length_map, hsize] at hcount
    have hlen : (utf8 s).length = 64 := by
      rw [utf8_eq_encode, Utf8.encode_ascii hascii, List.length_map]
      omega
    unfold decodeHex32
    dsimp only
    rw [if_neg (by omega), utf8_eq_encode, Utf8.encode_ascii hascii]
    exact (decodeChunks_iff hascii (by omega)).mpr h

/-! ## What a start works with -/

/-- `XChaCha20Poly1305` gives back what it encrypted. -/
def Opens (lib : Libs) : Prop := ∀ key nonce plaintext ciphertext,
  lib.xchachaEncrypt key nonce plaintext = some ciphertext →
    lib.xchachaDecrypt key nonce ciphertext = some plaintext

theorem open_sealWith {lib : Libs} (hopens : Opens lib) {key nonce plaintext blob : Bytes}
    (hnonce : nonce.length = Secretbox.nonceLen)
    (h : Secretbox.sealWith lib key nonce plaintext = .ok blob) :
    Secretbox.open lib key blob = .ok plaintext := by
  unfold Secretbox.sealWith at h
  split at h
  · next ciphertext hencrypt =>
    obtain rfl : nonce ++ ciphertext = blob := by simpa using h
    unfold Secretbox.open
    rw [if_neg (by rw [List.length_append]; omega), List.take_left' hnonce, List.drop_left' hnonce,
      hopens key nonce plaintext ciphertext hencrypt]
  · exact absurd h (by simp)

/-- The key that a start with this `SYLVA_SECRET_KEY` works with where the key file holds `file`. -/
def KeyOf (hex : Option String) (file : Option Bytes) (key : Bytes) : Prop :=
  match hex with
  | some hex => decodeHex32 hex = .ok key
  | none => file = some key ∧ key.length = 32

theorem KeyOf.unique {hex : Option String} {file : Option Bytes} {key key' : Bytes}
    (h : KeyOf hex file key) (h' : KeyOf hex file key') : key = key' := by
  cases hex with
  | some hex => exact Except.ok.inj (h.symm.trans h')
  | none => exact Option.some.inj (h.1.symm.trans h'.1)

/-! ## One start -/

variable {lib : Libs} {ed : Ed25519} {config : Config} {J : Host → Prop} {host : Host}

/-- The file is written only where there is none. -/
theorem load_delivers {Q : Bytes → Host → Prop} (hnow : J host)
    (hfile : host.mem = none → ∀ file, J ⟨host.db, file⟩)
    (hkey : ∀ key file, KeyOf config.secretKeyHex file key → (file = host.mem ∨ host.mem = none) →
      J ⟨host.db, file⟩ → Q key ⟨host.db, file⟩) :
    (loadSecretKey config).Delivers J Q host := by
  unfold loadSecretKey
  cases hhex : config.secretKeyHex with
  | some hex =>
    refine Delivers.ofExcept hnow fun key hdecoded => hkey key host.mem ?_ (Or.inl rfl) hnow
    rw [hhex]
    cases hd : decodeHex32 hex with
    | ok key' =>
      rw [hd] at hdecoded
      exact hd.trans hdecoded
    | error e =>
      rw [hd] at hdecoded
      exact absurd hdecoded (by simp [withContext, Except.mapError])
  | none =>
    rw [hhex] at hkey
    -- reading leaves the file alone and returns it
    refine Delivers.bind (J := J) (Q := fun r host' => host' = host ∧
      ((∃ bytes, r = .ok bytes ∧ host.mem = some bytes) ∨ (r = .error .notFound ∧ host.mem = none) ∨
        ∃ message, r = .error (.other message))) _ ?_ ?_
    · refine Delivers.critical hnow fun env => ⟨hnow, rfl, ?_⟩
      cases env.fault with
      | some fault => exact Or.inr (Or.inr ⟨_, rfl⟩)
      | none =>
        cases hmem : host.mem with
        | some bytes => exact Or.inl ⟨bytes, rfl, rfl⟩
        | none => exact Or.inr (Or.inl ⟨rfl, rfl⟩)
    · rintro r host ⟨rfl, ⟨bytes, rfl, hmem⟩ | ⟨rfl, hmem⟩ | ⟨message, rfl⟩⟩
      · show Delivers J Q (if bytes.length = 32 then pure bytes else fail _) host
        by_cases hlen : bytes.length = 32
        · rw [if_pos hlen]
          exact Delivers.pure hnow (hkey bytes host.mem ⟨hmem, hlen⟩ (Or.inl rfl) hnow)
        · rw [if_neg hlen]
          exact Delivers.fail _ hnow
      · have hanyfile := hfile hmem
        refine Delivers.bind (Q := fun key host' => host' = host ∧ key.length = 32) _
          (Delivers.ask hnow fun env => ⟨rfl, env.fill_length 32⟩) ?_
        rintro key host ⟨rfl, hlen⟩
        refine Delivers.bind (Q := fun _ host' => host' = ⟨host.db, some key⟩) _ ?_ ?_
        · refine Delivers.bind (Q := fun _ host' => host' = host) _
            (Delivers.critical hnow fun env => ⟨hnow, rfl⟩) ?_
          rintro r host rfl
          refine Delivers.bind (Q := fun _ host' => host' = host) _
            (Delivers.ofExcept hnow fun _ _ => rfl) ?_
          rintro _ host rfl
          refine Delivers.bind (Q := fun r host' => J host' ∧
            (r = .ok () → host' = ⟨host.db, some key⟩)) _ (Delivers.critical hnow fun env => ?_) ?_
          · cases env.fault with
            | some fault => exact ⟨hanyfile _, hanyfile _, fun h => absurd h (by simp)⟩
            | none => exact ⟨hanyfile _, hanyfile _, fun _ => rfl⟩
          · rintro r host' ⟨hj, hwritten⟩
            refine Delivers.ofExcept hj fun _ h => hwritten ?_
            cases r with
            | ok u => rfl
            | error e => exact absurd h (by simp [withContext, Except.mapError])
        · rintro _ _ rfl
          exact Delivers.pure (hanyfile _)
            (hkey key (some key) ⟨rfl, hlen⟩ (Or.inr hmem) (hanyfile _))
      · exact Delivers.fail _ hnow

theorem serverName_delivers {Q : String → Host → Prop} (hnow : J host) (hq : ∀ name, Q name host) :
    (serverName config).Delivers J Q host := by
  refine Delivers.bind (Q := fun _ host' => host' = host) _ (Delivers.mapError _
    (Delivers.onPool (fun _ => rfl) hnow fun _ _ _ => ⟨hnow, rfl⟩)) ?_
  rintro stored host rfl
  exact Delivers.pure hnow (hq _)

/-- An identity is stored only where there is none. -/
theorem ensure_delivers {secretKey : Bytes} {row : InstanceRow} {Q : ServerIdentity → Host → Prop}
    (hopens : Opens lib) (hrow : host.db = some row) (hnow : J host)
    (hstored : ∀ publicKey privEnc seed, row.serverIdentityPublic = some publicKey →
      row.serverIdentityPrivEnc = some privEnc → Secretbox.open lib secretKey privEnc = .ok seed →
        Q ⟨seed, publicKey⟩ host)
    (hfresh : (row.serverIdentityPublic = none ∨ row.serverIdentityPrivEnc = none) → ∀ seed privEnc,
      seed.length = 32 → Secretbox.open lib secretKey privEnc = .ok seed →
        J ⟨some ⟨row.instanceName, some (ed.verifyingKey seed), some privEnc⟩, host.mem⟩ ∧
        Q ⟨seed, ed.verifyingKey seed⟩
          ⟨some ⟨row.instanceName, some (ed.verifyingKey seed), some privEnc⟩, host.mem⟩) :
    (ensureServerIdentity lib ed secretKey).Delivers J Q host := by
  have hmake (hnone : row.serverIdentityPublic = none ∨ row.serverIdentityPrivEnc = none) :
      Delivers J Q ((ask fun env => env.fill 32) >>= fun seed =>
        (ask fun env => env.fill Secretbox.nonceLen) >>= fun nonce =>
        ofExcept ((Secretbox.sealWith lib secretKey nonce seed).mapError fun _ =>
          ["sealing server identity key"]) >>= fun privEnc =>
        (onPool (updateIdentity (ed.verifyingKey seed) privEnc)).mapError ([·]) >>= fun _ =>
        (pure ⟨seed, ed.verifyingKey seed⟩ : Startup ServerIdentity)) host := by
    refine Delivers.bind (Q := fun seed host' => host' = host ∧ seed.length = 32) _
      (Delivers.ask hnow fun env => ⟨rfl, env.fill_length 32⟩) ?_
    rintro seed host ⟨rfl, hseed⟩
    refine Delivers.bind (Q := fun nonce host' => host' = host ∧
      nonce.length = Secretbox.nonceLen) _
      (Delivers.ask hnow fun env => ⟨rfl, env.fill_length _⟩) ?_
    rintro nonce host ⟨rfl, hnonce⟩
    refine Delivers.bind (Q := fun privEnc host' => host' = host ∧
      Secretbox.open lib secretKey privEnc = .ok seed) _
        (Delivers.ofExcept hnow fun privEnc hsealed => ?_) ?_
    · cases hs : Secretbox.sealWith lib secretKey nonce seed with
      | ok blob =>
        rw [hs] at hsealed
        obtain rfl : blob = privEnc := by simpa [Except.mapError] using hsealed
        exact ⟨rfl, open_sealWith hopens hnonce hs⟩
      | error e =>
        rw [hs] at hsealed
        exact absurd hsealed (by simp [Except.mapError])
    · rintro privEnc host ⟨rfl, hopened⟩
      obtain ⟨hj, hq⟩ := hfresh hnone seed privEnc hseed hopened
      refine Delivers.bind (Q := fun _ host' => host' =
        ⟨some ⟨row.instanceName, some (ed.verifyingKey seed), some privEnc⟩, host.mem⟩) _
        (Delivers.mapError _ (Delivers.onPool (fun _ => rfl) hnow fun env a _ => ?_)) ?_
      · have hwritten : applyAll host.db
            (updateIdentity (ed.verifyingKey seed) privEnc env host.mem host.db).writes =
            some ⟨row.instanceName, some (ed.verifyingKey seed), some privEnc⟩ := by
          rw [hrow]
          rfl
        rw [hwritten]
        exact ⟨hj, rfl⟩
      · rintro _ _ rfl
        exact Delivers.pure hj hq
  unfold ensureServerIdentity
  refine Delivers.bind (Q := fun r host' => host' = host ∧
    r = some (row.serverIdentityPublic, row.serverIdentityPrivEnc)) _ (Delivers.mapError _
    (Delivers.onPool (fun _ => rfl) hnow fun env a ha => ⟨hnow, rfl, ?_⟩)) ?_
  · rw [hrow] at ha
    exact (Except.ok.inj ha).symm
  · rintro r host ⟨rfl, rfl⟩
    cases hpublic : row.serverIdentityPublic with
    | none => exact hmake (Or.inl hpublic)
    | some publicKey =>
      cases hpriv : row.serverIdentityPrivEnc with
      | none => exact hmake (Or.inr hpriv)
      | some privEnc =>
        refine Delivers.bind (Q := fun seed host' => host' = host ∧
          Secretbox.open lib secretKey privEnc = .ok seed) _
            (Delivers.ofExcept hnow fun seed hs => ?_) ?_
        · cases ho : Secretbox.open lib secretKey privEnc with
          | ok opened =>
            rw [ho] at hs
            obtain rfl : opened = seed := by simpa [Except.mapError] using hs
            exact ⟨rfl, rfl⟩
          | error e =>
            rw [ho] at hs
            exact absurd hs (by simp [Except.mapError])
        · rintro seed host ⟨rfl, hopened⟩
          show Delivers J Q (if seed.length ≠ 32 then fail _
              else if publicKey.length ≠ 32 then fail _
            else pure ⟨seed, publicKey⟩) host
          by_cases hseed : seed.length ≠ 32
          · rw [if_pos hseed]
            exact Delivers.fail _ hnow
          · rw [if_neg hseed]
            by_cases hkey : publicKey.length ≠ 32
            · rw [if_pos hkey]
              exact Delivers.fail _ hnow
            · rw [if_neg hkey]
              exact Delivers.pure hnow (hstored publicKey privEnc seed hpublic hpriv hopened)

/-! ## Any number of starts -/

/-- The starts so far, each with what it returned. -/
abbrev Starts := List (Config × Option Started)

/-- What a start returned is what the host holds. -/
structure Kept (lib : Libs) (config : Config) (started : Started) (host : Host) : Prop where
  key : KeyOf config.secretKeyHex host.mem started.secretKey
  identity : ∃ row privEnc, host.db = some row ∧
    row.serverIdentityPublic = some started.identity.publicKey ∧
    row.serverIdentityPrivEnc = some privEnc ∧
    Secretbox.open lib started.secretKey privEnc = .ok started.identity.seed

/-- An identity that is stored is one key pair, sealed under the key of this setting. -/
def Genuine (lib : Libs) (ed : Ed25519) (hex : Option String) (host : Host) : Prop :=
  ∀ row publicKey privEnc, host.db = some row → row.serverIdentityPublic = some publicKey →
    row.serverIdentityPrivEnc = some privEnc →
      ∃ key seed, KeyOf hex host.mem key ∧ seed.length = 32 ∧ publicKey = ed.verifyingKey seed ∧
        Secretbox.open lib key privEnc = .ok seed

structure Invariant (lib : Libs) (ed : Ed25519) (starts : Starts) (host : Host) : Prop where
  row : ∃ row, host.db = some row
  kept : ∀ config started, (config, some started) ∈ starts → Kept lib config started host
  genuine : ∀ hex, (∀ start ∈ starts, start.1.secretKeyHex = hex) → Genuine lib ed hex host

theorem Kept.file {started : Started} (h : Kept lib config started host) (hnone : host.mem = none)
    (file : Option Bytes) : Kept lib config started ⟨host.db, file⟩ := by
  refine ⟨?_, h.identity⟩
  have hkey := h.key
  unfold KeyOf at hkey ⊢
  cases hhex : config.secretKeyHex with
  | some hex =>
    rw [hhex] at hkey
    exact hkey
  | none =>
    rw [hhex, hnone] at hkey
    exact absurd hkey.1 (by simp)

theorem Genuine.file {hex : Option String} (h : Genuine lib ed hex host) (hnone : host.mem = none)
    (file : Option Bytes) : Genuine lib ed hex ⟨host.db, file⟩ := by
  intro row publicKey privEnc hrow hpublic hpriv
  obtain ⟨key, seed, hkey, hmade⟩ := h row publicKey privEnc hrow hpublic hpriv
  refine ⟨key, seed, ?_, hmade⟩
  cases hex with
  | some hex => exact hkey
  | none =>
    rw [hnone] at hkey
    exact absurd hkey.1 (by simp)

namespace Invariant

variable {starts : Starts}

theorem file (h : Invariant lib ed starts host) (hnone : host.mem = none) (file : Option Bytes) :
    Invariant lib ed starts ⟨host.db, file⟩ :=
  ⟨h.row, fun config started hmem => (h.kept config started hmem).file hnone file,
    fun hex hall => (h.genuine hex hall).file hnone file⟩

/-- One more start, of which nothing is known yet. -/
theorem cut (h : Invariant lib ed starts host) (config : Config) :
    Invariant lib ed ((config, none) :: starts) host := by
  refine ⟨h.row, fun config' started hmem => ?_, fun hex hall => ?_⟩
  · simp only [List.mem_cons, Prod.mk.injEq, reduceCtorEq, and_false, false_or] at hmem
    exact h.kept config' started hmem
  · exact h.genuine hex fun start hmem => hall start (List.mem_cons_of_mem _ hmem)

theorem returned {started : Started} (h : Invariant lib ed ((config, none) :: starts) host)
    (hkept : Kept lib config started host) :
    Invariant lib ed ((config, some started) :: starts) host := by
  refine ⟨h.row, fun config' started' hmem => ?_, fun hex hall => h.genuine hex ?_⟩
  · rcases List.mem_cons.mp hmem with he | hmem
    · obtain ⟨rfl, rfl⟩ : config' = config ∧ started' = started := by simpa using he
      exact hkept
    · exact h.kept config' started' (List.mem_cons_of_mem _ hmem)
  · intro start hmem
    rcases List.mem_cons.mp hmem with rfl | hmem
    · exact hall (config, some started) (by simp)
    · exact hall start (List.mem_cons_of_mem _ hmem)

/-- A first identity: no start has returned yet. -/
theorem identified {row : InstanceRow} {key seed privEnc : Bytes}
    (h : Invariant lib ed ((config, none) :: starts) host) (hrow : host.db = some row)
    (hnone : row.serverIdentityPublic = none ∨ row.serverIdentityPrivEnc = none)
    (hkey : KeyOf config.secretKeyHex host.mem key) (hseed : seed.length = 32)
    (hopened : Secretbox.open lib key privEnc = .ok seed) :
    Invariant lib ed ((config, none) :: starts)
      ⟨some ⟨row.instanceName, some (ed.verifyingKey seed), some privEnc⟩, host.mem⟩ := by
  refine ⟨⟨_, rfl⟩, fun config' started hmem => ?_, fun hex hall => ?_⟩
  · obtain ⟨row', privEnc', hrow', hpublic, hpriv, -⟩ := (h.kept config' started hmem).identity
    obtain rfl : row = row' := Option.some.inj (hrow.symm.trans hrow')
    rcases hnone with hnone | hnone
    · exact absurd (hnone.symm.trans hpublic) (by simp)
    · exact absurd (hnone.symm.trans hpriv) (by simp)
  · intro row' publicKey' privEnc' hrow' hpublic hpriv
    obtain rfl := Option.some.inj hrow'
    obtain rfl := Option.some.inj hpublic
    obtain rfl := Option.some.inj hpriv
    rw [← hall (config, none) (by simp)]
    exact ⟨key, seed, hkey, hseed, rfl, hopened⟩

end Invariant

/-- **One start** keeps the invariant, wherever it is cut off. -/
theorem serve_delivers (hopens : Opens lib) {starts : Starts} (config : Config)
    (h : Invariant lib ed starts host) :
    (serve lib ed config).Delivers (Invariant lib ed ((config, none) :: starts))
      (fun started host' => Invariant lib ed ((config, some started) :: starts) host') host := by
  have hcut := h.cut config
  refine Delivers.bind (Q := fun key host' => Invariant lib ed ((config, none) :: starts) host' ∧
    KeyOf config.secretKeyHex host'.mem key) _
    (load_delivers hcut (fun hnone file => hcut.file hnone file)
      fun key file hkey _ hj => ⟨hj, hkey⟩) ?_
  rintro key host ⟨hnow, hkey⟩
  refine Delivers.bind (Q := fun _ host' => host' = host) _
    (serverName_delivers hnow fun _ => rfl) ?_
  rintro name host rfl
  obtain ⟨row, hrow⟩ := hnow.row
  refine Delivers.bind (Q := fun identity host' => Invariant lib ed
    ((config, none) :: starts) host' ∧
    Kept lib config ⟨key, name, identity⟩ host') _ (ensure_delivers hopens hrow hnow ?_ ?_) ?_
  · intro publicKey privEnc seed hpublic hpriv hopened
    exact ⟨hnow, hkey, row, privEnc, hrow, hpublic, hpriv, hopened⟩
  · intro hnone seed privEnc hseed hopened
    have hmade := hnow.identified hrow hnone hkey hseed hopened
    exact ⟨hmade, hmade, hkey, _, privEnc, rfl, rfl, rfl, hopened⟩
  · rintro identity host ⟨hnow, hkept⟩
    exact Delivers.pure (hnow) (hnow.returned hkept)

theorem invariant_restarts (hopens : Opens lib) {host₀ : Host} {name : Option String}
    {starts : Starts} (hfresh : host₀.db = some ⟨name, none, none⟩)
    (h : Restarts (serve lib ed) host₀ starts host) : Invariant lib ed starts host := by
  refine Restarts.holds (Invariant lib ed) ⟨⟨_, hfresh⟩, fun _ _ hmem => absurd hmem (by simp), ?_⟩
    (fun starts host config hinv => serve_delivers hopens config hinv) h
  intro hex _ row publicKey privEnc hrow hpublic _
  obtain rfl := Option.some.inj (hfresh.symm.trans hrow)
  exact absurd hpublic (by simp)

theorem Kept.unique {config' : Config} {started started' : Started}
    (h : Kept lib config started host) (h' : Kept lib config' started' host) :
    started.identity.publicKey = started'.identity.publicKey ∧
      (config.secretKeyHex = config'.secretKeyHex →
        started.secretKey = started'.secretKey ∧ started.identity = started'.identity) := by
  obtain ⟨hkey, row, privEnc, hrow, hpublic, hpriv, hopened⟩ := h
  obtain ⟨hkey', row', privEnc', hrow', hpublic', hpriv', hopened'⟩ := h'
  obtain rfl : row = row' := Option.some.inj (hrow.symm.trans hrow')
  have hsame := Option.some.inj (hpublic.symm.trans hpublic')
  refine ⟨hsame, fun hhex => ?_⟩
  rw [← hhex] at hkey'
  have hkeys := hkey.unique hkey'
  obtain rfl : privEnc = privEnc' := Option.some.inj (hpriv.symm.trans hpriv')
  rw [hkeys] at hopened
  have hseeds := Except.ok.inj (hopened.symm.trans hopened')
  refine ⟨hkeys, ?_⟩
  cases hidentity : started.identity
  cases hidentity' : started'.identity
  rw [hidentity, hidentity'] at hsame hseeds
  rw [ServerIdentity.mk.injEq]
  exact ⟨hseeds, hsame⟩

/-- **The identity survives every restart.** Whatever starts fail or are killed, all that come to
    their end return one public key; where `SYLVA_SECRET_KEY` is the same they return the same
    secret key and key pair, and where it never changed every answer to a discovery request
    verifies under the public key that any of them returned. -/
theorem server_identity_stable (hopens : Opens lib)
    (hverifies : ∀ seed message, lib.verifyStrict (ed.verifyingKey seed) message
      (ed.sign seed message) = true)
    {host₀ : Host} {name : Option String} {starts : Starts} {config config' : Config}
    {started started' : Started} (hfresh : host₀.db = some ⟨name, none, none⟩)
    (h : Restarts (serve lib ed) host₀ starts host) (hstarted : (config, some started) ∈ starts)
    (hstarted' : (config', some started') ∈ starts) :
    started.identity.publicKey = started'.identity.publicKey ∧
    (config.secretKeyHex = config'.secretKeyHex →
      started.secretKey = started'.secretKey ∧ started.identity = started'.identity) ∧
    ((∀ start ∈ starts, start.1.secretKeyHex = config.secretKeyHex) → ∀ nonce r,
      Discovery.handler (started'.discoveryState ed config') nonce = some r →
        r.serverIdentityPublic = hex started.identity.publicKey ∧
        ∃ signature, r.signature = hex signature ∧
          lib.verifyStrict started.identity.publicKey (Discovery.canonicalBytes nonce
            started.identity.publicKey r.grpcPort r.name) signature = true) := by
  have hinv := invariant_restarts hopens hfresh h
  have hkept' := hinv.kept config' started' hstarted'
  obtain ⟨hpublic, hsame⟩ := (hinv.kept config started hstarted).unique hkept'
  refine ⟨hpublic, hsame, fun hall nonce r hanswer => ?_⟩
  -- the stored key pair is what the second start signs with
  obtain ⟨hkey', row, privEnc, hrow, hpublic', hpriv, hopened⟩ := hkept'
  obtain ⟨key, seed, hkey, -, hmade, hopened'⟩ :=
    hinv.genuine _ hall row started'.identity.publicKey privEnc hrow hpublic' hpriv
  rw [hall (config', some started') hstarted'] at hkey'
  rw [hkey'.unique hkey] at hopened
  have hseed := Except.ok.inj (hopened.symm.trans hopened')
  unfold Discovery.handler at hanswer
  split at hanswer
  · exact absurd hanswer (by simp)
  · obtain rfl := Option.some.inj hanswer
    refine ⟨congrArg hex hpublic.symm, ed.sign started'.identity.seed
      (Discovery.canonicalBytes nonce
      started'.identity.publicKey config'.grpcPort started'.instanceName), rfl, ?_⟩
    show lib.verifyStrict started.identity.publicKey (Discovery.canonicalBytes nonce
      started.identity.publicKey config'.grpcPort started'.instanceName) _ = true
    rw [hpublic, hmade, ← hseed]
    exact hverifies _ _

/-! ### A killed start and two that come to their end -/

/-- Signatures are the public key in front of the message. -/
def sampleKeys : Ed25519 where
  verifyingKey seed := (seed ++ List.replicate 32 1).take 32
  verifyingKey_size seed := by simp
  sign seed message := (seed ++ List.replicate 32 1).take 32 ++ message

def plainConfig : Config := ⟨some "  ", "./data", "./data/secret.key", "Server", 50051⟩

/-- Everything random is this byte. -/
def drawing (b : UInt8) : HostEnv := ⟨fun _ => b, none⟩

def newHost : Host := ⟨some ⟨none, none, none⟩, none⟩

/-- The key file is there, the identity is not. -/
def keyedHost : Host := ⟨some ⟨none, none, none⟩, some (List.replicate 32 7)⟩

def ownStarted : Started :=
  ⟨List.replicate 32 7, "Server", List.replicate 32 9, List.replicate 32 9⟩

def identifiedHost : Host :=
  ⟨some ⟨none, some (List.replicate 32 9),
    some (List.replicate 24 9 ++ (List.replicate 32 7 ++ List.replicate 32 9))⟩,
    some (List.replicate 32 7)⟩

theorem sample_opens : Opens Libs.sample := by
  intro key nonce plaintext ciphertext h
  obtain rfl : key ++ plaintext = ciphertext := by simpa [Libs.sample] using h
  simp [Libs.sample]

/-- The same server under another name. -/
def laptopConfig : Config := ⟨none, "./data", "./data/secret.key", "Laptop", 443⟩

def laptopStarted : Started := { ownStarted with instanceName := "Laptop" }

/-- Killed between the key file and the identity, then started under two names. -/
theorem restarted : Restarts (serve Libs.sample sampleKeys) newHost
    [(laptopConfig, some laptopStarted), (plainConfig, some ownStarted), (plainConfig, none)]
    identifiedHost := by
  have hkilled : ∃ p, Proc.run (List.replicate 4 ⟨drawing 7, none⟩)
      ⟨serve Libs.sample sampleKeys plainConfig, none⟩ newHost = some (p, keyedHost) := ⟨_, rfl⟩
  obtain ⟨p, hkilled⟩ := hkilled
  have hfirst : Proc.run (List.replicate 7 ⟨drawing 9, none⟩)
      ⟨serve Libs.sample sampleKeys plainConfig, none⟩ keyedHost =
        some (⟨.ret (.ok ownStarted), none⟩, identifiedHost) := rfl
  have hsecond : Proc.run (List.replicate 3 ⟨drawing 1, none⟩)
      ⟨serve Libs.sample sampleKeys laptopConfig, none⟩ identifiedHost =
        some (⟨.ret (.ok laptopStarted), none⟩, identifiedHost) := rfl
  exact .returned (.returned (.cut .none hkilled) hfirst) hsecond

theorem server_identity_stable_laptop :
    ownStarted.identity.publicKey = laptopStarted.identity.publicKey ∧
    (plainConfig.secretKeyHex = laptopConfig.secretKeyHex →
      ownStarted.secretKey = laptopStarted.secretKey ∧
      ownStarted.identity = laptopStarted.identity) ∧
    ((∀ start ∈ [(laptopConfig, some laptopStarted), (plainConfig, some ownStarted),
        (plainConfig, none)],
        start.1.secretKeyHex = plainConfig.secretKeyHex) → ∀ nonce r,
      Discovery.handler (laptopStarted.discoveryState sampleKeys laptopConfig) nonce = some r →
        r.serverIdentityPublic = hex ownStarted.identity.publicKey ∧
        ∃ signature, r.signature = hex signature ∧
          Libs.sample.verifyStrict ownStarted.identity.publicKey (Discovery.canonicalBytes nonce
            ownStarted.identity.publicKey r.grpcPort r.name) signature = true) :=
  server_identity_stable sample_opens (fun seed message => by simp [Libs.sample, sampleKeys])
    rfl restarted (by simp) (by simp)

/-! ## A start that nothing disturbs -/

/-- The setting is a key, or the key file is absent or whole. -/
def Usable (hex : Option String) (file : Option Bytes) : Prop :=
  match hex with
  | some hex => ∃ key, decodeHex32 hex = .ok key
  | none => ∀ bytes, file = some bytes → bytes.length = 32

variable {env : HostEnv}

theorem load_exec (hcalm : env.fault = none) (husable : Usable config.secretKeyHex host.mem) :
    ∃ key file, (loadSecretKey config).exec env none host = some (.ok key, none, ⟨host.db, file⟩) ∧
      KeyOf config.secretKeyHex file key ∧ (file = host.mem ∨ host.mem = none) := by
  unfold loadSecretKey
  cases hhex : config.secretKeyHex with
  | some hex =>
    rw [hhex] at husable
    obtain ⟨key, hdecoded⟩ := husable
    refine ⟨key, host.mem, ?_, hdecoded, Or.inl rfl⟩
    show (ofExcept _ : Startup Bytes).exec env none host = _
    rw [hdecoded]
    rfl
  | none =>
    rw [hhex] at husable
    cases hmem : host.mem with
    | some bytes =>
      have hlen := husable bytes hmem
      refine ⟨bytes, some bytes, ?_, ⟨rfl, hlen⟩, Or.inl rfl⟩
      simp only [exec_bind, readKeyFile, exec_critical, hcalm, hmem, Option.bind_some, andThen,
        if_pos hlen]
      rw [← hmem]
      rfl
    | none =>
      refine ⟨env.fill 32, some (env.fill 32), ?_, ⟨rfl, env.fill_length 32⟩, Or.inr rfl⟩
      simp only [exec_bind, readKeyFile, exec_critical, hcalm, hmem, Option.bind_some, andThen,
        generateKey, exec_ask, writeSecretKey, createDirAll, writeKeyFile, exec_ofExcept,
        withContext, Except.mapError]
      rfl

/-- **What cannot be a key is never overcome**: the start fails and leaves the host as it is. -/
theorem load_exec_unusable (hcalm : env.fault = none)
    (hunusable : ¬ Usable config.secretKeyHex host.mem) :
    ∃ e, (loadSecretKey config).exec env none host = some (.error e, none, host) := by
  unfold loadSecretKey
  cases hhex : config.secretKeyHex with
  | some hex =>
    rw [hhex] at hunusable
    cases hdecoded : decodeHex32 hex with
    | ok key => exact absurd ⟨key, hdecoded⟩ hunusable
    | error e =>
      refine ⟨"SYLVA_SECRET_KEY must be 64 hex chars (32 bytes)" :: e, ?_⟩
      show (ofExcept _ : Startup Bytes).exec env none host = _
      rw [hdecoded]
      rfl
  | none =>
    rw [hhex] at hunusable
    cases hmem : host.mem with
    | none => exact absurd (fun bytes h => absurd (hmem.symm.trans h) (by simp)) hunusable
    | some bytes =>
      have hlen : ¬ bytes.length = 32 := fun hlen => hunusable fun bytes' h => by
        obtain rfl := Option.some.inj (hmem.symm.trans h)
        exact hlen
      refine ⟨[config.keyPath ++ " exists but is not a 32-byte key; delete it to regenerate"], ?_⟩
      simp only [exec_bind, readKeyFile, exec_critical, hcalm, hmem, Option.bind_some, andThen,
        if_neg hlen]
      rw [← hmem]
      rfl

theorem ensure_exec {secretKey : Bytes} {row : InstanceRow}
    (hencrypts : ∀ key nonce plaintext, (lib.xchachaEncrypt key nonce plaintext).isSome)
    (hrow : host.db = some row)
    (hstored : ∀ publicKey privEnc, row.serverIdentityPublic = some publicKey →
      row.serverIdentityPrivEnc = some privEnc → publicKey.length = 32 ∧
        ∃ seed, seed.length = 32 ∧ Secretbox.open lib secretKey privEnc = .ok seed) :
    ∃ identity host', (ensureServerIdentity lib ed secretKey).exec env none host =
      some (.ok identity, none, host') := by
  have hmake : ∃ identity host', ((ask fun env => env.fill 32) >>= fun seed =>
        (ask fun env => env.fill Secretbox.nonceLen) >>= fun nonce =>
        ofExcept ((Secretbox.sealWith lib secretKey nonce seed).mapError fun _ =>
          ["sealing server identity key"]) >>= fun privEnc =>
        (onPool (updateIdentity (ed.verifyingKey seed) privEnc)).mapError ([·]) >>= fun _ =>
        (pure ⟨seed, ed.verifyingKey seed⟩ : Startup ServerIdentity)).exec env none host =
      some (.ok identity, none, host') := by
    obtain ⟨ciphertext, hencrypted⟩ :=
      Option.isSome_iff_exists.mp (hencrypts secretKey (env.fill Secretbox.nonceLen) (env.fill 32))
    have hsealed : Secretbox.sealWith lib secretKey (env.fill Secretbox.nonceLen) (env.fill 32) =
        .ok (env.fill Secretbox.nonceLen ++ ciphertext) := by
      unfold Secretbox.sealWith
      rw [hencrypted]
    refine ⟨⟨env.fill 32, ed.verifyingKey (env.fill 32)⟩, settle (updateIdentity
      (ed.verifyingKey (env.fill 32)) (env.fill Secretbox.nonceLen ++ ciphertext) env
        host.mem host.db)
      host.db, ?_⟩
    simp only [exec_bind, exec_ask, exec_ofExcept, Option.bind_some, andThen, hsealed,
      Except.mapError, exec_mapError, exec_onPool, updateIdentity, Option.map_some]
    rfl
  have hselect : ((onPool selectIdentity).mapError ([·]) : Startup _).exec env none host =
      some (.ok (some (row.serverIdentityPublic, row.serverIdentityPrivEnc)), none, host) := by
    rw [exec_mapError, exec_onPool]
    simp only [selectIdentity, hrow, Option.map_some, settle, applyAll_nil, Except.mapError]
    rw [← hrow]
  unfold ensureServerIdentity
  rw [exec_bind, hselect]
  simp only [Option.bind_some, andThen]
  cases hpublic : row.serverIdentityPublic with
  | none => exact hmake
  | some publicKey =>
    cases hpriv : row.serverIdentityPrivEnc with
    | none => exact hmake
    | some privEnc =>
      obtain ⟨hkey, seed, hseed, hopened⟩ := hstored publicKey privEnc hpublic hpriv
      refine ⟨⟨seed, publicKey⟩, host, ?_⟩
      simp only [exec_bind, exec_ofExcept, hopened, Except.mapError, Option.bind_some, andThen,
        hseed, hkey, ne_eq, not_true_eq_false, if_false]
      rfl

/-- No start writes a key file that is there. -/
theorem key_file_kept (hopens : Opens lib) {row : InstanceRow} {bytes : Bytes} {later : Starts}
    {host' : Host} (hrow : host.db = some row) (hfile : host.mem = some bytes)
    (h : Restarts (serve lib ed) host later host') : host'.mem = some bytes := by
  refine (h.holds (fun _ host => (∃ row, host.db = some row) ∧ host.mem = some bytes)
    ⟨⟨row, hrow⟩, hfile⟩ fun starts host config hnow => ?_).2
  refine Delivers.bind (Q := fun _ host => (∃ row, host.db = some row) ∧ host.mem = some bytes) _
    (load_delivers hnow (fun hnone _ => ?_) fun _ _ _ _ hj => hj) ?_
  · exact absurd (hnone.symm.trans hnow.2) (by simp)
  · intro key host hnow
    refine Delivers.bind (Q := fun _ host' => host' = host) _
      (serverName_delivers hnow fun _ => rfl) ?_
    rintro name host rfl
    obtain ⟨row, hrow⟩ := hnow.1
    refine Delivers.bind (Q := fun _ host => (∃ row, host.db = some row) ∧ host.mem = some bytes) _
      (ensure_delivers hopens hrow hnow (fun _ _ _ _ _ _ => hnow) fun _ seed privEnc _ _ =>
        ⟨⟨⟨_, rfl⟩, hnow.2⟩, ⟨_, rfl⟩, hnow.2⟩) fun identity host hnow => Delivers.pure hnow hnow

/-- **A restart succeeds** where nothing disturbs it and the setting is the one of all starts so
    far, if and only if that setting is a key or, where there is none, the key file is absent or
    whole. No start ever changes a key file that is there: a torn one locks every later start
    out. -/
theorem restart_succeeds_iff (hopens : Opens lib)
    (hencrypts : ∀ key nonce plaintext, (lib.xchachaEncrypt key nonce plaintext).isSome)
    {host₀ : Host} {name : Option String} {starts : Starts}
    (hfresh : host₀.db = some ⟨name, none, none⟩) (h : Restarts (serve lib ed) host₀ starts host)
    (hsame : ∀ start ∈ starts, start.1.secretKeyHex = config.secretKeyHex)
    (hcalm : env.fault = none) :
    ((∃ started host', (serve lib ed config).alone env host = some (.ok started, host')) ↔
      Usable config.secretKeyHex host.mem) ∧
    ∀ bytes later host', host.mem = some bytes → Restarts (serve lib ed) host later host' →
      host'.mem = some bytes := by
  have hinv := invariant_restarts hopens hfresh h
  refine ⟨⟨fun ⟨started, host', hreturned⟩ => ?_, fun husable => ?_⟩,
    fun bytes later host' hfile hlater => ?_⟩
  · by_contra hunusable
    obtain ⟨e, hfailed⟩ := load_exec_unusable hcalm hunusable
    unfold alone serve at hreturned
    rw [exec_bind, hfailed] at hreturned
    exact absurd hreturned (by simp [andThen])
  · obtain ⟨key, file, hloaded, hkey, hfile⟩ := load_exec hcalm husable
    obtain ⟨row, hrow⟩ := hinv.row
    have hname : (serverName config).exec env none ⟨host.db, file⟩ =
        some (.ok (row.instanceName.getD config.instanceName), none, ⟨host.db, file⟩) := by
      unfold serverName
      rw [exec_bind, exec_mapError, exec_onPool]
      simp only [selectInstanceName, hrow, Option.map_some, settle, applyAll_nil, Except.mapError,
        Option.bind_some, andThen]
      rfl
    -- an identity that is stored opens under the key that was loaded
    have hstored : ∀ publicKey privEnc, row.serverIdentityPublic = some publicKey →
        row.serverIdentityPrivEnc = some privEnc → publicKey.length = 32 ∧
          ∃ seed, seed.length = 32 ∧ Secretbox.open lib key privEnc = .ok seed := by
      intro publicKey privEnc hpublic hpriv
      have hgenuine : Genuine lib ed config.secretKeyHex ⟨host.db, file⟩ := by
        rcases hfile with rfl | hnone
        · exact hinv.genuine _ hsame
        · exact (hinv.genuine _ hsame).file hnone file
      obtain ⟨key', seed, hkey', hseed, rfl, hopened⟩ :=
        hgenuine row publicKey privEnc hrow hpublic hpriv
      rw [hkey.unique hkey']
      exact ⟨ed.verifyingKey_size seed, seed, hseed, hopened⟩
    obtain ⟨identity, host', hensured⟩ : ∃ identity host',
        (ensureServerIdentity lib ed key).exec env none
        ⟨host.db, file⟩ = some (.ok identity, none, host') := ensure_exec hencrypts hrow hstored
    refine ⟨⟨key, row.instanceName.getD config.instanceName, identity⟩, host', ?_⟩
    unfold alone serve
    simp only [exec_bind, hloaded, Option.bind_some, andThen, hname, hensured]
    rfl
  · obtain ⟨row, hrow⟩ := hinv.row
    exact key_file_kept hopens hrow hfile hlater

theorem restart_succeeds_iff_laptop :
    ((∃ started host', (serve Libs.sample sampleKeys laptopConfig).alone
      (drawing 1) identifiedHost =
      some (.ok started, host')) ↔ Usable laptopConfig.secretKeyHex identifiedHost.mem) ∧
    ∀ bytes later host', identifiedHost.mem = some bytes →
      Restarts (serve Libs.sample sampleKeys) identifiedHost later host' →
      host'.mem = some bytes := by
  refine restart_succeeds_iff sample_opens (fun _ _ _ => rfl) rfl restarted
    (fun start hmem => ?_) rfl
  have hblank : plainConfig.secretKeyHex = none ∧ laptopConfig.secretKeyHex = none := by
    decide +kernel
  simp only [List.mem_cons, List.not_mem_nil, or_false] at hmem
  rcases hmem with rfl | rfl | rfl
  · rfl
  · exact hblank.1.trans hblank.2.symm
  · exact hblank.1.trans hblank.2.symm

end SylvaServer.Startup
