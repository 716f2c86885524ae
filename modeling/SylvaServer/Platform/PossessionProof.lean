/-
  What a machine's proof of possession covers.

  The signed bytes hold the platform and the label one after the other with a line feed between
  them, and nothing escapes the line feeds inside them.

  Proved: the bytes are read in one way exactly where neither field has a line feed
  (`covers_one_iff`), so a signature authorises one registration exactly there
  (`pop_authorises_one_iff`). `two_registrations_one_signature` is a signature accepted for two
  registrations that store different platforms and labels.
-/
import SylvaServer.Codec.Marker
import SylvaServer.Model.Machine

namespace SylvaServer.MachineService

open Marker

/-- No line feed in a text. -/
def OneLine (s : String) : Prop := '\n' ∉ s.toList

instance (s : String) : Decidable (OneLine s) := inferInstanceAs (Decidable (_ ∉ _))

/-- The signed bytes after the key. -/
def fields (platform label : String) : Bytes := utf8 platform ++ ([10] ++ utf8 label)

theorem canonicalMachineBytes_eq (publicKey : Bytes) (platform label : String) :
    canonicalMachineBytes publicKey platform label =
      utf8 "sylva-machine-registration:v1\n" ++ (publicKey ++ ([10] ++ fields platform label)) := by
  unfold canonicalMachineBytes fields
  simp only [List.append_assoc]

/-- A line feed is a byte of its own. -/
theorem OneLine.not_mem {s : String} (h : OneLine s) : (10 : UInt8) ∉ utf8 s := by
  intro hmem
  rw [utf8_eq_encode] at hmem
  exact h (Utf8.mem_encode_ascii hmem (by decide))

/-- A text with a line feed is cut there. -/
theorem cut_of_not_oneLine {s : String} (h : ¬ OneLine s) :
    ∃ a b : String, s = a ++ "\n" ++ b := by
  obtain ⟨x, y, hxy⟩ := List.mem_iff_append.mp (not_not.mp h)
  refine ⟨String.ofList x, String.ofList y, String.toList_inj.mp ?_⟩
  simp only [String.toList_append, String.toList_ofList, List.append_assoc]
  exact hxy

theorem utf8_newline (a b : String) : utf8 (a ++ "\n" ++ b) = utf8 a ++ ([10] ++ utf8 b) := by
  have hnl : utf8 "\n" = [10] := by decide +kernel
  rw [utf8_append, utf8_append, hnl, List.append_assoc]

/-- Texts without line feeds are the only ones with their bytes. -/
theorem fields_inj {platform label platform' label' : String} (hp : OneLine platform)
    (hl : OneLine label) (h : fields platform label = fields platform' label') :
    platform = platform' ∧ label = label' := by
  have hmark : IsMarker (10 : UInt8) [10] := ⟨[], rfl, by simp⟩
  rcases marker_cut hmark hmark h with ⟨hx, hr⟩ | ⟨y, -, hr⟩ | ⟨y, hx, -⟩
  · exact ⟨utf8_inj hx, utf8_inj (List.append_cancel_left hr)⟩
  · exact absurd (by rw [hr]; simp) hl.not_mem
  · exact absurd (by rw [hx]; simp) hp.not_mem

/-- The bytes of `platform` and `label` are read in one way. -/
theorem covers_one_iff (platform label : String) :
    (∀ platform' label', fields platform label = fields platform' label' →
      platform = platform' ∧ label = label') ↔ OneLine platform ∧ OneLine label := by
  constructor
  · intro h
    by_contra hnot
    have hsize : ∀ a b : String, b ≠ a ++ "\n" ++ b := by
      intro a b he
      have hlen := congrArg (List.length ∘ String.toList) he
      simp only [Function.comp_apply, String.toList_append, List.length_append] at hlen
      have hone : "\n".toList.length = 1 := rfl
      omega
    by_cases hp : OneLine platform
    · obtain ⟨a, b, rfl⟩ := cut_of_not_oneLine fun hl => hnot ⟨hp, hl⟩
      have hother := (h (platform ++ "\n" ++ a) b (by
        unfold fields
        rw [utf8_newline, utf8_newline]
        simp only [List.append_assoc])).2
      exact hsize a b hother.symm
    · obtain ⟨a, b, rfl⟩ := cut_of_not_oneLine hp
      have hother := (h a (b ++ "\n" ++ label) (by
        unfold fields
        rw [utf8_newline, utf8_newline]
        simp only [List.append_assoc])).2
      exact hsize b label hother
  · intro h platform' label'
    exact fields_inj h.1 h.2

/-- Ed25519 accepts a signature for at most one key and message. -/
def OnePair (lib : Libs) : Prop :=
  ∀ key key' m m' signature, lib.verifyStrict key m signature = true →
    lib.verifyStrict key' m' signature = true → key = key' ∧ m = m'

/-- **When a proof of possession covers one registration.** A signature accepted for a registration
    is accepted for no other exactly when its platform and its label have no line feed. -/
theorem pop_authorises_one_iff (lib : Libs) (hone : OnePair lib) (publicKey : Bytes)
    (platform label : String) (signature : Bytes)
    (h : verifyPop lib publicKey platform label signature = true) :
    (∀ publicKey' platform' label', verifyPop lib publicKey' platform' label' signature = true →
      publicKey = publicKey' ∧ platform = platform' ∧ label = label') ↔
        OneLine platform ∧ OneLine label := by
  rw [← covers_one_iff platform label]
  have hsize := h
  simp only [verifyPop, Bool.and_eq_true] at hsize
  constructor
  · intro hall platform' label' hfields
    refine (hall publicKey platform' label' ?_).2
    simp only [verifyPop, Bool.and_eq_true, canonicalMachineBytes_eq, ← hfields]
    rw [← canonicalMachineBytes_eq]
    exact hsize
  · intro hfields publicKey' platform' label' h'
    simp only [verifyPop, Bool.and_eq_true] at h'
    obtain ⟨rfl, hbytes⟩ := hone _ _ _ _ _ hsize.2 h'.2
    rw [canonicalMachineBytes_eq, canonicalMachineBytes_eq] at hbytes
    have hrest := List.append_cancel_left (List.append_cancel_left hbytes)
    exact ⟨rfl, hfields platform' label' (List.append_cancel_left hrest)⟩

/-- A machine's public key. -/
def machineKey : Bytes :=
  [3, 161, 7, 191, 243, 206, 16, 190, 29, 112, 221, 24, 231, 75, 192, 153, 103, 228, 214, 48, 155,
    165, 13, 95, 29, 220, 134, 100, 18, 85, 49, 184]

/-- Its signature over the platform "linux" and the label "server". -/
def serverSignature : Bytes :=
  [226, 253, 64, 70, 169, 231, 234, 50, 209, 229, 138, 150, 40, 213, 136, 150, 177, 185, 54, 72, 95,
    55, 248, 162, 175, 220, 12, 159, 243, 181, 99, 167, 27, 88, 71, 13, 225, 159, 134, 109, 65, 168,
    126, 202, 176, 35, 43, 36, 69, 240, 50, 110, 162, 80, 97, 226, 89, 98, 76, 180, 10, 2, 144, 0]

/-- Its signature over the platform "linux" and a label of two lines, "web" and "server". -/
def webServerSignature : Bytes :=
  [178, 240, 1, 14, 105, 13, 132, 223, 99, 15, 178, 153, 110, 45, 245, 172, 225, 149, 178, 169, 26,
    128, 9, 72, 159, 192, 50, 35, 106, 24, 10, 217, 67, 209, 16, 172, 79, 178, 105, 2, 4, 161, 205,
    204, 91, 39, 151, 89, 232, 66, 10, 213, 236, 66, 95, 204, 154, 105, 79, 141, 40, 213, 112, 2]

/-- Verification of these two signatures. -/
def machineLibs : Libs := { Libs.sample with
  verifyStrict := fun key m signature => key == machineKey &&
    (signature == serverSignature && m == canonicalMachineBytes machineKey "linux" "server" ||
      signature == webServerSignature &&
        m == canonicalMachineBytes machineKey "linux" "web\nserver") }

theorem machineLibs_onePair : OnePair machineLibs := by
  have hne : serverSignature ≠ webServerSignature := by decide
  intro key key' m m' signature hm hm'
  simp only [machineLibs, Bool.and_eq_true, Bool.or_eq_true, beq_iff_eq] at hm hm'
  obtain ⟨rfl, hm⟩ := hm
  obtain ⟨rfl, hm'⟩ := hm'
  refine ⟨rfl, ?_⟩
  obtain ⟨hs, rfl⟩ | ⟨hs, rfl⟩ := hm
  · obtain ⟨-, rfl⟩ | ⟨hs', -⟩ := hm'
    · rfl
    · exact absurd (hs.symm.trans hs') hne
  · obtain ⟨hs', -⟩ | ⟨-, rfl⟩ := hm'
    · exact absurd (hs'.symm.trans hs) hne
    · rfl

/-- The theorem at a signature accepted for one registration alone. -/
theorem pop_authorises_one_iff_server :
    OnePair machineLibs ∧ verifyPop machineLibs machineKey "linux" "server" serverSignature = true ∧
      ∀ publicKey' platform' label',
        verifyPop machineLibs publicKey' platform' label' serverSignature = true →
          machineKey = publicKey' ∧ "linux" = platform' ∧ "server" = label' := by
  have haccept : verifyPop machineLibs machineKey "linux" "server" serverSignature = true := by
    decide +kernel
  exact ⟨machineLibs_onePair, haccept, (pop_authorises_one_iff machineLibs machineLibs_onePair
    machineKey "linux" "server" serverSignature haccept).mpr (by decide)⟩

/-- The signature over a label of two lines is accepted with the first of them in the platform. -/
theorem two_registrations_one_signature :
    OnePair machineLibs ∧
      verifyPop machineLibs machineKey "linux" "web\nserver" webServerSignature = true ∧
      verifyPop machineLibs machineKey "linux\nweb" "server" webServerSignature = true ∧
      trim "linux" ≠ trim "linux\nweb" ∧ trim "web\nserver" ≠ trim "server" :=
  ⟨machineLibs_onePair, by decide +kernel, by decide +kernel, by decide +kernel, by decide +kernel⟩

end SylvaServer.MachineService
