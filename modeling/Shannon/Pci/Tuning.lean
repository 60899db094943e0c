/-
# Tuning the PCI Express link

`shannon_pci.c`: `shannon_disable_correctable_aer`, `shannon_set_max_payload_size` and
`shannon_set_bridge_timeout` each read a 16-bit control register, of the card or of the
bridge it is below, change one field of it and write it back.

| function | register | field | mask used |
| --- | --- | --- | --- |
| `shannon_disable_correctable_aer` | Device Control of the bridge | `0x0001` | `~0x0001` |
| `shannon_set_max_payload_size` | Device Control of the card | `0x00e0` | `~0x00e0` |
| `shannon_set_bridge_timeout` | Device Control 2 of the bridge | `0x000f` | `0x000f` |

The last one keeps the field it is to set and clears the rest of the register.
-/

import Mathlib.Logic.Function.Basic
import Mathlib.Data.List.Perm.Basic
import Mathlib.Tactic.IntervalCases

namespace Shannon
namespace Pci

/-- A configuration space: its 16-bit registers by their byte offsets, and where
`pci_find_capability` finds the PCI Express capability, 0 if it does not.  Capabilities
are aligned, so that the registers do not overlap. -/
structure PciDev where
  expCap : ℕ
  config : ℕ → BitVec 16

namespace PciDev

variable (dev : PciDev)

/-- `pci_read_config_word`. -/
def readWord (pos : ℕ) : BitVec 16 := dev.config pos

/-- `pci_read_config_dword`. -/
def readDword (pos : ℕ) : BitVec 32 := dev.config (pos + 2) ++ dev.config pos

/-- `pci_write_config_word`. -/
def writeWord (pos : ℕ) (val : BitVec 16) : PciDev :=
  { dev with config := Function.update dev.config pos val }

end PciDev

/-- The card, and `dev->bus->self`, the bridge it is below if there is one. -/
structure Slot where
  dev : PciDev
  self : Option PciDev

/-! ### The registers of the capability -/

def pciExpFlags : ℕ := 2
def pciExpFlagsVers : BitVec 16 := 0x000f
def pciExpDevctl : ℕ := 8
def pciExpDevctlCere : BitVec 16 := 0x0001
def pciExpDevctlPayload : BitVec 16 := 0x00e0
def pciExpDevcap2 : ℕ := 36
def pciExpDevcap2Timeout : BitVec 32 := 0xf
def pciExpTimeoutRangeB : BitVec 32 := 0x2
def pciExpDevctl2 : ℕ := 40

/-! ### The functions -/

/-- `shannon_disable_correctable_aer`. -/
def shannonDisableCorrectableAer (p : Slot) : Slot :=
  match p.self with
  | none => p
  | some bridge =>
      let busCap := bridge.expCap
      if busCap = 0 then p
      else
        let busVal := bridge.readWord (busCap + pciExpDevctl)
        let bridge := bridge.writeWord (busCap + pciExpDevctl) (busVal &&& ~~~pciExpDevctlCere)
        { p with self := some bridge }

/-- `shannon_set_max_payload_size`. -/
def shannonSetMaxPayloadSize (p : Slot) : Slot :=
  match p.self with
  | none => p
  | some bridge =>
      let devCap := p.dev.expCap
      if devCap = 0 then p
      else
        let val := p.dev.readWord (devCap + pciExpDevctl)
        let busCap := bridge.expCap
        if busCap = 0 then p
        else
          let busVal := bridge.readWord (busCap + pciExpDevctl)
          let mps := val &&& pciExpDevctlPayload
          let busMps := busVal &&& pciExpDevctlPayload
          if mps ≠ busMps then
            let val := (val &&& ~~~pciExpDevctlPayload) ||| busMps
            { p with dev := p.dev.writeWord (devCap + pciExpDevctl) val }
          else p

/-- `shannon_set_bridge_timeout`. -/
def shannonSetBridgeTimeout (p : Slot) : Slot :=
  match p.self with
  | none => p
  | some bridge =>
      let pos := bridge.expCap
      if pos = 0 then p
      else if bridge.readWord (pos + pciExpFlags) &&& pciExpFlagsVers < 2 then p
      else
        let cap := bridge.readDword (pos + pciExpDevcap2)
        if cap &&& pciExpDevcap2Timeout = 0 then p
        else if cap &&& pciExpTimeoutRangeB ≠ 0 then
          let ctrl := bridge.readWord (pos + pciExpDevctl2)
          let ctrl := (ctrl &&& 0xf) ||| 0x6
          { p with self := some (bridge.writeWord (pos + pciExpDevctl2) ctrl) }
        else p

/-- The three functions. -/
inductive Tuning
  | aer | payload | timeout
  deriving DecidableEq, Repr

def Tuning.apply (p : Slot) : Tuning → Slot
  | .aer => shannonDisableCorrectableAer p
  | .payload => shannonSetMaxPayloadSize p
  | .timeout => shannonSetBridgeTimeout p

/-- Some of them, one after the other. -/
def tune (ts : List Tuning) (p : Slot) : Slot := ts.foldl Tuning.apply p

/-- Each of them once. -/
def Tuning.all : List Tuning := [.aer, .payload, .timeout]

/-! ### What they are for -/

/-- The register with one field replaced. -/
def setField (mask value reg : BitVec 16) : BitVec 16 := (reg &&& ~~~mask) ||| (value &&& mask)

/-- The capability is of version 2 or later and offers the timeout range B. -/
def PciDev.OffersRangeB (bridge : PciDev) : Prop :=
  ¬bridge.readWord (bridge.expCap + pciExpFlags) &&& pciExpFlagsVers < 2 ∧
    bridge.readDword (bridge.expCap + pciExpDevcap2) &&& pciExpTimeoutRangeB ≠ 0

instance (bridge : PciDev) : Decidable bridge.OffersRangeB := inferInstanceAs (Decidable (_ ∧ _))

/-- The bridge without correctable errors, with `timeout` done to its Device Control 2. -/
def tuneBridge (timeout : BitVec 16 → BitVec 16) (bridge : PciDev) : PciDev :=
  let quiet := bridge.writeWord (bridge.expCap + pciExpDevctl)
    (setField pciExpDevctlCere 0 (bridge.readWord (bridge.expCap + pciExpDevctl)))
  if bridge.OffersRangeB then
    quiet.writeWord (bridge.expCap + pciExpDevctl2)
      (timeout (bridge.readWord (bridge.expCap + pciExpDevctl2)))
  else quiet

/-- The card with the payload size of the bridge. -/
def tuneDev (bridge dev : PciDev) : PciDev :=
  if dev.expCap = 0 then dev
  else dev.writeWord (dev.expCap + pciExpDevctl)
    (setField pciExpDevctlPayload (bridge.readWord (bridge.expCap + pciExpDevctl))
      (dev.readWord (dev.expCap + pciExpDevctl)))

/-- Card and bridge with these fields replaced, and with `timeout` for the one that is
left open. -/
def tunedBy (timeout : BitVec 16 → BitVec 16) (p : Slot) : Slot :=
  match p.self with
  | none => p
  | some bridge =>
      if bridge.expCap = 0 then p
      else ⟨tuneDev bridge p.dev, some (tuneBridge timeout bridge)⟩

/-- What the three functions are for: a timeout of 65 ms to 210 ms, and nothing else in
its register. -/
def tuned (p : Slot) : Slot := tunedBy (setField 0xf 0x6) p

/-- **Tuning changes only its own fields**, in every order, and a second run changes
nothing. -/
def OnlyItsFields (p : Slot) : Prop :=
  ∀ ts, ts.Perm Tuning.all → tune ts p = tuned p ∧
    ∀ ts', ts'.Perm Tuning.all → tune ts' (tune ts p) = tune ts p

/-- The Device Control 2 that is written, if it is, has no bit outside of `0x6`. -/
def OnlyTimeoutBits (p : Slot) : Prop :=
  ∀ bridge, p.self = some bridge → bridge.expCap ≠ 0 → bridge.OffersRangeB →
    bridge.readWord (bridge.expCap + pciExpDevctl2) &&& ~~~0x6 = 0

/-! ### Bits -/

/-- The mask as it is agrees with the right one for the registers without other bits. -/
theorem timeout_eq_iff (c : BitVec 16) :
    (c &&& 0xf) ||| 0x6 = setField 0xf 0x6 c ↔ c &&& ~~~0x6 = 0 := by
  unfold setField
  constructor
  · intro h
    ext i hi
    have hbit := congrArg (fun v => v.getLsbD i) h
    clear h
    interval_cases i <;> simp_all
  · intro h
    ext i hi
    have hbit := congrArg (fun v => v.getLsbD i) h
    clear h
    interval_cases i <;> simp_all

theorem timeout_idem (c : BitVec 16) :
    (((c &&& 0xf) ||| 0x6) &&& 0xf) ||| 0x6 = (c &&& 0xf) ||| 0x6 := by
  ext i hi
  interval_cases i <;> simp

theorem clearCere_eq (v : BitVec 16) :
    v &&& ~~~pciExpDevctlCere = setField pciExpDevctlCere 0 v := by
  simp [setField]

/-- Writing the field of the register itself changes nothing. -/
theorem setField_self (mask v w : BitVec 16) (h : v &&& mask = w &&& mask) :
    setField mask w v = v := by
  rw [setField, ← h]
  ext i hi
  simp only [BitVec.getElem_or, BitVec.getElem_and, BitVec.getElem_not]
  cases v[i] <;> cases mask[i] <;> rfl

theorem setField_idem (mask v w : BitVec 16) :
    setField mask w (setField mask w v) = setField mask w v := by
  refine setField_self mask _ w ?_
  unfold setField
  ext i hi
  simp only [BitVec.getElem_or, BitVec.getElem_and, BitVec.getElem_not]
  cases v[i] <;> cases mask[i] <;> cases w[i] <;> rfl

theorem and_payload_clearCere (v : BitVec 16) :
    setField pciExpDevctlCere 0 v &&& pciExpDevctlPayload = v &&& pciExpDevctlPayload := by
  rw [setField, pciExpDevctlCere, pciExpDevctlPayload]
  ext i hi
  interval_cases i <;> simp

/-! ### The functions on a card below a bridge -/

variable {dev bridge : PciDev}

@[simp] theorem readWord_writeWord_self (pos : ℕ) (v : BitVec 16) :
    (dev.writeWord pos v).readWord pos = v := Function.update_self ..

theorem readWord_writeWord_of_ne {pos pos' : ℕ} (h : pos ≠ pos') (v : BitVec 16) :
    (dev.writeWord pos' v).readWord pos = dev.readWord pos := Function.update_of_ne h ..

@[simp] theorem expCap_writeWord (pos : ℕ) (v : BitVec 16) :
    (dev.writeWord pos v).expCap = dev.expCap := rfl

/-- `shannon_disable_correctable_aer` on the bridge. -/
def quiet (bridge : PciDev) : PciDev :=
  if bridge.expCap = 0 then bridge
  else bridge.writeWord (bridge.expCap + pciExpDevctl)
    (setField pciExpDevctlCere 0 (bridge.readWord (bridge.expCap + pciExpDevctl)))

/-- `shannon_set_bridge_timeout` on the bridge. -/
def setTimeout (bridge : PciDev) : PciDev :=
  if bridge.expCap ≠ 0 ∧ bridge.OffersRangeB then
    bridge.writeWord (bridge.expCap + pciExpDevctl2)
      ((bridge.readWord (bridge.expCap + pciExpDevctl2) &&& 0xf) ||| 0x6)
  else bridge

/-- `shannon_set_max_payload_size` on the card. -/
def setPayload (bridge dev : PciDev) : PciDev :=
  if bridge.expCap = 0 then dev else tuneDev bridge dev

theorem aer_eq : shannonDisableCorrectableAer ⟨dev, some bridge⟩ = ⟨dev, some (quiet bridge)⟩ := by
  simp only [shannonDisableCorrectableAer, quiet, clearCere_eq]
  split_ifs <;> rfl

theorem payload_eq :
    shannonSetMaxPayloadSize ⟨dev, some bridge⟩ = ⟨setPayload bridge dev, some bridge⟩ := by
  simp only [shannonSetMaxPayloadSize, setPayload, tuneDev]
  split_ifs with hdev hcap hcap hne
  all_goals try rfl
  have hself := setField_self pciExpDevctlPayload _
    (bridge.readWord (bridge.expCap + pciExpDevctl)) (not_not.1 hne)
  rw [hself, PciDev.writeWord, PciDev.readWord, Function.update_eq_self]

theorem timeout_of_rangeB (cap : BitVec 32) (h : cap &&& pciExpTimeoutRangeB ≠ 0) :
    cap &&& pciExpDevcap2Timeout ≠ 0 := by
  intro hzero
  apply h
  have hsub : pciExpTimeoutRangeB = pciExpDevcap2Timeout &&& pciExpTimeoutRangeB := by decide
  rw [hsub, ← BitVec.and_assoc, hzero]
  simp

theorem setBridgeTimeout_eq :
    shannonSetBridgeTimeout ⟨dev, some bridge⟩ = ⟨dev, some (setTimeout bridge)⟩ := by
  have hB := timeout_of_rangeB (bridge.readDword (bridge.expCap + pciExpDevcap2))
  by_cases hwrite : bridge.expCap ≠ 0 ∧ bridge.OffersRangeB
  · obtain ⟨hpos, hvers, hrange⟩ := hwrite
    rw [setTimeout, if_pos ⟨hpos, hvers, hrange⟩]
    simp only [shannonSetBridgeTimeout]
    rw [if_neg hpos, if_neg hvers, if_neg (hB hrange), if_pos hrange]
  · rw [setTimeout, if_neg hwrite]
    simp only [shannonSetBridgeTimeout]
    split_ifs with hpos hvers hnone hrange
    all_goals try rfl
    exact absurd ⟨hpos, hvers, hrange⟩ hwrite

/-! ### Every order -/

/-- A register that is not read for it does not change what the bridge offers. -/
theorem offersRangeB_writeWord {reg : ℕ} (hreg : reg ≠ pciExpFlags ∧ reg ≠ pciExpDevcap2 ∧
    reg ≠ pciExpDevcap2 + 2) (v : BitVec 16) :
    (bridge.writeWord (bridge.expCap + reg) v).OffersRangeB ↔ bridge.OffersRangeB := by
  obtain ⟨hflags, hlow, hhigh⟩ := hreg
  have hread (n : ℕ) (hn : reg ≠ n) : (bridge.writeWord (bridge.expCap + reg) v).config
      (bridge.expCap + n) = bridge.config (bridge.expCap + n) :=
    Function.update_of_ne (by omega) ..
  unfold PciDev.OffersRangeB PciDev.readWord PciDev.readDword
  rw [expCap_writeWord, hread _ hflags, hread _ hlow, Nat.add_assoc, hread _ hhigh]

theorem writeWord_comm {pos pos' : ℕ} (h : pos ≠ pos') (v w : BitVec 16) :
    (dev.writeWord pos v).writeWord pos' w = (dev.writeWord pos' w).writeWord pos v := by
  simp only [PciDev.writeWord, Function.update_comm h]

@[simp] theorem writeWord_idem (pos : ℕ) (v w : BitVec 16) :
    (dev.writeWord pos v).writeWord pos w = dev.writeWord pos w := by
  simp only [PciDev.writeWord, Function.update_idem]

theorem expCap_quiet : (quiet bridge).expCap = bridge.expCap := by
  unfold quiet
  split_ifs <;> rfl

theorem expCap_setTimeout : (setTimeout bridge).expCap = bridge.expCap := by
  unfold setTimeout
  split_ifs <;> rfl

theorem offersRangeB_quiet : (quiet bridge).OffersRangeB ↔ bridge.OffersRangeB := by
  unfold quiet
  split_ifs
  · rfl
  · exact offersRangeB_writeWord (by decide) _

theorem offersRangeB_setTimeout : (setTimeout bridge).OffersRangeB ↔ bridge.OffersRangeB := by
  unfold setTimeout
  split_ifs
  · exact offersRangeB_writeWord (by decide) _
  · rfl

theorem devctl_ne_devctl2 (n : ℕ) : n + pciExpDevctl ≠ n + pciExpDevctl2 := by
  simp [pciExpDevctl, pciExpDevctl2]

theorem readDevctl2_quiet : (quiet bridge).readWord (bridge.expCap + pciExpDevctl2)
    = bridge.readWord (bridge.expCap + pciExpDevctl2) := by
  unfold quiet
  split_ifs
  · rfl
  · exact readWord_writeWord_of_ne (devctl_ne_devctl2 _).symm _

theorem readDevctl_setTimeout : (setTimeout bridge).readWord (bridge.expCap + pciExpDevctl)
    = bridge.readWord (bridge.expCap + pciExpDevctl) := by
  unfold setTimeout
  split_ifs
  · exact readWord_writeWord_of_ne (devctl_ne_devctl2 _) _
  · rfl

theorem quiet_setTimeout : quiet (setTimeout bridge) = setTimeout (quiet bridge) := by
  by_cases hcap : bridge.expCap = 0
  · simp [quiet, setTimeout, hcap]
  rw [quiet, if_neg (by rwa [expCap_setTimeout]), expCap_setTimeout, readDevctl_setTimeout,
    setTimeout, setTimeout, expCap_quiet, readDevctl2_quiet]
  by_cases hB : bridge.OffersRangeB
  · rw [if_pos ⟨hcap, hB⟩, if_pos ⟨hcap, offersRangeB_quiet.2 hB⟩, quiet, if_neg hcap,
      writeWord_comm (devctl_ne_devctl2 _)]
  · rw [if_neg (fun h => hB h.2), if_neg (fun h => hB (offersRangeB_quiet.1 h.2)), quiet,
      if_neg hcap]

theorem quiet_idem : quiet (quiet bridge) = quiet bridge := by
  by_cases hcap : bridge.expCap = 0
  · simp [quiet, hcap]
  · rw [quiet, if_neg (by rwa [expCap_quiet]), expCap_quiet, quiet, if_neg hcap,
      readWord_writeWord_self, setField_idem, writeWord_idem]

theorem setTimeout_idem : setTimeout (setTimeout bridge) = setTimeout bridge := by
  by_cases hwrite : bridge.expCap ≠ 0 ∧ bridge.OffersRangeB
  · have hagain : (setTimeout bridge).expCap ≠ 0 ∧ (setTimeout bridge).OffersRangeB :=
      ⟨by rw [expCap_setTimeout]; exact hwrite.1, offersRangeB_setTimeout.2 hwrite.2⟩
    rw [setTimeout, if_pos hagain, expCap_setTimeout, setTimeout, if_pos hwrite,
      readWord_writeWord_self, timeout_idem, writeWord_idem]
  · have hsame : setTimeout bridge = bridge := by rw [setTimeout, if_neg hwrite]
    rw [hsame, hsame]

/-- The payload size of the bridge is all that is read of it. -/
theorem setPayload_congr {bridge' : PciDev} (hcap : bridge'.expCap = bridge.expCap)
    (hfield : bridge'.readWord (bridge.expCap + pciExpDevctl) &&& pciExpDevctlPayload
      = bridge.readWord (bridge.expCap + pciExpDevctl) &&& pciExpDevctlPayload) :
    setPayload bridge' dev = setPayload bridge dev := by
  unfold setPayload tuneDev setField
  rw [hcap, hfield]

theorem setPayload_quiet : setPayload (quiet bridge) dev = setPayload bridge dev := by
  refine setPayload_congr expCap_quiet ?_
  unfold quiet
  split_ifs
  · rfl
  · rw [readWord_writeWord_self, and_payload_clearCere]

theorem setPayload_setTimeout : setPayload (setTimeout bridge) dev = setPayload bridge dev :=
  setPayload_congr expCap_setTimeout (by rw [readDevctl_setTimeout])

theorem setPayload_idem : setPayload bridge (setPayload bridge dev) = setPayload bridge dev := by
  by_cases hbus : bridge.expCap = 0
  · simp [setPayload, hbus]
  by_cases hdev : dev.expCap = 0
  · simp [setPayload, hbus, tuneDev, hdev]
  · simp [setPayload, hbus, tuneDev, hdev, setField_idem]

/-- The functions commute. -/
theorem apply_comm (p : Slot) (x y : Tuning) :
    Tuning.apply (Tuning.apply p x) y = Tuning.apply (Tuning.apply p y) x := by
  obtain ⟨dev, _ | bridge⟩ := p
  · cases x <;> cases y <;> rfl
  · cases x <;> cases y <;>
      simp only [Tuning.apply, aer_eq, payload_eq, setBridgeTimeout_eq, setPayload_quiet,
        setPayload_setTimeout, quiet_setTimeout]

theorem tune_perm {ts : List Tuning} (h : ts.Perm Tuning.all) (p : Slot) :
    tune ts p = tune Tuning.all p :=
  h.foldl_eq' (fun x _ y _ p => apply_comm p x y) p

theorem tune_all : tune Tuning.all ⟨dev, some bridge⟩
    = ⟨setPayload bridge dev, some (setTimeout (quiet bridge))⟩ := by
  simp only [tune, Tuning.all, List.foldl, Tuning.apply, aer_eq, payload_eq, setBridgeTimeout_eq,
    setPayload_quiet]

theorem tune_all_idem (p : Slot) : tune Tuning.all (tune Tuning.all p) = tune Tuning.all p := by
  obtain ⟨dev, _ | bridge⟩ := p
  · rfl
  · rw [tune_all, tune_all, quiet_setTimeout, quiet_idem, setTimeout_idem, setPayload_setTimeout,
      setPayload_quiet, setPayload_idem]

/-- What the code does: all as intended, but for the mask of the timeout. -/
theorem tune_all_eq_tunedBy (p : Slot) :
    tune Tuning.all p = tunedBy (fun c => (c &&& 0xf) ||| 0x6) p := by
  obtain ⟨dev, _ | bridge⟩ := p
  · rfl
  rw [tune_all, tunedBy]
  by_cases hcap : bridge.expCap = 0
  · simp [setPayload, setTimeout, quiet, hcap]
  · simp only [if_neg hcap, setPayload, tuneBridge]
    rw [setTimeout, expCap_quiet, readDevctl2_quiet]
    by_cases hB : bridge.OffersRangeB
    · rw [if_pos ⟨hcap, offersRangeB_quiet.2 hB⟩, if_pos hB, quiet, if_neg hcap]
    · rw [if_neg (fun h => hB (offersRangeB_quiet.1 h.2)), if_neg hB, quiet, if_neg hcap]

/-- Two ways to set the timeout have the same effect where they agree on the register that
is written, if one is. -/
theorem tunedBy_eq_iff (f g : BitVec 16 → BitVec 16) (p : Slot) : tunedBy f p = tunedBy g p ↔
    ∀ bridge, p.self = some bridge → bridge.expCap ≠ 0 → bridge.OffersRangeB →
      f (bridge.readWord (bridge.expCap + pciExpDevctl2))
        = g (bridge.readWord (bridge.expCap + pciExpDevctl2)) := by
  obtain ⟨dev, _ | bridge⟩ := p
  · simp [tunedBy]
  by_cases hcap : bridge.expCap = 0
  · simp [tunedBy, hcap]
  by_cases hB : bridge.OffersRangeB
  · simp only [tunedBy, tuneBridge, Option.some.injEq, forall_eq', ne_eq, hcap, not_false_eq_true,
      hB, forall_const, if_true, if_false, Slot.mk.injEq, true_and]
    constructor
    · intro h
      have hread := congrArg (fun b => PciDev.readWord b (bridge.expCap + pciExpDevctl2)) h
      simpa only [readWord_writeWord_self] using hread
    · intro h
      rw [h]
  · simp [tunedBy, hcap, tuneBridge, hB]

/-- **Where tuning changes only its own fields.**  For every card and bridge: in every order
the three functions do what they are for, and a second run changes nothing, exactly when
the Device Control 2 of the bridge has no bit outside of `0x6` set before, or is not
written: there is no bridge, or it has no capability of version 2 with timeout range B. -/
theorem onlyItsFields_iff (p : Slot) : OnlyItsFields p ↔ OnlyTimeoutBits p := by
  have hcode : (∀ ts, ts.Perm Tuning.all → tune ts p = tuned p) ↔ OnlyTimeoutBits p := by
    have hmask := tunedBy_eq_iff (fun c => (c &&& 0xf) ||| 0x6) (setField 0xf 0x6) p
    rw [← tune_all_eq_tunedBy] at hmask
    simp only [timeout_eq_iff] at hmask
    rw [OnlyTimeoutBits, ← hmask]
    exact ⟨fun h => h _ (List.Perm.refl _), fun h ts hts => (tune_perm hts p).trans h⟩
  rw [← hcode]
  refine ⟨fun h ts hts => (h ts hts).1, fun h ts hts => ⟨h ts hts, fun ts' hts' => ?_⟩⟩
  rw [tune_perm hts', tune_perm hts, tune_all_idem]

/-- A bridge with ARI forwarding on (bit 5 of Device Control 2), and a card. -/
def ariSlot : Slot where
  dev := ⟨0x40, fun _ => 0⟩
  self := some ⟨0x40, fun pos => if pos = 0x42 then 2 else if pos = 0x64 then 2
    else if pos = 0x68 then 0x20 else 0⟩

/-- ARI forwarding is turned off. -/
theorem ariSlot_not_onlyItsFields :
    ((tune Tuning.all ariSlot).self.map fun b => b.readWord 0x68) = some 0x6 ∧
      ((tuned ariSlot).self.map fun b => b.readWord 0x68) = some 0x26 ∧
      ¬OnlyItsFields ariSlot := by
  have hcode : ((tune Tuning.all ariSlot).self.map fun b => b.readWord 0x68) = some 0x6 := by
    decide
  have htuned : ((tuned ariSlot).self.map fun b => b.readWord 0x68) = some 0x26 := by decide
  refine ⟨hcode, htuned, fun h => ?_⟩
  rw [(h _ (List.Perm.refl _)).1, htuned] at hcode
  exact absurd hcode (by decide)

end Pci
end Shannon
