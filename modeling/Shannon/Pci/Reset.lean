/-
# Resetting the function

`shannon_pci_reset_function` of `shannon_pci.c` tries four ways to reset the card: a
function level reset of its PCI Express capability or of its AF capability, the way from
D3hot to D0, and a reset of the bus it is alone on.  `-ENOTTY` means "try the next".

| method | needs | returns when performed |
| --- | --- | --- |
| `shannon_pcie_flr` | `PCI_EXP_DEVCAP_FLR` | 0 |
| `shannon_pci_af_flr` | `PCI_AF_CAP_TP` and `PCI_AF_CAP_FLR` | 0 |
| `shannon_pci_pm_reset` | no `PCI_PM_CTRL_NO_SOFT_RESET`, D0 | `-ENOTTY` |
| `shannon_pci_parent_bus_reset` | no other device on the bus | `-ENOTTY` |

The functions are modelled by what they do to the hardware, one `Act` after the other, and
the value they return.
-/

import Mathlib.Algebra.Group.Nat.Defs
import Mathlib.Data.Int.Notation
import Mathlib.Data.List.Basic
import Mathlib.Tactic.Tauto

namespace Shannon
namespace Pci

/-- `dev->current_state`. -/
inductive PowerState
  | d0 | d1 | d2 | d3hot | d3cold | unknown | error
  deriving DecidableEq, Repr

/-- What the methods read of the device, its capabilities and its bus.  A capability that
is absent is at offset 0.  `expStatus i` and `afStatus i` are what the `i`-th read of the
status register returns. -/
structure PciFunction where
  expCap : ℕ
  expDevcap : BitVec 32
  expStatus : ℕ → BitVec 16
  expDevctl : BitVec 16
  afCap : ℕ
  afCapByte : BitVec 8
  afStatus : ℕ → BitVec 8
  pmCap : ℕ
  pmCtrl : BitVec 16
  currentState : PowerState
  d3Delay : ℕ
  self : ℕ
  isRootBus : Bool
  subordinate : Bool
  busDevices : List ℕ
  /-- `PCI_BRIDGE_CONTROL` of `dev->bus->self`, if there is one. -/
  bridgeControl : Option (BitVec 16)

/-- What is done to the hardware. -/
inductive Act
  | saveState
  | restoreState
  | readStatus
  | msleep (ms : ℕ)
  | devErr (text : String)
  | writeCommand (v : BitVec 16)
  | writeDevctl (v : BitVec 16)
  | writeAfCtrl (v : BitVec 8)
  | writePmCtrl (v : BitVec 16)
  | writeBridgeControl (v : BitVec 16)
  deriving DecidableEq, Repr

def ENOTTY : ℤ := 25
def EINVAL : ℤ := 22

def pciExpDevcapFlr : BitVec 32 := 0x10000000
def pciExpDevstaTrpnd : BitVec 16 := 0x0020
def pciExpDevctlBcrFlr : BitVec 16 := 0x8000
def pciAfCapTp : BitVec 8 := 0x01
def pciAfCapFlr : BitVec 8 := 0x02
def pciAfStatusTp : BitVec 8 := 0x01
def pciAfCtrlFlr : BitVec 8 := 0x01
def pciPmCtrlNoSoftReset : BitVec 16 := 0x0008
def pciPmCtrlStateMask : BitVec 16 := 0x0003
def pciD0 : BitVec 16 := 0
def pciD3hot : BitVec 16 := 3
def pciBridgeCtlBusReset : BitVec 16 := 0x0040
def pciCommandIntxDisable : BitVec 16 := 0x0400

/-! ### The methods -/

/-- Wait for the transaction pending bit, `n` reads more, the next of them the `i`-th. -/
def waitClear (pending : ℕ → Bool) : (n i : ℕ) → List Act
  | 0, _ => [.devErr "transaction is not cleared; proceeding with reset anyway\n"]
  | n + 1, i =>
      (if i = 0 then [] else [.msleep (2 ^ (i - 1) * 100)]) ++ .readStatus ::
        if pending i then waitClear pending n (i + 1) else []

/-- `shannon_pcie_flr`. -/
def shannonPcieFlr (dev : PciFunction) : List Act × ℤ :=
  if dev.expCap = 0 then ([], -ENOTTY)
  else if dev.expDevcap &&& pciExpDevcapFlr = 0 then ([], -ENOTTY)
  else (waitClear (fun i => dev.expStatus i &&& pciExpDevstaTrpnd ≠ 0) 4 0 ++
    [.writeDevctl (dev.expDevctl ||| pciExpDevctlBcrFlr), .msleep 100], 0)

/-- `shannon_pci_af_flr`. -/
def shannonPciAfFlr (dev : PciFunction) : List Act × ℤ :=
  if dev.afCap = 0 then ([], -ENOTTY)
  else if dev.afCapByte &&& pciAfCapTp = 0 ∨ dev.afCapByte &&& pciAfCapFlr = 0 then ([], -ENOTTY)
  else (waitClear (fun i => dev.afStatus i &&& pciAfStatusTp ≠ 0) 4 0 ++
    [.writeAfCtrl pciAfCtrlFlr, .msleep 100], 0)

/-- `shannon_pci_pm_reset`. -/
def shannonPciPmReset (dev : PciFunction) : List Act × ℤ :=
  if dev.pmCap = 0 then ([], -ENOTTY)
  else if dev.pmCtrl &&& pciPmCtrlNoSoftReset ≠ 0 then ([], -ENOTTY)
  else if dev.currentState ≠ .d0 then ([], -EINVAL)
  else
    let csr := (dev.pmCtrl &&& ~~~pciPmCtrlStateMask) ||| pciD3hot
    let csr' := (csr &&& ~~~pciPmCtrlStateMask) ||| pciD0
    ([.writePmCtrl csr, .msleep dev.d3Delay, .writePmCtrl csr', .msleep dev.d3Delay], -ENOTTY)

/-- `shannon_pci_parent_bus_reset`. -/
def shannonPciParentBusReset (dev : PciFunction) : List Act × ℤ :=
  match dev.bridgeControl with
  | none => ([], -ENOTTY)
  | some ctrl =>
      if dev.isRootBus ∨ dev.subordinate then ([], -ENOTTY)
      else if dev.busDevices.any fun pdev => pdev ≠ dev.self then ([], -ENOTTY)
      else
        let ctrl := ctrl ||| pciBridgeCtlBusReset
        let ctrl' := ctrl &&& ~~~pciBridgeCtlBusReset
        ([.writeBridgeControl ctrl, .msleep 100, .writeBridgeControl ctrl', .msleep 100], -ENOTTY)

/-- `if (rc != -ENOTTY) goto done`, and else the next method. -/
def orNext (r next : List Act × ℤ) : List Act × ℤ :=
  if r.2 ≠ -ENOTTY then r else (r.1 ++ next.1, next.2)

/-- The chain of the four methods. -/
def resetMethods (dev : PciFunction) : List Act × ℤ :=
  orNext (shannonPcieFlr dev) (orNext (shannonPciAfFlr dev)
    (orNext (shannonPciPmReset dev) (shannonPciParentBusReset dev)))

/-- `shannon_pci_reset_function` on a device that is not `NULL`. -/
def shannonPciResetFunction (dev : PciFunction) : List Act × ℤ :=
  (.saveState :: .writeCommand pciCommandIntxDisable :: (resetMethods dev).1 ++ [.restoreState],
    (resetMethods dev).2)

/-! ### Resets performed -/

inductive Method
  | flr | afFlr | pm | bus
  deriving DecidableEq, Repr

/-- The resets the hardware performs on the way: a function level reset when its bit is
written, a bus reset when its bit is set, and one on the way to D0 from D3hot, where `d3`
says whether the device has been sent. -/
def performed : (d3 : Bool) → List Act → List Method
  | _, [] => []
  | d3, .writeDevctl v :: acts =>
      (if v &&& pciExpDevctlBcrFlr ≠ 0 then [.flr] else []) ++ performed d3 acts
  | d3, .writeAfCtrl v :: acts =>
      (if v &&& pciAfCtrlFlr ≠ 0 then [.afFlr] else []) ++ performed d3 acts
  | d3, .writePmCtrl v :: acts =>
      (if d3 = true ∧ v &&& pciPmCtrlStateMask = pciD0 then [.pm] else []) ++
        performed (v &&& pciPmCtrlStateMask = pciD3hot) acts
  | d3, .writeBridgeControl v :: acts =>
      (if v &&& pciBridgeCtlBusReset ≠ 0 then [.bus] else []) ++ performed d3 acts
  | d3, _ :: acts => performed d3 acts

section

variable (dev : PciFunction)

/-- The device can do a function level reset. -/
def FlrApplicable : Prop := dev.expCap ≠ 0 ∧ dev.expDevcap &&& pciExpDevcapFlr ≠ 0

/-- Its AF capability can. -/
def AfFlrApplicable : Prop :=
  dev.afCap ≠ 0 ∧ dev.afCapByte &&& pciAfCapTp ≠ 0 ∧ dev.afCapByte &&& pciAfCapFlr ≠ 0

/-- It is reset on the way from D3hot to D0. -/
def PmApplicable : Prop := dev.pmCap ≠ 0 ∧ dev.pmCtrl &&& pciPmCtrlNoSoftReset = 0

/-- It is the only device on a bus below a bridge. -/
def BusApplicable : Prop :=
  dev.isRootBus = false ∧ dev.subordinate = false ∧ dev.bridgeControl.isSome = true ∧
    ∀ pdev ∈ dev.busDevices, pdev = dev.self

/-- **One reset, reported truthfully.** -/
structure Truthful : Prop where
  /-- At most one reset is performed. -/
  one : (performed false (shannonPciResetFunction dev).1).length ≤ 1
  /-- 0 is returned exactly when one was. -/
  zero_iff : (shannonPciResetFunction dev).2 = 0 ↔
    performed false (shannonPciResetFunction dev).1 ≠ []
  /-- Any other value is an error. -/
  error : (shannonPciResetFunction dev).2 = 0 ∨ (shannonPciResetFunction dev).2 < 0
  /-- In D0, one is performed if a method is applicable. -/
  performs : dev.currentState = .d0 →
    FlrApplicable dev ∨ AfFlrApplicable dev ∨ PmApplicable dev ∨ BusApplicable dev →
    performed false (shannonPciResetFunction dev).1 ≠ []
  /-- The state saved at the beginning is restored at the end. -/
  restores : ∃ acts, (shannonPciResetFunction dev).1 = .saveState :: acts ++ [.restoreState]

end

/-! ### The methods one by one -/

/-- Nothing is reset while waiting. -/
theorem performed_waitClear (pending : ℕ → Bool) (n i : ℕ) (acts : List Act) :
    performed false (waitClear pending n i ++ acts) = performed false acts := by
  induction n generalizing i with
  | zero => rfl
  | succ n ih =>
      have htail : performed false ((if pending i then waitClear pending n (i + 1) else []) ++ acts)
          = performed false acts := by
        split_ifs
        · exact ih (i + 1)
        · rfl
      rw [waitClear]
      split_ifs at htail ⊢ <;> simp [performed, htail]

/-- A bit that is set is set. -/
theorem or_and_self_ne_zero {n : ℕ} (v mask : BitVec n) (h : mask ≠ 0) :
    (v ||| mask) &&& mask ≠ 0 := by
  have heq : (v ||| mask) &&& mask = mask := by
    ext i hi
    simp only [BitVec.getElem_and, BitVec.getElem_or]
    cases v[i] <;> cases mask[i] <;> rfl
  rwa [heq]

theorem and_not_and_self {n : ℕ} (v mask : BitVec n) : (v &&& ~~~mask) &&& mask = 0 := by
  ext i hi
  simp

theorem setState_and (v state : BitVec 16)
    (h : state &&& pciPmCtrlStateMask = state) :
    ((v &&& ~~~pciPmCtrlStateMask) ||| state) &&& pciPmCtrlStateMask = state := by
  have hor : ∀ a b c : BitVec 16, (a ||| b) &&& c = (a &&& c) ||| (b &&& c) := by
    intro a b c
    ext i hi
    simp only [BitVec.getElem_and, BitVec.getElem_or, Bool.and_or_distrib_right]
  rw [hor, and_not_and_self, h]
  simp

variable {dev : PciFunction}

theorem pcieFlr_eq (h : FlrApplicable dev) :
    ∃ acts, shannonPcieFlr dev = (acts, 0) ∧
      ∀ rest, performed false (acts ++ rest) = .flr :: performed false rest := by
  rw [shannonPcieFlr, if_neg h.1, if_neg h.2]
  refine ⟨_, rfl, fun rest => ?_⟩
  rw [List.append_assoc, performed_waitClear]
  have hbit := or_and_self_ne_zero dev.expDevctl pciExpDevctlBcrFlr (by decide)
  simp only [List.cons_append, List.nil_append, performed, if_pos hbit]

theorem pcieFlr_of_not (h : ¬FlrApplicable dev) : shannonPcieFlr dev = ([], -ENOTTY) := by
  unfold shannonPcieFlr
  split_ifs with hcap hflr
  · rfl
  · rfl
  · exact absurd ⟨hcap, hflr⟩ h

theorem afFlr_eq (h : AfFlrApplicable dev) :
    ∃ acts, shannonPciAfFlr dev = (acts, 0) ∧
      ∀ rest, performed false (acts ++ rest) = .afFlr :: performed false rest := by
  rw [shannonPciAfFlr, if_neg h.1, if_neg (not_or.2 h.2)]
  refine ⟨_, rfl, fun rest => ?_⟩
  rw [List.append_assoc, performed_waitClear]
  rfl

theorem afFlr_of_not (h : ¬AfFlrApplicable dev) : shannonPciAfFlr dev = ([], -ENOTTY) := by
  unfold shannonPciAfFlr
  split_ifs with hcap hflr
  · rfl
  · rfl
  · exact absurd ⟨hcap, not_or.1 hflr⟩ h

/-- The reset is performed and `-ENOTTY` returned. -/
theorem pmReset_eq (h : PmApplicable dev) (hstate : dev.currentState = .d0) :
    ∃ acts, shannonPciPmReset dev = (acts, -ENOTTY) ∧
      ∀ rest, performed false (acts ++ rest) = .pm :: performed false rest := by
  rw [shannonPciPmReset, if_neg h.1, if_neg (not_not.2 h.2), if_neg (not_not.2 hstate)]
  refine ⟨_, rfl, fun rest => ?_⟩
  have hd3 := setState_and dev.pmCtrl pciD3hot (by decide)
  have hd0 (v : BitVec 16) := setState_and v pciD0 (by decide)
  simp only [List.cons_append, List.nil_append, performed, hd3, hd0]
  rfl

theorem pmReset_of_not (h : ¬PmApplicable dev) : shannonPciPmReset dev = ([], -ENOTTY) := by
  unfold shannonPciPmReset
  split_ifs with hcap hsoft
  · rfl
  · rfl
  all_goals exact absurd ⟨hcap, not_not.1 hsoft⟩ h

theorem pmReset_of_state (h : PmApplicable dev) (hstate : dev.currentState ≠ .d0) :
    shannonPciPmReset dev = ([], -EINVAL) := by
  rw [shannonPciPmReset, if_neg h.1, if_neg (not_not.2 h.2), if_pos hstate]

/-- The reset is performed and `-ENOTTY` returned. -/
theorem parentBusReset_eq (h : BusApplicable dev) :
    ∃ acts, shannonPciParentBusReset dev = (acts, -ENOTTY) ∧
      ∀ rest, performed false (acts ++ rest) = .bus :: performed false rest := by
  obtain ⟨hroot, hsub, hbridge, hall⟩ := h
  obtain ⟨ctrl, hctrl⟩ := Option.isSome_iff_exists.1 hbridge
  have hany : dev.busDevices.any (fun pdev => pdev ≠ dev.self) = false := by
    rw [List.any_eq_false]
    intro pdev hpdev
    simp [hall pdev hpdev]
  simp only [shannonPciParentBusReset, hctrl, hroot, hsub, hany, Bool.false_eq_true, or_self,
    if_false]
  refine ⟨_, rfl, fun rest => ?_⟩
  simp only [List.cons_append, List.nil_append, performed, and_not_and_self,
    ne_eq, or_and_self_ne_zero _ pciBridgeCtlBusReset (by decide)]
  rfl

theorem parentBusReset_of_not (h : ¬BusApplicable dev) :
    shannonPciParentBusReset dev = ([], -ENOTTY) := by
  unfold shannonPciParentBusReset
  split
  · rfl
  · rename_i ctrl hctrl
    split_ifs with hbus hany
    · rfl
    · rfl
    · refine absurd ⟨?_, ?_, ?_, ?_⟩ h
      · exact Bool.eq_false_iff.2 fun hroot => hbus (.inl hroot)
      · exact Bool.eq_false_iff.2 fun hsub => hbus (.inr hsub)
      · rw [hctrl]
        rfl
      · intro pdev hpdev
        by_contra hne
        exact hany (List.any_eq_true.2 ⟨pdev, hpdev, by simpa using hne⟩)

/-! ### The chain -/

theorem orNext_eq {acts : List Act} {rc : ℤ} (h : rc ≠ -ENOTTY) (next : List Act × ℤ) :
    orNext (acts, rc) next = (acts, rc) := if_pos h

theorem orNext_enotty (acts : List Act) (next : List Act × ℤ) :
    orNext (acts, -ENOTTY) next = (acts ++ next.1, next.2) := if_neg (not_not.2 rfl)

instance (dev : PciFunction) : Decidable (FlrApplicable dev) :=
  inferInstanceAs (Decidable (_ ∧ _))

instance (dev : PciFunction) : Decidable (AfFlrApplicable dev) :=
  inferInstanceAs (Decidable (_ ∧ _ ∧ _))

instance (dev : PciFunction) : Decidable (PmApplicable dev) :=
  inferInstanceAs (Decidable (_ ∧ _))

instance (dev : PciFunction) : Decidable (BusApplicable dev) :=
  inferInstanceAs (Decidable (_ ∧ _ ∧ _ ∧ _))

/-- The resets the end of the chain performs. -/
def busResets (dev : PciFunction) : List Method := if BusApplicable dev then [.bus] else []

/-- The resets of the last two methods, in D0. -/
def lastResets (dev : PciFunction) : List Method :=
  if PmApplicable dev then .pm :: busResets dev else busResets dev

/-- The resets performed and the value returned. -/
def outcome (dev : PciFunction) : List Method × ℤ :=
  if FlrApplicable dev then ([.flr], 0)
  else if AfFlrApplicable dev then ([.afFlr], 0)
  else if PmApplicable dev ∧ dev.currentState ≠ .d0 then ([], -EINVAL)
  else (lastResets dev, -ENOTTY)

theorem parentBusReset_performed (dev : PciFunction) :
    ∃ acts, shannonPciParentBusReset dev = (acts, -ENOTTY) ∧
      performed false (acts ++ [.restoreState]) = busResets dev := by
  unfold busResets
  split_ifs with hbus
  · obtain ⟨acts, heq, hperformed⟩ := parentBusReset_eq hbus
    exact ⟨acts, heq, hperformed _⟩
  · exact ⟨[], parentBusReset_of_not hbus, rfl⟩

/-- **What the chain does**, for every device. -/
theorem resetFunction_outcome (dev : PciFunction) :
    (performed false (shannonPciResetFunction dev).1, (shannonPciResetFunction dev).2)
      = outcome dev := by
  have hreport {acts : List Act} {rc : ℤ} (h : resetMethods dev = (acts, rc)) :
      (performed false (shannonPciResetFunction dev).1, (shannonPciResetFunction dev).2)
        = (performed false (acts ++ [.restoreState]), rc) := by
    rw [shannonPciResetFunction, h]
    rfl
  unfold outcome
  split_ifs with hflr haf hstate
  · obtain ⟨acts, heq, hperformed⟩ := pcieFlr_eq hflr
    have h : resetMethods dev = (acts, 0) := by
      rw [resetMethods, heq, orNext_eq (by decide)]
    rw [hreport h, hperformed]
    rfl
  all_goals have hfirst := pcieFlr_of_not hflr
  · obtain ⟨acts, heq, hperformed⟩ := afFlr_eq haf
    have h : resetMethods dev = (acts, 0) := by
      rw [resetMethods, hfirst, heq, orNext_enotty, orNext_eq (by decide), List.nil_append]
    rw [hreport h, hperformed]
    rfl
  all_goals have hsecond := afFlr_of_not haf
  · have h : resetMethods dev = ([], -EINVAL) := by
      rw [resetMethods, hfirst, hsecond, pmReset_of_state hstate.1 hstate.2, orNext_enotty,
        orNext_enotty, orNext_eq (by decide)]
      rfl
    rw [hreport h]
    rfl
  · obtain ⟨acts, heq, hbus⟩ := parentBusReset_performed dev
    unfold lastResets
    split_ifs with hpm
    · have hd0 : dev.currentState = .d0 := not_not.1 fun h => hstate ⟨hpm, h⟩
      obtain ⟨acts', heq', hperformed⟩ := pmReset_eq hpm hd0
      have h : resetMethods dev = (acts' ++ acts, -ENOTTY) := by
        rw [resetMethods, hfirst, hsecond, heq', heq, orNext_enotty, orNext_enotty, orNext_enotty]
        rfl
      rw [hreport h, List.append_assoc, hperformed, hbus]
    · have h : resetMethods dev = (acts, -ENOTTY) := by
        rw [resetMethods, hfirst, hsecond, pmReset_of_not hpm, heq, orNext_enotty, orNext_enotty,
          orNext_enotty]
        rfl
      rw [hreport h, hbus]

theorem lastResets_eq_nil_iff (dev : PciFunction) :
    lastResets dev = [] ↔ ¬PmApplicable dev ∧ ¬BusApplicable dev := by
  unfold lastResets busResets
  by_cases hpm : PmApplicable dev <;> by_cases hbus : BusApplicable dev <;> simp [hpm, hbus]

/-- A reset is performed in D0 if a method is applicable, and the state restored, whatever
is reported. -/
theorem outcome_performs (dev : PciFunction) (hd0 : dev.currentState = .d0)
    (h : FlrApplicable dev ∨ AfFlrApplicable dev ∨ PmApplicable dev ∨ BusApplicable dev) :
    (outcome dev).1 ≠ [] := by
  unfold outcome
  split_ifs with hflr haf hstate
  · simp
  · simp
  · exact absurd hd0 hstate.2
  · intro hnil
    have hlast := (lastResets_eq_nil_iff dev).1 hnil
    tauto

/-- The good outcomes. -/
theorem outcome_of {dev : PciFunction} (h : FlrApplicable dev ∨ AfFlrApplicable dev ∨
    (PmApplicable dev ∧ dev.currentState ≠ .d0) ∨ (¬PmApplicable dev ∧ ¬BusApplicable dev)) :
    (∃ m, outcome dev = ([m], 0)) ∨ outcome dev = ([], -EINVAL) ∨ outcome dev = ([], -ENOTTY) := by
  unfold outcome
  split_ifs with hflr haf hstate
  · exact .inl ⟨.flr, rfl⟩
  · exact .inl ⟨.afFlr, rfl⟩
  · exact .inr (.inl rfl)
  · have hlast : lastResets dev = [] := (lastResets_eq_nil_iff dev).2 (by tauto)
    exact .inr (.inr (by rw [hlast]))

/-- **When one reset is performed and reported.**  For every device, capabilities, power
state, bus and status reads: exactly when the device has a function level reset, of either
kind, or neither of the other two methods comes to be performed: the way through D3hot is
open but the device is not in D0, or it is closed and so is the bus reset.  A reset by one
of these two methods returns `-ENOTTY`, which also makes the chain go on after the first of
them. -/
theorem truthful_iff (dev : PciFunction) : Truthful dev ↔
    FlrApplicable dev ∨ AfFlrApplicable dev ∨ (PmApplicable dev ∧ dev.currentState ≠ .d0) ∨
      (¬PmApplicable dev ∧ ¬BusApplicable dev) := by
  have hresets : performed false (shannonPciResetFunction dev).1 = (outcome dev).1 :=
    congrArg Prod.fst (resetFunction_outcome dev)
  have hrc : (shannonPciResetFunction dev).2 = (outcome dev).2 :=
    congrArg Prod.snd (resetFunction_outcome dev)
  constructor
  · intro h
    by_contra hnot
    obtain ⟨hflr, hnot⟩ := not_or.1 hnot
    obtain ⟨haf, hnot⟩ := not_or.1 hnot
    obtain ⟨hstate, hlast⟩ := not_or.1 hnot
    have heq : outcome dev = (lastResets dev, -ENOTTY) := by
      rw [outcome, if_neg hflr, if_neg haf, if_neg hstate]
    have hne : lastResets dev ≠ [] := mt (lastResets_eq_nil_iff dev).1 hlast
    have hzero := h.zero_iff
    rw [hresets, hrc, heq] at hzero
    have henotty : (-ENOTTY : ℤ) = 0 := hzero.2 hne
    exact absurd henotty (by decide)
  · intro h
    have hrestores : ∃ acts, (shannonPciResetFunction dev).1
        = .saveState :: acts ++ [.restoreState] := ⟨_, rfl⟩
    have hperforms := outcome_performs dev
    rw [← hresets] at hperforms
    obtain ⟨m, heq⟩ | heq | heq := outcome_of h
    all_goals
      rw [heq] at hresets hrc
      exact ⟨by simp [hresets], by simp [hresets, hrc, EINVAL, ENOTTY],
        by simp [hrc, EINVAL, ENOTTY], hperforms, hrestores⟩

/-- A card without function level reset, in D0, whose power management capability resets
it, alone on the bus below a bridge. -/
def plainFunction : PciFunction where
  expCap := 0x70
  expDevcap := 0
  expStatus := fun _ => 0
  expDevctl := 0
  afCap := 0
  afCapByte := 0
  afStatus := fun _ => 0
  pmCap := 0x60
  pmCtrl := 0
  currentState := .d0
  d3Delay := 10
  self := 1
  isRootBus := false
  subordinate := false
  busDevices := [1]
  bridgeControl := some 0

/-- It is reset twice, and the caller is told that it was not. -/
theorem plainFunction_not_truthful :
    performed false (shannonPciResetFunction plainFunction).1 = [.pm, .bus] ∧
      (shannonPciResetFunction plainFunction).2 = -ENOTTY ∧ ¬Truthful plainFunction := by
  have hresets : performed false (shannonPciResetFunction plainFunction).1 = [.pm, .bus] := by
    decide
  refine ⟨hresets, by decide, fun h => ?_⟩
  have hone := h.one
  rw [hresets] at hone
  exact absurd hone (by decide)

end Pci
end Shannon
