/-
# Loading and unloading the module

`shannon_module_init.c`, `shannon_init` and `shannon_exit`: what they take from the
kernel and what they give back, for every value of the parameters and every way in
which the steps can fail.

`register_blkdev` returns three things: the number it has chosen when it is asked for
number zero, zero when it is asked for a certain one, and an error.  `shannon_init`
writes what it returns over the parameter `shannon_major`, which is right for the
first, and looks at it no further.  `balanced_iff` says what is left: loading and
unloading are balanced when the number is chosen by the kernel, and when the
registration fails and a later step does too.
-/

import Mathlib.Algebra.Ring.Int.Defs
import Mathlib.Logic.Function.Basic
import Mathlib.Tactic.Tauto

namespace Shannon
namespace Module

/-! ### The kernel -/

/-- The block majors: the name each number is registered under. -/
@[ext]
structure Majors where
  name : ℕ → Option String
  /-- Number zero stands for any, and there are `BLKDEV_MAJOR_MAX` numbers. -/
  inRange : ∀ m, name m ≠ none → 0 < m ∧ m < 512

/-- What the module can take. -/
@[ext]
structure Kernel where
  majors : Majors
  workqueues : ℤ
  mempools : ℤ
  drivers : ℤ

/-- What `register_blkdev(major, "shannon")` does: it fails, or it takes a number that
is free, the one it is asked for or, for zero, one of its choice. -/
inductive Registration (t : Majors) (major : ℤ) where
  | chosen (m : ℕ) (hzero : major = 0) (hm : 0 < m ∧ m < 512) (hfree : t.name m = none)
  | asked (m : ℕ) (hmajor : major = m) (hm : 0 < m ∧ m < 512) (hfree : t.name m = none)
  | failed (err : ℕ) (herr : 0 < err ∧ err < 4096)

/-- One number is registered under `"shannon"`. -/
def Majors.register (t : Majors) (m : ℕ) (hm : 0 < m ∧ m < 512) : Majors where
  name := Function.update t.name m (some "shannon")
  inRange := by
    intro m' h
    rcases eq_or_ne m' m with rfl | hne
    · exact hm
    · rw [Function.update_of_ne hne] at h
      exact t.inRange m' h

namespace Registration

variable {t : Majors} {major : ℤ}

/-- What it returns. -/
def ret : Registration t major → ℤ
  | chosen m _ _ _ => m
  | asked _ _ _ _ => 0
  | failed err _ => -err

/-- The majors afterwards. -/
def majors : Registration t major → Majors
  | chosen m _ hm _ | asked m _ hm _ => t.register m hm
  | failed _ _ => t

/-- It fails. -/
def Fails (r : Registration t major) : Prop := r.ret < 0

instance (r : Registration t major) : Decidable r.Fails := inferInstanceAs (Decidable (_ < _))

end Registration

/-- `unregister_blkdev(major, "shannon")`, whose argument is unsigned: a number that is
not registered under this name stays as it is. -/
def Majors.unregister (t : Majors) (major : ℤ) : Majors where
  name m := if m = (major % 2 ^ 32).toNat ∧ t.name m = some "shannon" then none else t.name m
  inRange := by
    intro m h
    split_ifs at h
    · exact absurd rfl h
    · exact t.inRange m h

/-! ### `shannon_init` and `shannon_exit` -/

/-- The parameters the two functions look at. -/
structure Params where
  shannonMajor : ℤ
  shannonUsePercpuWq : ℤ
  shannonScsiMode : ℤ

/-- How the steps of `shannon_init` go. -/
structure Outcomes (k : Kernel) (p : Params) where
  register : Registration k.majors p.shannonMajor
  /-- `shannon_create_workqueue` returns a queue. -/
  workqueue : Bool
  /-- What `shannon_alloc_mempool` returns. -/
  mempool : ℤ
  /-- What `pci_register_driver` returns, zero or an error. -/
  pci : ℤ
  pci_nonpos : pci ≤ 0

/-- The variables of the module that the two functions share. -/
structure Vars where
  shannonMajor : ℤ
  /-- `shannon_percpu_wq` is not `NULL`. -/
  shannonPercpuWq : Bool

/-- After `shannon_init`. -/
structure Loaded where
  ret : ℤ
  kernel : Kernel
  vars : Vars

/-- The label `unregister_blkdev`. -/
def unregisterBlkdev (k : Kernel) (v : Vars) : Kernel :=
  { k with majors := k.majors.unregister v.shannonMajor }

/-- The label `destroy_wq`. -/
def destroyWq (k : Kernel) (v : Vars) : Kernel :=
  unregisterBlkdev { k with workqueues := k.workqueues - if v.shannonPercpuWq then 1 else 0 } v

/-- The label `free_mempool`. -/
def freeMempool (k : Kernel) (v : Vars) : Kernel :=
  destroyWq { k with mempools := k.mempools - 1 } v

/-- `shannon_use_percpu_wq` when it is looked at. -/
def usesPercpuWq (p : Params) : Bool := p.shannonScsiMode ≠ 0 ∨ p.shannonUsePercpuWq ≠ 0

/-- `shannon_init`, from the allocation of the mempool on. -/
def initMempool {k : Kernel} {p : Params} (o : Outcomes k p) (k : Kernel) (v : Vars) : Loaded :=
  if o.mempool ≠ 0 then ⟨-12, destroyWq k v, v⟩
  else
    let k := { k with mempools := k.mempools + 1 }
    if o.pci ≠ 0 then ⟨o.pci, freeMempool k v, v⟩
    else ⟨0, { k with drivers := k.drivers + 1 }, v⟩

/-- `shannon_init`. -/
def shannonInit (k : Kernel) (p : Params) (o : Outcomes k p) : Loaded :=
  let v : Vars := ⟨o.register.ret, false⟩
  let k := { k with majors := o.register.majors }
  if usesPercpuWq p then
    if o.workqueue then
      initMempool o { k with workqueues := k.workqueues + 1 } { v with shannonPercpuWq := true }
    else ⟨-12, unregisterBlkdev k v, v⟩
  else initMempool o k v

/-- `shannon_exit`. -/
def shannonExit (k : Kernel) (v : Vars) : Kernel :=
  freeMempool { k with drivers := k.drivers - 1 } v

/-! ### Balance -/

variable {k : Kernel} {p : Params}

/-- A step behind the registration fails. -/
def Outcomes.LaterFails (o : Outcomes k p) : Prop :=
  (usesPercpuWq p = true ∧ o.workqueue = false) ∨ o.mempool ≠ 0 ∨ o.pci ≠ 0

/-- Loading and unloading are balanced: a load that succeeds has registered a free
number, which `shannon_major` holds, and unloading gives everything back and nothing
else; a load with a step that fails returns an error and has taken nothing. -/
structure Balanced (o : Outcomes k p) : Prop where
  registered : (shannonInit k p o).ret = 0 → ∃ m : ℕ,
    (shannonInit k p o).vars.shannonMajor = m ∧ k.majors.name m = none ∧
      (shannonInit k p o).kernel.majors.name m = some "shannon"
  unloaded : (shannonInit k p o).ret = 0 →
    shannonExit (shannonInit k p o).kernel (shannonInit k p o).vars = k
  failed : o.register.Fails ∨ o.LaterFails →
    (shannonInit k p o).ret < 0 ∧ (shannonInit k p o).kernel = k

/-! ### The majors -/

/-- Unregistering the number that was taken gives the majors back. -/
theorem Majors.unregister_register {t : Majors} {m : ℕ} (hm : 0 < m ∧ m < 512)
    (hfree : t.name m = none) : (t.register m hm).unregister m = t := by
  ext1
  funext m'
  have hmod : ((m : ℤ) % 2 ^ 32).toNat = m := by omega
  simp only [Majors.unregister, Majors.register, hmod]
  rcases eq_or_ne m' m with rfl | hne
  · rw [Function.update_self, if_pos ⟨rfl, rfl⟩, hfree]
  · rw [if_neg fun h => hne h.1, Function.update_of_ne hne]

/-- An error is no number: nothing is unregistered. -/
theorem Majors.unregister_neg {t : Majors} {err : ℕ} (herr : 0 < err ∧ err < 4096) :
    t.unregister (-err) = t := by
  ext1
  funext m
  simp only [Majors.unregister]
  refine if_neg ?_
  rintro ⟨hm, hname⟩
  have := t.inRange m (by simp [hname])
  omega

/-- Unregistering number zero leaves the number that was asked for registered. -/
theorem Majors.name_unregister_zero (t : Majors) {m : ℕ} (hm : 0 < m ∧ m < 512) :
    ((t.register m hm).unregister 0).name m = some "shannon" := by
  have hne : ¬(m = ((0 : ℤ) % 2 ^ 32).toNat ∧ (t.register m hm).name m = some "shannon") := by
    rintro ⟨hzero, -⟩
    omega
  exact (if_neg hne).trans (Function.update_self ..)

/-! ### The two functions -/

/-- The kernel when only the registration is left of `shannon_init`. -/
def afterUnwind (o : Outcomes k p) : Kernel :=
  { k with majors := o.register.majors.unregister o.register.ret }

/-- From the mempool on, a failure undoes what was done from there on. -/
theorem initMempool_fails (o : Outcomes k p) (k' : Kernel) (v : Vars)
    (h : o.mempool ≠ 0 ∨ o.pci ≠ 0) :
    (initMempool o k' v).ret < 0 ∧ (initMempool o k' v).kernel = destroyWq k' v := by
  have hpci := o.pci_nonpos
  unfold initMempool
  split_ifs with hmempool hpci'
  · exact ⟨by show (-12 : ℤ) < 0; decide, rfl⟩
  · exact ⟨by show o.pci < 0; omega, by simp [freeMempool]⟩
  · omega

/-- And a success takes the mempool and the driver. -/
theorem initMempool_succeeds (o : Outcomes k p) (k' : Kernel) (v : Vars) (hmempool : o.mempool = 0)
    (hpci : o.pci = 0) :
    initMempool o k' v
      = ⟨0, { k' with mempools := k'.mempools + 1, drivers := k'.drivers + 1 }, v⟩ := by
  simp [initMempool, hmempool, hpci]

/-- **A step behind the registration fails**: everything is undone, down to the
number `shannon_major` holds. -/
theorem shannonInit_fails (o : Outcomes k p) (h : o.LaterFails) :
    (shannonInit k p o).ret < 0 ∧ (shannonInit k p o).kernel = afterUnwind o := by
  unfold shannonInit
  dsimp only
  split_ifs with huse hwq
  · have hlater : o.mempool ≠ 0 ∨ o.pci ≠ 0 := by
      rcases h with ⟨-, hwq'⟩ | h
      · simp [hwq] at hwq'
      · exact h
    obtain ⟨hret, hkernel⟩ := initMempool_fails o _ _ hlater
    exact ⟨hret, by rw [hkernel]; simp [destroyWq, unregisterBlkdev, afterUnwind]⟩
  · exact ⟨by show (-12 : ℤ) < 0; decide, rfl⟩
  · have hlater : o.mempool ≠ 0 ∨ o.pci ≠ 0 := by
      rcases h with ⟨huse', -⟩ | h
      · exact absurd huse' huse
      · exact h
    obtain ⟨hret, hkernel⟩ := initMempool_fails o _ _ hlater
    exact ⟨hret, by rw [hkernel]; simp [destroyWq, unregisterBlkdev, afterUnwind]⟩

/-- **No step behind the registration fails**: the load succeeds, whatever
`register_blkdev` has returned, and unloading undoes it down to the number
`shannon_major` holds. -/
theorem shannonInit_succeeds (o : Outcomes k p) (h : ¬o.LaterFails) :
    (shannonInit k p o).ret = 0 ∧ (shannonInit k p o).vars.shannonMajor = o.register.ret ∧
      (shannonInit k p o).kernel.majors = o.register.majors ∧
      shannonExit (shannonInit k p o).kernel (shannonInit k p o).vars = afterUnwind o := by
  simp only [Outcomes.LaterFails, not_or, not_and, not_not] at h
  obtain ⟨hwq, hmempool, hpci⟩ := h
  unfold shannonInit
  dsimp only
  split_ifs with huse hwq'
  · rw [initMempool_succeeds o _ _ hmempool hpci]
    refine ⟨rfl, rfl, rfl, ?_⟩
    simp [shannonExit, freeMempool, destroyWq, unregisterBlkdev, afterUnwind]
  · exact absurd (hwq huse) (by simpa using hwq')
  · rw [initMempool_succeeds o _ _ hmempool hpci]
    refine ⟨rfl, rfl, rfl, ?_⟩
    simp [shannonExit, freeMempool, destroyWq, unregisterBlkdev, afterUnwind]

/-- What is left of a registration that was undone: nothing, but for the number that
the kernel was asked for. -/
theorem afterUnwind_eq_iff (o : Outcomes k p) :
    afterUnwind o = k ↔ p.shannonMajor = 0 ∨ o.register.Fails := by
  unfold afterUnwind
  cases o.register with
  | chosen m hzero hm hfree =>
      simp only [Registration.majors, Registration.ret, Majors.unregister_register hm hfree, hzero,
        true_or]
  | asked m hmajor hm hfree =>
      have hne : ¬(p.shannonMajor = 0 ∨ (Registration.asked m hmajor hm hfree).Fails) := by
        rintro (hzero | hfails)
        · omega
        · exact Int.lt_irrefl 0 hfails
      refine iff_of_false (fun h => ?_) hne
      have hname : ((k.majors.register m hm).unregister 0).name m = some "shannon" :=
        k.majors.name_unregister_zero hm
      have hmajors : (k.majors.register m hm).unregister 0 = k.majors := congrArg Kernel.majors h
      rw [hmajors, hfree] at hname
      cases hname
  | failed err herr =>
      have hfails :
          (Registration.failed err herr : Registration k.majors p.shannonMajor).Fails := by
        show -(err : ℤ) < 0
        omega
      simp only [Registration.majors, Registration.ret, Majors.unregister_neg herr, hfails, or_true]

/-- **When loading and unloading are balanced**: the kernel chooses the number, or the
registration fails and a later step does too. -/
theorem balanced_iff (o : Outcomes k p) :
    Balanced o ↔
      (p.shannonMajor = 0 ∧ ¬o.register.Fails) ∨ (o.register.Fails ∧ o.LaterFails) := by
  have hunwind := afterUnwind_eq_iff o
  constructor
  · intro h
    by_cases hlater : o.LaterFails
    · have hk := (h.failed (.inr hlater)).2
      rw [(shannonInit_fails o hlater).2, hunwind] at hk
      tauto
    · obtain ⟨hret, -, -, hexit⟩ := shannonInit_succeeds o hlater
      have hsucceeds : ¬o.register.Fails := by
        intro hfails
        have := (h.failed (.inl hfails)).1
        omega
      have hk := h.unloaded hret
      rw [hexit, hunwind] at hk
      tauto
  · intro h
    have hk : afterUnwind o = k := hunwind.2 (by tauto)
    by_cases hlater : o.LaterFails
    · obtain ⟨hret, hkernel⟩ := shannonInit_fails o hlater
      exact ⟨fun h0 => by omega, fun h0 => by omega, fun _ => ⟨hret, hkernel.trans hk⟩⟩
    · obtain ⟨hret, hmajor, hmajors, hexit⟩ := shannonInit_succeeds o hlater
      have hchosen : p.shannonMajor = 0 ∧ ¬o.register.Fails := by tauto
      refine ⟨fun _ => ?_, fun _ => hexit.trans hk, fun hfails => by tauto⟩
      rw [hmajor, hmajors]
      revert hchosen
      cases o.register with
      | chosen m hzero hm hfree =>
          intro _
          exact ⟨m, rfl, hfree, Function.update_self ..⟩
      | asked m hm hpos hfree => omega
      | failed err herr =>
          rintro ⟨-, hfails⟩
          exact absurd (show -(err : ℤ) < 0 by omega) hfails

/-- A kernel with no block major in use. -/
def bareKernel : Kernel := ⟨⟨fun _ => none, fun _ h => absurd rfl h⟩, 0, 0, 0⟩

/-- The module is loaded with `shannon_major=240`, and every step succeeds. -/
def asksForNumber : Outcomes bareKernel ⟨240, 0, 0⟩ :=
  ⟨.asked 240 rfl (by decide) rfl, true, 0, 0, Int.le_refl 0⟩

/-- The module is loaded with its defaults; only the registration fails, with
`-EBUSY`. -/
def registrationFails : Outcomes bareKernel ⟨0, 0, 0⟩ :=
  ⟨.failed 16 (by decide), true, 0, 0, Int.le_refl 0⟩

/-- Neither load is balanced.  The first leaves zero in `shannon_major`, and number
240 stays registered when the module is unloaded; the second returns success. -/
theorem not_balanced :
    ((shannonInit _ _ asksForNumber).ret = 0 ∧
        (shannonInit _ _ asksForNumber).vars.shannonMajor = 0 ∧
        (shannonExit (shannonInit _ _ asksForNumber).kernel
          (shannonInit _ _ asksForNumber).vars).majors.name 240 = some "shannon" ∧
        ¬Balanced asksForNumber) ∧
      registrationFails.register.Fails ∧ (shannonInit _ _ registrationFails).ret = 0 ∧
        ¬Balanced registrationFails := by
  have hexit : (shannonExit (shannonInit _ _ asksForNumber).kernel
      (shannonInit _ _ asksForNumber).vars).majors.name 240 = some "shannon" :=
    bareKernel.majors.name_unregister_zero (m := 240) (by decide)
  refine ⟨⟨by decide, by decide, hexit, fun h => ?_⟩, by decide, by decide, fun h => ?_⟩
  · rw [h.unloaded (by decide)] at hexit
    cases hexit
  · exact absurd (h.failed (.inl (by decide))).1 (by decide)

end Module
end Shannon
