/-
# Setting up sysfs, and rolling it back

`shannon_sysfs.c`: `shannon_sysfs_init` registers a kobject with one below it,
`shannon_sysfs_init_ns` a kobject and a link to the disk, `shannon_hwmon_init` thirteen
attribute files and a hwmon device.  When a step fails, each of them takes back the steps
before in its own way:

| function | roll-back | what is removed besides its own |
| --- | --- | --- |
| `shannon_sysfs_init` | `goto del_skobj` | nothing |
| `shannon_sysfs_init_ns` | `kobject_del(ns_kobj)` | the kobject of the disk |
| `shannon_hwmon_init` | `while (--i >= 0)` | the file that could not be created |

`ns_kobj` is the kobject of the disk, not the one that was registered, and `i` has passed
the failing entry already.
-/

import Shannon.Lib.Tree

namespace Shannon
namespace Sysfs

open Lib

/-- What is registered. -/
inductive Kind
  | kobj | link | file
  deriving DecidableEq, Repr

/-- The kobjects, links and attribute files that are registered.  A path has its last name
first. -/
abbrev Fs := Tree String Kind .kobj

abbrev Path := List String

def EEXIST : ℤ := 17

/-- An entry is added.  `outcome` is what the call returns for a name that is free, 0 or an
error; for any other name it fails. -/
def addEntry (s : Fs) (parent : Path) (name : String) (kind : Kind) (attrs : List String)
    (outcome : ℤ) : Fs × ℤ :=
  if outcome ≠ 0 then (s, outcome)
  else match s.add parent name kind attrs .file with
    | some s' => (s', 0)
    | none => (s, -EEXIST)

/-- `kobject_init_and_add`, with the default attributes of the type. -/
def kobjectInitAndAdd (s : Fs) (ktype : List String) (parent : Path) (name : String)
    (outcome : ℤ) : Fs × ℤ := addEntry s parent name .kobj ktype outcome

/-- `sysfs_create_link`. -/
def sysfsCreateLink (s : Fs) (kobj : Path) (name : String) (outcome : ℤ) : Fs × ℤ :=
  addEntry s kobj name .link [] outcome

/-- `device_create_file`. -/
def deviceCreateFile (s : Fs) (dev : Path) (attr : String) (outcome : ℤ) : Fs × ℤ :=
  addEntry s dev attr .file [] outcome

/-- `kobject_del`. -/
def kobjectDel (s : Fs) (kobj : Path) : Fs := s.remove kobj

/-- `sysfs_remove_link`, which removes what has the name. -/
def sysfsRemoveLink (s : Fs) (kobj : Path) (name : String) : Fs := s.remove (name :: kobj)

/-- `device_remove_file`, which removes what has the name. -/
def deviceRemoveFile (s : Fs) (dev : Path) (attr : String) : Fs := s.remove (attr :: dev)

/-! ### The card -/

/-- The names of the default attributes of the types. -/
structure Ktypes where
  shannon : List String
  pciInfo : List String
  shannonNs : List String

section

variable (kt : Ktypes)

/-- `shannon_sysfs_init`: `dev` is the kobject of the misc device. -/
def shannonSysfsInit (s : Fs) (dev : Path) (skobjRet pciInfoRet : ℤ) : Fs × ℤ :=
  let (s, ret) := kobjectInitAndAdd s kt.shannon dev "shannon" skobjRet
  if ret ≠ 0 then (s, ret)
  else
    let (s, ret) := kobjectInitAndAdd s kt.pciInfo ("shannon" :: dev) "pci_info" pciInfoRet
    if ret ≠ 0 then (kobjectDel s ("shannon" :: dev), ret) else (s, ret)

/-- `shannon_sysfs_exit`. -/
def shannonSysfsExit (s : Fs) (dev : Path) : Fs :=
  kobjectDel (kobjectDel s ("pci_info" :: "shannon" :: dev)) ("shannon" :: dev)

/-! ### A namespace -/

/-- `shannon_sysfs_init_ns`: `disk` is the kobject of the disk, `pool` the one of the misc
device of the pool. -/
def shannonSysfsInitNs (s : Fs) (disk pool : Path) (nsName : String) (skobjRet linkRet : ℤ) :
    Fs × ℤ :=
  let (s, ret) := kobjectInitAndAdd s kt.shannonNs disk "shannon" skobjRet
  let nsKobj := disk
  if ret ≠ 0 then (s, ret)
  else
    let (s, ret) := sysfsCreateLink s pool nsName linkRet
    if ret ≠ 0 then (kobjectDel s nsKobj, ret) else (s, ret)

end

/-- `shannon_sysfs_exit_ns`. -/
def shannonSysfsExitNs (s : Fs) (disk pool : Path) (nsName : String) : Fs :=
  sysfsRemoveLink (kobjectDel s ("shannon" :: disk)) pool nsName

/-! ### The sensors -/

def shannonHwmonAttrs : List String :=
  ["name", "temp1_input", "temp1_label", "temp1_max", "temp1_crit", "temp2_input", "temp2_label",
    "temp2_max", "temp2_crit", "temp3_input", "temp3_label", "temp3_max", "temp3_crit"]

/-- `for (i = 0; attrs[i] && !err; i++)`, from entry `i` on, with the outcome of each
`device_create_file`. -/
def createFiles (outcome : ℕ → ℤ) (dev : Path) : (attrs : List String) → (i : ℕ) → Fs →
    Fs × ℤ × ℕ
  | [], i, s => (s, 0, i)
  | attr :: attrs, i, s =>
      let (s, err) := deviceCreateFile s dev attr (outcome i)
      if err ≠ 0 then (s, err, i + 1) else createFiles outcome dev attrs (i + 1) s

/-- `while (--i >= 0)`. -/
def removeDown (dev : Path) (attrs : List String) : (i : ℕ) → Fs → Fs
  | 0, s => s
  | i + 1, s =>
      match attrs[i]? with
      | some attr => removeDown dev attrs i (deviceRemoveFile s dev attr)
      | none => removeDown dev attrs i s

/-- `for (i = 0; attrs[i]; i++)`. -/
def removeAll (dev : Path) (attrs : List String) (s : Fs) : Fs :=
  attrs.foldl (fun s attr => deviceRemoveFile s dev attr) s

/-- `shannon_hwmon_init`, with the name the hwmon core has for the new device and what
registering it returns.  `none` is `NULL`. -/
def shannonHwmonInit (s : Fs) (dev : Path) (hwmonName : String) (outcome : ℕ → ℤ)
    (registerRet : ℤ) : Fs × Option Path :=
  let (s, err, i) := createFiles outcome dev shannonHwmonAttrs 0 s
  if err ≠ 0 then (removeDown dev shannonHwmonAttrs i s, none)
  else
    let (s, ret) := addEntry s dev hwmonName .kobj [] registerRet
    if ret ≠ 0 then (removeAll dev shannonHwmonAttrs s, none) else (s, some (hwmonName :: dev))

/-- `shannon_hwmon_exit`. -/
def shannonHwmonExit (s : Fs) (dev : Path) (hwmonDev : Option Path) : Fs :=
  match hwmonDev with
  | none => s
  | some hwmonDev => removeAll dev shannonHwmonAttrs (kobjectDel s hwmonDev)

/-! ### All or nothing -/

/-- An error leaves what was there, and after success `exit` brings it back. -/
def AllOrNothing (s : Fs) (r : Fs × ℤ) (exit : Fs → Fs) : Prop :=
  (r.2 ≠ 0 → r.1 = s) ∧ (r.2 = 0 → exit r.1 = s)

/-- The same for a function that returns a pointer. -/
def AllOrNothingPtr (s : Fs) (r : Fs × Option Path) (exit : Fs → Option Path → Fs) : Prop :=
  (r.2 = none → r.1 = s) ∧ (r.2 ≠ none → exit r.1 r.2 = s)

/-- The name is free, and the call that adds it succeeds. -/
def Adds (s : Fs) (parent : Path) (name : String) (outcome : ℤ) : Prop :=
  outcome = 0 ∧ s.entry (name :: parent) = none

/-- What adding to a registered kobject can do. -/
theorem addEntry_cases {s : Fs} {parent : Path} (hparent : s.entry parent = some .kobj)
    (name : String) (kind : Kind) (attrs : List String) (outcome : ℤ)
    (hkind : kind = .kobj ∨ attrs = []) :
    (Adds s parent name outcome ∧ ∃ s', addEntry s parent name kind attrs outcome = (s', 0) ∧
      s.add parent name kind attrs .file = some s') ∨
    (¬Adds s parent name outcome ∧
      ∃ err, err ≠ 0 ∧ addEntry s parent name kind attrs outcome = (s, err)) := by
  unfold addEntry
  split_ifs with houtcome
  · exact .inr ⟨fun h => houtcome h.1, outcome, houtcome, rfl⟩
  · split
    · rename_i s' hadd
      exact .inl ⟨⟨not_not.1 houtcome, (Tree.add_eq_some_iff.1 hadd).1.2.1⟩, s', rfl, hadd⟩
    · rename_i hadd
      refine .inr ⟨fun h => ?_, -EEXIST, by decide, rfl⟩
      rw [Tree.add, dif_pos ⟨hparent, h.2, hkind⟩] at hadd
      cases hadd

/-- `shannon_sysfs_init` takes back exactly what it did. -/
theorem sysfsInit_allOrNothing (kt : Ktypes) {s : Fs} {dev : Path}
    (hdev : s.entry dev = some .kobj) (skobjRet pciInfoRet : ℤ) :
    AllOrNothing s (shannonSysfsInit kt s dev skobjRet pciInfoRet)
      fun s => shannonSysfsExit s dev := by
  obtain ⟨-, s₁, heq, hadd⟩ | ⟨-, err, herr, heq⟩ :=
    addEntry_cases hdev "shannon" .kobj kt.shannon skobjRet (.inl rfl)
  · have hskobj : s₁.entry ("shannon" :: dev) = some .kobj := by
      rw [(Tree.add_eq_some_iff.1 hadd).2, Tree.addEntry, if_pos rfl]
    obtain ⟨-, s₂, heq₂, hadd₂⟩ | ⟨-, err, herr, heq₂⟩ :=
      addEntry_cases hskobj "pci_info" .kobj kt.pciInfo pciInfoRet (.inl rfl)
    · have h : shannonSysfsInit kt s dev skobjRet pciInfoRet = (s₂, 0) := by
        simp [shannonSysfsInit, kobjectInitAndAdd, heq, heq₂]
      rw [h]
      refine ⟨fun h => absurd rfl h, fun _ => ?_⟩
      simp only [shannonSysfsExit, kobjectDel]
      rw [Tree.remove_add hadd₂, Tree.remove_add hadd]
    · have h : shannonSysfsInit kt s dev skobjRet pciInfoRet
          = (s₁.remove ("shannon" :: dev), err) := by
        simp [shannonSysfsInit, kobjectInitAndAdd, kobjectDel, heq, heq₂, herr]
      rw [h]
      exact ⟨fun _ => Tree.remove_add hadd, fun h => absurd h herr⟩
  · have h : shannonSysfsInit kt s dev skobjRet pciInfoRet = (s, err) := by
      simp [shannonSysfsInit, kobjectInitAndAdd, heq, herr]
    rw [h]
    exact ⟨fun _ => rfl, fun h => absurd h herr⟩

/-! ### The namespace -/

/-- `shannon_sysfs_init_ns` takes back what it did unless the link fails. -/
theorem sysfsInitNs_allOrNothing_iff (kt : Ktypes) {s : Fs} {disk pool : Path}
    (hdisk : s.entry disk = some .kobj) (hpool : s.entry pool = some .kobj) (hne : disk ≠ pool)
    (nsName : String) (skobjRet linkRet : ℤ) :
    AllOrNothing s (shannonSysfsInitNs kt s disk pool nsName skobjRet linkRet)
        (fun s => shannonSysfsExitNs s disk pool nsName) ↔
      (Adds s disk "shannon" skobjRet → Adds s pool nsName linkRet) := by
  obtain ⟨hadds, s₁, heq, hadd⟩ | ⟨hnot, err, herr, heq⟩ :=
    addEntry_cases hdisk "shannon" .kobj kt.shannonNs skobjRet (.inl rfl)
  · have hpool₁ : s₁.entry pool = some .kobj := Tree.entry_add_of_some hadd hpool
    have hname : s₁.entry (nsName :: pool) = s.entry (nsName :: pool) :=
      Tree.entry_add_of_ne hadd hpool fun h => hne (List.cons.inj h).2.symm
    have hadds_iff : Adds s₁ pool nsName linkRet ↔ Adds s pool nsName linkRet := by
      rw [Adds, Adds, hname]
    obtain ⟨hlink, s₂, heq₂, hadd₂⟩ | ⟨hnolink, err, herr, heq₂⟩ :=
      addEntry_cases hpool₁ nsName .link [] linkRet (.inr rfl)
    · have h : shannonSysfsInitNs kt s disk pool nsName skobjRet linkRet = (s₂, 0) := by
        simp [shannonSysfsInitNs, kobjectInitAndAdd, sysfsCreateLink, heq, heq₂]
      rw [h]
      refine ⟨fun _ _ => hadds_iff.1 hlink, fun _ => ⟨fun h => absurd rfl h, fun _ => ?_⟩⟩
      simp only [shannonSysfsExitNs, sysfsRemoveLink, kobjectDel]
      rw [Tree.remove_comm, Tree.remove_add hadd₂, Tree.remove_add hadd]
    · -- the kobject of the disk is removed
      have h : shannonSysfsInitNs kt s disk pool nsName skobjRet linkRet
          = (s₁.remove disk, err) := by
        simp [shannonSysfsInitNs, kobjectInitAndAdd, sysfsCreateLink, kobjectDel, heq, heq₂, herr]
      rw [h]
      refine ⟨fun hall _ => ?_, fun hlink => absurd (hadds_iff.2 (hlink hadds)) hnolink⟩
      have hgone := congrArg (fun t => Tree.entry t disk) (hall.1 herr)
      simp [Tree.entry_remove, hdisk] at hgone
  · have h : shannonSysfsInitNs kt s disk pool nsName skobjRet linkRet = (s, err) := by
      simp [shannonSysfsInitNs, kobjectInitAndAdd, heq, herr]
    rw [h]
    exact ⟨fun _ hadds => absurd hadds hnot, fun _ => ⟨fun _ => rfl, fun h => absurd h herr⟩⟩

/-! ### The sensors -/

section

variable (outcome : ℕ → ℤ) (dev : Path)

/-- For every attribute whose name is taken, the creation of one before it fails. -/
def NoClash (s : Fs) (attrs : List String) (i : ℕ) : Prop :=
  ∀ k attr, attrs[k]? = some attr → s.entry (attr :: dev) ≠ none → ∃ j < k, outcome (i + j) ≠ 0

/-- The files of a list are removed, the last one first. -/
def removeFiles (attrs : List String) (s : Fs) : Fs :=
  attrs.foldr (fun attr s => deviceRemoveFile s dev attr) s

variable {outcome dev}

theorem removeAll_eq (attrs : List String) (s : Fs) :
    removeAll dev attrs s = removeFiles dev attrs s := by
  induction attrs generalizing s with
  | nil => rfl
  | cons attr attrs ih =>
      have hcomm (attrs : List String) (s : Fs) :
          removeFiles dev attrs (deviceRemoveFile s dev attr)
            = deviceRemoveFile (removeFiles dev attrs s) dev attr := by
        induction attrs with
        | nil => rfl
        | cons b attrs ih =>
            rw [removeFiles, List.foldr_cons, ← removeFiles, ih, deviceRemoveFile,
              deviceRemoveFile, Tree.remove_comm]
            rfl
      exact (ih _).trans (hcomm attrs s)

/-- The count-down loop removes the first entries. -/
theorem removeDown_eq (attrs : List String) {i : ℕ} (hi : i ≤ attrs.length) (s : Fs) :
    removeDown dev attrs i s = removeFiles dev (attrs.take i) s := by
  induction i generalizing s with
  | zero => rfl
  | succ i ih =>
      have hlt : i < attrs.length := hi
      rw [removeDown, List.getElem?_eq_getElem hlt, List.take_succ_eq_append_getElem hlt,
        removeFiles, List.foldr_append]
      exact ih hlt.le _

theorem noClash_cons {s : Fs} {attr : String} {attrs : List String} {i : ℕ}
    (hadds : Adds s dev attr (outcome i)) :
    NoClash outcome dev s (attr :: attrs) i ↔ NoClash outcome dev s attrs (i + 1) := by
  constructor
  · intro h k b hk hb
    obtain ⟨j, hj, hne⟩ := h (k + 1) b (by simpa using hk) hb
    cases j with
    | zero => exact absurd hadds.1 hne
    | succ j => exact ⟨j, by omega, by rwa [show i + 1 + j = i + (j + 1) by omega]⟩
  · intro h k b hk hb
    cases k with
    | zero =>
        obtain rfl : attr = b := by simpa using hk
        exact absurd hadds.2 hb
    | succ k =>
        obtain ⟨j, hj, hne⟩ := h k b (by simpa using hk) hb
        exact ⟨j + 1, by omega, by rwa [show i + (j + 1) = i + 1 + j by omega]⟩

theorem noClash_congr {s s' : Fs} {attrs : List String} {i : ℕ}
    (h : ∀ attr ∈ attrs, s.entry (attr :: dev) = s'.entry (attr :: dev)) :
    NoClash outcome dev s attrs i ↔ NoClash outcome dev s' attrs i := by
  unfold NoClash
  refine forall_congr' fun k => forall_congr' fun attr => imp_congr_right fun hk => ?_
  rw [h attr (List.mem_of_getElem? hk)]

/-- The first failure is a clash, or not. -/
theorem noClash_of_not_adds {s : Fs} {attr : String} {attrs : List String} {i : ℕ}
    (hnot : ¬Adds s dev attr (outcome i)) :
    NoClash outcome dev s (attr :: attrs) i ↔ s.entry (attr :: dev) = none := by
  constructor
  · intro h
    by_contra hne
    obtain ⟨j, hj, -⟩ := h 0 attr rfl hne
    exact absurd hj (by omega)
  · intro hfree k b hk hb
    have houtcome : outcome i ≠ 0 := fun h => hnot ⟨h, hfree⟩
    cases k with
    | zero =>
        obtain rfl : attr = b := by simpa using hk
        exact absurd hfree hb
    | succ k => exact ⟨0, by omega, houtcome⟩

/-- **The loop that creates the files.**  It ends with all of them, and removing them
restores what was there; or with a failure, and removing the entries up to `i` is removing
the failing name from what was there. -/
theorem createFiles_spec {s : Fs} (hdev : s.entry dev = some .kobj) {attrs : List String}
    (hnodup : attrs.Nodup) (i : ℕ) :
    (∃ s', createFiles outcome dev attrs i s = (s', 0, i + attrs.length) ∧
      removeFiles dev attrs s' = s ∧ NoClash outcome dev s attrs i ∧
      s'.entry dev = some .kobj) ∨
    ∃ s' err m, ∃ attr ∈ attrs, createFiles outcome dev attrs i s = (s', err, i + m) ∧ err ≠ 0 ∧
      m ≤ attrs.length ∧ removeFiles dev (attrs.take m) s' = s.remove (attr :: dev) ∧
      (s.entry (attr :: dev) = none ↔ NoClash outcome dev s attrs i) := by
  induction attrs generalizing s i with
  | nil => exact .inl ⟨s, rfl, rfl, fun k attr hk => by simp at hk, hdev⟩
  | cons attr attrs ih =>
      obtain ⟨hnew, hnodup⟩ := List.nodup_cons.1 hnodup
      obtain ⟨hadds, s₁, heq, hadd⟩ | ⟨hnot, err, herr, heq⟩ :=
        addEntry_cases hdev attr .file [] (outcome i) (.inr rfl)
      · have hcreate : createFiles outcome dev (attr :: attrs) i s
            = createFiles outcome dev attrs (i + 1) s₁ := by
          simp [createFiles, deviceCreateFile, heq]
        have hother (b : String) (hb : b ∈ attrs) : s₁.entry (b :: dev) = s.entry (b :: dev) := by
          refine Tree.entry_add_of_ne hadd hdev fun h => hnew ?_
          exact (List.cons.inj h).1 ▸ hb
        have hclash : NoClash outcome dev s (attr :: attrs) i
            ↔ NoClash outcome dev s₁ attrs (i + 1) := by
          rw [noClash_cons hadds]
          exact noClash_congr fun b hb => (hother b hb).symm
        have hundo : s₁.remove (attr :: dev) = s := Tree.remove_add hadd
        obtain ⟨s', hloop, hremove, hno, hdev'⟩ |
            ⟨s', err, m, b, hb, hloop, herr, hm, hremove, hiff⟩ :=
          ih (Tree.entry_add_of_some hadd hdev) hnodup (i + 1)
        · refine .inl ⟨s', ?_, ?_, hclash.2 hno, hdev'⟩
          · rw [hcreate, hloop, List.length_cons, Nat.add_comm attrs.length, Nat.add_assoc]
          · rw [removeFiles, List.foldr_cons, ← removeFiles, hremove]
            exact hundo
        · refine .inr ⟨s', err, m + 1, b, List.mem_cons_of_mem _ hb, ?_, herr,
            by simpa using hm, ?_, ?_⟩
          · rw [hcreate, hloop, Nat.add_comm m, Nat.add_assoc]
          · rw [List.take_succ_cons, removeFiles, List.foldr_cons, ← removeFiles, hremove,
              deviceRemoveFile, Tree.remove_comm, hundo]
          · rw [hclash, ← hiff, hother b hb]
      · refine .inr ⟨s, err, 1, attr, List.mem_cons_self .., ?_, herr, by simp, rfl,
          (noClash_of_not_adds hnot).symm⟩
        simp [createFiles, deviceCreateFile, heq, herr]

/-- Nothing can be created below a device that is not registered. -/
theorem hwmonInit_of_unregistered {s : Fs} (hdev : s.entry dev ≠ some .kobj) (hwmonName : String)
    (registerRet : ℤ) :
    AllOrNothingPtr s (shannonHwmonInit s dev hwmonName outcome registerRet)
      fun s hwmonDev => shannonHwmonExit s dev hwmonDev := by
  have hfree : s.entry ("name" :: dev) = none := by
    by_contra hne
    exact hdev (s.closed "name" dev hne)
  have hadd : s.add dev "name" .file [] .file = none := dif_neg fun h => hdev h.1
  obtain ⟨err, herr, hcreate⟩ : ∃ err, err ≠ 0 ∧
      deviceCreateFile s dev "name" (outcome 0) = (s, err) := by
    rw [deviceCreateFile, addEntry, hadd]
    split_ifs with houtcome
    · exact ⟨outcome 0, houtcome, rfl⟩
    · exact ⟨-EEXIST, by decide, rfl⟩
  have h : shannonHwmonInit s dev hwmonName outcome registerRet
      = (s.remove ("name" :: dev), none) := by
    simp [shannonHwmonInit, shannonHwmonAttrs, createFiles, hcreate, herr, removeDown,
      deviceRemoveFile]
  rw [h, Tree.remove_eq_self_iff.2 hfree]
  exact ⟨fun _ => rfl, fun h => absurd rfl h⟩

/-- `shannon_hwmon_init` takes back what it did unless the first attribute that fails has a
name that is taken. -/
theorem hwmonInit_allOrNothing_iff (s : Fs) (hwmonName : String) (registerRet : ℤ) :
    AllOrNothingPtr s (shannonHwmonInit s dev hwmonName outcome registerRet)
        (fun s hwmonDev => shannonHwmonExit s dev hwmonDev) ↔
      NoClash outcome dev s shannonHwmonAttrs 0 := by
  have hnodup : shannonHwmonAttrs.Nodup := by decide
  by_cases hdev : s.entry dev = some .kobj
  swap
  · exact iff_of_true (hwmonInit_of_unregistered hdev hwmonName registerRet)
      fun k attr _ hne => absurd (s.closed attr dev hne) hdev
  obtain ⟨s₁, hloop, hremove, hno, hdev₁⟩ | ⟨s₁, err, m, attr, -, hloop, herr, hm, hremove, hiff⟩ :=
    createFiles_spec hdev hnodup 0
  · refine iff_of_true ?_ hno
    obtain ⟨-, s₂, heq, hadd⟩ | ⟨-, err, herr, heq⟩ :=
      addEntry_cases hdev₁ hwmonName .kobj [] registerRet (.inl rfl)
    · have h : shannonHwmonInit s dev hwmonName outcome registerRet
          = (s₂, some (hwmonName :: dev)) := by
        simp [shannonHwmonInit, hloop, heq]
      rw [h]
      refine ⟨fun h => by simp at h, fun _ => ?_⟩
      simp only [shannonHwmonExit, kobjectDel]
      rw [removeAll_eq, Tree.remove_add hadd, hremove]
    · have h : shannonHwmonInit s dev hwmonName outcome registerRet
          = (removeAll dev shannonHwmonAttrs s₁, none) := by
        simp [shannonHwmonInit, hloop, heq, herr]
      rw [h]
      refine ⟨fun _ => ?_, fun h => absurd rfl h⟩
      rw [removeAll_eq, hremove]
  · have h : shannonHwmonInit s dev hwmonName outcome registerRet
        = (s.remove (attr :: dev), none) := by
      rw [← hremove, ← removeDown_eq _ hm]
      simp [shannonHwmonInit, hloop, herr]
    rw [h, ← hiff, ← Tree.remove_eq_self_iff]
    exact ⟨fun hall => hall.1 rfl, fun hsame => ⟨fun _ => hsame, fun h => absurd rfl h⟩⟩

end

/-- **When setting up sysfs is all or nothing.**  For everything that is registered before,
the kobjects of the disk and of the misc devices included, and all outcomes of the calls:
`shannon_sysfs_init` always is.  `shannon_sysfs_init_ns` is exactly when its link does not
fail after its kobject was registered, and `shannon_hwmon_init` exactly when, for every
attribute whose name is taken already, the creation of one before it fails. -/
theorem sysfs_allOrNothing_iff (kt : Ktypes) {s : Fs} {misc disk pool : Path}
    (hmisc : s.entry misc = some .kobj) (hdisk : s.entry disk = some .kobj)
    (hpool : s.entry pool = some .kobj) (hne : disk ≠ pool) (dev : Path)
    (nsName hwmonName : String) (skobjRet pciInfoRet linkRet registerRet : ℤ)
    (outcome : ℕ → ℤ) :
    AllOrNothing s (shannonSysfsInit kt s misc skobjRet pciInfoRet)
        (fun s => shannonSysfsExit s misc) ∧
      (AllOrNothing s (shannonSysfsInitNs kt s disk pool nsName skobjRet linkRet)
          (fun s => shannonSysfsExitNs s disk pool nsName) ↔
        (Adds s disk "shannon" skobjRet → Adds s pool nsName linkRet)) ∧
      (AllOrNothingPtr s (shannonHwmonInit s dev hwmonName outcome registerRet)
          (fun s hwmonDev => shannonHwmonExit s dev hwmonDev) ↔
        NoClash outcome dev s shannonHwmonAttrs 0) :=
  ⟨sysfsInit_allOrNothing kt hmisc skobjRet pciInfoRet,
    sysfsInitNs_allOrNothing_iff kt hdisk hpool hne nsName skobjRet linkRet,
    hwmonInit_allOrNothing_iff s hwmonName registerRet⟩

/-- The kobjects of a card, its misc device, its disk and its pool, and a file in the
directory of the card. -/
def cardFs : Fs where
  entry := fun p =>
    if p = ["temp1_input", "card"] then some .file
    else if p ∈ [[], ["misc"], ["pool"], ["disk"], ["card"]] then some .kobj else none
  closed := by
    intro a p h
    split_ifs at h with hfile hmem
    · obtain ⟨-, rfl⟩ := List.cons.inj hfile
      decide
    · obtain rfl : p = [] := by
        simp only [List.mem_cons, List.cons.injEq, reduceCtorEq, List.not_mem_nil, false_or,
          or_false] at hmem
        tauto
      decide
    · exact absurd rfl h

/-- The hypotheses of `sysfs_allOrNothing_iff` are satisfiable: the namespace is set up, and
the first sensor file fails. -/
theorem sysfs_allOrNothing_card :
    AllOrNothing cardFs (shannonSysfsInitNs ⟨[], [], []⟩ cardFs ["disk"] ["pool"] "ns0" 0 0)
        (fun s => shannonSysfsExitNs s ["disk"] ["pool"] "ns0") ∧
      AllOrNothingPtr cardFs (shannonHwmonInit cardFs ["card"] "hwmon3" (fun _ => -12) 0)
        (fun s hwmonDev => shannonHwmonExit s ["card"] hwmonDev) := by
  obtain ⟨-, hns, hhwmon⟩ := @sysfs_allOrNothing_iff ⟨[], [], []⟩ cardFs ["misc"] ["disk"] ["pool"]
    rfl rfl rfl (by decide) ["card"] "ns0" "hwmon3" 0 0 0 0 fun _ => -12
  refine ⟨hns.2 fun _ => ⟨rfl, rfl⟩, hhwmon.2 fun k attr hk hne => ?_⟩
  cases k with
  | zero =>
      obtain rfl : "name" = attr := by simpa [shannonHwmonAttrs] using hk
      exact absurd rfl hne
  | succ k => exact ⟨0, by omega, by decide⟩

/-- The link of a namespace fails, and the kobject of the disk is gone; a sensor file cannot
be created because it is there, and it is gone. -/
theorem sysfs_not_allOrNothing :
    (shannonSysfsInitNs ⟨[], [], []⟩ cardFs ["disk"] ["pool"] "ns0" 0 (-12)).2 = -12 ∧
      (shannonSysfsInitNs ⟨[], [], []⟩ cardFs ["disk"] ["pool"] "ns0" 0 (-12)).1.entry ["disk"]
        = none ∧
      ¬AllOrNothing cardFs (shannonSysfsInitNs ⟨[], [], []⟩ cardFs ["disk"] ["pool"] "ns0" 0 (-12))
        (fun s => shannonSysfsExitNs s ["disk"] ["pool"] "ns0") ∧
      (shannonHwmonInit cardFs ["card"] "hwmon3" (fun _ => 0) 0).2 = none ∧
      (shannonHwmonInit cardFs ["card"] "hwmon3" (fun _ => 0) 0).1.entry ["temp1_input", "card"]
        = none ∧
      ¬AllOrNothingPtr cardFs (shannonHwmonInit cardFs ["card"] "hwmon3" (fun _ => 0) 0)
        (fun s hwmonDev => shannonHwmonExit s ["card"] hwmonDev) := by
  have hns : (shannonSysfsInitNs ⟨[], [], []⟩ cardFs ["disk"] ["pool"] "ns0" 0 (-12)).1.entry
      ["disk"] = none := by decide
  have hhwmon : (shannonHwmonInit cardFs ["card"] "hwmon3" (fun _ => 0) 0).1.entry
      ["temp1_input", "card"] = none := by decide
  refine ⟨by decide, hns, fun h => ?_, by decide, hhwmon, fun h => ?_⟩
  · rw [h.1 (by decide)] at hns
    exact absurd hns (by decide)
  · rw [h.1 (by decide)] at hhwmon
    exact absurd hhwmon (by decide)

end Sysfs
end Shannon
