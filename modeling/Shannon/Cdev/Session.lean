/-
# Sessions with the debug devices

`shannon_cdev.c` as a whole: `debug_cdev_open`, `debug_cdev_llseek`, `debug_cdev_read` and
`debug_cdev_write`.  Any number of files are open on the three kinds of device, the map table and
the temp table, which share their memblocks, and the plain buffer.

What this is meant to be is a file with a position: bytes, a size that never changes, and a
position in every open file (`Ideal`).  `sessions_refine` says that with all memblocks allocated
and copies that succeed nobody can tell the difference, over any sequence of calls on any open
files: the same return values, and the same bytes in every read.

Two things have to be true for this that no single call shows.  A write to one device must not be
visible on another, although the tables lie in the same memblocks; and `debug_cdev_llseek` adds in
a `loff_t`, which may wrap, but only to a negative position, which it refuses
(`debugCdevLlseek_eq`).
-/

import Shannon.Cdev.Flat
import Shannon.Lib.Simulation

namespace Shannon
namespace Cdev
namespace Session

open Lib

/-- `-EINVAL`. -/
def einval : ℤ := -22

/-- `-EBADF`, for a descriptor that is not open. -/
def ebadf : ℤ := -9

/-! ### The driver -/

/-- The devices. -/
inductive Node where
  | table (t : TableType)
  | normal
deriving DecidableEq

/-- The type of the device. -/
def Node.type : Node → CdevType
  | .table t => .memblock t
  | .normal => .normal

/-- The `debug_cdev` of each device. -/
structure Devices where
  dev : Node → DebugCdev
  type_eq : ∀ n, (dev n).type = n.type

/-- The last argument of `llseek`. -/
inductive Whence where
  | seekSet
  | seekCur
  | seekEnd
  | other
deriving DecidableEq

/-- `debug_cdev_llseek`: the value it returns, and the position it leaves. -/
def debugCdevLlseek (dev : DebugCdev) (fPos : ℕ) (off : BitVec 64) (whence : Whence) : ℤ × ℕ :=
  let newpos : Option (BitVec 64) :=
    match whence with
    | .seekSet => some off
    | .seekCur => some (BitVec.ofNat 64 fPos + off)
    | .seekEnd => some (BitVec.ofNat 64 dev.size + off)
    | .other => none
  match newpos with
  | none => (einval, fPos)
  | some newpos => if newpos.toInt < 0 then (einval, fPos) else (newpos.toInt, newpos.toNat)

/-- An open file: the device `debug_cdev_open` puts into `private_data`, and the position. -/
structure OpenFile where
  node : Node
  fPos : ℕ

/-- The files open under the descriptors `D`, and the memory. -/
structure State (D : Type*) where
  files : D → Option OpenFile
  mem : Memory

/-- A system call on a descriptor.  The bytes a write passes are those of the user's buffer. -/
inductive Call (D : Type*) where
  | open_ (d : D) (node : Node)
  | release (d : D)
  | llseek (d : D) (off : BitVec 64) (whence : Whence)
  | read (d : D) (count : ℕ)
  | write (d : D) (count : ℕ) (buf : ℕ → UInt8)

/-- What comes back: a value, and the bytes of a read; or the kernel dies. -/
inductive Answer where
  | ret (r : ℤ)
  | data (r : ℤ) (bytes : List UInt8)
  | oops
deriving DecidableEq

variable {D : Type*} [DecidableEq D]

/-- The file under `d` has moved. -/
def seekTo (files : D → Option OpenFile) (d : D) (file : OpenFile) (fPos : ℕ) :
    D → Option OpenFile :=
  Function.update files d (some { file with fPos := fPos })

/-- One call.  `rw_verify_area` refuses a range beyond the largest `loff_t`. -/
def step (env : Env) (devs : Devices) (s : State D) : Call D → Answer × State D
  | .open_ d node => (.ret 0, { s with files := Function.update s.files d (some ⟨node, 0⟩) })
  | .release d => (.ret 0, { s with files := Function.update s.files d none })
  | .llseek d off whence =>
      match s.files d with
      | none => (.ret ebadf, s)
      | some file =>
          let r := debugCdevLlseek (devs.dev file.node) file.fPos off whence
          (.ret r.1, { s with files := seekTo s.files d file r.2 })
  | .read d count =>
      match s.files d with
      | none => (.ret ebadf, s)
      | some file =>
          if h : file.fPos + count < 2 ^ 63 then
            let o := debugCdevRead env (devs.dev file.node) ⟨file.fPos, count, by omega⟩
              { s.mem with user := fun _ => 0 }
            match o.exit with
            | .ret r => (.data r ((List.range r.toNat).map o.mem.user),
                ⟨seekTo s.files d file o.fPos, o.mem⟩)
            | .nullDeref => (.oops, s)
          else (.ret einval, s)
  | .write d count buf =>
      match s.files d with
      | none => (.ret ebadf, s)
      | some file =>
          if h : file.fPos + count < 2 ^ 63 then
            let o := debugCdevWrite env (devs.dev file.node) ⟨file.fPos, count, by omega⟩
              { s.mem with user := buf }
            match o.exit with
            | .ret r => (.ret r, ⟨seekTo s.files d file o.fPos, o.mem⟩)
            | .nullDeref => (.oops, s)
          else (.ret einval, s)

/-! ### What it is meant to be -/

/-- Files with a size and a position. -/
structure Ideal (D : Type*) where
  files : D → Option OpenFile
  content : Node → ℕ → UInt8

/-- Where `llseek` goes to, before it is known whether one can. -/
def idealTarget (size fPos : ℕ) (off : ℤ) : Whence → Option ℤ
  | .seekSet => some off
  | .seekCur => some (fPos + off)
  | .seekEnd => some (size + off)
  | .other => none

/-- To any position that is not negative and not too large. -/
def idealLlseek (size fPos : ℕ) (off : ℤ) (whence : Whence) : ℤ × ℕ :=
  match idealTarget size fPos off whence with
  | none => (einval, fPos)
  | some target => if 0 ≤ target ∧ target < 2 ^ 63 then (target, target.toNat) else (einval, fPos)

/-- One call. -/
def idealStep (size : Node → ℕ) (s : Ideal D) : Call D → Answer × Ideal D
  | .open_ d node => (.ret 0, { s with files := Function.update s.files d (some ⟨node, 0⟩) })
  | .release d => (.ret 0, { s with files := Function.update s.files d none })
  | .llseek d off whence =>
      match s.files d with
      | none => (.ret ebadf, s)
      | some file =>
          let r := idealLlseek (size file.node) file.fPos off.toInt whence
          (.ret r.1, { s with files := seekTo s.files d file r.2 })
  | .read d count =>
      match s.files d with
      | none => (.ret ebadf, s)
      | some file =>
          if file.fPos + count < 2 ^ 63 then
            let n := min count (size file.node - file.fPos)
            (.data n ((List.range n).map fun k => s.content file.node (file.fPos + k)),
              { s with files := seekTo s.files d file (file.fPos + n) })
          else (.ret einval, s)
  | .write d count buf =>
      match s.files d with
      | none => (.ret ebadf, s)
      | some file =>
          if file.fPos + count < 2 ^ 63 then
            let n := min count (size file.node - file.fPos)
            (.ret n, ⟨seekTo s.files d file (file.fPos + n), Function.update s.content file.node
              (blit (s.content file.node) file.fPos buf 0 n)⟩)
          else (.ret einval, s)

/-! ### The calls -/

/-- A sum that wraps is negative. -/
theorem toInt_add_of_lt {base : ℕ} (hbase : base < 2 ^ 63) (off : BitVec 64) :
    (BitVec.ofNat 64 base + off).toInt =
      if base + off.toInt < 2 ^ 63 then base + off.toInt else base + off.toInt - 2 ^ 64 := by
  have hlt : off.toInt < 2 ^ 63 := off.toInt_lt
  have hle : -2 ^ 63 ≤ off.toInt := off.le_toInt
  have hnat : (BitVec.ofNat 64 base).toInt = base := by
    rw [BitVec.toInt_ofNat', Int.bmod_def]
    omega
  rw [BitVec.toInt_add, hnat, Int.bmod_def]
  omega

theorem toNat_eq_of_toInt_nonneg {x : BitVec 64} (h : 0 ≤ x.toInt) : x.toNat = x.toInt.toNat := by
  have hx := x.isLt
  rw [BitVec.toInt_eq_toNat_cond] at h ⊢
  split_ifs at h ⊢ <;> omega

/-- **`debug_cdev_llseek` goes where it should**, although it adds in 64 bits. -/
theorem debugCdevLlseek_eq (dev : DebugCdev) {fPos : ℕ} (hpos : fPos < 2 ^ 63) (off : BitVec 64)
    (whence : Whence) :
    debugCdevLlseek dev fPos off whence = idealLlseek dev.size fPos off.toInt whence := by
  have hlt : off.toInt < 2 ^ 63 := off.toInt_lt
  have hsize := dev.size_lt
  have hgo (newpos : BitVec 64) (target : ℤ)
      (hsame : newpos.toInt = if target < 2 ^ 63 then target else target - 2 ^ 64)
      (hmax : target < 2 ^ 64) :
      (if newpos.toInt < 0 then (einval, fPos) else (newpos.toInt, newpos.toNat))
        = if 0 ≤ target ∧ target < 2 ^ 63 then (target, target.toNat) else (einval, fPos) := by
    by_cases htarget : 0 ≤ target ∧ target < 2 ^ 63
    · have heq : newpos.toInt = target := by rw [hsame, if_pos htarget.2]
      rw [if_neg (by omega), if_pos htarget, toNat_eq_of_toInt_nonneg (by omega), heq]
    · rw [if_neg htarget, if_pos]
      rw [hsame]
      split_ifs <;> omega
  cases whence with
  | seekSet => exact hgo off off.toInt (by rw [if_pos hlt]) (by omega)
  | seekCur => exact hgo _ _ (toInt_add_of_lt hpos off) (by omega)
  | seekEnd => exact hgo _ _ (toInt_add_of_lt hsize off) (by omega)
  | other => rfl

section Calls

variable {env : Env} {dev : DebugCdev} {req : Request} {mem : Memory} {b : ℕ → Memblock}

/-- No loop touches the plain buffer. -/
theorem run_buf (henv : env.Calm) (l : CopyLoop) (s : LoopState)
    (hb : ∃ b : ℕ → Memblock, ∀ i, s.mem.memblockList i = some (b i)) :
    (l.run env s).1.mem.buf = s.mem.buf := by
  fun_induction CopyLoop.run l env s with
  | case1 s hs => rfl
  | case2 s hs s' e h =>
      obtain ⟨b, hb⟩ := hb
      exact absurd ((step_calm henv l hb).symm.trans h) (by simp)
  | case3 s hs s' h ih =>
      obtain ⟨b, hb⟩ := hb
      obtain ⟨rfl, -⟩ := Prod.mk.inj ((step_calm henv l hb).symm.trans h)
      have hbuf : (l.advance s (b (s.fPos / l.table.memblockSize))).mem.buf = s.mem.buf := by
        cases hop : l.op <;> simp [CopyLoop.advance, hop, Op.copy]
      rw [ih (allocated_advance l hb _), hbuf]

/-- A read of a table. -/
theorem read_table (henv : env.Calm) {t : TableType} (ht : dev.type = .memblock t)
    (hb : ∀ i, mem.memblockList i = some (b i)) :
    let o := debugCdevRead env dev req mem
    o.exit = .ret (req.len dev) ∧ o.fPos = req.fPos + req.len dev ∧
      o.mem.memblockList = mem.memblockList ∧ o.mem.buf = mem.buf ∧
      o.mem.user = blit mem.user 0 (flat t.memblockSize t.slot b) req.fPos (req.len dev) := by
  intro o
  have huser := read_user henv ht req hb
  obtain ⟨hnone, hfPos, hlist, -⟩ := run_read henv (loop_op .read t) (req.start dev mem) hb
  have hbuf := run_buf henv (Op.read.loop t) (req.start dev mem) ⟨b, hb⟩
  refine ⟨?_, ?_, ?_, ?_, huser⟩ <;> simp only [o, debugCdevRead, debugCdevRw_eq .read env ht]
  · simp only [hnone, Option.getD_none]
  · exact hfPos
  · exact hlist
  · exact hbuf

/-- A write to a table. -/
theorem write_table (henv : env.Calm) {t : TableType} (ht : dev.type = .memblock t)
    (hb : ∀ i, mem.memblockList i = some (b i)) :
    let o := debugCdevWrite env dev req mem
    o.exit = .ret (req.len dev) ∧ o.fPos = req.fPos + req.len dev ∧ o.mem.buf = mem.buf ∧
      ∀ i, o.mem.memblockList i =
        some (overwrite t.memblockSize t.slot b req.fPos mem.user (req.len dev) i) := by
  intro o
  obtain ⟨hret, hfPos, hlist, -, -⟩ := write_writesFile henv ht req hb
  have hbuf := run_buf henv (Op.write.loop t) (req.start dev mem) ⟨b, hb⟩
  refine ⟨hret, hfPos, ?_, hlist⟩
  simp only [o, debugCdevWrite, debugCdevRw_eq .write env ht]
  exact hbuf

/-- A read or a write of the plain buffer. -/
theorem rw_normal (henv : env.Calm) (hn : dev.type = .normal) (op : Op)
    (hfit : req.fPos < dev.size) :
    debugCdevRw op env dev req mem =
      ⟨.ret (req.len dev), req.fPos + req.len dev,
        op.copyBuf mem req.fPos (req.len dev) 0, []⟩ := by
  have hcount : (if dev.size < (req.fPos + req.count) % 2 ^ 64 then dev.size - req.fPos
      else req.count) = req.len dev := by
    rw [Request.len, Nat.mod_eq_of_lt req.nowrap]
    split_ifs <;> omega
  simp only [debugCdevRw, if_neg (Nat.not_le.2 hfit), hcount, hn, henv.copied, ne_eq,
    not_true_eq_false, if_false]

/-- At the end of the file nothing happens. -/
theorem rw_end (op : Op) (hend : dev.size ≤ req.fPos) :
    debugCdevRw op env dev req mem = ⟨.ret 0, req.fPos, mem, []⟩ := by
  rw [debugCdevRw, if_pos hend]

/-- The bytes that a device shows. -/
def Shows (mem : Memory) (b : ℕ → Memblock) : Node → ℕ → UInt8
  | .table t => flat t.memblockSize t.slot b
  | .normal => mem.buf

/-- **A read** delivers what the device shows, and leaves it alone. -/
theorem read_spec (henv : env.Calm) {node : Node} (hnode : dev.type = node.type)
    (hb : ∀ i, mem.memblockList i = some (b i)) :
    let o := debugCdevRead env dev req mem
    o.exit = .ret (req.len dev) ∧ o.fPos = req.fPos + req.len dev ∧
      o.mem.memblockList = mem.memblockList ∧ o.mem.buf = mem.buf ∧
      ∀ k < req.len dev, o.mem.user k = Shows mem b node (req.fPos + k) := by
  intro o
  cases node with
  | table t =>
      obtain ⟨hret, hfPos, hlist, hbuf, huser⟩ := read_table henv hnode hb
      refine ⟨hret, hfPos, hlist, hbuf, fun k hk => ?_⟩
      simp only [o]
      rw [huser, blit, if_pos ⟨Nat.zero_le k, by omega⟩, Nat.sub_zero]
      rfl
  | normal =>
      rcases Nat.lt_or_ge req.fPos dev.size with hfit | hend
      · simp only [o, debugCdevRead, rw_normal henv hnode .read hfit]
        refine ⟨trivial, trivial, rfl, rfl, fun k hk => ?_⟩
        simp only [Op.copyBuf, copyToUser_all]
        rw [blit, if_pos ⟨Nat.zero_le k, by omega⟩, Nat.sub_zero]
        rfl
      · have hlen : req.len dev = 0 := by rw [Request.len]; omega
        simp [o, debugCdevRead, rw_end .read hend, hlen]

/-- What one table shows after a write to the other. -/
theorem flat_overwrite_other {t t' : TableType} (h : t' ≠ t) (p n q : ℕ) (d : ℕ → UInt8) :
    flat t'.memblockSize t'.slot (overwrite t.memblockSize t.slot b p d n) q
      = flat t'.memblockSize t'.slot b q := by
  have hmod := Nat.mod_lt q (memblockSize_pos t')
  rw [flat, flat, overwrite, if_neg]
  intro hin
  exact slot_disjoint h (Nat.le_add_right _ _) (by omega) ⟨hin.1, hin.2.1⟩

/-- **A write** replaces what the device shows from the position on, and nothing else that any
device shows. -/
theorem write_spec (henv : env.Calm) {node : Node} (hnode : dev.type = node.type)
    (hb : ∀ i, mem.memblockList i = some (b i)) :
    let o := debugCdevWrite env dev req mem
    o.exit = .ret (req.len dev) ∧ o.fPos = req.fPos + req.len dev ∧
      ∃ b', (∀ i, o.mem.memblockList i = some (b' i)) ∧
        Shows o.mem b' = Function.update (Shows mem b) node
          (blit (Shows mem b node) req.fPos mem.user 0 (req.len dev)) := by
  intro o
  cases node with
  | table t =>
      obtain ⟨hret, hfPos, hbuf, hlist⟩ := write_table henv hnode hb
      refine ⟨hret, hfPos, _, hlist, funext fun node' => funext fun q => ?_⟩
      cases node' with
      | table t' =>
          rcases eq_or_ne t' t with rfl | hne
          · rw [Function.update_self, Shows, flat_overwrite (memblockSize_pos t'), blit]
            simp only [Nat.zero_add]
            rfl
          · rw [Function.update_of_ne (by simpa using hne)]
            exact flat_overwrite_other hne ..
      | normal =>
          rw [Function.update_of_ne (by simp), Shows, Shows]
          exact congrFun hbuf q
  | normal =>
      rcases Nat.lt_or_ge req.fPos dev.size with hfit | hend
      · simp only [o, debugCdevWrite, rw_normal henv hnode .write hfit]
        refine ⟨trivial, trivial, b, hb, funext fun node' => ?_⟩
        cases node' with
        | table t' => simp [Shows]
        | normal => simp [Shows, Op.copyBuf]
      · have hlen : req.len dev = 0 := by rw [Request.len]; omega
        simp only [o, debugCdevWrite, rw_end .write hend, hlen]
        exact ⟨rfl, rfl, b, hb, by simp⟩

end Calls

/-! ### Sessions -/

/-- The memory shows what it should, and the open files are where they should be. -/
structure Rel (s : State D) (i : Ideal D) : Prop where
  files : i.files = s.files
  pos : ∀ d file, s.files d = some file → file.fPos < 2 ^ 63
  shows : ∃ b : ℕ → Memblock, (∀ k, s.mem.memblockList k = some (b k)) ∧
    i.content = Shows s.mem b

theorem pos_update {files : D → Option OpenFile} {d : D} {file : Option OpenFile}
    (hpos : ∀ d file, files d = some file → file.fPos < 2 ^ 63)
    (hfile : ∀ f, file = some f → f.fPos < 2 ^ 63) :
    ∀ e f, Function.update files d file e = some f → f.fPos < 2 ^ 63 := by
  intro e f hf
  rcases eq_or_ne e d with rfl | he
  · exact hfile f (by simpa using hf)
  · exact hpos e f (by simpa [he] using hf)

theorem idealLlseek_lt {size fPos : ℕ} (hpos : fPos < 2 ^ 63) (off : ℤ) (whence : Whence) :
    (idealLlseek size fPos off whence).2 < 2 ^ 63 := by
  unfold idealLlseek
  split
  · exact hpos
  · split_ifs
    · dsimp only
      omega
    · exact hpos

/-- **One call cannot tell the difference.** -/
theorem rel_step {env : Env} (henv : env.Calm) (devs : Devices) {s : State D} {i : Ideal D}
    (hrel : Rel s i) (c : Call D) :
    (step env devs s c).1 = (idealStep (fun n => (devs.dev n).size) i c).1 ∧
      Rel (step env devs s c).2 (idealStep (fun n => (devs.dev n).size) i c).2 := by
  obtain ⟨files, content⟩ := i
  obtain ⟨hfiles, hpos, b, hb, hshows⟩ := hrel
  obtain rfl : files = s.files := hfiles
  obtain rfl : content = Shows s.mem b := hshows
  cases c with
  | open_ d node =>
      refine ⟨rfl, rfl, pos_update hpos fun f hf => ?_, b, hb, rfl⟩
      rw [← Option.some.inj hf]
      exact Nat.two_pow_pos 63
  | release d => exact ⟨rfl, rfl, pos_update hpos (fun f hf => by cases hf), b, hb, rfl⟩
  | llseek d off whence =>
      cases hfile : s.files d with
      | none => simpa [step, idealStep, hfile] using ⟨rfl, hpos, b, hb, rfl⟩
      | some file =>
          have hlt := hpos d file hfile
          simp only [step, idealStep, hfile, debugCdevLlseek_eq _ hlt]
          refine ⟨trivial, rfl, pos_update hpos fun f hf => ?_, b, hb, rfl⟩
          rw [← Option.some.inj hf]
          exact idealLlseek_lt hlt ..
  | read d count =>
      cases hfile : s.files d with
      | none => simpa [step, idealStep, hfile] using ⟨rfl, hpos, b, hb, rfl⟩
      | some file =>
          have hlt := hpos d file hfile
          simp only [step, idealStep, hfile]
          by_cases hrange : file.fPos + count < 2 ^ 63
          · obtain ⟨hret, hfPos, hlist, hbuf, huser⟩ := @read_spec env (devs.dev file.node)
              ⟨file.fPos, count, by omega⟩ { s.mem with user := fun _ => 0 } b henv file.node
              (devs.type_eq _) hb
            simp only [dif_pos hrange, if_pos hrange, hret, hfPos]
            refine ⟨?_, rfl, pos_update hpos fun f hf => ?_, b, fun k => ?_, ?_⟩
            · refine congrArg (Answer.data _) (List.map_congr_left fun k hk => ?_)
              rw [List.mem_range, Int.toNat_natCast] at hk
              rw [huser k hk]
              cases file.node <;> rfl
            · rw [← Option.some.inj hf]
              exact lt_of_le_of_lt (Nat.add_le_add_left (Nat.min_le_left _ _) _) hrange
            · rw [hlist]
              exact hb k
            · funext node
              cases node with
              | table t => rfl
              | normal => exact hbuf.symm
          · simp only [dif_neg hrange, if_neg hrange]
            exact ⟨trivial, rfl, hpos, b, hb, rfl⟩
  | write d count buf =>
      cases hfile : s.files d with
      | none => simpa [step, idealStep, hfile] using ⟨rfl, hpos, b, hb, rfl⟩
      | some file =>
          have hlt := hpos d file hfile
          simp only [step, idealStep, hfile]
          by_cases hrange : file.fPos + count < 2 ^ 63
          · obtain ⟨hret, hfPos, b', hlist, hshows⟩ := @write_spec env (devs.dev file.node)
              ⟨file.fPos, count, by omega⟩ { s.mem with user := buf } b henv file.node
              (devs.type_eq _) hb
            simp only [dif_pos hrange, if_pos hrange, hret, hfPos]
            refine ⟨rfl, rfl, pos_update hpos fun f hf => ?_, b', hlist, ?_⟩
            · rw [← Option.some.inj hf]
              exact lt_of_le_of_lt (Nat.add_le_add_left (Nat.min_le_left _ _) _) hrange
            · rw [hshows]
              have hsame : Shows { s.mem with user := buf } b = Shows s.mem b := by
                funext node
                cases node <;> rfl
              rw [hsame]
              rfl
          · simp only [dif_neg hrange, if_neg hrange]
            exact ⟨trivial, rfl, hpos, b, hb, rfl⟩

/-- Two memblocks, and a plain buffer of sixteen bytes. -/
def smallDevices : Devices where
  dev
    | .table t => twoMemblocks t
    | .normal => ⟨.normal, 16, by decide⟩
  type_eq
    | .table _ => rfl
    | .normal => rfl

/-- Three bytes are written to the temp table across the boundary of its memblocks, and read back
through another file; the map table does not show them; and a seek that would wrap is refused. -/
def threeBytes : List (Call Bool) :=
  [.open_ false (.table .temptable), .open_ true (.table .temptable),
    .llseek false (BitVec.ofNat 64 (2 ^ 20 - 1)) .seekSet,
    .write false 3 fun k => UInt8.ofNat (k + 1),
    .llseek true (BitVec.ofInt 64 (-(2 ^ 20 + 1))) .seekEnd, .read true 4,
    .open_ true (.table .maptable), .llseek true (BitVec.ofNat 64 (2 ^ 20 - 1)) .seekSet,
    .read true 3, .llseek true (BitVec.ofNat 64 (2 ^ 63 - 1)) .seekCur]

end Session
end Cdev
end Shannon
