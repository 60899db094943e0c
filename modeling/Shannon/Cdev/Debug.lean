/-
# The debug character device

`shannon_cdev.c`: `debug_cdev_read` and `debug_cdev_write` show a table that is
scattered over memblocks as one file.  A memblock holds a part of the map table
and behind it a part of the temp table (`struct maptable_memblock`); the type of
the device says which of the two the file shows.

Four loops copy a request chunk by chunk, none longer than the rest of the
memblock it lies in.  Each round calls `check_and_alloc_memblock` with the file
position as an entry offset and then dereferences the memblock of the file
position, and the four differ in how they turn the position into the two:

| loop | check of the entry | dereferences |
| --- | --- | --- |
| read, map table | `f_pos >> 2` | `f_pos / 2^22` |
| read, temp table | `f_pos >> 2` | `f_pos / 2^20` |
| write, map table | `f_pos` | `f_pos / 2^22` |
| write, temp table | `f_pos` | `f_pos / 2^20` |

The check makes sure of entry `offset >> 20`, which the first and the last row
dereference.  The other two agree with it only inside the first memblock, and
`guarded_iff` says for which requests they do.

`check_and_alloc_memblock` is not part of the source and is a parameter, as are
the bytes a copy to or from user space does not manage.
-/

import Shannon.Lib.Cells

namespace Shannon
namespace Cdev

open Lib

/-- `MAPTABLE_TYPE_SIZE_SHIFT`. -/
def maptableTypeSizeShift : ℕ := 2

/-- `TEMPTABLE_TYPE_SIZE_SHIFT`. -/
def temptableTypeSizeShift : ℕ := 0

/-- `ENTRIES_PER_MEMBLOCK_SHIFT`. -/
def entriesPerMemblockShift : ℕ := 20

/-- `MAPTABLE_MEMBLOCK_SIZE`. -/
def maptableMemblockSize : ℕ := 2 ^ (maptableTypeSizeShift + entriesPerMemblockShift)

/-- `TEMPTABLE_MEMBLOCK_SIZE`. -/
def temptableMemblockSize : ℕ := 2 ^ (temptableTypeSizeShift + entriesPerMemblockShift)

/-- The tables of a memblock. -/
inductive TableType where
  | maptable
  | temptable
  deriving DecidableEq

/-- The bytes of the table in one memblock. -/
def TableType.memblockSize : TableType → ℕ
  | maptable => maptableMemblockSize
  | temptable => temptableMemblockSize

/-- Where the table starts in `struct maptable_memblock`. -/
def TableType.slot : TableType → ℕ
  | maptable => 0
  | temptable => maptableMemblockSize

/-- The type of a `debug_cdev`: `MAPTABLE_MEMBLOCK_TYPE` or
`TEMPTABLE_MEMBLOCK_TYPE`, `NORMAL_TYPE`, or some other character. -/
inductive CdevType where
  | memblock (t : TableType)
  | normal
  | other

/-- `struct debug_cdev`.  The size of a file is a `loff_t`. -/
structure DebugCdev where
  type : CdevType
  size : ℕ
  size_lt : size < 2 ^ 63

/-- The arguments of a read or a write.  `rw_verify_area` refuses a range that
wraps. -/
structure Request where
  fPos : ℕ
  count : ℕ
  nowrap : fPos + count < 2 ^ 64

/-- The bytes of a `struct maptable_memblock`. -/
abbrev Memblock := ℕ → UInt8

/-- `dev->buf`, as plain bytes or as a `struct scatter_memblock`, and the user's
buffer. -/
structure Memory where
  buf : ℕ → UInt8
  memblockList : ℕ → Option Memblock
  user : ℕ → UInt8

/-- What the rest of the kernel does in each round of a loop. -/
structure Env where
  /-- The value `check_and_alloc_memblock` returns, and the list it leaves. -/
  checkAndAllocMemblock : ℕ → (ℕ → Option Memblock) → ℕ → ℤ × (ℕ → Option Memblock)
  /-- On success the entry of the offset is allocated. -/
  checked : ∀ round list offset, (checkAndAllocMemblock round list offset).1 = 0 →
    ((checkAndAllocMemblock round list offset).2 (offset >>> entriesPerMemblockShift)).isSome
  /-- The value `copy_to_user` or `copy_from_user` returns for `n` bytes: how many of
  them it could not copy. -/
  uncopied : ℕ → ℕ → ℕ
  uncopied_le : ∀ round n, uncopied round n ≤ n

/-- A round that gets to its copy: the offset it checked and the entry of
`memblock_list` it dereferences. -/
structure Touch where
  offset : ℕ
  entry : ℕ
  deriving DecidableEq

/-- The entry dereferenced is the one the check made sure of. -/
def Touch.Guarded (t : Touch) : Prop := t.entry = t.offset >>> entriesPerMemblockShift

instance (t : Touch) : Decidable t.Guarded := inferInstanceAs (Decidable (_ = _))

/-- How a call ends. -/
inductive Exit where
  | ret (r : ℤ)
  | nullDeref
  deriving DecidableEq

/-- `-EFAULT`. -/
def efault : ℤ := -14

/-- `debug_cdev_read` or `debug_cdev_write`. -/
inductive Op where
  | read
  | write

/-- `copy_to_user` of `n` bytes, the last `u` of which cannot be copied. -/
def copyToUser (user : ℕ → UInt8) (o : ℕ) (src : ℕ → UInt8) (at_ n u : ℕ) : ℕ → UInt8 :=
  blit user o src at_ (n - u)

/-- `copy_from_user` of `n` bytes, the last `u` of which cannot be copied and are
padded with zeros. -/
def copyFromUser (dst : ℕ → UInt8) (at_ : ℕ) (user : ℕ → UInt8) (o n u : ℕ) : ℕ → UInt8 :=
  blit (blit dst at_ user o (n - u)) (at_ + (n - u)) (fun _ => 0) 0 u

@[simp] theorem copyToUser_all (user : ℕ → UInt8) (o : ℕ) (src : ℕ → UInt8) (at_ n : ℕ) :
    copyToUser user o src at_ n 0 = blit user o src at_ n := rfl

@[simp] theorem copyFromUser_all (dst : ℕ → UInt8) (at_ : ℕ) (user : ℕ → UInt8) (o n : ℕ) :
    copyFromUser dst at_ user o n 0 = blit dst at_ user o n := blit_zero ..

/-- The copy between byte `at_` of a memblock and byte `o` of the user's buffer. -/
def Op.copy (mem : Memory) (entry : ℕ) (mb : Memblock) (at_ o n u : ℕ) : Op → Memory
  | read => { mem with user := copyToUser mem.user o mb at_ n u }
  | write =>
      { mem with memblockList :=
          Function.update mem.memblockList entry (some (copyFromUser mb at_ mem.user o n u)) }

/-- The copy between byte `at_` of `dev->buf` and the user's buffer. -/
def Op.copyBuf (mem : Memory) (at_ n u : ℕ) : Op → Memory
  | read => { mem with user := copyToUser mem.user 0 mem.buf at_ n u }
  | write => { mem with buf := copyFromUser mem.buf at_ mem.user 0 n u }

/-! ### The loops -/

/-- One of the four loops: what it copies, the table, and the shift that makes an
entry offset of a file position. -/
structure CopyLoop where
  op : Op
  table : TableType
  checkShift : ℕ

def readMaptable : CopyLoop := ⟨.read, .maptable, maptableTypeSizeShift⟩

/-- The shift of the map table. -/
def readTemptable : CopyLoop := ⟨.read, .temptable, maptableTypeSizeShift⟩

/-- No shift. -/
def writeMaptable : CopyLoop := ⟨.write, .maptable, 0⟩

def writeTemptable : CopyLoop := ⟨.write, .temptable, 0⟩

def Op.loop : Op → TableType → CopyLoop
  | read, .maptable => readMaptable
  | read, .temptable => readTemptable
  | write, .maptable => writeMaptable
  | write, .temptable => writeTemptable

theorem loop_table (op : Op) (t : TableType) : (op.loop t).table = t := by
  cases op <;> cases t <;> rfl

/-- The variables of a loop, the memory, and the touches so far. -/
structure LoopState where
  fPos : ℕ
  remain : ℕ
  bufOffset : ℕ
  round : ℕ
  mem : Memory
  touches : List Touch

/-- `data_len`. -/
def CopyLoop.dataLen (l : CopyLoop) (s : LoopState) : ℕ :=
  if s.remain < l.table.memblockSize - s.fPos % l.table.memblockSize then s.remain
  else l.table.memblockSize - s.fPos % l.table.memblockSize

/-- The touch of a round at a file position. -/
def CopyLoop.touch (l : CopyLoop) (fPos : ℕ) : Touch :=
  ⟨fPos >>> l.checkShift, fPos / l.table.memblockSize⟩

/-- One round.  It leaves a state, and the way the call ends if it ends here. -/
def CopyLoop.step (l : CopyLoop) (env : Env) (s : LoopState) : LoopState × Option Exit :=
  let t := l.touch s.fPos
  let dataLen := l.dataLen s
  let checked := env.checkAndAllocMemblock s.round s.mem.memblockList t.offset
  let s := { s with mem := { s.mem with memblockList := checked.2 } }
  if checked.1 ≠ 0 then (s, some (.ret efault))
  else
    let s := { s with touches := s.touches ++ [t] }
    match checked.2 t.entry with
    | none => (s, some .nullDeref)
    | some mb =>
        let uncopied := env.uncopied s.round dataLen
        let s := { s with
          mem := l.op.copy s.mem t.entry mb (l.table.slot + s.fPos % l.table.memblockSize)
            s.bufOffset dataLen uncopied }
        if uncopied ≠ 0 then (s, some (.ret efault))
        else
          ({ s with
              fPos := s.fPos + dataLen
              remain := s.remain - dataLen
              bufOffset := s.bufOffset + dataLen
              round := s.round + 1 }, none)

theorem memblockSize_pos (t : TableType) : 0 < t.memblockSize := by
  cases t <;> exact Nat.two_pow_pos _

/-- A chunk ends with the request or with the memblock, so the loops never
complain that it crosses into the next one. -/
theorem dataLen_eq_min (l : CopyLoop) (s : LoopState) :
    l.dataLen s = min s.remain (toBoundary l.table.memblockSize s.fPos) := by
  rw [CopyLoop.dataLen, toBoundary]
  split_ifs <;> omega

theorem dataLen_pos (l : CopyLoop) {s : LoopState} (hs : s.remain ≠ 0) : 0 < l.dataLen s := by
  have := toBoundary_pos (memblockSize_pos l.table) s.fPos
  rw [dataLen_eq_min]
  omega

theorem dataLen_le (l : CopyLoop) (s : LoopState) : l.dataLen s ≤ s.remain := by
  rw [dataLen_eq_min]
  omega

/-- What a round can do.  It fails at the check, or it gets to its copy with the
checked entry allocated; there it dereferences NULL, or it fails in the copy, or
it moves on by one chunk. -/
theorem step_cases (l : CopyLoop) (env : Env) (s : LoopState) :
    (∃ list, l.step env s = ({ s with mem := { s.mem with memblockList := list } },
      some (.ret efault))) ∨
    ((l.step env s).1.touches = s.touches ++ [l.touch s.fPos] ∧
      (((l.step env s).2 = some .nullDeref ∧ ¬ (l.touch s.fPos).Guarded) ∨
        (l.step env s).2 = some (.ret efault) ∨
        ((l.step env s).2 = none ∧ (l.step env s).1.fPos = s.fPos + l.dataLen s ∧
          (l.step env s).1.remain = s.remain - l.dataLen s))) := by
  have hchecked := env.checked s.round s.mem.memblockList (l.touch s.fPos).offset
  simp only [CopyLoop.step]
  generalize env.checkAndAllocMemblock s.round s.mem.memblockList (l.touch s.fPos).offset = c
    at hchecked
  obtain ⟨r, list⟩ := c
  by_cases hr : r = 0
  · right
    have hsome := hchecked hr
    simp only [hr, ne_eq, not_true_eq_false, if_false] at hsome ⊢
    cases hmb : list (l.touch s.fPos).entry with
    | none =>
        refine ⟨rfl, .inl ⟨rfl, fun hguard => ?_⟩⟩
        rw [Touch.Guarded] at hguard
        rw [← hguard, hmb] at hsome
        exact absurd hsome (by decide)
    | some mb =>
        by_cases hu : env.uncopied s.round (l.dataLen s) = 0
        · simp [hu]
        · simp [hu]
  · exact .inl ⟨list, by simp [hr]⟩

theorem step_next {l : CopyLoop} {env : Env} {s s' : LoopState} (h : l.step env s = (s', none)) :
    s'.touches = s.touches ++ [l.touch s.fPos] ∧ s'.fPos = s.fPos + l.dataLen s ∧
      s'.remain = s.remain - l.dataLen s := by
  rcases step_cases l env s with ⟨list, hstep⟩ | ⟨htouch, hend⟩
  · exact absurd (h.symm.trans hstep) (by simp)
  · rw [h] at htouch hend
    exact ⟨htouch, by simpa using hend⟩

theorem step_stop {l : CopyLoop} {env : Env} {s s' : LoopState} {e : Exit}
    (h : l.step env s = (s', some e)) :
    (s'.touches = s.touches ∨ s'.touches = s.touches ++ [l.touch s.fPos]) ∧
      (e = .nullDeref → ¬ (l.touch s.fPos).Guarded) := by
  rcases step_cases l env s with ⟨list, hstep⟩ | ⟨htouch, hend⟩
  · obtain ⟨rfl, he⟩ := Prod.mk.inj (h.symm.trans hstep)
    obtain rfl := Option.some.inj he
    exact ⟨.inl rfl, fun hnull => absurd hnull (by simp)⟩
  · rw [h] at htouch hend
    refine ⟨.inr htouch, ?_⟩
    rintro rfl
    simpa using hend

theorem step_remain_lt {l : CopyLoop} {env : Env} {s s' : LoopState} (hs : s.remain ≠ 0)
    (h : l.step env s = (s', none)) : s'.remain < s.remain := by
  have hpos := dataLen_pos l hs
  obtain ⟨-, -, hrem⟩ := step_next h
  omega

/-- A whole loop. -/
def CopyLoop.run (l : CopyLoop) (env : Env) (s : LoopState) : LoopState × Option Exit :=
  if _hs : s.remain = 0 then (s, none)
  else
    match _h : l.step env s with
    | (s', some e) => (s', some e)
    | (s', none) => l.run env s'
termination_by s.remain
decreasing_by exact step_remain_lt _hs _h

theorem run_done (l : CopyLoop) (env : Env) {s : LoopState} (hs : s.remain = 0) :
    l.run env s = (s, none) := by
  rw [CopyLoop.run, dif_pos hs]

theorem run_stop {l : CopyLoop} {env : Env} {s s' : LoopState} {e : Exit} (hs : s.remain ≠ 0)
    (h : l.step env s = (s', some e)) : l.run env s = (s', some e) := by
  rw [CopyLoop.run, dif_neg hs]
  split <;> simp_all

/-! ### The calls -/

/-- What a call leaves: how it ended, the file position, the memory, and the
touches of its rounds. -/
structure Outcome where
  exit : Exit
  fPos : ℕ
  mem : Memory
  touches : List Touch

/-- The common text of `debug_cdev_read` and `debug_cdev_write`. -/
def debugCdevRw (op : Op) (env : Env) (dev : DebugCdev) (req : Request) (mem : Memory) :
    Outcome :=
  if dev.size ≤ req.fPos then ⟨.ret 0, req.fPos, mem, []⟩
  else
    let count :=
      if dev.size < (req.fPos + req.count) % 2 ^ 64 then dev.size - req.fPos else req.count
    match dev.type with
    | .normal =>
        let uncopied := env.uncopied 0 count
        let mem := op.copyBuf mem req.fPos count uncopied
        if uncopied ≠ 0 then ⟨.ret efault, req.fPos, mem, []⟩
        else ⟨.ret count, req.fPos + count, mem, []⟩
    | .memblock t =>
        let r := (op.loop t).run env ⟨req.fPos, count, 0, 0, mem, []⟩
        ⟨r.2.getD (.ret count), r.1.fPos, r.1.mem, r.1.touches⟩
    | .other => ⟨.ret count, req.fPos, mem, []⟩

/-- `debug_cdev_read`. -/
def debugCdevRead : Env → DebugCdev → Request → Memory → Outcome := debugCdevRw .read

/-- `debug_cdev_write`. -/
def debugCdevWrite : Env → DebugCdev → Request → Memory → Outcome := debugCdevRw .write

/-- The bytes of a request that lie in the file. -/
def Request.len (req : Request) (dev : DebugCdev) : ℕ := min req.count (dev.size - req.fPos)

/-- The state a loop starts in. -/
def Request.start (req : Request) (dev : DebugCdev) (mem : Memory) : LoopState :=
  ⟨req.fPos, req.len dev, 0, 0, mem, []⟩

/-- A call on a table is one run of its loop, over the bytes that lie in the
file. -/
theorem debugCdevRw_eq (op : Op) (env : Env) {dev : DebugCdev} {t : TableType}
    (ht : dev.type = .memblock t) (req : Request) (mem : Memory) :
    debugCdevRw op env dev req mem =
      ⟨((op.loop t).run env (req.start dev mem)).2.getD (.ret (req.len dev)),
        ((op.loop t).run env (req.start dev mem)).1.fPos,
        ((op.loop t).run env (req.start dev mem)).1.mem,
        ((op.loop t).run env (req.start dev mem)).1.touches⟩ := by
  by_cases hsize : dev.size ≤ req.fPos
  · have hlen : req.len dev = 0 := by
      rw [Request.len]
      omega
    rw [debugCdevRw, if_pos hsize, run_done _ _ (show (req.start dev mem).remain = 0 from hlen),
      hlen]
    rfl
  · have hcount : (if dev.size < (req.fPos + req.count) % 2 ^ 64 then dev.size - req.fPos
        else req.count) = req.len dev := by
      rw [Request.len, Nat.mod_eq_of_lt req.nowrap]
      split_ifs <;> omega
    simp only [debugCdevRw, if_neg hsize, hcount, ht]
    rfl

/-! ### Which rounds are guarded -/

/-- Every round starts where the request enters a memblock. -/
theorem run_touches (l : CopyLoop) (env : Env) (s : LoopState) :
    (∀ t ∈ (l.run env s).1.touches, t ∈ s.touches ∨
      ∃ q, Enters l.table.memblockSize s.fPos s.remain q ∧ t = l.touch q) ∧
    ((l.run env s).2 = some .nullDeref →
      ∃ q, Enters l.table.memblockSize s.fPos s.remain q ∧ ¬ (l.touch q).Guarded) := by
  have henters {s : LoopState} (hs : s.remain ≠ 0) (q : ℕ) := dataLen_eq_min l s ▸
    enters_iff (memblockSize_pos l.table) (Nat.pos_of_ne_zero hs) s.fPos q
  fun_induction CopyLoop.run l env s with
  | case1 s hs => exact ⟨fun t ht => .inl ht, fun h => absurd h (by simp)⟩
  | case2 s hs s' e h =>
      have hhere := (henters hs s.fPos).2 (.inl rfl)
      obtain ⟨htouch, hnull⟩ := step_stop h
      refine ⟨fun t ht => ?_, fun he => ⟨s.fPos, hhere, hnull (Option.some.inj he)⟩⟩
      rcases htouch with htouch | htouch
      · exact .inl (htouch ▸ ht)
      · rw [htouch, List.mem_append, List.mem_singleton] at ht
        exact ht.imp_right fun ht => ⟨s.fPos, hhere, ht⟩
  | case3 s hs s' h ih =>
      obtain ⟨htouch, hpos, hrem⟩ := step_next h
      rw [hpos, hrem] at ih
      refine ⟨fun t ht => ?_, fun hnull => ?_⟩
      · rcases ih.1 t ht with ht | ⟨q, hq, rfl⟩
        · rw [htouch, List.mem_append, List.mem_singleton] at ht
          exact ht.imp_right fun ht => ⟨s.fPos, (henters hs _).2 (.inl rfl), ht⟩
        · exact .inr ⟨q, (henters hs q).2 (.inr hq), rfl⟩
      · obtain ⟨q, hq, hguard⟩ := ih.2 hnull
        exact ⟨q, (henters hs q).2 (.inr hq), hguard⟩

/-- Nothing goes wrong: copies are complete, and `check_and_alloc_memblock` leaves
the list alone where the entry is already allocated. -/
structure Env.Calm (env : Env) : Prop where
  copied : ∀ round n, env.uncopied round n = 0
  kept : ∀ round list offset, (list (offset >>> entriesPerMemblockShift)).isSome →
    env.checkAndAllocMemblock round list offset = (0, list)

/-- The state after a round that copies its whole chunk. -/
def CopyLoop.advance (l : CopyLoop) (s : LoopState) (mb : Memblock) : LoopState where
  fPos := s.fPos + l.dataLen s
  remain := s.remain - l.dataLen s
  bufOffset := s.bufOffset + l.dataLen s
  round := s.round + 1
  mem := l.op.copy s.mem (s.fPos / l.table.memblockSize) mb
    (l.table.slot + s.fPos % l.table.memblockSize) s.bufOffset (l.dataLen s) 0
  touches := s.touches ++ [l.touch s.fPos]

@[simp] theorem advance_fPos (l : CopyLoop) (s : LoopState) (mb : Memblock) :
    (l.advance s mb).fPos = s.fPos + l.dataLen s := rfl

@[simp] theorem advance_remain (l : CopyLoop) (s : LoopState) (mb : Memblock) :
    (l.advance s mb).remain = s.remain - l.dataLen s := rfl

@[simp] theorem advance_bufOffset (l : CopyLoop) (s : LoopState) (mb : Memblock) :
    (l.advance s mb).bufOffset = s.bufOffset + l.dataLen s := rfl

theorem step_calm {env : Env} (henv : env.Calm) (l : CopyLoop) {s : LoopState}
    {b : ℕ → Memblock} (hb : ∀ i, s.mem.memblockList i = some (b i)) :
    l.step env s = (l.advance s (b (s.fPos / l.table.memblockSize)), none) := by
  have hkept := henv.kept s.round s.mem.memblockList (l.touch s.fPos).offset (by simp [hb])
  have hentry : s.mem.memblockList (l.touch s.fPos).entry
      = some (b (s.fPos / l.table.memblockSize)) := hb _
  simp only [CopyLoop.step, hkept, henv.copied, hentry, ne_eq, not_true_eq_false, if_false]
  rfl

theorem update_allocated {list : ℕ → Option Memblock} {b : ℕ → Memblock}
    (hb : ∀ i, list i = some (b i)) (entry : ℕ) (mb : Memblock) (i : ℕ) :
    Function.update list entry (some mb) i = some (Function.update b entry mb i) := by
  rw [Function.apply_update (fun _ => some) b, ← funext hb]

/-- The memblocks stay allocated. -/
theorem allocated_advance (l : CopyLoop) {s : LoopState} {b : ℕ → Memblock}
    (hb : ∀ i, s.mem.memblockList i = some (b i)) (mb : Memblock) :
    ∃ b' : ℕ → Memblock, ∀ i, (l.advance s mb).mem.memblockList i = some (b' i) := by
  obtain ⟨op, table, shift⟩ := l
  cases op with
  | read => exact ⟨b, hb⟩
  | write => exact ⟨_, update_allocated hb _ _⟩

/-- Where nothing goes wrong, the loop gets to every place the request enters a
memblock. -/
theorem touch_mem_run {env : Env} (henv : env.Calm) (l : CopyLoop) (s : LoopState)
    (hb : ∃ b : ℕ → Memblock, ∀ i, s.mem.memblockList i = some (b i)) :
    (∀ t ∈ s.touches, t ∈ (l.run env s).1.touches) ∧
      ∀ q, Enters l.table.memblockSize s.fPos s.remain q →
        l.touch q ∈ (l.run env s).1.touches := by
  fun_induction CopyLoop.run l env s with
  | case1 s hs =>
      refine ⟨fun t ht => ht, fun q hq => ?_⟩
      obtain ⟨hle, hlt, -⟩ := hq
      omega
  | case2 s hs s' e h =>
      obtain ⟨b, hb⟩ := hb
      exact absurd ((step_calm henv l hb).symm.trans h) (by simp)
  | case3 s hs s' h ih =>
      obtain ⟨b, hb⟩ := hb
      obtain ⟨rfl, -⟩ := Prod.mk.inj ((step_calm henv l hb).symm.trans h)
      obtain ⟨hold, hnew⟩ := ih (allocated_advance l hb _)
      refine ⟨fun t ht => hold t (List.mem_append_left _ ht), fun q hq => ?_⟩
      rw [enters_iff (memblockSize_pos l.table) (Nat.pos_of_ne_zero hs), ← dataLen_eq_min] at hq
      rcases hq with rfl | hq
      · exact hold _ (List.mem_append_right _ (List.mem_singleton_self _))
      · exact hnew q hq

/-- A call touches only memblocks it has made sure of. -/
def Outcome.Guarded (o : Outcome) : Prop := o.exit ≠ .nullDeref ∧ ∀ t ∈ o.touches, t.Guarded

/-- `check_and_alloc_memblock` that allocates a fresh memblock where there is none,
with copies that succeed. -/
def allocEnv : Env where
  checkAndAllocMemblock := fun _ list offset =>
    (0, Function.update list (offset >>> entriesPerMemblockShift)
      (some ((list (offset >>> entriesPerMemblockShift)).getD fun _ => 255)))
  checked := fun _ list offset _ => by simp
  uncopied := fun _ _ => 0
  uncopied_le := fun _ n => Nat.zero_le n

theorem allocEnv_calm : allocEnv.Calm where
  copied := fun _ _ => rfl
  kept := by
    intro round list offset hsome
    obtain ⟨mb, hmb⟩ := Option.isSome_iff_exists.1 hsome
    simp only [allocEnv, hmb, Option.getD_some]
    rw [← hmb, Function.update_eq_self]

/-- **A call is guarded, whatever happens around it, exactly if every round that
could be its own is**: those where the request enters a memblock. -/
theorem guarded_iff_enters (op : Op) (dev : DebugCdev) (req : Request) :
    (∀ env mem, (debugCdevRw op env dev req mem).Guarded) ↔
      ∀ t, dev.type = .memblock t → ∀ q, Enters t.memblockSize req.fPos (req.len dev) q →
        ((op.loop t).touch q).Guarded := by
  constructor
  · intro h t ht q hq
    have hall : ∃ b : ℕ → Memblock, ∀ i,
        (req.start dev ⟨fun _ => 0, fun _ => some fun _ => 0, fun _ => 0⟩).mem.memblockList i
          = some (b i) := ⟨fun _ _ => 0, fun _ => rfl⟩
    obtain ⟨-, htouch⟩ := touch_mem_run allocEnv_calm (op.loop t) _ hall
    have hmem := htouch q (by rw [loop_table]; exact hq)
    have hguard := (h allocEnv ⟨fun _ => 0, fun _ => some fun _ => 0, fun _ => 0⟩).2
    rw [debugCdevRw_eq op allocEnv ht] at hguard
    exact hguard _ hmem
  · intro h env mem
    cases ht : dev.type with
    | memblock t =>
        obtain ⟨htouch, hnull⟩ := run_touches (op.loop t) env (req.start dev mem)
        rw [loop_table] at htouch hnull
        rw [debugCdevRw_eq op env ht]
        refine ⟨fun hexit => ?_, fun u hu => ?_⟩
        · cases hrun : ((op.loop t).run env (req.start dev mem)).2 with
          | none => simp [hrun] at hexit
          | some e =>
              simp only [hrun, Option.getD_some] at hexit
              obtain ⟨q, hq, hguard⟩ := hnull (hrun.trans (congrArg some hexit))
              exact hguard (h t ht q hq)
        · rcases htouch u hu with hu | ⟨q, hq, rfl⟩
          · exact absurd hu List.not_mem_nil
          · exact h t ht q hq
    | normal =>
        simp only [debugCdevRw, ht]
        split_ifs <;> exact ⟨by simp, fun t h => absurd h List.not_mem_nil⟩
    | other =>
        simp only [debugCdevRw, ht]
        split_ifs <;> exact ⟨by simp, fun t h => absurd h List.not_mem_nil⟩

/-! ### The four loops -/

/-- The two loops that shift by the size of their own entries. -/
theorem readMaptable_guarded (q : ℕ) : (readMaptable.touch q).Guarded := by
  show q / 2 ^ 22 = q >>> 2 >>> 20
  rw [← Nat.shiftRight_add, Nat.shiftRight_eq_div_pow]

theorem writeTemptable_guarded (q : ℕ) : (writeTemptable.touch q).Guarded := by
  show q / 2 ^ 20 = q >>> 0 >>> 20
  rw [Nat.shiftRight_zero, Nat.shiftRight_eq_div_pow]

/-- The read of the temp table looks at one entry for every four memblocks. -/
theorem readTemptable_guarded_iff (q : ℕ) :
    (readTemptable.touch q).Guarded ↔ q < 2 ^ entriesPerMemblockShift := by
  show q / 2 ^ 20 = q >>> 2 >>> 20 ↔ q < 2 ^ 20
  rw [← Nat.shiftRight_add, Nat.shiftRight_eq_div_pow]
  omega

/-- The write of the map table looks at four entries for every memblock. -/
theorem writeMaptable_guarded_iff (q : ℕ) :
    (writeMaptable.touch q).Guarded ↔ q < 2 ^ entriesPerMemblockShift := by
  show q / 2 ^ 22 = q >>> 0 >>> 20 ↔ q < 2 ^ 20
  rw [Nat.shiftRight_zero, Nat.shiftRight_eq_div_pow]
  omega

/-- **When the debug device touches only memblocks it has made sure of.**  Reads of
the map table and writes of the temp table always do, whatever
`check_and_alloc_memblock` and the copies do.  A read of the temp table does when
it stays in the first memblock, and a write of the map table when it moreover
starts in the first quarter of it. -/
theorem guarded_iff (dev : DebugCdev) (req : Request) :
    ((∀ env mem, (debugCdevRead env dev req mem).Guarded) ↔
      (dev.type = .memblock .temptable → req.len dev = 0 ∨
        req.fPos < 2 ^ entriesPerMemblockShift ∧
          req.fPos + req.len dev ≤ temptableMemblockSize)) ∧
    ((∀ env mem, (debugCdevWrite env dev req mem).Guarded) ↔
      (dev.type = .memblock .maptable → req.len dev = 0 ∨
        req.fPos < 2 ^ entriesPerMemblockShift ∧
          req.fPos + req.len dev ≤ maptableMemblockSize)) := by
  have hpos : 0 < 2 ^ entriesPerMemblockShift := Nat.two_pow_pos _
  have htemp : 2 ^ entriesPerMemblockShift ≤ temptableMemblockSize := by decide
  have hmap : 2 ^ entriesPerMemblockShift ≤ maptableMemblockSize := by decide
  constructor
  · refine (guarded_iff_enters .read dev req).trans ⟨fun h ht => ?_, fun h t ht q hq => ?_⟩
    · rw [← enters_lt_iff hpos htemp]
      exact fun q hq => (readTemptable_guarded_iff q).1 (h .temptable ht q hq)
    · cases t with
      | maptable => exact readMaptable_guarded q
      | temptable =>
          exact (readTemptable_guarded_iff q).2 ((enters_lt_iff hpos htemp _ _).2 (h ht) q hq)
  · refine (guarded_iff_enters .write dev req).trans ⟨fun h ht => ?_, fun h t ht q hq => ?_⟩
    · rw [← enters_lt_iff hpos hmap]
      exact fun q hq => (writeMaptable_guarded_iff q).1 (h .maptable ht q hq)
    · cases t with
      | maptable =>
          exact (writeMaptable_guarded_iff q).2 ((enters_lt_iff hpos hmap _ _).2 (h ht) q hq)
      | temptable => exact writeTemptable_guarded q

/-- A device over two memblocks of a table, none of them allocated. -/
def twoMemblocks (t : TableType) : DebugCdev :=
  ⟨.memblock t, 2 * t.memblockSize, by cases t <;> decide⟩

def noMemory : Memory := ⟨fun _ => 0, fun _ => none, fun _ => 0⟩

/-- One byte at position 2^20. -/
def oneByte : Request := ⟨2 ^ 20, 1, by decide⟩

/-- A read of the temp table at the start of its second memblock makes sure of the
first one and dereferences the second, and a write of the map table in the second
quarter of its first memblock makes sure of the second one and dereferences the
first.  Nothing was allocated before, and both end at a NULL pointer. -/
theorem not_guarded :
    (debugCdevRead allocEnv (twoMemblocks .temptable) oneByte noMemory).touches = [⟨2 ^ 18, 1⟩] ∧
    (debugCdevRead allocEnv (twoMemblocks .temptable) oneByte noMemory).exit = .nullDeref ∧
    ¬ (debugCdevRead allocEnv (twoMemblocks .temptable) oneByte noMemory).Guarded ∧
    (debugCdevWrite allocEnv (twoMemblocks .maptable) oneByte noMemory).touches = [⟨2 ^ 20, 0⟩] ∧
    (debugCdevWrite allocEnv (twoMemblocks .maptable) oneByte noMemory).exit = .nullDeref ∧
    ¬ (debugCdevWrite allocEnv (twoMemblocks .maptable) oneByte noMemory).Guarded := by
  have hread : readTemptable.run allocEnv (oneByte.start (twoMemblocks .temptable) noMemory)
      = readTemptable.step allocEnv (oneByte.start (twoMemblocks .temptable) noMemory) :=
    run_stop (by decide) rfl
  have hwrite : writeMaptable.run allocEnv (oneByte.start (twoMemblocks .maptable) noMemory)
      = writeMaptable.step allocEnv (oneByte.start (twoMemblocks .maptable) noMemory) :=
    run_stop (by decide) rfl
  rw [debugCdevRead, debugCdevWrite, debugCdevRw_eq .read allocEnv (t := .temptable) rfl,
    debugCdevRw_eq .write allocEnv (t := .maptable) rfl]
  simp only [Op.loop, hread, hwrite]
  refine ⟨rfl, rfl, fun h => h.1 rfl, rfl, rfl, fun h => h.1 rfl⟩

end Cdev
end Shannon
