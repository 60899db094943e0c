/-
# The debug device as one flat file

With all memblocks allocated and copies that succeed, the loops of
`debug_cdev_read` and `debug_cdev_write` treat the tables of one type as a single
file: their parts in the memblocks, one after the other.

A round copies inside one memblock, and the file position, the remaining bytes and
the buffer offset move on by the same chunk.  So each loop is one copy out of the
flat file (`run_read`), or one replacement of a range of it (`run_write`), however
many memblocks the range crosses.  `flat_file` puts the two together.
-/

import Shannon.Cdev.Debug

namespace Shannon
namespace Cdev

open Lib

/-- The file over the first `m` memblocks. -/
def TableType.file (t : TableType) (b : ℕ → Memblock) (m : ℕ) : List UInt8 :=
  concat t.memblockSize t.slot b m

/-- A read that returns `n`, moves the position by `n`, and delivers `n` bytes of
the file from the position on, where `n` is the part of the request that lies in
the file. -/
structure ReadsFile (t : TableType) (b : ℕ → Memblock) (dev : DebugCdev) (req : Request)
    (mem : Memory) (o : Outcome) : Prop where
  ret : o.exit = .ret (req.len dev)
  fPos : o.fPos = req.fPos + req.len dev
  data : ∀ m, dev.size ≤ m * t.memblockSize →
    (List.range (req.len dev)).map o.mem.user = ((t.file b m).drop req.fPos).take (req.len dev)
  kept : o.mem.memblockList = mem.memblockList

/-- A write that returns `n`, moves the position by `n`, and turns the memblocks `b`
into `b'`, where the bytes of the file from the position on are the user's first
`n` bytes and every other byte is as before. -/
structure WritesFile (t : TableType) (b b' : ℕ → Memblock) (dev : DebugCdev) (req : Request)
    (mem : Memory) (o : Outcome) : Prop where
  ret : o.exit = .ret (req.len dev)
  fPos : o.fPos = req.fPos + req.len dev
  list : ∀ i, o.mem.memblockList i = some (b' i)
  data : ∀ i j, b' i j =
    if t.slot ≤ j ∧ j < t.slot + t.memblockSize ∧
        req.fPos ≤ i * t.memblockSize + (j - t.slot) ∧
        i * t.memblockSize + (j - t.slot) < req.fPos + req.len dev then
      mem.user (i * t.memblockSize + (j - t.slot) - req.fPos)
    else b i j
  others : ∀ t', t' ≠ t → ∀ m, t'.file b' m = t'.file b m

section Loops

variable {env : Env} {l : CopyLoop}

/-- A loop that reads copies one range out of the flat file. -/
theorem run_read (henv : env.Calm) (hop : l.op = .read) (s : LoopState) {b : ℕ → Memblock}
    (hb : ∀ i, s.mem.memblockList i = some (b i)) :
    (l.run env s).2 = none ∧ (l.run env s).1.fPos = s.fPos + s.remain ∧
      (l.run env s).1.mem.memblockList = s.mem.memblockList ∧
      (l.run env s).1.mem.user = blit s.mem.user s.bufOffset
        (flat l.table.memblockSize l.table.slot b) s.fPos s.remain := by
  fun_induction CopyLoop.run l env s with
  | case1 s hs => simp [hs]
  | case2 s hs s' e h => exact absurd ((step_calm henv l hb).symm.trans h) (by simp)
  | case3 s hs s' h ih =>
      obtain ⟨rfl, -⟩ := Prod.mk.inj ((step_calm henv l hb).symm.trans h)
      have hle := dataLen_le l s
      have hlist : (l.advance s (b (s.fPos / l.table.memblockSize))).mem.memblockList
          = s.mem.memblockList := by
        rw [CopyLoop.advance, hop, Op.copy]
      -- the chunk lies in one memblock, where the file is the table of that memblock
      have huser : (l.advance s (b (s.fPos / l.table.memblockSize))).mem.user
          = blit s.mem.user s.bufOffset (flat l.table.memblockSize l.table.slot b) s.fPos
            (l.dataLen s) := by
        rw [CopyLoop.advance, hop, Op.copy, copyToUser_all]
        refine blit_congr _ _ fun k hk => (flat_add (memblockSize_pos l.table) b ?_).symm
        rw [dataLen_eq_min] at hk
        omega
      obtain ⟨hnone, hpos, hrestList, hrestUser⟩ := ih (by rw [hlist]; exact hb)
      refine ⟨hnone, ?_, hrestList.trans hlist, ?_⟩
      · rw [hpos, advance_fPos, advance_remain]
        omega
      · rw [hrestUser, huser, advance_fPos, advance_remain, advance_bufOffset, blit_append,
          Nat.add_sub_cancel' hle]

/-- A loop that writes replaces one range of the flat file. -/
theorem run_write (henv : env.Calm) (hop : l.op = .write) (s : LoopState) {b : ℕ → Memblock}
    (hb : ∀ i, s.mem.memblockList i = some (b i)) :
    (l.run env s).2 = none ∧ (l.run env s).1.fPos = s.fPos + s.remain ∧
      ∀ i, (l.run env s).1.mem.memblockList i = some (overwrite l.table.memblockSize
        l.table.slot b s.fPos (fun k => s.mem.user (s.bufOffset + k)) s.remain i) := by
  fun_induction CopyLoop.run l env s generalizing b with
  | case1 s hs => exact ⟨rfl, by rw [hs]; rfl, fun i => by rw [hs, overwrite_zero, hb]⟩
  | case2 s hs s' e h => exact absurd ((step_calm henv l hb).symm.trans h) (by simp)
  | case3 s hs s' h ih =>
      obtain ⟨rfl, -⟩ := Prod.mk.inj ((step_calm henv l hb).symm.trans h)
      have hle := dataLen_le l s
      have hlen : l.dataLen s ≤ toBoundary l.table.memblockSize s.fPos := by
        rw [dataLen_eq_min]
        exact Nat.min_le_right _ _
      have huser : (l.advance s (b (s.fPos / l.table.memblockSize))).mem.user = s.mem.user := by
        rw [CopyLoop.advance, hop, Op.copy]
      -- the chunk lies in one memblock, so storing it there replaces a range of the file
      have hlist (i : ℕ) : (l.advance s (b (s.fPos / l.table.memblockSize))).mem.memblockList i
          = some (overwrite l.table.memblockSize l.table.slot b s.fPos
            (fun k => s.mem.user (s.bufOffset + k)) (l.dataLen s) i) := by
        rw [CopyLoop.advance, hop, Op.copy, copyFromUser_all,
          ← overwrite_window (memblockSize_pos l.table) b _ _ hlen]
        exact update_allocated hb _ _ i
      obtain ⟨hnone, hpos, hrest⟩ := ih hlist
      refine ⟨hnone, ?_, fun i => ?_⟩
      · rw [hpos, advance_fPos, advance_remain]
        omega
      · have hdata : (fun k => s.mem.user (s.bufOffset + l.dataLen s + k))
            = fun k => s.mem.user (s.bufOffset + (l.dataLen s + k)) := by
          funext k
          rw [Nat.add_assoc]
        rw [hrest, huser, advance_fPos, advance_remain, advance_bufOffset, hdata,
          overwrite_append _ _ _ (fun k => s.mem.user (s.bufOffset + k)), Nat.add_sub_cancel' hle]

end Loops

/-! ### The calls -/

section Calls

variable {env : Env} {dev : DebugCdev} {t : TableType} {req : Request} {mem : Memory}
  {b : ℕ → Memblock}

theorem loop_op (op : Op) (t : TableType) : (op.loop t).op = op := by
  cases op <;> cases t <;> rfl

/-- The tables do not overlap. -/
theorem slot_disjoint {t t' : TableType} (h : t' ≠ t) {j : ℕ} (hle : t'.slot ≤ j)
    (hlt : j < t'.slot + t'.memblockSize) : ¬ (t.slot ≤ j ∧ j < t.slot + t.memblockSize) := by
  cases t <;> cases t' <;> simp only [TableType.slot, TableType.memblockSize] at *
  · exact absurd rfl h
  · omega
  · omega
  · exact absurd rfl h

/-- The user's buffer after a read. -/
theorem read_user (henv : env.Calm) (ht : dev.type = .memblock t) (req : Request)
    (hb : ∀ i, mem.memblockList i = some (b i)) :
    (debugCdevRead env dev req mem).mem.user
      = blit mem.user 0 (flat t.memblockSize t.slot b) req.fPos (req.len dev) := by
  obtain ⟨-, -, -, huser⟩ := run_read henv (loop_op .read t) (req.start dev mem) hb
  rw [loop_table] at huser
  rw [debugCdevRead, debugCdevRw_eq .read env ht]
  exact huser

theorem read_readsFile (henv : env.Calm) (ht : dev.type = .memblock t)
    (hpos : req.fPos < dev.size) (hb : ∀ i, mem.memblockList i = some (b i)) :
    ReadsFile t b dev req mem (debugCdevRead env dev req mem) := by
  have huser := read_user henv ht req hb
  obtain ⟨hnone, hfPos, hlist, -⟩ := run_read henv (loop_op .read t) (req.start dev mem) hb
  rw [debugCdevRead, debugCdevRw_eq .read env ht] at huser ⊢
  refine ⟨?_, hfPos, fun m hm => ?_, hlist⟩
  · simp only [hnone, Option.getD_none]
  · have hfit : req.fPos + req.len dev ≤ m * t.memblockSize := by
      rw [Request.len]
      omega
    rw [TableType.file, take_drop_concat b hfit, huser]
    refine List.map_congr_left fun k hk => ?_
    rw [blit, if_pos ⟨Nat.zero_le k, by simpa using hk⟩, Nat.sub_zero]

theorem write_writesFile (henv : env.Calm) (ht : dev.type = .memblock t) (req : Request)
    (hb : ∀ i, mem.memblockList i = some (b i)) :
    WritesFile t b (overwrite t.memblockSize t.slot b req.fPos mem.user (req.len dev)) dev req mem
      (debugCdevWrite env dev req mem) := by
  obtain ⟨hnone, hfPos, hlist⟩ := run_write henv (loop_op .write t) (req.start dev mem) hb
  rw [loop_table] at hlist
  rw [debugCdevWrite, debugCdevRw_eq .write env ht]
  refine ⟨?_, hfPos, fun i => ?_, fun i j => rfl, fun t' ht' m => ?_⟩
  · simp only [hnone, Option.getD_none]
  · simpa [Request.start] using hlist i
  · refine concat_congr (fun i j hle hlt => if_neg fun h => ?_) m
    exact slot_disjoint ht' hle hlt ⟨h.1, h.2.1⟩

end Calls

/-- Memblocks full of zeros, and a buffer that counts. -/
def zeroMemory : Memory := ⟨fun _ => 0, fun _ => some fun _ => 0, fun k => UInt8.ofNat (k + 1)⟩

/-- Two bytes across the boundary of two memblocks of a temp table. -/
def acrossBoundary : Request := ⟨2 ^ 20 - 1, 2, by decide⟩

end Cdev
end Shannon
