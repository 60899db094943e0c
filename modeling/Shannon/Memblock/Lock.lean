/-
# The memblock lock

`shannon_memblock.h`: one `int` per memory block of the map table is both a
count of the threads that use the block simultaneously and the flag of a thread
that has it exclusively.  A simultaneous locker adds 1 and waits until the
counter is not negative; a thread that already uses the block tries to get it
exclusively by taking off `0xffff` and looks whether the rest is its own 1.

The atomic operations of the counter are the steps, so a failed
`smb_exclusively_trylock` is two steps between which everybody sees the counter
`0xffff` too low, and a waiter has added its 1 long before it gets the lock.
What ties the counter to the threads is that it is the sum of what they have
put in (`Inv.counter_eq`); with at most `0x7fff` threads the sum never leaves
the range of an `int`, and it is negative as soon as one `0xffff` is missing.
-/

import Mathlib.Algebra.BigOperators.Fin
import Mathlib.Algebra.Order.BigOperators.Group.Finset
import Mathlib.Data.Fintype.BigOperators
import Shannon.Lib.Run

namespace Shannon
namespace Memblock

open Lib

/-! ### The counter -/

/-- The value of an `int` after an operation: 32 bits, two's complement. -/
def toInt (x : ℤ) : ℤ := x.bmod (2 ^ 32)

/-- `shannon_atomic_add_return`: the new value, which is also returned. -/
def shannonAtomicAddReturn (i v : ℤ) : ℤ := toInt (v + i)

/-- `shannon_atomic_sub_return`. -/
def shannonAtomicSubReturn (i v : ℤ) : ℤ := toInt (v - i)

/-- `smb_lock`. -/
def smbLock (counter : ℤ) : ℤ := shannonAtomicAddReturn 1 counter

/-- `smb_unlock`. -/
def smbUnlock (counter : ℤ) : ℤ := shannonAtomicSubReturn 1 counter

/-- `smb_lock_by_cnt`. -/
def smbLockByCnt (counter cnt : ℤ) : ℤ := shannonAtomicAddReturn cnt counter

/-- `smb_unlock_by_cnt`. -/
def smbUnlockByCnt (counter cnt : ℤ) : ℤ := shannonAtomicSubReturn cnt counter

/-! ### Threads -/

/-- The macros a thread can call. -/
inductive Call where
  | simultaneouslyLock
  | simultaneouslyLockRetry (retry : ℤ)
  | simultaneouslyUnlock
  | exclusivelyTrylock
  | exclusivelyUnlock
deriving DecidableEq, Repr

/-- Where a thread is. -/
inductive Pc where
  /-- Outside. -/
  | idle
  /-- In the loop of `smb_simultaneously_lock`. -/
  | lockSpin
  /-- In the loop of `smb_simultaneously_lock_retry`, with `__retry_cnt`. -/
  | retryLoop (retry : ℤ) (cnt : ℕ)
  /-- Holds the simultaneous lock. -/
  | held
  /-- In `smb_exclusively_trylock`, after the comparison failed. -/
  | trylockBack
  /-- Holds the exclusive lock, on top of the simultaneous one. -/
  | exclusive
deriving DecidableEq, Repr

/-- A thread.  Besides its place it carries what no code reads: the sum of all
it has added to the counter, that sum when the current call began, and the
value the last call returned, until the next call begins. -/
structure Thread where
  pc : Pc
  contrib : ℤ
  atCall : ℤ
  returned : Option (Call × ℤ)
deriving DecidableEq, Repr

/-- A call begins. -/
def Thread.enter (th : Thread) : Thread := { th with atCall := th.contrib, returned := none }

/-- The thread adds `d` to the counter and goes on at `pc`. -/
def Thread.add (th : Thread) (d : ℤ) (pc : Pc) : Thread :=
  { th with pc := pc, contrib := th.contrib + d }

/-- The call returns `v`. -/
def Thread.return (th : Thread) (c : Call) (v : ℤ) : Thread := { th with returned := some (c, v) }

/-- What a thread does next: call a macro, or go on in the one it is in. -/
inductive Act where
  | call (c : Call)
  | continue
deriving DecidableEq, Repr

/-- One atomic operation of a thread on the counter.  `none` where the call is
not made: the simultaneous lock is not taken twice by one thread, only its
holder unlocks it or tries to get the exclusive one, and only the holder of
that unlocks it. -/
def threadStep (counter : ℤ) (th : Thread) (act : Act) : Option (ℤ × Thread) :=
  match th.pc, act with
  | .idle, .call .simultaneouslyLock =>
      let v := smbLock counter
      some (v, if v < 0 then th.enter.add 1 .lockSpin else th.enter.add 1 .held)
  | .lockSpin, .continue =>
      some (counter, if counter < 0 then th else th.add 0 .held)
  | .idle, .call (.simultaneouslyLockRetry retry) =>
      some (smbLock counter, th.enter.add 1 (.retryLoop retry retry.toNat))
  | .retryLoop retry cnt, .continue =>
      if 0 < cnt then
        if counter < 0 then some (counter, th.add 0 (.retryLoop retry (cnt - 1)))
        else some (counter, (th.add 0 .held).return (.simultaneouslyLockRetry retry) cnt)
      else some (smbUnlock counter,
        (th.add (-1) .idle).return (.simultaneouslyLockRetry retry) 0)
  | .held, .call .simultaneouslyUnlock => some (smbUnlock counter, th.enter.add (-1) .idle)
  | .held, .call .exclusivelyTrylock =>
      let v := smbUnlockByCnt counter 0xffff
      some (v, if v = 0 - 0xffff + 1
        then (th.enter.add (-0xffff) .exclusive).return .exclusivelyTrylock 1
        else th.enter.add (-0xffff) .trylockBack)
  | .trylockBack, .continue =>
      some (smbLockByCnt counter 0xffff, (th.add 0xffff .held).return .exclusivelyTrylock 0)
  | .exclusive, .call .exclusivelyUnlock =>
      some (smbLockByCnt counter 0xffff, th.enter.add 0xffff .held)
  | _, _ => none

/-- The counter of one memory block and the threads that use it. -/
structure State (n : ℕ) where
  counter : ℤ
  threads : Fin n → Thread

/-- Nobody has touched the block yet. -/
def State.init (n : ℕ) : State n := ⟨0, fun _ => ⟨.idle, 0, 0, none⟩⟩

/-- One step of the system: the atomic operation of one thread. -/
def step {n : ℕ} (s : State n) (l : Fin n × Act) : Option (State n) :=
  (threadStep s.counter (s.threads l.1) l.2).map fun (counter, th) =>
    ⟨counter, Function.update s.threads l.1 th⟩

/-- The thread is inside a simultaneous critical section. -/
def Pc.InSection (pc : Pc) : Prop := pc = .held ∨ pc = .trylockBack ∨ pc = .exclusive

/-- The thread holds the simultaneous lock and nothing else: it is in the
section, with one put into the counter. -/
def Thread.HoldsSimultaneously (th : Thread) : Prop := th.pc = .held ∧ th.contrib = 1

/-! ### What a thread has put in -/

/-- What a thread at `pc` has put into the counter. -/
def Pc.share : Pc → ℤ
  | .idle => 0
  | .lockSpin => 1
  | .retryLoop _ _ => 1
  | .held => 1
  | .trylockBack => -0xfffe
  | .exclusive => -0xfffe

/-- The ghosts of a thread fit its place. -/
structure Thread.Settled (th : Thread) : Prop where
  contrib_eq : th.contrib = th.pc.share
  retry_atCall : ∀ retry cnt, th.pc = .retryLoop retry cnt → th.atCall = 0
  trylock_atCall : th.pc = .trylockBack → th.atCall = 1
  retry_returned : ∀ retry v, th.returned = some (.simultaneouslyLockRetry retry, v) →
    v ≠ 0 ∧ th.pc = .held ∨ v = 0 ∧ th.pc = .idle ∧ th.atCall = 0
  trylock_returned : th.returned = some (.exclusivelyTrylock, 0) → th.pc = .held ∧ th.atCall = 1

/-- **What one operation can do.**  A thread adds the difference of its shares;
it comes into the section only when it sees a counter that is not negative, and
gets the lock exclusively only when it sees the value it looks for. -/
structure Moves (counter counter' : ℤ) (th th' : Thread) : Prop where
  counter_eq : toInt counter = counter →
    counter' = toInt (counter + (th'.pc.share - th.pc.share))
  section_gate : th'.pc.InSection → th.pc.InSection ∨ 0 ≤ counter'
  exclusive_gate : th'.pc = .exclusive → counter' = -0xfffe
  settled : th.Settled → th'.Settled

@[simp] theorem Thread.add_pc (th : Thread) (d : ℤ) (pc : Pc) : (th.add d pc).pc = pc := rfl

@[simp] theorem Thread.return_pc (th : Thread) (c : Call) (v : ℤ) :
    (th.return c v).pc = th.pc := rfl

/-- A call that begins at the share it had and has not returned. -/
theorem settled_enter {th : Thread} (h : th.Settled) {d : ℤ} {pc : Pc}
    (hshare : th.pc.share + d = pc.share)
    (hretry : ∀ retry cnt, pc = .retryLoop retry cnt → th.pc.share = 0)
    (htrylock : pc = .trylockBack → th.pc.share = 1) : (th.enter.add d pc).Settled where
  contrib_eq := by simp only [Thread.enter, Thread.add, h.contrib_eq, hshare]
  retry_atCall := fun retry cnt hpc => h.contrib_eq.trans (hretry retry cnt hpc)
  trylock_atCall := fun hpc => h.contrib_eq.trans (htrylock hpc)
  retry_returned := nofun
  trylock_returned := nofun

/-- `smb_simultaneously_lock_retry` returns. -/
theorem settled_retry_return {th : Thread} (h : th.Settled) {retry : ℤ} {cnt : ℕ}
    (hpc : th.pc = .retryLoop retry cnt) {d v : ℤ} {pc : Pc}
    (hd : v ≠ 0 ∧ pc = .held ∧ d = 0 ∨ v = 0 ∧ pc = .idle ∧ d = -1) :
    ((th.add d pc).return (.simultaneouslyLockRetry retry) v).Settled where
  contrib_eq := by
    have hc := h.contrib_eq
    rw [hpc] at hc
    rcases hd with ⟨-, rfl, rfl⟩ | ⟨-, rfl, rfl⟩ <;> simp [Thread.return, Thread.add, hc, Pc.share]
  retry_atCall := by rcases hd with ⟨-, rfl, -⟩ | ⟨-, rfl, -⟩ <;> simp
  trylock_atCall := by rcases hd with ⟨-, rfl, -⟩ | ⟨-, rfl, -⟩ <;> simp
  retry_returned := by
    intro retry' v' hret
    obtain ⟨-, rfl⟩ : retry = retry' ∧ v = v' := by simpa [Thread.return] using hret
    rcases hd with ⟨hv, rfl, -⟩ | ⟨hv, rfl, -⟩
    · exact .inl ⟨hv, rfl⟩
    · exact .inr ⟨hv, rfl, h.retry_atCall _ _ hpc⟩
  trylock_returned := by simp [Thread.return]

/-- `smb_exclusively_trylock` returns, from its first or from its second
operation. -/
theorem settled_trylock_return {th : Thread} {v : ℤ} (hshare : th.contrib = th.pc.share)
    (hd : v = 1 ∧ th.pc = .exclusive ∨ v = 0 ∧ th.pc = .held ∧ th.atCall = 1) :
    (th.return .exclusivelyTrylock v).Settled where
  contrib_eq := hshare
  retry_atCall := by rcases hd with ⟨-, hpc⟩ | ⟨-, hpc, -⟩ <;> simp [hpc]
  trylock_atCall := by rcases hd with ⟨-, hpc⟩ | ⟨-, hpc, -⟩ <;> simp [hpc]
  retry_returned := by simp [Thread.return]
  trylock_returned := by
    rcases hd with ⟨rfl, -⟩ | ⟨-, hpc, hat⟩
    · simp [Thread.return]
    · exact fun _ => ⟨hpc, hat⟩

theorem moves_of_threadStep {counter counter' : ℤ} {th th' : Thread} {act : Act}
    (h : threadStep counter th act = some (counter', th')) : Moves counter counter' th th' := by
  unfold threadStep at h
  split at h
  all_goals
    rename_i hpc
    try simp only [Option.some.injEq, Prod.mk.injEq] at h
  · -- `smb_simultaneously_lock`
    obtain ⟨rfl, rfl⟩ := h
    have hadd : smbLock counter = toInt (counter + (1 - 0)) := by
      simp [smbLock, shannonAtomicAddReturn]
    split_ifs with hneg
    · exact ⟨fun _ => by simpa [hpc, Pc.share] using hadd, by simp [Pc.InSection], by simp,
        fun hs => settled_enter hs (by simp [hpc, Pc.share]) (by simp) (by simp)⟩
    · exact ⟨fun _ => by simpa [hpc, Pc.share] using hadd, fun _ => .inr (not_lt.1 hneg), by simp,
        fun hs => settled_enter hs (by simp [hpc, Pc.share]) (by simp) (by simp)⟩
  · -- its loop
    obtain ⟨rfl, rfl⟩ := h
    split_ifs with hneg
    · exact ⟨fun hc => by simp [hc], .inl, by simp [hpc], id⟩
    · refine ⟨fun hc => by simp [hpc, Pc.share, hc], fun _ => .inr (not_lt.1 hneg), by simp,
        fun hs => ⟨?_, by simp, by simp, ?_, ?_⟩⟩
      · simp [Thread.add, hs.contrib_eq, hpc, Pc.share]
      · exact fun retry v hret => by simpa [hpc] using hs.retry_returned retry v hret
      · exact fun hret => by simpa [hpc] using hs.trylock_returned hret
  · -- `smb_simultaneously_lock_retry`
    obtain ⟨rfl, rfl⟩ := h
    exact ⟨fun _ => by simp [hpc, Pc.share, smbLock, shannonAtomicAddReturn],
      by simp [Pc.InSection], by simp,
      fun hs => settled_enter hs (by simp [hpc, Pc.share]) (by simp [hpc, Pc.share]) (by simp)⟩
  · -- its loop
    rename_i retry cnt _
    split_ifs at h with hcnt hneg <;> simp only [Option.some.injEq, Prod.mk.injEq] at h <;>
      obtain ⟨rfl, rfl⟩ := h
    · refine ⟨fun hc => by simp [hpc, Pc.share, hc], by simp [Pc.InSection], by simp,
        fun hs => ⟨?_, fun _ _ _ => hs.retry_atCall _ _ hpc, by simp, ?_, ?_⟩⟩
      · simp [Thread.add, hs.contrib_eq, hpc, Pc.share]
      · exact fun retry v hret => by simpa [hpc] using hs.retry_returned retry v hret
      · exact fun hret => by simpa [hpc] using hs.trylock_returned hret
    · exact ⟨fun hc => by simp [hpc, Pc.share, hc], fun _ => .inr (not_lt.1 hneg), by simp,
        fun hs => settled_retry_return hs hpc (.inl ⟨by omega, rfl, rfl⟩)⟩
    · exact ⟨fun _ => by simp [hpc, Pc.share, smbUnlock, shannonAtomicSubReturn, sub_eq_add_neg],
        by simp [Pc.InSection], by simp,
        fun hs => settled_retry_return hs hpc (.inr ⟨rfl, rfl, rfl⟩)⟩
  · -- `smb_simultaneously_unlock`
    obtain ⟨rfl, rfl⟩ := h
    exact ⟨fun _ => by simp [hpc, Pc.share, smbUnlock, shannonAtomicSubReturn, sub_eq_add_neg],
      by simp [Pc.InSection], by simp,
      fun hs => settled_enter hs (by simp [hpc, Pc.share]) (by simp) (by simp)⟩
  · -- `smb_exclusively_trylock`
    obtain ⟨rfl, rfl⟩ := h
    have hsub : smbUnlockByCnt counter 0xffff = toInt (counter + (-0xfffe - 1)) := by
      simp [smbUnlockByCnt, shannonAtomicSubReturn, sub_eq_add_neg]
    split_ifs with hwon
    · refine ⟨fun _ => by simpa [hpc, Pc.share] using hsub, fun _ => .inl (.inl hpc),
        fun _ => by simpa using hwon, fun hs => settled_trylock_return ?_ (.inl ⟨rfl, rfl⟩)⟩
      simp [Thread.add, Thread.enter, hs.contrib_eq, hpc, Pc.share]
    · exact ⟨fun _ => by simpa [hpc, Pc.share] using hsub, fun _ => .inl (.inl hpc), by simp,
        fun hs => settled_enter hs (by simp [hpc, Pc.share]) (by simp) (by simp [hpc, Pc.share])⟩
  · -- its second operation
    obtain ⟨rfl, rfl⟩ := h
    refine ⟨fun _ => by simp [hpc, Pc.share, smbLockByCnt, shannonAtomicAddReturn],
      fun _ => .inl (.inr (.inl hpc)), by simp,
      fun hs => settled_trylock_return ?_ (.inr ⟨rfl, rfl, hs.trylock_atCall hpc⟩)⟩
    simp [Thread.add, hs.contrib_eq, hpc, Pc.share]
  · -- `smb_exclusively_unlock`
    obtain ⟨rfl, rfl⟩ := h
    exact ⟨fun _ => by simp [hpc, Pc.share, smbLockByCnt, shannonAtomicAddReturn],
      fun _ => .inl (.inr (.inr hpc)), by simp,
      fun hs => settled_enter hs (by simp [hpc, Pc.share]) (by simp) (by simp)⟩
  · cases h

/-! ### The sum of the shares -/

variable {n : ℕ}

theorem share_le_one (pc : Pc) : pc.share ≤ 1 := by cases pc <;> simp [Pc.share]

theorem neg_le_share (pc : Pc) : -0xfffe ≤ pc.share := by cases pc <;> simp [Pc.share]

theorem share_eq (pc : Pc) : pc.share = 0 ∨ pc.share = 1 ∨ pc.share = -0xfffe := by
  cases pc <;> simp [Pc.share]

theorem share_ne_zero {pc : Pc} (h : pc.InSection) : pc.share ≠ 0 := by
  rcases h with rfl | rfl | rfl <;> simp [Pc.share]

/-- The sum without the thread `t`. -/
theorem sum_erase (pcs : Fin n → Pc) (t : Fin n) :
    ∑ u ∈ Finset.univ.erase t, (pcs u).share = ∑ u, (pcs u).share - (pcs t).share :=
  Finset.sum_erase_eq_sub (Finset.mem_univ t)

theorem sum_erase_le (pcs : Fin n → Pc) (t : Fin n) :
    ∑ u ∈ Finset.univ.erase t, (pcs u).share ≤ n - 1 := by
  have h := Finset.sum_le_card_nsmul (Finset.univ.erase t) (fun u => (pcs u).share) 1
    fun u _ => share_le_one _
  have hn := t.pos
  simpa [Finset.card_erase_of_mem, Nat.cast_sub hn] using h

/-- The sum is an `int`. -/
theorem toInt_sum (hn : n ≤ 0x7fff) (pcs : Fin n → Pc) :
    toInt (∑ u, (pcs u).share) = ∑ u, (pcs u).share := by
  have hle := Finset.sum_le_card_nsmul Finset.univ (fun u => (pcs u).share) 1
    fun u _ => share_le_one _
  have hge := Finset.card_nsmul_le_sum Finset.univ (fun u => (pcs u).share) (-0xfffe)
    fun u _ => neg_le_share _
  simp only [Finset.card_univ, Fintype.card_fin, nsmul_eq_mul, mul_one] at hle hge
  exact Int.bmod_eq_of_le (by omega) (by omega)

/-- One missing `0xffff` makes the sum negative. -/
theorem sum_neg (hn : n ≤ 0x7fff) (pcs : Fin n → Pc) {t : Fin n}
    (ht : (pcs t).share = -0xfffe) : ∑ u, (pcs u).share < 0 := by
  have h := sum_erase_le pcs t
  rw [sum_erase, ht] at h
  omega

/-- **The value `smb_exclusively_trylock` looks for.**  It is seen only by a
thread that is the only one with a share. -/
theorem share_eq_zero_of_sum_eq (hn : n ≤ 0x7fff) (pcs : Fin n → Pc) {t : Fin n}
    (ht : (pcs t).share = -0xfffe) (hsum : ∑ u, (pcs u).share = -0xfffe) {u : Fin n}
    (hu : u ≠ t) : (pcs u).share = 0 := by
  -- the other shares sum to 0, so it is enough that none of them is negative
  have hrest : ∑ u ∈ Finset.univ.erase t, (pcs u).share = 0 := by
    rw [sum_erase, hsum, ht, sub_self]
  have hnonneg : ∀ w ∈ Finset.univ.erase t, 0 ≤ (pcs w).share := by
    intro w hw
    rcases share_eq (pcs w) with h | h | h
    · exact h.ge
    · omega
    · have herase := Finset.sum_erase_eq_sub (f := fun u => (pcs u).share) hw
      have hle := Finset.sum_le_card_nsmul ((Finset.univ.erase t).erase w)
        (fun u => (pcs u).share) 1 fun u _ => share_le_one _
      have hcard : ((Finset.univ.erase t).erase w).card ≤ n :=
        (Finset.card_le_univ _).trans_eq (Fintype.card_fin n)
      simp only [nsmul_eq_mul, mul_one] at hle
      rw [herase, hrest, h] at hle
      omega
  exact (Finset.sum_eq_zero_iff_of_nonneg hnonneg).1 hrest u
    (Finset.mem_erase.2 ⟨hu, Finset.mem_univ u⟩)

/-! ### Every interleaving -/

/-- **The invariant.**  The counter is the sum of the shares, and beside a
thread that holds the block exclusively nobody is in the section. -/
structure Inv (s : State n) : Prop where
  counter_eq : s.counter = ∑ t, (s.threads t).pc.share
  settled : ∀ t, (s.threads t).Settled
  alone : ∀ t u, (s.threads t).pc = .exclusive → u ≠ t → ¬ (s.threads u).pc.InSection

theorem inv_init : Inv (State.init n) where
  counter_eq := by simp [State.init, Pc.share]
  settled := fun t => ⟨rfl, nofun, nofun, nofun, nofun⟩
  alone := by simp [State.init]

theorem step_eq_some {s s' : State n} {t : Fin n} {act : Act} (h : step s (t, act) = some s') :
    ∃ th', Moves s.counter s'.counter (s.threads t) th' ∧
      s'.threads = Function.update s.threads t th' := by
  obtain ⟨⟨counter, th'⟩, hth, rfl⟩ := Option.map_eq_some_iff.1 h
  exact ⟨th', moves_of_threadStep hth, rfl⟩

/-- **One atomic operation keeps the invariant.** -/
theorem inv_step (hn : n ≤ 0x7fff) {s s' : State n} {l : Fin n × Act} (hinv : Inv s)
    (h : step s l = some s') : Inv s' := by
  obtain ⟨t, act⟩ := l
  obtain ⟨th', hmoves, hthreads⟩ := step_eq_some h
  have hself : s'.threads t = th' := by rw [hthreads, Function.update_self]
  have hother : ∀ u, u ≠ t → s'.threads u = s.threads u := fun u hu => by
    rw [hthreads, Function.update_of_ne hu]
  have hcounter : s'.counter = ∑ u, (s'.threads u).pc.share := by
    have hint : toInt s.counter = s.counter := by rw [hinv.counter_eq, toInt_sum hn]
    rw [hmoves.counter_eq hint, hinv.counter_eq,
      ← sum_update (Finset.mem_univ t) (fun th : Thread => th.pc.share), ← hthreads,
      toInt_sum hn fun u => (s'.threads u).pc]
  refine ⟨hcounter, ?_, fun x u hx hux => ?_⟩
  · rw [hthreads]
    exact forall_update hinv.settled (hmoves.settled (hinv.settled t))
  · have hshare : (s'.threads x).pc.share = -0xfffe := by rw [hx]; rfl
    rcases eq_or_ne x t with rfl | hxt
    · -- it has just got the lock: it saw its own share and nobody else's
      have hsum := hmoves.exclusive_gate (hself ▸ hx)
      rw [hcounter] at hsum
      exact fun hu => share_ne_zero hu
        (share_eq_zero_of_sum_eq hn (fun u => (s'.threads u).pc) hshare hsum hux)
    · rw [hother x hxt] at hx
      rcases eq_or_ne u t with rfl | hut
      · -- nobody comes in while the counter is negative
        intro hu
        rcases hmoves.section_gate (hself ▸ hu) with hin | hnonneg
        · exact hinv.alone x u hx hux hin
        · have hneg := sum_neg hn (fun u => (s'.threads u).pc) hshare
          rw [hcounter] at hnonneg
          omega
      · rw [hother u hut]
        exact hinv.alone x u hx hux

/-- **Mutual exclusion of the memblock lock.**  With at most `0x7fff` threads,
in every state any interleaving of their atomic operations reaches: at most one
thread holds the exclusive lock; while one does, no other thread is inside a
simultaneous section; `smb_simultaneously_lock_retry` has returned non-zero
exactly when the caller now holds the simultaneous lock; a failed retry and a
failed trylock have left what the caller has put into the counter as it was;
and the counter is what the threads have put in. -/
theorem memblock_lock_mutual_exclusion (hn : n ≤ 0x7fff) {s : State n}
    {labels : List (Fin n × Act)} (hrun : run step (State.init n) labels = some s) :
    (∀ t u, (s.threads t).pc = .exclusive → (s.threads u).pc = .exclusive → t = u) ∧
    (∀ t u, (s.threads t).pc = .exclusive → u ≠ t → ¬ (s.threads u).pc.InSection) ∧
    (∀ t retry v, (s.threads t).returned = some (.simultaneouslyLockRetry retry, v) →
      (v ≠ 0 ↔ (s.threads t).HoldsSimultaneously) ∧
      (v = 0 → (s.threads t).contrib = (s.threads t).atCall)) ∧
    (∀ t, (s.threads t).returned = some (.exclusivelyTrylock, 0) →
      (s.threads t).contrib = (s.threads t).atCall) ∧
    s.counter = ∑ t, (s.threads t).contrib := by
  have hinv : Inv s := run_invariant (fun _ _ _ hs h => inv_step hn hs h) inv_init hrun
  refine ⟨fun t u ht hu => ?_, hinv.alone, fun t retry v hret => ?_, fun t hret => ?_, ?_⟩
  · by_contra hne
    exact hinv.alone t u ht (Ne.symm hne) (.inr (.inr hu))
  · have hs := hinv.settled t
    rcases hs.retry_returned retry v hret with ⟨hv, hpc⟩ | ⟨hv, hpc, hat⟩
    · have hc : (s.threads t).contrib = 1 := by rw [hs.contrib_eq, hpc]; rfl
      exact ⟨⟨fun _ => ⟨hpc, hc⟩, fun _ => hv⟩, fun h => absurd h hv⟩
    · have hc : (s.threads t).contrib = 0 := by rw [hs.contrib_eq, hpc]; rfl
      refine ⟨⟨fun h => absurd hv h, fun h => ?_⟩, fun _ => by rw [hc, hat]⟩
      have := h.2
      omega
  · have hs := hinv.settled t
    obtain ⟨hpc, hat⟩ := hs.trylock_returned hret
    rw [hs.contrib_eq, hpc, hat]
    rfl
  · rw [hinv.counter_eq]
    exact Finset.sum_congr rfl fun t _ => ((hinv.settled t).contrib_eq).symm

/-- Thread 0 gets the block exclusively, thread 1 gives up after one look. -/
def exclusiveAndRetry : List (Fin 2 × Act) :=
  [(0, .call .simultaneouslyLock), (0, .call .exclusivelyTrylock),
    (1, .call (.simultaneouslyLockRetry 1)), (1, .continue), (1, .continue)]

/-- The hypotheses of `memblock_lock_mutual_exclusion` are satisfiable: thread 0
holds the exclusive lock, so thread 1 is outside the section, and its failed
retry has left nothing in the counter. -/
theorem memblock_lock_mutual_exclusion_two_threads :
    ∃ s, run step (State.init 2) exclusiveAndRetry = some s ∧
      (s.threads 0).pc = .exclusive ∧ ¬ (s.threads 1).pc.InSection ∧
      ¬ (s.threads 1).HoldsSimultaneously := by
  obtain ⟨s, hs⟩ : ∃ s, run step (State.init 2) exclusiveAndRetry = some s :=
    Option.isSome_iff_exists.1 (by decide)
  have hpc : ((run step (State.init 2) exclusiveAndRetry).map fun s => (s.threads 0).pc)
      = some .exclusive := by decide
  have hret : ((run step (State.init 2) exclusiveAndRetry).map fun s => (s.threads 1).returned)
      = some (some (.simultaneouslyLockRetry 1, 0)) := by decide
  rw [hs, Option.map_some, Option.some.injEq] at hpc hret
  have h := memblock_lock_mutual_exclusion (by decide) hs
  exact ⟨s, hs, hpc, h.2.1 0 1 hpc (by decide), fun hhold => (h.2.2.1 1 1 0 hret).1.2 hhold rfl⟩

end Memblock
end Shannon
