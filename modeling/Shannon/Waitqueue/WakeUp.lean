/-
# A wake-up, whatever the wake functions do

`shannon_waitqueue.c`: `__shannon_wake_up_common` walks the queue and calls the function of
every entry on it.  `Shannon.Waitqueue.WaitEvent` has this walk for the one function the
driver uses.  Here an entry may have any function: it returns what it likes, and it takes
its own entry off the queue exactly when that is not zero (`Autoremoves`).

The walk has read the successor of an entry before it calls its function, and the function
changes the links of this entry and of its neighbours, so the successor is still on the queue
and what is behind it is the same (`wakeUpCommonLoop_spec`).  The walk could stop early at an
exclusive entry; `shannon_add_wait_queue` and `shannon_prepare_to_wait` clear that flag, so
none of their entries is (`Built.spec`).  Together: `wakeUp_visits_every_waiter_once`.

The heap may have other queues, and entries on them; nothing is assumed of their links.
-/

import Shannon.Waitqueue.WaitEvent

namespace Shannon
namespace Waitqueue

open Lib Workqueue

/-- `WQ_FLAG_EXCLUSIVE`. -/
def wqFlagExclusive : BitVec 32 := 1#32

/-- The list heads `ν` of queues and entries, the flags of the entries, the states of their
tasks, and whatever else the wake functions read and write. -/
structure WaitHeap (ν σ : Type*) where
  links : Links ν
  flags : ν → BitVec 32
  task : ν → ℕ
  rest : σ

/-- A wake function: what it returns for an entry, a mode, `wake_flags` and a key, and the
heap it leaves. -/
abbrev WakeFunc (ν σ κ : Type*) := ν → WaitHeap ν σ → ℕ → ℤ → κ → ℤ × WaitHeap ν σ

variable {ν σ κ : Type*} [DecidableEq ν]

/-- `shannon_add_wait_queue`. -/
def WaitHeap.shannonAddWaitQueue (q : WaitHeap ν σ) (head wait : ν) : WaitHeap ν σ :=
  { q with
    flags := Function.update q.flags wait (q.flags wait &&& ~~~wqFlagExclusive)
    links := shannonListAdd q.links wait head }

/-- `shannon_prepare_to_wait`. -/
def WaitHeap.shannonPrepareToWait (q : WaitHeap ν σ) (head wait : ν) (state : ℕ) :
    WaitHeap ν σ :=
  { q with
    flags := Function.update q.flags wait (q.flags wait &&& ~~~wqFlagExclusive)
    links := if shannonListEmpty q.links wait then shannonListAdd q.links wait head else q.links
    task := Function.update q.task wait state }

/-- The loop of `__shannon_wake_up_common` from `curr` on; `next` is what
`shannon_list_for_each_entry_safe` has read before the body.  Besides the heap it leaves
there are the calls it has made, each with what it returned.  `none` if it is still running
after `fuel` entries. -/
def wakeUpCommonLoop (func : ν → WakeFunc ν σ κ) (head : ν) (mode : ℕ) (wakeFlags : ℤ) (key : κ) :
    ℕ → WaitHeap ν σ → ν → ν → ℤ → Option (WaitHeap ν σ × List (ν × ℤ))
  | 0, q, curr, _, _ => if curr = head then some (q, []) else none
  | fuel + 1, q, curr, next, nrExclusive =>
      if curr = head then some (q, [])
      else
        let flags := q.flags curr
        let (ret, q) := func curr curr q mode wakeFlags key
        if ret ≠ 0 ∧ flags &&& wqFlagExclusive ≠ 0 then
          if nrExclusive - 1 = 0 then some (q, [(curr, ret)])
          else
            (wakeUpCommonLoop func head mode wakeFlags key fuel q next (q.links.next next)
              (nrExclusive - 1)).map fun (q, calls) => (q, (curr, ret) :: calls)
        else
          (wakeUpCommonLoop func head mode wakeFlags key fuel q next (q.links.next next)
            nrExclusive).map fun (q, calls) => (q, (curr, ret) :: calls)

/-- `__shannon_wake_up_common`. -/
def shannonWakeUpCommon (func : ν → WakeFunc ν σ κ) (fuel : ℕ) (q : WaitHeap ν σ) (head : ν)
    (mode : ℕ) (nrExclusive wakeFlags : ℤ) (key : κ) :
    Option (WaitHeap ν σ × List (ν × ℤ)) :=
  wakeUpCommonLoop func head mode wakeFlags key fuel q (q.links.next head)
    (q.links.next (q.links.next head)) nrExclusive

/-- The function takes its entry off its queue exactly if it returns something other than
zero, and leaves the links and the flags of the other entries alone. -/
def Autoremoves (f : WakeFunc ν σ κ) (wait : ν) : Prop :=
  ∀ q mode wakeFlags key,
    (f wait q mode wakeFlags key).2.links =
      (if (f wait q mode wakeFlags key).1 ≠ 0 then shannonListDelInit q.links wait else q.links) ∧
    ∀ v ≠ wait, (f wait q mode wakeFlags key).2.flags v = q.flags v

/-! ### Queues whose entries have been added by the two functions -/

/-- The queue of `head` has the entries `xs`, each of them put there by one of the two
functions. -/
inductive Built (head : ν) : WaitHeap ν σ → List ν → Prop
  /-- `__shannon_init_waitqueue_head`. -/
  | init (q : WaitHeap ν σ) : Built head { q with links := q.links.selfLink head } []
  | add {q : WaitHeap ν σ} {xs : List ν} {wait : ν} : Built head q xs → wait ∉ head :: xs →
      Built head (q.shannonAddWaitQueue head wait) (wait :: xs)
  /-- An entry that is on no queue. -/
  | prepare {q : WaitHeap ν σ} {xs : List ν} {wait : ν} (state : ℕ) : Built head q xs →
      wait ∉ head :: xs → Ring q.links wait [] →
      Built head (q.shannonPrepareToWait head wait state) (wait :: xs)
  /-- An entry that is on this one. -/
  | prepareAgain {q : WaitHeap ν σ} {xs : List ν} {wait : ν} (state : ℕ) : Built head q xs →
      wait ∈ xs → Built head (q.shannonPrepareToWait head wait state) xs
  /-- An entry is taken off, by a wake function or by `shannon_finish_wait`. -/
  | delInit {q : WaitHeap ν σ} {xs ys : List ν} {wait : ν} : Built head q (xs ++ wait :: ys) →
      Built head { q with links := shannonListDelInit q.links wait } (xs ++ ys)
  /-- Anything that changes neither the links nor the flags of what is on the queue. -/
  | other {q q' : WaitHeap ν σ} {xs : List ν} : Built head q xs →
      (∀ a ∈ head :: xs, q'.links.next a = q.links.next a ∧ q'.links.prev a = q.links.prev a ∧
        q'.flags a = q.flags a) → Built head q' xs

theorem flags_and_exclusive (flags : BitVec 32) :
    flags &&& ~~~wqFlagExclusive &&& wqFlagExclusive = 0#32 := by
  rw [BitVec.and_assoc, BitVec.and_comm (~~~wqFlagExclusive), BitVec.and_not_self]
  exact BitVec.and_zero

/-- The flags after the one of `wait` is cleared. -/
theorem update_flags_clear {flags : ν → BitVec 32} {xs : List ν} (wait : ν)
    (hclear : ∀ v ∈ xs, v ≠ wait → flags v &&& wqFlagExclusive = 0#32) :
    ∀ v ∈ xs, Function.update flags wait (flags wait &&& ~~~wqFlagExclusive) v &&&
      wqFlagExclusive = 0#32 := by
  intro v hv
  rcases eq_or_ne v wait with rfl | hvw
  · rw [Function.update_self]
    exact flags_and_exclusive _
  · rw [Function.update_of_ne hvw]
    exact hclear v hv hvw

/-- `shannon_list_add` puts an entry first. -/
theorem shannonListAdd_ring {h : Links ν} {head new : ν} {xs : List ν} (hr : Ring h head xs)
    (hnew : new ∉ head :: xs) : Ring (shannonListAdd h new head) head (new :: xs) := by
  have hnext : (xs ++ [head]).head? = some (h.next head) := by
    rw [hr.next_head]
    cases xs <;> rfl
  exact @Ring.insertBetween _ _ _ _ _ _ _ [] xs hr hnew rfl hnext

/-- **What the two functions build** is a queue, and none of its entries is exclusive. -/
theorem Built.spec {head : ν} {q : WaitHeap ν σ} {xs : List ν} (hq : Built head q xs) :
    Ring q.links head xs ∧ ∀ w ∈ xs, q.flags w &&& wqFlagExclusive = 0#32 := by
  induction hq with
  | init q => exact ⟨ring_selfLink .., by simp⟩
  | @add q xs wait _ hwait ih =>
      refine ⟨shannonListAdd_ring ih.1 hwait, update_flags_clear wait fun v hv hvw => ?_⟩
      exact ih.2 v ((List.mem_cons.1 hv).resolve_left hvw)
  | @prepare q xs wait state _ hwait halone ih =>
      have hempty : shannonListEmpty q.links wait = true :=
        decide_eq_true_iff.2 (ring_nil_iff.1 halone).1
      refine ⟨?_, update_flags_clear wait fun v hv hvw => ?_⟩
      · simpa [WaitHeap.shannonPrepareToWait, hempty] using shannonListAdd_ring ih.1 hwait
      · exact ih.2 v ((List.mem_cons.1 hv).resolve_left hvw)
  | @prepareAgain q xs wait state _ hwait ih =>
      have hlinked : shannonListEmpty q.links wait = false :=
        decide_eq_false_iff_not.2 (ih.1.next_ne_self hwait)
      refine ⟨?_, update_flags_clear wait fun v hv _ => ih.2 v hv⟩
      simpa [WaitHeap.shannonPrepareToWait, hlinked] using ih.1
  | @delInit q xs ys wait _ ih =>
      refine ⟨ih.1.remove, fun v hv => ih.2 v ?_⟩
      simp only [List.mem_append, List.mem_cons] at hv ⊢
      tauto
  | other _ hsame ih =>
      refine ⟨ih.1.congr (fun a ha => (hsame a ha).1) fun a ha => (hsame a ha).2.1, fun v hv => ?_⟩
      rw [(hsame v (List.mem_cons_of_mem _ hv)).2.2]
      exact ih.2 v hv

/-! ### The walk -/

/-- One turn of the loop over an entry that is not exclusive. -/
theorem wakeUpCommonLoop_succ {func : ν → WakeFunc ν σ κ} {head curr next : ν} {mode fuel : ℕ}
    {wakeFlags nrExclusive ret : ℤ} {key : κ} {q q' : WaitHeap ν σ} (hcurr : curr ≠ head)
    (hclear : q.flags curr &&& wqFlagExclusive = 0#32)
    (hcall : func curr curr q mode wakeFlags key = (ret, q')) :
    wakeUpCommonLoop func head mode wakeFlags key (fuel + 1) q curr next nrExclusive =
      (wakeUpCommonLoop func head mode wakeFlags key fuel q' next (q'.links.next next)
        nrExclusive).map fun (q, calls) => (q, (curr, ret) :: calls) := by
  simp [wakeUpCommonLoop, hcurr, hclear, hcall]

/-- What the call of one function does to the queue, and to the nodes on no queue. -/
theorem Autoremoves.spec {f : WakeFunc ν σ κ} {head w : ν} {ps ys : List ν} {q : WaitHeap ν σ}
    (hf : Autoremoves f w) (hq : Ring q.links head (ps ++ w :: ys)) (mode : ℕ) (wakeFlags : ℤ)
    (key : κ) :
    let (ret, q') := f w q mode wakeFlags key
    (ret ≠ 0 → Ring q'.links head (ps ++ ys) ∧ Ring q'.links w []) ∧
    (ret = 0 → Ring q'.links head (ps ++ w :: ys)) ∧
    (∀ v, v ∉ head :: (ps ++ w :: ys) → Ring q.links v [] → Ring q'.links v []) ∧
    ∀ v ≠ w, q'.flags v = q.flags v := by
  obtain ⟨hlinks, hflags⟩ := hf q mode wakeFlags key
  refine ⟨fun hret => ?_, fun hret => ?_, fun v hv hring => ?_, hflags⟩
  · rw [hlinks, if_pos hret]
    exact ⟨hq.remove, ring_selfLink ..⟩
  · rw [hlinks, if_neg (not_not.2 hret)]
    exact hq
  · rw [hlinks]
    split_ifs
    · refine hq.remove_other hring fun a ha hav => hv ?_
      rwa [← List.mem_singleton.1 hav]
    · exact hring

/-- The entries whose function has returned zero. -/
def kept (calls : List (ν × ℤ)) : List ν := (calls.filter fun c => c.2 = 0).map Prod.fst

/-- **The walk from any entry on.**  `ps` is what it has left on the queue. -/
theorem wakeUpCommonLoop_spec (func : ν → WakeFunc ν σ κ) (head : ν) (mode : ℕ)
    (wakeFlags nrExclusive : ℤ) (key : κ) {q : WaitHeap ν σ} {ps ys : List ν} {next : ν}
    (hq : Ring q.links head (ps ++ ys))
    (hclear : ∀ w ∈ ys, q.flags w &&& wqFlagExclusive = 0#32)
    (hfunc : ∀ w ∈ ys, Autoremoves (func w) w)
    (hnext : ∀ w zs, ys = w :: zs → next = zs.headD head) :
    ∃ q' calls,
      (∀ fuel ≥ ys.length, wakeUpCommonLoop func head mode wakeFlags key fuel q (ys.headD head)
        next nrExclusive = some (q', calls)) ∧
      calls.map Prod.fst = ys ∧ Ring q'.links head (ps ++ kept calls) ∧
      (∀ c ∈ calls, c.2 ≠ 0 → Ring q'.links c.1 []) ∧
      ∀ v, v ∉ head :: (ps ++ ys) → Ring q.links v [] → Ring q'.links v [] := by
  induction ys generalizing q ps next with
  | nil =>
      refine ⟨q, [], fun fuel _ => ?_, rfl, hq, by simp, fun v _ hring => hring⟩
      cases fuel <;> simp [wakeUpCommonLoop]
  | cons w ws ih =>
      obtain rfl := hnext w ws rfl
      have hnodup := hq.nodup
      rw [← List.cons_append, List.perm_middle.nodup_iff, List.cons_append, List.nodup_cons]
        at hnodup
      have hw : w ≠ head := fun hwh => hnodup.1 (hwh ▸ List.mem_cons_self ..)
      obtain ⟨hremoved, hkept, halone, hflags⟩ :=
        (hfunc w (by simp)).spec hq mode wakeFlags key
      generalize hcall : func w w q mode wakeFlags key = call at hremoved hkept halone hflags
      obtain ⟨ret, q₁⟩ := call
      have hclear₁ : ∀ v ∈ ws, q₁.flags v &&& wqFlagExclusive = 0#32 := by
        intro v hv
        have hvw : v ≠ w := by
          rintro rfl
          exact hnodup.1 (List.mem_cons_of_mem _ (List.mem_append_right _ hv))
        rw [hflags v hvw]
        exact hclear v (List.mem_cons_of_mem _ hv)
      have hfunc₁ : ∀ v ∈ ws, Autoremoves (func v) v := fun v hv =>
        hfunc v (List.mem_cons_of_mem _ hv)
      -- The turn itself, whatever the walk over the rest comes to.
      have hturn {q' : WaitHeap ν σ} {calls : List (ν × ℤ)}
          (hloop : ∀ fuel ≥ ws.length, wakeUpCommonLoop func head mode wakeFlags key fuel q₁
            (ws.headD head) (q₁.links.next (ws.headD head)) nrExclusive = some (q', calls)) :
          ∀ fuel ≥ (w :: ws).length, wakeUpCommonLoop func head mode wakeFlags key fuel q
            ((w :: ws).headD head) (ws.headD head) nrExclusive
              = some (q', (w, ret) :: calls) := by
        intro fuel hfuel
        rw [List.length_cons] at hfuel
        obtain ⟨fuel, rfl⟩ : ∃ n, fuel = n + 1 := ⟨fuel - 1, by omega⟩
        rw [List.headD_cons, wakeUpCommonLoop_succ hw (hclear w (by simp)) hcall,
          hloop fuel (by omega), Option.map_some]
      by_cases hret : ret = 0
      · have hq₁ : Ring q₁.links head (ps ++ [w] ++ ws) := by simpa using hkept hret
        obtain ⟨q', calls, hloop, hcalls, hring, hoff, hrest⟩ :=
          ih hq₁ hclear₁ hfunc₁ hq₁.next_headD
        refine ⟨q', (w, ret) :: calls, hturn hloop, by simp [hcalls], ?_, ?_, fun v hv hv' => ?_⟩
        · simpa [kept, hret] using hring
        · rintro c hc hc0
          rcases List.mem_cons.1 hc with rfl | hc
          · exact absurd hret hc0
          · exact hoff c hc hc0
        · exact hrest v (by simpa using hv) (halone v hv hv')
      · obtain ⟨hq₁, hself⟩ := hremoved hret
        obtain ⟨q', calls, hloop, hcalls, hring, hoff, hrest⟩ :=
          ih hq₁ hclear₁ hfunc₁ hq₁.next_headD
        refine ⟨q', (w, ret) :: calls, hturn hloop, by simp [hcalls], ?_, ?_, fun v hv hv' => ?_⟩
        · simpa [kept, hret] using hring
        · rintro c hc hc0
          rcases List.mem_cons.1 hc with rfl | hc
          · exact hrest w hnodup.1 hself
          · exact hoff c hc hc0
        · refine hrest v (fun hmem => hv ?_) (halone v hv hv')
          simp only [List.mem_cons, List.mem_append] at hmem ⊢
          tauto

/-! ### The function of the driver -/

/-- `shannon_autoremove_wake_function`, over `default_wake_function`, which wakes the task
exactly if its state matches the mode. -/
def autoremoveWakeFunc : WakeFunc ν σ κ := fun wait q mode _ _ =>
  if q.task wait &&& mode ≠ 0 then
    (1, { q with
      task := Function.update q.task wait taskRunning
      links := shannonListDelInit q.links wait })
  else (0, q)

theorem autoremoveWakeFunc_autoremoves (wait : ν) :
    Autoremoves (autoremoveWakeFunc : WakeFunc ν σ κ) wait := by
  intro q mode wakeFlags key
  unfold autoremoveWakeFunc
  split_ifs <;> simp_all

section Driver

variable {W : Type*}

/-- The queue of `Shannon.Waitqueue.WaitEvent` as a heap of its own. -/
def WaitQueue.toHeap (q : WaitQueue W) : WaitHeap (Option W) Unit where
  links := q.links
  flags := fun v => v.elim 0#32 fun w => if q.exclusive w then wqFlagExclusive else 0#32
  task := fun v => v.elim 0 q.task
  rest := ()

theorem toHeap_flags_iff (q : WaitQueue W) (w : W) :
    q.toHeap.flags (some w) &&& wqFlagExclusive ≠ 0#32 ↔ q.exclusive w = true := by
  cases hw : q.exclusive w <;> simp [WaitQueue.toHeap, wqFlagExclusive, hw]

variable [DecidableEq W]

/-- The function is the one of `Shannon.Waitqueue.WaitEvent`. -/
theorem autoremoveWakeFunc_toHeap (q : WaitQueue W) (w : W) (mode : ℕ) (wakeFlags : ℤ) (key : κ) :
    autoremoveWakeFunc (some w) q.toHeap mode wakeFlags key
      = (if (shannonAutoremoveWakeFunction q w mode).1 then 1 else 0,
        (shannonAutoremoveWakeFunction q w mode).2.toHeap) := by
  have htask : Function.update q.toHeap.task (some w) taskRunning
      = fun v => v.elim 0 (Function.update q.task w taskRunning) := by
    funext v
    cases v with
    | none => simp [WaitQueue.toHeap]
    | some v => simp [WaitQueue.toHeap, Function.update_apply]
  have hw : q.toHeap.task (some w) = q.task w := rfl
  by_cases hmatch : q.task w &&& mode = 0
  · simp [autoremoveWakeFunc, shannonAutoremoveWakeFunction, defaultWakeFunction, hw, hmatch]
  · simp only [autoremoveWakeFunc, shannonAutoremoveWakeFunction, defaultWakeFunction, hw, htask,
      ne_eq, hmatch, not_false_eq_true, if_true]
    simp [WaitQueue.toHeap]

/-- **The walk of `Shannon.Waitqueue.WaitEvent`** is this one with that function. -/
theorem wakeUpLoop_toHeap {mode fuel nrExclusive : ℕ} (key : κ) (hnr : 1 ≤ nrExclusive)
    (q : WaitQueue W) (curr next : Option W) :
    (wakeUpLoop mode fuel q curr next nrExclusive).map WaitQueue.toHeap
      = (wakeUpCommonLoop (fun _ => autoremoveWakeFunc) none mode 0 key fuel q.toHeap curr next
        nrExclusive).map Prod.fst := by
  induction fuel generalizing q curr next nrExclusive with
  | zero => cases curr <;> simp [wakeUpLoop, wakeUpCommonLoop]
  | succ fuel ih =>
      cases curr with
      | none => simp [wakeUpLoop, wakeUpCommonLoop]
      | some w =>
          rw [wakeUpLoop, wakeUpCommonLoop, if_neg (by simp), autoremoveWakeFunc_toHeap]
          generalize shannonAutoremoveWakeFunction q w mode = call
          obtain ⟨ret, q₁⟩ := call
          have hexclusive : ((if ret = true then (1 : ℤ) else 0) ≠ 0 ∧
              q.toHeap.flags (some w) &&& wqFlagExclusive ≠ 0) ↔
                (ret && q.exclusive w) = true := by
            rw [Bool.and_eq_true, ← toHeap_flags_iff q w]
            cases ret <;> simp
          simp only [hexclusive]
          by_cases hstop : (ret && q.exclusive w) = true
          · rw [if_pos hstop, if_pos hstop]
            by_cases hlast : nrExclusive - 1 = 0
            · rw [if_pos hlast, if_pos (by omega)]
              rfl
            · rw [if_neg hlast, if_neg (by omega)]
              have hcast : (nrExclusive : ℤ) - 1 = ((nrExclusive - 1 : ℕ) : ℤ) := by omega
              rw [hcast, ih (by omega) q₁, Option.map_map]
              rfl
          · rw [if_neg hstop, if_neg hstop, ih hnr q₁, Option.map_map]
            rfl

end Driver

/-! ### The result -/

/-- **A wake-up visits every waiter once.**  On a queue of any entries added by
`shannon_add_wait_queue` and `shannon_prepare_to_wait`, `__shannon_wake_up_common` returns,
with any mode and any `nr_exclusive`; it has called the function of every entry once, in the
order of the queue; the queue has the entries whose function returned zero, in the order they
were in, and every other entry is linked to itself. -/
theorem wakeUp_visits_every_waiter_once {head : ν} {q : WaitHeap ν σ} {xs : List ν}
    (hq : Built head q xs) {func : ν → WakeFunc ν σ κ}
    (hfunc : ∀ w ∈ xs, Autoremoves (func w) w) (mode : ℕ) (nrExclusive wakeFlags : ℤ) (key : κ) :
    ∃ q' calls,
      (∀ fuel ≥ xs.length,
        shannonWakeUpCommon func fuel q head mode nrExclusive wakeFlags key = some (q', calls)) ∧
      calls.map Prod.fst = xs ∧ xs.Nodup ∧ Ring q'.links head (kept calls) ∧
      ∀ c ∈ calls, c.2 ≠ 0 → q'.links.next c.1 = c.1 ∧ q'.links.prev c.1 = c.1 := by
  obtain ⟨hring, hclear⟩ := hq.spec
  have hring' : Ring q.links head ([] ++ xs) := hring
  obtain ⟨q', calls, hloop, hcalls, hring', hoff, -⟩ :=
    wakeUpCommonLoop_spec func head mode wakeFlags nrExclusive key hring' hclear hfunc
      hring'.next_headD
  refine ⟨q', calls, fun fuel hfuel => ?_, hcalls, (List.nodup_cons.1 hring.nodup).2, hring',
    fun c hc hc0 => ring_nil_iff.1 (hoff c hc hc0)⟩
  rw [shannonWakeUpCommon, hring.next_head]
  exact hloop fuel hfuel

/-- Three entries with all flags set, added to the queue of the head 0 by both functions; the
task of the second one is not asleep. -/
def threeWaiters : WaitHeap ℕ Unit :=
  ((({ links := ⟨id, id⟩, flags := fun _ => 0xffffffff#32, task := fun _ => taskRunning,
        rest := () : WaitHeap ℕ Unit }.shannonPrepareToWait 0 3 taskUninterruptible
      ).shannonAddWaitQueue 0 2).shannonPrepareToWait 0 1 taskInterruptible)

/-- All three are called, and the second one stays. -/
theorem threeWaiters_wakeUp : ∃ q' calls,
    shannonWakeUpCommon (fun _ => autoremoveWakeFunc) 3 threeWaiters 0 wakeUpMode 1 0 ()
      = some (q', calls) ∧ calls.map Prod.fst = [1, 2, 3] ∧ Ring q'.links 0 (kept calls) := by
  have hempty : Built (0 : ℕ) (⟨⟨id, id⟩, fun _ => 0xffffffff#32, fun _ => taskRunning, ()⟩ :
      WaitHeap ℕ Unit) [] :=
    (Built.init ⟨⟨id, id⟩, fun _ => 0xffffffff#32, fun _ => taskRunning, ()⟩).other (by decide)
  have hbuilt : Built 0 threeWaiters [1, 2, 3] := by
    refine .prepare _ (.add (.prepare _ hempty (by decide) ?_) (by decide)) (by decide) ?_
    · exact ring_nil_iff.2 (by decide)
    · exact ring_nil_iff.2 (by decide)
  obtain ⟨q', calls, hcall, hcalls, -, hring, -⟩ :=
    wakeUp_visits_every_waiter_once hbuilt
      (fun w _ => @autoremoveWakeFunc_autoremoves ℕ Unit Unit _ w) wakeUpMode 1 0 ()
  exact ⟨q', calls, hcall 3 (by decide), hcalls, hring⟩

end Waitqueue
end Shannon
