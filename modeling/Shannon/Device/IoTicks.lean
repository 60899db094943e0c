/-
# The jiffies in which a disk was busy

`shannon_device.c`, `shannon_update_io_ticks`.  Both ends of the accounting of an I/O call
it with the clock: it puts the clock into the `stamp` of the partition and counts a tick in
`io_ticks` if that was a change, and then does the same for the disk.  There is no lock.
The stamp is read, compared and replaced with `cmpxchg`, and between any two of these steps
other CPUs and the clock move.

`io_ticks_le` says what is true of every run: a call counts at most one tick for each of the
two.  It is not true that `io_ticks` is the number of jiffies in which there was a call: a
call that is delayed until after the next clock tick may put the stamp back, and the jiffy
after it is counted once more (`io_ticks_delayed`).  `io_ticks_exact` says that nothing else
can go wrong: in a run where no call is under way while the clock ticks, every jiffy with a
call is counted once, however the CPUs race.
-/

import Mathlib.Algebra.Order.BigOperators.Group.Finset
import Mathlib.Data.List.Dedup
import Mathlib.Data.Finset.Card
import Mathlib.Tactic.Linarith
import Shannon.Device.IoAcct

namespace Shannon
namespace Device
namespace IoTicks

open Lib IoAcct

variable {P : Type*} [DecidableEq P] {cpus n : ℕ}

/-! ### The system -/

/-- Where a context is in `shannon_update_io_ticks`; `now` is the argument. -/
inductive Pc (P : Type*) where
  /-- Not in it. -/
  | idle
  /-- At `again`, with this `part`. -/
  | load (part : Option P) (now : ℕ)
  /-- `stamp` was read and is not `now`: before the `cmpxchg`. -/
  | swap (part : Option P) (now stamp : ℕ)
  /-- After a `cmpxchg` that succeeded, before the `__part_stat_add`. -/
  | count (part : Option P) (now : ℕ)
deriving DecidableEq

/-- `part->partno`: on to the disk, or done. -/
def Pc.next (part : Option P) (now : ℕ) : Pc P := if part = none then .idle else .load none now

/-- The clock, `stamp` and `io_ticks` of every partition, and where each of `n` contexts is.
`calls` and `changes` are the history: the calls there were, with the partition and the clock,
and the values every stamp was given, the last one first. -/
structure State (P : Type*) (cpus n : ℕ) where
  jiffies : ℕ
  stamp : Option P → ℕ
  ioTicks : Option P → PerCpu cpus 64
  pc : Fin n → Pc P
  calls : List (Option P × ℕ)
  changes : Option P → List ℕ

/-- What happens.  `cpu` is where the context runs. -/
inductive Act (P : Type*) (cpus n : ℕ) where
  /-- A context calls `shannon_update_io_ticks(part, get_jiffies())`. -/
  | call (t : Fin n) (part : Option P)
  /-- A context inside goes on. -/
  | go (t : Fin n) (cpu : Fin cpus)
  /-- The clock ticks. -/
  | tick

/-- One step of a context that is inside. -/
def goStep (s : State P cpus n) (t : Fin n) (cpu : Fin cpus) : Option (State P cpus n) :=
  match s.pc t with
  | .idle => none
  | .load part now =>
      let stamp := s.stamp part
      let pc := if stamp ≠ now then .swap part now stamp else .next part now
      some { s with pc := Function.update s.pc t pc }
  | .swap part now stamp =>
      if s.stamp part = stamp then
        some { s with
          stamp := Function.update s.stamp part now
          pc := Function.update s.pc t (.count part now)
          changes := Function.update s.changes part (now :: s.changes part) }
      else
        some { s with pc := Function.update s.pc t (.next part now) }
  | .count part now =>
      some { s with
        ioTicks := Function.update s.ioTicks part ((s.ioTicks part).add cpu 1)
        pc := Function.update s.pc t (.next part now) }

/-- One step. -/
def step (s : State P cpus n) : Act P cpus n → Option (State P cpus n)
  | .call t part =>
      if s.pc t = .idle then
        some { s with
          pc := Function.update s.pc t (.load part s.jiffies)
          calls := (part, s.jiffies) :: s.calls }
      else none
  | .go t cpu => goStep s t cpu
  | .tick => some { s with jiffies := s.jiffies + 1 }

/-- A disk that was just added; the clock does not start at zero. -/
def State.init (jiffies : ℕ) : State P cpus n :=
  ⟨jiffies + 1, fun _ => 0, fun _ => .zero, fun _ => .idle, [], fun _ => []⟩

/-- No call is under way. -/
def State.Quiet (s : State P cpus n) : Prop := ∀ t, s.pc t = .idle

instance (s : State P cpus n) : Decidable s.Quiet := inferInstanceAs (Decidable (∀ _, _))

/-- The clock does not tick while a call is under way. -/
def Calm (s : State P cpus n) : Act P cpus n → Prop
  | .tick => s.Quiet
  | _ => True

instance (s : State P cpus n) : ∀ a : Act P cpus n, Decidable (Calm s a)
  | .tick => inferInstanceAs (Decidable s.Quiet)
  | .call .. => isTrue trivial
  | .go .. => isTrue trivial

/-- The clock at the calls that count for `q`. -/
def State.callsOf (s : State P cpus n) (q : Option P) : List ℕ :=
  (s.calls.filter fun c => Hits q c.1).map (·.2)

/-! ### What a step can do -/

/-- The steps, by what was read. -/
inductive Move (s : State P cpus n) : Act P cpus n → State P cpus n → Prop
  | call (t : Fin n) (part : Option P) (hpc : s.pc t = .idle) :
      Move s (.call t part) { s with
        pc := Function.update s.pc t (.load part s.jiffies)
        calls := (part, s.jiffies) :: s.calls }
  | stale (t : Fin n) (cpu : Fin cpus) (part : Option P) (now : ℕ) (hpc : s.pc t = .load part now)
      (hne : s.stamp part ≠ now) :
      Move s (.go t cpu)
        { s with pc := Function.update s.pc t (.swap part now (s.stamp part)) }
  | current (t : Fin n) (cpu : Fin cpus) (part : Option P) (now : ℕ)
      (hpc : s.pc t = .load part now) (heq : s.stamp part = now) :
      Move s (.go t cpu) { s with pc := Function.update s.pc t (.next part now) }
  | swapped (t : Fin n) (cpu : Fin cpus) (part : Option P) (now : ℕ)
      (hpc : s.pc t = .swap part now (s.stamp part)) :
      Move s (.go t cpu) { s with
        stamp := Function.update s.stamp part now
        pc := Function.update s.pc t (.count part now)
        changes := Function.update s.changes part (now :: s.changes part) }
  | lost (t : Fin n) (cpu : Fin cpus) (part : Option P) (now stamp : ℕ)
      (hpc : s.pc t = .swap part now stamp) (hne : s.stamp part ≠ stamp) :
      Move s (.go t cpu) { s with pc := Function.update s.pc t (.next part now) }
  | counted (t : Fin n) (cpu : Fin cpus) (part : Option P) (now : ℕ)
      (hpc : s.pc t = .count part now) :
      Move s (.go t cpu) { s with
        ioTicks := Function.update s.ioTicks part ((s.ioTicks part).add cpu 1)
        pc := Function.update s.pc t (.next part now) }
  | tick : Move s .tick { s with jiffies := s.jiffies + 1 }

variable {s s' : State P cpus n} {a : Act P cpus n} {q part : Option P} {t : Fin n} {now stamp : ℕ}

theorem step_move (h : step s a = some s') : Move s a s' := by
  cases a with
  | call t part =>
      simp only [step, Option.ite_none_right_eq_some, Option.some.injEq] at h
      obtain ⟨hpc, rfl⟩ := h
      exact .call t part hpc
  | go t cpu =>
      simp only [step, goStep] at h
      split at h
      · cases h
      · next part now hpc =>
        obtain rfl := Option.some.inj h
        split_ifs with hne
        · exact .stale t cpu part now hpc hne
        · exact .current t cpu part now hpc (not_not.1 hne)
      · next part now stamp hpc =>
        split_ifs at h with heq
        · obtain rfl := Option.some.inj h
          exact .swapped t cpu part now (heq ▸ hpc)
        · obtain rfl := Option.some.inj h
          exact .lost t cpu part now stamp hpc heq
      · next part now hpc =>
        obtain rfl := Option.some.inj h
        exact .counted t cpu part now hpc
  | tick =>
      obtain rfl := Option.some.inj h
      exact .tick

/-! ### No more ticks than calls -/

/-- The context may still change the stamp of `q`. -/
def Pc.Ahead (q : Option P) : Pc P → Prop
  | .idle => False
  | .load part _ => Hits q part
  | .swap part _ _ => Hits q part
  | .count part _ => q = none ∧ part ≠ none

instance (q : Option P) : ∀ pc : Pc P, Decidable (pc.Ahead q)
  | .idle => isFalse id
  | .load part _ => inferInstanceAs (Decidable (Hits q part))
  | .swap part _ _ => inferInstanceAs (Decidable (Hits q part))
  | .count part _ => inferInstanceAs (Decidable (q = none ∧ part ≠ none))

/-- The changes of the stamp of `q` that the context may still make. -/
def Pc.coming (q : Option P) (pc : Pc P) : ℤ := if pc.Ahead q then 1 else 0

/-- The ticks the context owes `q`. -/
def Pc.owed (q : Option P) : Pc P → ℤ
  | .count part _ => if part = q then 1 else 0
  | _ => 0

/-- What all contexts may still change. -/
def coming (q : Option P) (pc : Fin n → Pc P) : ℤ := ∑ t, (pc t).coming q

/-- What all contexts owe. -/
def owed (q : Option P) (pc : Fin n → Pc P) : ℤ := ∑ t, (pc t).owed q

theorem coming_update (pc : Fin n → Pc P) (t : Fin n) (v : Pc P) :
    coming q (Function.update pc t v) = coming q pc + (v.coming q - (pc t).coming q) :=
  sum_update (Finset.mem_univ t) (Pc.coming q) pc v

theorem owed_update (pc : Fin n → Pc P) (t : Fin n) (v : Pc P) :
    owed q (Function.update pc t v) = owed q pc + (v.owed q - (pc t).owed q) :=
  sum_update (Finset.mem_univ t) (Pc.owed q) pc v

omit [DecidableEq P] in
theorem ahead_next : (Pc.next part now).Ahead q ↔ q = none ∧ part ≠ none := by
  cases part with
  | none => simp [Pc.next, Pc.Ahead]
  | some p => simp [Pc.next, Pc.Ahead, Hits, eq_comm]

omit [DecidableEq P] in
/-- After a partition only the disk is left. -/
theorem eq_of_past (h : Hits q part) (hnot : ¬(Pc.next part now).Ahead q) : q = part := by
  rw [ahead_next, not_and_not_right] at hnot
  rcases h with rfl | rfl
  · exact (hnot rfl).symm
  · rfl

theorem coming_le_of_ahead {v w : Pc P} (h : v.Ahead q → w.Ahead q) : v.coming q ≤ w.coming q := by
  unfold Pc.coming
  split_ifs with hv hw hw
  · exact le_rfl
  · exact absurd (h hv) hw
  · decide
  · exact le_rfl

@[simp]
theorem owed_next : (Pc.next part now).owed q = 0 := by
  cases part <;> rfl

/-- The changes that are counted and those that are owed; and those that may still come. -/
structure Tally (q : Option P) (s : State P cpus n) : Prop where
  ticks : ∃ k : ℕ, (s.ioTicks q).read = BitVec.ofNat 64 k ∧
    k + owed q s.pc = (s.changes q).length
  calls : (s.changes q).length + coming q s.pc ≤ (s.callsOf q).length

/-- A context goes on and neither changes a stamp nor counts. -/
theorem Tally.setPc {v : Pc P} (hs : Tally q s) (howed : v.owed q = (s.pc t).owed q)
    (hahead : v.Ahead q → (s.pc t).Ahead q) :
    Tally q { s with pc := Function.update s.pc t v } := by
  obtain ⟨k, hread, hk⟩ := hs.ticks
  refine ⟨⟨k, hread, ?_⟩, le_trans ?_ hs.calls⟩
  · rw [owed_update, howed]
    simpa using hk
  · have hle := coming_le_of_ahead hahead
    rw [coming_update]
    linarith

theorem tally_step (hs : Tally q s) (h : step s a = some s') : Tally q s' := by
  obtain ⟨k, hread, hk⟩ := hs.ticks
  have hcalls := hs.calls
  cases step_move h with
  | call t part hpc =>
      refine ⟨⟨k, hread, ?_⟩, ?_⟩
      · rw [owed_update, hpc]
        simpa [Pc.owed] using hk
      · rw [coming_update, hpc]
        by_cases hits : Hits q part
        · simp only [Pc.coming, Pc.Ahead, hits, State.callsOf, if_true, decide_true,
            List.filter_cons_of_pos, List.map_cons, List.length_cons] at hcalls ⊢
          push_cast
          linarith
        · simpa [Pc.coming, Pc.Ahead, State.callsOf, hits] using hcalls
  | stale t cpu part now hpc hne =>
      exact hs.setPc (by rw [hpc]; rfl) (by rw [hpc]; exact id)
  | current t cpu part now hpc heq =>
      refine hs.setPc (by rw [hpc, owed_next]; rfl) fun hv => ?_
      rw [hpc]
      exact .inl (ahead_next.1 hv).1
  | swapped t cpu part now hpc =>
      rcases eq_or_ne q part with rfl | hq
      · refine ⟨⟨k, hread, ?_⟩, ?_⟩
        · rw [owed_update, hpc]
          simp only [Pc.owed, if_true, Function.update_self, List.length_cons]
          push_cast
          linarith
        · rw [coming_update, hpc]
          simp only [Pc.coming, Pc.Ahead, Hits, or_true, if_true, and_not_self, if_false,
            Function.update_self, List.length_cons, State.callsOf, ne_eq] at hcalls ⊢
          push_cast
          linarith
      · refine ⟨⟨k, hread, ?_⟩, ?_⟩
        · rw [owed_update, hpc]
          simpa [Pc.owed, hq, hq.symm] using hk
        · have hle : (Pc.count part now).coming q ≤ (s.pc t).coming q := by
            rw [hpc]
            exact coming_le_of_ahead fun hv => .inl hv.1
          rw [coming_update]
          simp only [Function.update_of_ne hq, State.callsOf] at hcalls ⊢
          linarith
  | lost t cpu part now stamp hpc hne =>
      refine hs.setPc (by rw [hpc, owed_next]; rfl) fun hv => ?_
      rw [hpc]
      exact .inl (ahead_next.1 hv).1
  | counted t cpu part now hpc =>
      have hcoming : (Pc.next part now).coming q ≤ (s.pc t).coming q := by
        rw [hpc]
        exact coming_le_of_ahead ahead_next.1
      refine ⟨?_, ?_⟩
      · rw [owed_update, hpc, owed_next]
        rcases eq_or_ne q part with rfl | hq
        · refine ⟨k + 1, ?_, ?_⟩
          · simp [hread, BitVec.ofNat_add]
          · simp only [Pc.owed, if_true]
            push_cast
            linarith
        · refine ⟨k, ?_, ?_⟩
          · simpa [hq] using hread
          · simpa [Pc.owed, hq.symm] using hk
      · rw [coming_update]
        simp only [State.callsOf] at hcalls ⊢
        linarith
  | tick => exact ⟨hs.ticks, hs.calls⟩

theorem tally_init (jiffies : ℕ) (q : Option P) :
    Tally q (State.init jiffies : State P cpus n) := by
  refine ⟨⟨0, PerCpu.read_zero, ?_⟩, ?_⟩
  · simp [State.init, owed, Pc.owed]
  · simp [State.init, coming, Pc.coming, Pc.Ahead, State.callsOf]

theorem owed_nonneg (q : Option P) (pc : Fin n → Pc P) : 0 ≤ owed q pc := by
  refine Finset.sum_nonneg fun t _ => ?_
  unfold Pc.owed
  split
  · split_ifs <;> decide
  · exact le_rfl

theorem coming_nonneg (q : Option P) (pc : Fin n → Pc P) : 0 ≤ coming q pc := by
  refine Finset.sum_nonneg fun t _ => ?_
  unfold Pc.coming
  split_ifs <;> decide

/-- **No more ticks than calls.**  In every state of every run, however the CPUs and the clock
race: a partition has at most one tick for each call on it, and the disk one for each call. -/
theorem io_ticks_le {jiffies : ℕ} {as : List (Act P cpus n)}
    (hrun : run step (State.init jiffies) as = some s) (q : Option P) :
    (s.ioTicks q).read.toNat ≤ (s.callsOf q).length := by
  obtain ⟨⟨k, hread, hk⟩, hcalls⟩ :=
    run_invariant (I := Tally q) (fun s a s' hs h => tally_step hs h) (tally_init jiffies q) hrun
  have howed := owed_nonneg q s.pc
  have hcoming := coming_nonneg q s.pc
  rw [hread, BitVec.toNat_ofNat]
  have hle := Nat.mod_le k (2 ^ 64)
  omega

/-! ### One tick for every jiffy -/

/-- A context that is inside was called in this jiffy, and if the stamp is no longer the one it has
read, another one was faster. -/
def Pc.Ok (jiffies : ℕ) (stamp : Option P → ℕ) : Pc P → Prop
  | .idle => True
  | .load _ now => now = jiffies
  | .swap part now seen => now = jiffies ∧ seen ≠ now ∧ (stamp part = seen ∨ stamp part = now)
  | .count _ now => now = jiffies

omit [DecidableEq P] in
theorem next_ok {jiffies : ℕ} {stamp : Option P → ℕ} (h : now = jiffies) :
    (Pc.next part now).Ok jiffies stamp := by
  cases part with
  | none => trivial
  | some p => exact h

/-- The history of one stamp: it has no jiffy twice, only jiffies with a call, and ends with the
clock if the clock is in it. -/
structure History (jiffies stamp : ℕ) (changes calls : List ℕ) : Prop where
  mem : stamp = 0 ∨ stamp ∈ changes
  le : ∀ j ∈ changes, j ≤ jiffies
  fresh : jiffies ∈ changes → stamp = jiffies
  nodup : changes.Nodup
  sound : ∀ j ∈ changes, j ∈ calls

/-- What holds while the clock ticks only when no call is under way. -/
structure Clean (s : State P cpus n) : Prop where
  pos : 0 < s.jiffies
  contexts : ∀ t, (s.pc t).Ok s.jiffies s.stamp
  called : ∀ t q, (s.pc t).Ahead q → s.jiffies ∈ s.callsOf q
  history : ∀ q, History s.jiffies (s.stamp q) (s.changes q) (s.callsOf q)
  /-- A jiffy with a call is in the history of the stamp, or a context of this jiffy is ahead. -/
  complete : ∀ q, ∀ j ∈ s.callsOf q, j ∈ s.changes q ∨ j = s.jiffies ∧ ∃ t, (s.pc t).Ahead q

theorem clean_init (jiffies : ℕ) : Clean (State.init jiffies : State P cpus n) where
  pos := Nat.succ_pos _
  contexts _ := trivial
  called _ _ h := h.elim
  history _ := ⟨.inl rfl, by simp [State.init], by simp [State.init], List.nodup_nil,
    by simp [State.init]⟩
  complete _ _ hj := (List.not_mem_nil hj).elim

/-- The clock is in the history of a stamp that shows it. -/
theorem Clean.mem_changes (hs : Clean s) (h : s.stamp q = s.jiffies) : s.jiffies ∈ s.changes q := by
  have hpos := hs.pos
  rcases (hs.history q).mem with hzero | hmem
  · omega
  · rwa [← h]

/-- A context goes on and changes no stamp; where it is not ahead any more, the clock has been
put into the stamp. -/
theorem Clean.setPc {v : Pc P} (hs : Clean s) (ioTicks : Option P → PerCpu cpus 64)
    (hok : v.Ok s.jiffies s.stamp) (hahead : ∀ q, v.Ahead q → (s.pc t).Ahead q)
    (hpast : ∀ q, (s.pc t).Ahead q → ¬v.Ahead q → s.jiffies ∈ s.changes q) :
    Clean { s with ioTicks := ioTicks, pc := Function.update s.pc t v } where
  pos := hs.pos
  contexts := forall_update hs.contexts hok
  called t' q h := by
    rcases eq_or_ne t' t with rfl | ht
    · exact hs.called t' q (hahead q (by simpa using h))
    · exact hs.called t' q (by simpa [ht] using h)
  history := hs.history
  complete q j hj := by
    rcases hs.complete q j hj with hmem | ⟨rfl, t', ht'⟩
    · exact .inl hmem
    · rcases eq_or_ne t' t with rfl | ht
      · by_cases hv : v.Ahead q
        · exact .inr ⟨rfl, t', by simpa using hv⟩
        · exact .inl (hpast q ht' hv)
      · exact .inr ⟨rfl, t', by simpa [ht] using ht'⟩

theorem mem_callsOf {j : ℕ} : j ∈ s.callsOf q ↔ ∃ part, (part, j) ∈ s.calls ∧ Hits q part := by
  simp [State.callsOf]

theorem clean_call (hs : Clean s) (hpc : s.pc t = .idle) (part : Option P) :
    Clean { s with
      pc := Function.update s.pc t (.load part s.jiffies)
      calls := (part, s.jiffies) :: s.calls } := by
  set s' : State P cpus n := { s with
    pc := Function.update s.pc t (.load part s.jiffies)
    calls := (part, s.jiffies) :: s.calls } with hs'
  have hself : s'.pc t = .load part s.jiffies := Function.update_self ..
  have hother {t' : Fin n} (ht : t' ≠ t) : s'.pc t' = s.pc t' := Function.update_of_ne ht ..
  have hcalls (q : Option P) (j : ℕ) (hj : j ∈ s.callsOf q) : j ∈ s'.callsOf q := by
    obtain ⟨part', hmem, hits⟩ := mem_callsOf.1 hj
    exact mem_callsOf.2 ⟨part', List.mem_cons_of_mem _ hmem, hits⟩
  refine ⟨hs.pos, forall_update hs.contexts rfl, fun t' q h => ?_, fun q => ?_, fun q j hj => ?_⟩
  · rcases eq_or_ne t' t with rfl | ht
    · rw [hself] at h
      exact mem_callsOf.2 ⟨part, List.mem_cons_self .., h⟩
    · rw [hother ht] at h
      exact hcalls q _ (hs.called t' q h)
  · have hq := hs.history q
    exact ⟨hq.mem, hq.le, hq.fresh, hq.nodup, fun j hj => hcalls q j (hq.sound j hj)⟩
  · obtain ⟨part', hmem, hits⟩ := mem_callsOf.1 hj
    rcases List.mem_cons.1 hmem with hnew | hmem
    · obtain ⟨rfl, rfl⟩ := Prod.mk.inj hnew
      refine .inr ⟨rfl, t, ?_⟩
      rw [hself]
      exact hits
    · rcases hs.complete q j (mem_callsOf.2 ⟨part', hmem, hits⟩) with hold | ⟨rfl, t', ht'⟩
      · exact .inl hold
      · refine .inr ⟨rfl, t', ?_⟩
        have ht : t' ≠ t := by
          rintro rfl
          rw [hpc] at ht'
          exact ht'
        rwa [hother ht]

/-- The `cmpxchg` of another context: who has read the old stamp has lost. -/
theorem Pc.Ok.swapped {jiffies : ℕ} {stamps : Option P → ℕ} {pc : Pc P} (h : pc.Ok jiffies stamps)
    (part : Option P) : pc.Ok jiffies (Function.update stamps part jiffies) := by
  cases pc with
  | idle => trivial
  | load part' now => exact h
  | swap part' now seen =>
      refine ⟨h.1, h.2.1, ?_⟩
      rcases eq_or_ne part' part with rfl | hpart
      · rw [Function.update_self]
        exact .inr h.1.symm
      · rw [Function.update_of_ne hpart]
        exact h.2.2
  | count part' now => exact h

theorem History.swapped {jiffies stamp : ℕ} {changes calls : List ℕ}
    (h : History jiffies stamp changes calls) (hne : stamp ≠ jiffies) (hcall : jiffies ∈ calls) :
    History jiffies jiffies (jiffies :: changes) calls where
  mem := .inr (List.mem_cons_self ..)
  le := List.forall_mem_cons.2 ⟨le_rfl, h.le⟩
  fresh _ := rfl
  nodup := List.nodup_cons.2 ⟨fun hmem => hne (h.fresh hmem), h.nodup⟩
  sound := List.forall_mem_cons.2 ⟨hcall, h.sound⟩

/-- The `cmpxchg` succeeds: this jiffy was not in the history of the stamp. -/
theorem clean_swapped (hs : Clean s) (hpc : s.pc t = .swap part now (s.stamp part)) :
    Clean { s with
      stamp := Function.update s.stamp part now
      pc := Function.update s.pc t (.count part now)
      changes := Function.update s.changes part (now :: s.changes part) } := by
  have hok := hs.contexts t
  rw [hpc] at hok
  obtain ⟨rfl, hne, -⟩ := hok
  have hcall : s.jiffies ∈ s.callsOf part := hs.called t part (by rw [hpc]; exact .inr rfl)
  set s' : State P cpus n := { s with
    stamp := Function.update s.stamp part s.jiffies
    pc := Function.update s.pc t (.count part s.jiffies)
    changes := Function.update s.changes part (s.jiffies :: s.changes part) } with hs'
  have hself : s'.pc t = .count part s.jiffies := Function.update_self ..
  have hother {t' : Fin n} (ht : t' ≠ t) : s'.pc t' = s.pc t' := Function.update_of_ne ht ..
  have hchanges : s'.changes part = s.jiffies :: s.changes part := Function.update_self ..
  have hrest {q : Option P} (hq : q ≠ part) : s'.changes q = s.changes q :=
    Function.update_of_ne hq ..
  refine ⟨hs.pos, forall_update (fun t' => (hs.contexts t').swapped part) rfl, fun t' q h => ?_,
    fun q => ?_, fun q j hj => ?_⟩
  · rcases eq_or_ne t' t with rfl | ht
    · rw [hself] at h
      refine hs.called t' q ?_
      rw [hpc]
      exact .inl h.1
    · rw [hother ht] at h
      exact hs.called t' q h
  · rcases eq_or_ne q part with rfl | hq
    · rw [hchanges, show s'.stamp q = s.jiffies from Function.update_self ..]
      exact (hs.history q).swapped hne hcall
    · rw [hrest hq, show s'.stamp q = s.stamp q from Function.update_of_ne hq ..]
      exact hs.history q
  · rcases eq_or_ne q part with rfl | hq
    · rw [hchanges]
      rcases hs.complete q j hj with hmem | ⟨rfl, -⟩
      · exact .inl (List.mem_cons_of_mem _ hmem)
      · exact .inl (List.mem_cons_self ..)
    · rw [hrest hq]
      refine (hs.complete q j hj).imp_right fun ⟨hnow, t', ht'⟩ => ⟨hnow, t', ?_⟩
      rcases eq_or_ne t' t with rfl | ht
      · rw [hpc] at ht'
        rw [hself]
        rcases ht' with rfl | rfl
        · exact ⟨rfl, hq.symm⟩
        · exact absurd rfl hq
      · rwa [hother ht]

theorem clean_tick (hs : Clean s) (hquiet : s.Quiet) :
    Clean { s with jiffies := s.jiffies + 1 } where
  pos := Nat.succ_pos _
  contexts t := by
    rw [show (_ : State P cpus n).pc t = .idle from hquiet t]
    trivial
  called t q h := by
    rw [show (_ : State P cpus n).pc t = .idle from hquiet t] at h
    exact h.elim
  history q := by
    have hq := hs.history q
    refine ⟨hq.mem, fun j hj => (hq.le j hj).trans (Nat.le_succ _), fun hmem => ?_, hq.nodup,
      hq.sound⟩
    exact absurd (hq.le _ hmem) (Nat.not_succ_le_self _)
  complete q j hj := by
    rcases hs.complete q j hj with hmem | ⟨-, t, ht⟩
    · exact .inl hmem
    · rw [hquiet t] at ht
      exact ht.elim

/-- **A step keeps the histories clean** if the clock does not tick during a call. -/
theorem clean_step (hs : Clean s) (hcalm : Calm s a) (h : step s a = some s') : Clean s' := by
  cases step_move h with
  | call t part hpc => exact clean_call hs hpc part
  | stale t cpu part now hpc hne =>
      have hok := hs.contexts t
      rw [hpc] at hok
      refine hs.setPc s.ioTicks ⟨hok, hne, .inl rfl⟩ (fun q => ?_) (fun q => ?_)
      · rw [hpc]
        exact id
      · rw [hpc]
        exact absurd
  | current t cpu part now hpc heq =>
      have hok := hs.contexts t
      rw [hpc] at hok
      refine hs.setPc s.ioTicks (next_ok hok) (fun q hv => ?_) (fun q hv hnot => ?_)
      · rw [hpc]
        exact .inl (ahead_next.1 hv).1
      · rw [hpc] at hv
        obtain rfl := eq_of_past hv hnot
        exact hs.mem_changes (heq.trans hok)
  | swapped t cpu part now hpc => exact clean_swapped hs hpc
  | lost t cpu part now stamp hpc hne =>
      have hok := hs.contexts t
      rw [hpc] at hok
      obtain ⟨rfl, -, hstamp⟩ := hok
      refine hs.setPc s.ioTicks (next_ok rfl) (fun q hv => ?_) (fun q hv hnot => ?_)
      · rw [hpc]
        exact .inl (ahead_next.1 hv).1
      · rw [hpc] at hv
        obtain rfl := eq_of_past hv hnot
        exact hs.mem_changes (hstamp.resolve_left hne)
  | counted t cpu part now hpc =>
      have hok := hs.contexts t
      rw [hpc] at hok
      refine hs.setPc _ (next_ok hok) (fun q hv => ?_) (fun q hv hnot => ?_)
      · rw [hpc]
        exact ahead_next.1 hv
      · rw [hpc] at hv
        exact absurd (ahead_next.2 hv) hnot
  | tick => exact clean_tick hs hcalm

/-- **One tick for every jiffy.**  If the clock never ticks while a call is under way, then whenever
no call is under way `io_ticks` of a partition is the number of jiffies in which there was a call
on it, and that of the disk the number of those in which there was a call at all, however many
CPUs tried to count the same jiffy. -/
theorem io_ticks_exact {jiffies : ℕ} {as : List (Act P cpus n)}
    (hrun : run step (State.init jiffies) as = some s)
    (hcalm : Along step Calm (State.init jiffies) as) (hquiet : s.Quiet) (q : Option P) :
    (s.ioTicks q).read = BitVec.ofNat 64 (s.callsOf q).toFinset.card := by
  have htally : Tally q s :=
    run_invariant (fun s a s' hs h => tally_step hs h) (tally_init jiffies q) hrun
  obtain ⟨k, hread, hk⟩ := htally.ticks
  have hclean : Clean s :=
    run_invariant_along (fun s a s' hs hcalm h => clean_step hs hcalm h) (clean_init jiffies)
      hcalm hrun
  have howed : owed q s.pc = 0 := Finset.sum_eq_zero fun t _ => by rw [hquiet t]; rfl
  have hset : (s.changes q).toFinset = (s.callsOf q).toFinset := by
    ext j
    rw [List.mem_toFinset, List.mem_toFinset]
    refine ⟨(hclean.history q).sound j, fun hj => ?_⟩
    rcases hclean.complete q j hj with hmem | ⟨-, t, ht⟩
    · exact hmem
    · rw [hquiet t] at ht
      exact ht.elim
  rw [hread, ← hset, List.toFinset_card_of_nodup (hclean.history q).nodup]
  congr 1
  omega

/-- Two contexts count the same jiffy and one of them loses; the winner comes back a jiffy later. -/
def racing (a b : Fin 2) : List (Act Unit 2 2) :=
  [.call a (some ()), .call b none, .go a a, .go a a, .go a a, .go a a, .go b b, .go b b, .go a a,
    .go b b, .tick, .call a none, .go a b, .go a b, .go a b]

/-- The hypotheses of `io_ticks_exact` are satisfiable: `racing` counts two jiffies for the disk and
one for the partition. -/
theorem io_ticks_racing :
    ∃ s : State Unit 2 2, run step (State.init 4) (racing 0 1) = some s ∧ s.Quiet ∧
      (s.ioTicks none).read = 2 ∧ (s.ioTicks (some ())).read = 1 := by
  obtain ⟨s, hs, hquiet, hdisk, hpart⟩ : ∃ s : State Unit 2 2,
      run step (State.init 4) (racing 0 1) = some s ∧ s.Quiet ∧ (s.callsOf none).toFinset.card = 2 ∧
      (s.callsOf (some ())).toFinset.card = 1 := ⟨_, rfl, by decide, by decide, by decide⟩
  have hcalm : Along step Calm (State.init 4 : State Unit 2 2) (racing 0 1) := by decide
  refine ⟨s, hs, hquiet, ?_, ?_⟩
  · rw [io_ticks_exact hs hcalm hquiet, hdisk]
    rfl
  · rw [io_ticks_exact hs hcalm hquiet, hpart]
    rfl

/-- A call is delayed until after the next jiffy was counted, and puts the stamp back. -/
def delayed (a b : Fin 2) (cpu : Fin 1) : List (Act Unit 1 2) :=
  [.call a none, .tick, .call b none, .go b cpu, .go b cpu, .go b cpu, .go a cpu, .go a cpu,
    .go a cpu, .call b none, .go b cpu, .go b cpu, .go b cpu]

/-- `io_ticks_exact` needs its condition: `delayed` has calls in two jiffies and counts three. -/
theorem io_ticks_delayed :
    ∃ s : State Unit 1 2, run step (State.init 4) (delayed 0 1 0) = some s ∧ s.Quiet ∧
      (s.ioTicks none).read = 3 ∧ (s.callsOf none).toFinset.card = 2 :=
  ⟨_, rfl, by decide, by decide, by decide⟩

end IoTicks
end Device
end Shannon
