/-
# The rate limit of the log

`shannon_kcore.c`, `shannon_ratelimit`: every message of the driver goes through one of
two limiters (`shannon_rs`, `recover_rs`), each with an interval and a burst.  A limiter
lets `burst` messages through, counts the others in `missed`, and starts again once the
interval is over; at that moment it reports how many it has suppressed.

The interval is taken from the first call after the last start, and the clock is
`jiffies`, which wraps.  What a maintainer of the log relies on holds all the same.
No call that got the lock is lost from the books: it passed, or it was reported as
suppressed, or it is still in `missed` (`ratelimit_accounts`).  And two starts lie more
than an interval apart (`Restarted.keeps`), so no stretch of an interval sees two whole
bursts (`ratelimit_bounds`), however often the clock wraps in between.
-/

import Mathlib.Data.Int.ModEq
import Mathlib.Data.List.Basic

namespace Shannon
namespace Kcore

/-! ### `shannon_ratelimit` -/

/-- `struct shannon_ratelimit_state`.  The lock is not a field: what is done under it is
one step. -/
structure RatelimitState where
  interval : ℤ
  burst : ℤ
  printed : ℤ
  missed : ℤ
  begin : ℤ
deriving DecidableEq, Repr

/-- `DEFINE_SHANNON_RATELIMIT_STATE`: `shannon_rs` has an interval of `5 * HZ` and a burst of
500, `recover_rs` the same interval and a burst of 1000. -/
def defineShannonRatelimitState (intervalInit burstInit : ℤ) : RatelimitState :=
  ⟨intervalInit, burstInit, 0, 0, 0⟩

/-- The counter `jiffies`, `t` ticks after it was zero. -/
def jiffies (t : ℕ) : ℤ := t % 2 ^ 64

/-- `time_after`: the difference, taken as a signed `long`, is negative. -/
def timeAfter (a b : ℤ) : Bool := decide (2 ^ 63 ≤ (b - a) % 2 ^ 64)

/-- One call: it finds the lock taken, or it reads `jiffies` at two times, for `begin` and
for the test. -/
inductive RatelimitCall where
  | contended
  | entered (first second : ℕ)
deriving DecidableEq, Repr

/-- The times at which a call reads `jiffies`. -/
def RatelimitCall.times : RatelimitCall → List ℕ
  | .contended => []
  | .entered first second => [first, second]

/-- What a call does that can be seen: what it returns, and the number of suppressed
messages it prints. -/
structure RatelimitOutcome where
  ret : Bool
  suppressed : Option ℤ
deriving DecidableEq, Repr

/-- The beginning of the interval, set by the first call after a start. -/
def RatelimitState.setBegin (rs : RatelimitState) (first : ℕ) : RatelimitState :=
  if rs.begin = 0 then { rs with begin := jiffies first } else rs

/-- The interval is over. -/
def RatelimitState.over (rs : RatelimitState) (second : ℕ) : Bool :=
  timeAfter (jiffies second) ((rs.begin + rs.interval) % 2 ^ 64)

/-- A new start, and what is printed of the old one. -/
def RatelimitState.restart (rs : RatelimitState) : Option ℤ × RatelimitState :=
  (if rs.missed ≠ 0 then some rs.missed else none,
    { rs with begin := 0, printed := 0, missed := 0 })

/-- The end of the section: the message passes, or is missed. -/
def RatelimitState.count (rs : RatelimitState) : Bool × RatelimitState :=
  if rs.burst ≠ 0 ∧ rs.printed < rs.burst then (true, { rs with printed := rs.printed + 1 })
  else (false, { rs with missed := Int.bmod (rs.missed + 1) (2 ^ 32) })

/-- What `shannon_ratelimit` does under the lock. -/
def RatelimitState.underLock (rs : RatelimitState) (first second : ℕ) :
    RatelimitOutcome × RatelimitState :=
  let rs := rs.setBegin first
  let (suppressed, rs) := if rs.over second then rs.restart else (none, rs)
  let (ret, rs) := rs.count
  (⟨ret, suppressed⟩, rs)

/-- `shannon_ratelimit`. -/
def shannonRatelimit (rs : RatelimitState) (c : RatelimitCall) :
    RatelimitOutcome × RatelimitState :=
  if rs.interval = 0 then (⟨true, none⟩, rs)
  else
    match c with
    | .contended => (⟨false, none⟩, rs)
    | .entered first second => rs.underLock first second

/-- One call after another: what they do, and the state they leave. -/
def ratelimitCalls (rs : RatelimitState) :
    List RatelimitCall → List RatelimitOutcome × RatelimitState
  | [] => ([], rs)
  | c :: cs =>
      let (o, rs) := shannonRatelimit rs c
      let (os, rs) := ratelimitCalls rs cs
      (o :: os, rs)

/-- The number of messages that passed. -/
def passed (os : List RatelimitOutcome) : ℕ := os.countP (·.ret)

/-- The number of messages reported as suppressed. -/
def reported (os : List RatelimitOutcome) : ℤ := (os.map fun o => o.suppressed.getD 0).sum

/-- The number of calls that got the lock. -/
def entered (cs : List RatelimitCall) : ℕ := cs.countP (· ≠ .contended)

/-! ### One call -/

section OneCall

variable {rs rs' : RatelimitState} {o : RatelimitOutcome} {first second : ℕ}

/-- Setting `begin` changes nothing else. -/
theorem setBegin_eq (rs : RatelimitState) (first : ℕ) :
    rs.setBegin first = { rs with begin := (rs.setBegin first).begin } := by
  unfold RatelimitState.setBegin
  split_ifs <;> rfl

/-- What the end of the section can do. -/
theorem count_cases {ret : Bool} (h : rs.count = (ret, rs')) :
    (ret = true ∧ rs.printed < rs.burst ∧ rs' = { rs with printed := rs.printed + 1 }) ∨
    (ret = false ∧ (rs.burst = 0 ∨ rs.burst ≤ rs.printed) ∧
      rs' = { rs with missed := Int.bmod (rs.missed + 1) (2 ^ 32) }) := by
  unfold RatelimitState.count at h
  split_ifs at h with hpass
  · obtain ⟨rfl, rfl⟩ := Prod.mk.inj h
    exact .inl ⟨rfl, hpass.2, rfl⟩
  · obtain ⟨rfl, rfl⟩ := Prod.mk.inj h
    exact .inr ⟨rfl, by omega, rfl⟩

/-- What a call that got the lock can do. -/
theorem underLock_cases (h : rs.underLock first second = (o, rs')) :
    ((rs.setBegin first).over second = false ∧ o.suppressed = none ∧
      (rs.setBegin first).count = (o.ret, rs')) ∨
    ((rs.setBegin first).over second = true ∧
      o.suppressed = (if rs.missed ≠ 0 then some rs.missed else none) ∧
      RatelimitState.count { rs with begin := 0, printed := 0, missed := 0 } = (o.ret, rs')) := by
  unfold RatelimitState.underLock at h
  cases hover : (rs.setBegin first).over second with
  | false =>
      simp only [hover, Bool.false_eq_true, if_false, Prod.mk.injEq] at h
      obtain ⟨rfl, rfl⟩ := h
      exact .inl ⟨rfl, rfl, rfl⟩
  | true =>
      simp only [hover, if_true, RatelimitState.restart, Prod.mk.injEq] at h
      rw [setBegin_eq] at h
      obtain ⟨rfl, rfl⟩ := h
      exact .inr ⟨rfl, rfl, rfl⟩

/-- The books of one call. -/
theorem underLock_accounts (h : rs.underLock first second = (o, rs')) :
    rs.missed + 1 ≡ (if o.ret then 1 else 0) + o.suppressed.getD 0 + rs'.missed [ZMOD 2 ^ 32] := by
  have hmiss (m : ℤ) : m + 1 ≡ 0 + Int.bmod (m + 1) (2 ^ 32) [ZMOD 2 ^ 32] := by
    rw [Int.ModEq, zero_add]
    exact (Int.bmod_emod ..).symm
  rcases underLock_cases h with ⟨-, hnone, hcount⟩ | ⟨-, hsome, hcount⟩
  · rw [setBegin_eq] at hcount
    rcases count_cases hcount with ⟨hret, -, rfl⟩ | ⟨hret, -, rfl⟩
    · simp [hret, hnone, add_comm]
    · simpa [hret, hnone] using hmiss rs.missed
  · have hall : o.suppressed.getD 0 = rs.missed := by
      rw [hsome]
      split_ifs with hne
      · rfl
      · exact (not_not.1 hne).symm
    rcases count_cases hcount with ⟨hret, -, rfl⟩ | ⟨hret, -, rfl⟩
    · simp [hret, hall, add_comm]
    · rw [hall, hret]
      simp

/-- `printed` counts up from zero, and has counted something, as far as the burst allows,
when an interval is under way. -/
structure RatelimitState.Counts (rs : RatelimitState) : Prop where
  nonneg : 0 ≤ rs.printed
  begun : rs.begin = 0 ∨ 0 < rs.printed ∨ rs.burst ≤ 0

/-- A call changes neither the interval nor the burst. -/
theorem underLock_frame (h : rs.underLock first second = (o, rs')) :
    rs'.interval = rs.interval ∧ rs'.burst = rs.burst ∧ (rs.Counts → rs'.Counts) := by
  rcases underLock_cases h with ⟨-, -, hcount⟩ | ⟨-, -, hcount⟩
  · rw [setBegin_eq] at hcount
    rcases count_cases hcount with ⟨-, -, rfl⟩ | ⟨-, hfull, rfl⟩
    · refine ⟨rfl, rfl, fun hrs => ?_⟩
      have hnonneg := hrs.nonneg
      exact ⟨by dsimp only; omega, .inr (.inl (by dsimp only; omega))⟩
    · refine ⟨rfl, rfl, fun hrs => ⟨hrs.nonneg, .inr ?_⟩⟩
      simp only at hfull ⊢
      omega
  · rcases count_cases hcount with ⟨-, -, rfl⟩ | ⟨-, -, rfl⟩
    · exact ⟨rfl, rfl, fun _ => ⟨by simp, .inl rfl⟩⟩
    · exact ⟨rfl, rfl, fun _ => ⟨le_rfl, .inl rfl⟩⟩

end OneCall

/-! ### The books of a run -/

theorem passed_cons (o : RatelimitOutcome) (os : List RatelimitOutcome) :
    passed (o :: os) = (if o.ret then 1 else 0) + passed os := by
  rw [passed, List.countP_cons, add_comm]
  rfl

/-- **No call is lost from the books.**  Over any run, the calls that got the lock are the
messages that passed, those that were reported as suppressed and those that are still in
`missed`; the counters are `int`s, so this is modulo `2 ^ 32`. -/
theorem ratelimit_accounts {rs : RatelimitState} (hinterval : rs.interval ≠ 0)
    (cs : List RatelimitCall) :
    rs.missed + entered cs ≡ passed (ratelimitCalls rs cs).1 + reported (ratelimitCalls rs cs).1
      + (ratelimitCalls rs cs).2.missed [ZMOD 2 ^ 32] := by
  induction cs generalizing rs with
  | nil => simp [ratelimitCalls, entered, passed, reported]
  | cons c cs ih =>
      cases c with
      | contended =>
          have hcall : shannonRatelimit rs .contended = (⟨false, none⟩, rs) := by
            simp [shannonRatelimit, hinterval]
          simpa [ratelimitCalls, hcall, entered, passed, reported] using ih hinterval
      | entered first second =>
          obtain ⟨o, rs', hlock⟩ : ∃ o rs', rs.underLock first second = (o, rs') := ⟨_, _, rfl⟩
          have hcall : shannonRatelimit rs (.entered first second) = (o, rs') := by
            simp [shannonRatelimit, hinterval, hlock]
          have hone := underLock_accounts hlock
          have hinterval' : rs'.interval ≠ 0 := by rwa [(underLock_frame hlock).1]
          have hrest := ih hinterval'
          have hentered : entered (.entered first second :: cs) = entered cs + 1 := by
            simp [entered]
          simp only [ratelimitCalls, hcall, hentered, passed_cons, reported, List.map_cons,
            List.sum_cons] at hrest ⊢
          push_cast
          unfold Int.ModEq at hone hrest ⊢
          omega

/-- Three calls use up a burst of two, a fourth one finds the lock taken, and one after the
interval reports the third. -/
def burstOfTwo : List RatelimitCall :=
  [.entered 7 7, .entered 7 8, .entered 8 8, .contended, .entered 20 20]

/-- The hypothesis of `ratelimit_accounts` is satisfiable. -/
theorem ratelimit_accounts_burstOfTwo :
    ((ratelimitCalls (defineShannonRatelimitState 5 2) burstOfTwo).1.map (·.suppressed)
      = [none, none, none, none, some 1]) ∧
    (0 : ℤ) + 4 ≡ 3 + 1 + 0 [ZMOD 2 ^ 32] :=
  ⟨by decide, ratelimit_accounts (show (defineShannonRatelimitState 5 2).interval ≠ 0 by decide)
    burstOfTwo⟩

/-! ### Two bursts an interval -/

/-- The interval under way has begun between `lo` and `lo + interval`, or begins with the next
call. -/
def Restarted (rs : RatelimitState) (lo : ℕ) : Prop :=
  rs.begin = 0 ∨ ∃ e : ℕ, lo ≤ e ∧ e ≤ lo + rs.interval ∧ rs.begin = jiffies e

/-- All readings of the clock lie between `lo` and `lo + interval`. -/
def Within (lo : ℕ) (interval : ℤ) (cs : List RatelimitCall) : Prop :=
  ∀ c ∈ cs, ∀ t ∈ c.times, lo ≤ t ∧ (t : ℤ) ≤ lo + interval

section Bounds

variable {rs rs' : RatelimitState} {o : RatelimitOutcome} {lo first second : ℕ}

/-- An interval that began within an interval of `second` is not over then, also if the clock
has wrapped since. -/
theorem over_eq_false {e : ℕ} (hint : rs.interval < 2 ^ 31) (hbegin : rs.begin = jiffies e)
    (he : lo ≤ e ∧ (e : ℤ) ≤ lo + rs.interval)
    (hsecond : lo ≤ second ∧ (second : ℤ) ≤ lo + rs.interval) : rs.over second = false := by
  unfold RatelimitState.over timeAfter
  rw [hbegin, decide_eq_false_iff_not, jiffies, jiffies]
  omega

theorem Restarted.setBegin (hrs : Restarted rs lo)
    (hfirst : lo ≤ first ∧ (first : ℤ) ≤ lo + rs.interval) :
    ∃ e : ℕ, lo ≤ e ∧ e ≤ lo + rs.interval ∧ (rs.setBegin first).begin = jiffies e := by
  unfold RatelimitState.setBegin
  split_ifs with hzero
  · exact ⟨first, hfirst.1, hfirst.2, rfl⟩
  · exact hrs.resolve_left hzero

/-- **No second start within an interval.** -/
theorem Restarted.keeps (hint : rs.interval < 2 ^ 31) (hrs : Restarted rs lo)
    (hfirst : lo ≤ first ∧ (first : ℤ) ≤ lo + rs.interval)
    (hsecond : lo ≤ second ∧ (second : ℤ) ≤ lo + rs.interval)
    (h : rs.underLock first second = (o, rs')) :
    Restarted rs' lo ∧
      ((o.ret = true ∧ rs.printed < rs.burst ∧ rs'.printed = rs.printed + 1) ∨
        (o.ret = false ∧ rs'.printed = rs.printed)) := by
  obtain ⟨e, hlo, hhi, hbegin⟩ := hrs.setBegin hfirst
  have hsame := setBegin_eq rs first
  have hover : (rs.setBegin first).over second = false := by
    refine over_eq_false ?_ hbegin ⟨hlo, ?_⟩ ⟨hsecond.1, ?_⟩
    · rwa [hsame]
    · rwa [hsame]
    · rw [hsame]
      exact hsecond.2
  rcases underLock_cases h with ⟨-, -, hcount⟩ | ⟨hfalse, -, -⟩
  · rw [hsame] at hcount
    rcases count_cases hcount with ⟨hret, hlt, rfl⟩ | ⟨hret, -, rfl⟩
    · exact ⟨.inr ⟨e, hlo, hhi, hbegin⟩, .inl ⟨hret, hlt, rfl⟩⟩
    · exact ⟨.inr ⟨e, hlo, hhi, hbegin⟩, .inr ⟨hret, rfl⟩⟩
  · rw [hover] at hfalse
    cases hfalse

theorem Within.head {interval : ℤ} {cs : List RatelimitCall}
    (hcs : Within lo interval (.entered first second :: cs)) :
    (lo ≤ first ∧ (first : ℤ) ≤ lo + interval) ∧ (lo ≤ second ∧ (second : ℤ) ≤ lo + interval) := by
  have h := hcs _ (List.mem_cons_self ..)
  exact ⟨h first (by simp [RatelimitCall.times]), h second (by simp [RatelimitCall.times])⟩

theorem Within.tail {interval : ℤ} {c : RatelimitCall} {cs : List RatelimitCall}
    (hcs : Within lo interval (c :: cs)) : Within lo interval cs :=
  fun d hd => hcs d (List.mem_cons_of_mem _ hd)

/-- After a start, what is left of the burst. -/
theorem Restarted.passed_le {cs : List RatelimitCall} (hinterval : rs.interval ≠ 0)
    (hint : rs.interval < 2 ^ 31) (hrs : Restarted rs lo) (hcs : Within lo rs.interval cs) :
    passed (ratelimitCalls rs cs).1 ≤ (rs.burst - rs.printed).toNat := by
  induction cs generalizing rs with
  | nil => simp [ratelimitCalls, passed]
  | cons c cs ih =>
      cases c with
      | contended =>
          have hrest := ih hinterval hint hrs hcs.tail
          simpa [ratelimitCalls, shannonRatelimit, hinterval, passed] using hrest
      | entered first second =>
          obtain ⟨o, rs', hlock⟩ : ∃ o rs', rs.underLock first second = (o, rs') := ⟨_, _, rfl⟩
          obtain ⟨hfirst, hsecond⟩ := hcs.head
          obtain ⟨hrs', hcount⟩ := hrs.keeps hint hfirst hsecond hlock
          obtain ⟨hsame, hburst, -⟩ := underLock_frame hlock
          have htail : Within lo rs'.interval cs := by rw [hsame]; exact hcs.tail
          have hrest := ih (by rwa [hsame]) (by rwa [hsame]) hrs' htail
          simp only [ratelimitCalls, shannonRatelimit, if_neg hinterval, hlock, passed_cons]
          rw [hburst] at hrest
          rcases hcount with ⟨hret, hlt, hprinted⟩ | ⟨hret, hprinted⟩
          · rw [hprinted] at hrest
            simp only [hret, if_true]
            omega
          · rw [hprinted] at hrest
            simpa [hret] using hrest

/-- From any state, what is left of the burst before the first start, and a burst after it. -/
theorem passed_le_two_bursts {cs : List RatelimitCall} (hinterval : rs.interval ≠ 0)
    (hint : rs.interval < 2 ^ 31) (hcs : Within lo rs.interval cs) :
    passed (ratelimitCalls rs cs).1 ≤ (rs.burst - rs.printed).toNat + rs.burst.toNat := by
  induction cs generalizing rs with
  | nil => simp [ratelimitCalls, passed]
  | cons c cs ih =>
      cases c with
      | contended =>
          have hrest := ih hinterval hint hcs.tail
          simpa [ratelimitCalls, shannonRatelimit, hinterval, passed] using hrest
      | entered first second =>
          obtain ⟨o, rs', hlock⟩ : ∃ o rs', rs.underLock first second = (o, rs') := ⟨_, _, rfl⟩
          obtain ⟨hsame, -, -⟩ := underLock_frame hlock
          have htail : Within lo rs'.interval cs := by rw [hsame]; exact hcs.tail
          simp only [ratelimitCalls, shannonRatelimit, if_neg hinterval, hlock, passed_cons]
          rcases underLock_cases hlock with ⟨-, -, hcount⟩ | ⟨-, -, hcount⟩
          · have hrest := ih (by rwa [hsame]) (by rwa [hsame]) htail
            rw [setBegin_eq] at hcount
            rcases count_cases hcount with ⟨hret, hlt, rfl⟩ | ⟨hret, -, rfl⟩
            · simp only [hret, if_true] at hrest hlt ⊢
              omega
            · simpa [hret] using hrest
          · -- The start: `begin` is zero again, so `Restarted.passed_le` bounds the rest.
            have hstart : Restarted rs' lo := by
              rcases count_cases hcount with ⟨-, -, rfl⟩ | ⟨-, -, rfl⟩ <;> exact .inl rfl
            have hrest := hstart.passed_le (by rwa [hsame]) (by rwa [hsame]) htail
            rcases count_cases hcount with ⟨hret, hlt, rfl⟩ | ⟨hret, -, rfl⟩
            · simp only [hret, if_true] at hrest hlt ⊢
              omega
            · simp only [hret] at hrest ⊢
              simp only [Bool.false_eq_true, if_false]
              omega

end Bounds

/-- What no call changes. -/
theorem ratelimitCalls_frame (rs : RatelimitState) (cs : List RatelimitCall) :
    (ratelimitCalls rs cs).2.interval = rs.interval ∧ (ratelimitCalls rs cs).2.burst = rs.burst ∧
      (rs.Counts → (ratelimitCalls rs cs).2.Counts) := by
  induction cs generalizing rs with
  | nil => exact ⟨rfl, rfl, id⟩
  | cons c cs ih =>
      obtain ⟨hinterval, hburst, hcounts⟩ := ih (shannonRatelimit rs c).2
      have hone : (shannonRatelimit rs c).2.interval = rs.interval ∧
          (shannonRatelimit rs c).2.burst = rs.burst ∧
          (rs.Counts → (shannonRatelimit rs c).2.Counts) := by
        unfold shannonRatelimit
        split_ifs with hzero
        · exact ⟨rfl, rfl, id⟩
        · cases c with
          | contended => exact ⟨rfl, rfl, id⟩
          | entered first second => exact underLock_frame rfl
      exact ⟨hinterval.trans hone.1, hburst.trans hone.2.1, fun h => hcounts (hone.2.2 h)⟩

/-- **Less than two bursts in an interval.**  However many calls there were `before`, from
however many CPUs, and wherever the clock stands: the calls that read it within an interval
let less than twice the burst through. -/
theorem ratelimit_bounds {interval burst : ℤ} (hpos : 0 < interval) (hint : interval < 2 ^ 31)
    (before window : List RatelimitCall) {lo : ℕ} (hwindow : Within lo interval window) :
    passed (ratelimitCalls
      (ratelimitCalls (defineShannonRatelimitState interval burst) before).2 window).1
      ≤ 2 * burst.toNat - 1 := by
  obtain ⟨hinterval, hburst, hcounts⟩ :=
    ratelimitCalls_frame (defineShannonRatelimitState interval burst) before
  have hrs := hcounts ⟨le_rfl, .inl rfl⟩
  generalize (ratelimitCalls (defineShannonRatelimitState interval burst) before).2 = rs at *
  obtain rfl : rs.interval = interval := hinterval
  obtain rfl : rs.burst = burst := hburst
  have hnonneg := hrs.nonneg
  rcases hrs.begun with hzero | hcounted
  · -- Nothing was begun, so no start falls into the window.
    have hle := Restarted.passed_le hpos.ne' hint (.inl hzero) hwindow
    omega
  · have hle := passed_le_two_bursts hpos.ne' hint hwindow
    omega

/-- The hypotheses of `ratelimit_bounds` are satisfiable, and the bound is met: one message of
two is left at the end of an interval, and two more pass after the next start; the clock wraps in
between. -/
theorem ratelimit_bounds_twoBursts :
    let before : List RatelimitCall := [.entered (2 ^ 64 - 6) (2 ^ 64 - 6)]
    let window : List RatelimitCall :=
      [.entered (2 ^ 64 - 2) (2 ^ 64 - 2), .entered (2 ^ 64) (2 ^ 64),
        .entered (2 ^ 64) (2 ^ 64 + 1), .entered (2 ^ 64 + 3) (2 ^ 64 + 3)]
    passed (ratelimitCalls (ratelimitCalls (defineShannonRatelimitState 5 2) before).2 window).1
        = 3 ∧
      passed (ratelimitCalls (ratelimitCalls (defineShannonRatelimitState 5 2) before).2 window).1
        ≤ 2 * (2 : ℤ).toNat - 1 :=
  ⟨by decide, ratelimit_bounds (by decide) (by decide) _ _ (by
    show Within (2 ^ 64 - 2) 5 _
    intro c hc t ht
    simp only [List.mem_cons, List.not_mem_nil, or_false] at hc
    rcases hc with rfl | rfl | rfl | rfl <;>
      simp only [RatelimitCall.times, List.mem_cons, List.not_mem_nil, or_false] at ht <;>
      omega)⟩

end Kcore
end Shannon
