/-
# The intrusive lists are sequences

`shannon_list.h`: the lists that the RT work queue and the wait queues are made of.  Every
function of the header is here as the pointer writes it makes; `Op` is a call of one of
those that write, on any nodes of one heap.

What a heap stands for is a sequence for every head (`Shannon.Lib.Rings`), and a call does
to the sequences what its name says (`Op.apply`):

| call                         | may be made on                    | sequences                |
| ---------------------------- | --------------------------------- | ------------------------ |
| `SHANNON_INIT_LIST_HEAD`     | a self-linked or a fresh node     | the empty one            |
| `shannon_list_add`           | a node on no list, and a head     | pushed to the front      |
| `shannon_list_add_tail`      | a node on no list, and a head     | appended                 |
| `shannon_list_del`           | a node on a list or self-linked   | removed where it is      |
| `shannon_list_del_init`      | a node on a list or self-linked   | removed where it is      |

One call keeps heap and sequences together (`Rings.exec`), so does any number of them
(`Rings.foldl_exec`), and what the readers of the header see then is what the sequences
say: `lists_refine_sequences`.
-/

import Shannon.Lib.Rings
import Shannon.Lib.Run
import Shannon.Waitqueue.WaitEvent

namespace Shannon
namespace Intrusive

open Lib Workqueue Waitqueue

variable {ν : Type*} [DecidableEq ν]

/-! ### The header -/

/-- `SHANNON_INIT_LIST_HEAD`. -/
def shannonInitListHead (h : Links ν) (list : ν) : Links ν := h.selfLink list

/-- `shannon_list_del`, which sets the links of the entry up again as
`shannon_list_del_init` does. -/
def shannonListDel (h : Links ν) (entry : ν) : Links ν :=
  shannonInitListHead (h.unlink (h.prev entry) (h.next entry)) entry

/-- `shannon_list_empty_careful`. -/
def shannonListEmptyCareful (h : Links ν) (head : ν) : Bool :=
  let next := h.next head
  next = head && next = h.prev head

/-- `shannon_list_for_each`: the nodes it visits, if there are at most `fuel`. -/
def shannonListForEach (h : Links ν) (head : ν) (fuel : ℕ) : Option (List ν) :=
  walk h.next head fuel (h.next head)

/-- `shannon_list_for_each_entry_reverse`. -/
def shannonListForEachEntryReverse (h : Links ν) (head : ν) (fuel : ℕ) : Option (List ν) :=
  walk h.prev head fuel (h.prev head)

/-- A call of a function that writes. -/
inductive Op (ν : Type*) where
  | init (list : ν)
  | add (new head : ν)
  | addTail (new head : ν)
  | del (entry : ν)
  | delInit (entry : ν)
deriving DecidableEq, Repr

/-- What the call does to the heap. -/
def Op.exec (h : Links ν) : Op ν → Links ν
  | .init list => shannonInitListHead h list
  | .add new head => shannonListAdd h new head
  | .addTail new head => shannonListAddTail h new head
  | .del entry => shannonListDel h entry
  | .delInit entry => shannonListDelInit h entry

/-! ### The sequences -/

/-- The call may be made. -/
def Op.Legal (s : Seqs ν) : Op ν → Prop
  | .init list => Free s list
  | .add new head | .addTail new head => Free s new ∧ new ≠ head ∧ (s head).isSome
  | .del entry | .delInit entry => OnList s entry ∨ s entry = some []

/-- What it does to the sequences. -/
def Op.apply (s : Seqs ν) : Op ν → Seqs ν
  | .init list => Function.update s list (some [])
  | .add new head => Function.update (Function.update s new none) head ((s head).map (new :: ·))
  | .addTail new head =>
      Function.update (Function.update s new none) head ((s head).map (· ++ [new]))
  | .del entry | .delInit entry => s.remove entry

/-- The list with the nodes `xs` is operated on. -/
def Op.Touches (head : ν) (xs : List ν) : Op ν → Prop
  | .init list => list = head
  | .add new m | .addTail new m => m = head ∨ new = head
  | .del entry | .delInit entry => entry ∈ head :: xs

/-- Every call may be made after the ones before it. -/
abbrev LegalRun (s : Seqs ν) (ops : List (Op ν)) : Prop :=
  Along (fun s op => some (Op.apply s op)) (fun s op => op.Legal s) s ops

instance decidableLegal [Fintype ν] (s : Seqs ν) : (op : Op ν) → Decidable (op.Legal s)
  | .init list => inferInstanceAs (Decidable (Free s list))
  | .add new head | .addTail new head =>
      inferInstanceAs (Decidable (Free s new ∧ new ≠ head ∧ (s head).isSome))
  | .del entry | .delInit entry => inferInstanceAs (Decidable (OnList s entry ∨ s entry = some []))

/-! ### One call, and any number of them -/

/-- **One call** does to the heap what it does to the sequences. -/
theorem rings_exec {h : Links ν} {s : Seqs ν} (hs : Rings h s) {op : Op ν} (hop : op.Legal s) :
    Rings (op.exec h) (op.apply s) := by
  cases op with
  | init list => exact hs.selfLink hop
  | add new head =>
      obtain ⟨hfree, hne, hhead⟩ := hop
      obtain ⟨xs, hxs⟩ := Option.isSome_iff_exists.1 hhead
      have hnext : (xs ++ [head]).head? = some (h.next head) := by
        rw [(hs.ring head xs hxs).next_head]
        cases xs <;> rfl
      have hins := @Rings.insertBetween _ _ _ _ _ _ _ [] xs _ hs hfree hne hxs rfl hnext
      simpa [Op.exec, Op.apply, shannonListAdd, hxs] using hins
  | addTail new head =>
      obtain ⟨hfree, hne, hhead⟩ := hop
      obtain ⟨xs, hxs⟩ := Option.isSome_iff_exists.1 hhead
      have hprev := (hs.ring head xs hxs).prev_head
      have hxs' : xs ++ [] ∈ s head := by rwa [List.append_nil]
      have hins := hs.insertBetween hfree hne hxs' hprev rfl
      simpa [Op.exec, Op.apply, shannonListAddTail, hxs] using hins
  | del entry => exact hs.remove hop
  | delInit entry => exact hs.remove hop

/-- **Any number of calls.** -/
theorem rings_foldl_exec {h : Links ν} {s : Seqs ν} (hs : Rings h s) {ops : List (Op ν)}
    (hops : LegalRun s ops) : Rings (ops.foldl Op.exec h) (ops.foldl Op.apply s) := by
  induction ops generalizing h s with
  | nil => exact hs
  | cons op ops ih =>
      obtain ⟨hop, hops⟩ := hops
      exact ih (rings_exec hs hop) (hops _ rfl)

omit [DecidableEq ν] in
/-- The head of the list an entry is taken off. -/
theorem owns_of_legal {h : Links ν} {s : Seqs ν} {entry : ν} (hs : Rings h s)
    (hentry : OnList s entry ∨ s entry = some []) :
    ∃ m, Owns s m entry ∧ Owns s m (h.prev entry) ∧ Owns s m (h.next entry) := by
  obtain ⟨m, hm⟩ : ∃ m, Owns s m entry := by
    rcases hentry with ⟨m, xs, hxs, hmem⟩ | halone
    · exact ⟨m, xs, hxs, List.mem_cons_of_mem _ hmem⟩
    · exact ⟨entry, [], halone, List.mem_cons_self ..⟩
  exact ⟨m, hm, hs.owns_neighbours hm⟩

/-- The links of the nodes of a list that is not operated on. -/
theorem exec_links_eq {h : Links ν} {s : Seqs ν} {op : Op ν} {head : ν} {xs : List ν}
    (hs : Rings h s) (hop : op.Legal s) (hhead : s head = some xs) (htouch : ¬op.Touches head xs) :
    ∀ a ∈ head :: xs, (op.exec h).next a = h.next a ∧ (op.exec h).prev a = h.prev a := by
  intro a ha
  have hdel (entry : ν) (hentry : OnList s entry ∨ s entry = some [])
      (htouch : entry ∉ head :: xs) :
      (shannonListDelInit h entry).next a = h.next a ∧
        (shannonListDelInit h entry).prev a = h.prev a := by
    obtain ⟨m, hown, hprev, hnext⟩ := owns_of_legal hs hentry
    have hm : head ≠ m := by
      rintro rfl
      obtain ⟨ys, hys, hmem⟩ := hown
      obtain rfl := Option.some.inj (hhead.symm.trans hys)
      exact htouch hmem
    exact ⟨(update_of_notMem htouch ha ..).trans
      (update_of_notMem (hs.notMem hm hhead hprev) ha ..),
      (update_of_notMem htouch ha ..).trans (update_of_notMem (hs.notMem hm hhead hnext) ha ..)⟩
  have hadd (new m p n : ν) (hfree : Free s new) (hne : m ≠ head ∧ new ≠ head)
      (hp : Owns s m p) (hn : Owns s m n) :
      (h.insertBetween new p n).next a = h.next a ∧
        (h.insertBetween new p n).prev a = h.prev a := by
    have hnew := hfree.notMem hhead hne.2
    exact ⟨(update_of_notMem (hs.notMem (Ne.symm hne.1) hhead hp) ha ..).trans
      (update_of_notMem hnew ha ..), (update_of_notMem hnew ha ..).trans
      (update_of_notMem (hs.notMem (Ne.symm hne.1) hhead hn) ha ..)⟩
  cases op with
  | init list =>
      have hlist := Free.notMem hop hhead htouch
      exact ⟨update_of_notMem hlist ha .., update_of_notMem hlist ha ..⟩
  | add new m =>
      obtain ⟨hfree, -, hm⟩ := hop
      obtain ⟨ys, hys⟩ := Option.isSome_iff_exists.1 hm
      have hown : Owns s m m := ⟨ys, hys, List.mem_cons_self ..⟩
      exact hadd new m m (h.next m) hfree (not_or.1 htouch) hown (hs.owns_neighbours hown).2
  | addTail new m =>
      obtain ⟨hfree, -, hm⟩ := hop
      obtain ⟨ys, hys⟩ := Option.isSome_iff_exists.1 hm
      have hown : Owns s m m := ⟨ys, hys, List.mem_cons_self ..⟩
      exact hadd new m (h.prev m) m hfree (not_or.1 htouch) (hs.owns_neighbours hown).1 hown
  | del entry => exact hdel entry hop htouch
  | delInit entry => exact hdel entry hop htouch

/-- The sequence of a list that is not operated on. -/
theorem apply_eq {s : Seqs ν} {op : Op ν} {head : ν} {xs : List ν} (hhead : s head = some xs)
    (htouch : ¬op.Touches head xs) : op.apply s head = some xs := by
  have hremove (entry : ν) (hentry : entry ∉ head :: xs) : s.remove entry head = some xs := by
    rw [List.mem_cons, not_or] at hentry
    rw [Seqs.remove, Function.update_of_ne (Ne.symm hentry.1), hhead, Option.map_some,
      List.erase_of_not_mem hentry.2]
  cases op with
  | init list => exact (Function.update_of_ne (Ne.symm htouch) ..).trans hhead
  | add new m | addTail new m =>
      obtain ⟨hm, hnew⟩ := not_or.1 htouch
      exact (Function.update_of_ne (Ne.symm hm) ..).trans
        ((Function.update_of_ne (Ne.symm hnew) ..).trans hhead)
  | del entry | delInit entry => exact hremove entry htouch

/-- An entry that has been taken off is linked to itself, so taking it off again changes
nothing. -/
theorem shannonListDelInit_idem (h : Links ν) (entry : ν) :
    shannonListDelInit (shannonListDelInit h entry) entry = shannonListDelInit h entry := by
  obtain ⟨hnext, hprev⟩ :=
    ring_nil_iff.1 (ring_selfLink (h.unlink (h.prev entry) (h.next entry)) entry)
  exact Links.remove_alone hnext hprev

/-- What `shannon_list_empty` and `shannon_list_empty_careful` return. -/
theorem shannonListEmpty_iff {h : Links ν} {head : ν} {xs : List ν} (hr : Ring h head xs) :
    (shannonListEmpty h head = true ↔ xs = []) ∧
      (shannonListEmptyCareful h head = true ↔ xs = []) := by
  refine ⟨decide_eq_true_iff.trans hr.next_head_eq_iff, ?_⟩
  simp only [shannonListEmptyCareful, Bool.and_eq_true, decide_eq_true_eq]
  constructor
  · rintro ⟨hnext, -⟩
    exact hr.next_head_eq_iff.1 hnext
  · intro hxs
    have hnext := hr.next_head_eq_iff.2 hxs
    have hprev := hr.prev_head_eq_iff.2 hxs
    exact ⟨hnext, hnext.trans hprev.symm⟩

/-! ### The result -/

/-- **The intrusive lists refine sequences.**  Take any heap of disjoint lists and make any
calls, each where it may be made.  Then every head has the sequence that the same calls make
of the sequences: following `next` from it yields the sequence and following `prev` the
reverse, and both tests for emptiness hold exactly if it is empty.  The next call leaves every
list that it does not operate on as it is, its sequence and the links of all its nodes, and
taking an entry off twice, with either function, is the same as once. -/
theorem lists_refine_sequences {h₀ : Links ν} {s₀ : Seqs ν} (h₀s₀ : Rings h₀ s₀)
    (ops : List (Op ν)) (hops : LegalRun s₀ ops) :
    let h := ops.foldl Op.exec h₀
    let s := ops.foldl Op.apply s₀
    (∀ head xs, s head = some xs →
      (∀ fuel ≥ xs.length, shannonListForEach h head fuel = some xs ∧
        shannonListForEachEntryReverse h head fuel = some xs.reverse) ∧
      (shannonListEmpty h head = true ↔ xs = []) ∧
      (shannonListEmptyCareful h head = true ↔ xs = [])) ∧
    (∀ op : Op ν, op.Legal s → ∀ head xs, s head = some xs → ¬op.Touches head xs →
      op.apply s head = some xs ∧
      ∀ a ∈ head :: xs, (op.exec h).next a = h.next a ∧ (op.exec h).prev a = h.prev a) ∧
    ∀ entry, ∀ op ∈ [Op.del entry, .delInit entry], ∀ op' ∈ [Op.del entry, .delInit entry],
      op'.exec (op.exec h) = op.exec h := by
  intro h s
  have hs : Rings h s := rings_foldl_exec h₀s₀ hops
  refine ⟨fun head xs hhead => ?_, fun op hop head xs hhead htouch => ?_, ?_⟩
  · have hring := hs.ring head xs hhead
    exact ⟨fun fuel hfuel => ⟨hring.walk_next hfuel, hring.walk_prev hfuel⟩,
      shannonListEmpty_iff hring⟩
  · exact ⟨apply_eq hhead htouch, exec_links_eq hs hop hhead htouch⟩
  · intro entry op hop op' hop'
    have hdel : ∀ op ∈ [Op.del entry, .delInit entry], ∀ h : Links ν,
        op.exec h = shannonListDelInit h entry := by
      simp only [List.mem_cons, List.not_mem_nil, or_false]
      rintro op (rfl | rfl) h
      · rfl
      · rfl
    rw [hdel op' hop', hdel op hop]
    exact shannonListDelInit_idem h entry

/-- Two lists set up from nothing, and a node that goes from one to the other. -/
def moveOps : List (Op (Fin 5)) :=
  [.init 0, .init 1, .add 2 0, .addTail 3 0, .add 4 1, .del 2, .delInit 2, .addTail 2 1]

/-- The links hold anything before. -/
def unsetLinks : Links (Fin 5) := ⟨fun n => n + 1, fun n => n + 3⟩

/-- The node is on the second list then. -/
theorem moveOps_refine :
    LegalRun (fun _ => none) moveOps ∧
      shannonListForEach (moveOps.foldl Op.exec unsetLinks) 1 2 = some [4, 2] ∧
      shannonListForEachEntryReverse (moveOps.foldl Op.exec unsetLinks) 1 2 = some [2, 4] ∧
      shannonListForEach (moveOps.foldl Op.exec unsetLinks) 0 1 = some [3] := by
  have hunset : Rings unsetLinks fun _ => none := by
    constructor
    · rintro m xs ⟨⟩
    · rintro a m n ⟨xs, ⟨⟩, -⟩
  have hlegal : LegalRun (fun _ => none) moveOps := by decide
  obtain ⟨hwalk, -, -⟩ := lists_refine_sequences hunset moveOps hlegal
  have hone := (hwalk 1 [4, 2] (by decide)).1 2 (by decide)
  have hzero := (hwalk 0 [3] (by decide)).1 1 (by decide)
  exact ⟨hlegal, hone.1, hone.2, hzero.1⟩

end Intrusive
end Shannon
