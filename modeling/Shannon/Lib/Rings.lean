/-
# A heap of rings

Any number of circular lists in one heap (`Shannon.Lib.Ring`), no two of them with a node
in common.  What the heap stands for is a function `Seqs`: a node that heads a list has the
sequence of the nodes on it, every other node has none.  A node linked to itself heads the
empty list; nothing in the heap tells a head from a node that waits to be put on a list, and
nothing here does.  The links of the nodes in no ring are arbitrary.

| links                          | sequences                              | lemma                 |
| ------------------------------ | -------------------------------------- | --------------------- |
| `selfLink`                     | the empty list                         | `Rings.selfLink`      |
| `insertBetween`                | one node more in the list of the place | `Rings.insertBetween` |
| `unlink` and `selfLink`        | one node less in the list it is on     | `Rings.remove`        |

Reading a list back is `walk`: along the successors it gives the sequence
(`Ring.walk_next`), along the predecessors the reverse (`Ring.walk_prev`).
-/

import Mathlib.Data.Fintype.Basic
import Shannon.Lib.Ring

namespace Shannon
namespace Lib

variable {ν : Type*}

/-! ### Walks -/

/-- The nodes from `pos` on, following `f`, up to `head`.  `none` if there are more than
`fuel` of them. -/
def walk [DecidableEq ν] (f : ν → ν) (head : ν) : ℕ → ν → Option (List ν)
  | 0, pos => if pos = head then some [] else none
  | fuel + 1, pos => if pos = head then some [] else (walk f head fuel (f pos)).map (pos :: ·)

/-- A walk along a chain that ends in the head. -/
theorem walk_chain [DecidableEq ν] {f : ν → ν} {head : ν} {xs : List ν} {fuel : ℕ}
    (hchain : (xs ++ [head]).IsChain fun a b => f a = b) (hhead : head ∉ xs)
    (hfuel : xs.length ≤ fuel) : walk f head fuel (xs.headD head) = some xs := by
  induction xs generalizing fuel with
  | nil => cases fuel <;> simp [walk]
  | cons x xs ih =>
      obtain ⟨fuel, rfl⟩ : ∃ n, fuel = n + 1 :=
        ⟨fuel - 1, by rw [List.length_cons] at hfuel; omega⟩
      rw [List.mem_cons, not_or] at hhead
      rw [List.length_cons] at hfuel
      rw [List.cons_append, List.isChain_cons] at hchain
      have hnext : f x = xs.headD head := by
        refine hchain.1 _ ?_
        cases xs <;> simp
      rw [List.headD_cons, walk, if_neg (Ne.symm hhead.1), hnext,
        ih hchain.2 hhead.2 (by omega)]
      rfl

/-- **Along the successors** a walk meets the nodes of the ring in order. -/
theorem Ring.walk_next [DecidableEq ν] {h : Links ν} {head : ν} {xs : List ν} {fuel : ℕ}
    (hr : Ring h head xs) (hfuel : xs.length ≤ fuel) :
    walk h.next head fuel (h.next head) = some xs := by
  rw [hr.next_head]
  refine walk_chain ?_ (List.nodup_cons.1 hr.nodup).1 hfuel
  exact (List.isChain_of_isChain_cons hr.chain).imp fun _ _ hlink => hlink.1

/-- A ring seen the other way round. -/
theorem Ring.reverse {h : Links ν} {head : ν} {xs : List ν} (hr : Ring h head xs) :
    Ring ⟨h.prev, h.next⟩ head xs.reverse := by
  refine ⟨?_, ?_⟩
  · rw [List.nodup_cons, List.mem_reverse, List.nodup_reverse]
    exact List.nodup_cons.1 hr.nodup
  · have hrev : head :: (xs.reverse ++ [head]) = (head :: (xs ++ [head])).reverse := by simp
    rw [hrev, List.isChain_reverse]
    exact hr.chain.imp fun _ _ hlink => ⟨hlink.2, hlink.1⟩

/-- **Along the predecessors** it meets them in the reverse order. -/
theorem Ring.walk_prev [DecidableEq ν] {h : Links ν} {head : ν} {xs : List ν} {fuel : ℕ}
    (hr : Ring h head xs) (hfuel : xs.length ≤ fuel) :
    walk h.prev head fuel (h.prev head) = some xs.reverse :=
  hr.reverse.walk_next (by rwa [List.length_reverse])

/-- The predecessor of the head tells as well whether there are nodes. -/
theorem Ring.prev_head_eq_iff {h : Links ν} {head : ν} {xs : List ν} (hr : Ring h head xs) :
    h.prev head = head ↔ xs = [] :=
  hr.reverse.next_head_eq_iff.trans List.reverse_eq_nil_iff

/-! ### The sequences of a heap -/

/-- The sequence of every node that heads a list. -/
abbrev Seqs (ν : Type*) := ν → Option (List ν)

/-- The node is on the list of another one. -/
def OnList (s : Seqs ν) (a : ν) : Prop := ∃ m, ∃ xs ∈ s m, a ∈ xs

/-- The node is on no list, and no node is on its own: it is linked to itself, or its links
have never been set. -/
def Free (s : Seqs ν) (a : ν) : Prop := ¬OnList s a ∧ ∀ xs ∈ s a, xs = []

/-- The node is in the ring that `m` heads. -/
def Owns (s : Seqs ν) (m a : ν) : Prop := ∃ xs ∈ s m, a ∈ m :: xs

/-- The node is taken off the list it is on. -/
def Seqs.remove [DecidableEq ν] (s : Seqs ν) (a : ν) : Seqs ν :=
  Function.update (fun m => (s m).map (·.erase a)) a (some [])

/-- Every sequence is the ring of its head, and no two rings meet. -/
structure Rings (h : Links ν) (s : Seqs ν) : Prop where
  ring : ∀ m, ∀ xs ∈ s m, Ring h m xs
  unique : ∀ a m n, Owns s m a → Owns s n a → m = n

instance decidableOnList [Fintype ν] [DecidableEq ν] (s : Seqs ν) (a : ν) :
    Decidable (OnList s a) :=
  inferInstanceAs (Decidable (∃ m, ∃ xs, xs ∈ s m ∧ a ∈ xs))

instance decidableFree [Fintype ν] [DecidableEq ν] (s : Seqs ν) (a : ν) :
    Decidable (Free s a) :=
  inferInstanceAs (Decidable (¬OnList s a ∧ ∀ xs, xs ∈ s a → xs = []))

namespace Rings

variable {h : Links ν} {s s' : Seqs ν} {a m n : ν} {xs : List ν}

/-- A node that is in one ring is not in another. -/
theorem notMem (hs : Rings h s) (hn : n ≠ m) (hxs : xs ∈ s n) (ha : Owns s m a) : a ∉ n :: xs :=
  fun hmem => hn (hs.unique a n m ⟨xs, hxs, hmem⟩ ha)

/-- The neighbours of a node are in the same ring. -/
theorem owns_neighbours (hs : Rings h s) (ha : Owns s m a) :
    Owns s m (h.prev a) ∧ Owns s m (h.next a) := by
  obtain ⟨xs, hxs, hmem⟩ := ha
  have hring := hs.ring m xs hxs
  suffices hsuff : h.prev a ∈ m :: xs ∧ h.next a ∈ m :: xs from
    ⟨⟨xs, hxs, hsuff.1⟩, ⟨xs, hxs, hsuff.2⟩⟩
  rcases List.mem_cons.1 hmem with rfl | hmem
  · refine ⟨List.mem_of_getLast? hring.prev_head, ?_⟩
    rw [hring.next_head]
    cases xs with
    | nil => exact List.mem_cons_self ..
    | cons x xs => exact List.mem_cons_of_mem _ (List.mem_cons_self ..)
  · obtain ⟨ys, zs, rfl⟩ := List.append_of_mem hmem
    obtain ⟨hp, hn⟩ := hring.neighbours
    have hp := List.mem_of_getLast? hp
    have hn := List.mem_of_head? hn
    simp only [List.mem_append, List.mem_cons, List.not_mem_nil, or_false] at hp hn ⊢
    tauto

/-- The nodes of all rings stay apart when one of them goes elsewhere. -/
theorem unique_of_moved (hs : Rings h s) (a head : ν)
    (hmoved : ∀ m b, Owns s' m b → (b = a ∧ m = head) ∨ (b ≠ a ∧ Owns s m b)) :
    ∀ b m n, Owns s' m b → Owns s' n b → m = n := by
  intro b m n hm hn
  rcases hmoved m b hm with ⟨rfl, rfl⟩ | ⟨hb, hm⟩
  · rcases hmoved n b hn with ⟨-, rfl⟩ | ⟨hb, -⟩
    · rfl
    · exact absurd rfl hb
  · rcases hmoved n b hn with ⟨rfl, -⟩ | ⟨-, hn⟩
    · exact absurd rfl hb
    · exact hs.unique b m n hm hn

end Rings

/-- A free node is in no ring but its own. -/
theorem Free.notMem {s : Seqs ν} {a m : ν} {xs : List ν} (ha : Free s a) (hxs : xs ∈ s m)
    (hne : a ≠ m) : a ∉ m :: xs := by
  rw [List.mem_cons, not_or]
  exact ⟨hne, fun hmem => ha.1 ⟨m, xs, hxs, hmem⟩⟩

namespace Rings

variable {h : Links ν} {s : Seqs ν} {a head p n : ν} {xs ys : List ν} [DecidableEq ν]

/-- **A free node is set up.** -/
theorem selfLink (hs : Rings h s) (ha : Free s a) :
    Rings (h.selfLink a) (Function.update s a (some [])) := by
  refine ⟨fun m xs hxs => ?_, hs.unique_of_moved a a fun m b => ?_⟩
  · rcases eq_or_ne m a with rfl | hma
    · rw [Function.update_self, Option.mem_some] at hxs
      obtain rfl := hxs
      exact ring_selfLink ..
    · rw [Function.update_of_ne hma] at hxs
      exact (hs.ring m xs hxs).selfLink (ha.notMem hxs (Ne.symm hma))
  · rintro ⟨xs, hxs, hb⟩
    rcases eq_or_ne m a with rfl | hma
    · rw [Function.update_self, Option.mem_some] at hxs
      obtain rfl := hxs
      exact .inl ⟨List.mem_singleton.1 hb, rfl⟩
    · rw [Function.update_of_ne hma] at hxs
      refine .inr ⟨?_, xs, hxs, hb⟩
      rintro rfl
      exact ha.notMem hxs (Ne.symm hma) hb

/-- **A free node is put on a list**, between two parts of it. -/
theorem insertBetween (hs : Rings h s) (ha : Free s a) (hne : a ≠ head)
    (hhead : xs ++ ys ∈ s head) (hp : (head :: xs).getLast? = some p)
    (hn : (ys ++ [head]).head? = some n) :
    Rings (h.insertBetween a p n)
      (Function.update (Function.update s a none) head (some (xs ++ a :: ys))) := by
  have hp' : Owns s head p := by
    refine ⟨xs ++ ys, hhead, ?_⟩
    rw [← List.cons_append]
    exact List.mem_append_left _ (List.mem_of_getLast? hp)
  have hn' : Owns s head n := by
    refine ⟨xs ++ ys, hhead, ?_⟩
    have hmem := List.mem_of_head? hn
    simp only [List.mem_append, List.mem_cons, List.not_mem_nil, or_false] at hmem ⊢
    tauto
  refine ⟨fun m zs hzs => ?_, hs.unique_of_moved a head fun m b => ?_⟩
  · rcases eq_or_ne m head with rfl | hm
    · rw [Function.update_self, Option.mem_some] at hzs
      obtain rfl := hzs
      exact (hs.ring m _ hhead).insertBetween (ha.notMem hhead hne) hp hn
    · rw [Function.update_of_ne hm] at hzs
      rcases eq_or_ne m a with rfl | hma
      · rw [Function.update_self] at hzs
        cases hzs
      · rw [Function.update_of_ne hma] at hzs
        exact (hs.ring m zs hzs).insertBetween_other (ha.notMem hzs (Ne.symm hma))
          (hs.notMem hm hzs hp') (hs.notMem hm hzs hn')
  · rintro ⟨zs, hzs, hb⟩
    rcases eq_or_ne m head with rfl | hm
    · rw [Function.update_self, Option.mem_some] at hzs
      obtain rfl := hzs
      rcases eq_or_ne b a with rfl | hba
      · exact .inl ⟨rfl, rfl⟩
      · refine .inr ⟨hba, xs ++ ys, hhead, ?_⟩
        simpa [hba] using hb
    · rw [Function.update_of_ne hm] at hzs
      rcases eq_or_ne m a with rfl | hma
      · rw [Function.update_self] at hzs
        cases hzs
      · rw [Function.update_of_ne hma] at hzs
        refine .inr ⟨?_, zs, hzs, hb⟩
        rintro rfl
        exact ha.notMem hzs (Ne.symm hma) hb

/-- The sequences when a node is on no list. -/
theorem remove_of_alone (hs : Rings h s) (ha : s a = some []) : s.remove a = s := by
  funext m
  rcases eq_or_ne m a with rfl | hma
  · rw [Seqs.remove, Function.update_self, ha]
  · rw [Seqs.remove, Function.update_of_ne hma]
    cases hm : s m with
    | none => rfl
    | some xs =>
        have hmem := hs.notMem hma hm ⟨[], ha, List.mem_cons_self ..⟩
        rw [List.mem_cons, not_or] at hmem
        rw [Option.map_some, List.erase_of_not_mem hmem.2]

/-- **A node is taken off** the list it is on, if it is on one, and set up on its own. -/
theorem remove (hs : Rings h s) (ha : OnList s a ∨ s a = some []) :
    Rings ((h.unlink (h.prev a) (h.next a)).selfLink a) (s.remove a) := by
  rcases ha with ⟨head, zs, hhead, ha⟩ | ha
  · obtain ⟨xs, ys, rfl⟩ := List.append_of_mem ha
    have hring := hs.ring head _ hhead
    have hown : Owns s head a := ⟨_, hhead, List.mem_cons_of_mem _ ha⟩
    refine ⟨fun m ws hws => ?_, hs.unique_of_moved a a fun m b => ?_⟩
    · rcases eq_or_ne m a with rfl | hma
      · rw [Seqs.remove, Function.update_self, Option.mem_some] at hws
        obtain rfl := hws
        exact ring_selfLink ..
      · rw [Seqs.remove, Function.update_of_ne hma] at hws
        obtain ⟨zs, hzs, rfl⟩ := Option.mem_map.1 hws
        rcases eq_or_ne m head with rfl | hm
        · obtain rfl := Option.mem_unique hzs hhead
          have hnodup := (List.nodup_cons.1 hring.nodup).2
          rw [List.perm_middle.nodup_iff, List.nodup_cons, List.mem_append, not_or] at hnodup
          rw [List.erase_append_right _ hnodup.1.1, List.erase_cons_head]
          exact hring.remove
        · -- The ring of another head does not have the node, so erasing it does nothing.
          have hmem := hs.notMem hm hzs hown
          rw [List.erase_of_not_mem fun hz => hmem (List.mem_cons_of_mem _ hz)]
          exact hring.remove_other (hs.ring m zs hzs)
            fun v hv => hs.notMem hm hzs ⟨_, hhead, hv⟩
    · rintro ⟨ws, hws, hb⟩
      rcases eq_or_ne m a with rfl | hma
      · rw [Seqs.remove, Function.update_self, Option.mem_some] at hws
        obtain rfl := hws
        exact .inl ⟨List.mem_singleton.1 hb, rfl⟩
      · rw [Seqs.remove, Function.update_of_ne hma] at hws
        obtain ⟨zs, hzs, rfl⟩ := Option.mem_map.1 hws
        refine .inr ⟨?_, zs, hzs, List.cons_subset_cons _ List.erase_subset hb⟩
        rintro rfl
        have hnodup := (List.nodup_cons.1 (hs.ring m zs hzs).nodup).2
        exact hnodup.not_mem_erase ((List.mem_cons.1 hb).resolve_left (Ne.symm hma))
  · obtain ⟨hnext, hprev⟩ := ring_nil_iff.1 (hs.ring a [] ha)
    rw [hs.remove_of_alone ha, Links.remove_alone hnext hprev]
    exact hs

end Rings

end Lib
end Shannon
