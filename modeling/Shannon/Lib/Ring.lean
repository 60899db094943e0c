/-
# Circular doubly linked lists

Nodes of a type `ν` carry a successor and a predecessor.  A *ring* is a node, its
head, with the list of the nodes met on the way round from it; a node that is on
no list is a ring of its own.  `Ring` says so of the links, both ways round, and
without repetition.

Two operations make up all the others: putting a new node between two
neighbours, and taking a node out.  What they do to the ring they work on is
`Ring.insertBetween` and `Ring.unlink`; every other ring is left alone because
only links of nodes of this one change (`Ring.congr`).

`OneList` is the case of one head with the nodes of a type, each of them on its list
or on none.
-/

import Mathlib.Data.List.Chain
import Mathlib.Data.List.Nodup

namespace Shannon
namespace Lib

variable {ν : Type*}

/-- The links of all nodes. -/
structure Links (ν : Type*) where
  next : ν → ν
  prev : ν → ν

/-- `b` comes after `a`, as both of them see it. -/
def Links.Linked (h : Links ν) (a b : ν) : Prop := h.next a = b ∧ h.prev b = a

/-- From `head` on, the links go through `xs` and back to `head`. -/
structure Ring (h : Links ν) (head : ν) (xs : List ν) : Prop where
  nodup : (head :: xs).Nodup
  chain : (head :: (xs ++ [head])).IsChain h.Linked

section Operations

variable [DecidableEq ν]

/-- A node on no list: both links point to the node itself. -/
def Links.selfLink (h : Links ν) (n : ν) : Links ν :=
  ⟨Function.update h.next n n, Function.update h.prev n n⟩

/-- Put `new` between `prev` and `next`. -/
def Links.insertBetween (h : Links ν) (new prev next : ν) : Links ν where
  next := Function.update (Function.update h.next new next) prev new
  prev := Function.update (Function.update h.prev next new) new prev

/-- Make `prev` and `next` neighbours. -/
def Links.unlink (h : Links ν) (prev next : ν) : Links ν :=
  ⟨Function.update h.next prev next, Function.update h.prev next prev⟩

end Operations

/-! ### Rings and their links -/

/-- A chain depends on the successors of all nodes but the last and on the
predecessors of all but the first. -/
theorem isChain_congr {h h' : Links ν} {l : List ν} (hl : l.IsChain h.Linked)
    (hnext : ∀ a ∈ l.dropLast, h'.next a = h.next a) (hprev : ∀ a ∈ l.tail, h'.prev a = h.prev a) :
    l.IsChain h'.Linked := by
  induction hl with
  | nil => exact .nil
  | singleton a => exact .singleton a
  | @cons_cons a b l hab _ ih =>
      have hlink : h'.Linked a b :=
        ⟨(hnext a (by simp)).trans hab.1, (hprev b (by simp)).trans hab.2⟩
      refine .cons_cons hlink (ih (fun c hc => hnext c ?_) fun c hc => hprev c ?_)
      · rw [List.dropLast_cons_cons]
        exact List.mem_cons_of_mem _ hc
      · exact List.mem_cons_of_mem _ hc

/-- A ring depends on the links of its own nodes only. -/
theorem Ring.congr {h h' : Links ν} {head : ν} {xs : List ν} (hr : Ring h head xs)
    (hnext : ∀ a ∈ head :: xs, h'.next a = h.next a)
    (hprev : ∀ a ∈ head :: xs, h'.prev a = h.prev a) : Ring h' head xs := by
  refine ⟨hr.nodup, isChain_congr hr.chain (fun a ha => hnext a ?_) fun a ha => hprev a ?_⟩
  · rwa [← List.cons_append, List.dropLast_concat] at ha
  · rw [List.tail_cons, List.mem_append, List.mem_singleton] at ha
    rcases ha with ha | rfl
    · exact List.mem_cons_of_mem _ ha
    · exact List.mem_cons_self ..

/-- A node on no list. -/
theorem ring_nil_iff {h : Links ν} {n : ν} : Ring h n [] ↔ h.next n = n ∧ h.prev n = n := by
  constructor
  · rintro ⟨-, hchain⟩
    exact (List.isChain_cons_cons.1 hchain).1
  · rintro ⟨hnext, hprev⟩
    exact ⟨List.nodup_singleton n, .cons_cons ⟨hnext, hprev⟩ (.singleton n)⟩

/-- The successor of the head is the first node, and the head itself if there is
none. -/
theorem Ring.next_head {h : Links ν} {head : ν} {xs : List ν} (hr : Ring h head xs) :
    h.next head = xs.headD head := by
  have hchain := hr.chain
  cases xs with
  | nil => exact (ring_nil_iff.1 hr).1
  | cons x xs => exact (List.isChain_cons_cons.1 hchain).1.1

theorem Ring.next_head_eq_iff {h : Links ν} {head : ν} {xs : List ν} (hr : Ring h head xs) :
    h.next head = head ↔ xs = [] := by
  rw [hr.next_head]
  constructor
  · rintro hhead
    cases xs with
    | nil => rfl
    | cons x xs =>
        have hne := (List.nodup_cons.1 hr.nodup).1
        rw [List.headD_cons] at hhead
        exact absurd (hhead ▸ List.mem_cons_self ..) hne
  · rintro rfl
    rfl

/-- A ring cut in two: the chain up to a place, the chain from it on, and the
link between. -/
theorem ring_append_iff {h : Links ν} {head p n : ν} {xs ys : List ν}
    (hp : (head :: xs).getLast? = some p) (hn : (ys ++ [head]).head? = some n) :
    Ring h head (xs ++ ys) ↔ (head :: (xs ++ ys)).Nodup ∧ (head :: xs).IsChain h.Linked ∧
      (ys ++ [head]).IsChain h.Linked ∧ h.Linked p n := by
  have hsplit : head :: (xs ++ ys ++ [head]) = (head :: xs) ++ (ys ++ [head]) := by simp
  constructor
  · rintro ⟨hnodup, hchain⟩
    rw [hsplit, List.isChain_append] at hchain
    exact ⟨hnodup, hchain.1, hchain.2.1, hchain.2.2 p hp n hn⟩
  · rintro ⟨hnodup, hleft, hright, hlink⟩
    refine ⟨hnodup, ?_⟩
    rw [hsplit, List.isChain_append]
    refine ⟨hleft, hright, fun a ha b hb => ?_⟩
    rw [hp, Option.mem_some] at ha
    rw [hn, Option.mem_some] at hb
    exact ha ▸ hb ▸ hlink

/-- The predecessor of the head is the last node. -/
theorem Ring.prev_head {h : Links ν} {head : ν} {xs : List ν} (hr : Ring h head xs) :
    (head :: xs).getLast? = some (h.prev head) := by
  obtain ⟨p, hp⟩ : ∃ p, (head :: xs).getLast? = some p :=
    Option.isSome_iff_exists.1 (by simp)
  rw [← List.append_nil xs] at hr
  rw [hp, ((ring_append_iff hp rfl).1 hr).2.2.2.2]

theorem notMem_dropLast {l : List ν} {p : ν} (hl : l.Nodup) (hp : l.getLast? = some p) :
    p ∉ l.dropLast := by
  obtain ⟨l, rfl⟩ := List.getLast?_eq_some_iff.1 hp
  rw [List.dropLast_concat]
  intro hmem
  exact (List.nodup_append.1 hl).2.2 p hmem p (List.mem_singleton_self p) rfl

theorem notMem_tail {l : List ν} {n : ν} (hl : l.Nodup) (hn : l.head? = some n) :
    n ∉ l.tail := by
  obtain ⟨l, rfl⟩ := List.head?_eq_some_iff.1 hn
  exact (List.nodup_cons.1 hl).1

/-- The neighbours of a place in a ring: the one before is in the first part and
the one after in the second, and each is met once. -/
structure Place (head p n : ν) (xs ys : List ν) : Prop where
  p_mem : p ∈ head :: xs
  n_mem : n ∈ ys ++ [head]
  p_last : p ∉ (head :: xs).dropLast
  n_first : n ∉ (ys ++ [head]).tail
  p_notMem : p ∉ ys
  n_notMem : n ∉ xs

theorem place_of_nodup {head p n : ν} {xs ys : List ν} (hnodup : (head :: (xs ++ ys)).Nodup)
    (hp : (head :: xs).getLast? = some p) (hn : (ys ++ [head]).head? = some n) :
    Place head p n xs ys := by
  rw [← List.cons_append] at hnodup
  obtain ⟨hleft, hys, hdisj⟩ := List.nodup_append.1 hnodup
  have hright : (ys ++ [head]).Nodup := by
    refine List.nodup_append.2 ⟨hys, List.nodup_singleton _, fun a ha b hb => ?_⟩
    rw [List.mem_singleton] at hb
    rintro rfl
    exact hdisj a (hb ▸ List.mem_cons_self ..) a ha rfl
  refine ⟨List.mem_of_getLast? hp, List.mem_of_head? hn, notMem_dropLast hleft hp,
    notMem_tail hright hn, fun hmem => hdisj p (List.mem_of_getLast? hp) p hmem rfl, fun hmem => ?_⟩
  rcases List.mem_append.1 (List.mem_of_head? hn) with hys | hhead
  · exact hdisj n (List.mem_cons_of_mem _ hmem) n hys rfl
  · rw [List.mem_singleton] at hhead
    exact (List.nodup_cons.1 hleft).1 (hhead ▸ hmem)

/-- The neighbours of a node on a ring. -/
theorem Ring.neighbours {h : Links ν} {head x : ν} {xs ys : List ν}
    (hr : Ring h head (xs ++ x :: ys)) :
    (head :: xs).getLast? = some (h.prev x) ∧ (ys ++ [head]).head? = some (h.next x) := by
  obtain ⟨p, hp⟩ : ∃ p, (head :: xs).getLast? = some p :=
    Option.isSome_iff_exists.1 (by simp)
  obtain ⟨-, -, hright, hlink⟩ := (ring_append_iff hp (List.head?_cons ..)).1 hr
  obtain ⟨n, hn⟩ : ∃ n, (ys ++ [head]).head? = some n := Option.isSome_iff_exists.1 (by simp)
  have hlink' := (List.isChain_cons.1 hright).1 n hn
  exact ⟨by rw [hp, hlink.2], by rw [hn, hlink'.1]⟩

/-- What comes after the first node of a part of a ring. -/
theorem Ring.next_headD {h : Links ν} {head : ν} {xs ys : List ν} (hr : Ring h head (xs ++ ys)) :
    ∀ x zs, ys = x :: zs → h.next (ys.headD head) = zs.headD head := by
  rintro x zs rfl
  have hnext := hr.neighbours.2
  cases zs with
  | nil => exact (Option.some.inj hnext).symm
  | cons z zs => exact (Option.some.inj hnext).symm

/-- A node on a ring of another one is not its own successor. -/
theorem Ring.next_ne_self {h : Links ν} {head x : ν} {xs : List ν} (hr : Ring h head xs)
    (hx : x ∈ xs) : h.next x ≠ x := by
  obtain ⟨ys, zs, rfl⟩ := List.append_of_mem hx
  intro hself
  have hnext := List.mem_of_head? hr.neighbours.2
  have hnodup := hr.nodup
  rw [← List.cons_append, List.perm_middle.nodup_iff, List.cons_append, List.nodup_cons] at hnodup
  rw [hself, List.mem_append, List.mem_singleton] at hnext
  simp only [List.mem_cons, List.mem_append, not_or] at hnodup
  tauto

/-! ### The two operations -/

variable [DecidableEq ν]

theorem update_of_notMem {l : List ν} {a v : ν} (hv : v ∉ l) (ha : a ∈ l) (f : ν → ν) (w : ν) :
    Function.update f v w a = f a := by
  refine Function.update_of_ne ?_ ..
  rintro rfl
  exact hv ha

/-- **Putting a node in.**  A new node between the last of `xs`, or the head, and
the first of `ys`, or the head. -/
theorem Ring.insertBetween {h : Links ν} {head new p n : ν} {xs ys : List ν}
    (hr : Ring h head (xs ++ ys)) (hnew : new ∉ head :: (xs ++ ys))
    (hp : (head :: xs).getLast? = some p) (hn : (ys ++ [head]).head? = some n) :
    Ring (h.insertBetween new p n) head (xs ++ new :: ys) := by
  obtain ⟨hnodup, hleft, hright, -⟩ := (ring_append_iff hp hn).1 hr
  have hplace := place_of_nodup hnodup hp hn
  have hne : ∀ a, a ∈ head :: xs ∨ a ∈ ys ++ [head] → a ≠ new := by
    rintro a ha rfl
    simp only [List.mem_cons, List.mem_append, List.not_mem_nil, or_false] at ha hnew
    tauto
  have hpn : p ≠ new := hne p (.inl hplace.p_mem)
  have hnn : n ≠ new := hne n (.inr hplace.n_mem)
  refine (ring_append_iff hp (List.head?_cons ..)).2 ⟨?_, ?_, ?_, ?_⟩
  · rw [← List.cons_append, List.perm_middle.nodup_iff]
    exact List.nodup_cons.2 ⟨hnew, hnodup⟩
  · refine isChain_congr hleft (fun a ha => ?_) fun a ha => ?_
    · have hap : a ≠ p := fun hap => hplace.p_last (hap ▸ ha)
      have han := hne a (.inl (List.dropLast_subset _ ha))
      simp [Links.insertBetween, hap, han]
    · have hann : a ≠ n := fun hann => hplace.n_notMem (hann ▸ ha)
      have han := hne a (.inl (List.mem_cons_of_mem _ ha))
      simp [Links.insertBetween, hann, han]
  · rw [List.cons_append]
    refine List.isChain_cons.2
      ⟨fun b hb => ?_, isChain_congr hright (fun a ha => ?_) fun a ha => ?_⟩
    · rw [hn, Option.mem_some] at hb
      subst hb
      exact ⟨by simp [Links.insertBetween, hpn.symm], by simp [Links.insertBetween, hnn]⟩
    · rw [List.dropLast_concat] at ha
      have hap : a ≠ p := fun hap => hplace.p_notMem (hap ▸ ha)
      have han := hne a (.inr (List.mem_append_left _ ha))
      simp [Links.insertBetween, hap, han]
    · have hann : a ≠ n := fun hann => hplace.n_first (hann ▸ ha)
      have han := hne a (.inr (List.mem_of_mem_tail ha))
      simp [Links.insertBetween, hann, han]
  · exact ⟨by simp [Links.insertBetween], by simp [Links.insertBetween]⟩

/-- **Taking a node out.** -/
theorem Ring.unlink {h : Links ν} {head x : ν} {xs ys : List ν}
    (hr : Ring h head (xs ++ x :: ys)) :
    Ring (h.unlink (h.prev x) (h.next x)) head (xs ++ ys) := by
  obtain ⟨hp, hn⟩ := hr.neighbours
  obtain ⟨hnodup, hleft, hright, -⟩ := (ring_append_iff hp (List.head?_cons ..)).1 hr
  have hnodup' : (head :: (xs ++ ys)).Nodup := by
    rw [← List.cons_append, List.perm_middle.nodup_iff] at hnodup
    exact (List.nodup_cons.1 hnodup).2
  have hplace := place_of_nodup hnodup' hp hn
  refine (ring_append_iff hp hn).2 ⟨hnodup', ?_, ?_, ?_⟩
  · refine isChain_congr hleft (fun a ha => ?_) fun a ha => ?_
    · exact update_of_notMem hplace.p_last ha ..
    · exact update_of_notMem hplace.n_notMem ha ..
  · refine isChain_congr (List.isChain_cons.1 hright).2 (fun a ha => ?_) fun a ha => ?_
    · rw [List.dropLast_concat] at ha
      exact update_of_notMem hplace.p_notMem ha ..
    · exact update_of_notMem hplace.n_first ha ..
  · exact ⟨by simp [Links.unlink], by simp [Links.unlink]⟩

/-- Other rings are left alone. -/
theorem Ring.insertBetween_other {h : Links ν} {head new p n : ν} {xs : List ν}
    (hr : Ring h head xs) (hnew : new ∉ head :: xs) (hp : p ∉ head :: xs) (hn : n ∉ head :: xs) :
    Ring (h.insertBetween new p n) head xs := by
  refine hr.congr (fun a ha => ?_) fun a ha => ?_
  · exact (update_of_notMem hp ha ..).trans (update_of_notMem hnew ha ..)
  · exact (update_of_notMem hnew ha ..).trans (update_of_notMem hn ha ..)

theorem Ring.unlink_other {h : Links ν} {head p n : ν} {xs : List ν} (hr : Ring h head xs)
    (hp : p ∉ head :: xs) (hn : n ∉ head :: xs) : Ring (h.unlink p n) head xs :=
  hr.congr (fun _ ha => update_of_notMem hp ha ..) fun _ ha => update_of_notMem hn ha ..

/-- A node set up on its own leaves the rings it is not on alone. -/
theorem Ring.selfLink {h : Links ν} {head n : ν} {xs : List ν} (hr : Ring h head xs)
    (hn : n ∉ head :: xs) : Ring (h.selfLink n) head xs :=
  hr.congr (fun _ ha => update_of_notMem hn ha ..) fun _ ha => update_of_notMem hn ha ..

theorem ring_selfLink (h : Links ν) (n : ν) : Ring (h.selfLink n) n [] :=
  ring_nil_iff.2 ⟨by simp [Links.selfLink], by simp [Links.selfLink]⟩

/-- **Taking a node out and setting it up on its own.** -/
theorem Ring.remove {h : Links ν} {head x : ν} {xs ys : List ν}
    (hr : Ring h head (xs ++ x :: ys)) :
    Ring ((h.unlink (h.prev x) (h.next x)).selfLink x) head (xs ++ ys) := by
  have hnodup := hr.nodup
  rw [← List.cons_append, List.perm_middle.nodup_iff] at hnodup
  exact hr.unlink.selfLink (List.nodup_cons.1 hnodup).1

/-- The rings that have no node in common with this one are left alone. -/
theorem Ring.remove_other {h : Links ν} {head x m : ν} {xs ys zs : List ν}
    (hr : Ring h head (xs ++ x :: ys)) (hm : Ring h m zs)
    (hdisj : ∀ a ∈ head :: (xs ++ x :: ys), a ∉ m :: zs) :
    Ring ((h.unlink (h.prev x) (h.next x)).selfLink x) m zs := by
  obtain ⟨hp, hn⟩ := hr.neighbours
  have hp := List.mem_of_getLast? hp
  have hn := List.mem_of_head? hn
  refine (hm.unlink_other (hdisj _ ?_) (hdisj _ ?_)).selfLink (hdisj x (by simp))
  · rw [← List.cons_append]
    exact List.mem_append_left _ hp
  · simp only [List.mem_append, List.mem_cons, List.not_mem_nil, or_false] at hn ⊢
    tauto

/-- Taking out a node that is linked to itself changes nothing. -/
theorem Links.remove_alone {h : Links ν} {n : ν} (hnext : h.next n = n) (hprev : h.prev n = n) :
    (h.unlink (h.prev n) (h.next n)).selfLink n = h := by
  rw [hnext, hprev]
  simp only [Links.unlink, Links.selfLink, Function.update_idem]
  congr 1
  · exact Function.update_eq_self_iff.2 hnext.symm
  · exact Function.update_eq_self_iff.2 hprev.symm

/-! ### One list -/

variable {α : Type*}

/-- The nodes `xs` are on the list of the head `none`, in this order, and the other
ones are on no list. -/
structure OneList (h : Links (Option α)) (xs : List α) : Prop where
  ring : Ring h none (xs.map some)
  alone : ∀ a, a ∉ xs → Ring h (some a) []

namespace OneList

variable {h : Links (Option α)} {a : α} {xs ys : List α}

theorem nodup (hl : OneList h xs) : xs.Nodup :=
  List.Nodup.of_map _ (List.nodup_cons.1 hl.ring.nodup).2

/-- What comes after the head. -/
theorem next_none (hl : OneList h xs) : h.next none = xs.head? := by
  rw [hl.ring.next_head]
  cases xs <;> rfl

/-- What comes after a node on the list. -/
theorem next_some (hl : OneList h (xs ++ a :: ys)) : h.next (some a) = ys.head? := by
  have hring : Ring h none (xs.map some ++ some a :: ys.map some) := by
    simpa using hl.ring
  have hnext := hring.next_headD (some a) (ys.map some) rfl
  cases ys <;> exact hnext

/-- A node is its own successor exactly if it is on no list. -/
theorem next_eq_self_iff (hl : OneList h xs) : h.next (some a) = some a ↔ a ∉ xs := by
  constructor
  · intro hnext hmem
    exact hl.ring.next_ne_self (List.mem_map_of_mem hmem) hnext
  · intro hmem
    exact (ring_nil_iff.1 (hl.alone a hmem)).1

/-- Nothing but the node itself points to a node that is on no list. -/
theorem eq_of_points_to (hl : OneList h xs) (ha : a ∉ xs) {v : Option α}
    (hv : h.next v = some a ∨ h.prev v = some a) : v = some a := by
  cases v with
  | none =>
      rcases hv with hnext | hprev
      · exact absurd (List.mem_of_head? (hl.next_none.symm.trans hnext)) ha
      · have hlast := List.mem_of_getLast? hl.ring.prev_head
        rw [hprev] at hlast
        exact absurd (by simpa using hlast) ha
  | some b =>
      by_cases hb : b ∈ xs
      · obtain ⟨ys, zs, rfl⟩ := List.append_of_mem hb
        simp only [List.mem_append, List.mem_cons, not_or] at ha
        rcases hv with hnext | hprev
        · exact absurd (List.mem_of_head? (hl.next_some.symm.trans hnext)) ha.2.2
        · have hring : Ring h none (ys.map some ++ some b :: zs.map some) := by
            simpa using hl.ring
          have hlast := List.mem_of_getLast? hring.neighbours.1
          rw [hprev] at hlast
          exact absurd (by simpa using hlast) ha.1
      · obtain ⟨hnext, hprev⟩ := ring_nil_iff.1 (hl.alone b hb)
        rcases hv with hv | hv
        · rw [← hv, hnext]
        · rw [← hv, hprev]

variable [DecidableEq α]

/-- **A node is put on the list**, between two parts of it. -/
theorem insertBetween (hl : OneList h (xs ++ ys)) (ha : a ∉ xs ++ ys) {p n : Option α}
    (hp : (none :: xs.map some).getLast? = some p) (hn : (ys.map some ++ [none]).head? = some n) :
    OneList (h.insertBetween (some a) p n) (xs ++ a :: ys) := by
  have hring : Ring h none (xs.map some ++ ys.map some) := by simpa using hl.ring
  refine ⟨?_, fun b hb => ?_⟩
  · have hnew : some a ∉ none :: (xs.map some ++ ys.map some) := by simpa using ha
    simpa using hring.insertBetween hnew hp hn
  · simp only [List.mem_append, List.mem_cons, not_or] at hb
    have hp' : p ≠ some b := by
      rintro rfl
      simpa [hb.1] using List.mem_of_getLast? hp
    have hn' : n ≠ some b := by
      rintro rfl
      simpa [hb.2.2] using List.mem_of_head? hn
    refine (hl.alone b (by simp [hb])).insertBetween_other ?_ (by simpa using hp')
      (by simpa using hn')
    simpa using Ne.symm hb.2.1

/-- A node comes first. -/
theorem insertFirst (hl : OneList h xs) (ha : a ∉ xs) :
    OneList (h.insertBetween (some a) none (h.next none)) (a :: xs) := by
  have hn : (xs.map some ++ [none]).head? = some (h.next none) := by
    rw [hl.next_none]
    cases xs <;> rfl
  have hl' : OneList h ([] ++ xs) := hl
  exact hl'.insertBetween ha rfl hn

/-- A node that is on no list is set up again. -/
theorem selfLink (hl : OneList h xs) (ha : a ∉ xs) : OneList (h.selfLink (some a)) xs := by
  refine ⟨hl.ring.selfLink (by simpa using ha), fun b hb => ?_⟩
  rcases eq_or_ne b a with rfl | hba
  · exact ring_selfLink ..
  · exact (hl.alone b hb).selfLink (by simpa using Ne.symm hba)

/-- **A node is taken off the list** and set up on its own. -/
theorem remove (hl : OneList h (xs ++ a :: ys)) :
    OneList ((h.unlink (h.prev (some a)) (h.next (some a))).selfLink (some a)) (xs ++ ys) := by
  have hring : Ring h none (xs.map some ++ some a :: ys.map some) := by simpa using hl.ring
  refine ⟨?_, fun b hb => ?_⟩
  · rw [List.map_append]
    exact hring.remove
  · rcases eq_or_ne b a with rfl | hba
    · exact ring_selfLink ..
    · have hb' : b ∉ xs ++ a :: ys := by
        simp only [List.mem_append, List.mem_cons, not_or] at hb ⊢
        exact ⟨hb.1, hba, hb.2⟩
      refine hring.remove_other (hl.alone b hb') fun v hv hmem => hb' ?_
      obtain rfl := List.mem_singleton.1 hmem
      simpa using hv

/-- Taking off a node that is on no list changes nothing. -/
theorem remove_of_notMem (hl : OneList h xs) (ha : a ∉ xs) :
    OneList ((h.unlink (h.prev (some a)) (h.next (some a))).selfLink (some a)) xs := by
  obtain ⟨hnext, hprev⟩ := ring_nil_iff.1 (hl.alone a ha)
  rw [Links.remove_alone hnext hprev]
  exact hl

end OneList

end Lib
end Shannon
