/-
# Marks in a family of bitmaps

A bitmap is an allocation of `size` bytes, and an access to a bit outside of it is
`none`.  Marks are kept in a family of bitmaps: mark `m` sets bit `(cell m).2` of
map `(cell m).1`, and a query tests the bit of its own cell.

Two things make the queries answer exactly for the marked locations, and nothing
less does (`exact_iff`): every cell is inside its map, and marks of different
locations have different cells.
-/

import Shannon.Lib.Run

namespace Shannon
namespace Lib

/-- An allocation of `size` bytes, read bit by bit. -/
structure Bitmap where
  size : ℕ
  bit : ℤ → Bool

/-- Bit `i` lies in an allocation of `size` bytes. -/
def InBytes (size : ℕ) (i : ℤ) : Prop := 0 ≤ i ∧ i < 8 * size

instance (size : ℕ) (i : ℤ) : Decidable (InBytes size i) :=
  inferInstanceAs (Decidable (_ ∧ _))

namespace Bitmap

/-- `memset(map, 0, size)`. -/
def zeroed (size : ℕ) : Bitmap := ⟨size, fun _ => false⟩

/-- `set_bit`. -/
def set (m : Bitmap) (i : ℤ) : Option Bitmap :=
  if InBytes m.size i then some { m with bit := Function.update m.bit i true } else none

/-- `test_bit`. -/
def test (m : Bitmap) (i : ℤ) : Option Bool :=
  if InBytes m.size i then some (m.bit i) else none

end Bitmap

variable {κ : Type*} [DecidableEq κ]

/-- `set_bit` in one map of a family. -/
def setIn (maps : κ → Bitmap) (c : κ × ℤ) : Option (κ → Bitmap) :=
  ((maps c.1).set c.2).map (Function.update maps c.1)

/-- The bits and the sizes after one is set. -/
theorem setIn_eq_some {maps maps' : κ → Bitmap} {c : κ × ℤ} (h : setIn maps c = some maps') :
    InBytes (maps c.1).size c.2 ∧ (∀ k, (maps' k).size = (maps k).size) ∧
      ∀ k i, (maps' k).bit i = true ↔ (k, i) = c ∨ (maps k).bit i = true := by
  obtain ⟨k, i⟩ := c
  obtain ⟨map, hmap, rfl⟩ := Option.map_eq_some_iff.1 h
  unfold Bitmap.set at hmap
  split_ifs at hmap with hin
  obtain rfl := Option.some.inj hmap
  refine ⟨hin, fun l => ?_, fun l j => ?_⟩
  · rcases eq_or_ne l k with rfl | hl
    · rw [Function.update_self]
    · rw [Function.update_of_ne hl]
  · rw [Prod.mk.injEq]
    rcases eq_or_ne l k with rfl | hl
    · rw [Function.update_self]
      rcases eq_or_ne j i with rfl | hj
      · simp
      · simp [hj]
    · simp [hl]

/-- The maps have the sizes, and hold the bits of the cells and no other one. -/
structure Marked (size : κ → ℕ) (cells : List (κ × ℤ)) (maps : κ → Bitmap) : Prop where
  size_eq : ∀ k, (maps k).size = size k
  bit_iff : ∀ k i, (maps k).bit i = true ↔ (k, i) ∈ cells

variable {size : κ → ℕ}

omit [DecidableEq κ] in
theorem marked_zeroed : Marked size [] fun k => Bitmap.zeroed (size k) :=
  ⟨fun _ => rfl, fun _ _ => by simp [Bitmap.zeroed]⟩

/-- One mark adds one bit. -/
theorem Marked.setIn {cells : List (κ × ℤ)} {maps : κ → Bitmap} (h : Marked size cells maps)
    {c : κ × ℤ} (hc : InBytes (size c.1) c.2) :
    ∃ maps', setIn maps c = some maps' ∧ Marked size (cells ++ [c]) maps' := by
  rw [← h.size_eq] at hc
  obtain ⟨maps', hset⟩ : ∃ maps', Lib.setIn maps c = some maps' := by
    rw [Lib.setIn, Bitmap.set, if_pos hc]
    exact ⟨_, rfl⟩
  obtain ⟨-, hsize, hbit⟩ := setIn_eq_some hset
  refine ⟨maps', hset, fun k => (hsize k).trans (h.size_eq k), fun k i => ?_⟩
  rw [hbit, h.bit_iff, List.mem_append, List.mem_singleton, or_comm]

/-- A run of marks inside the maps adds their bits. -/
theorem Marked.run_setIn {cells : List (κ × ℤ)} {maps : κ → Bitmap} (h : Marked size cells maps)
    {cs : List (κ × ℤ)} (hcs : ∀ c ∈ cs, InBytes (size c.1) c.2) :
    ∃ maps', run Lib.setIn maps cs = some maps' ∧ Marked size (cells ++ cs) maps' := by
  induction cs generalizing cells maps with
  | nil => exact ⟨maps, rfl, by rwa [List.append_nil]⟩
  | cons c cs ih =>
      obtain ⟨maps', hset, h'⟩ := h.setIn (hcs c (List.mem_cons_self ..))
      obtain ⟨maps'', hrun, h''⟩ := ih h' fun d hd => hcs d (List.mem_cons_of_mem _ hd)
      rw [List.append_assoc, List.singleton_append] at h''
      exact ⟨maps'', run_cons_eq_some.2 ⟨maps', hset, hrun⟩, h''⟩

/-- A test of a cell in the maps. -/
theorem Marked.test {cells : List (κ × ℤ)} {maps : κ → Bitmap} (h : Marked size cells maps)
    {k : κ} {i : ℤ} (hi : InBytes (size k) i) :
    (maps k).test i = some (decide ((k, i) ∈ cells)) := by
  rw [← h.size_eq] at hi
  rw [Bitmap.test, if_pos hi, Option.some.injEq, Bool.eq_iff_iff, h.bit_iff, decide_eq_true_iff]

omit [DecidableEq κ] in
theorem Marked.inBytes_of_test {cells : List (κ × ℤ)} {maps : κ → Bitmap}
    (h : Marked size cells maps) {k : κ} {i : ℤ} {b : Bool} (hb : (maps k).test i = some b) :
    InBytes (size k) i := by
  rw [← h.size_eq]
  by_contra hn
  rw [Bitmap.test, if_neg hn] at hb
  exact absurd hb (by simp)

/-! ### When the queries are exact -/

section

variable {μ ν : Type*}

/-- After every run of marks in `R` a query in `R` answers, and says whether its place was
marked. -/
def ExactMarks {σ : Type*} (mark : σ → μ → Option σ) (query : σ → μ → Option Bool)
    (place : μ → ν) (R : μ → Prop) (s : σ) : Prop :=
  ∀ ms : List μ, (∀ m ∈ ms, R m) → ∃ t, run mark s ms = some t ∧
    ∀ q, R q → ∃ b, query t q = some b ∧ (b = true ↔ ∃ m ∈ ms, place m = place q)

/-- Every mark is inside its map, and marks of different places are apart. -/
structure Apart (size : κ → ℕ) (cell : μ → κ × ℤ) (place : μ → ν) (R : μ → Prop) : Prop where
  inside : ∀ m, R m → InBytes (size (cell m).1) (cell m).2
  inj : ∀ m q, R m → R q → cell m = cell q → place m = place q

variable {cell : μ → κ × ℤ} {place : μ → ν} {R : μ → Prop}
  {mark : (κ → Bitmap) → μ → Option (κ → Bitmap)} {query : (κ → Bitmap) → μ → Option Bool}

theorem run_marks (hmark : ∀ maps m, mark maps m = setIn maps (cell m)) (maps : κ → Bitmap)
    (ms : List μ) : run mark maps ms = run setIn maps (ms.map cell) := by
  induction ms generalizing maps with
  | nil => rfl
  | cons m ms ih =>
      rw [run, List.map_cons, run, hmark]
      exact Option.bind_congr fun t _ => ih t

theorem Marked.run_marks (hmark : ∀ maps m, mark maps m = Lib.setIn maps (cell m))
    (hin : ∀ m, R m → InBytes (size (cell m).1) (cell m).2) {ms : List μ} (hms : ∀ m ∈ ms, R m) :
    ∃ maps, run mark (fun k => Bitmap.zeroed (size k)) ms = some maps ∧
      Marked size (ms.map cell) maps := by
  rw [Lib.run_marks hmark]
  refine marked_zeroed.run_setIn fun c hc => ?_
  obtain ⟨m, hm, rfl⟩ := List.mem_map.1 hc
  exact hin m (hms m hm)

/-- **Queries are exact when the cells are inside and apart, and only then.**  Marks set
the bit of their cell, queries test it. -/
theorem exact_iff (hmark : ∀ maps m, mark maps m = setIn maps (cell m))
    (hquery : ∀ (ms : List μ) maps, Marked size (ms.map cell) maps →
      ∀ q, R q → query maps q = (maps (cell q).1).test (cell q).2)
    (hplace : ∀ m q, place m = place q → cell m = cell q) :
    ExactMarks mark query place R (fun k => Bitmap.zeroed (size k))
      ↔ Apart size cell place R := by
  constructor
  · intro h
    have hinside : ∀ m, R m → InBytes (size (cell m).1) (cell m).2 := by
      intro m hm
      obtain ⟨maps, hrun, hanswer⟩ := h [] fun _ hn => absurd hn List.not_mem_nil
      obtain rfl := Option.some.inj hrun
      obtain ⟨b, hb, -⟩ := hanswer m hm
      rw [hquery [] _ marked_zeroed m hm] at hb
      exact marked_zeroed.inBytes_of_test hb
    refine ⟨hinside, fun m q hm hq hcell => ?_⟩
    have hone : ∀ n ∈ [m], R n := fun n hn => List.mem_singleton.1 hn ▸ hm
    obtain ⟨maps, hrun, hanswer⟩ := h [m] hone
    obtain ⟨maps', hrun', hmarked⟩ := Marked.run_marks hmark hinside hone
    obtain rfl := Option.some.inj (hrun.symm.trans hrun')
    obtain ⟨b, hb, hiff⟩ := hanswer q hq
    rw [hquery [m] _ hmarked q hq, hmarked.test (hinside q hq), Option.some.injEq] at hb
    have htrue : b = true := by simp [← hb, hcell]
    obtain ⟨n, hn, hsame⟩ := hiff.1 htrue
    rwa [List.mem_singleton.1 hn] at hsame
  · intro h ms hms
    obtain ⟨maps, hrun, hmarked⟩ := Marked.run_marks hmark h.inside hms
    refine ⟨maps, hrun, fun q hq => ?_⟩
    have htest := (hquery ms maps hmarked q hq).trans (hmarked.test (h.inside q hq))
    refine ⟨_, htest, ?_⟩
    rw [decide_eq_true_iff, List.mem_map]
    constructor
    · rintro ⟨m, hm, hcell⟩
      exact ⟨m, hm, h.inj m q (hms m hm) hq hcell⟩
    · rintro ⟨m, hm, hsame⟩
      exact ⟨m, hm, hplace m q hsame⟩

end

end Lib
end Shannon
