/-
# Lists shown through a file

`shannon_file.c`: `shannon_seq_list_start`, `shannon_seq_list_start_head` and
`shannon_seq_list_next` walk an intrusive list for a file that shows one line a node.  The file is
read in pieces.  Each piece begins with a call of `start`, which looks for the node of the number
that the last piece got to, and goes on with `next`; between two pieces the list is not locked,
and the calls of `shannon_list.h` change it.

`traversal_exact` says what a reader sees.  As long as what it was shown stays at the front of the
list, it is shown every node once, in the order of the list, and when a piece comes up short it
has seen the whole list.  This is how far one can go: a node that is taken off after it was shown
makes the reader miss another one (`traversal_missed`), because nothing but a number is kept.
-/

import Shannon.Intrusive.Sequences

namespace Shannon
namespace File

open Lib Workqueue Intrusive

variable {ν : Type*} [DecidableEq ν]

/-! ### The code -/

/-- The loop of `shannon_seq_list_start` from `lh` on; `none` if it is still running after `fuel`
nodes.  `NULL` is `some none`. -/
def seqListStartLoop (h : Links ν) (head : ν) : ℕ → ν → ℕ → Option (Option ν)
  | 0, lh, _ => if lh = head then some none else none
  | fuel + 1, lh, pos =>
      if lh = head then some none
      else if pos = 0 then some (some lh)
      else seqListStartLoop h head fuel (h.next lh) (pos - 1)

/-- `shannon_seq_list_start`. -/
def shannonSeqListStart (h : Links ν) (head : ν) (fuel pos : ℕ) : Option (Option ν) :=
  seqListStartLoop h head fuel (h.next head) pos

/-- `shannon_seq_list_start_head`. -/
def shannonSeqListStartHead (h : Links ν) (head : ν) (fuel pos : ℕ) : Option (Option ν) :=
  if pos = 0 then some (some head) else shannonSeqListStart h head fuel (pos - 1)

/-- `shannon_seq_list_next`: the next node, and the number it leaves. -/
def shannonSeqListNext (h : Links ν) (v head : ν) (pos : ℕ) : Option ν × ℕ :=
  let lh := h.next v
  (if lh = head then none else some lh, pos + 1)

/-! ### The reader -/

/-- A file shows the head of the list as a line of its own, or does not. -/
inductive Kind where
  | plain
  | withHead
deriving DecidableEq

/-- The `start` of the file. -/
def Kind.start (kind : Kind) (h : Links ν) (head : ν) (fuel pos : ℕ) : Option (Option ν) :=
  match kind with
  | .plain => shannonSeqListStart h head fuel pos
  | .withHead => shannonSeqListStartHead h head fuel pos

/-- What there is to show of a list. -/
def Kind.full (kind : Kind) (head : ν) (xs : List ν) : List ν :=
  match kind with
  | .plain => xs
  | .withHead => head :: xs

/-- A piece shows up to `n` nodes from `v` on, with a `next` after each: the nodes, and the number
it gets to. -/
def showPiece (h : Links ν) (head : ν) : ℕ → Option ν → ℕ → List ν × ℕ
  | 0, _, pos => ([], pos)
  | _ + 1, none, pos => ([], pos)
  | n + 1, some v, pos =>
      let (v', pos') := shannonSeqListNext h v head pos
      let rest := showPiece h head n v' pos'
      (v :: rest.1, rest.2)

/-- The lists, what they stand for, the number the reader has got to, the nodes it was shown, and
whether the last piece came up short. -/
structure State (ν : Type*) where
  h : Links ν
  seqs : Seqs ν
  index : ℕ
  shown : List ν
  short : Bool

/-- What happens. -/
inductive Act (ν : Type*) where
  /-- A list is changed. -/
  | op (op : Op ν)
  /-- The next piece, of up to `n` nodes, is read. -/
  | piece (n fuel : ℕ)

/-- One step. -/
def step (kind : Kind) (head : ν) (s : State ν) : Act ν → Option (State ν)
  | .op op => some { s with h := op.exec s.h, seqs := op.apply s.seqs, short := false }
  | .piece n fuel =>
      (kind.start s.h head fuel s.index).map fun v =>
        let r := showPiece s.h head n v s.index
        { s with index := r.2, shown := s.shown ++ r.1, short := decide (r.1.length < n) }

/-- The call may be made, and leaves what was shown at the front of the list. -/
def Harmless (kind : Kind) (head : ν) (s : State ν) : Act ν → Prop
  | .op op => op.Legal s.seqs ∧
      match op with
      | .init list => list ≠ head
      | .add new m => new ≠ head ∧ (m = head → s.shown.length ≤ (kind.full head []).length)
      | .addTail new _ => new ≠ head
      | .del entry | .delInit entry => entry ≠ head ∧ entry ∉ s.shown
  | .piece _ _ => True

instance decidableHarmless [Fintype ν] (kind : Kind) (head : ν) (s : State ν) :
    (a : Act ν) → Decidable (Harmless kind head s a)
  | .op (.init _) => inferInstanceAs (Decidable (_ ∧ _))
  | .op (.add _ _) => inferInstanceAs (Decidable (_ ∧ _ ∧ (_ → _)))
  | .op (.addTail _ _) => inferInstanceAs (Decidable (_ ∧ _))
  | .op (.del _) | .op (.delInit _) => inferInstanceAs (Decidable (_ ∧ _ ∧ _))
  | .piece _ _ => isTrue trivial

/-! ### One piece -/

theorem seqListStartLoop_spec {h : Links ν} {head : ν} {xs ys : List ν}
    (hr : Ring h head (xs ++ ys)) {fuel : ℕ} (hfuel : ys.length ≤ fuel) (pos : ℕ) :
    seqListStartLoop h head fuel (ys.headD head) pos = some ys[pos]? := by
  induction ys generalizing xs fuel pos with
  | nil => cases fuel <;> simp [seqListStartLoop]
  | cons y ys ih =>
      have hne : y ≠ head := by
        rintro rfl
        exact (List.nodup_cons.1 hr.nodup).1 (by simp)
      obtain ⟨fuel, rfl⟩ : ∃ m, fuel = m + 1 := ⟨fuel - 1, by rw [List.length_cons] at hfuel; omega⟩
      rw [List.length_cons] at hfuel
      rw [List.headD_cons, seqListStartLoop, if_neg hne]
      cases pos with
      | zero => rfl
      | succ pos =>
          have hnext := hr.next_headD y ys rfl
          rw [List.headD_cons] at hnext
          have hr' : Ring h head ((xs ++ [y]) ++ ys) := by simpa using hr
          rw [if_neg (Nat.succ_ne_zero pos), hnext, Nat.add_sub_cancel, ih hr' (by omega) pos,
            List.getElem?_cons_succ]

/-- More fuel does not change the result. -/
theorem seqListStartLoop_mono {h : Links ν} {head lh : ν} {fuel fuel' pos : ℕ} {v : Option ν}
    (hle : fuel ≤ fuel') (hv : seqListStartLoop h head fuel lh pos = some v) :
    seqListStartLoop h head fuel' lh pos = some v := by
  induction fuel generalizing fuel' lh pos with
  | zero =>
      simp only [seqListStartLoop, Option.ite_none_right_eq_some] at hv
      cases fuel' <;> simp [seqListStartLoop, hv.1, hv.2]
  | succ fuel ih =>
      obtain ⟨fuel', rfl⟩ : ∃ m, fuel' = m + 1 := ⟨fuel' - 1, by omega⟩
      simp only [seqListStartLoop] at hv ⊢
      split_ifs at hv ⊢
      · exact hv
      · exact hv
      · exact ih (by omega) hv

/-- **`start` finds the node of the number.**  With enough fuel it returns, and whenever it returns
it is this. -/
theorem start_spec {h : Links ν} {head : ν} {xs : List ν} (hr : Ring h head xs) (kind : Kind)
    (pos : ℕ) :
    kind.start h head xs.length pos = some (kind.full head xs)[pos]? ∧
      ∀ fuel v, kind.start h head fuel pos = some v → v = (kind.full head xs)[pos]? := by
  have hplain (pos : ℕ) : shannonSeqListStart h head xs.length pos = some xs[pos]? ∧
      ∀ fuel v, shannonSeqListStart h head fuel pos = some v → v = xs[pos]? := by
    have hspec := fun fuel (hfuel : xs.length ≤ fuel) =>
      seqListStartLoop_spec (show Ring h head ([] ++ xs) from hr) hfuel pos
    rw [← hr.next_head] at hspec
    refine ⟨hspec _ le_rfl, fun fuel v hv => ?_⟩
    have hmore := seqListStartLoop_mono (Nat.le_add_left fuel xs.length) hv
    exact Option.some.inj (hmore.symm.trans (hspec _ (Nat.le_add_right _ _)))
  cases kind with
  | plain => exact hplain pos
  | withHead =>
      cases pos with
      | zero => exact ⟨rfl, fun fuel v hv => (Option.some.inj hv).symm⟩
      | succ pos => exact hplain pos

/-- The successor of a node, with `NULL` for the head. -/
theorem next_of_suffix {h : Links ν} {head v : ν} {ys : List ν} (hhead : head ∉ ys)
    (hv : h.next v = ys.headD head) (pos : ℕ) :
    shannonSeqListNext h v head pos = (ys[0]?, pos + 1) := by
  rw [shannonSeqListNext, hv]
  cases ys with
  | nil => simp
  | cons y ys =>
      have hne : y ≠ head := fun heq => hhead (heq ▸ List.mem_cons_self ..)
      simp [hne]

/-- **`next` goes to the node of the next number.** -/
theorem next_spec {h : Links ν} {head : ν} {xs : List ν} (hr : Ring h head xs) (kind : Kind)
    {pos : ℕ} (hlt : pos < (kind.full head xs).length) :
    shannonSeqListNext h ((kind.full head xs)[pos]) head pos
      = ((kind.full head xs)[pos + 1]?, pos + 1) := by
  have hhead : head ∉ xs := (List.nodup_cons.1 hr.nodup).1
  have hnode (k : ℕ) (hk : k < xs.length) :
      shannonSeqListNext h xs[k] head pos = (xs[k + 1]?, pos + 1) := by
    have hsplit : xs = xs.take k ++ xs[k] :: xs.drop (k + 1) := by simp
    have hnext := (hsplit ▸ hr : Ring h head _).next_headD xs[k] _ rfl
    rw [List.headD_cons] at hnext
    have hrest : head ∉ xs.drop (k + 1) := fun hmem => hhead (List.mem_of_mem_drop hmem)
    rw [next_of_suffix hrest hnext, List.getElem?_drop]
  cases kind with
  | plain => exact hnode pos hlt
  | withHead =>
      cases pos with
      | zero => exact next_of_suffix hhead hr.next_head 0
      | succ k => exact hnode k (by simpa [Kind.full] using hlt)

/-- **A piece shows what comes next.** -/
theorem showPiece_spec {h : Links ν} {head : ν} {xs : List ν} (hr : Ring h head xs) (kind : Kind)
    (n pos : ℕ) :
    showPiece h head n (kind.full head xs)[pos]? pos
      = (((kind.full head xs).drop pos).take n,
          pos + min n ((kind.full head xs).length - pos)) := by
  induction n generalizing pos with
  | zero => simp [showPiece]
  | succ n ih =>
      rcases Nat.lt_or_ge pos (kind.full head xs).length with hlt | hge
      · rw [List.getElem?_eq_getElem hlt, showPiece, next_spec hr kind hlt]
        dsimp only
        rw [ih (pos + 1), List.drop_eq_getElem_cons hlt, List.take_succ_cons]
        congr 1
        omega
      · rw [List.getElem?_eq_none hge, List.drop_eq_nil_of_le hge]
        simp [showPiece, Nat.sub_eq_zero_of_le hge]

/-! ### Runs -/

/-- Nothing was shown yet. -/
def State.init (h : Links ν) (seqs : Seqs ν) : State ν := ⟨h, seqs, 0, [], false⟩

/-- What was shown is the front of the list, and all of it after a short piece. -/
structure Inv (kind : Kind) (head : ν) (s : State ν) (xs : List ν) : Prop where
  rings : Rings s.h s.seqs
  list : s.seqs head = some xs
  index : s.index = s.shown.length
  front : s.shown <+: kind.full head xs
  short : s.short = true → s.shown = kind.full head xs

variable {kind : Kind} {head : ν} {s t : State ν} {xs : List ν}

omit [DecidableEq ν] in
theorem full_addTail (kind : Kind) (head new : ν) (xs : List ν) :
    kind.full head xs <+: kind.full head (xs ++ [new]) := by
  cases kind with
  | plain => exact List.prefix_append xs [new]
  | withHead => exact (List.prefix_append (head :: xs) [new])

theorem full_erase {entry : ν} (hentry : entry ≠ head) (kind : Kind) (xs : List ν) :
    kind.full head (xs.erase entry) = (kind.full head xs).erase entry := by
  cases kind with
  | plain => rfl
  | withHead => simp [Kind.full, hentry.symm]

omit [DecidableEq ν] in
/-- Before the first node was shown. -/
theorem full_add {shown : List ν} (new : ν) (hfront : shown <+: kind.full head xs)
    (hlen : shown.length ≤ (kind.full head []).length) : shown <+: kind.full head (new :: xs) := by
  have hempty : kind.full head [] <+: kind.full head (new :: xs) := by
    cases kind with
    | plain => exact List.nil_prefix
    | withHead => exact List.prefix_append [head] (new :: xs)
  have hstart : kind.full head [] <+: kind.full head xs := by
    cases kind with
    | plain => exact List.nil_prefix
    | withHead => exact List.prefix_append [head] xs
  exact (List.prefix_of_prefix_length_le hfront hstart hlen).trans hempty

theorem inv_op {op : Op ν} (hs : Inv kind head s xs) (hgood : Harmless kind head s (.op op)) :
    ∃ ys,
      Inv kind head { s with h := op.exec s.h, seqs := op.apply s.seqs, short := false } ys := by
  obtain ⟨hlegal, hharmless⟩ := hgood
  have hrings := rings_exec hs.rings hlegal
  suffices hfront : ∃ ys, op.apply s.seqs head = some ys ∧ s.shown <+: kind.full head ys by
    obtain ⟨ys, hys, hfront⟩ := hfront
    exact ⟨ys, hrings, hys, hs.index, hfront, fun h => by cases h⟩
  have hremove (entry : ν) (hentry : entry ≠ head ∧ entry ∉ s.shown) :
      ∃ ys, s.seqs.remove entry head = some ys ∧ s.shown <+: kind.full head ys := by
    refine ⟨xs.erase entry, ?_, ?_⟩
    · rw [Seqs.remove, Function.update_of_ne hentry.1.symm, hs.list, Option.map_some]
    · obtain ⟨rest, hrest⟩ := hs.front
      rw [full_erase hentry.1, ← hrest, List.erase_append_right _ hentry.2]
      exact List.prefix_append ..
  cases op with
  | init list =>
      exact ⟨xs, (Function.update_of_ne (Ne.symm hharmless) ..).trans hs.list, hs.front⟩
  | add new m =>
      rcases eq_or_ne m head with rfl | hm
      · refine ⟨new :: xs, ?_, full_add new hs.front (hharmless.2 rfl)⟩
        rw [Op.apply, Function.update_self, hs.list, Option.map_some]
      · refine ⟨xs, ?_, hs.front⟩
        rw [Op.apply, Function.update_of_ne hm.symm, Function.update_of_ne hharmless.1.symm,
          hs.list]
  | addTail new m =>
      rcases eq_or_ne m head with rfl | hm
      · refine ⟨xs ++ [new], ?_, hs.front.trans (full_addTail ..)⟩
        rw [Op.apply, Function.update_self, hs.list, Option.map_some]
      · refine ⟨xs, ?_, hs.front⟩
        rw [Op.apply, Function.update_of_ne hm.symm, Function.update_of_ne hharmless.symm,
          hs.list]
  | del entry => exact hremove entry hharmless
  | delInit entry => exact hremove entry hharmless

theorem inv_piece {n fuel : ℕ} (hs : Inv kind head s xs)
    (h : step kind head s (.piece n fuel) = some t) : Inv kind head t xs := by
  have hring := hs.rings.ring head xs hs.list
  obtain ⟨v, hv, rfl⟩ := Option.map_eq_some_iff.1 h
  obtain rfl := (start_spec hring kind s.index).2 fuel v hv
  obtain ⟨rest, hrest⟩ := hs.front
  have hdrop : (kind.full head xs).drop s.index = rest := by
    rw [← hrest, hs.index, List.drop_left]
  have hlen : (kind.full head xs).length - s.index = rest.length := by
    rw [← hrest, hs.index, List.length_append, Nat.add_sub_cancel_left]
  have hfront : s.shown ++ rest.take n <+: kind.full head xs := by
    rw [← hrest, List.prefix_append_right_inj]
    exact List.take_prefix n rest
  simp only [showPiece_spec hring kind n s.index, hdrop, hlen]
  refine ⟨hs.rings, hs.list, ?_, hfront, fun hshort => ?_⟩
  · simp [hs.index]
  · have hall : rest.take n = rest := by
      rw [List.take_eq_self_iff]
      simp only [List.length_take, decide_eq_true_eq] at hshort
      omega
    show s.shown ++ rest.take n = _
    rw [hall, hrest]

/-- **What a reader sees.**  Take any list and read it in pieces of any sizes, with calls that
change it in between.  If the calls leave what was shown at the front of the list, then at all
times what was shown is the front of the list as it is now, with no node twice; after a piece that
came up short it is the whole list; and the next piece can always be read. -/
theorem traversal_exact {h : Links ν} {seqs : Seqs ν} {as : List (Act ν)}
    (hrings : Rings h seqs) (hlist : (seqs head).isSome)
    (hrun : run (step kind head) (State.init h seqs) as = some s)
    (hgood : Along (step kind head) (Harmless kind head) (State.init h seqs) as) :
    ∃ xs, s.seqs head = some xs ∧ s.shown <+: kind.full head xs ∧ s.shown.Nodup ∧
      (s.short = true → s.shown = kind.full head xs) ∧
      ∀ n, ∃ fuel t, step kind head s (.piece n fuel) = some t := by
  obtain ⟨xs₀, hxs₀⟩ := Option.isSome_iff_exists.1 hlist
  obtain ⟨xs, hs⟩ : ∃ xs, Inv kind head s xs := by
    refine run_invariant_along (I := fun s => ∃ xs, Inv kind head s xs) ?_ ?_ hgood hrun
    · rintro s a t ⟨xs, hs⟩ hgood hstep
      cases a with
      | op op =>
          obtain rfl := Option.some.inj hstep
          exact inv_op hs hgood
      | piece n fuel => exact ⟨xs, inv_piece hs hstep⟩
    · exact ⟨xs₀, hrings, hxs₀, rfl, List.nil_prefix, fun h => by cases h⟩
  have hring := hs.rings.ring head xs hs.list
  have hnodup : (kind.full head xs).Nodup := by
    cases kind with
    | plain => exact (List.nodup_cons.1 hring.nodup).2
    | withHead => exact hring.nodup
  refine ⟨xs, hs.list, hs.front, hs.front.sublist.nodup hnodup, hs.short, fun n => ?_⟩
  exact ⟨xs.length, Option.isSome_iff_exists.1 (by
    rw [step, (start_spec hring kind s.index).1]
    rfl)⟩

omit [DecidableEq ν] in
/-- Nodes that are linked to themselves. -/
theorem rings_alone : Rings (⟨id, id⟩ : Links ν) fun _ => some [] where
  ring := by
    rintro m _ ⟨⟩
    exact ring_nil_iff.2 ⟨rfl, rfl⟩
  unique := by
    rintro a m n ⟨_, ⟨⟩, ham⟩ ⟨_, ⟨⟩, han⟩
    exact (List.mem_singleton.1 ham).symm.trans (List.mem_singleton.1 han)

/-- A list of two nodes is read; after its first node another one is appended and the second is
taken off. -/
def changingList (head a b c : Fin 4) : List (Act (Fin 4)) :=
  [.op (.addTail a head), .op (.addTail b head), .piece 1 2, .op (.addTail c head),
    .op (.delInit b), .piece 5 2]

/-- The hypotheses of `traversal_exact` are satisfiable: the reader of `changingList` is shown what
the list is in the end. -/
theorem traversal_changingList :
    ∃ s, run (step .plain 0) (State.init ⟨id, id⟩ fun _ => some []) (changingList 0 1 2 3)
        = some s ∧
      s.seqs 0 = some [1, 3] ∧ s.shown = [1, 3] := by
  obtain ⟨s, hs, hlist, hshort⟩ : ∃ s,
      run (step .plain 0) (State.init ⟨id, id⟩ fun _ => some []) (changingList 0 1 2 3) = some s ∧
      s.seqs 0 = some [1, 3] ∧ s.short = true := ⟨_, rfl, by decide, by decide⟩
  obtain ⟨xs, hxs, -, -, hall, -⟩ := traversal_exact rings_alone rfl hs (by decide)
  obtain rfl := Option.some.inj (hlist.symm.trans hxs)
  exact ⟨s, hs, hlist, hall hshort⟩

/-- A node is taken off after it was shown, and the one after it is missed. -/
theorem traversal_missed :
    ∃ s, run (step .plain 0) (State.init ⟨id, id⟩ fun _ => some [])
        [.op (.addTail 1 0), .op (.addTail 2 0), .op (.addTail 3 0), .piece 1 3, .op (.delInit 1),
          .piece 5 3] = some s ∧
      s.seqs (0 : Fin 4) = some [2, 3] ∧ s.shown = [1, 3] ∧ s.short = true :=
  ⟨_, rfl, by decide, by decide, by decide⟩

end File
end Shannon
