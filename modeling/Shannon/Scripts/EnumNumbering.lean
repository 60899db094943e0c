/-
# When the numbers are those of C

`enum_indices` on one enumeration (`Shannon.Scripts.EnumText`), for any set of names.

A member that was asked for is numbered only if it is read on its own and its value can be
evaluated (`enumLoop_recorded`).  If that is so for all of them, the result is what C's
numbering gives to the members asked for alone (`enumLoop_eq`): the others are passed over
without being counted.  For a member without a value the two numberings agree if the value C
gives to it follows the one of the last member asked for.  `enumIndices_iff` puts it together.
-/

import Shannon.Scripts.EnumItems
import Shannon.Scripts.EnumValues

namespace Shannon
namespace Scripts

open Lib

variable {eval : List Char → Option ℤ} {names : List Char → Bool}

/-! ### The result as a dictionary -/

theorem lookup_setItem_self (out : List (List Char × ℤ)) (name : List Char) (v : ℤ) :
    (setItem out name v).lookup name = some v := by
  induction out with
  | nil => simp [setItem]
  | cons p out ih =>
      unfold setItem
      split_ifs with hp
      · simp
      · rw [List.lookup_cons, beq_false_of_ne (Ne.symm hp)]
        exact ih

theorem lookup_setItem_of_ne {name name' : List Char} (h : name' ≠ name)
    (out : List (List Char × ℤ)) (v : ℤ) :
    (setItem out name v).lookup name' = out.lookup name' := by
  induction out with
  | nil => simp [setItem, List.lookup_cons, beq_false_of_ne h]
  | cons p out ih =>
      unfold setItem
      split_ifs with hp
      · rw [List.lookup_cons, List.lookup_cons, hp, beq_false_of_ne h]
      · rw [List.lookup_cons, List.lookup_cons, ih]

theorem mem_setItem {out : List (List Char × ℤ)} {name : List Char} {v : ℤ} {p : List Char × ℤ}
    (h : p ∈ setItem out name v) : p ∈ out ∨ p = (name, v) := by
  induction out with
  | nil => exact .inr (List.mem_singleton.1 h)
  | cons q out ih =>
      unfold setItem at h
      split_ifs at h with hq
      · rcases List.mem_cons.1 h with rfl | h
        · exact .inr rfl
        · exact .inl (List.mem_cons_of_mem q h)
      · rcases List.mem_cons.1 h with rfl | h
        · exact .inl List.mem_cons_self
        · exact (ih h).imp_left (List.mem_cons_of_mem q)

/-- The keys are identifiers. -/
def Indices.Keyed (r : Indices) : Prop := ∀ p ∈ r.out, Ident p.1

theorem Indices.Keyed.record {r : Indices} (h : r.Keyed) {name : List Char} (hname : Ident name)
    (v : ℤ) (conditional : Bool) : (r.record name v conditional).Keyed := by
  intro p hp
  rcases mem_setItem hp with hp | rfl
  · exact h p hp
  · exact hname

/-! ### One fragment -/

/-- No directive is in the fragment. -/
def Fragment.Plain (f : Fragment) : Prop := ∀ g ∈ f.gaps, g.isDirective = false

/-- The value of the member, if it has one, can be evaluated. -/
def Member.Evaluable (m : Member) : Prop := ∀ i ∈ m.init, i.lit.Evaluable

theorem depth_of_plain {gaps : List Gap} (h : ∀ g ∈ gaps, g.isDirective = false) (k : ℕ) :
    depth k gaps = k := by
  induction gaps with
  | nil => rfl
  | cons g gaps ih =>
      obtain ⟨hg, hgaps⟩ := List.forall_mem_cons.1 h
      cases g with
      | seg s => exact ih hgaps
      | directive d => cases hg

section

variable {f : Fragment} (hf : f.Wf) (raws : List (List Char)) (n : ℤ) (k : ℕ) {r : Indices}
include hf

/-- One turn of the loop. -/
theorem enumLoop_cons (r : Indices) : enumLoop eval names (seen f.segs :: raws) n k r =
    match parseItem (squeeze isSpace ' ' (seen f.segs)) with
    | none => enumLoop eval names raws n (depth (depth k f.before) f.after) r
    | some (name, init) =>
        if names name then
          match init.elim (some n) fun e => safeEnumValue eval (strip e) r.out with
          | none => r
          | some v => enumLoop eval names raws (v + 1) (depth (depth k f.before) f.after)
              (r.record name v (depth (depth k f.before) f.after ≠ 0))
        else enumLoop eval names raws n (depth (depth k f.before) f.after) r := by
  rw [← hf.ifLines k]
  rfl

/-- A fragment whose member was not asked for. -/
theorem enumLoop_skip (hnot : ∀ m ∈ f.member, names m.name = false) (r : Indices) :
    enumLoop eval names (seen f.segs :: raws) n k r
      = enumLoop eval names raws n (depth (depth k f.before) f.after) r := by
  rw [enumLoop_cons hf]
  cases hread : parseItem (squeeze isSpace ' ' (seen f.segs)) with
  | none => rfl
  | some item =>
      obtain ⟨m, hm, hname⟩ := hf.read_name hread
      dsimp only
      rw [← hname, hnot m hm, if_neg Bool.false_ne_true]

/-- A member that was asked for, on its own and with a value that can be evaluated. -/
theorem enumLoop_record (heval : PythonEval eval) (hr : r.Keyed) {m : Member}
    (hm : f.member = some m) (hname : names m.name = true) (hplain : f.Plain)
    (hvalue : m.Evaluable) :
    enumLoop eval names (seen f.segs :: raws) n k r
      = enumLoop eval names raws (m.value.getD n + 1) (depth (depth k f.before) f.after)
          (r.record m.name (m.value.getD n) (depth k f.before ≠ 0)) := by
  have hafter : depth (depth k f.before) f.after = depth k f.before :=
    depth_of_plain (fun g hg => hplain g (List.mem_append_right _ hg)) _
  have hv : (m.init.map fun i => i.lit.text).elim (some n)
      (fun e => safeEnumValue eval (strip e) r.out) = some (m.value.getD n) := by
    cases hi : m.init with
    | none => simp [Member.value, hi]
    | some i =>
        have hlit := safeEnumValue_lit heval ((hf.member m hm).init i hi).lit hr (hvalue i hi)
        simp [Member.value, hi, hlit]
  rw [enumLoop_cons hf, hf.read hplain, hm]
  dsimp only [Option.map_some]
  rw [if_pos hname, hv, hafter]

/-- A member that was asked for is lost otherwise, and perhaps all those behind it. -/
theorem enumLoop_lost (heval : PythonEval eval) (hr : r.Keyed) {m : Member}
    (hm : f.member = some m) (hname : names m.name = true)
    (hnot : ¬(f.Plain ∧ m.Evaluable)) :
    enumLoop eval names (seen f.segs :: raws) n k r
        = enumLoop eval names raws n (depth (depth k f.before) f.after) r ∨
      enumLoop eval names (seen f.segs :: raws) n k r = r := by
  rw [enumLoop_cons hf]
  cases hread : parseItem (squeeze isSpace ' ' (seen f.segs)) with
  | none => exact .inl rfl
  | some item =>
      obtain ⟨name, init⟩ := item
      right
      obtain ⟨m', hm', rfl⟩ := hf.read_name hread
      obtain rfl : m = m' := Option.some.inj (hm.symm.trans hm')
      have hv : init.elim (some n) (fun e => safeEnumValue eval (strip e) r.out) = none := by
        by_cases hplain : f.Plain
        · obtain ⟨i, hi, hlit⟩ : ∃ i ∈ m.init, ¬i.lit.Evaluable := by
            by_contra hall
            push Not at hall
            exact hnot ⟨hplain, hall⟩
          rw [hf.read hplain, hm, Option.map_some, Option.mem_def.1 hi] at hread
          obtain ⟨-, rfl⟩ := Prod.mk.inj (Option.some.inj hread)
          exact safeEnumValue_of_not heval ((hf.member m hm).init i hi).lit hr hlit
        · obtain ⟨g, hg, hdir⟩ : ∃ g ∈ f.gaps, g.isDirective = true := by
            by_contra hall
            push Not at hall
            exact hplain fun g hg => Bool.eq_false_iff.2 (hall g hg)
          obtain ⟨e, rfl, hhash⟩ := hf.read_glued ⟨g, hg, hdir⟩ hread
          exact safeEnumValue_hash eval hhash hr
      dsimp only
      rw [if_pos hname, hv]

end

/-! ### All fragments -/

/-- Only members that are on their own, with values that can be evaluated, are numbered. -/
theorem enumLoop_recorded (heval : PythonEval eval) {fs : List Fragment} (hfs : ∀ f ∈ fs, f.Wf)
    {n : ℤ} {k : ℕ} {r : Indices} (hr : r.Keyed) {name : List Char}
    (h : ((enumLoop eval names (fs.map fun f => seen f.segs) n k r).out.lookup name).isSome) :
    (r.out.lookup name).isSome ∨
      ∃ f ∈ fs, ∃ m, f.member = some m ∧ m.name = name ∧ f.Plain ∧ m.Evaluable := by
  induction fs generalizing n k r with
  | nil => exact .inl h
  | cons f fs ih =>
      obtain ⟨hf, hrest⟩ := List.forall_mem_cons.1 hfs
      have hlift {r' : Indices} (hor : (r'.out.lookup name).isSome ∨
          ∃ f ∈ fs, ∃ m, f.member = some m ∧ m.name = name ∧ f.Plain ∧ m.Evaluable) :
          (r'.out.lookup name).isSome ∨
            ∃ f' ∈ f :: fs, ∃ m, f'.member = some m ∧ m.name = name ∧ f'.Plain ∧ m.Evaluable := by
        refine hor.imp_right ?_
        rintro ⟨f', hf', hm⟩
        exact ⟨f', List.mem_cons_of_mem f hf', hm⟩
      rw [List.map_cons] at h
      by_cases hnamed : ∃ m, f.member = some m ∧ names m.name = true
      · obtain ⟨m, hm, hname⟩ := hnamed
        by_cases hgood : f.Plain ∧ m.Evaluable
        · rw [enumLoop_record hf _ n k heval hr hm hname hgood.1 hgood.2] at h
          rcases hlift (ih hrest (hr.record (hf.member m hm).name _ _) h) with hout | hfound
          · by_cases heq : name = m.name
            · exact .inr ⟨f, List.mem_cons_self, m, hm, heq.symm, hgood⟩
            · rw [Indices.record, lookup_setItem_of_ne heq] at hout
              exact .inl hout
          · exact .inr hfound
        · rcases enumLoop_lost hf (fs.map fun f => seen f.segs) n k heval hr hm hname hgood with
            heq | heq
          · rw [heq] at h
            exact hlift (ih hrest hr h)
          · rw [heq] at h
            exact .inl h
      · push Not at hnamed
        rw [enumLoop_skip hf _ n k fun m hm => Bool.eq_false_iff.2 (hnamed m hm)] at h
        exact hlift (ih hrest hr h)

/-- The members numbered one after the other. -/
def numberAll : ℤ → List (Member × Bool) → Indices → Indices
  | _, [], r => r
  | n, (m, c) :: ms, r =>
      numberAll (m.value.getD n + 1) ms (r.record m.name (m.value.getD n) c)

/-- The members that were asked for. -/
def asked (names : List Char → Bool) (ms : List (Member × Bool)) : List (Member × Bool) :=
  ms.filter fun m => names m.1.name

/-- **If none is lost, the members asked for are numbered as C would number them alone.** -/
theorem enumLoop_eq (heval : PythonEval eval) {fs : List Fragment} (hfs : ∀ f ∈ fs, f.Wf)
    (hgood : ∀ f ∈ fs, ∀ m ∈ f.member, names m.name = true → f.Plain ∧ m.Evaluable)
    (n : ℤ) (k : ℕ) {r : Indices} (hr : r.Keyed) :
    enumLoop eval names (fs.map fun f => seen f.segs) n k r
      = numberAll n (asked names (membersFrom k fs)) r := by
  induction fs generalizing n k r with
  | nil => rfl
  | cons f fs ih =>
      obtain ⟨hf, hrest⟩ := List.forall_mem_cons.1 hfs
      obtain ⟨hgoodf, hgoodrest⟩ := List.forall_mem_cons.1 hgood
      rw [List.map_cons, membersFrom]
      cases hm : f.member with
      | none =>
          rw [enumLoop_skip hf _ n k (by rw [hm]; exact nofun), ih hrest hgoodrest n _ hr]
          rfl
      | some m =>
          cases hname : names m.name with
          | false =>
              have hnot : ∀ m' ∈ f.member, names m'.name = false := by
                rw [hm]
                rintro _ ⟨⟩
                exact hname
              rw [enumLoop_skip hf _ n k hnot, ih hrest hgoodrest n _ hr]
              simp [asked, hname]
          | true =>
              obtain ⟨hplain, hvalue⟩ := hgoodf m hm hname
              rw [enumLoop_record hf _ n k heval hr hm hname hplain hvalue,
                ih hrest hgoodrest _ _ (hr.record (hf.member m hm).name _ _)]
              simp [asked, hname, numberAll]

theorem numberAll_append (n : ℤ) (pre ms : List (Member × Bool)) (r : Indices) :
    numberAll n (pre ++ ms) r
      = numberAll (pre.foldl (fun v m => m.1.value.getD v + 1) n) ms (numberAll n pre r) := by
  induction pre generalizing n r with
  | nil => rfl
  | cons x pre ih => exact ih _ _

theorem numberAll_other {name : List Char} {ms : List (Member × Bool)}
    (h : ∀ x ∈ ms, x.1.name ≠ name) (n : ℤ) (r : Indices) :
    (numberAll n ms r).out.lookup name = r.out.lookup name := by
  induction ms generalizing n r with
  | nil => rfl
  | cons x ms ih =>
      obtain ⟨hx, hms⟩ := List.forall_mem_cons.1 h
      rw [numberAll, ih hms, Indices.record, lookup_setItem_of_ne (Ne.symm hx)]

theorem conditionals_subset (n : ℤ) (ms : List (Member × Bool)) (r : Indices) :
    r.conditionals ⊆ (numberAll n ms r).conditionals := by
  induction ms generalizing n r with
  | nil => exact List.Subset.refl _
  | cons x ms ih =>
      refine List.Subset.trans ?_ (ih _ _)
      unfold Indices.record
      split_ifs
      · exact List.subset_append_left _ _
      · exact List.Subset.refl _

/-- What a member gets. -/
theorem numberAll_member {pre post : List (Member × Bool)} {m : Member} {c : Bool}
    (hpost : ∀ x ∈ post, x.1.name ≠ m.name) (r : Indices) :
    (numberAll 0 (pre ++ (m, c) :: post) r).out.lookup m.name = some (cValue pre m) ∧
      (c = true → m.name ∈ (numberAll 0 (pre ++ (m, c) :: post) r).conditionals) := by
  rw [numberAll_append, numberAll]
  refine ⟨?_, ?_⟩
  · rw [numberAll_other hpost, Indices.record, lookup_setItem_self]
    rfl
  · rintro rfl
    exact conditionals_subset _ _ _ (List.mem_concat_self)

/-! ### The members of a body -/

theorem mem_membersFrom {k : ℕ} {fs : List Fragment} {x : Member × Bool}
    (h : x ∈ membersFrom k fs) : ∃ f ∈ fs, f.member = some x.1 := by
  induction fs generalizing k with
  | nil => cases h
  | cons f fs ih =>
      rcases List.mem_append.1 h with h | h
      · cases hm : f.member with
        | none =>
            rw [hm] at h
            cases h
        | some m =>
            rw [hm] at h
            obtain rfl := List.mem_singleton.1 h
            exact ⟨f, List.mem_cons_self, hm⟩
      · obtain ⟨f', hf', hm⟩ := ih h
        exact ⟨f', List.mem_cons_of_mem f hf', hm⟩

theorem exists_mem_membersFrom {fs : List Fragment} {f : Fragment} (hf : f ∈ fs) {m : Member}
    (hm : f.member = some m) (k : ℕ) : ∃ c, (m, c) ∈ membersFrom k fs := by
  induction fs generalizing k with
  | nil => cases hf
  | cons f' fs ih =>
      rcases List.mem_cons.1 hf with rfl | hf
      · refine ⟨decide (depth k f.before ≠ 0), List.mem_append_left _ ?_⟩
        rw [hm]
        exact List.mem_singleton_self _
      · obtain ⟨c, hc⟩ := ih hf (depth (depth k f'.before) f'.after)
        exact ⟨c, List.mem_append_right _ hc⟩

theorem membersFrom_distinct {fs : List Fragment} (h : fs.Pairwise fun f g =>
    ∀ m ∈ f.member, ∀ m' ∈ g.member, m.name ≠ m'.name) (k : ℕ) :
    (membersFrom k fs).Pairwise fun x y => x.1.name ≠ y.1.name := by
  induction fs generalizing k with
  | nil => exact List.Pairwise.nil
  | cons f fs ih =>
      obtain ⟨hf, hfs⟩ := List.pairwise_cons.1 h
      refine List.pairwise_append.2 ⟨?_, ih hfs _, fun x hx y hy => ?_⟩
      · cases f.member with
        | none => exact List.Pairwise.nil
        | some m => exact List.pairwise_singleton _ _
      · obtain ⟨g, hg, hgy⟩ := mem_membersFrom hy
        cases hm : f.member with
        | none =>
            rw [hm] at hx
            cases hx
        | some m =>
            rw [hm] at hx
            obtain rfl := List.mem_singleton.1 hx
            exact hf g hg m hm y.1 hgy

/-- Two fragments with a member of the same name are one. -/
theorem EnumBody.fragment_unique (body : EnumBody) {f g : Fragment} (hf : f ∈ body.fragments)
    (hg : g ∈ body.fragments) {m m' : Member} (hm : f.member = some m) (hm' : g.member = some m')
    (hname : m.name = m'.name) : f = g := by
  by_contra hne
  have hsymm : Std.Symm fun f g : Fragment =>
      ∀ m ∈ f.member, ∀ m' ∈ g.member, m.name ≠ m'.name :=
    ⟨fun f g h m hm m' hm' heq => h m' hm' m hm heq.symm⟩
  exact body.distinct.forall hf hg hne m hm m' hm' hname

/-! ### The text of an enumeration -/

/-- An enumeration with its braces. -/
def enumText (tag body : List Char) : List Char :=
  ['e', 'n', 'u', 'm', ' '] ++ (tag ++ [' ', '{'] ++ (body ++ ['}']))

theorem Seg.Wf.notMem_brace {s : Seg} (h : s.Wf) : '}' ∉ s.text := by
  cases s with
  | plain u => exact h.2
  | block t => simpa [text] using h.2
  | line t => simpa [text] using h.2.2

theorem EnumBody.notMem_brace (body : EnumBody) : '}' ∉ body.text := by
  intro hmem
  obtain ⟨s, hs, hmem⟩ := List.mem_flatMap.1 hmem
  rcases body.mem_segs hs with rfl | ⟨f, hf, hs⟩
  · revert hmem
    decide
  · exact ((body.wf f hf).segs s hs).notMem_brace hmem

/-- Behind `enum` and a tag is the brace. -/
theorem enumHead_eq {tag : List Char} (htag : tag = [] ∨ Ident tag) (rest : List Char) :
    enumHead (' ' :: (tag ++ [' ', '{'] ++ rest)) = '{' :: rest := by
  rcases htag with rfl | htag
  · rfl
  · have hspace : isSpace ' ' = true := by decide
    obtain ⟨c, tag, rfl⟩ := List.exists_cons_of_ne_nil htag.ne_nil
    have hc : isSpace c = false := isSpace_of_isIdent (htag.2 c List.mem_cons_self)
    have hstart : (c :: tag ++ ' ' :: '{' :: rest).head?.any isIdentStart = true := htag.1
    obtain ⟨-, hword⟩ := span_append htag.2 (v := ' ' :: '{' :: rest) (by
      rintro d ⟨⟩
      decide)
    have hdrop : (' ' :: (c :: tag ++ [' ', '{'] ++ rest)).dropWhile isSpace
        = c :: tag ++ ' ' :: '{' :: rest := by
      simp [hspace, hc]
    rw [enumHead, hdrop, if_pos hstart, hword]
    rfl

/-- The body is found. -/
theorem findAll_enumText {tag body : List Char} (htag : tag = [] ∨ Ident tag) (hbody : '}' ∉ body) :
    findAll enumPattern (enumText tag body) = [body] := by
  have hbrace : '}' ∈ body ++ ['}'] := List.mem_concat_self
  have htake : (body ++ ['}']).takeWhile (· ≠ '}') = body := by
    refine (span_append (fun c hc => decide_eq_true ?_) ?_).1
    · rintro rfl
      exact hbody hc
    · rintro d ⟨⟩
      decide
  have hlength : (' ' :: (tag ++ [' ', '{'] ++ (body ++ ['}']))).length + 4
      - (body ++ ['}']).length + body.length + 1 = (enumText tag body).tail.length + 1 := by
    simp only [enumText, List.cons_append, List.tail_cons, List.length_cons, List.length_append,
      List.length_nil]
    omega
  have hmatch : enumPattern none ('e' :: ((enumText tag body).tail ++ []))
      = some ((enumText tag body).tail.length + 1, body) := by
    rw [List.append_nil]
    change enumPattern none ('e' :: 'n' :: 'u' :: 'm' :: ' ' ::
      (tag ++ [' ', '{'] ++ (body ++ ['}']))) = _
    simp only [enumPattern, enumHead_eq htag, if_pos hbrace, htake, hlength]
  have hscan := scan_match hmatch
  rw [List.append_nil] at hscan
  change (scan enumPattern none 0 ('e' :: (enumText tag body).tail)).filterMap _ = _
  rw [hscan]
  rfl

/-! ### The result -/

/-- One more than the value C gives to the last of the members in `names`; 0 if there is none. -/
def afterNamed (names : List Char → Bool) (pre : List (Member × Bool)) : ℤ :=
  (pre.foldl (fun s m => (m.1.value.getD s.1 + 1,
    if names m.1.name then m.1.value.getD s.1 + 1 else s.2)) (0, 0)).2

/-- The numbers are those of C: the values of the members before which there is no conditional
one, the list of conditional members, and no member is missing. -/
structure NumbersAsC (names : List Char → Bool) (members : List (Member × Bool)) (r : Indices) :
    Prop where
  value : ∀ pre m c post, members = pre ++ (m, c) :: post → names m.name = true →
    (∀ x ∈ pre, x.2 = false) → r.out.lookup m.name = some (cValue pre m)
  conditional : ∀ m, (m, true) ∈ members → names m.name = true → m.name ∈ r.conditionals
  present : ∀ m c, (m, c) ∈ members → names m.name = true → (r.out.lookup m.name).isSome

/-- The bodies on which they are. -/
structure Readable (names : List Char → Bool) (body : EnumBody) : Prop where
  /-- Between the commas around a member in `names` there is no directive. -/
  plain : ∀ f ∈ body.fragments, ∀ m ∈ f.member, names m.name = true → f.Plain
  /-- Its value, if it has one, is a literal that Python reads. -/
  evaluable : ∀ f ∈ body.fragments, ∀ m ∈ f.member, names m.name = true → m.Evaluable
  /-- If it has none, and no conditional member is before it, its value in C follows that of
  the last member in `names`. -/
  follows : ∀ pre m c post, body.members = pre ++ (m, c) :: post → names m.name = true →
    m.init = none → (∀ x ∈ pre, x.2 = false) → nextValue pre = afterNamed names pre

theorem nextValue_concat (pre : List (Member × Bool)) (x : Member × Bool) :
    nextValue (pre ++ [x]) = cValue pre x.1 + 1 := by
  rw [nextValue, List.foldl_concat]
  rfl

theorem afterNamed_concat (names : List Char → Bool) (pre : List (Member × Bool))
    (x : Member × Bool) : afterNamed names (pre ++ [x])
      = if names x.1.name then cValue pre x.1 + 1 else afterNamed names pre := by
  have hfst : (pre.foldl (fun s m => (m.1.value.getD s.1 + 1,
      if names m.1.name then m.1.value.getD s.1 + 1 else s.2)) ((0 : ℤ), (0 : ℤ))).1
        = nextValue pre := by
    induction pre using List.reverseRecOn with
    | nil => rfl
    | append_singleton pre y ih =>
        rw [List.foldl_concat, nextValue_concat, ih]
        rfl
  rw [afterNamed, List.foldl_concat, hfst]
  rfl

/-- Numbering the members in `names` alone continues from the last of them, if it gave those
the values of C. -/
theorem nextValue_asked {ms : List (Member × Bool)}
    (h : ∀ pre m c post, ms = pre ++ (m, c) :: post → names m.name = true → m.init = none →
      nextValue (asked names pre) = afterNamed names pre →
      nextValue (asked names pre) = nextValue pre) :
    nextValue (asked names ms) = afterNamed names ms := by
  induction ms using List.reverseRecOn with
  | nil => rfl
  | append_singleton ms x ih =>
      have hms := ih fun pre m c post heq =>
        h pre m c (post ++ [x]) (by rw [heq, List.append_assoc]; rfl)
      rw [asked, List.filter_append, afterNamed_concat]
      obtain ⟨m, c⟩ := x
      cases hname : names m.name with
      | false => simpa [hname, asked] using hms
      | true =>
          have hsingle : ([(m, c)].filter fun x => names x.1.name) = [(m, c)] := by
            simp [hname]
          rw [hsingle, nextValue_concat, if_pos rfl]
          cases hi : m.init with
          | some i => simp [cValue, Member.value, hi]
          | none =>
              have heq := h ms m c [] rfl hname hi hms
              rw [asked] at heq
              rw [cValue, cValue, heq]

/-- What a member gets, when none is lost. -/
theorem numberAll_asked {body : EnumBody} {pre post : List (Member × Bool)} {m : Member} {c : Bool}
    (hmembers : body.members = pre ++ (m, c) :: post) (hname : names m.name = true) (r : Indices) :
    (numberAll 0 (asked names body.members) r).out.lookup m.name
        = some (cValue (asked names pre) m) ∧
      (c = true → m.name ∈ (numberAll 0 (asked names body.members) r).conditionals) := by
  have hasked : asked names body.members = asked names pre ++ (m, c) :: asked names post := by
    rw [hmembers, asked, List.filter_append, List.filter_cons, if_pos hname]
    rfl
  have hdistinct := membersFrom_distinct body.distinct 0
  rw [show membersFrom 0 body.fragments = _ from hmembers] at hdistinct
  have hpost : ∀ x ∈ asked names post, x.1.name ≠ m.name := by
    intro x hx
    have hpairs := (List.pairwise_append.1 hdistinct).2.1
    exact Ne.symm ((List.pairwise_cons.1 hpairs).1 x (List.mem_filter.1 hx).1)
  rw [hasked]
  exact numberAll_member hpost r

theorem enumIndices_eq {tag : List Char} (htag : tag = [] ∨ Ident tag) {body : EnumBody}
    (hclean : body.Clean) : enumIndices eval (enumText tag body.text) names
      = enumLoop eval names (body.fragments.map fun f => seen f.segs) 0 0 ⟨[], []⟩ := by
  rw [enumIndices, findAll_enumText htag body.notMem_brace, List.foldl_cons, List.foldl_nil,
    hclean.pieces]

/-- **`enum_indices` numbers the members as C does exactly on the readable bodies.**  For every
enumeration in which no line comment seems to start a block comment and no condition has a
comma, and every set of names: the members asked for get their values, the conditional ones
are listed and none is missing, if and only if each of them is alone between its commas, with
a literal that Python reads, or else following the last member asked for. -/
theorem enumIndices_iff (heval : PythonEval eval) (names : List Char → Bool) {tag : List Char}
    (htag : tag = [] ∨ Ident tag) {body : EnumBody} (hclean : body.Clean) :
    NumbersAsC names body.members (enumIndices eval (enumText tag body.text) names) ↔
      Readable names body := by
  have hkeyed : Indices.Keyed ⟨[], []⟩ := List.forall_mem_nil _
  have hnumber (hgood : ∀ f ∈ body.fragments, ∀ m ∈ f.member, names m.name = true →
      f.Plain ∧ m.Evaluable) : enumIndices eval (enumText tag body.text) names
        = numberAll 0 (asked names body.members) ⟨[], []⟩ :=
    (enumIndices_eq htag hclean).trans (enumLoop_eq heval body.wf hgood 0 0 hkeyed)
  -- A member of `pre`, where `pre` is in front of another member.
  have hbefore {pre pre' post post' : List (Member × Bool)} {x x' : Member × Bool}
      (hmembers : body.members = pre ++ x :: post) (hpre : pre = pre' ++ x' :: post') :
      body.members = pre' ++ x' :: (post' ++ x :: post) := by
    rw [hmembers, hpre, List.append_assoc]
    rfl
  constructor
  · intro h
    have hgood : ∀ f ∈ body.fragments, ∀ m ∈ f.member, names m.name = true →
        f.Plain ∧ m.Evaluable := by
      intro f hf m hm hname
      obtain ⟨c, hc⟩ := exists_mem_membersFrom hf hm 0
      have hpresent := h.present m c hc hname
      rw [enumIndices_eq htag hclean] at hpresent
      rcases enumLoop_recorded heval body.wf hkeyed hpresent with
        hnone | ⟨g, hg, m', hm', heq, hgood⟩
      · cases hnone
      · obtain rfl := body.fragment_unique hf hg hm hm' heq.symm
        obtain rfl : m = m' := Option.some.inj (hm.symm.trans hm')
        exact hgood
    rw [hnumber hgood] at h
    refine ⟨fun f hf m hm hname => (hgood f hf m hm hname).1,
      fun f hf m hm hname => (hgood f hf m hm hname).2, ?_⟩
    -- What the script gives to a member without value is what C gives to it.
    have hvalue {pre post : List (Member × Bool)} {m : Member} {c : Bool}
        (hmembers : body.members = pre ++ (m, c) :: post) (hname : names m.name = true)
        (hinit : m.init = none) (hpre : ∀ x ∈ pre, x.2 = false) :
        nextValue (asked names pre) = nextValue pre := by
      have hlookup := (numberAll_asked hmembers hname ⟨[], []⟩).1
      have hsame := Option.some.inj (hlookup.symm.trans (h.value pre m c post hmembers hname hpre))
      simpa [cValue, Member.value, hinit] using hsame
    intro pre m c post hmembers hname hinit hpre
    rw [← hvalue hmembers hname hinit hpre]
    refine nextValue_asked fun pre' m' c' post' hpre' hname' hinit' _ => ?_
    exact hvalue (hbefore hmembers hpre') hname' hinit'
      fun x hx => hpre x (hpre' ▸ List.mem_append_left _ hx)
  · intro h
    rw [hnumber fun f hf m hm hname => ⟨h.plain f hf m hm hname, h.evaluable f hf m hm hname⟩]
    refine ⟨fun pre m c post hmembers hname hpre => ?_, fun m hm hname => ?_,
      fun m c hm hname => ?_⟩
    · rw [(numberAll_asked hmembers hname _).1]
      cases hinit : m.init with
      | some i => simp [cValue, Member.value, hinit]
      | none =>
          have hasked : nextValue (asked names pre) = afterNamed names pre := by
            refine nextValue_asked fun pre' m' c' post' hpre' hname' hinit' heq => ?_
            rw [heq]
            exact (h.follows pre' m' c' _ (hbefore hmembers hpre') hname' hinit'
              fun x hx => hpre x (hpre' ▸ List.mem_append_left _ hx)).symm
          rw [cValue, cValue, hasked, h.follows pre m c post hmembers hname hinit hpre]
    · obtain ⟨pre, post, hmembers⟩ := List.append_of_mem hm
      exact (numberAll_asked hmembers hname _).2 rfl
    · obtain ⟨pre, post, hmembers⟩ := List.append_of_mem hm
      rw [(numberAll_asked hmembers hname _).1]
      rfl

/-! ### Two enumerations -/

/-- The members asked for start with `BIO_`. -/
def bioNames (name : List Char) : Bool := ['B', 'I', 'O', '_'].isPrefixOf name

/-- A fragment with a member on a line of its own. -/
def onLine (before : List Gap) (name : List Char) (init : Option Init) : Fragment :=
  ⟨.seg (.plain ['\n']) :: before ++ [.seg (.plain ['\t'])], some ⟨name, init⟩, []⟩

/-- `#ifdef X//x`. -/
def ifdefX : Directive := ⟨[], .ifdef, [.plain [' ', 'X']], some ['x']⟩

/-- `# endif`. -/
def endif : Directive := ⟨[.plain [' ']], .endif, [], none⟩

/-- `BIO_A`, `BIO_B =0x10UL`, inside a conditional `X` and `BIO_C`, and `Y` behind it, with
comments that have commas. -/
def readableBody : EnumBody where
  fragments := [
    onLine [.seg (.block ['a', ','])] ['B', 'I', 'O', '_', 'A'] none,
    onLine [.seg (.line ['b', ','])] ['B', 'I', 'O', '_', 'B']
      (some ⟨[.plain [' ']], [], ⟨.hex, ['1', '0'], ['U', 'L']⟩⟩),
    onLine [.directive ifdefX] ['X'] none,
    onLine [] ['B', 'I', 'O', '_', 'C'] none,
    onLine [.directive endif] ['Y'] none]
  fragments_ne := List.cons_ne_nil _ _
  wf := by decide
  distinct := by decide

/-- Its members are numbered as in C; `BIO_C` is the conditional one. -/
theorem readableBody_numbered : NumbersAsC bioNames readableBody.members
    (enumIndices evalInt (enumText ['b'] readableBody.text) bioNames) := by
  have hclean : readableBody.Clean := ⟨by decide, by decide⟩
  refine (enumIndices_iff pythonEval_evalInt bioNames (.inr (by decide)) hclean).2
    ⟨?_, ?_, ?_⟩
  · unfold Fragment.Plain
    decide
  · unfold Member.Evaluable
    decide
  · intro pre m c post hmembers hname hinit hpre
    -- The members without value are `BIO_A`, and those from the first conditional one on.
    rcases pre with _ | ⟨a, _ | ⟨b, _ | ⟨x, pre⟩⟩⟩
    · rfl
    · cases hmembers
      cases hinit
    · cases hmembers
      cases hname
    · have hthird : readableBody.members[2]?.map Prod.snd = some true := by decide
      rw [hmembers] at hthird
      have hx : x.2 = true := by simpa using hthird
      rw [hpre x (by simp)] at hx
      cases hx

/-- `BIO_A`, `X`, `BIO_B`, inside a conditional `BIO_C`, and `BIO_D` behind it. -/
def skippedBody : EnumBody where
  fragments := [
    onLine [] ['B', 'I', 'O', '_', 'A'] none,
    onLine [] ['X'] none,
    onLine [] ['B', 'I', 'O', '_', 'B'] none,
    onLine [.directive ifdefX] ['B', 'I', 'O', '_', 'C'] none,
    onLine [.directive endif] ['B', 'I', 'O', '_', 'D'] none]
  fragments_ne := List.cons_ne_nil _ _
  wf := by decide
  distinct := by decide

/-- `BIO_B` gets 1, and has 2 in C; `BIO_C` and `BIO_D` are missing. -/
theorem skippedBody_misnumbered :
    enumIndices evalInt (enumText ['b'] skippedBody.text) bioNames
        = ⟨[(['B', 'I', 'O', '_', 'A'], 0), (['B', 'I', 'O', '_', 'B'], 1)], []⟩ ∧
      ¬NumbersAsC bioNames skippedBody.members
        (enumIndices evalInt (enumText ['b'] skippedBody.text) bioNames) := by
  have hresult : enumIndices evalInt (enumText ['b'] skippedBody.text) bioNames
      = ⟨[(['B', 'I', 'O', '_', 'A'], 0), (['B', 'I', 'O', '_', 'B'], 1)], []⟩ := by
    decide +kernel
  refine ⟨hresult, fun h => ?_⟩
  have hvalue := h.value (skippedBody.members.take 2) ⟨['B', 'I', 'O', '_', 'B'], none⟩ false
    (skippedBody.members.drop 3) (by decide) (by decide) (by decide)
  rw [hresult] at hvalue
  exact absurd hvalue (by decide)

end Scripts
end Shannon
