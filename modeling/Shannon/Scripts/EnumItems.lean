/-
# What the script takes for a member

`enum_indices` squeezes a piece of the text and matches it with a name and a value.  On a
fragment (`Shannon.Scripts.EnumText`) without directives it finds the member (`Wf.read`).  A
directive is one piece of text with the member next to it, so with one the piece starts with
`#`, or it does not match, or `#` is in the value (`Wf.read_glued`).  If anything is found it
has the name of the member (`Wf.read_name`).
-/

import Shannon.Scripts.EnumReading

namespace Shannon
namespace Scripts

open Lib

/-- Gaps without a directive are blank, and a directive is the first thing in its gaps that is
not. -/
theorem gaps_seen {gaps : List Gap} (hwf : ∀ g ∈ gaps, g.Wf) :
    ((∀ g ∈ gaps, g.isDirective = false) ∧
      ∀ c ∈ seen (gaps.flatMap Gap.segs), isSpace c = true) ∨
    ((∃ g ∈ gaps, g.isDirective = true) ∧ ∃ b u,
      seen (gaps.flatMap Gap.segs) = b ++ '#' :: u ∧ ∀ c ∈ b, isSpace c = true) := by
  induction gaps with
  | nil => exact .inl ⟨List.forall_mem_nil _, List.forall_mem_nil _⟩
  | cons g gaps ih =>
      obtain ⟨hg, hgaps⟩ := List.forall_mem_cons.1 hwf
      rw [List.flatMap_cons, seen_append]
      cases g with
      | seg s =>
          have hspace (c : Char) (hc : c ∈ seen [s]) : isSpace c = true :=
            isSpace_of_isBlank (isBlank_seen (List.forall_mem_singleton.2 hg) hc)
          rcases ih hgaps with ⟨hnone, hall⟩ | ⟨⟨g, hmem, hdir⟩, b, u, heq, hb⟩
          · refine .inl ⟨List.forall_mem_cons.2 ⟨rfl, hnone⟩, fun c hc => ?_⟩
            exact (List.mem_append.1 hc).elim (hspace c) (hall c)
          · refine .inr ⟨⟨g, List.mem_cons_of_mem _ hmem, hdir⟩, seen [s] ++ b, u, ?_,
              fun c hc => ?_⟩
            · rw [heq, List.append_assoc]
              rfl
            · exact (List.mem_append.1 hc).elim (hspace c) (hb c)
      | directive d =>
          refine .inr ⟨⟨_, List.mem_cons_self, rfl⟩, [], ?_⟩
          rw [Gap.segs, Directive.seen_segs, Directive.line, List.cons_append, List.cons_append]
          exact ⟨_, rfl, List.forall_mem_nil _⟩

theorem gaps_blank {gaps : List Gap} (hwf : ∀ g ∈ gaps, g.Wf)
    (hnone : ∀ g ∈ gaps, g.isDirective = false) :
    ∀ c ∈ seen (gaps.flatMap Gap.segs), isSpace c = true := by
  rcases gaps_seen hwf with ⟨-, hall⟩ | ⟨⟨g, hg, hdir⟩, -⟩
  · exact hall
  · rw [hnone g hg] at hdir
    cases hdir

theorem hash_mem_gaps {gaps : List Gap} (hwf : ∀ g ∈ gaps, g.Wf)
    (hsome : ∃ g ∈ gaps, g.isDirective = true) : '#' ∈ seen (gaps.flatMap Gap.segs) := by
  rcases gaps_seen hwf with ⟨hnone, -⟩ | ⟨-, b, u, heq, -⟩
  · obtain ⟨g, hg, hdir⟩ := hsome
    rw [hnone g hg] at hdir
    cases hdir
  · rw [heq]
    exact List.mem_append_right b List.mem_cons_self

/-- What starts behind blanks with `#`, or is blank, is no member. -/
theorem parseItem_hash {b : List Char} (hb : ∀ c ∈ b, isSpace c = true) (u : List Char) :
    parseItem (squeeze isSpace ' ' (b ++ '#' :: u)) = none := by
  rw [squeeze_append_blank hb, squeeze_cons (by decide), parseItem, List.head?_cons,
    Option.any_some]
  exact if_neg (by decide)

theorem parseItem_blank {b : List Char} (hb : ∀ c ∈ b, isSpace c = true) :
    parseItem (squeeze isSpace ' ' b) = none := by
  rw [squeeze_blank hb]
  rfl

theorem parseItem_gaps {gaps : List Gap} (hwf : ∀ g ∈ gaps, g.Wf) {b : List Char}
    (hb : ∀ c ∈ b, isSpace c = true) :
    parseItem (squeeze isSpace ' ' (b ++ seen (gaps.flatMap Gap.segs))) = none := by
  rw [squeeze_append_blank hb]
  rcases gaps_seen hwf with ⟨-, hall⟩ | ⟨-, b', u, heq, hb'⟩
  · exact parseItem_blank hall
  · rw [heq]
    exact parseItem_hash hb' u

/-- A name alone. -/
theorem parseItem_bare {name : List Char} (hname : Ident name) :
    parseItem name = some (name, none) := by
  obtain ⟨htake, hdrop⟩ := span_append (v := []) hname.2 nofun
  rw [List.append_nil] at htake hdrop
  rw [parseItem, if_pos hname.1]
  simp only [htake, hdrop]

/-- A name with a value. -/
theorem parseItem_init {name b b' e : List Char} (hname : Ident name)
    (hb : ∀ c ∈ b, isSpace c = true) (hb' : ∀ c ∈ b', isSpace c = true) {c : Char}
    (hc : isSpace c = false) :
    parseItem (name ++ (b ++ '=' :: (b' ++ c :: e))) = some (name, some (c :: e)) := by
  have hnotIdent : ∀ d ∈ (b ++ '=' :: (b' ++ c :: e)).head?, isIdent d = false := by
    intro d hd
    rw [Bool.eq_false_iff]
    intro hident
    have hspace := isSpace_of_isIdent hident
    cases b with
    | nil =>
        obtain rfl : '=' = d := Option.some.inj hd
        exact absurd hident (by decide)
    | cons a b =>
        obtain rfl : a = d := Option.some.inj hd
        rw [hb a List.mem_cons_self] at hspace
        cases hspace
  obtain ⟨htake, hdrop⟩ := span_append hname.2 hnotIdent
  have hhead : (name ++ (b ++ '=' :: (b' ++ c :: e))).head?.any isIdentStart = true := by
    obtain ⟨a, rest, rfl⟩ := List.exists_cons_of_ne_nil hname.ne_nil
    exact hname.1
  have hequals : (b ++ '=' :: (b' ++ c :: e)).dropWhile isSpace = '=' :: (b' ++ c :: e) := by
    rw [List.dropWhile_append_of_pos hb, List.dropWhile_cons, if_neg (by decide)]
  have hvalue : (b' ++ c :: e).dropWhile isSpace = c :: e := by
    rw [List.dropWhile_append_of_pos hb', List.dropWhile_cons, hc, if_neg Bool.false_ne_true]
  rw [parseItem, if_pos hhead]
  simp only [htake, hdrop]
  cases b with
  | nil =>
      rw [List.nil_append] at hequals ⊢
      simp only [hequals, hvalue, if_neg (List.cons_ne_nil c e)]
  | cons a b =>
      rw [List.cons_append] at hequals ⊢
      simp only [hequals, hvalue, if_neg (List.cons_ne_nil c e)]

/-- What an item that matches looks like. -/
theorem parseItem_some {item name : List Char} {init : Option (List Char)}
    (h : parseItem item = some (name, init)) : name = item.takeWhile isIdent ∧
      ((init = none ∧ item = name) ∨ ∃ b b' e, init = some e ∧
        item = name ++ (b ++ '=' :: (b' ++ e)) ∧
        (∀ c ∈ b, isSpace c = true) ∧ ∀ c ∈ b', isSpace c = true) := by
  have hspan := List.takeWhile_append_dropWhile (p := isIdent) (l := item)
  unfold parseItem at h
  split_ifs at h with hhead
  split at h
  · next hnil =>
      obtain ⟨rfl, rfl⟩ := Prod.mk.inj (Option.some.inj h)
      rw [hnil, List.append_nil] at hspan
      exact ⟨rfl, .inl ⟨rfl, hspan.symm⟩⟩
  · split at h
    · next init' hequals =>
        dsimp only at h
        split_ifs at h with hempty
        obtain ⟨rfl, rfl⟩ := Prod.mk.inj (Option.some.inj h)
        refine ⟨rfl, .inr ⟨(item.dropWhile isIdent).takeWhile isSpace, init'.takeWhile isSpace, _,
          rfl, ?_, fun c => List.mem_takeWhile_imp, fun c => List.mem_takeWhile_imp⟩⟩
        rw [List.takeWhile_append_dropWhile, ← hequals, List.takeWhile_append_dropWhile, hspan]
    · cases h

/-- What is read behind the name of a member. -/
def Fragment.tail (f : Fragment) (m : Member) : List Char :=
  (m.init.map fun i => seen i.segs).getD [] ++ seen (f.after.flatMap Gap.segs)

theorem Fragment.squeeze_seen {f : Fragment} (h : f.Wf) {m : Member} (hm : f.member = some m)
    (hbefore : ∀ c ∈ seen (f.before.flatMap Gap.segs), isSpace c = true) :
    squeeze isSpace ' ' (seen f.segs) = m.name ++ tight isSpace ' ' (f.tail m) := by
  have hname := (h.member m hm).name
  rw [seen_segs, squeeze_append_blank hbefore, hm, Option.map_some, Option.getD_some,
    Member.seen_segs, List.append_assoc,
    squeeze_append (fun c hc => isSpace_of_isIdent (hname.2 c hc)) hname.ne_nil]
  rfl

/-- The name ends there. -/
theorem Fragment.head_tail {f : Fragment} (h : f.Wf) {m : Member} (hm : f.member = some m)
    {d : Char} (hd : d ∈ (tight isSpace ' ' (f.tail m)).head?) : isIdent d = false := by
  have hnot {c : Char} (hc : isSpace c = true) : isIdent c = false := by
    rw [Bool.eq_false_iff]
    intro hident
    rw [isSpace_of_isIdent hident] at hc
    cases hc
  have hgaps (hd : (seen (f.after.flatMap Gap.segs)).head? = some d) : isIdent d = false := by
    rcases gaps_seen h.after with ⟨-, hall⟩ | ⟨-, b, u, heq, hb⟩
    · exact hnot (hall d (List.mem_of_head? hd))
    · rw [heq] at hd
      cases b with
      | nil =>
          obtain rfl : '#' = d := Option.some.inj hd
          decide
      | cons a b =>
          obtain rfl : a = d := Option.some.inj hd
          exact hnot (hb a List.mem_cons_self)
  rcases head_tight hd with rfl | hd
  · decide
  · rw [tail] at hd
    cases hi : m.init with
    | none =>
        rw [hi] at hd
        exact hgaps hd
    | some i =>
        have hbefore := ((h.member m hm).init i hi).before
        rw [hi, Option.map_some, Option.getD_some, Init.seen_segs, List.append_assoc,
          List.cons_append] at hd
        cases hb : seen i.before with
        | nil =>
            rw [hb] at hd
            obtain rfl : '=' = d := Option.some.inj hd
            decide
        | cons a b =>
            rw [hb] at hd
            obtain rfl : a = d := Option.some.inj hd
            refine hnot (isSpace_of_isBlank (isBlank_seen hbefore ?_))
            rw [hb]
            exact List.mem_cons_self

/-- A fragment without directives. -/
theorem Fragment.Wf.read {f : Fragment} (h : f.Wf)
    (hplain : ∀ g ∈ f.gaps, g.isDirective = false) :
    parseItem (squeeze isSpace ' ' (seen f.segs))
      = f.member.map fun m => (m.name, m.init.map fun i => i.lit.text) := by
  have hbefore := gaps_blank h.before fun g hg => hplain g (List.mem_append_left _ hg)
  have hafter := gaps_blank h.after fun g hg => hplain g (List.mem_append_right _ hg)
  cases hm : f.member with
  | none =>
      rw [seen_segs, hm]
      exact parseItem_gaps h.after hbefore
  | some m =>
      obtain ⟨hname, hinit⟩ := h.member m hm
      rw [Fragment.squeeze_seen h hm hbefore, tail, Option.map_some]
      cases hi : m.init with
      | none =>
          rw [Option.map_none, Option.getD_none, List.nil_append, tight_blank hafter,
            List.append_nil, parseItem_bare hname]
          rfl
      | some i =>
          obtain ⟨hib, hia, hlit⟩ := hinit i hi
          have hsb : ∀ c ∈ seen i.before, isSpace c = true :=
            fun c hc => isSpace_of_isBlank (isBlank_seen hib hc)
          have hsa : ∀ c ∈ seen i.after, isSpace c = true :=
            fun c hc => isSpace_of_isBlank (isBlank_seen hia hc)
          have hword : ∀ c ∈ i.lit.text, isSpace c = false :=
            fun c hc => isSpace_of_isIdent (hlit.isIdent hc)
          obtain ⟨c, e, htext⟩ := List.exists_cons_of_ne_nil hlit.text_ne_nil
          have hsep (b : List Char) : ∀ c ∈ (if b = [] then [] else [' ']), isSpace c = true := by
            split_ifs
            · exact List.forall_mem_nil _
            · exact List.forall_mem_singleton.2 (by decide)
          have hsqueeze := squeeze_append (s := ' ') hword hlit.text_ne_nil
            (seen (f.after.flatMap Gap.segs))
          rw [tight_blank hafter, List.append_nil] at hsqueeze
          rw [htext] at hword hsqueeze
          have hc := hword c List.mem_cons_self
          rw [List.cons_append] at hsqueeze
          rw [Option.map_some, Option.getD_some, Init.seen_segs, List.append_assoc,
            List.cons_append, tight_append hsb (by decide), squeeze_cons (by decide),
            List.append_assoc, htext, List.cons_append, tight_append hsa hc, hsqueeze,
            parseItem_init hname (hsep _) (hsep _) hc, Option.map_some, htext]

/-- The name that is read is that of the member. -/
theorem Fragment.Wf.read_name {f : Fragment} (h : f.Wf) {name : List Char}
    {init : Option (List Char)}
    (hread : parseItem (squeeze isSpace ' ' (seen f.segs)) = some (name, init)) :
    ∃ m, f.member = some m ∧ m.name = name := by
  rcases gaps_seen h.before with ⟨-, hbefore⟩ | ⟨-, b, u, heq, hb⟩
  · cases hm : f.member with
    | none =>
        rw [seen_segs, hm] at hread
        cases (parseItem_gaps h.after hbefore).symm.trans hread
    | some m =>
        rw [Fragment.squeeze_seen h hm hbefore] at hread
        refine ⟨m, rfl, ?_⟩
        rw [(parseItem_some hread).1]
        exact (span_append (h.member m hm).name.2 fun d => Fragment.head_tail h hm).1.symm
  · rw [seen_segs, heq, List.append_assoc] at hread
    cases (parseItem_hash hb _).symm.trans hread

/-- **With a directive, what is read has no value, or one with `#` in it.** -/
theorem Fragment.Wf.read_glued {f : Fragment} (h : f.Wf)
    (hglued : ∃ g ∈ f.gaps, g.isDirective = true) {name : List Char} {init : Option (List Char)}
    (hread : parseItem (squeeze isSpace ' ' (seen f.segs)) = some (name, init)) :
    ∃ e, init = some e ∧ '#' ∈ e := by
  have hseen : '#' ∈ seen f.segs := by
    rw [seen_segs]
    obtain ⟨g, hg, hdir⟩ := hglued
    rcases List.mem_append.1 hg with hg | hg
    · exact List.mem_append_left _ (hash_mem_gaps h.before ⟨g, hg, hdir⟩)
    · exact List.mem_append_right _ (List.mem_append_right _ (hash_mem_gaps h.after ⟨g, hg, hdir⟩))
  have hitem : '#' ∈ squeeze isSpace ' ' (seen f.segs) := mem_squeeze (by decide) hseen
  obtain ⟨hname, ⟨rfl, heq⟩ | ⟨b, b', e, rfl, heq, hb, hb'⟩⟩ := parseItem_some hread
  · rw [heq, hname] at hitem
    exact absurd (List.mem_takeWhile_imp hitem) (by decide)
  · refine ⟨e, rfl, ?_⟩
    rw [heq, List.mem_append, List.mem_append, List.mem_cons, List.mem_append] at hitem
    rcases hitem with hmem | hmem | hmem | hmem | hmem
    · rw [hname] at hmem
      exact absurd (List.mem_takeWhile_imp hmem) (by decide)
    · exact absurd (hb _ hmem) (by decide)
    · exact absurd hmem (by decide)
    · exact absurd (hb' _ hmem) (by decide)
    · exact hmem

end Scripts
end Shannon
