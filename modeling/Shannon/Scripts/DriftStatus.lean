/-
# The status column of the drift report

`scripts/kernel-flag-abi.py`, `main`: for every flag of a family one row, with the value of
the flag at each of the tags asked for, and a status.

| status       | computed when                       | printed tag             |
| ------------ | ----------------------------------- | ----------------------- |
| `?`          | no tag has a value                  |                         |
| `REMOVED@t`  | some have none, not the first tag   | the first without value |
| `ADDED@t`    | some have none, the first tag first | the first without value |
| `stable`     | all have the same one               |                         |
| `RENUMBERED` | all have one                        |                         |

One index, of the first tag without a value, serves two purposes.  For a flag that goes away
it is the tag to print.  For a flag that appears it is always the first tag of all
(`driftStatus_eq_added`), where the flag has no value.  So the column tells the truth exactly
for the rows whose first tag has a value: `driftStatus_truthful_iff`.
-/

import Mathlib.Data.Int.Notation
import Mathlib.Data.List.Dedup
import Mathlib.Data.List.Nodup
import Mathlib.Order.Basic

namespace Shannon
namespace Scripts

variable {τ : Type*}

/-- The statuses, over the tags `τ`. -/
inductive Status (τ : Type*) where
  /-- `?`. -/
  | unknown
  | added (tag : τ)
  | removed (tag : τ)
  | stable
  | renumbered
deriving DecidableEq, Repr

/-- What is printed. -/
def Status.text : Status String → String
  | .unknown => "?"
  | .added tag => "ADDED@" ++ tag
  | .removed tag => "REMOVED@" ++ tag
  | .stable => "stable"
  | .renumbered => "RENUMBERED"

/-- The places of the tags at which the flag has a value. -/
def present (vals : List (Option ℤ)) : List ℕ :=
  (vals.zipIdx.filter fun p => p.1.isSome).map Prod.snd

/-- The status of a row.  `none` is an index out of range, which Python raises. -/
def driftStatus (tags : List τ) (value : τ → Option ℤ) : Option (Status τ) :=
  let vals := tags.map value
  match present vals with
  | [] => some .unknown
  | first :: _ =>
      if (present vals).length < vals.length then
        let firstMissing := vals.findIdx fun v => v.isNone
        tags[firstMissing]?.map fun tag =>
          if first < firstMissing then .removed tag else .added tag
      else some (if vals.dedup.length = 1 then .stable else .renumbered)

/-- The status is true of the values. -/
structure Truthful (tags : List τ) (value : τ → Option ℤ) (status : Status τ) : Prop where
  /-- The flag has its first value at the tag of `ADDED`. -/
  added : ∀ t, status = .added t → ∃ i : ℕ, tags[i]? = some t ∧ (value t).isSome ∧
    ∀ j < i, ∀ u, tags[j]? = some u → value u = none
  /-- It has a value just before the tag of `REMOVED`, and none at it. -/
  removed : ∀ t, status = .removed t → ∃ (i : ℕ) (u : τ),
    tags[i]? = some u ∧ tags[i + 1]? = some t ∧ (value u).isSome ∧ value t = none
  stable : status = .stable ↔
    (∀ t ∈ tags, (value t).isSome) ∧ ∀ t ∈ tags, ∀ u ∈ tags, value t = value u
  renumbered : status = .renumbered ↔
    (∀ t ∈ tags, (value t).isSome) ∧ ¬∀ t ∈ tags, ∀ u ∈ tags, value t = value u

/-! ### What is present and what is missing -/

theorem present_length (vals : List (Option ℤ)) :
    (present vals).length = vals.countP fun v => v.isSome := by
  rw [present, List.length_map, ← List.countP_eq_length_filter]
  conv_rhs => rw [← List.zipIdx_map_fst 0 vals, List.countP_map]
  rfl

theorem present_eq_nil_iff {vals : List (Option ℤ)} : present vals = [] ↔ ∀ v ∈ vals, v = none := by
  rw [← List.length_eq_zero_iff, present_length, List.countP_eq_zero]
  simp

/-- Some tag is missing. -/
theorem present_lt_iff {vals : List (Option ℤ)} :
    (present vals).length < vals.length ↔ none ∈ vals := by
  have hle : vals.countP (fun v => v.isSome) ≤ vals.length := List.countP_le_length
  have hall : vals.countP (fun v => v.isSome) = vals.length ↔ none ∉ vals := by
    rw [List.countP_eq_length]
    constructor
    · intro hsome hnone
      exact Bool.false_ne_true (hsome none hnone)
    · intro hnone v hv
      rw [Option.isSome_iff_ne_none]
      rintro rfl
      exact hnone hv
  rw [present_length]
  by_cases hnone : none ∈ vals
  · have hne := mt hall.1 (not_not.2 hnone)
    exact ⟨fun _ => hnone, fun _ => by omega⟩
  · have heq := hall.2 hnone
    exact ⟨fun hlt => absurd heq (by omega), fun hmem => absurd hmem hnone⟩

/-- The first place with a value is the first one exactly if that has a value. -/
theorem present_cons (v : Option ℤ) (vals : List (Option ℤ)) :
    present (v :: vals) = (if v.isSome then [0] else []) ++ (present vals).map (· + 1) := by
  have hshift : vals.zipIdx 1 = vals.zipIdx.map fun p => (p.1, p.2 + 1) := by
    rw [List.zipIdx_succ]
  cases v <;> simp [present, hshift, List.filter_map, Function.comp_def]

/-- All values are the same exactly if one is left without the repetitions. -/
theorem dedup_length_eq_one_iff {v : Option ℤ} {vals : List (Option ℤ)} :
    (v :: vals).dedup.length = 1 ↔ ∀ w ∈ vals, w = v := by
  constructor
  · intro hlen w hw
    obtain ⟨u, hu⟩ := List.length_eq_one_iff.1 hlen
    have hmem : ∀ x ∈ v :: vals, x = u := fun x hx => by
      rw [← List.mem_singleton, ← hu]
      exact List.mem_dedup.2 hx
    rw [hmem w (List.mem_cons_of_mem _ hw), hmem v (List.mem_cons_self ..)]
  · intro hall
    have hrep : (v :: vals).dedup = List.replicate (v :: vals).dedup.length v := by
      refine List.eq_replicate_of_mem fun w hw => ?_
      rcases List.mem_cons.1 (List.mem_dedup.1 hw) with rfl | hw
      · rfl
      · exact hall w hw
    have hle : (v :: vals).dedup.length ≤ 1 := by
      refine (@List.nodup_replicate _ _ v).1 ?_
      rw [← hrep]
      exact List.nodup_dedup _
    have hv : v ∈ (v :: vals).dedup := List.mem_dedup.2 (List.mem_cons_self ..)
    have hpos := List.length_pos_of_mem hv
    omega

/-- The tags up to the first one without a value. -/
theorem exists_first_missing {tags : List τ} {value : τ → Option ℤ}
    (hnone : ∃ t ∈ tags, value t = none) : ∃ us v vs, tags = us ++ v :: vs ∧
      (∀ u ∈ us, (value u).isSome) ∧ value v = none ∧
      (tags.map value).findIdx (fun v => v.isNone) = us.length := by
  induction tags with
  | nil =>
      obtain ⟨t, ht, -⟩ := hnone
      cases ht
  | cons t ts ih =>
      cases hvalue : value t with
      | none => exact ⟨[], t, ts, rfl, by simp, hvalue, by simp [hvalue, List.findIdx_cons]⟩
      | some x =>
          have hnone' : ∃ u ∈ ts, value u = none := by
            obtain ⟨u, hu, hu'⟩ := hnone
            rcases List.mem_cons.1 hu with rfl | hu
            · rw [hvalue] at hu'
              cases hu'
            · exact ⟨u, hu, hu'⟩
          obtain ⟨us, v, vs, rfl, hus, hv, hidx⟩ := ih hnone'
          refine ⟨t :: us, v, vs, rfl, fun u hu => ?_, hv, ?_⟩
          · rcases List.mem_cons.1 hu with rfl | hu
            · rw [hvalue]
              rfl
            · exact hus u hu
          · rw [List.map_cons, List.findIdx_cons, hvalue, hidx]
            rfl

/-! ### The status of a row -/

/-- A tag without a value. -/
theorem not_all_some {tags : List τ} {value : τ → Option ℤ} {t : τ} (ht : t ∈ tags)
    (hvalue : value t = none) : ¬∀ t ∈ tags, (value t).isSome := by
  intro hall
  have hsome := hall t ht
  rw [hvalue] at hsome
  cases hsome

/-- The status when some tag has a value and some tag has none. -/
theorem driftStatus_of_missing {tags : List τ} {value : τ → Option ℤ} {first : ℕ} {rest : List ℕ}
    (hpresent : present (tags.map value) = first :: rest) (hnone : none ∈ tags.map value) :
    driftStatus tags value = tags[(tags.map value).findIdx fun v => v.isNone]?.map fun tag =>
      if first < (tags.map value).findIdx (fun v => v.isNone) then .removed tag
      else .added tag := by
  have hlt := present_lt_iff.2 hnone
  rw [hpresent] at hlt
  simp only [driftStatus, hpresent]
  rw [if_pos hlt]

/-- **A flag that appears.**  The tag is always the first one. -/
theorem driftStatus_eq_added {t : τ} {ts : List τ} {value : τ → Option ℤ} (ht : value t = none)
    (hsome : ∃ u ∈ ts, (value u).isSome) : driftStatus (t :: ts) value = some (.added t) := by
  have hpresent : present (ts.map value) ≠ [] := by
    rw [ne_eq, present_eq_nil_iff]
    intro hnone
    obtain ⟨u, hu, hu'⟩ := hsome
    rw [hnone _ (List.mem_map_of_mem hu)] at hu'
    cases hu'
  obtain ⟨first, rest, hfirst⟩ := List.exists_cons_of_ne_nil hpresent
  have hcons : present ((t :: ts).map value) = (first + 1) :: rest.map (· + 1) := by
    rw [List.map_cons, present_cons, hfirst, ht]
    rfl
  rw [driftStatus_of_missing hcons (by simp [ht])]
  simp [ht, List.findIdx_cons]

/-- **A flag that goes away.**  It has a value at the tag before the one printed, and none
there. -/
theorem driftStatus_eq_removed {t : τ} {ts : List τ} {value : τ → Option ℤ}
    (ht : (value t).isSome) (hnone : ∃ u ∈ ts, value u = none) :
    ∃ (i : ℕ) (u v : τ), (t :: ts)[i]? = some u ∧ (t :: ts)[i + 1]? = some v ∧
      (value u).isSome ∧ value v = none ∧ driftStatus (t :: ts) value = some (.removed v) := by
  have hcons : present ((t :: ts).map value) = 0 :: (present (ts.map value)).map (· + 1) := by
    rw [List.map_cons, present_cons, if_pos ht]
    rfl
  have hnone' : ∃ u ∈ t :: ts, value u = none := by
    obtain ⟨u, hu, hu'⟩ := hnone
    exact ⟨u, List.mem_cons_of_mem _ hu, hu'⟩
  have hmem : none ∈ (t :: ts).map value := by
    obtain ⟨u, hu, hu'⟩ := hnone'
    exact hu' ▸ List.mem_map_of_mem hu
  rw [driftStatus_of_missing hcons hmem]
  obtain ⟨us, v, vs, hsplit, hus, hv, hidx⟩ := exists_first_missing hnone'
  rw [hidx, hsplit]
  rcases List.eq_nil_or_concat us with rfl | ⟨us, u, rfl⟩
  · -- The first tag itself has a value.
    obtain rfl := (List.cons.inj hsplit).1
    rw [hv] at ht
    cases ht
  · refine ⟨us.length, u, v, by simp, ?_, hus u (by simp), hv, ?_⟩
    · rw [List.getElem?_append_right (by simp)]
      simp
    · rw [List.getElem?_append_right (Nat.le_refl _)]
      simp

/-- The status when all tags have a value. -/
theorem driftStatus_of_all {t : τ} {ts : List τ} {value : τ → Option ℤ}
    (hall : ∀ u ∈ t :: ts, (value u).isSome) : driftStatus (t :: ts) value =
      some (if ∀ u ∈ ts, value u = value t then .stable else .renumbered) := by
  have hcons : present ((t :: ts).map value) = 0 :: (present (ts.map value)).map (· + 1) := by
    rw [List.map_cons, present_cons, if_pos (hall t (List.mem_cons_self ..))]
    rfl
  have hlen : ¬(present ((t :: ts).map value)).length < ((t :: ts).map value).length := by
    rw [present_lt_iff, List.mem_map]
    rintro ⟨u, hu, hu'⟩
    have hsome := hall u hu
    rw [hu'] at hsome
    cases hsome
  have hsame : ((t :: ts).map value).dedup.length = 1 ↔ ∀ u ∈ ts, value u = value t := by
    rw [List.map_cons, dedup_length_eq_one_iff, List.forall_mem_map]
  rw [hcons] at hlen
  simp only [driftStatus, hcons]
  rw [if_neg hlen]
  simp only [hsame]

theorem all_same_iff {t : τ} {ts : List τ} {value : τ → Option ℤ} :
    (∀ u ∈ t :: ts, ∀ v ∈ t :: ts, value u = value v) ↔ ∀ u ∈ ts, value u = value t := by
  constructor
  · intro hsame u hu
    exact hsame u (List.mem_cons_of_mem _ hu) t (List.mem_cons_self ..)
  · intro hsame
    have heq : ∀ u ∈ t :: ts, value u = value t := by
      intro u hu
      rcases List.mem_cons.1 hu with rfl | hu
      · rfl
      · exact hsame u hu
    intro u hu v hv
    rw [heq u hu, heq v hv]

/-- **The column tells the truth exactly if the first tag has a value.**  For any tags, and any
values at them of which there is at least one. -/
theorem driftStatus_truthful_iff (tags : List τ) (value : τ → Option ℤ)
    (hpresent : ∃ t ∈ tags, (value t).isSome) :
    ∃ status, driftStatus tags value = some status ∧
      (Truthful tags value status ↔ ∀ t, tags.head? = some t → (value t).isSome) := by
  cases tags with
  | nil =>
      obtain ⟨t, ht, -⟩ := hpresent
      cases ht
  | cons t ts =>
      simp only [List.head?_cons, Option.some.injEq, forall_eq']
      by_cases ht : (value t).isSome
      · by_cases hnone : ∃ u ∈ ts, value u = none
        · obtain ⟨i, u, v, hu, hv, husome, hvnone, hstatus⟩ := driftStatus_eq_removed ht hnone
          have hnot := not_all_some (List.mem_of_getElem? hv) hvnone
          refine ⟨_, hstatus, fun _ => ht, fun _ => ⟨?_, ?_, ?_, ?_⟩⟩
          · rintro w ⟨⟩
          · rintro w ⟨⟩
            exact ⟨i, u, hu, hv, husome, hvnone⟩
          · exact ⟨nofun, fun h => absurd h.1 hnot⟩
          · exact ⟨nofun, fun h => absurd h.1 hnot⟩
        · have hall : ∀ u ∈ t :: ts, (value u).isSome := by
            intro u hu
            rcases List.mem_cons.1 hu with rfl | hu
            · exact ht
            · exact Option.isSome_iff_ne_none.2 fun hu' => hnone ⟨u, hu, hu'⟩
          refine ⟨_, driftStatus_of_all hall, fun _ => ht, fun _ => ⟨?_, ?_, ?_, ?_⟩⟩
          · intro w hw
            split_ifs at hw
          · intro w hw
            split_ifs at hw
          · rw [all_same_iff]
            split_ifs with hsame
            · exact ⟨fun _ => ⟨hall, hsame⟩, fun _ => rfl⟩
            · exact ⟨nofun, fun h => absurd h.2 hsame⟩
          · rw [all_same_iff]
            split_ifs with hsame
            · exact ⟨nofun, fun h => absurd hsame h.2⟩
            · exact ⟨fun _ => ⟨hall, hsame⟩, fun _ => rfl⟩
      · have htnone : value t = none := Option.not_isSome_iff_eq_none.1 ht
        have hsome : ∃ u ∈ ts, (value u).isSome := by
          obtain ⟨u, hu, hu'⟩ := hpresent
          rcases List.mem_cons.1 hu with rfl | hu
          · exact absurd hu' ht
          · exact ⟨u, hu, hu'⟩
        refine ⟨_, driftStatus_eq_added htnone hsome, fun htrue => ?_, fun h => absurd h ht⟩
        obtain ⟨i, -, hvalue, -⟩ := htrue.added t rfl
        exact absurd hvalue ht

/-- A flag that is there at both tags, with one value. -/
theorem driftStatus_truthful_stable :
    Truthful ["v5.15", "v6.19"] (fun _ => some 3) .stable := by
  obtain ⟨status, hstatus, htruthful⟩ :=
    driftStatus_truthful_iff ["v5.15", "v6.19"] (fun _ => some 3) ⟨"v5.15", by simp, rfl⟩
  have hstable : driftStatus ["v5.15", "v6.19"] (fun _ => some 3) = some .stable := by decide
  obtain rfl := Option.some.inj (hstable.symm.trans hstatus)
  exact htruthful.2 fun _ _ => rfl

/-- A flag that v6.19 has and v5.15 has not is reported as added at v5.15. -/
theorem driftStatus_untruthful :
    driftStatus ["v5.15", "v6.19"] (fun t => if t = "v6.19" then some 3 else none)
        = some (.added "v5.15") ∧
      ¬Truthful ["v5.15", "v6.19"] (fun t => if t = "v6.19" then some 3 else none)
        (.added "v5.15") := by
  refine ⟨driftStatus_eq_added (by decide) ⟨"v6.19", by simp, by decide⟩, fun htrue => ?_⟩
  obtain ⟨i, -, hvalue, -⟩ := htrue.added "v5.15" rfl
  exact Bool.false_ne_true hvalue

end Scripts
end Shannon
