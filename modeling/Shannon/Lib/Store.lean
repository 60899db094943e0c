/-
# Byte memory and block copies

A memory is a function from addresses to bytes.  `copy m dst src n` is
`memcpy`, and a `Chunk` is one such copy.  `storeAll m ds vs` stores the values
`vs` at the addresses `ds` one after the other, so that an address that occurs
twice keeps the later value.

`copyAll_eq` turns a sequence of copies into one store: when no byte is both
read and written, copying the chunks one after the other stores the bytes read
from the initial memory, in order.  Where no address is written twice they can
be read back (`map_storeAll`), and everything else is unchanged
(`storeAll_of_notMem`).
-/

import Mathlib.Data.List.Nodup
import Mathlib.Data.List.Range
import Mathlib.Logic.Function.Basic

namespace Shannon
namespace Lib

variable {β : Type*}

/-- `memcpy(dst, src, n)`. -/
def copy (m : ℕ → β) (dst src n : ℕ) : ℕ → β := fun a =>
  if dst ≤ a ∧ a < dst + n then m (src + (a - dst)) else m a

/-- Store the values at the addresses, one after the other. -/
def storeAll : (ℕ → β) → List ℕ → List β → ℕ → β
  | m, d :: ds, v :: vs => storeAll (Function.update m d v) ds vs
  | m, _, _ => m

@[simp] theorem storeAll_nil (m : ℕ → β) (vs : List β) : storeAll m [] vs = m := by
  cases vs <;> rfl

theorem storeAll_append {ds es : List ℕ} {vs ws : List β} (h : ds.length = vs.length)
    (m : ℕ → β) : storeAll m (ds ++ es) (vs ++ ws) = storeAll (storeAll m ds vs) es ws := by
  induction ds generalizing m vs with
  | nil =>
      obtain rfl := List.eq_nil_of_length_eq_zero h.symm
      rfl
  | cons d ds ih =>
      cases vs with
      | nil => simp at h
      | cons v vs => exact ih (by simpa using h) _

theorem storeAll_of_notMem {ds : List ℕ} {a : ℕ} (ha : a ∉ ds) (m : ℕ → β) (vs : List β) :
    storeAll m ds vs a = m a := by
  induction ds generalizing m vs with
  | nil => rw [storeAll_nil]
  | cons d ds ih =>
      rw [List.mem_cons, not_or] at ha
      cases vs with
      | nil => rfl
      | cons v vs => rw [storeAll, ih ha.2, Function.update_of_ne ha.1]

/-- What an address holds after a store does not depend on what it held before. -/
theorem storeAll_congr {ds : List ℕ} {vs : List β} (h : ds.length = vs.length) {a : ℕ}
    (ha : a ∈ ds) (m m' : ℕ → β) : storeAll m ds vs a = storeAll m' ds vs a := by
  induction ds generalizing m m' vs with
  | nil => cases ha
  | cons d ds ih =>
      cases vs with
      | nil => simp at h
      | cons v vs =>
          by_cases hmem : a ∈ ds
          · exact ih (by simpa using h) hmem _ _
          · obtain rfl : a = d := (List.mem_cons.1 ha).resolve_right hmem
            rw [storeAll, storeAll, storeAll_of_notMem hmem, storeAll_of_notMem hmem,
              Function.update_self, Function.update_self]

/-- Addresses that occur once hold what was stored there. -/
theorem map_storeAll {ds : List ℕ} {vs : List β} (hd : ds.Nodup) (h : ds.length = vs.length)
    (m : ℕ → β) : ds.map (storeAll m ds vs) = vs := by
  induction ds generalizing m vs with
  | nil => exact (List.eq_nil_of_length_eq_zero h.symm).symm
  | cons d ds ih =>
      obtain ⟨hnot, hd⟩ := List.nodup_cons.1 hd
      cases vs with
      | nil => simp at h
      | cons v vs =>
          rw [List.map_cons, storeAll, ih hd (by simpa using h), storeAll_of_notMem hnot,
            Function.update_self]

/-- A copy stores the bytes read from the memory before it. -/
theorem copy_eq_storeAll (m : ℕ → β) (dst src n : ℕ) :
    copy m dst src n = storeAll m (List.range' dst n) ((List.range' src n).map m) := by
  have hmap : (List.range' dst n).map
      (storeAll m (List.range' dst n) ((List.range' src n).map m)) = (List.range' src n).map m :=
    map_storeAll List.nodup_range' (by simp) m
  funext a
  by_cases ha : dst ≤ a ∧ a < dst + n
  · have hget := congrArg (fun l => l[a - dst]?) hmap
    have hlt : a - dst < n := by omega
    simp only [List.getElem?_map, List.getElem?_range' hlt, Option.map_some, Nat.one_mul,
      Option.some.injEq, show dst + (a - dst) = a by omega] at hget
    rw [hget, copy, if_pos ha]
  · rw [copy, if_neg ha, storeAll_of_notMem]
    rw [List.mem_range'_1]
    exact ha

/-! ### Sequences of copies -/

/-- One copy of `len` bytes from `src` to `dst`. -/
structure Chunk where
  dst : ℕ
  src : ℕ
  len : ℕ

/-- The addresses the chunks write, in order. -/
def dsts (cs : List Chunk) : List ℕ := cs.flatMap fun c => List.range' c.dst c.len

/-- The addresses the chunks read, in order. -/
def srcs (cs : List Chunk) : List ℕ := cs.flatMap fun c => List.range' c.src c.len

/-- Copy the chunks, one after the other. -/
def copyAll (m : ℕ → β) : List Chunk → ℕ → β
  | [] => m
  | c :: cs => copyAll (copy m c.dst c.src c.len) cs

@[simp] theorem dsts_cons (c : Chunk) (cs : List Chunk) :
    dsts (c :: cs) = List.range' c.dst c.len ++ dsts cs := rfl

@[simp] theorem srcs_cons (c : Chunk) (cs : List Chunk) :
    srcs (c :: cs) = List.range' c.src c.len ++ srcs cs := rfl

theorem copyAll_append (m : ℕ → β) (cs ds : List Chunk) :
    copyAll m (cs ++ ds) = copyAll (copyAll m cs) ds := by
  induction cs generalizing m with
  | nil => rfl
  | cons c cs ih => exact ih _

/-- **Copies that read nothing they write are one store.** -/
theorem copyAll_eq {cs : List Chunk} (h : ∀ a ∈ srcs cs, a ∉ dsts cs) (m : ℕ → β) :
    copyAll m cs = storeAll m (dsts cs) ((srcs cs).map m) := by
  induction cs generalizing m with
  | nil => rfl
  | cons c cs ih =>
      rw [dsts_cons, srcs_cons] at h
      have hrest : ∀ a ∈ srcs cs, a ∉ dsts cs := fun a ha hd =>
        h a (List.mem_append_right _ ha) (List.mem_append_right _ hd)
      have hagree : ∀ a ∈ srcs cs, copy m c.dst c.src c.len a = m a := by
        intro a ha
        rw [copy_eq_storeAll, storeAll_of_notMem]
        exact fun hd => h a (List.mem_append_right _ ha) (List.mem_append_left _ hd)
      rw [dsts_cons, srcs_cons, List.map_append, storeAll_append (by simp), ← copy_eq_storeAll,
        ← List.map_congr_left hagree]
      exact ih hrest _

end Lib
end Shannon
