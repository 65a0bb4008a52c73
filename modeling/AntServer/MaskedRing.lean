/-
Rings: a queue in an array whose size is a power of two.

The `i`-th entry is in the cell `(start + i) & mask`.  The cells that no entry is in are arbitrary.

* `Holds cells mask start xs` — the ring holds `xs`;
* `Holds.push`, `Holds.set`, `Holds.tail`, `Holds.dropLast`, `Holds.build` — **what the
  operations on an array do to the queue**.
-/
import Mathlib

namespace MaskedRing

variable {α : Type*}

/-- The entry number `i` of the ring that starts at `start`; no value for a cell that was never
written. -/
def cell (cells : List (Option α)) (mask start i : ℕ) : Option α :=
  (cells[(start + i) &&& mask]?).join

structure Holds (cells : List (Option α)) (mask start : ℕ) (xs : List α) : Prop where
  size : cells.length = mask + 1
  power : ∃ k, mask + 1 = 2 ^ k
  start_le : start ≤ mask
  length_le : xs.length ≤ mask + 1
  entry : ∀ i x, xs[i]? = some x → cell cells mask start i = some x

section Index

variable {mask start i j : ℕ}

theorem and_mask (hpower : ∃ k, mask + 1 = 2 ^ k) (i : ℕ) : i &&& mask = i % (mask + 1) := by
  obtain ⟨k, hk⟩ := hpower
  rw [hk, ← Nat.and_two_pow_sub_one_eq_mod, ← hk, Nat.add_sub_cancel]

theorem and_mask_le (i : ℕ) : i &&& mask ≤ mask := Nat.and_le_right

/-- Different entries are in different cells. -/
theorem index_injective (hpower : ∃ k, mask + 1 = 2 ^ k) (hi : i < mask + 1) (hj : j < mask + 1)
    (h : (start + i) &&& mask = (start + j) &&& mask) : i = j := by
  rw [and_mask hpower, and_mask hpower] at h
  have hmod : i ≡ j [MOD mask + 1] := Nat.ModEq.add_left_cancel' start h
  rwa [Nat.ModEq, Nat.mod_eq_of_lt hi, Nat.mod_eq_of_lt hj] at hmod

theorem index_next (hpower : ∃ k, mask + 1 = 2 ^ k) :
    (((start + 1) &&& mask) + i) &&& mask = (start + (i + 1)) &&& mask := by
  rw [and_mask hpower, and_mask hpower, and_mask hpower, Nat.mod_add_mod, Nat.add_assoc,
    Nat.add_comm 1 i]

end Index

section Cells

variable {cells : List (Option α)} {mask start i j : ℕ} {x : α}

theorem cell_set_self (hsize : cells.length = mask + 1) :
    cell (cells.set ((start + i) &&& mask) (some x)) mask start i = some x := by
  have hlt : (start + i) &&& mask < cells.length := by
    rw [hsize]
    exact Nat.lt_succ_of_le (and_mask_le _)
  rw [cell, List.getElem?_set_self hlt]
  rfl

theorem cell_set_of_ne (hpower : ∃ k, mask + 1 = 2 ^ k) (hi : i < mask + 1) (hj : j < mask + 1)
    (hne : i ≠ j) :
    cell (cells.set ((start + i) &&& mask) (some x)) mask start j = cell cells mask start j := by
  rw [cell, cell, List.getElem?_set_ne fun h => hne (index_injective hpower hi hj h)]

theorem cell_next (hpower : ∃ k, mask + 1 = 2 ^ k) :
    cell cells mask ((start + 1) &&& mask) i = cell cells mask start (i + 1) := by
  rw [cell, cell, index_next hpower]

end Cells

namespace Holds

variable {cells : List (Option α)} {mask start : ℕ} {xs : List α} {x : α}

theorem lt_size (h : Holds cells mask start xs) {i : ℕ} {y : α} (hi : xs[i]? = some y) :
    i < mask + 1 :=
  ((List.getElem?_eq_some_iff.mp hi).1).trans_le h.length_le

/-- An entry behind the last one, where there is room. -/
theorem push (h : Holds cells mask start xs) (hroom : xs.length < mask + 1) (x : α) :
    Holds (cells.set ((start + xs.length) &&& mask) (some x)) mask start (xs ++ [x]) where
  size := (List.length_set ..).trans h.size
  power := h.power
  start_le := h.start_le
  length_le := by
    rw [List.length_append, List.length_singleton]
    exact hroom
  entry i y hi := by
    rcases Nat.lt_trichotomy i xs.length with hlt | rfl | hgt
    · rw [List.getElem?_append_left hlt] at hi
      rw [cell_set_of_ne h.power hroom (hlt.trans hroom) hlt.ne']
      exact h.entry i y hi
    · rw [List.getElem?_concat_length] at hi
      rw [cell_set_self h.size]
      exact hi
    · have hnone : (xs ++ [x])[i]? = none := by
        refine List.getElem?_eq_none ?_
        rw [List.length_append, List.length_singleton]
        exact hgt
      rw [hnone] at hi
      cases hi

/-- Another entry in the place of the `i`-th. -/
theorem set (h : Holds cells mask start xs) {i : ℕ} (hi : i < xs.length) (x : α) :
    Holds (cells.set ((start + i) &&& mask) (some x)) mask start (xs.set i x) where
  size := (List.length_set ..).trans h.size
  power := h.power
  start_le := h.start_le
  length_le := (List.length_set ..).trans_le h.length_le
  entry j y hj := by
    by_cases hij : i = j
    · subst hij
      rw [List.getElem?_set_self hi] at hj
      rw [cell_set_self h.size]
      exact hj
    · rw [List.getElem?_set_ne hij] at hj
      rw [cell_set_of_ne h.power (hi.trans_le h.length_le) (h.lt_size hj) hij]
      exact h.entry j y hj

/-- The first entry leaves. -/
theorem tail (h : Holds cells mask start (x :: xs)) :
    Holds cells mask ((start + 1) &&& mask) xs where
  size := h.size
  power := h.power
  start_le := and_mask_le _
  length_le := (Nat.le_succ _).trans h.length_le
  entry i y hi := by
    rw [cell_next h.power]
    exact h.entry (i + 1) y hi

/-- The last entry leaves. -/
theorem dropLast (h : Holds cells mask start (xs ++ [x])) : Holds cells mask start xs where
  size := h.size
  power := h.power
  start_le := h.start_le
  length_le := by
    have hle := h.length_le
    rw [List.length_append] at hle
    omega
  entry i y hi := by
    refine h.entry i y ?_
    rw [List.getElem?_append_left (List.getElem?_eq_some_iff.mp hi).1]
    exact hi

/-- The entries are written from the first cell on. -/
theorem build {rest : List (Option α)} (hpower : ∃ k, mask + 1 = 2 ^ k)
    (hsize : xs.length + rest.length = mask + 1) : Holds (xs.map some ++ rest) mask 0 xs where
  size := by rw [List.length_append, List.length_map, hsize]
  power := hpower
  start_le := Nat.zero_le _
  length_le := (Nat.le_add_right ..).trans hsize.le
  entry i y hi := by
    have hlt := (List.getElem?_eq_some_iff.mp hi).1
    have hcell : i < mask + 1 := by omega
    rw [cell, Nat.zero_add, and_mask hpower, Nat.mod_eq_of_lt hcell,
      List.getElem?_append_left (by rwa [List.length_map]), List.getElem?_map, hi]
    rfl

theorem start_index (h : Holds cells mask start xs) : (start + 0) &&& mask = start := by
  rw [Nat.add_zero, and_mask h.power, Nat.mod_eq_of_lt (Nat.lt_succ_of_le h.start_le)]

/-- The entries, read one after another. -/
theorem range_map_cell (h : Holds cells mask start xs) :
    (List.range xs.length).map (cell cells mask start) = xs.map some := by
  refine List.ext_getElem? fun i => ?_
  rw [List.getElem?_map, List.getElem?_map]
  by_cases hi : i < xs.length
  · rw [List.getElem?_range hi, List.getElem?_eq_getElem hi, Option.map_some, Option.map_some]
    exact congrArg some (h.entry i _ (List.getElem?_eq_getElem hi))
  · rw [List.getElem?_eq_none (not_lt.mp hi), List.getElem?_eq_none]
    · rfl
    · rw [List.length_range]
      exact not_lt.mp hi

end Holds

end MaskedRing
