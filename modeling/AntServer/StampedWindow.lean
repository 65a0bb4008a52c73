/-
A window of stamped positions.

Positions are integers.  The window `[lo, hi)` holds the positions that are
filled and not yet taken; filling the position `hi` gives it the next stamp, so
a position that is filled again carries a new stamp.  `out` is the record of
everything taken, as pairs of a position and the stamp it had.

The three operations `push`, `takeBack` and `takeFront n` keep `Good`
(`Good.push`, `Good.takeBack`, `Good.takeFront`), which says that no stamp is
taken twice, that none is lost, and that stamps grow along the window.  At any
moment the stamps not taken, in increasing order, are those of the window
(`Good.untaken_eq`).
-/
import Mathlib

/-- The positions `p, …, p + n - 1`, each with its stamp. -/
def stampedRange (stamp : ℤ → ℕ) (p : ℤ) (n : ℕ) : List (ℤ × ℕ) :=
  (List.range n).map fun k : ℕ => (p + k, stamp (p + k))

theorem mem_stampedRange {stamp : ℤ → ℕ} {p : ℤ} {n : ℕ} {h : ℤ × ℕ} :
    h ∈ stampedRange stamp p n ↔ p ≤ h.1 ∧ h.1 < p + n ∧ h.2 = stamp h.1 := by
  simp only [stampedRange, List.mem_map, List.mem_range]
  constructor
  · rintro ⟨k, hk, rfl⟩
    exact ⟨by simp, by simpa using hk, rfl⟩
  · rintro ⟨h1, h2, h3⟩
    refine ⟨(h.1 - p).toNat, by omega, ?_⟩
    have : p + ((h.1 - p).toNat : ℤ) = h.1 := by omega
    rw [this]
    exact Prod.ext rfl h3.symm

@[simp] theorem stampedRange_one (stamp : ℤ → ℕ) (p : ℤ) :
    stampedRange stamp p 1 = [(p, stamp p)] := by
  simp [stampedRange]

/-- A window of stamped positions and the record of what was taken from it. -/
structure StampedWindow where
  lo : ℤ
  hi : ℤ
  stamp : ℤ → ℕ
  next : ℕ
  out : List (ℤ × ℕ)

namespace StampedWindow

variable {w : StampedWindow}

/-- Fill the position `hi`. -/
def push (w : StampedWindow) : StampedWindow :=
  { w with hi := w.hi + 1, stamp := Function.update w.stamp w.hi w.next, next := w.next + 1 }

/-- Take the last position of the window. -/
def takeBack (w : StampedWindow) : StampedWindow :=
  { w with hi := w.hi - 1, out := w.out ++ stampedRange w.stamp (w.hi - 1) 1 }

/-- Take the first `n` positions of the window. -/
def takeFront (w : StampedWindow) (n : ℕ) : StampedWindow :=
  { w with lo := w.lo + n, out := w.out ++ stampedRange w.stamp w.lo n }

/-- The stamps taken so far. -/
def taken (w : StampedWindow) : List ℕ := w.out.map Prod.snd

/-- No stamp is taken twice or lost, and stamps grow along the window. -/
structure Good (w : StampedWindow) : Prop where
  le : w.lo ≤ w.hi
  mono : ∀ p q, w.lo ≤ p → p < q → q < w.hi → w.stamp p < w.stamp q
  lt : ∀ p, w.lo ≤ p → p < w.hi → w.stamp p < w.next
  fresh : ∀ p, w.lo ≤ p → p < w.hi → w.stamp p ∉ w.taken
  taken_lt : ∀ n ∈ w.taken, n < w.next
  nodup : w.taken.Nodup
  complete : ∀ n < w.next, n ∈ w.taken ∨ ∃ p, w.lo ≤ p ∧ p < w.hi ∧ w.stamp p = n

theorem Good.empty (p : ℤ) (stamp : ℤ → ℕ) : Good ⟨p, p, stamp, 0, []⟩ where
  le := le_rfl
  mono := fun a b h1 h2 h3 => by simp at h1 h3; omega
  lt := fun a h1 h2 => by simp at h1 h2; omega
  fresh := fun a h1 h2 => by simp [taken]
  taken_lt := fun n hn => by simp [taken] at hn
  nodup := List.nodup_nil
  complete := fun n hn => absurd hn (Nat.not_lt_zero n)

theorem Good.push (h : Good w) : Good w.push := by
  have hold : ∀ p, p < w.hi → w.push.stamp p = w.stamp p := fun p hp =>
    Function.update_of_ne (by omega) _ _
  have hnew : w.push.stamp w.hi = w.next := Function.update_self ..
  refine ⟨?_, ?_, ?_, ?_, ?_, h.nodup, ?_⟩
  · have := h.le
    simp only [StampedWindow.push]
    omega
  · intro p q hp hpq hq
    simp only [StampedWindow.push] at hp hq
    rw [hold p (by omega)]
    rcases eq_or_lt_of_le (show q ≤ w.hi by omega) with rfl | hq'
    · rw [hnew]
      exact h.lt p hp hpq
    · rw [hold q hq']
      exact h.mono p q hp hpq hq'
  · intro p hp hp'
    simp only [StampedWindow.push] at hp hp'
    show w.push.stamp p < w.next + 1
    rcases eq_or_lt_of_le (show p ≤ w.hi by omega) with rfl | hlt
    · rw [hnew]
      exact Nat.lt_succ_self _
    · rw [hold p hlt]
      exact Nat.lt_succ_of_lt (h.lt p hp hlt)
  · intro p hp hp'
    simp only [StampedWindow.push] at hp hp'
    show w.push.stamp p ∉ w.taken
    rcases eq_or_lt_of_le (show p ≤ w.hi by omega) with rfl | hlt
    · rw [hnew]
      exact fun hmem => lt_irrefl _ (h.taken_lt _ hmem)
    · rw [hold p hlt]
      exact h.fresh p hp hlt
  · exact fun n hn => Nat.lt_succ_of_lt (h.taken_lt n hn)
  · intro n hn
    rcases eq_or_lt_of_le (Nat.le_of_lt_succ hn) with rfl | hlt
    · exact Or.inr ⟨w.hi, h.le, by simp [StampedWindow.push], hnew⟩
    · rcases h.complete n hlt with hmem | ⟨p, hp, hp', hs⟩
      · exact Or.inl hmem
      · refine Or.inr ⟨p, hp, ?_, by rw [hold p hp', hs]⟩
        simp only [StampedWindow.push]
        omega

theorem taken_takeFront (w : StampedWindow) (n : ℕ) :
    (w.takeFront n).taken = w.taken ++ (stampedRange w.stamp w.lo n).map Prod.snd := by
  simp [taken, takeFront]

theorem taken_takeBack (w : StampedWindow) :
    w.takeBack.taken = w.taken ++ [w.stamp (w.hi - 1)] := by
  simp [taken, takeBack]

private theorem mem_stamps {stamp : ℤ → ℕ} {p : ℤ} {n m : ℕ} :
    m ∈ (stampedRange stamp p n).map Prod.snd ↔ ∃ q, p ≤ q ∧ q < p + n ∧ stamp q = m := by
  simp only [List.mem_map, mem_stampedRange]
  constructor
  · rintro ⟨h, ⟨h1, h2, h3⟩, rfl⟩
    exact ⟨h.1, h1, h2, h3.symm⟩
  · rintro ⟨q, h1, h2, rfl⟩
    exact ⟨(q, stamp q), ⟨h1, h2, rfl⟩, rfl⟩

theorem Good.takeFront (h : Good w) {n : ℕ} (hn : w.lo + n ≤ w.hi) : Good (w.takeFront n) := by
  have hlo : (w.takeFront n).lo = w.lo + n := rfl
  have hmem : ∀ m, m ∈ (w.takeFront n).taken ↔
      m ∈ w.taken ∨ ∃ q, w.lo ≤ q ∧ q < w.lo + n ∧ w.stamp q = m := by
    intro m
    rw [taken_takeFront, List.mem_append, mem_stamps]
  refine ⟨hn, ?_, ?_, ?_, ?_, ?_, ?_⟩
  · exact fun p q hp => h.mono p q (by omega)
  · exact fun p hp => h.lt p (by omega)
  · intro p hp hp'
    rw [hmem]
    rintro (hm | ⟨q, hq, hq', hs⟩)
    · exact h.fresh p (by omega) hp' hm
    · have := h.mono q p hq (by omega) hp'
      simp only [StampedWindow.takeFront] at hs
      omega
  · intro m hm
    rcases (hmem m).mp hm with hm | ⟨q, hq, hq', rfl⟩
    · exact h.taken_lt m hm
    · exact h.lt q hq (by omega)
  · rw [taken_takeFront, List.nodup_append]
    refine ⟨h.nodup, ?_, ?_⟩
    · -- distinct positions of the window carry distinct stamps
      simp only [stampedRange, List.map_map]
      refine List.Nodup.map_on ?_ List.nodup_range
      intro a ha b hb hab
      simp only [List.mem_range, Function.comp_apply] at ha hb hab
      by_contra hne
      rcases Nat.lt_or_gt_of_ne hne with hlt | hlt
      · have := h.mono (w.lo + a) (w.lo + b) (by omega) (by omega) (by omega)
        omega
      · have := h.mono (w.lo + b) (w.lo + a) (by omega) (by omega) (by omega)
        omega
    · rintro a ha b hb rfl
      obtain ⟨q, hq, hq', rfl⟩ := mem_stamps.mp hb
      exact h.fresh q hq (by omega) ha
  · intro m hm
    rw [hmem]
    rcases h.complete m hm with hm' | ⟨p, hp, hp', hs⟩
    · exact Or.inl (Or.inl hm')
    · by_cases hpn : p < w.lo + n
      · exact Or.inl (Or.inr ⟨p, hp, hpn, hs⟩)
      · exact Or.inr ⟨p, by rw [hlo]; omega, hp', hs⟩

theorem Good.takeBack (h : Good w) (hlt : w.lo < w.hi) : Good w.takeBack := by
  have hmem : ∀ m, m ∈ w.takeBack.taken ↔ m ∈ w.taken ∨ m = w.stamp (w.hi - 1) := by
    intro m
    rw [taken_takeBack, List.mem_append, List.mem_singleton]
  refine ⟨?_, ?_, ?_, ?_, ?_, ?_, ?_⟩
  · simp only [StampedWindow.takeBack]
    omega
  · intro p q hp hpq hq
    simp only [StampedWindow.takeBack] at hp hq
    exact h.mono p q hp hpq (by omega)
  · intro p hp hp'
    simp only [StampedWindow.takeBack] at hp hp'
    exact h.lt p hp (by omega)
  · intro p hp hp'
    simp only [StampedWindow.takeBack] at hp hp'
    rw [hmem]
    rintro (hm | hs)
    · exact h.fresh p hp (by omega) hm
    · have := h.mono p (w.hi - 1) hp (by omega) (by omega)
      simp only [StampedWindow.takeBack] at hs
      omega
  · intro m hm
    rcases (hmem m).mp hm with hm | rfl
    · exact h.taken_lt m hm
    · exact h.lt _ (by omega) (by omega)
  · rw [taken_takeBack, List.nodup_append]
    refine ⟨h.nodup, List.nodup_singleton _, ?_⟩
    rintro a ha b hb rfl
    rw [List.mem_singleton] at hb
    exact h.fresh _ (by omega) (by omega) (hb ▸ ha)
  · intro m hm
    rw [hmem]
    rcases h.complete m hm with hm' | ⟨p, hp, hp', hs⟩
    · exact Or.inl (Or.inl hm')
    · rcases eq_or_lt_of_le (show p ≤ w.hi - 1 by omega) with rfl | hlt'
      · exact Or.inl (Or.inr hs.symm)
      · exact Or.inr ⟨p, hp, by simpa [StampedWindow.takeBack] using hlt', hs⟩

/-- What one step of a system may do to its window. -/
inductive Step : StampedWindow → StampedWindow → Prop
  | stay (w : StampedWindow) : Step w w
  | push (w : StampedWindow) : Step w w.push
  | takeBack (w : StampedWindow) (h : w.lo < w.hi) : Step w w.takeBack
  | takeFront (w : StampedWindow) (n : ℕ) (h : w.lo + n ≤ w.hi) : Step w (w.takeFront n)

theorem Good.step {w' : StampedWindow} (h : Good w) (hs : Step w w') : Good w' := by
  cases hs with
  | stay => exact h
  | push => exact h.push
  | takeBack hlt => exact h.takeBack hlt
  | takeFront n hn => exact h.takeFront hn

theorem Good.nodup_out (h : Good w) : w.out.Nodup := List.Nodup.of_map _ h.nodup

/-- **Nothing is lost**: the stamps not taken, in increasing order, are those of
the window from `lo` to `hi`. -/
theorem Good.untaken_eq (h : Good w) :
    (List.range w.next).filter (fun n => n ∉ w.taken)
      = (List.range (w.hi - w.lo).toNat).map fun k : ℕ => w.stamp (w.lo + k) := by
  have hle := h.le
  refine List.Pairwise.eq_of_mem_iff (r := (· < ·)) (List.pairwise_lt_range.filter _) ?_ ?_
  · rw [List.pairwise_map]
    refine List.Pairwise.imp_of_mem ?_ List.pairwise_lt_range
    intro a b ha hb hab
    rw [List.mem_range] at ha hb
    exact h.mono _ _ (by omega) (by omega) (by omega)
  · intro n
    simp only [List.mem_filter, List.mem_range, List.mem_map, decide_eq_true_eq]
    constructor
    · rintro ⟨hn, hnot⟩
      rcases h.complete n hn with hmem | ⟨p, hp, hp', rfl⟩
      · exact absurd hmem hnot
      · exact ⟨(p - w.lo).toNat, by omega, by congr 1; omega⟩
    · rintro ⟨k, hk, rfl⟩
      exact ⟨h.lt _ (by omega) (by omega), h.fresh _ (by omega) (by omega)⟩

end StampedWindow
