/-
Reference counts.

`L : ι → List α` lists for every holder the things it has a reference to, one entry for each
reference; only finitely many holders have any.  `total L a` is the number of references to `a`
there are.  While references pass from one holder to another some of them are in `hand`.

* `Balanced refs L hand` — the counts `refs` are right;
* `Balanced.pass` — references pass between a holder and the hand;
* `Balanced.recount` — references are made or given back in the hand;
* `Balanced.pos_iff` — **a count is positive exactly if there is a reference**.
-/
import Mathlib

namespace RefCount

variable {ι α : Type*} [DecidableEq α] {L L' : ι → List α} {a : α}

/-- The number of references to `a`. -/
noncomputable def total (L : ι → List α) (a : α) : ℕ := ∑ᶠ i, (L i).count a

/-- Only finitely many holders have references. -/
def FinitelyHeld (L : ι → List α) : Prop := {i | L i ≠ []}.Finite

theorem total_eq_sum (h : FinitelyHeld L) {s : Finset ι} (hs : h.toFinset ⊆ s) (a : α) :
    total L a = ∑ i ∈ s, (L i).count a := by
  refine finsum_eq_sum_of_support_subset _ fun i hi => ?_
  have hne : L i ≠ [] := by
    intro hnil
    rw [Function.mem_support, hnil, List.count_nil] at hi
    exact hi rfl
  exact hs ((Set.Finite.mem_toFinset h).mpr hne)

omit [DecidableEq α] in
theorem FinitelyHeld.replace (h : FinitelyHeld L) {i : ι} (hrest : ∀ k, k ≠ i → L' k = L k) :
    FinitelyHeld L' := by
  refine (h.insert i).subset fun k hk => ?_
  by_cases hki : k = i
  · exact Or.inl hki
  · refine Or.inr ?_
    show L k ≠ []
    rw [← hrest k hki]
    exact hk

/-- The references of one holder change. -/
theorem total_replace (h : FinitelyHeld L) {i : ι} (hrest : ∀ k, k ≠ i → L' k = L k) (a : α) :
    total L' a + (L i).count a = total L a + (L' i).count a := by
  classical
  have h' := h.replace hrest
  have hsum := total_eq_sum h (s := insert i (h.toFinset ∪ h'.toFinset)) (fun k hk =>
    Finset.mem_insert_of_mem (Finset.mem_union_left _ hk)) a
  have hsum' := total_eq_sum h' (s := insert i (h.toFinset ∪ h'.toFinset)) (fun k hk =>
    Finset.mem_insert_of_mem (Finset.mem_union_right _ hk)) a
  rw [← Finset.add_sum_erase _ _ (Finset.mem_insert_self i _)] at hsum hsum'
  -- the other holders have what they had
  have hothers : ∑ k ∈ (insert i (h.toFinset ∪ h'.toFinset)).erase i, (L' k).count a =
      ∑ k ∈ (insert i (h.toFinset ∪ h'.toFinset)).erase i, (L k).count a :=
    Finset.sum_congr rfl fun k hk => by rw [hrest k (Finset.ne_of_mem_erase hk)]
  omega

theorem total_pos_iff (h : FinitelyHeld L) : 0 < total L a ↔ ∃ i, a ∈ L i := by
  rw [total_eq_sum h (Finset.Subset.refl _), Finset.sum_pos_iff]
  constructor
  · rintro ⟨i, -, hi⟩
    exact ⟨i, List.count_pos_iff.mp hi⟩
  · rintro ⟨i, hi⟩
    exact ⟨i, (Set.Finite.mem_toFinset h).mpr (List.ne_nil_of_mem hi), List.count_pos_iff.mpr hi⟩

/-- The counts are the numbers of references that are held or in `hand`. -/
structure Balanced (refs : α → ℕ) (L : ι → List α) (hand : List α) : Prop where
  finite : FinitelyHeld L
  count : ∀ a, refs a = total L a + hand.count a

variable {refs refs' : α → ℕ} {hand hand' : List α}

theorem Balanced.empty : Balanced (fun _ : α => 0) (fun _ : ι => []) [] where
  finite := by
    show {i : ι | ([] : List α) ≠ []}.Finite
    simp
  count a := by
    show 0 = total (fun _ : ι => []) a + 0
    simp [total]

/-- **References pass** between the holder `i` and the hand. -/
theorem Balanced.pass (h : Balanced refs L hand) {i : ι}
    (hperm : (L' i ++ hand').Perm (L i ++ hand)) (hrest : ∀ k, k ≠ i → L' k = L k) :
    Balanced refs L' hand' where
  finite := h.finite.replace hrest
  count a := by
    have htotal := total_replace h.finite hrest a
    have hcount := hperm.count_eq a
    rw [List.count_append, List.count_append] at hcount
    rw [h.count a]
    omega

/-- **References are made or given back** in the hand. -/
theorem Balanced.recount (h : Balanced refs L hand)
    (hrefs : ∀ a, refs' a + hand.count a = refs a + hand'.count a) : Balanced refs' L hand' where
  finite := h.finite
  count a := by
    have hold := h.count a
    have hnew := hrefs a
    omega

/-- **A count is positive exactly if there is a reference.** -/
theorem Balanced.pos_iff (h : Balanced refs L hand) :
    0 < refs a ↔ (∃ i, a ∈ L i) ∨ a ∈ hand := by
  rw [h.count a, Nat.add_pos_iff_pos_or_pos, total_pos_iff h.finite, List.count_pos_iff]

end RefCount
