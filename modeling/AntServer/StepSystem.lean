/-
Runs of a partial step function.

A system is given by `step : S → L → Option S`: the label says which party
moves (and what its environment answers), `none` says that the move is not
enabled.  `run step s ls` follows the labels `ls` from `s`.

* `run_invariant` — what every step keeps, every run keeps;
* `run_invariant_of_meets` — the same for the runs whose steps all meet a
  condition `C` on the state before the step (`Meets step C s ls`);
* `run_induction` — a relation between the labels so far and the state that is
  kept by every step (history properties: "if this has happened, then …");
* `Before a b ls` — the labels `ls` have an `a` and, later, a `b`.
-/
import Mathlib

namespace StepSystem

variable {S L : Type*} {step : S → L → Option S}

/-- Follow the labels `ls` from `s`; `none` as soon as a move is not enabled. -/
def run (step : S → L → Option S) : S → List L → Option S
  | s, [] => some s
  | s, l :: ls => (step s l).bind fun s' => run step s' ls

@[simp] theorem run_nil (s : S) : run step s [] = some s := rfl

theorem run_cons {s s' : S} {l : L} {ls : List L} :
    run step s (l :: ls) = some s' ↔
      ∃ m, step s l = some m ∧ run step m ls = some s' := by
  rw [run, Option.bind_eq_some_iff]

theorem run_append {s s' : S} {ls ls' : List L} :
    run step s (ls ++ ls') = some s' ↔
      ∃ m, run step s ls = some m ∧ run step m ls' = some s' := by
  induction ls generalizing s with
  | nil => simp
  | cons l ls ih =>
    rw [List.cons_append, run_cons]
    constructor
    · rintro ⟨m, hm, h⟩
      obtain ⟨m', hm', h'⟩ := ih.mp h
      exact ⟨m', run_cons.mpr ⟨m, hm, hm'⟩, h'⟩
    · rintro ⟨m', hm', h'⟩
      obtain ⟨m, hm, h⟩ := run_cons.mp hm'
      exact ⟨m, hm, ih.mpr ⟨m', h, h'⟩⟩

/-- The last step of a run. -/
theorem run_concat {s s' : S} {ls : List L} {l : L} :
    run step s (ls ++ [l]) = some s' ↔
      ∃ m, run step s ls = some m ∧ step m l = some s' := by
  rw [run_append]
  constructor
  · rintro ⟨m, hm, h⟩
    obtain ⟨m', hl, h'⟩ := run_cons.mp h
    rw [run_nil, Option.some_inj] at h'
    exact ⟨m, hm, h' ▸ hl⟩
  · rintro ⟨m, hm, h⟩
    exact ⟨m, hm, run_cons.mpr ⟨s', h, run_nil s'⟩⟩

/-- A run that is evaluated to the end reaches a state with the property tested. -/
theorem exists_of_run_any {P : S → Prop} [DecidablePred P] {s : S} {ls : List L}
    (h : (run step s ls).any (fun s' => P s') = true) :
    ∃ s', run step s ls = some s' ∧ P s' := by
  rw [Option.any_eq_true] at h
  obtain ⟨s', hrun, hP⟩ := h
  exact ⟨s', hrun, of_decide_eq_true hP⟩

/-- Every step of the run along `ls` from `s` starts in a state where it meets
the condition `C`. -/
def Meets (step : S → L → Option S) (C : S → L → Prop) : S → List L → Prop
  | _, [] => True
  | s, l :: ls => C s l ∧ ∀ s', step s l = some s' → Meets step C s' ls

instance Meets.decidable {C : S → L → Prop} [∀ s l, Decidable (C s l)] :
    ∀ (s : S) (ls : List L), Decidable (Meets step C s ls)
  | _, [] => isTrue trivial
  | s, l :: ls =>
    match h : step s l with
    | none => decidable_of_iff (C s l) ⟨fun hC => ⟨hC, fun s' hs' => by simp [h] at hs'⟩, And.left⟩
    | some m =>
      have := Meets.decidable (C := C) m ls
      decidable_of_iff (C s l ∧ Meets step C m ls)
        ⟨fun hC => ⟨hC.1, fun s' hs' => Option.some.inj (h ▸ hs') ▸ hC.2⟩,
          fun hC => ⟨hC.1, hC.2 m h⟩⟩

theorem Meets.append_left {C : S → L → Prop} {s : S} {ls ls' : List L}
    (h : Meets step C s (ls ++ ls')) : Meets step C s ls := by
  induction ls generalizing s with
  | nil => trivial
  | cons l ls ih => exact ⟨h.1, fun s' hs' => ih (h.2 s' hs')⟩

theorem Meets.append_right {C : S → L → Prop} {s m : S} {ls ls' : List L}
    (h : Meets step C s (ls ++ ls')) (hm : run step s ls = some m) :
    Meets step C m ls' := by
  induction ls generalizing s with
  | nil =>
    rw [run_nil, Option.some_inj] at hm
    exact hm ▸ h
  | cons l ls ih =>
    obtain ⟨m', hl, hm'⟩ := run_cons.mp hm
    exact ih (h.2 m' hl) hm'

/-- One more step that meets the condition. -/
theorem Meets.concat {C : S → L → Prop} {s : S} {ls : List L} {l : L} (h : Meets step C s ls)
    (hl : ∀ m, run step s ls = some m → C m l) : Meets step C s (ls ++ [l]) := by
  induction ls generalizing s with
  | nil => exact ⟨hl s rfl, fun _ _ => trivial⟩
  | cons l' ls ih =>
    exact ⟨h.1, fun s' hs' => ih (h.2 s' hs') fun m hm => hl m (run_cons.mpr ⟨s', hs', hm⟩)⟩

/-- A condition on the labels alone is met by every run that uses only such
labels. -/
theorem Meets.of_forall {P : L → Prop} {s : S} {ls : List L} (h : ∀ l ∈ ls, P l) :
    Meets step (fun _ l => P l) s ls := by
  induction ls generalizing s with
  | nil => trivial
  | cons l ls ih =>
    exact ⟨h l List.mem_cons_self, fun s' _ => ih fun x hx => h x (List.mem_cons_of_mem l hx)⟩

theorem Meets.mono {C D : S → L → Prop} {s : S} {ls : List L} (h : Meets step C s ls)
    (hCD : ∀ s l, C s l → D s l) : Meets step D s ls := by
  induction ls generalizing s with
  | nil => trivial
  | cons l ls ih => exact ⟨hCD s l h.1, fun s' hs' => ih (h.2 s' hs')⟩

theorem Meets.and {C D : S → L → Prop} {s : S} {ls : List L} (hC : Meets step C s ls)
    (hD : Meets step D s ls) : Meets step (fun s l => C s l ∧ D s l) s ls := by
  induction ls generalizing s with
  | nil => trivial
  | cons l ls ih => exact ⟨⟨hC.1, hD.1⟩, fun s' hs' => ih (hC.2 s' hs') (hD.2 s' hs')⟩

/-- **Invariant rule under a condition.**  What every step that meets `C`
keeps, every run whose steps all meet `C` keeps. -/
theorem run_invariant_of_meets {C : S → L → Prop} {I : S → Prop}
    (hstep : ∀ s l s', I s → C s l → step s l = some s' → I s') {s s' : S} {ls : List L}
    (hs : I s) (hC : Meets step C s ls) (hrun : run step s ls = some s') : I s' := by
  induction ls generalizing s with
  | nil =>
    rw [run_nil, Option.some_inj] at hrun
    exact hrun ▸ hs
  | cons l ls ih =>
    obtain ⟨m, hl, hm⟩ := run_cons.mp hrun
    exact ih (hstep s l m hs hC.1 hl) (hC.2 m hl) hm

/-- **Invariant rule.** -/
theorem run_invariant {I : S → Prop} (hstep : ∀ s l s', I s → step s l = some s' → I s')
    {s s' : S} {ls : List L} (hs : I s) (hrun : run step s ls = some s') : I s' :=
  run_invariant_of_meets (C := fun _ _ => True) (fun s l s' h _ => hstep s l s' h) hs
    (Meets.of_forall fun _ _ => trivial) hrun

/-- **History rule.**  A relation between the labels taken so far and the state
reached, kept by every step, holds after every run. -/
theorem run_induction {R : List L → S → Prop} {s₀ : S} (h₀ : R [] s₀)
    (hstep : ∀ ls s l s', R ls s → step s l = some s' → R (ls ++ [l]) s') {s : S} {ls : List L}
    (hrun : run step s₀ ls = some s) : R ls s := by
  induction ls using List.reverseRecOn generalizing s with
  | nil =>
    rw [run_nil, Option.some_inj] at hrun
    exact hrun ▸ h₀
  | append_singleton ls l ih =>
    obtain ⟨m, hm, hl⟩ := run_concat.mp hrun
    exact hstep ls m l s (ih hm) hl

/-- Among the labels `ls` there is an `a` and after it a `b`. -/
def Before (a b : L) (ls : List L) : Prop := [a, b].Sublist ls

instance Before.decidable [DecidableEq L] (a b : L) (ls : List L) : Decidable (Before a b ls) :=
  inferInstanceAs (Decidable ([a, b].Sublist ls))

theorem not_before_nil (a b : L) : ¬ Before a b [] := fun h => by cases h

theorem Before.mem_right {a b : L} {ls : List L} (h : Before a b ls) : b ∈ ls :=
  h.subset (List.mem_cons_of_mem a List.mem_cons_self)

theorem before_concat {a b l : L} {ls : List L} :
    Before a b (ls ++ [l]) ↔ Before a b ls ∨ (l = b ∧ a ∈ ls) := by
  constructor
  · intro h
    obtain ⟨xs, ys, heq, hxs, hys⟩ := List.sublist_append_iff.mp h
    rcases List.sublist_singleton.mp hys with rfl | rfl
    · rw [List.append_nil] at heq
      subst heq
      exact Or.inl hxs
    · -- the last label is the `b`
      have heq' : [a] ++ [b] = xs ++ [l] := heq
      obtain ⟨rfl, hl⟩ := List.append_inj' heq' rfl
      exact Or.inr ⟨(List.singleton_inj.mp hl).symm, List.singleton_sublist.mp hxs⟩
  · rintro (h | ⟨rfl, h⟩)
    · exact h.trans (List.sublist_append_left ls [l])
    · exact (List.singleton_sublist.mpr h).append (List.Sublist.refl [l])

end StepSystem
