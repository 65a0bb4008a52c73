/-
Bounded waiting in a step system.

Something is waited for, and the steps of a run have a cost (only the steps of one party
cost anything, say).  If every step either brings what is waited for or lowers a potential
by its cost, the costs of a run in which it does not come add up to no more than the
potential at the start.

* `total` — the cost of a run;
* `run_bounded` — the rule.
-/
import AntServer.StepSystem

namespace StepSystem

variable {S L : Type*} {step : S → L → Option S} {cost : S → L → ℕ}

/-- The costs of the steps of a run, added up. -/
def total (step : S → L → Option S) (cost : S → L → ℕ) : S → List L → ℕ
  | _, [] => 0
  | s, l :: ls => cost s l +
    match step s l with
    | none => 0
    | some s' => total step cost s' ls

theorem total_cons {s s' : S} {l : L} {ls : List L} (hs : step s l = some s') :
    total step cost s (l :: ls) = cost s l + total step cost s' ls := by
  rw [total, hs]

/-- `W s n`: in `s` the wait goes on, with the potential `n` left. -/
theorem run_bounded {C : S → L → Prop} {W : S → ℕ → Prop} {Comes : S → L → S → Prop}
    (hstep : ∀ {s l s' n}, W s n → C s l → step s l = some s' →
      Comes s l s' ∨ ∃ n', W s' n' ∧ cost s l + n' ≤ n)
    {s s' : S} {ls : List L} {n : ℕ} (hW : W s n) (hC : Meets step C s ls)
    (hrun : run step s ls = some s') :
    total step cost s ls ≤ n ∨
      ∃ ls₁ l ls₂ m m', ls = ls₁ ++ l :: ls₂ ∧ run step s ls₁ = some m ∧
        step m l = some m' ∧ Comes m l m' := by
  induction ls generalizing s n with
  | nil => exact Or.inl (Nat.zero_le n)
  | cons l ls ih =>
    obtain ⟨m, hm, hrest⟩ := run_cons.mp hrun
    rcases hstep hW hC.1 hm with hcomes | ⟨n', hW', hcost⟩
    · exact Or.inr ⟨[], l, ls, s, m, rfl, rfl, hm, hcomes⟩
    · rcases ih hW' (hC.2 m hm) hrest with hle | ⟨ls₁, l', ls₂, m₁, m₂, rfl, hr₁, hs₂, hcomes⟩
      · left
        rw [total_cons hm]
        omega
      · exact Or.inr ⟨l :: ls₁, l', ls₂, m₁, m₂, rfl, run_cons.mpr ⟨m, hm, hr₁⟩, hs₂, hcomes⟩

end StepSystem
