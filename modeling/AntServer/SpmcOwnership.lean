/-
Who owns which position of the deque when thieves take batches.

`TakeHalf` claims many positions with one compare-exchange on `top_`, based on
a value of `bottom_` that it loaded before `top_`; the owner's `TryPop` takes
every position but the last without touching `top_`.  So the claim is right
exactly when its positions are still open at the compare-exchange
(`ClaimsOpen`): `handed_nodup_of_claimsOpen` says that in the runs where that is
so no position is handed out twice and `top_` never stays above `bottom_`.
`overclaim_handed_twice` is a run where it is not so.

A position is pushed again after it was popped, so "handed out" is counted per
push: `handed` records a position together with the stamp of its last push.
-/
import AntServer.SpmcInvariant

namespace SpmcQueue

variable {T ι : Type*} [DecidableEq ι]

/-- **Batch stealing.**  In every run in which each successful `TakeHalf` claims
open positions only, no position is handed out twice, and `top_ ≤ bottom_`
whenever no operation is in progress. -/
theorem handed_nodup_of_claimsOpen (c : Capacity) (ls : List (Label T ι)) (s : State T ι)
    (hrun : StepSystem.run (step c) (init T ι) ls = some s)
    (hopen : StepSystem.Meets (step c) ClaimsOpen (init T ι) ls) :
    s.handed.Nodup ∧ (s.Quiescent → s.top ≤ s.bottom) := by
  have h := (run_refines hopen hrun).1
  refine ⟨h.good.nodup_out, fun hq => ?_⟩
  have hle : s.top ≤ s.limit := h.good.le
  simpa [State.limit, limitOf, hq.1] using hle

/-- The labels of a `Push` or `TryPop` that the owner runs to its end. -/
def ownerOp (l : Label T ι) : List (Label T ι) := [l, .owner, .owner, .owner]

/-- The deque of capacity 8. -/
def capacity8 : Capacity := ⟨8, 3, rfl⟩

/-- The values 10, 11, 12, 13 are pushed and a thief loads `bottom_ = 4` and
`top_ = 0`, so that its next step claims the positions 0 and 1. -/
def batchPrelude : List (Label ℕ Unit) :=
  ownerOp (.push (some 10)) ++ ownerOp (.push (some 11)) ++ ownerOp (.push (some 12)) ++
    ownerOp (.push (some 13)) ++ [.takeHalf (), .thief () false]

/-- The compare-exchange of the thief and the two copies. -/
def batchClaim : List (Label ℕ Unit) := List.replicate 3 (.thief () false)

/-- The owner pops once before the claim: the claimed positions are still open. -/
theorem handed_nodup_batch :
    ∃ s, StepSystem.run (step capacity8) (init ℕ Unit)
        (batchPrelude ++ ownerOp .tryPop ++ batchClaim) = some s ∧
      s.batches = [((), 0, [some 10, some 11])] ∧
      s.handed.Nodup ∧ (s.Quiescent → s.top ≤ s.bottom) := by
  obtain ⟨s, hrun, hbatch⟩ : ∃ s, StepSystem.run (step capacity8) (init ℕ Unit)
      (batchPrelude ++ ownerOp .tryPop ++ batchClaim) = some s ∧
        s.batches = [((), 0, [some 10, some 11])] :=
    StepSystem.exists_of_run_any (by decide +kernel)
  exact ⟨s, hrun, hbatch, handed_nodup_of_claimsOpen capacity8 _ s hrun (by decide +kernel)⟩

/-- **Batch stealing breaks ownership.**  The owner pops the positions 3, 2 and 1
between the thief's loads and its compare-exchange, which then succeeds: position
1 is handed out to both, and `top_ = 2` is left above `bottom_ = 1`. -/
theorem overclaim_handed_twice :
    ∃ s, StepSystem.run (step capacity8) (init ℕ Unit)
        (batchPrelude ++ ownerOp .tryPop ++ ownerOp .tryPop ++ ownerOp .tryPop ++ batchClaim)
          = some s ∧
      ¬ s.handed.Nodup ∧ s.Quiescent ∧ ¬ s.top ≤ s.bottom :=
  StepSystem.exists_of_run_any (by decide +kernel)

end SpmcQueue
