/-
The threads of a `Scheduler` (scheduler/scheduler.hpp) and its workers' private state.

A `Scheduler` has one executor with `nWorkers` workers and `nIo` IO threads.  `IOLoop(j)`
sets `g_executor` to the workers' executor and `g_thread_id` to `j`, and a completion on an
IO thread passes its awaiter to `g_executor->schedule` (`BaseAwaiter::on_complete`).  Workers
and IO threads are both numbered from 0, so IO thread `j < nWorkers` looks like worker `j`.

* `single_owner_iff` — exactly when the workers' private state stays private;
* `io_completion_writes_lifo_slot` — one worker, one IO thread, one completion.
-/
import AntServer.ExecutorOwner

namespace WorkStealing

/-- The threads of a `Scheduler`: besides the workers (`Thread.worker`), the IO threads, and
threads with null thread-locals such as the timer's. -/
def schedulerConfig (nWorkers nIo : ℕ) (hw : 0 < nWorkers) : Config Unit (Fin nIo ⊕ ℕ) where
  nthreads := fun _ => nWorkers
  nthreads_pos := fun _ => hw
  tls := fun k => match k with
    | .inl j => (some (), j)      -- `IOLoop(j)`
    | .inr _ => (none, 0)

/-- `on_complete` on IO thread `j`: `g_executor` is not null there. -/
def onComplete {nIo : ℕ} {Task : Type*} (j : Fin nIo) (awaiter : Task) (d : Draws) :
    Label Unit (Fin nIo ⊕ ℕ) Task :=
  .schedule (.other (.inl j)) () (some awaiter) none d

variable {nWorkers nIo : ℕ} {Task : Type*} [DecidableEq Task]
  {s : State Unit (Fin nIo ⊕ ℕ) Task} {ls : List (Label Unit (Fin nIo ⊕ ℕ) Task)}

/-- The owner-only operations of each worker are by its own thread, and the `schedule` calls
on IO threads went to an inbox or to the global queue. -/
def SingleOwner (s : State Unit (Fin nIo ⊕ ℕ) Task) : Prop :=
  (∀ op ∈ s.ownerOps, op.1 = .worker op.2) ∧
    ∀ call ∈ s.calls, ∀ j, call.1 = .other (.inl j) → call.2 ≠ .owner

instance : Decidable (SingleOwner s) := inferInstanceAs (Decidable (_ ∧ _))

omit [DecidableEq Task] in
/-- An IO thread takes the owner's path exactly if there is a worker of its number and the
call is not for another one. -/
theorem ownerPath_io_iff (hw : 0 < nWorkers) (j : Fin nIo) (target : Option ℕ) :
    (schedulerConfig nWorkers nIo hw).OwnerPath (.other (.inl j)) () target ↔
      j.val < nWorkers ∧ (target = none ∨ target = some j.val) := by
  constructor
  · rintro ⟨-, hlt, htarget⟩
    exact ⟨hlt, htarget⟩
  · rintro ⟨hlt, htarget⟩
    exact ⟨rfl, hlt, htarget⟩

/-- **The single-owner discipline** holds in a run exactly if every IO thread that schedules
without a target, or with its own number as target, has a number beyond the workers'. -/
theorem single_owner_iff (hw : 0 < nWorkers) (next : Task → Option Task)
    (hrun : StepSystem.run (step (schedulerConfig nWorkers nIo hw)) (init next) ls = some s) :
    SingleOwner s ↔ ∀ (j : Fin nIo) task target d,
      Label.schedule (.other (.inl j)) () (some task) target d ∈ ls →
        target = none ∨ target = some j.val → nWorkers ≤ j.val := by
  constructor
  · intro hs j task target d hmem htarget
    by_contra hlt
    have hop := run_breach hrun hmem
      ((ownerPath_io_iff hw j target).mpr ⟨not_le.mp hlt, htarget⟩)
    exact nomatch hs.1 _ hop
  · intro hcond
    have hsafe : ∀ l ∈ ls, Safe (schedulerConfig nWorkers nIo hw) l := by
      rintro l hl ⟨k, ⟨⟩, target⟩ hcall ho
      obtain ⟨task, d, rfl⟩ := Label.eq_of_outsideCall hcall
      cases k with
      | inl j =>
        obtain ⟨hlt, htarget⟩ := (ownerPath_io_iff hw j target).mp ho
        exact absurd (hcond j task target d hl htarget) (not_le.mpr hlt)
      | inr => exact nomatch ho.1
    have hd := run_discipline hrun hsafe
    refine ⟨hd.ops, fun call hcall j hj howner => ?_⟩
    obtain ⟨w, hw⟩ := hd.calls call hcall howner
    exact nomatch hj.symm.trans hw

/-- Two workers, three IO threads: a completion on IO thread 2, and a call of IO thread 0 for
worker 1. -/
def distinctLabels : List (Label Unit (Fin 3 ⊕ ℕ) ℕ) :=
  [.start (), .spawn ((), 1), onComplete 2 10 ⟨1, 0, 0, 0⟩,
    .schedule (.other (.inl 0)) () (some 11) (some 1) ⟨0, 0, 0, 0⟩,
    .work ((), 1) 0 false, .work ((), 1) 0 false]

theorem distinct_single_owner :
    ∃ s, StepSystem.run (step (schedulerConfig 2 3 Nat.zero_lt_two)) (init fun _ => none)
      distinctLabels = some s ∧ s.ownerOps = [(.worker ((), 1), ((), 1))] ∧ SingleOwner s := by
  obtain ⟨s, hrun, hops⟩ : ∃ s, StepSystem.run (step (schedulerConfig 2 3 Nat.zero_lt_two))
      (init fun _ => none) distinctLabels = some s ∧
        s.ownerOps = [(.worker ((), 1), ((), 1))] :=
    StepSystem.exists_of_run_any (by decide +kernel)
  refine ⟨s, hrun, hops, (single_owner_iff Nat.zero_lt_two _ hrun).mpr ?_⟩
  intro j task target d hmem htarget
  simp only [distinctLabels, onComplete, List.mem_cons, Label.schedule.injEq, Thread.other.injEq,
    Sum.inl.injEq, reduceCtorEq, false_or, or_false, List.not_mem_nil] at hmem
  rcases hmem with ⟨rfl, -⟩ | ⟨rfl, -, -, rfl, -⟩
  · decide
  · exact absurd htarget (by decide)

/-- **A breach.**  One worker, one IO thread: while the worker is about to read its LIFO slot,
a completion on the IO thread writes it. -/
theorem io_completion_writes_lifo_slot :
    ∃ s, StepSystem.run (step (schedulerConfig 1 1 Nat.zero_lt_one)) (init fun _ => none)
      [.start (), .spawn ((), 0), .work ((), 0) 0 false, onComplete 0 10 ⟨0, 0, 0, 0⟩] =
        some s ∧
      s.pc (.worker ((), 0)) = .lifo ∧ s.lifoSlot ((), 0) = some 10 ∧
      (.other (.inl 0), ((), 0)) ∈ s.ownerOps ∧ (.other (.inl 0), .owner) ∈ s.calls ∧
      ¬ SingleOwner s :=
  StepSystem.exists_of_run_any (by decide +kernel)

end WorkStealing
