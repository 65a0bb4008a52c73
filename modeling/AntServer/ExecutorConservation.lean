/-
No task is lost or doubled.

`Conserved c s L` says that `L` lists the tasks in every place of `s`, no task is in two
places, and for every executor `X` and task `t` the calls of `schedule` of `X` with `t`
are as many as the runs of `t` on `X`, plus one if `t` is in a place of `X`.

* `Admissible` — the steps considered: no task is scheduled while it is pending, and a
  thread outside `X` does not carry `X` in `g_executor`;
* `step_conserved` — such a step keeps the account;
* `tasks_conserved` — so every run of such steps does.
-/
import AntServer.ExecutorMoves
import AntServer.ExecutorOwner

namespace WorkStealing

variable {E K Task : Type*} [DecidableEq E] [DecidableEq Task] {c : Config E K}
  {s s' : State E K Task} {L : Place E → List Task} {w : E × ℕ} {X : E} {t : Task}

/-- The runs of tasks by executor. -/
def State.runs (s : State E K Task) : List (E × Task) := s.ran.map fun r => (r.1.1, r.2)

/-- `t` is not pending: each call of `schedule` with it has led to a run. -/
def State.Idle (s : State E K Task) (t : Task) : Prop :=
  ∀ x ∈ s.scheduled, x.2 = t → s.scheduled.count x ≤ s.runs.count x

instance (t : Task) : Decidable (s.Idle t) :=
  inferInstanceAs (Decidable (∀ x ∈ s.scheduled, x.2 = t → _))

/-- The task that the step passes to `schedule`, or whose link it writes. -/
def Label.subject : Label E K Task → Option Task
  | .schedule _ _ task _ _ => task
  | .relink task _ => some task
  | _ => none

/-- Tasks are scheduled, and their links written, only while they are not pending; threads
outside an executor do not pose as its workers. -/
def Admissible (c : Config E K) (s : State E K Task) (l : Label E K Task) : Prop :=
  (∀ t ∈ l.subject, s.Idle t) ∧ ∀ call ∈ l.outsideCall, (c.tls call.1).1 ≠ some call.2.1

instance (l : Label E K Task) : Decidable (Admissible c s l) :=
  inferInstanceAs (Decidable (_ ∧ _))

/-- The account of the tasks. -/
structure Conserved (c : Config E K) (s : State E K Task) (L : Place E → List Task) : Prop where
  lists : Represents s L
  separate : Separate L
  count : ∀ X t, s.scheduled.count (X, t) = s.runs.count (X, t) + presence L (placesOf X) t
  ran : ∀ r ∈ s.ran, r.1.2 < c.nthreads r.1.1

theorem conserved_init (next : Task → Option Task) :
    Conserved c (init next) fun _ => [] where
  lists := fun p => by
    cases p with
    | globalQueue => exact .empty
    | _ => exact rfl
  separate := .nil
  count := fun X t => by
    rw [presence_eq_zero.mpr fun _ _ => List.not_mem_nil]
    exact rfl
  ran := fun _ h => absurd h List.not_mem_nil

/-- A task that is not pending is in no place. -/
theorem Conserved.not_within (h : Conserved c s L) (ht : s.Idle t) : ¬ Within L t := by
  rintro ⟨p, hp⟩
  have hpres : presence L (placesOf p.executor) t = 0 := by
    have hcount := h.count p.executor t
    by_cases hmem : (p.executor, t) ∈ s.scheduled
    · have := ht _ hmem rfl
      omega
    · rw [List.count_eq_zero_of_not_mem hmem] at hcount
      omega
  exact presence_eq_zero.mp hpres p rfl hp

theorem count_map_pair (xs : List Task) (X Y : E) (t : Task) :
    (xs.map (Y, ·)).count (X, t) = if X = Y then xs.count t else 0 := by
  split
  · rename_i h
    subst h
    exact List.count_map_of_injective xs _ (fun _ _ he => (Prod.mk.inj he).2) t
  · rename_i h
    refine List.count_eq_zero_of_not_mem fun hmem => ?_
    obtain ⟨x, -, hx⟩ := List.mem_map.mp hmem
    exact h (Prod.mk.inj hx).1.symm

/-- **An accounted step keeps the account.** -/
theorem Accounted.conserved (h : Accounted w s s' L) (hw : w.2 < c.nthreads w.1)
    (hC : Conserved c s L) : ∃ L', Conserved c s' L' := by
  obtain ⟨L', ins, outs, hrep, htr, hnd, hnew, hsched, hran⟩ := h
  have hL' : Separate L' := htr.separate hC.separate hnd hnew
  have hruns : s'.runs = s.runs ++ outs.map (w.1, ·) := by
    rw [State.runs, hran, List.map_append, List.map_map]
    exact rfl
  refine ⟨L', hrep, hL', fun X t => ?_, fun r hr => ?_⟩
  · rw [hsched, hruns, List.count_append, List.count_append, count_map_pair, count_map_pair,
      hC.count X t]
    by_cases hX : X = w.1
    · subst hX
      have := htr.presence_add hC.separate hL' t
      rw [if_pos rfl, if_pos rfl]
      omega
    · -- the places of other executors do not notice
      have hdis : Disjoint (placesOf w.1) (placesOf X) :=
        Set.disjoint_left.mpr fun p hp hp' => hX (hp'.symm.trans hp)
      rw [if_neg hX, if_neg hX, htr.presence_of_disjoint hdis t]
      omega
  · rw [hran] at hr
    rcases List.mem_append.mp hr with hold | hnew
    · exact hC.ran r hold
    · obtain ⟨t, -, rfl⟩ := List.mem_map.mp hnew
      exact hw

/-- Threads outside `X` that do not carry `X` never take the owner's path. -/
theorem Admissible.safe {l : Label E K Task} (h : Admissible c s l) : Safe c l :=
  fun call hcall ho => h.2 call hcall ho.1

variable [DecidableEq K] {l : Label E K Task} {ls : List (Label E K Task)}

/-- **Step lemma.** -/
theorem step_conserved (hd : Discipline c s) (hC : Conserved c s L) (hl : Admissible c s l)
    (hs : step c s l = some s') : ∃ L', Conserved c s' L' := by
  cases l with
  | start X | stop X =>
    obtain rfl := Option.some.inj hs
    refine ⟨L, fun p => ?_, hC.separate, hC.count, hC.ran⟩
    rw [State.cell_setRunning]
    exact hC.lists p
  | relink t p =>
    -- an idle task is in no chain
    obtain rfl := Option.some.inj hs
    have hnew : ¬ Within L t := hC.not_within (hl.1 t rfl)
    refine ⟨L, fun p => ?_, hC.separate, hC.count, hC.ran⟩
    rw [State.setNext, State.cell_setLinks]
    refine (hC.lists p).frame fun x hx => Function.update_of_ne ?_ _ _
    rintro rfl
    exact hnew ⟨p, hx⟩
  | spawn w | finish w =>
    simp only [step, Option.ite_none_right_eq_some, Option.some.injEq] at hs
    obtain ⟨⟨hw, hpc⟩, rfl⟩ := hs
    have hheld : L (.held w) = [] := hC.lists.holds hpc
    have hacc : Accounted w s (s.goto (.worker w) .top) L := hC.lists.goto hC.separate hheld
    exact hacc.conserved hw hC
  | work w draw lost =>
    simp only [step, Option.ite_none_right_eq_some] at hs
    exact (workerStep_accounted hC.lists hC.separate hs.2).conserved hs.1 hC
  | schedule th X task target d =>
    cases task with
    | none => exact step_schedule_null hs ▸ ⟨L, hC⟩
    | some t =>
      obtain ⟨hth, rfl⟩ := step_schedule hs
      obtain ⟨i, hi, hacc⟩ := scheduleCall_accounted (c := c) (d := d) hC.lists hC.separate
        (hC.not_within (hl.1 t rfl)) hth (eq_worker_of_ownerPath hl.safe)
      exact hacc.conserved hi hC
  | proceed th lost =>
    obtain ⟨w, hw, -⟩ := scheduleStep_acts hs
    obtain ⟨rfl, hlt⟩ := hd.frames th w hw
    have hown : ∀ v, (s.pc (.worker w)).frame = some v → v = w := fun v hv =>
      Option.some.inj (hv.symm.trans hw)
    exact (scheduleStep_accounted hC.lists hC.separate hs hown).conserved hlt hC

/-- **Conservation of tasks.**  In every state that any interleaving reaches, where tasks
are scheduled only while not pending and threads outside an executor do not pose as its
workers, the tasks of all places can be listed so that no task is in two places, and for
every executor `X` and task `t` one of two holds: `t` is in a place of `X` and has been
scheduled there once more than it has run there, or it is in none and has run there as
often as it was scheduled.  It runs on worker threads of `X` only. -/
theorem tasks_conserved (next : Task → Option Task)
    (hrun : StepSystem.run (step c) (init next) ls = some s)
    (hok : StepSystem.Meets (step c) (Admissible c) (init next) ls) :
    ∃ L : Place E → List Task, Represents s L ∧ Separate L ∧
      (∀ X t, ((∃ p ∈ placesOf X, t ∈ L p) ∧
          s.scheduled.count (X, t) = s.runs.count (X, t) + 1) ∨
        ((∀ p ∈ placesOf X, t ∉ L p) ∧ s.scheduled.count (X, t) = s.runs.count (X, t))) ∧
      ∀ r ∈ s.ran, r.1.2 < c.nthreads r.1.1 := by
  have hinv : Discipline c s ∧ ∃ L, Conserved c s L := by
    refine StepSystem.run_invariant_of_meets (I := fun s => Discipline c s ∧ ∃ L, Conserved c s L)
      ?_ ⟨discipline_init next, _, conserved_init next⟩ hok hrun
    rintro s l s' ⟨hd, L, hC⟩ hl hs
    exact ⟨step_discipline hd hl.safe hs, step_conserved hd hC hl hs⟩
  obtain ⟨-, L, hC⟩ := hinv
  -- the presence of a task in the places of `X` is 1 or 0
  refine ⟨L, hC.lists, hC.separate, fun X t => ?_, hC.ran⟩
  by_cases hp : ∃ p ∈ placesOf X, t ∈ L p
  · exact Or.inl ⟨hp, (hC.count X t).trans (congrArg _ (if_pos hp))⟩
  · have hnone : ∀ p ∈ placesOf X, t ∉ L p := fun p hpX hpt => hp ⟨p, hpX, hpt⟩
    exact Or.inr ⟨hnone, (hC.count X t).trans (congrArg _ (presence_eq_zero.mpr hnone))⟩

/-- Executor `true` has two workers and `false` one; one thread outside has no `g_executor`. -/
def hopConfig : Config Bool Unit where
  nthreads := fun X => if X then 2 else 1
  nthreads_pos := fun X => by cases X <;> decide
  tls := fun _ => (none, 0)

/-- Tasks 5, 6 and 7 reach executor `true` by both inbox paths and the global queue; a worker
drains its inbox, runs 6, and from there 6 hops to the other executor. -/
def hopLabels : List (Label Bool Unit ℕ) :=
  [.start true, .spawn (true, 0),
    .schedule (.other ()) true (some 5) none ⟨4, 0, 1, 2⟩,
    .schedule (.other ()) true (some 6) (some 0) ⟨0, 0, 0, 0⟩,
    .schedule (.other ()) true (some 7) (some 9) ⟨0, 0, 0, 0⟩] ++
  List.replicate 8 (.work (true, 0) 0 false) ++
  [.schedule (.worker (true, 0)) false (some 6) none ⟨0, 0, 0, 0⟩]

theorem hop_conserved :
    ∃ s, StepSystem.run (step hopConfig) (init fun _ => none) hopLabels = some s ∧
    s.ran = [((true, 0), 6)] ∧
    ∃ L : Place Bool → List ℕ, Represents s L ∧ Separate L ∧
      (∀ X t, ((∃ p ∈ placesOf X, t ∈ L p) ∧
          s.scheduled.count (X, t) = s.runs.count (X, t) + 1) ∨
        ((∀ p ∈ placesOf X, t ∉ L p) ∧ s.scheduled.count (X, t) = s.runs.count (X, t))) ∧
      ∀ r ∈ s.ran, r.1.2 < hopConfig.nthreads r.1.1 := by
  obtain ⟨s, hrun, hran⟩ : ∃ s, StepSystem.run (step hopConfig) (init fun _ => none) hopLabels =
      some s ∧ s.ran = [((true, 0), 6)] :=
    StepSystem.exists_of_run_any (by decide +kernel)
  exact ⟨s, hrun, hran, tasks_conserved _ hrun (by decide +kernel)⟩

end WorkStealing
