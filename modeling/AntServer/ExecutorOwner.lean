/-
Who performs the owner-only operations of a worker.

The LIFO slot and the owner's end of the deque have no protection: only the thread that
runs `WorkerLoop(i)` may use those of worker `i`.  `schedule` decides by the thread-locals
`g_executor` and `g_thread_id` whether its caller is the owner.

* `Acts` — what a step of one thread writes outside the containers;
* `Discipline` — every owner-only operation so far was the owner's;
* `run_discipline` — in a run where no thread outside takes the owner's path this holds;
* `run_breach` — one such call breaks it for good.
-/
import AntServer.Executor

namespace WorkStealing

variable {E K Task : Type*} [DecidableEq E] [DecidableEq K] [DecidableEq Task]
  {c : Config E K} {s s' m : State E K Task} {th : Thread E K} {w : E × ℕ} {pc : Pc E Task}
  {l : Label E K Task} {ls : List (Label E K Task)} {X : E} {task : Task} {target : Option ℕ}
  {d : Draws} {draw : ℕ} {lost : Bool}

/-- A step of thread `th` whose owner-only operations are those of worker `w`. -/
structure Acts (th : Thread E K) (w : E × ℕ) (s s' : State E K Task) : Prop where
  pc : ∀ th', th' ≠ th → s'.pc th' = s.pc th'
  frame : ∀ v, (s'.pc th).frame = some v → v = w
  calls : s'.calls = s.calls
  ops : s'.ownerOps = s.ownerOps ∨ s'.ownerOps = s.ownerOps ++ [(th, w)]

omit [DecidableEq E] [DecidableEq K] [DecidableEq Task] in
theorem Acts.of_logOwner (h : Acts th w (s.logOwner th w) s')
    (hops : s'.ownerOps = (s.logOwner th w).ownerOps) : Acts th w s s' :=
  ⟨h.pc, h.frame, h.calls, Or.inr hops⟩

omit [DecidableEq Task] in
/-- An operation `m` on the containers, then `goto`. -/
theorem Acts.goto (hpc : m.pc = s.pc) (hcalls : m.calls = s.calls)
    (hops : m.ownerOps = s.ownerOps) (hframe : pc.frame = none ∨ pc.frame = some w) :
    Acts th w s (m.goto th pc) where
  pc := fun th' hne => (Function.update_of_ne hne _ _).trans (congrFun hpc th')
  frame := fun v hv => by
    simp only [State.goto, Function.update_self] at hv
    rcases hframe with hf | hf
    · rw [hf] at hv
      cases hv
    · exact Option.some.inj (hv.symm.trans hf)
  calls := hcalls
  ops := Or.inl hops

theorem drainStep_acts (hs : drainStep s w = some s') : Acts (.worker w) w s s' := by
  unfold drainStep at hs
  cases hpc : s.pc (.worker w) with
  | inbox =>
    simp only [hpc, Option.some.injEq] at hs
    subst hs
    split
    · exact .goto rfl rfl rfl (.inl rfl)
    · exact .goto rfl rfl rfl (.inl rfl)
  | detach | drainSpill =>
    simp only [hpc, Option.some.injEq] at hs
    subst hs
    exact .goto rfl rfl rfl (.inl rfl)
  | drain t curr =>
    cases curr with
    | none | some =>
      simp only [hpc, Option.some.injEq] at hs
      subst hs
      exact .goto rfl rfl rfl (.inl rfl)
  | drainPush =>
    simp only [hpc, Option.some.injEq] at hs
    subst hs
    split
    · exact .of_logOwner (.goto rfl rfl rfl (.inl rfl)) rfl
    · exact .of_logOwner (.goto rfl rfl rfl (.inl rfl)) rfl
  | _ => simp only [hpc, reduceCtorEq] at hs

theorem stealStep_acts (hs : stealStep c s w draw lost = some s') : Acts (.worker w) w s s' := by
  unfold stealStep at hs
  cases hpc : s.pc (.worker w) with
  | steal =>
    simp only [hpc, Option.some.injEq] at hs
    subst hs
    split
    · exact .goto rfl rfl rfl (.inl rfl)
    · exact .goto rfl rfl rfl (.inl rfl)
  | stealHalf start i =>
    -- `TakeHalf` and `Steal` on a victim's deque are not owner-only
    simp only [hpc, Option.some.injEq] at hs
    subst hs
    split
    · exact .goto rfl rfl rfl (.inl rfl)
    split
    · exact .goto rfl rfl rfl (.inl rfl)
    split
    · exact .goto rfl rfl rfl (.inl rfl)
    · exact .goto rfl rfl rfl (.inl rfl)
  | stealOne start i =>
    simp only [hpc, Option.some.injEq] at hs
    subst hs
    split
    · exact .goto rfl rfl rfl (.inl rfl)
    · exact .goto rfl rfl rfl (.inl rfl)
  | batch t rest =>
    cases rest with
    | nil =>
      simp only [hpc, Option.some.injEq] at hs
      subst hs
      exact .goto rfl rfl rfl (.inl rfl)
    | cons x rest =>
      simp only [hpc, Option.some.injEq] at hs
      subst hs
      split
      · exact .of_logOwner (.goto rfl rfl rfl (.inl rfl)) rfl
      · exact .of_logOwner (.goto rfl rfl rfl (.inl rfl)) rfl
  | batchSpill =>
    simp only [hpc, Option.some.injEq] at hs
    subst hs
    exact .goto rfl rfl rfl (.inl rfl)
  | _ => simp only [hpc, reduceCtorEq] at hs

theorem workerStep_acts (hs : workerStep c s w draw lost = some s') :
    Acts (.worker w) w s s' := by
  unfold workerStep at hs
  cases hpc : s.pc (.worker w) with
  | top =>
    simp only [hpc, Option.some.injEq] at hs
    subst hs
    split
    · refine .goto rfl rfl rfl (.inl ?_)
      split
      · rfl
      · rfl
    · exact .goto rfl rfl rfl (.inl rfl)
  | globalCheck | globalPop =>
    simp only [hpc, Option.some.injEq] at hs
    subst hs
    refine .goto rfl rfl rfl (.inl ?_)
    split
    · rfl
    · rfl
  | lifo | tryPop =>
    simp only [hpc, Option.some.injEq] at hs
    subst hs
    split
    · exact .of_logOwner (.goto rfl rfl rfl (.inl rfl)) rfl
    · exact .of_logOwner (.goto rfl rfl rfl (.inl rfl)) rfl
  | execute =>
    simp only [hpc, Option.some.injEq] at hs
    subst hs
    exact .goto rfl rfl rfl (.inl rfl)
  | inbox | detach | drain | drainPush | drainSpill =>
    simp only [hpc] at hs
    exact drainStep_acts hs
  | steal | stealHalf | stealOne | batch | batchSpill =>
    simp only [hpc] at hs
    exact stealStep_acts hs
  | _ => simp only [hpc, reduceCtorEq] at hs

/-- A step inside a `schedule` call works for the worker the call is for. -/
theorem scheduleStep_acts (hs : scheduleStep s th lost = some s') :
    ∃ w, (s.pc th).frame = some w ∧ Acts th w s s' := by
  unfold scheduleStep at hs
  cases hpc : s.pc th with
  | schedPush w t =>
    simp only [hpc, Option.some.injEq] at hs
    subst hs
    refine ⟨w, rfl, ?_⟩
    split
    · exact .of_logOwner (.goto rfl rfl rfl (.inl rfl)) rfl
    · exact .of_logOwner (.goto rfl rfl rfl (.inr rfl)) rfl
  | schedTake w t =>
    simp only [hpc, Option.some.injEq] at hs
    subst hs
    refine ⟨w, rfl, ?_⟩
    split
    · exact .of_logOwner (.goto rfl rfl rfl (.inr rfl)) rfl
    · exact .of_logOwner (.goto rfl rfl rfl (.inr rfl)) rfl
  | schedLink w t x rest =>
    simp only [hpc, Option.some.injEq] at hs
    subst hs
    exact ⟨w, rfl, .goto rfl rfl rfl (.inr rfl)⟩
  | schedBatch w t x | schedGlobal w t =>
    simp only [hpc, Option.some.injEq] at hs
    subst hs
    exact ⟨w, rfl, .goto rfl rfl rfl (.inl rfl)⟩
  | _ => simp only [hpc, reduceCtorEq] at hs

omit [DecidableEq Task] in
/-- The first step of a call on the owner's path, its log entry apart. -/
theorem scheduleOwner_acts (hth : s.pc th = .calling) :
    Acts th w (s.logCall th .owner) (scheduleOwner s th w task) := by
  unfold scheduleOwner
  simp only
  split
  · refine ⟨fun _ _ => rfl, fun v hv => ?_, rfl, Or.inr rfl⟩
    have hnone : (s.pc th).frame = none := hth ▸ rfl
    exact nomatch hnone.symm.trans hv
  · exact ⟨fun th' hne => Function.update_of_ne hne _ _, fun v hv => by
      simp only [State.goto, Function.update_self] at hv
      exact (Option.some.inj hv).symm, rfl, Or.inr rfl⟩

/-! ### The discipline -/

/-- Every owner-only operation of worker `w` so far, and every one still to come in a
`schedule` call in progress, is by the thread of `w`; no thread outside took the owner's
path. -/
structure Discipline (c : Config E K) (s : State E K Task) : Prop where
  ops : ∀ op ∈ s.ownerOps, op.1 = .worker op.2
  calls : ∀ call ∈ s.calls, call.2 = .owner → ∃ w, call.1 = .worker w
  frames : ∀ th v, (s.pc th).frame = some v → th = .worker v ∧ v.2 < c.nthreads v.1

omit [DecidableEq E] [DecidableEq K] [DecidableEq Task] in
theorem discipline_init (next : Task → Option Task) :
    Discipline c (init next : State E K Task) where
  ops := fun _ h => absurd h List.not_mem_nil
  calls := fun _ h => absurd h List.not_mem_nil
  frames := fun th v h => by
    cases th with
    | worker => cases h
    | other => cases h

omit [DecidableEq E] [DecidableEq K] [DecidableEq Task] in
theorem Discipline.congr (h : Discipline c s) (hpc : s'.pc = s.pc) (hops : s'.ownerOps = s.ownerOps)
    (hcalls : s'.calls = s.calls) : Discipline c s' :=
  ⟨hops ▸ h.ops, hcalls ▸ h.calls, hpc ▸ h.frames⟩

omit [DecidableEq E] [DecidableEq K] [DecidableEq Task] in
theorem Discipline.logCall {r : Route} (h : Discipline c s)
    (hr : r = .owner → ∃ w, th = .worker w) : Discipline c (s.logCall th r) where
  ops := h.ops
  calls := fun call hcall => by
    rcases List.mem_append.mp hcall with hold | hnew
    · exact h.calls call hold
    · obtain rfl := List.mem_singleton.mp hnew
      exact hr
  frames := h.frames

omit [DecidableEq E] [DecidableEq K] [DecidableEq Task] in
/-- The thread of worker `w` may do what it likes with it. -/
theorem Acts.discipline (h : Acts (.worker w) w s s') (hw : w.2 < c.nthreads w.1)
    (hd : Discipline c s) : Discipline c s' where
  ops := fun op hop => by
    rcases h.ops with hops | hops
    · exact hd.ops op (hops ▸ hop)
    · rw [hops] at hop
      rcases List.mem_append.mp hop with hold | hnew
      · exact hd.ops op hold
      · obtain rfl := List.mem_singleton.mp hnew
        rfl
  calls := h.calls ▸ hd.calls
  frames := fun th v hv => by
    by_cases hth : th = .worker w
    · subst hth
      rw [h.frame v hv]
      exact ⟨rfl, hw⟩
    · exact hd.frames th v (h.pc th hth ▸ hv)

/-- The `schedule` call that a thread outside makes in this step. -/
def Label.outsideCall : Label E K Task → Option (K × E × Option ℕ)
  | .schedule (.other k) X (some _) target _ => some (k, X, target)
  | _ => none

omit [DecidableEq E] [DecidableEq K] [DecidableEq Task] in
theorem Label.eq_of_outsideCall {k : K} (h : (k, X, target) ∈ l.outsideCall) :
    ∃ task d, l = .schedule (.other k) X (some task) target d := by
  unfold outsideCall at h
  split at h
  · cases Option.some.inj h
    exact ⟨_, _, rfl⟩
  · cases h

/-- No thread outside takes the owner's path in this step. -/
def Safe (c : Config E K) (l : Label E K Task) : Prop :=
  ∀ call ∈ l.outsideCall, ¬ c.OwnerPath (.other call.1) call.2.1 call.2.2

omit [DecidableEq E] [DecidableEq K] [DecidableEq Task] in
/-- A call on the owner's path in a safe step is the owner's. -/
theorem eq_worker_of_ownerPath (hsafe : Safe c (.schedule th X (some task) target d))
    (ho : c.OwnerPath th X target) : th = .worker (X, (c.threadLocals th).2) := by
  cases th with
  | worker v =>
    obtain rfl : v.1 = X := Option.some.inj ho.1
    rfl
  | other k => exact absurd ho (hsafe (k, X, target) rfl)

/-- **Step lemma.** -/
theorem step_discipline (hd : Discipline c s) (hsafe : Safe c l) (hs : step c s l = some s') :
    Discipline c s' := by
  cases l with
  | start | stop | relink =>
    obtain rfl := Option.some.inj hs
    exact hd.congr rfl rfl rfl
  | spawn w | finish w =>
    simp only [step, Option.ite_none_right_eq_some, Option.some.injEq] at hs
    obtain ⟨hw, rfl⟩ := hs
    exact Acts.discipline (.goto rfl rfl rfl (.inl rfl)) hw.1 hd
  | work w draw lost =>
    simp only [step, Option.ite_none_right_eq_some] at hs
    exact (workerStep_acts hs.2).discipline hs.1 hd
  | schedule th X task target d =>
    cases task with
    | none => exact step_schedule_null hs ▸ hd
    | some task =>
      obtain ⟨hth, rfl⟩ := step_schedule hs
      by_cases ho : c.OwnerPath th X target
      · -- a safe step: the caller is the worker that its thread-locals name
        obtain ⟨i, hi⟩ : ∃ i, i = (c.threadLocals th).2 := ⟨_, rfl⟩
        obtain rfl : th = .worker (X, i) := hi ▸ eq_worker_of_ownerPath hsafe ho
        rw [scheduleCall_of_ownerPath ho, ← hi]
        refine (scheduleOwner_acts (s := s.logScheduled X task) hth).discipline (hi ▸ ho.2.1) ?_
        refine Discipline.logCall ?_ fun _ => ⟨_, rfl⟩
        exact hd.congr rfl rfl rfl
      · rcases scheduleCall_of_not_ownerPath ho (s.logScheduled X task) task d with
          ⟨i, -, he⟩ | he
        · rw [he]
          refine Discipline.logCall ?_ fun h => by cases h
          exact hd.congr rfl rfl rfl
        · rw [he]
          refine Discipline.logCall ?_ fun h => by cases h
          exact hd.congr rfl rfl rfl
  | proceed th lost =>
    -- a call in progress on the owner's path was begun by the owner
    obtain ⟨w, hw, hacts⟩ := scheduleStep_acts hs
    obtain ⟨rfl, hlt⟩ := hd.frames th w hw
    exact hacts.discipline hlt hd

omit [DecidableEq E] [DecidableEq K] [DecidableEq Task] in
theorem Acts.ownerOps_subset (h : Acts th w s s') : s.ownerOps ⊆ s'.ownerOps := by
  rcases h.ops with hops | hops
  · exact hops ▸ List.Subset.refl _
  · exact hops ▸ List.subset_append_left _ _

omit [DecidableEq Task] in
theorem scheduleOwner_ownerOps :
    (scheduleOwner s th w task).ownerOps = s.ownerOps ++ [(th, w)] := by
  unfold scheduleOwner
  simp only
  split
  · rfl
  · rfl

/-- The log of owner-only operations only grows. -/
theorem step_ownerOps (hs : step c s l = some s') : s.ownerOps ⊆ s'.ownerOps := by
  cases l with
  | start | stop | relink =>
    obtain rfl := Option.some.inj hs
    exact List.Subset.refl _
  | spawn w | finish w =>
    simp only [step, Option.ite_none_right_eq_some, Option.some.injEq] at hs
    obtain ⟨-, rfl⟩ := hs
    exact List.Subset.refl _
  | work w draw lost =>
    simp only [step, Option.ite_none_right_eq_some] at hs
    exact (workerStep_acts hs.2).ownerOps_subset
  | schedule th X task target d =>
    cases task with
    | none => exact step_schedule_null hs ▸ List.Subset.refl _
    | some task =>
      obtain ⟨-, rfl⟩ := step_schedule hs
      by_cases ho : c.OwnerPath th X target
      · rw [scheduleCall_of_ownerPath ho, scheduleOwner_ownerOps]
        exact List.subset_append_left _ _
      · rcases scheduleCall_of_not_ownerPath ho (s.logScheduled X task) task d with
          ⟨i, -, he⟩ | he
        · rw [he]
          exact List.Subset.refl _
        · rw [he]
          exact List.Subset.refl _
  | proceed th lost =>
    obtain ⟨w, -, h⟩ := scheduleStep_acts hs
    exact h.ownerOps_subset

/-- A thread outside that takes the owner's path performs an owner-only operation. -/
theorem step_breach {k : K} (hs : step c s (.schedule (.other k) X (some task) target d) = some s')
    (ho : c.OwnerPath (.other k) X target) :
    (Thread.other k, (X, (c.tls k).2)) ∈ s'.ownerOps := by
  obtain ⟨-, rfl⟩ := step_schedule hs
  rw [scheduleCall_of_ownerPath ho, scheduleOwner_ownerOps]
  exact List.mem_append_right _ (List.mem_singleton.mpr rfl)

/-! ### Whole runs -/

variable {next : Task → Option Task}

/-- **Run lemma.**  Unless a thread outside takes the owner's path, the discipline holds. -/
theorem run_discipline (hrun : StepSystem.run (step c) (init next) ls = some s)
    (hsafe : ∀ l ∈ ls, Safe c l) : Discipline c s := by
  have hstep : ∀ (s : State E K Task) l s', Discipline c s → Safe c l → step c s l = some s' →
      Discipline c s' := fun _ _ _ => step_discipline
  exact StepSystem.run_invariant_of_meets hstep (discipline_init next)
    (StepSystem.Meets.of_forall hsafe) hrun

/-- **One call on the owner's path from outside** breaks the discipline for good. -/
theorem run_breach {k : K} (hrun : StepSystem.run (step c) (init next) ls = some s)
    (hmem : .schedule (.other k) X (some task) target d ∈ ls)
    (ho : c.OwnerPath (.other k) X target) :
    (Thread.other k, (X, (c.tls k).2)) ∈ s.ownerOps := by
  let R : List (Label E K Task) → State E K Task → Prop := fun ls s =>
    .schedule (.other k) X (some task) target d ∈ ls →
      (Thread.other k, (X, (c.tls k).2)) ∈ s.ownerOps
  have hR : R ls s := by
    refine StepSystem.run_induction (R := R) (fun h => absurd h List.not_mem_nil) ?_ hrun
    intro ls s l s' ih hs hmem
    rcases List.mem_append.mp hmem with hold | hnew
    · exact step_ownerOps hs (ih hold)
    · obtain rfl := List.mem_singleton.mp hnew
      exact step_breach hs ho
  exact hR hmem

end WorkStealing
