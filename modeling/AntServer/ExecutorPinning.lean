/-
Where a task scheduled for one worker runs.

`schedule(task, i)`, and with it `co_await resume_on(executor, i)`, puts the task into the
inbox of worker `i`, or into its LIFO slot when called on its thread.  These places are private
to the worker.  But a worker that drains its inbox keeps the first task only and pushes the
others to its deque or to the global queue, from where any worker takes them, and a call on the
worker's own thread does the same with the task when the LIFO slot is occupied.

* `Pinned`, `pinStep` — the executors together with a record of the workers that the pending
  calls name;
* `PinSafe` — the drain loop meets no task that a call named a worker for, and a targeted
  call on the worker's own thread finds the LIFO slot free;
* `pinned_runs` — then every such task is run by the worker that its call named;
* `pinned_task_stolen` — two calls for one worker, and the other worker runs the first task.
-/
import AntServer.ExecutorConservation
import AntServer.ExecutorPrivate

namespace WorkStealing

variable {E K Task : Type*} [DecidableEq E] [DecidableEq K] [DecidableEq Task]

/-! ### The record -/

/-- `kAnyWorkerThread`, the largest `size_t`. -/
def kAnyWorkerThread : ℕ := 2 ^ 64 - 1

/-- The call that `ResumeOnAwaiter::await_suspend` makes for its `task_` on thread `th`. -/
def resumeOn (th : Thread E K) (X : E) (task : Task) (targetThreadId : ℕ) (d : Draws) :
    Label E K Task :=
  if targetThreadId = kAnyWorkerThread then .schedule th X (some task) none d
  else .schedule th X (some task) (some targetThreadId) d

omit [DecidableEq E] [DecidableEq K] [DecidableEq Task] in
/-- For the number of a worker it is a targeted call. -/
theorem resumeOn_of_lt {n i : ℕ} (hi : i < n) (hn : n < 2 ^ 64) (th : Thread E K) (X : E)
    (task : Task) (d : Draws) :
    resumeOn th X task i d = .schedule th X (some task) (some i) d := by
  rw [resumeOn, if_neg]
  rw [kAnyWorkerThread]
  omega

/-- The worker that a call of `schedule` names. -/
def Config.names (c : Config E K) (X : E) (target : Option ℕ) : Option (E × ℕ) :=
  target.bind fun i => if i < c.nthreads X then some (X, i) else none

/-- The executors and, as history, the worker that the last call for a task named, until
the task is run. -/
structure Pinned (E K Task : Type*) where
  exec : State E K Task
  named : Task → Option (E × ℕ)
  runs : List (((E × ℕ) × Task) × Option (E × ℕ))   -- who ran what, and who was named

def pinInit (next : Task → Option Task) : Pinned E K Task where
  exec := init next
  named := fun _ => none
  runs := []

/-- The record after a step. -/
def Pinned.after (c : Config E K) (p : Pinned E K Task) (s' : State E K Task) :
    Label E K Task → Pinned E K Task
  | .schedule _ X (some task) target _ =>
    { p with exec := s', named := Function.update p.named task (c.names X target) }
  | .work w _ _ =>
    match (p.exec.pc (.worker w)).runs with
    | some task =>
      { exec := s', named := Function.update p.named task none,
        runs := p.runs ++ [((w, task), p.named task)] }
    | none => { p with exec := s' }
  | _ => { p with exec := s' }

section After

variable {c : Config E K} {p : Pinned E K Task} {s' : State E K Task} {w : E × ℕ} {draw : ℕ}
  {lost : Bool}

omit [DecidableEq E] [DecidableEq K] in
theorem Pinned.after_work_of_none (h : (p.exec.pc (.worker w)).runs = none) :
    p.after c s' (.work w draw lost) = { p with exec := s' } := by
  simp only [Pinned.after, h]

omit [DecidableEq E] [DecidableEq K] in
theorem Pinned.after_work_of_some {task : Task} (h : (p.exec.pc (.worker w)).runs = some task) :
    p.after c s' (.work w draw lost) =
      { exec := s', named := Function.update p.named task none,
        runs := p.runs ++ [((w, task), p.named task)] } := by
  simp only [Pinned.after, h]

end After

def pinStep (c : Config E K) (p : Pinned E K Task) (l : Label E K Task) :
    Option (Pinned E K Task) :=
  (step c p.exec l).map fun s' => p.after c s' l

/-! ### The condition -/

/-- What keeps a named task private in this step, where the executor has other workers. -/
def KeepsPrivate (c : Config E K) (p : Pinned E K Task) : Label E K Task → Prop
  | .work w _ _ =>
    ∀ task ∈ (p.exec.pc (.worker w)).drains, c.nthreads w.1 = 1 ∨ p.named task = none
  | .schedule (.worker w) X (some _) (some i) _ =>
    w = (X, i) → c.nthreads X = 1 ∨ p.exec.lifoSlot w = none
  | _ => True

instance (c : Config E K) (p : Pinned E K Task) (l : Label E K Task) :
    Decidable (KeepsPrivate c p l) := by
  unfold KeepsPrivate
  split <;> infer_instance

/-- The steps considered: those of `Admissible` that keep named tasks private. -/
def PinSafe (c : Config E K) (p : Pinned E K Task) (l : Label E K Task) : Prop :=
  Admissible c p.exec l ∧ KeepsPrivate c p l

instance (c : Config E K) (p : Pinned E K Task) (l : Label E K Task) :
    Decidable (PinSafe c p l) :=
  inferInstanceAs (Decidable (_ ∧ _))

/-! ### The invariant -/

section Invariant

variable {c : Config E K} {s s' : State E K Task} {L L' : Place E → List Task} {w v : E × ℕ}
  {t x : Task} {X : E} {p p' : Pinned E K Task} {l : Label E K Task}
  {th : Thread E K} {target : Option ℕ} {d : Draws}

omit [DecidableEq E] [DecidableEq K] [DecidableEq Task] in
theorem names_eq_some (h : c.names X target = some v) :
    v.2 < c.nthreads X ∧ v.1 = X ∧ target = some v.2 := by
  obtain ⟨i, rfl, hi⟩ := Option.bind_eq_some_iff.mp h
  obtain ⟨hlt, heq⟩ := Option.ite_none_right_eq_some.mp hi
  obtain rfl := Option.some.inj heq
  exact ⟨hlt, rfl, rfl⟩

/-- Where a targeted call puts the task. -/
theorem scheduled_private (h : Represents s L)
    (h' : Represents (scheduleCall c (s.logScheduled X x) th X x target d) L')
    (hnew : ¬ Within L x) (hnames : c.names X target = some v)
    (hown : c.OwnerPath th X target → th = .worker (X, (c.threadLocals th).2)) :
    (∃ q ∈ placesOf v.1, x ∈ L' q) ∧ ((th = .worker v → s.lifoSlot v = none) →
      Private (scheduleCall c (s.logScheduled X x) th X x target d) L' v x) := by
  obtain ⟨hlt, rfl, rfl⟩ := names_eq_some hnames
  by_cases htls : c.threadLocals th = (some v.1, v.2)
  · -- on the worker's own thread
    have ho : c.OwnerPath th v.1 (some v.2) := by
      rw [Config.OwnerPath, htls]
      exact ⟨rfl, hlt, Or.inr rfl⟩
    have hth : th = .worker v := by
      have := hown ho
      rwa [htls] at this
    have hcall := scheduleCall_of_ownerPath ho (s.logScheduled v.1 x) x d
    rw [htls] at hcall
    rw [hcall] at h' ⊢
    cases hslot : s.lifoSlot v with
    | none =>
      rw [scheduleOwner_of_none (s := s.logScheduled v.1 x) hslot] at h' ⊢
      have hlifo : L' (.lifo v) = (Function.update s.lifoSlot v (some x) v).toList := h' (.lifo v)
      rw [Function.update_self] at hlifo
      have hx : x ∈ L' (.lifo v) := hlifo ▸ List.mem_singleton.mpr rfl
      exact ⟨⟨.lifo v, rfl, hx⟩, fun _ => Or.inr (Or.inl hx)⟩
    | some y =>
      rw [scheduleOwner_of_some (s := s.logScheduled v.1 x) hslot] at h' ⊢
      subst hth
      have hheld : L' (.held v) = [x] := h'.holds (State.pc_goto ..)
      refine ⟨⟨.held v, rfl, hheld ▸ List.mem_singleton.mpr rfl⟩, fun hfree => ?_⟩
      exact absurd (hfree rfl) (Option.some_ne_none y)
  · have hcall : WorkStealing.scheduleCall c (s.logScheduled v.1 x) th v.1 x (some v.2) d =
        ((s.logScheduled v.1 x).pushInbox v x).logCall th .inbox :=
      (if_neg (not_le.mpr hlt)).trans (if_neg htls)
    rw [hcall] at h' ⊢
    have hx : x ∈ L' (.inbox v) := by
      rw [inbox_pushInbox h hnew h']
      exact List.mem_cons_self
    exact ⟨⟨.inbox v, rfl, hx⟩, fun _ => Or.inl hx⟩

/-- Every task that a pending call named a worker for is private to that worker, or is in the
only worker's executor; and so far such tasks were run by the worker named. -/
structure PinInv (c : Config E K) (p : Pinned E K Task) (L : Place E → List Task) : Prop where
  disc : Discipline c p.exec
  conserved : Conserved c p.exec L
  number : ∀ t v, p.named t = some v → v.2 < c.nthreads v.1
  place : ∀ t v, p.named t = some v → ∃ q ∈ placesOf v.1, t ∈ L q
  priv : ∀ t v, p.named t = some v → c.nthreads v.1 ≠ 1 → Private p.exec L v t
  ran : p.runs.map Prod.fst = p.exec.ran
  served : ∀ r ∈ p.runs, ∀ v, r.2 = some v → r.1.1 = v

omit [DecidableEq K] in
theorem pinInv_init (next : Task → Option Task) : PinInv c (pinInit next) fun _ => [] where
  disc := discipline_init next
  conserved := conserved_init next
  number := fun _ _ h => nomatch h
  place := fun _ _ h => nomatch h
  priv := fun _ _ h => nomatch h
  ran := rfl
  served := fun _ h => absurd h List.not_mem_nil

omit [DecidableEq E] [DecidableEq K] [DecidableEq Task] in
/-- A task that is not run stays with its executor. -/
theorem Accounted.place {rs : List ((E × ℕ) × Task)} (hacc : Accounted w s s' L)
    (h' : Represents s' L') (hran : s'.ran = s.ran ++ rs) (hrs : (w, t) ∉ rs)
    (ht : ∃ q ∈ placesOf X, t ∈ L q) : ∃ q ∈ placesOf X, t ∈ L' q := by
  obtain ⟨L₀, ins, outs, hrep, htr, -, -, -, hran'⟩ := hacc
  obtain rfl := hrep.unique h'
  obtain rfl : rs = outs.map (w, ·) := List.append_cancel_left (hran.symm.trans hran')
  have hout : t ∉ outs := fun hmem => hrs (List.mem_map_of_mem hmem)
  obtain ⟨q, hq, htq⟩ := ht
  by_cases hX : X = w.1
  · subst hX
    exact (htr.mem_or hq htq).resolve_left hout
  · have hnot : q ∉ placesOf w.1 := fun hq' => hX (hq.symm.trans hq')
    exact ⟨q, hq, htr.eq_of_notMem hnot ▸ htq⟩

omit [DecidableEq E] [DecidableEq K] [DecidableEq Task] in
theorem mem_held_of_runs (h : Represents s L) (hx : x ∈ (s.pc (.worker w)).runs) :
    x ∈ L (.held w) := by
  cases hpc : s.pc (.worker w) with
  | execute y =>
    rw [hpc] at hx
    obtain rfl : y = x := Option.some.inj hx
    have hheld : L (.held w) = [y] := h.holds hpc
    rw [hheld]
    exact List.mem_singleton.mpr rfl
  | _ =>
    rw [hpc] at hx
    cases hx

omit [DecidableEq E] [DecidableEq K] [DecidableEq Task] in
theorem mem_held_of_drains (h : Represents s L) (hx : x ∈ (s.pc (.worker w)).drains) :
    x ∈ L (.held w) := by
  cases hpc : s.pc (.worker w) with
  | drain y curr =>
    rw [hpc] at hx
    cases curr with
    | none => cases hx
    | some z =>
      obtain rfl : z = x := Option.some.inj hx
      obtain ⟨ys, hys, hchain⟩ := h.holds hpc
      obtain ⟨zs, rfl, -⟩ := hchain.tail
      rw [hys]
      exact List.mem_cons_of_mem y List.mem_cons_self
  | _ =>
    rw [hpc] at hx
    cases hx

omit [DecidableEq K] in
/-- A named task at hand is at hand in the executor of the worker named. -/
theorem PinInv.executor_eq (h : PinInv c p L) (hn : p.named t = some v) (ht : t ∈ L (.held w)) :
    v.1 = w.1 := by
  obtain ⟨q, hq, htq⟩ := h.place t v hn
  obtain rfl := h.conserved.separate.eq_of_mem htq ht
  exact hq.symm

omit [DecidableEq K] in
/-- **The worker that runs a named task** is the one named. -/
theorem PinInv.runner_eq (h : PinInv c p L) (hw : w.2 < c.nthreads w.1)
    (hx : x ∈ (p.exec.pc (.worker w)).runs) (hn : p.named x = some v) : w = v := by
  have hheld := mem_held_of_runs h.conserved.lists hx
  by_cases hone : c.nthreads v.1 = 1
  · have hexec := h.executor_eq hn hheld
    have hnum := h.number x v hn
    rw [← hexec, hone] at hw
    rw [hone] at hnum
    exact Prod.ext hexec.symm (by omega)
  · have hsep := h.conserved.separate
    rcases h.priv x v hn hone with hq | hq | ⟨hq, -⟩
    · cases hsep.eq_of_mem hq hheld
    · cases hsep.eq_of_mem hq hheld
    · have heq := hsep.eq_of_mem hq hheld
      simpa using heq.symm

omit [DecidableEq K] in
/-- Named tasks through a step that neither schedules nor runs one. -/
theorem PinInv.keep (h : PinInv c p L) (hd : Discipline c s') (hC : Conserved c s' L')
    (hplace : ∀ t v, p.named t = some v → ∃ q ∈ placesOf v.1, t ∈ L' q)
    (hpriv : ∀ t v, p.named t = some v → c.nthreads v.1 ≠ 1 → Private s' L' v t)
    (hran : s'.ran = p.exec.ran) : PinInv c { p with exec := s' } L' :=
  ⟨hd, hC, h.number, hplace, hpriv, h.ran.trans hran.symm, h.served⟩

omit [DecidableEq E] [DecidableEq K] in
theorem named_cases {f : Task → Option (E × ℕ)} {o : Option (E × ℕ)}
    (h : Function.update f x o t = some v) : (t = x ∧ o = some v) ∨ (t ≠ x ∧ f t = some v) := by
  by_cases ht : t = x
  · subst ht
    rw [Function.update_self] at h
    exact Or.inl ⟨rfl, h⟩
  · rw [Function.update_of_ne ht] at h
    exact Or.inr ⟨ht, h⟩

/-- A step of `WorkerLoop`. -/
theorem PinInv.work {draw : ℕ} {lost : Bool} (h : PinInv c p L)
    (hl : PinSafe c p (.work w draw lost)) (hs : step c p.exec (.work w draw lost) = some s') :
    ∃ L', PinInv c (p.after c s' (.work w draw lost)) L' := by
  obtain ⟨L', hC'⟩ := step_conserved h.disc h.conserved hl.1 hs
  have hd' := step_discipline h.disc hl.1.safe hs
  obtain ⟨hlt, hw⟩ := Option.ite_none_right_eq_some.mp hs
  have hrep := h.conserved.lists
  have hsep := h.conserved.separate
  have hran := (workerStep_leaves hrep hw).ran
  -- what is not run stays where it may be
  have hplace : ∀ t v, p.named t = some v → t ∉ (p.exec.pc (.worker w)).runs →
      ∃ q ∈ placesOf v.1, t ∈ L' q := by
    intro t v hn hnot
    refine (workerStep_accounted hrep hsep hw).place hC'.lists hran (fun hmem => hnot ?_)
      (h.place t v hn)
    obtain ⟨x, hx, heq⟩ := List.mem_map.mp hmem
    obtain rfl : x = t := (Prod.mk.inj heq).2
    exact Option.mem_toList.mp hx
  have hpriv : ∀ t v, p.named t = some v → c.nthreads v.1 ≠ 1 →
      t ∉ (p.exec.pc (.worker w)).runs → Private s' L' v t := by
    intro t v hn hone hnot
    refine (h.priv t v hn hone).workerStep hrep hsep hC'.lists hw (fun hdrain => ?_) hnot
    rcases hl.2 t hdrain with h1 | hnone
    · exact hone (h.executor_eq hn (mem_held_of_drains hrep hdrain) ▸ h1)
    · rw [hn] at hnone
      cases hnone
  refine ⟨L', ?_⟩
  cases hruns : (p.exec.pc (.worker w)).runs with
  | none =>
    rw [Pinned.after_work_of_none hruns]
    have hnot : ∀ t, t ∉ (p.exec.pc (.worker w)).runs := fun t ht => by
      rw [hruns] at ht
      cases ht
    refine h.keep hd' hC' (fun t v hn => hplace t v hn (hnot t))
      (fun t v hn hone => hpriv t v hn hone (hnot t)) ?_
    rw [hran, hruns]
    exact List.append_nil _
  | some x =>
    rw [Pinned.after_work_of_some hruns]
    -- the task run is named no more
    have hold : ∀ t v, Function.update p.named x none t = some v →
        p.named t = some v ∧ t ∉ (p.exec.pc (.worker w)).runs := by
      intro t v hn
      rcases named_cases hn with ⟨-, hnone⟩ | ⟨hne, hn⟩
      · cases hnone
      · rw [hruns]
        exact ⟨hn, fun ht => hne (Option.some.inj ht).symm⟩
    refine ⟨hd', hC', fun t v hn => h.number t v (hold t v hn).1,
      fun t v hn => hplace t v (hold t v hn).1 (hold t v hn).2,
      fun t v hn hone => hpriv t v (hold t v hn).1 hone (hold t v hn).2, ?_, ?_⟩
    · show (p.runs ++ [_]).map Prod.fst = s'.ran
      rw [List.map_append, h.ran, hran, hruns]
      rfl
    · intro r hr v hv
      rcases List.mem_append.mp hr with hr | hr
      · exact h.served r hr v hv
      · obtain rfl := List.mem_singleton.mp hr
        exact h.runner_eq hlt hruns hv

theorem scheduleCall_ran {th : Thread E K} {target : Option ℕ} {d : Draws} :
    (scheduleCall c s th X x target d).ran = s.ran := by
  by_cases ho : c.OwnerPath th X target
  · rw [scheduleCall_of_ownerPath ho, scheduleOwner]
    split
    · rfl
    · rfl
  · rcases scheduleCall_of_not_ownerPath ho s x d with ⟨i, -, heq⟩ | heq
    · rw [heq]
      rfl
    · rw [heq]
      rfl

/-- A call of `schedule`. -/
theorem PinInv.schedule {th : Thread E K} {target : Option ℕ} {d : Draws} (h : PinInv c p L)
    (hl : PinSafe c p (.schedule th X (some x) target d))
    (hs : step c p.exec (.schedule th X (some x) target d) = some s') :
    ∃ L', PinInv c (p.after c s' (.schedule th X (some x) target d)) L' := by
  obtain ⟨L', hC'⟩ := step_conserved h.disc h.conserved hl.1 hs
  have hd' := step_discipline h.disc hl.1.safe hs
  have hrep := h.conserved.lists
  have hsep := h.conserved.separate
  have hnew : ¬ Within L x := h.conserved.not_within (hl.1.1 x rfl)
  have hown : c.OwnerPath th X target → th = .worker (X, (c.threadLocals th).2) :=
    eq_worker_of_ownerPath hl.1.safe
  obtain ⟨hth, rfl⟩ := step_schedule hs
  obtain ⟨i, -, hacc⟩ := scheduleCall_accounted (c := c) (d := d) hrep hsep hnew hth hown
  have hran : (scheduleCall c (p.exec.logScheduled X x) th X x target d).ran = p.exec.ran :=
    scheduleCall_ran
  refine ⟨L', hd', hC', fun t v hn => ?_, fun t v hn => ?_, fun t v hn hone => ?_,
    h.ran.trans hran.symm, h.served⟩
  · rcases named_cases hn with ⟨-, hnames⟩ | ⟨-, hold⟩
    · obtain ⟨hlt, rfl, -⟩ := names_eq_some hnames
      exact hlt
    · exact h.number t v hold
  · rcases named_cases hn with ⟨rfl, hnames⟩ | ⟨-, hold⟩
    · exact (scheduled_private hrep hC'.lists hnew hnames hown).1
    · exact hacc.place hC'.lists (hran.trans (List.append_nil _).symm) List.not_mem_nil
        (h.place t v hold)
  · rcases named_cases hn with ⟨rfl, hnames⟩ | ⟨-, hold⟩
    · refine (scheduled_private hrep hC'.lists hnew hnames hown).2 ?_
      rintro rfl
      obtain ⟨-, rfl, rfl⟩ := names_eq_some hnames
      exact (hl.2 rfl).resolve_left hone
    · exact (h.priv t v hold hone).scheduleCall hrep hsep hC'.lists hnew hth hown

omit [DecidableEq K] in
/-- A step that moves no task. -/
theorem PinInv.unmoved (h : PinInv c p L) (hd : Discipline c s') (hC : Conserved c s' L')
    (hcell : ∀ q, s'.cell q = p.exec.cell q)
    (hnext : ∀ y, Within L y → s'.next y = p.exec.next y) (hpc : s'.pc = p.exec.pc)
    (hran : s'.ran = p.exec.ran) : PinInv c { p with exec := s' } L' := by
  have hsame : L' = L := by
    funext q
    exact h.conserved.lists.place_eq hC.lists (hcell q) fun y hy => hnext y ⟨q, hy⟩
  subst hsame
  refine h.keep hd hC h.place (fun t v hn hone => ?_) hran
  rw [Private, hpc]
  exact h.priv t v hn hone

/-- A worker enters its loop. -/
theorem PinInv.enter (h : PinInv c p L) (hw : w.2 < c.nthreads w.1)
    (hheld : L (.held w) = []) (hpc : p.exec.pc (.worker w) = .stopped ∨
      p.exec.pc (.worker w) = .calling) (hC : Conserved c (p.exec.goto (.worker w) .top) L') :
    PinInv c { p with exec := p.exec.goto (.worker w) .top } L' := by
  have hacts : Acts (.worker w) w p.exec (p.exec.goto (.worker w) .top) :=
    .goto rfl rfl rfl (.inl rfl)
  have hruns : (p.exec.pc (.worker w)).runs = none := by
    rcases hpc with hpc | hpc
    · exact congrArg Pc.runs hpc
    · exact congrArg Pc.runs hpc
  have hleaves : Leaves w L p.exec (p.exec.goto (.worker w) .top) :=
    .of_eq hruns rfl rfl rfl rfl
  have hrep := h.conserved.lists
  have hsep := h.conserved.separate
  have hacc : Accounted w p.exec (p.exec.goto (.worker w) .top) L := hrep.goto hsep hheld
  refine h.keep (hacts.discipline hw h.disc) hC (fun t v hn => ?_) (fun t v hn hone => ?_) rfl
  · exact hacc.place hC.lists (List.append_nil _).symm List.not_mem_nil (h.place t v hn)
  · refine (h.priv t v hn hone).of_outside hleaves hacts hrep hsep hC.lists ?_ ?_ ?_
    · rcases hpc with hpc | hpc <;> simp [hpc]
    · rcases hpc with hpc | hpc <;> simp [hpc]
    · rcases hpc with hpc | hpc <;> simp [hpc, Pc.Keeps]

/-- **Step lemma.** -/
theorem pinStep_inv (h : PinInv c p L) (hl : PinSafe c p l) (hs : pinStep c p l = some p') :
    ∃ L', PinInv c p' L' := by
  obtain ⟨s', hstep, rfl⟩ := Option.map_eq_some_iff.mp hs
  cases l with
  | work w draw lost => exact h.work hl hstep
  | start X | stop X =>
    obtain ⟨L', hC'⟩ := step_conserved h.disc h.conserved hl.1 hstep
    have hd' := step_discipline h.disc hl.1.safe hstep
    obtain rfl := Option.some.inj hstep
    exact ⟨L', h.unmoved hd' hC' (fun _ => State.cell_setRunning _) (fun _ _ => rfl) rfl rfl⟩
  | relink x q =>
    obtain ⟨L', hC'⟩ := step_conserved h.disc h.conserved hl.1 hstep
    have hd' := step_discipline h.disc hl.1.safe hstep
    have hnew : ¬ Within L x := h.conserved.not_within (hl.1.1 x rfl)
    obtain rfl := Option.some.inj hstep
    refine ⟨L', h.unmoved hd' hC' (fun _ => State.cell_setLinks _) (fun y hy => ?_) rfl rfl⟩
    have hne : y ≠ x := fun he => hnew (he ▸ hy)
    exact Function.update_of_ne hne _ _
  | spawn w =>
    obtain ⟨L', hC'⟩ := step_conserved h.disc h.conserved hl.1 hstep
    obtain ⟨⟨hw, hpc⟩, heq⟩ := Option.ite_none_right_eq_some.mp hstep
    obtain rfl := Option.some.inj heq
    exact ⟨L', h.enter hw (h.conserved.lists.holds hpc) (Or.inl hpc) hC'⟩
  | finish w =>
    obtain ⟨L', hC'⟩ := step_conserved h.disc h.conserved hl.1 hstep
    obtain ⟨⟨hw, hpc⟩, heq⟩ := Option.ite_none_right_eq_some.mp hstep
    obtain rfl := Option.some.inj heq
    exact ⟨L', h.enter hw (h.conserved.lists.holds hpc) (Or.inr hpc) hC'⟩
  | schedule th X task target d =>
    cases task with
    | none =>
      obtain rfl := step_schedule_null hstep
      exact ⟨L, h⟩
    | some x => exact h.schedule hl hstep
  | proceed th lost =>
    obtain ⟨L', hC'⟩ := step_conserved h.disc h.conserved hl.1 hstep
    have hd' := step_discipline h.disc hl.1.safe hstep
    obtain ⟨w, hw, -⟩ := scheduleStep_acts hstep
    obtain ⟨rfl, -⟩ := h.disc.frames th w hw
    have hown : ∀ v, (p.exec.pc (.worker w)).frame = some v → v = w := fun v hv =>
      Option.some.inj (hv.symm.trans hw)
    have hrep := h.conserved.lists
    have hsep := h.conserved.separate
    have hran : s'.ran = p.exec.ran := by
      have hruns : (p.exec.pc (.worker w)).runs = none := by
        cases hpc : p.exec.pc (.worker w) with
        | execute x =>
          rw [hpc] at hw
          cases hw
        | _ => rfl
      rw [(scheduleStep_leaves hrep hstep hown).ran, hruns]
      exact List.append_nil _
    refine ⟨L', h.keep hd' hC' (fun t v hn => ?_) (fun t v hn hone => ?_) hran⟩
    · exact (scheduleStep_accounted hrep hsep hstep hown).place hC'.lists
        (hran.trans (List.append_nil _).symm) List.not_mem_nil (h.place t v hn)
    · exact (h.priv t v hn hone).scheduleStep hrep hsep hC'.lists hstep hown

end Invariant

/-! ### Whole runs -/

variable {c : Config E K} {p : Pinned E K Task} {ls : List (Label E K Task)}

/-- **Targeted scheduling.**  In every run whose steps keep named tasks private, the run of a
task whose `schedule(task, i)` named worker `i` is by worker `i`, and until then the task is
in a place of its executor. -/
theorem pinned_runs (next : Task → Option Task)
    (hrun : StepSystem.run (pinStep c) (pinInit next) ls = some p)
    (hok : StepSystem.Meets (pinStep c) (PinSafe c) (pinInit next) ls) :
    p.runs.map Prod.fst = p.exec.ran ∧ (∀ r ∈ p.runs, ∀ v, r.2 = some v → r.1.1 = v) ∧
      ∃ L, Represents p.exec L ∧ Separate L ∧
        ∀ t v, p.named t = some v → ∃ q ∈ placesOf v.1, t ∈ L q := by
  have hinv : ∃ L, PinInv c p L := by
    refine StepSystem.run_invariant_of_meets (I := fun p => ∃ L, PinInv c p L) ?_
      ⟨_, pinInv_init next⟩ hok hrun
    rintro p l p' ⟨L, h⟩ hl hs
    exact pinStep_inv h hl hs
  obtain ⟨L, h⟩ := hinv
  exact ⟨h.ran, h.served, L, h.conserved.lists, h.conserved.separate, h.place⟩

/-- A task for worker 1 and, from its run, one more for worker 1. -/
def pinnedLabels : List (Label Bool Unit ℕ) :=
  [.start true, .spawn (true, 0), .spawn (true, 1),
    resumeOn (.other ()) true 5 1 ⟨0, 0, 0, 0⟩,
    .schedule (.other ()) true (some 6) (some 0) ⟨0, 0, 0, 0⟩] ++
  List.replicate 6 (.work (true, 1) 0 false) ++
  [resumeOn (.worker (true, 1)) true 7 1 ⟨0, 0, 0, 0⟩, .finish (true, 1)] ++
  List.replicate 3 (.work (true, 1) 0 false)

theorem pinned_runs_worker_one :
    ∃ p, StepSystem.run (pinStep hopConfig) (pinInit fun _ => none) pinnedLabels = some p ∧
      p.exec.ran = [((true, 1), 5), ((true, 1), 7)] ∧
      p.runs.map Prod.fst = p.exec.ran ∧ (∀ r ∈ p.runs, ∀ v, r.2 = some v → r.1.1 = v) ∧
      ∃ L, Represents p.exec L ∧ Separate L ∧
        ∀ t v, p.named t = some v → ∃ q ∈ placesOf v.1, t ∈ L q := by
  obtain ⟨p, hrun, hran⟩ : ∃ p, StepSystem.run (pinStep hopConfig) (pinInit fun _ => none)
      pinnedLabels = some p ∧ p.exec.ran = [((true, 1), 5), ((true, 1), 7)] :=
    StepSystem.exists_of_run_any (by decide +kernel)
  exact ⟨p, hrun, hran, pinned_runs _ hrun (by decide +kernel)⟩

/-- Two tasks for worker 0, drained together; worker 1 steals the first one. -/
def stolenLabels : List (Label Bool Unit ℕ) :=
  [.start true, .spawn (true, 0), .spawn (true, 1),
    resumeOn (.other ()) true 5 0 ⟨0, 0, 0, 0⟩,
    resumeOn (.other ()) true 6 0 ⟨0, 0, 0, 0⟩] ++
  List.replicate 6 (.work (true, 0) 0 false) ++
  List.replicate 8 (.work (true, 1) 0 false)

theorem pinned_task_stolen :
    ∃ p, StepSystem.run (pinStep hopConfig) (pinInit fun _ => none) stolenLabels = some p ∧
      p.exec.ran = [((true, 1), 5)] ∧ p.runs = [(((true, 1), 5), some (true, 0))] :=
  StepSystem.exists_of_run_any (by decide +kernel)

end WorkStealing
