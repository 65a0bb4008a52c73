/-
The timer keeper and its executor together.

`TimerKeeper::Run` chains the expired tasks through `TaskNode::next` and hands them to
`executor_.schedule` one by one; the executor chains its tasks through the same field.  Here the
two models run side by side on one memory of links, in any order of their steps.

* `step` — the steps of the keeper, its dispatches into the executor `X`, the steps of executors;
* `Allowed` — a task is added, scheduled or relinked only while neither side has it;
* `Joint` — the invariant: both accounts hold, no task is on both sides, and the links agree;
* `timers_run_once` — **every timer that is not canceled leads to one run of its task**, not
  before its time.
-/
import AntServer.ExecutorPrivate
import AntServer.ExecutorConservation
import AntServer.TimerCancel

/-! ### The executor's steps, seen from outside -/

namespace WorkStealing

variable {E K Task : Type*} [DecidableEq E] [DecidableEq K] [DecidableEq Task] {c : Config E K}
  {s s' : State E K Task} {L : Place E → List Task} {w : E × ℕ} {l : Label E K Task} {t x : Task}
  {draw : ℕ} {lost : Bool} {th : Thread E K}

/-- The call of `schedule` in a step. -/
def Label.call : Label E K Task → List (E × Task)
  | .schedule _ X (some t) _ _ => [(X, t)]
  | _ => []

theorem drainStep_scheduled (hs : drainStep s w = some s') : s'.scheduled = s.scheduled := by
  unfold drainStep at hs
  cases hpc : s.pc (.worker w) with
  | inbox | drainPush =>
    simp only [hpc, Option.some.injEq] at hs
    subst hs
    split
    · rfl
    · rfl
  | detach | drainSpill =>
    simp only [hpc, Option.some.injEq] at hs
    subst hs
    rfl
  | drain y curr =>
    cases curr with
    | none | some =>
      simp only [hpc, Option.some.injEq] at hs
      subst hs
      rfl
  | _ => simp only [hpc, reduceCtorEq] at hs

theorem stealStep_scheduled (hs : stealStep c s w draw lost = some s') :
    s'.scheduled = s.scheduled := by
  unfold stealStep at hs
  cases hpc : s.pc (.worker w) with
  | steal | batchSpill =>
    simp only [hpc, Option.some.injEq] at hs
    subst hs
    rfl
  | stealHalf start i =>
    simp only [hpc, Option.some.injEq] at hs
    subst hs
    split
    · rfl
    split
    · rfl
    split
    · rfl
    · rfl
  | stealOne start i =>
    simp only [hpc, Option.some.injEq] at hs
    subst hs
    split
    · rfl
    · rfl
  | batch y rest =>
    cases rest with
    | nil =>
      simp only [hpc, Option.some.injEq] at hs
      subst hs
      rfl
    | cons z rest =>
      simp only [hpc, Option.some.injEq] at hs
      subst hs
      split
      · rfl
      · rfl
  | _ => simp only [hpc, reduceCtorEq] at hs

theorem workerStep_scheduled (hs : workerStep c s w draw lost = some s') :
    s'.scheduled = s.scheduled := by
  unfold workerStep at hs
  cases hpc : s.pc (.worker w) with
  | top | lifo | tryPop =>
    simp only [hpc, Option.some.injEq] at hs
    subst hs
    split
    · rfl
    · rfl
  | globalCheck | globalPop | execute =>
    simp only [hpc, Option.some.injEq] at hs
    subst hs
    rfl
  | inbox | detach | drain | drainPush | drainSpill =>
    simp only [hpc] at hs
    exact drainStep_scheduled hs
  | steal | stealHalf | stealOne | batch | batchSpill =>
    simp only [hpc] at hs
    exact stealStep_scheduled hs
  | _ => simp only [hpc, reduceCtorEq] at hs

theorem scheduleStep_scheduled (hs : scheduleStep s th lost = some s') :
    s'.scheduled = s.scheduled := by
  unfold scheduleStep at hs
  cases hpc : s.pc th with
  | schedPush | schedTake =>
    simp only [hpc, Option.some.injEq] at hs
    subst hs
    split
    · rfl
    · rfl
  | schedLink | schedBatch | schedGlobal =>
    simp only [hpc, Option.some.injEq] at hs
    subst hs
    rfl
  | _ => simp only [hpc, reduceCtorEq] at hs

theorem scheduleCall_log {X : E} {target : Option ℕ} {d : Draws} :
    (scheduleCall c s th X t target d).scheduled = s.scheduled ∧
      (scheduleCall c s th X t target d).ran = s.ran := by
  by_cases ho : c.OwnerPath th X target
  · rw [scheduleCall_of_ownerPath ho, scheduleOwner]
    split
    · exact ⟨rfl, rfl⟩
    · exact ⟨rfl, rfl⟩
  · rcases scheduleCall_of_not_ownerPath ho s t d with ⟨i, -, heq⟩ | heq
    · rw [heq]
      exact ⟨rfl, rfl⟩
    · rw [heq]
      exact ⟨rfl, rfl⟩

/-- A call of `schedule` writes the link of its task and of queued ones. -/
theorem scheduleCall_next {X : E} {target : Option ℕ} {d : Draws} (h : Represents s L)
    (hx : ¬ Within L x) (hxt : x ≠ t) :
    (scheduleCall c s th X t target d).next x = s.next x := by
  by_cases ho : c.OwnerPath th X target
  · rw [scheduleCall_of_ownerPath ho, scheduleOwner]
    split
    · rfl
    · rfl
  · rcases scheduleCall_of_not_ownerPath ho s t d with ⟨i, -, heq⟩ | heq
    · rw [heq]
      exact Function.update_of_ne hxt _ _
    · rw [heq]
      exact h.globalPushBatch_next hxt fun hmem => hx ⟨_, hmem⟩

/-- The calls of `schedule` so far. -/
theorem step_scheduled (hs : step c s l = some s') : s'.scheduled = s.scheduled ++ l.call := by
  cases l with
  | start | stop | relink =>
    obtain rfl := Option.some.inj hs
    exact (List.append_nil _).symm
  | spawn | finish =>
    simp only [step, Option.ite_none_right_eq_some, Option.some.injEq] at hs
    obtain ⟨-, rfl⟩ := hs
    exact (List.append_nil _).symm
  | work w draw lost =>
    simp only [step, Option.ite_none_right_eq_some] at hs
    exact (workerStep_scheduled hs.2).trans (List.append_nil _).symm
  | schedule th X task target d =>
    cases task with
    | none =>
      obtain rfl := step_schedule_null hs
      exact (List.append_nil _).symm
    | some t =>
      obtain ⟨-, rfl⟩ := step_schedule hs
      exact scheduleCall_log.1
  | proceed th lost => exact (scheduleStep_scheduled hs).trans (List.append_nil _).symm

/-- Runs are only added. -/
theorem step_ran (hd : Discipline c s) (hC : Conserved c s L) (hs : step c s l = some s') :
    s.ran <+: s'.ran := by
  cases l with
  | start | stop | relink =>
    obtain rfl := Option.some.inj hs
    exact List.prefix_rfl
  | spawn | finish =>
    simp only [step, Option.ite_none_right_eq_some, Option.some.injEq] at hs
    obtain ⟨-, rfl⟩ := hs
    exact List.prefix_rfl
  | work w draw lost =>
    simp only [step, Option.ite_none_right_eq_some] at hs
    exact (workerStep_leaves hC.lists hs.2).ran ▸ List.prefix_append _ _
  | schedule th X task target d =>
    cases task with
    | none =>
      obtain rfl := step_schedule_null hs
      exact List.prefix_rfl
    | some t =>
      obtain ⟨-, rfl⟩ := step_schedule hs
      rw [scheduleCall_log.2]
      exact List.prefix_rfl
  | proceed th lost =>
    obtain ⟨w, hw, -⟩ := scheduleStep_acts hs
    obtain ⟨rfl, -⟩ := hd.frames th w hw
    have hown : ∀ v, (s.pc (.worker w)).frame = some v → v = w := fun v hv =>
      Option.some.inj (hv.symm.trans hw)
    exact (scheduleStep_leaves hC.lists hs hown).ran ▸ List.prefix_append _ _

/-- The link of a task that is in no place is written only by a step about that task. -/
theorem step_next (hd : Discipline c s) (hC : Conserved c s L) (hs : step c s l = some s')
    (hx : ¬ Within L x) (hl : l.subject ≠ some x) : s'.next x = s.next x := by
  have hplace : ∀ p, x ∉ L p := fun p hp => hx ⟨p, hp⟩
  cases l with
  | start | stop =>
    obtain rfl := Option.some.inj hs
    rfl
  | relink t p =>
    obtain rfl := Option.some.inj hs
    exact Function.update_of_ne (fun he => hl (congrArg some he.symm)) _ _
  | spawn | finish =>
    simp only [step, Option.ite_none_right_eq_some, Option.some.injEq] at hs
    obtain ⟨-, rfl⟩ := hs
    rfl
  | work w draw lost =>
    simp only [step, Option.ite_none_right_eq_some] at hs
    exact (workerStep_leaves hC.lists hs.2).next x (hplace _) (hplace _)
  | schedule th X task target d =>
    cases task with
    | none =>
      obtain rfl := step_schedule_null hs
      rfl
    | some t =>
      obtain ⟨-, rfl⟩ := step_schedule hs
      have hrep : Represents (s.logScheduled X t) L := fun p => by
        rw [State.cell_logScheduled]
        exact hC.lists p
      exact scheduleCall_next hrep hx fun he => hl (congrArg some he.symm)
  | proceed th lost =>
    obtain ⟨w, hw, -⟩ := scheduleStep_acts hs
    obtain ⟨rfl, -⟩ := hd.frames th w hw
    have hown : ∀ v, (s.pc (.worker w)).frame = some v → v = w := fun v hv =>
      Option.some.inj (hv.symm.trans hw)
    exact (scheduleStep_leaves hC.lists hs hown).next x (hplace _) (hplace _)

omit [DecidableEq E] [DecidableEq K] [DecidableEq Task] in
theorem Label.subject_of_call {X : E} (h : (X, t) ∈ l.call) : l.subject = some t := by
  cases l with
  | schedule th Y task target d =>
    cases task with
    | none => cases h
    | some u =>
      obtain ⟨-, rfl⟩ := Prod.mk.inj (List.mem_singleton.mp h)
      rfl
  | _ => cases h

/-- An idle task stays idle until it is scheduled. -/
theorem State.Idle.step (ht : s.Idle t) (hd : Discipline c s) (hC : Conserved c s L)
    (hs : step c s l = some s') (hl : l.subject ≠ some t) : s'.Idle t := by
  intro call hcall htask
  have hnew : call ∉ l.call := fun hmem => hl (htask ▸ Label.subject_of_call (X := call.1) hmem)
  rw [step_scheduled hs] at hcall ⊢
  have hold : call ∈ s.scheduled := (List.mem_append.mp hcall).resolve_right hnew
  rw [List.count_append, List.count_eq_zero_of_not_mem hnew, Nat.add_zero]
  exact (ht call hold htask).trans (((step_ran hd hC hs).map _).sublist.count_le call)

omit [DecidableEq K] in
/-- The link of a task that is in no place may be written from outside. -/
theorem Conserved.setLinks {next : Task → Option Task} (h : Conserved c s L)
    (hnext : ∀ x, Within L x → next x = s.next x) : Conserved c (s.setLinks next) L where
  lists := fun p => by
    rw [State.cell_setLinks]
    exact (h.lists p).frame fun x hx => hnext x ⟨p, hx⟩
  separate := h.separate
  count := h.count
  ran := h.ran

end WorkStealing

/-! ### The links that the keeper writes -/

namespace TimerKeeper

variable {Node : Type*} [DecidableEq Node] {s s' : State Node} {l : Label Node} {node : Node}

/-- The inner loop writes the links of the nodes it takes out. -/
theorem foldl_sweepEntry_next (now : ℤ) {es : List (TimerEntry Node)}
    (hes : ∀ e ∈ es, pendingNode e ≠ some node) (w : State Node × List (TimerEntry Node)) :
    (es.foldl (sweepEntry now) w).1.next node = w.1.next node := by
  induction es generalizing w with
  | nil => rfl
  | cons e es ih =>
    rw [List.foldl_cons, ih fun x hx => hes x (List.mem_cons_of_mem e hx)]
    have he := hes e List.mem_cons_self
    by_cases hc : e.canceled = true
    · rw [sweepEntry_canceled hc]
    rw [Bool.not_eq_true] at hc
    by_cases hdue : e.expireAt ≤ now
    · cases hn : e.taskNode with
      | none => rw [sweepEntry_null hc hdue hn]
      | some x =>
        rw [sweepEntry_due hc hdue hn]
        refine Function.update_of_ne (fun hx => he ?_) _ _
        rw [pendingNode, hc, hx]
        exact hn
    · rw [sweepEntry_kept hc (not_le.mp hdue)]

theorem sweepSlot_next (now : ℤ) (hn : ¬ Within s.pendingAt node) :
    (sweepSlot now s).next node = s.next node := by
  refine foldl_sweepEntry_next now (fun e he hnode => hn ⟨.bucket (slotOf s.lastTick), ?_⟩) _
  rw [State.pendingAt, if_neg fun h => by cases h]
  exact List.mem_filterMap.mpr ⟨e, he, hnode⟩

theorem pass_next (hr : Recorded s) (now : ℤ) (hn : ¬ Within s.pendingAt node) :
    (pass s now).next node = s.next node := by
  have h₀ : Recorded { s with clock := now } ∧
      ¬ Within ({ s with clock := now } : State Node).pendingAt node ∧
      ({ s with clock := now } : State Node).next node = s.next node :=
    ⟨⟨hr.ids, hr.placed, hr.origin, hr.added, hr.nextId⟩, hn, rfl⟩
  refine (pass_induction (I := fun t => Recorded t ∧ ¬ Within t.pendingAt node ∧
    t.next node = s.next node) h₀ fun t ht _ => ?_).1.2.2
  obtain ⟨htr, htn, hnext⟩ := ht
  have hmoved := sweepSlot_moved now htr
  refine ⟨htr.moved hmoved, ?_, (sweepSlot_next now htn).trans hnext⟩
  rwa [hmoved.within_pending (by simp)]

omit [DecidableEq Node] in
theorem Linked.pendingAt_expired (h : Linked s) :
    s.pendingAt .expired = s.expiring.map Extraction.node :=
  TimerKeeper.pendingAt_expired fun x hx =>
    ⟨(h.extracted x (List.mem_append_left _ hx)).1, (h.extracted x (List.mem_append_left _ hx)).2.1⟩

/-- The links of other nodes than the pending ones belong to others. -/
theorem step_next (hr : Recorded s) (hl : Linked s) (hn : ¬ Within s.pendingAt node)
    (hlabel : ∀ v, l ≠ .relink node v) (hs : step s l = some s') :
    s'.next node = s.next node := by
  cases l with
  | addTimer now delay target =>
    rw [step, Option.ite_none_right_eq_some, Option.some.injEq] at hs
    obtain ⟨-, rfl⟩ := hs
    rcases addTimer_cases s now delay target with heq | ⟨x, owns, -, heq⟩
    · rw [heq]
    · rw [heq]
      rfl
  | insert k =>
    obtain ⟨entry, slot, -, -, rfl⟩ := insert_moved hs
    rfl
  | cancelTimer id =>
    obtain rfl := Option.some.inj hs
    rcases cancelTimer_cases s id with heq | ⟨-, heq⟩
    · rw [heq]
    · rw [heq]
  | pass now =>
    rw [step, Option.ite_none_right_eq_some, Option.some.injEq] at hs
    obtain ⟨-, rfl⟩ := hs
    exact pass_next hr now hn
  | dispatch =>
    obtain ⟨x, xs, hxs, -, rfl⟩ := dispatch_eq hl hs
    refine Function.update_of_ne (fun he => hn ⟨.expired, ?_⟩) _ _
    rw [hl.pendingAt_expired, hxs, he]
    exact List.mem_cons_self
  | relink x v =>
    rw [step, Option.ite_none_left_eq_some, Option.some.injEq] at hs
    obtain ⟨-, rfl⟩ := hs
    exact Function.update_of_ne (fun he : node = x => hlabel v (by rw [he])) _ _

/-- Only a dispatch hands a node out. -/
theorem step_handed (hlabel : l ≠ .dispatch) (hs : step s l = some s') : s'.handed = s.handed := by
  cases l with
  | addTimer now delay target =>
    rw [step, Option.ite_none_right_eq_some, Option.some.injEq] at hs
    obtain ⟨-, rfl⟩ := hs
    rcases addTimer_cases s now delay target with heq | ⟨x, owns, -, heq⟩
    · rw [heq]
    · rw [heq]
      rfl
  | insert k =>
    obtain ⟨entry, slot, -, -, rfl⟩ := insert_moved hs
    rfl
  | cancelTimer id =>
    obtain rfl := Option.some.inj hs
    rcases cancelTimer_cases s id with heq | ⟨-, heq⟩
    · rw [heq]
    · rw [heq]
  | pass now =>
    rw [step, Option.ite_none_right_eq_some, Option.some.injEq] at hs
    obtain ⟨-, rfl⟩ := hs
    have h₀ : ({ s with clock := now } : State Node).handed = s.handed := rfl
    refine (pass_induction (I := fun t => t.handed = s.handed) h₀ fun t ht _ => ?_).1
    obtain ⟨m, n, hd, -, heq⟩ := sweepSlot_eq now t
    rw [heq]
    exact ht
  | dispatch => exact absurd rfl hlabel
  | relink x v =>
    rw [step, Option.ite_none_left_eq_some, Option.some.injEq] at hs
    obtain ⟨-, rfl⟩ := hs
    rfl

/-- What a dispatch takes, and that it is not pending any more. -/
theorem dispatch_spec (h : Linked s) (hs : dispatch s = some s') :
    ∃ x, s.expiredHead = some x ∧ s'.handed = s.handed ++ [x] ∧ Within s.pendingAt x ∧
      ¬ Within s'.pendingAt x := by
  obtain ⟨x, xs, hxs, htail, rfl⟩ := dispatch_eq h hs
  have hexpired : s.pendingAt .expired = x.node :: xs.map Extraction.node := by
    rw [h.pendingAt_expired, hxs, List.map_cons]
  have hchain := h.chain
  rw [hxs, List.map_cons] at hchain
  have hmem : x.node ∈ s.pendingAt .expired := hexpired ▸ List.mem_cons_self
  refine ⟨x.node, (chain_cons.mp hchain).1, rfl, ⟨.expired, hmem⟩, ?_⟩
  rintro ⟨p, hp⟩
  cases p with
  | expired =>
    rw [(h.dispatch hs).pendingAt_expired] at hp
    exact (List.nodup_cons.mp hchain.nodup).1 hp
  | handed => cases hp
  | adding => cases h.pending.eq_of_mem (i := .adding) hp hmem
  | bucket k => cases h.pending.eq_of_mem (i := .bucket k) hp hmem
  | reaped => cases h.pending.eq_of_mem (i := .reaped) hp hmem

omit [DecidableEq Node] in
theorem Recorded.setLinks (h : Recorded s) (next : Node → Option Node) :
    Recorded { s with next := next } :=
  ⟨h.ids, h.placed, h.origin, h.added, h.nextId⟩

omit [DecidableEq Node] in
/-- The links of nodes that are not pending may be written from outside. -/
theorem Linked.setLinks (h : Linked s) {next : Node → Option Node}
    (hnext : ∀ x, Within s.pendingAt x → next x = s.next x) :
    Linked { s with next := next } := by
  refine ⟨h.pending, h.adding, h.mapped, h.extracted, h.chain.frame fun x hx => hnext x ?_,
    h.handed⟩
  refine ⟨.expired, ?_⟩
  rw [h.pendingAt_expired]
  exact hx

end TimerKeeper

/-! ### Both together -/

namespace TimerExecutor

open WorkStealing (Config Draws Conserved Discipline Admissible Represents placesOf)
open TimerKeeper (Recorded Linked)

variable {E K Task : Type*} [DecidableEq E] [DecidableEq K] [DecidableEq Task]

/-- The keeper, the executors and the task that the timer thread has detached from the expired
list and not yet scheduled.  There is one memory of links. -/
structure State (E K Task : Type*) where
  keeper : TimerKeeper.State Task
  exec : WorkStealing.State E K Task
  inHand : Option Task
  direct : List (E × Task)                  -- history: the other calls of `schedule`
  shared : keeper.next = exec.next

inductive Label (E K Task : Type*)
  | addTimer (now delay : ℤ) (target : TimerKeeper.Target Task)
  | insert (k : ℕ)
  | cancelTimer (id : ℕ)
  | pass (now : ℤ)
  | dispatch                                -- `expired_head = next` and `next = nullptr`
  | submit (d : Draws)                      -- `executor_.schedule(expired_head)`
  | exec (l : WorkStealing.Label E K Task)

def init (startTime : ℤ) : State E K Task where
  keeper := TimerKeeper.init Task startTime
  exec := WorkStealing.init fun _ => none
  inHand := none
  direct := []
  shared := rfl

/-- A step of the keeper writes links. -/
def State.setKeeper (s : State E K Task) (keeper : TimerKeeper.State Task)
    (inHand : Option Task) : State E K Task where
  keeper := keeper
  exec := s.exec.setLinks keeper.next
  inHand := inHand
  direct := s.direct
  shared := rfl

/-- And so does a step of an executor. -/
def State.setExec (s : State E K Task) (exec : WorkStealing.State E K Task)
    (inHand : Option Task) (direct : List (E × Task)) : State E K Task where
  keeper := { s.keeper with next := exec.next }
  exec := exec
  inHand := inHand
  direct := direct
  shared := rfl

variable (c : Config E K) (X : E) (timer : K)

/-- `X` is the executor of the keeper, and `timer` is its thread.  That thread does nothing else
while it has a task in hand. -/
def step (s : State E K Task) : Label E K Task → Option (State E K Task)
  | .addTimer now delay target =>
    (TimerKeeper.step s.keeper (.addTimer now delay target)).map (s.setKeeper · s.inHand)
  | .insert k => (TimerKeeper.step s.keeper (.insert k)).map (s.setKeeper · s.inHand)
  | .cancelTimer id => (TimerKeeper.step s.keeper (.cancelTimer id)).map (s.setKeeper · s.inHand)
  | .pass now =>
    if s.inHand = none then (TimerKeeper.step s.keeper (.pass now)).map (s.setKeeper · none)
    else none
  | .dispatch =>
    if s.inHand = none then
      (TimerKeeper.step s.keeper .dispatch).map (s.setKeeper · s.keeper.expiredHead)
    else none
  | .submit d =>
    match s.inHand with
    | none => none
    | some t => (WorkStealing.step c s.exec (.schedule (.other timer) X (some t) none d)).map
        (s.setExec · none s.direct)
  | .exec l => (WorkStealing.step c s.exec l).map (s.setExec · s.inHand (s.direct ++ l.call))

/-- The keeper or its thread has `t`. -/
def State.Timed (s : State E K Task) (t : Task) : Prop :=
  Within s.keeper.pendingAt t ∨ s.inHand = some t

/-- A task is given to one side at a time: it is added to the wheel while neither side has it,
and scheduled, or its link used, by others while neither side has it. -/
def Allowed (s : State E K Task) : Label E K Task → Prop
  | .addTimer _ _ target => ∀ t ∈ target.node?, ¬ s.Timed t ∧ s.exec.Idle t
  | .exec l => Admissible c s.exec l ∧ ∀ t ∈ l.subject, ¬ s.Timed t
  | _ => True

/-! ### The invariant -/

variable {c X timer} {s s' : State E K Task} {L : WorkStealing.Place E → List Task}
  {keeper : TimerKeeper.State Task} {exec : WorkStealing.State E K Task} {inHand : Option Task}
  {direct : List (E × Task)}

/-- Both accounts hold, no task is on both sides, and the executor `X` has been called for every
task handed out, the one in hand excepted. -/
structure Joint (c : Config E K) (X : E) (s : State E K Task)
    (L : WorkStealing.Place E → List Task) : Prop where
  discipline : Discipline c s.exec
  conserved : Conserved c s.exec L
  recorded : Recorded s.keeper
  linked : Linked s.keeper
  idle : ∀ t, s.Timed t → s.exec.Idle t
  apart : ∀ t, s.inHand = some t → ¬ Within s.keeper.pendingAt t
  count : ∀ Y t, s.exec.scheduled.count (Y, t) + (if Y = X ∧ s.inHand = some t then 1 else 0) =
    s.direct.count (Y, t) + if Y = X then s.keeper.handed.count t else 0

omit [DecidableEq K] in
theorem joint_init (startTime : ℤ) :
    Joint c X (init startTime : State E K Task) fun _ => [] where
  discipline := WorkStealing.discipline_init _
  conserved := WorkStealing.conserved_init _
  recorded := Recorded.init startTime
  linked := Linked.init startTime
  idle := fun _ _ _ hcall => absurd hcall List.not_mem_nil
  apart := fun _ h => by cases h
  count := fun Y t => by
    have hhand : ¬ (Y = X ∧ (init startTime : State E K Task).inHand = some t) :=
      fun h => by cases h.2
    rw [if_neg hhand]
    split
    · rfl
    · rfl

omit [DecidableEq K] in
theorem Joint.not_timed (h : Joint c X s L) {t : Task} (ht : Within L t) : ¬ s.Timed t :=
  fun htimed => h.conserved.not_within (h.idle t htimed) ht

omit [DecidableEq K] in
/-- A step of the keeper. -/
theorem Joint.keeperStep {l : TimerKeeper.Label Task} (h : Joint c X s L)
    (hs : TimerKeeper.step s.keeper l = some keeper) (hlabel : ∀ t v, l ≠ .relink t v)
    (hfresh : TimerKeeper.FreshNode s.keeper l)
    (hidle : ∀ t, Within keeper.pendingAt t ∨ inHand = some t → s.exec.Idle t)
    (hapart : ∀ t, inHand = some t → ¬ Within keeper.pendingAt t)
    (hcount : ∀ Y t,
      s.exec.scheduled.count (Y, t) + (if Y = X ∧ inHand = some t then 1 else 0) =
        s.direct.count (Y, t) + if Y = X then keeper.handed.count t else 0) :
    Joint c X (s.setKeeper keeper inHand) L where
  discipline := h.discipline.congr rfl rfl rfl
  conserved := h.conserved.setLinks fun x hx => by
    have hpending : ¬ Within s.keeper.pendingAt x := fun hp => h.not_timed hx (Or.inl hp)
    rw [TimerKeeper.step_next h.recorded h.linked hpending (hlabel x) hs, s.shared]
  recorded := TimerKeeper.recorded_step h.recorded hs
  linked := TimerKeeper.linked_step h.recorded h.linked hfresh hs
  idle := hidle
  apart := hapart
  count := hcount

/-- A step of an executor. -/
theorem Joint.execStep {l : WorkStealing.Label E K Task} (h : Joint c X s L)
    (hl : Admissible c s.exec l) (hs : WorkStealing.step c s.exec l = some exec)
    (hsubject : ∀ t ∈ l.subject, ¬ Within s.keeper.pendingAt t)
    (hhand : ∀ t, inHand = some t → s.inHand = some t ∧ l.subject ≠ some t)
    (hcount : ∀ Y t, exec.scheduled.count (Y, t) + (if Y = X ∧ inHand = some t then 1 else 0) =
      direct.count (Y, t) + if Y = X then s.keeper.handed.count t else 0) :
    ∃ L', Joint c X (s.setExec exec inHand direct) L' := by
  obtain ⟨L', hconserved⟩ := WorkStealing.step_conserved h.discipline h.conserved hl hs
  have hother : ∀ t, Within s.keeper.pendingAt t → l.subject ≠ some t :=
    fun t ht hsub => hsubject t hsub ht
  refine ⟨L', WorkStealing.step_discipline h.discipline hl.safe hs, hconserved,
    h.recorded.setLinks _, h.linked.setLinks fun x hx => ?_, fun t ht => ?_, fun t ht => ?_,
    hcount⟩
  · have hplace : ¬ Within L x := fun hx' => h.not_timed hx' (Or.inl hx)
    rw [WorkStealing.step_next h.discipline h.conserved hs hplace (hother x hx), s.shared]
  · rcases ht with ht | ht
    · exact (h.idle t (Or.inl ht)).step h.discipline h.conserved hs (hother t ht)
    · obtain ⟨hhas, hsub⟩ := hhand t ht
      exact (h.idle t (Or.inr hhas)).step h.discipline h.conserved hs hsub
  · exact h.apart t (hhand t ht).1

omit [DecidableEq K] in
/-- A step of the keeper that hands out nothing. -/
theorem Joint.keep {l : TimerKeeper.Label Task} (h : Joint c X s L)
    (hs : TimerKeeper.step s.keeper l = some keeper) (hlabel : ∀ t v, l ≠ .relink t v)
    (hdispatch : l ≠ .dispatch) (hnode : ∀ t ∈ l.node?, ¬ s.Timed t ∧ s.exec.Idle t) :
    Joint c X (s.setKeeper keeper s.inHand) L := by
  -- what is pending now was pending before, or is added
  have hpending : ∀ t, Within keeper.pendingAt t →
      Within s.keeper.pendingAt t ∨ l.node? = some t := by
    intro t ht
    by_contra hnot
    obtain ⟨hold, hnew⟩ := not_or.mp hnot
    exact TimerKeeper.not_pending_step h.recorded hold hnew hs ht
  refine h.keeperStep hs hlabel ?_ ?_ ?_ ?_
  · cases l with
    | addTimer now delay target => exact fun t ht hp => (hnode t ht).1 (Or.inl hp)
    | _ => trivial
  · rintro t (ht | ht)
    · rcases hpending t ht with hold | hnew
      · exact h.idle t (Or.inl hold)
      · exact (hnode t hnew).2
    · exact h.idle t (Or.inr ht)
  · intro t ht hp
    rcases hpending t hp with hold | hnew
    · exact h.apart t ht hold
    · exact (hnode t hnew).1 (Or.inr ht)
  · intro Y t
    rw [TimerKeeper.step_handed hdispatch hs]
    exact h.count Y t

omit [DecidableEq K] in
/-- The timer thread takes a task into its hand. -/
theorem Joint.dispatch (h : Joint c X s L) (hhand : s.inHand = none)
    (hs : TimerKeeper.step s.keeper .dispatch = some keeper) :
    Joint c X (s.setKeeper keeper s.keeper.expiredHead) L := by
  obtain ⟨x, hhead, hhanded, hwas, hnot⟩ := TimerKeeper.dispatch_spec h.linked hs
  refine h.keeperStep hs (fun t v he => by cases he) trivial ?_ ?_ ?_
  · rintro t (ht | ht)
    · by_contra hidle
      have hold : ¬ Within s.keeper.pendingAt t := fun hp => hidle (h.idle t (Or.inl hp))
      exact TimerKeeper.not_pending_step h.recorded hold (fun he => by cases he) hs ht
    · obtain rfl := Option.some.inj (hhead.symm.trans ht)
      exact h.idle x (Or.inl hwas)
  · intro t ht
    obtain rfl := Option.some.inj (hhead.symm.trans ht)
    exact hnot
  · intro Y t
    have hcount := h.count Y t
    have hnone : ¬ (Y = X ∧ s.inHand = some t) := fun he => by cases hhand.symm.trans he.2
    rw [if_neg hnone, Nat.add_zero] at hcount
    rw [hhead, hhanded, hcount, Nat.add_assoc]
    congr 1
    by_cases hY : Y = X
    · rw [if_pos hY, if_pos hY, List.count_append, List.count_singleton]
      by_cases hx : x = t
      · subst hx
        rw [if_pos ⟨hY, rfl⟩, if_pos (beq_self_eq_true x)]
      · rw [if_neg fun he => hx (Option.some.inj he.2), if_neg fun he => hx (beq_iff_eq.mp he)]
    · rw [if_neg hY, if_neg hY, if_neg fun he => hY he.1]

/-- **Step lemma.** -/
theorem step_joint {l : Label E K Task} (htls : (c.tls timer).1 ≠ some X) (h : Joint c X s L)
    (hl : Allowed c s l) (hs : step c X timer s l = some s') : ∃ L', Joint c X s' L' := by
  cases l with
  | addTimer now delay target =>
    obtain ⟨keeper, hkeeper, rfl⟩ := Option.map_eq_some_iff.mp hs
    exact ⟨L, h.keep hkeeper (fun t v he => by cases he) (fun he => by cases he) hl⟩
  | insert k | cancelTimer id =>
    rw [step] at hs
    obtain ⟨keeper, hkeeper, rfl⟩ := Option.map_eq_some_iff.mp hs
    exact ⟨L, h.keep hkeeper (fun t v he => by cases he) (fun he => by cases he)
      fun t ht => by cases ht⟩
  | pass now =>
    rw [step, Option.ite_none_right_eq_some] at hs
    obtain ⟨hhand, hmap⟩ := hs
    obtain ⟨keeper, hkeeper, rfl⟩ := Option.map_eq_some_iff.mp hmap
    have hkeep := h.keep hkeeper (fun t v he => by cases he) (fun he => by cases he)
      fun t ht => by cases ht
    exact ⟨L, hhand ▸ hkeep⟩
  | dispatch =>
    rw [step, Option.ite_none_right_eq_some] at hs
    obtain ⟨hhand, hmap⟩ := hs
    obtain ⟨keeper, hkeeper, rfl⟩ := Option.map_eq_some_iff.mp hmap
    exact ⟨L, h.dispatch hhand hkeeper⟩
  | submit d =>
    cases hhand : s.inHand with
    | none =>
      rw [step, hhand] at hs
      cases hs
    | some t =>
      rw [step, hhand] at hs
      obtain ⟨exec, hexec, rfl⟩ := Option.map_eq_some_iff.mp hs
      have hadmissible : Admissible c s.exec (.schedule (.other timer) X (some t) none d) := by
        refine ⟨fun u hu => ?_, fun call hcall => ?_⟩
        · obtain rfl := Option.some.inj hu
          exact h.idle t (Or.inr hhand)
        · obtain rfl := Option.some.inj hcall
          exact htls
      refine h.execStep hadmissible hexec (fun u hu => ?_) (fun u hu => by cases hu) fun Y u => ?_
      · obtain rfl := Option.some.inj hu
        exact h.apart t hhand
      · have hempty : ¬ (Y = X ∧ (none : Option Task) = some u) := fun he => by cases he.2
        have hcall : ([(X, t)] : List (E × Task)).count (Y, u) =
            if Y = X ∧ some t = some u then 1 else 0 := by
          rw [List.count_singleton]
          refine if_congr ?_ rfl rfl
          rw [beq_iff_eq, Prod.mk.injEq, Option.some.injEq, eq_comm (a := X)]
        rw [WorkStealing.step_scheduled hexec, List.count_append, if_neg hempty, ← h.count Y u,
          hhand, Nat.add_zero]
        exact congrArg _ hcall
  | exec l =>
    obtain ⟨exec, hexec, rfl⟩ := Option.map_eq_some_iff.mp hs
    refine h.execStep hl.1 hexec (fun t ht hp => hl.2 t ht (Or.inl hp))
      (fun t ht => ⟨ht, fun hsub => hl.2 t hsub (Or.inr ht)⟩) fun Y t => ?_
    have hcount := h.count Y t
    rw [WorkStealing.step_scheduled hexec, List.count_append, List.count_append]
    omega

/-- **Every timer that fires leads to one run of its task.**  In every state that `Allowed` steps of
the callers, of the timer thread (which is not a worker of `X`) and of the executors reach, in any
order:

* the expired list is intact in the memory of links that both sides use, and the tasks of the
  executors can be listed, none of them twice and none that the keeper or its thread has;
* every timer is at one place of the keeper, and those handed out were due;
* a task has run on `X` as often as it was scheduled there and its timers were handed out, less
  one exactly if the timer thread has it in hand or it is in a place of `X`. -/
theorem timers_run_once (startTime : ℤ) {ls : List (Label E K Task)}
    (htls : (c.tls timer).1 ≠ some X)
    (hrun : StepSystem.run (step c X timer) (init startTime) ls = some s)
    (hok : StepSystem.Meets (step c X timer) (Allowed c) (init startTime) ls) :
    ∃ L : WorkStealing.Place E → List Task, Represents s.exec L ∧ Separate L ∧
      Chain s.exec.next s.keeper.expiredHead
        (s.keeper.expiring.map TimerKeeper.Extraction.node) ∧
      (∀ t, Within s.keeper.pendingAt t → s.inHand ≠ some t ∧ ¬ Within L t) ∧
      (∀ e ∈ s.keeper.added, ∃! p, e.id ∈ s.keeper.idsAt p) ∧
      (∀ x ∈ s.keeper.dispatched, x.entry ∈ s.keeper.added ∧ x.entry.taskNode = some x.node ∧
        x.entry.expireAt ≤ x.now) ∧
      ∀ t, let calls := s.direct.count (X, t) +
          (s.keeper.dispatched.map TimerKeeper.Extraction.node).count t
        (s.inHand = some t ∧ ¬ Within L t ∧ s.exec.runs.count (X, t) + 1 = calls) ∨
        ((∃ p ∈ placesOf X, t ∈ L p) ∧ s.inHand ≠ some t ∧
          s.exec.runs.count (X, t) + 1 = calls) ∨
        ((∀ p ∈ placesOf X, t ∉ L p) ∧ s.inHand ≠ some t ∧
          s.exec.runs.count (X, t) = calls) := by
  have hinv : ∃ L, Joint c X s L := by
    refine StepSystem.run_invariant_of_meets (I := fun s => ∃ L, Joint c X s L) ?_
      ⟨_, joint_init startTime⟩ hok hrun
    rintro s l s' ⟨L, h⟩ hl hs
    exact step_joint htls h hl hs
  obtain ⟨L, h⟩ := hinv
  have hhand : ∀ t, s.inHand = some t → ¬ Within L t := fun t ht hL => h.not_timed hL (Or.inr ht)
  refine ⟨L, h.conserved.lists, h.conserved.separate, s.shared ▸ h.linked.chain,
    fun t ht => ⟨fun he => h.apart t he ht, fun hL => h.not_timed hL (Or.inl ht)⟩,
    fun e he => h.recorded.ids.existsUnique (h.recorded.placed e he), fun x hx => ?_, fun t => ?_⟩
  · obtain ⟨hc, hnode, hdue⟩ := h.linked.extracted x (List.mem_append_right _ hx)
    have horigin := h.recorded.origin x.entry ⟨.handed, List.mem_map_of_mem hx⟩
    rw [← hc] at horigin
    exact ⟨horigin, hnode, hdue⟩
  · have hcount := h.count X t
    rw [if_pos rfl, h.linked.handed, h.conserved.count X t] at hcount
    by_cases hin : s.inHand = some t
    · -- the task in hand is in no place
      have hnone : presence L (placesOf X) t = 0 :=
        presence_eq_zero.mpr fun p _ hp => hhand t hin ⟨p, hp⟩
      rw [if_pos ⟨rfl, hin⟩, hnone] at hcount
      exact Or.inl ⟨hin, hhand t hin, hcount⟩
    · rw [if_neg fun he => hin he.2] at hcount
      by_cases hplace : ∃ p ∈ placesOf X, t ∈ L p
      · have hone : presence L (placesOf X) t = 1 := if_pos hplace
        rw [hone] at hcount
        exact Or.inr (Or.inl ⟨hplace, hin, hcount⟩)
      · have hnone : ∀ p ∈ placesOf X, t ∉ L p := fun p hp ht => hplace ⟨p, hp, ht⟩
        rw [presence_eq_zero.mpr hnone] at hcount
        exact Or.inr (Or.inr ⟨hnone, hin, hcount⟩)

/-- A timer for task 7 expires; a worker of executor `true` runs the task. -/
def firedLabels : List (Label Bool Unit ℕ) :=
  [.addTimer 0 5 (.taskNode (some 7)), .insert 0, .exec (.start true), .exec (.spawn (true, 0)),
    .pass 20000000, .dispatch, .submit ⟨0, 0, 0, 0⟩] ++
  List.replicate 6 (.exec (.work (true, 0) 0 false))

theorem firedLabels_allowed :
    StepSystem.Meets (step WorkStealing.hopConfig true ()) (Allowed WorkStealing.hopConfig)
      (init 0) firedLabels := by
  have hfirst : Allowed WorkStealing.hopConfig (init 0 : State Bool Unit ℕ)
      (.addTimer 0 5 (.taskNode (some 7))) := by
    refine fun t _ => ⟨?_, fun _ hcall => absurd hcall List.not_mem_nil⟩
    rintro (⟨p, hp⟩ | hhand)
    · cases p with
      | _ => exact absurd hp List.not_mem_nil
    · cases hhand
  -- no other label adds or schedules a task from outside
  have hrest : ∀ l ∈ firedLabels.tail, ∀ s, Allowed WorkStealing.hopConfig s l := by
    intro l hl s
    simp only [firedLabels, List.cons_append, List.tail_cons, List.nil_append, List.mem_cons,
      List.mem_replicate] at hl
    rcases hl with rfl | rfl | rfl | rfl | rfl | rfl | ⟨-, rfl⟩
    any_goals trivial
    all_goals exact ⟨⟨fun t ht => (by cases ht), fun call hcall => (by cases hcall)⟩,
      fun t ht => (by cases ht)⟩
  refine ⟨hfirst, fun s₁ _ => ?_⟩
  exact (StepSystem.Meets.of_forall hrest).mono fun s l h => h s

theorem timers_run_once_fired :
    ∃ s, StepSystem.run (step WorkStealing.hopConfig true ()) (init 0) firedLabels = some s ∧
      s.exec.ran = [((true, 0), 7)] ∧ s.direct = [] ∧ s.keeper.handed = [7] ∧
      ∃ L : WorkStealing.Place Bool → List ℕ, Represents s.exec L ∧ Separate L ∧
        (∀ p ∈ placesOf true, 7 ∉ L p) ∧ s.exec.runs.count (true, 7) = 1 := by
  obtain ⟨s, hrun, hran, hdirect, hhanded, hdispatched, hhand⟩ :
      ∃ s, StepSystem.run (step WorkStealing.hopConfig true ()) (init 0) firedLabels = some s ∧
        s.exec.ran = [((true, 0), 7)] ∧ s.direct = [] ∧ s.keeper.handed = [7] ∧
        s.keeper.dispatched.map TimerKeeper.Extraction.node = [7] ∧ s.inHand = none :=
    StepSystem.exists_of_run_any (by decide +kernel)
  obtain ⟨L, hrep, hsep, -, -, -, -, hcount⟩ :=
    timers_run_once 0 (by decide) hrun firedLabels_allowed
  have hruns : s.exec.runs.count (true, 7) = 1 := by
    rw [WorkStealing.State.runs, hran]
    rfl
  refine ⟨s, hrun, hran, hdirect, hhanded, L, hrep, hsep, ?_, hruns⟩
  rcases hcount 7 with ⟨hin, -⟩ | ⟨-, -, hone⟩ | ⟨hnone, -⟩
  · cases hhand.symm.trans hin
  · rw [hruns, hdirect, hdispatched] at hone
    exact absurd hone (by decide)
  · exact hnone

end TimerExecutor
