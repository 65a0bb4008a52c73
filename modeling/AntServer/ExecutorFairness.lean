/-
No task starves in the global queue.

`WorkerLoop` looks into the global queue last, after its own containers and those of its
neighbours.  What keeps the tasks there from waiting for ever is the counter `tick`: every
`kGlobalCheckInterval` rounds the queue comes first.  The queue is first in, first out, so a
task with `p` others before it is taken after `p + 1` of these checks at the latest.

* `Grows`, `Takes` — what a step does with the global queues, on the lists of their tasks;
* `step_grows`, `step_takes` — every step does one of the two;
* `due`, `pending` — the rounds that a worker still makes before its next check;
* `global_queue_served` — the bound.
-/
import AntServer.BoundedWait
import AntServer.ExecutorConservation
import AntServer.ExecutorPrivate

namespace WorkStealing

variable {E K Task : Type*} {c : Config E K} {s s' : State E K Task} {L L' : Place E → List Task}
  {w v : E × ℕ} {t : Task} {X : E} {draw : ℕ} {lost : Bool}

/-! ### The global queues -/

/-- Of the tasks `L`, those in global queues are still there in `s'`, before new ones. -/
def Grows (L : Place E → List Task) (s' : State E K Task) : Prop :=
  ∀ X, ∃ xs, (s'.globalQueue X).Lists s'.next (L (.globalQueue X) ++ xs)

/-- Worker `w` takes `t`, the first task of its global queue, and will run it next. -/
structure Takes (w : E × ℕ) (t : Task) (L : Place E → List Task) (s' : State E K Task) :
    Prop where
  first : (L (.globalQueue w.1)).head? = some t
  pc : s'.pc (.worker w) = .execute t
  rest : (s'.globalQueue w.1).Lists s'.next (L (.globalQueue w.1)).tail
  others : ∀ X, X ≠ w.1 → (s'.globalQueue X).Lists s'.next (L (.globalQueue X))

/-- The links of queued tasks stay. -/
theorem Grows.of_links (h : Represents s L) (hq : s'.globalQueue = s.globalQueue)
    (hnext : ∀ X, ∀ x ∈ L (.globalQueue X), s'.next x = s.next x) : Grows L s' := by
  intro X
  have hX : (s.globalQueue X).Lists s.next (L (.globalQueue X)) := h (.globalQueue X)
  refine ⟨[], ?_⟩
  rw [hq, List.append_nil]
  exact hX.frame (hnext X)

/-- The links of tasks at hand are written, at most. -/
theorem Grows.of_held (h : Represents s L) (hL : Separate L) (hq : s'.globalQueue = s.globalQueue)
    (hnext : ∀ x, x ∉ L (.held w) → s'.next x = s.next x) : Grows L s' := by
  refine .of_links h hq fun X x hx => hnext x fun hheld => ?_
  exact hL.disjoint (.held w) (.globalQueue X) (fun he => by cases he) x hheld hx

variable [DecidableEq E] [DecidableEq K] [DecidableEq Task]

omit [DecidableEq K] in
/-- `PushBatch` of tasks that are in no global queue. -/
theorem Grows.pushBatch {first last : Task} {ys : List Task} {r : Option Task}
    (h : Represents s L) (hL : Separate L)
    (hseg : Segment s.next (some first) (ys ++ [last]) r) (hnd : (ys ++ [last]).Nodup)
    (hnew : ∀ x ∈ ys ++ [last], ∀ X, x ∉ L (.globalQueue X)) (Y : E) :
    Grows L (s.globalPushBatch Y first last) := by
  intro X
  have hX : (s.globalQueue X).Lists s.next (L (.globalQueue X)) := h (.globalQueue X)
  by_cases hY : X = Y
  · subst hY
    have hpush := hX.pushBatch hseg hnd fun x hx hmem => hnew x hmem X hx
    refine ⟨ys ++ [last], ?_⟩
    simp only [State.globalPushBatch, State.setGlobal, State.setLinks, Function.update_self]
    exact hpush
  · have hlast : last ∉ L (.globalQueue X) := hnew last (by simp) X
    refine ⟨[], ?_⟩
    rw [List.append_nil]
    simp only [State.globalPushBatch, State.setGlobal, State.setLinks, Function.update_of_ne hY]
    refine hX.frame fun x hx => h.globalPushBatch_next ?_ ?_
    · rintro rfl
      exact hlast hx
    · exact fun hx' => hL.disjoint _ _ (fun he => hY (Place.globalQueue.inj he)) x hx hx'

omit [DecidableEq K] in
/-- The same for tasks at hand. -/
theorem Grows.pushHeld {first last : Task} {xs ys : List Task} {r : Option Task}
    (h : Represents s L) (hL : Separate L) (hheld : (L (.held w)).Perm (xs ++ (ys ++ [last])))
    (hseg : Segment s.next (some first) (ys ++ [last]) r) (Y : E) :
    Grows L (s.globalPushBatch Y first last) := by
  have hnd : (xs ++ (ys ++ [last])).Nodup := hheld.nodup_iff.mp (hL.nodup _)
  refine .pushBatch h hL hseg hnd.of_append_right (fun x hx X hX => ?_) Y
  have hx' : x ∈ L (.held w) := hheld.mem_iff.mpr (List.mem_append_right xs hx)
  exact hL.disjoint (.held w) (.globalQueue X) (fun he => by cases he) x hx' hX

omit [DecidableEq K] in
theorem Grows.pushHeldOne {xs : List Task} (h : Represents s L) (hL : Separate L)
    (hheld : (L (.held w)).Perm (t :: xs)) (Y : E) : Grows L (s.globalPush Y t) := by
  have hseg : Segment s.next (some t) ([] ++ [t]) (s.next t) := ⟨rfl, rfl⟩
  exact .pushHeld h hL (hheld.trans (List.perm_append_singleton t xs).symm) hseg Y

/-! ### What each step does with them -/

theorem drainStep_grows (h : Represents s L) (hL : Separate L) (hs : drainStep s w = some s') :
    Grows L s' := by
  unfold drainStep at hs
  cases hpc : s.pc (.worker w) with
  | inbox =>
    simp only [hpc, Option.some.injEq] at hs
    subst hs
    split
    · exact .of_links h rfl fun _ _ _ => rfl
    · exact .of_links h rfl fun _ _ _ => rfl
  | detach x =>
    obtain ⟨ys, hys, -⟩ := (h.holds hpc : Chain s.next (some x) (L (.held w))).tail
    simp only [hpc, Option.some.injEq] at hs
    subst hs
    refine .of_held (w := w) h hL rfl fun y hy => Function.update_of_ne ?_ _ _
    rintro rfl
    exact hy (by simp [hys])
  | drain x curr =>
    obtain ⟨ys, hys, hchain⟩ := h.holds hpc
    cases curr with
    | none =>
      simp only [hpc, Option.some.injEq] at hs
      subst hs
      exact .of_links h rfl fun _ _ _ => rfl
    | some y =>
      obtain ⟨zs, rfl, -⟩ := hchain.tail
      simp only [hpc, Option.some.injEq] at hs
      subst hs
      refine .of_held (w := w) h hL rfl fun z hz => Function.update_of_ne ?_ _ _
      rintro rfl
      exact hz (by simp [hys])
  | drainPush x y nxt =>
    simp only [hpc, Option.some.injEq] at hs
    subst hs
    split
    · exact .of_links h rfl fun _ _ _ => rfl
    · exact .of_links h rfl fun _ _ _ => rfl
  | drainSpill x y nxt =>
    obtain ⟨ys, hys, -⟩ := h.holds hpc
    simp only [hpc, Option.some.injEq] at hs
    subst hs
    exact Grows.pushHeldOne h hL (hys ▸ List.Perm.swap y x ys) w.1
  | _ => simp only [hpc, reduceCtorEq] at hs

theorem stealStep_grows (h : Represents s L) (hL : Separate L)
    (hs : stealStep c s w draw lost = some s') : Grows L s' := by
  unfold stealStep at hs
  cases hpc : s.pc (.worker w) with
  | steal =>
    simp only [hpc, Option.some.injEq] at hs
    subst hs
    exact .of_links h rfl fun _ _ _ => rfl
  | stealHalf start i =>
    simp only [hpc, Option.some.injEq] at hs
    subst hs
    split
    · exact .of_links h rfl fun _ _ _ => rfl
    split
    · exact .of_links h rfl fun _ _ _ => rfl
    split
    · exact .of_links h rfl fun _ _ _ => rfl
    · exact .of_links h rfl fun _ _ _ => rfl
  | stealOne start i =>
    simp only [hpc, Option.some.injEq] at hs
    subst hs
    split
    · exact .of_links h rfl fun _ _ _ => rfl
    · exact .of_links h rfl fun _ _ _ => rfl
  | batch x rest =>
    cases rest with
    | nil =>
      simp only [hpc, Option.some.injEq] at hs
      subst hs
      exact .of_links h rfl fun _ _ _ => rfl
    | cons y rest =>
      simp only [hpc, Option.some.injEq] at hs
      subst hs
      split
      · exact .of_links h rfl fun _ _ _ => rfl
      · exact .of_links h rfl fun _ _ _ => rfl
  | batchSpill x y rest =>
    have hheld : L (.held w) = x :: y :: rest := h.holds hpc
    simp only [hpc, Option.some.injEq] at hs
    subst hs
    exact Grows.pushHeldOne h hL (hheld ▸ List.Perm.swap y x rest) w.1
  | _ => simp only [hpc, reduceCtorEq] at hs

/-- The worker is about to pop from the global queue, in block 1 or in block 6. -/
def Pc.pops : Pc E Task → Bool
  | .globalCheck | .globalPop => true
  | _ => false

theorem workerStep_grows (h : Represents s L) (hL : Separate L)
    (hs : workerStep c s w draw lost = some s') (hpop : (s.pc (.worker w)).pops = false) :
    Grows L s' := by
  unfold workerStep at hs
  cases hpc : s.pc (.worker w) with
  | top =>
    simp only [hpc, Option.some.injEq] at hs
    subst hs
    split
    · exact .of_links h rfl fun _ _ _ => rfl
    · exact .of_links h rfl fun _ _ _ => rfl
  | globalCheck | globalPop => simp only [hpc, Pc.pops, reduceCtorEq] at hpop
  | lifo | tryPop =>
    simp only [hpc, Option.some.injEq] at hs
    subst hs
    split
    · exact .of_links h rfl fun _ _ _ => rfl
    · exact .of_links h rfl fun _ _ _ => rfl
  | execute x =>
    simp only [hpc, Option.some.injEq] at hs
    subst hs
    exact .of_links h rfl fun _ _ _ => rfl
  | inbox | detach | drain | drainPush | drainSpill =>
    simp only [hpc] at hs
    exact drainStep_grows h hL hs
  | steal | stealHalf | stealOne | batch | batchSpill =>
    simp only [hpc] at hs
    exact stealStep_grows h hL hs
  | _ => simp only [hpc, reduceCtorEq] at hs

/-- `Pop` takes the first task, if there is one. -/
theorem globalPop_takes {pc : Pc E Task} (h : Represents s L) (hL : Separate L) :
    (L (.globalQueue w.1) = [] ∧ Grows L (s.globalPop w.1 (.worker w) .execute pc)) ∨
      ∃ t, Takes w t L (s.globalPop w.1 (.worker w) .execute pc) := by
  have hw : (s.globalQueue w.1).Lists s.next (L (.globalQueue w.1)) := h (.globalQueue w.1)
  obtain ⟨hfirst, hrest⟩ := hw.pop
  have hself : ((s.globalPop w.1 (.worker w) .execute pc).globalQueue w.1).Lists
      (s.globalPop w.1 (.worker w) .execute pc).next (L (.globalQueue w.1)).tail := by
    simp only [State.globalPop, State.setGlobal, State.setLinks, State.goto, Function.update_self]
    exact hrest
  have hothers : ∀ X, X ≠ w.1 →
      ((s.globalPop w.1 (.worker w) .execute pc).globalQueue X).Lists
        (s.globalPop w.1 (.worker w) .execute pc).next (L (.globalQueue X)) := by
    intro X hX
    have hq : (s.globalQueue X).Lists s.next (L (.globalQueue X)) := h (.globalQueue X)
    simp only [State.globalPop, State.setGlobal, State.setLinks, State.goto,
      Function.update_of_ne hX]
    refine hq.frame fun x hx => h.globalPop_next fun hx' => ?_
    exact hL.disjoint _ _ (fun he => hX (Place.globalQueue.inj he)) x hx hx'
  cases hqueue : L (.globalQueue w.1) with
  | nil =>
    refine Or.inl ⟨rfl, fun X => ⟨[], ?_⟩⟩
    rw [List.append_nil]
    by_cases hX : X = w.1
    · subst hX
      rw [hqueue] at hself ⊢
      exact hself
    · exact hothers X hX
  | cons t xs =>
    rw [hqueue] at hfirst
    refine Or.inr ⟨t, by rw [hqueue, List.head?_cons], ?_, hself, hothers⟩
    simp only [State.globalPop, hfirst, List.head?_cons, State.pc_goto]

theorem scheduleStep_grows (h : Represents s L) (hL : Separate L)
    (hs : scheduleStep s (.worker w) lost = some s') : Grows L s' := by
  unfold scheduleStep at hs
  cases hpc : s.pc (.worker w) with
  | schedPush v x | schedTake v x =>
    simp only [hpc, Option.some.injEq] at hs
    subst hs
    split
    · exact .of_links h rfl fun _ _ _ => rfl
    · exact .of_links h rfl fun _ _ _ => rfl
  | schedLink v x y rest =>
    have hheld : L (.held w) = y :: rest ++ [x] := h.holds hpc
    simp only [hpc, Option.some.injEq] at hs
    subst hs
    exact .of_held (w := w) h hL rfl fun z hz => linkBatch_of_notMem (hheld ▸ hz)
  | schedBatch v x y =>
    obtain ⟨ys, hheld, hchain⟩ := h.holds hpc
    rw [hheld] at hchain
    simp only [hpc, Option.some.injEq] at hs
    subst hs
    have hperm : (L (.held w)).Perm ([] ++ (ys ++ [x])) := by rw [hheld, List.nil_append]
    exact Grows.pushHeld h hL hperm hchain v.1
  | schedGlobal v x =>
    have hheld : L (.held w) = [x] := h.holds hpc
    simp only [hpc, Option.some.injEq] at hs
    subst hs
    exact Grows.pushHeldOne h hL (List.Perm.of_eq hheld) v.1
  | _ => simp only [hpc, reduceCtorEq] at hs

/-- The first step of a `schedule` call, for a task that is in no place. -/
theorem scheduleCall_grows {th : Thread E K} {target : Option ℕ} {d : Draws}
    (h : Represents s L) (hL : Separate L) (hnew : ¬ Within L t) :
    Grows L (scheduleCall c (s.logScheduled X t) th X t target d) := by
  by_cases ho : c.OwnerPath th X target
  · rw [scheduleCall_of_ownerPath ho]
    unfold scheduleOwner
    simp only
    split
    · exact .of_links h rfl fun _ _ _ => rfl
    · exact .of_links h rfl fun _ _ _ => rfl
  · rcases scheduleCall_of_not_ownerPath ho (s.logScheduled X t) t d with ⟨i, -, hs⟩ | hs
    · rw [hs]
      refine .of_links h rfl fun Y x hx => Function.update_of_ne ?_ _ _
      rintro rfl
      exact hnew ⟨_, hx⟩
    · rw [hs]
      have hseg : Segment s.next (some t) ([] ++ [t]) (s.next t) := ⟨rfl, rfl⟩
      refine Grows.pushBatch h hL hseg (List.nodup_singleton t) (fun x hx Y hY => ?_) X
      obtain rfl := List.mem_singleton.mp hx
      exact hnew ⟨_, hY⟩

variable {l : Label E K Task}

/-- The worker whose step `l` pops from its global queue. -/
def Label.popper (s : State E K Task) : Label E K Task → Option (E × ℕ)
  | .work w _ _ => if (s.pc (.worker w)).pops then some w else none
  | _ => none

/-- **A step that does not pop** leaves the global queues as they are, or appends. -/
theorem step_grows (hd : Discipline c s) (hC : Conserved c s L) (hl : Admissible c s l)
    (hs : step c s l = some s') (hpop : l.popper s = none) : Grows L s' := by
  cases l with
  | start X | stop X =>
    obtain rfl := Option.some.inj hs
    exact .of_links hC.lists rfl fun _ _ _ => rfl
  | relink x p =>
    obtain rfl := Option.some.inj hs
    have hnew : ¬ Within L x := hC.not_within (hl.1 x rfl)
    refine .of_links hC.lists rfl fun X y hy => Function.update_of_ne ?_ _ _
    rintro rfl
    exact hnew ⟨_, hy⟩
  | spawn w | finish w =>
    simp only [step, Option.ite_none_right_eq_some, Option.some.injEq] at hs
    obtain ⟨-, rfl⟩ := hs
    exact .of_links hC.lists rfl fun _ _ _ => rfl
  | work w draw lost =>
    simp only [step, Option.ite_none_right_eq_some] at hs
    refine workerStep_grows hC.lists hC.separate hs.2 ?_
    rw [Label.popper, ite_eq_right_iff] at hpop
    exact Bool.eq_false_iff.mpr fun htrue => by cases hpop htrue
  | schedule th X task target d =>
    cases task with
    | none => exact step_schedule_null hs ▸ .of_links hC.lists rfl fun _ _ _ => rfl
    | some x =>
      obtain ⟨-, rfl⟩ := step_schedule hs
      exact scheduleCall_grows hC.lists hC.separate (hC.not_within (hl.1 x rfl))
  | proceed th lost =>
    obtain ⟨w, hw, -⟩ := scheduleStep_acts hs
    obtain ⟨rfl, -⟩ := hd.frames th w hw
    exact scheduleStep_grows hC.lists hC.separate hs

/-- **A step that pops** takes the first task, or finds the queue empty. -/
theorem step_takes (hC : Conserved c s L) (hs : step c s l = some s')
    (hpop : l.popper s = some w) :
    (L (.globalQueue w.1) = [] ∧ Grows L s') ∨ ∃ t, Takes w t L s' := by
  cases l with
  | work v draw lost =>
    rw [Label.popper, Option.ite_none_right_eq_some, Option.some.injEq] at hpop
    obtain ⟨hpc, rfl⟩ := hpop
    simp only [step, Option.ite_none_right_eq_some] at hs
    have hstep := hs.2
    unfold workerStep at hstep
    cases hv : s.pc (.worker v) with
    | globalCheck | globalPop =>
      simp only [hv, Option.some.injEq] at hstep
      subst hstep
      exact globalPop_takes hC.lists hC.separate
    | _ => simp only [hv, Pc.pops, Bool.false_eq_true] at hpc
  | _ => cases hpop

/-! ### The place in the queue -/

/-- `t` has `j` tasks before it in the global queue of `X`. -/
def Waits (L : Place E → List Task) (X : E) (t : Task) (j : ℕ) : Prop :=
  (L (.globalQueue X))[j]? = some t

omit [DecidableEq E] [DecidableEq K] [DecidableEq Task] in
theorem Represents.globalQueue_eq {xs : List Task} (h : Represents s L)
    (hxs : (s.globalQueue X).Lists s.next xs) : L (.globalQueue X) = xs := by
  have hX : (s.globalQueue X).Lists s.next (L (.globalQueue X)) := h (.globalQueue X)
  exact hX.chain.unique hxs.chain

omit [DecidableEq E] [DecidableEq K] [DecidableEq Task] in
/-- Tasks that are appended come later. -/
theorem Waits.grows {j : ℕ} (h : Waits L X t j) (hL' : Represents s' L') (hg : Grows L s') :
    Waits L' X t j := by
  obtain ⟨xs, hxs⟩ := hg X
  have hlt : j < (L (.globalQueue X)).length := (List.getElem?_eq_some_iff.mp h).1
  rw [Waits, hL'.globalQueue_eq hxs, List.getElem?_append_left hlt]
  exact h

omit [DecidableEq E] [DecidableEq K] [DecidableEq Task] in
/-- Another executor's worker takes a task. -/
theorem Waits.of_ne {j : ℕ} {x : Task} (h : Waits L X t j) (hL' : Represents s' L')
    (ht : Takes w x L s') (hX : X ≠ w.1) : Waits L' X t j := by
  rw [Waits, hL'.globalQueue_eq (ht.others X hX)]
  exact h

omit [DecidableEq E] [DecidableEq K] [DecidableEq Task] in
/-- The task before all others is the one that is taken. -/
theorem Waits.taken {x : Task} (h : Waits L w.1 t 0) (ht : Takes w x L s') : x = t := by
  have hfirst := ht.first
  rw [List.head?_eq_getElem?] at hfirst
  exact Option.some.inj (hfirst.symm.trans h)

omit [DecidableEq E] [DecidableEq K] [DecidableEq Task] in
/-- The others move up. -/
theorem Waits.moveUp {j : ℕ} {x : Task} (h : Waits L w.1 t (j + 1)) (hL' : Represents s' L')
    (ht : Takes w x L s') : Waits L' w.1 t j := by
  rw [Waits, hL'.globalQueue_eq ht.rest, List.getElem?_tail]
  exact h

/-! ### The rounds of a worker -/

/-- The rounds up to the next one whose `tick` is a multiple of `kGlobalCheckInterval`.  When
the counter wraps around it becomes 0, which is one. -/
def due (tick : ℕ) : ℕ :=
  min (kGlobalCheckInterval - tick % kGlobalCheckInterval) (2 ^ 64 - tick)

omit [DecidableEq E] [DecidableEq K] [DecidableEq Task] in
theorem due_le (tick : ℕ) : due tick ≤ kGlobalCheckInterval :=
  (min_le_left _ _).trans (Nat.sub_le _ _)

/-- One round: `++tick`. -/
theorem due_tick {tick : ℕ} (h : tick < 2 ^ 64) :
    if (tick + 1) % 2 ^ 64 % kGlobalCheckInterval = 0 then due tick = 1
    else due ((tick + 1) % 2 ^ 64) + 1 = due tick := by
  unfold due kGlobalCheckInterval
  by_cases hwrap : tick + 1 = 2 ^ 64
  · rw [hwrap, Nat.mod_self, if_pos (Nat.zero_mod _)]
    omega
  · rw [Nat.mod_eq_of_lt (show tick + 1 < 2 ^ 64 by omega)]
    split
    · omega
    · omega

/-- The rounds that `w` begins before it looks into the global queue first. -/
def pending (s : State E K Task) (w : E × ℕ) : ℕ :=
  if s.pc (.worker w) = .globalCheck then 0 else due (s.tick w)

/-- The worker that begins a round of its loop in the step `l`. -/
def Label.beginner (s : State E K Task) : Label E K Task → Option (E × ℕ)
  | .work w _ _ => if s.pc (.worker w) = .top ∧ s.running w.1 = true then some w else none
  | _ => none

/-- Does `w` begin a round of its loop? -/
def round (w : E × ℕ) (s : State E K Task) (l : Label E K Task) : ℕ :=
  if l.beginner s = some w then 1 else 0

/-- `++ctx.tick`, and where the round goes on. -/
def State.beginRound (s : State E K Task) (w : E × ℕ) : State E K Task :=
  let tick := (s.tick w + 1) % 2 ^ 64
  (s.setTick w tick).goto (.worker w)
    (if tick % kGlobalCheckInterval = 0 then .globalCheck else .lifo)

/-- A step of thread `th` that does not begin a round. -/
structure Quiet (th : Thread E K) (s s' : State E K Task) : Prop where
  tick : s'.tick = s.tick
  others : ∀ th', th' ≠ th → s'.pc th' = s.pc th'
  pc : s'.pc th ≠ .globalCheck

section Quiet

variable {m : State E K Task} {th : Thread E K} {pc : Pc E Task}

omit [DecidableEq Task] in
theorem Quiet.goto (htick : m.tick = s.tick) (hpcs : m.pc = s.pc) (hpc : pc ≠ .globalCheck) :
    Quiet th s (m.goto th pc) where
  tick := htick
  others := fun th' hne => (Function.update_of_ne hne _ _).trans (congrFun hpcs th')
  pc := by rwa [State.pc_goto]

theorem Quiet.pending_eq (h : Quiet th s s') (hth : th = .worker w → s.pc th ≠ .globalCheck) :
    pending s' w = pending s w := by
  unfold pending
  rw [h.tick]
  by_cases hw : th = .worker w
  · subst hw
    rw [if_neg h.pc, if_neg (hth rfl)]
  · rw [h.others (.worker w) (Ne.symm hw)]

theorem drainStep_quiet (hs : drainStep s w = some s') : Quiet (.worker w) s s' := by
  unfold drainStep at hs
  cases hpc : s.pc (.worker w) with
  | inbox | drainPush =>
    simp only [hpc, Option.some.injEq] at hs
    subst hs
    split
    · exact .goto rfl rfl fun h => by cases h
    · exact .goto rfl rfl fun h => by cases h
  | detach | drainSpill =>
    simp only [hpc, Option.some.injEq] at hs
    subst hs
    exact .goto rfl rfl fun h => by cases h
  | drain x curr =>
    cases curr with
    | none | some =>
      simp only [hpc, Option.some.injEq] at hs
      subst hs
      exact .goto rfl rfl fun h => by cases h
  | _ => simp only [hpc, reduceCtorEq] at hs

theorem stealStep_quiet (hs : stealStep c s w draw lost = some s') :
    Quiet (.worker w) s s' := by
  unfold stealStep at hs
  cases hpc : s.pc (.worker w) with
  | steal =>
    simp only [hpc, Option.some.injEq] at hs
    subst hs
    split
    · exact .goto rfl rfl fun h => by cases h
    · exact .goto rfl rfl fun h => by cases h
  | stealHalf start i =>
    simp only [hpc, Option.some.injEq] at hs
    subst hs
    split
    · exact .goto rfl rfl fun h => by cases h
    split
    · exact .goto rfl rfl fun h => by cases h
    split
    · exact .goto rfl rfl fun h => by cases h
    · exact .goto rfl rfl fun h => by cases h
  | stealOne start i =>
    simp only [hpc, Option.some.injEq] at hs
    subst hs
    split
    · exact .goto rfl rfl fun h => by cases h
    · exact .goto rfl rfl fun h => by cases h
  | batch x rest =>
    cases rest with
    | nil =>
      simp only [hpc, Option.some.injEq] at hs
      subst hs
      exact .goto rfl rfl fun h => by cases h
    | cons y rest =>
      simp only [hpc, Option.some.injEq] at hs
      subst hs
      split
      · exact .goto rfl rfl fun h => by cases h
      · exact .goto rfl rfl fun h => by cases h
  | batchSpill =>
    simp only [hpc, Option.some.injEq] at hs
    subst hs
    exact .goto rfl rfl fun h => by cases h
  | _ => simp only [hpc, reduceCtorEq] at hs

/-- Only at the top of the loop, and only while the executor runs, does a worker step begin a
round. -/
theorem workerStep_quiet (hs : workerStep c s w draw lost = some s')
    (hround : ¬ (s.pc (.worker w) = .top ∧ s.running w.1 = true)) : Quiet (.worker w) s s' := by
  unfold workerStep at hs
  cases hpc : s.pc (.worker w) with
  | top =>
    simp only [hpc, Option.some.injEq] at hs
    subst hs
    rw [if_neg fun hrunning => hround ⟨hpc, hrunning⟩]
    exact .goto rfl rfl fun h => by cases h
  | globalCheck | globalPop =>
    simp only [hpc, Option.some.injEq] at hs
    subst hs
    refine .goto rfl rfl ?_
    split
    · exact fun h => by cases h
    · exact fun h => by cases h
  | lifo | tryPop =>
    simp only [hpc, Option.some.injEq] at hs
    subst hs
    split
    · exact .goto rfl rfl fun h => by cases h
    · exact .goto rfl rfl fun h => by cases h
  | execute x =>
    simp only [hpc, Option.some.injEq] at hs
    subst hs
    exact .goto rfl rfl fun h => by cases h
  | inbox | detach | drain | drainPush | drainSpill =>
    simp only [hpc] at hs
    exact drainStep_quiet hs
  | steal | stealHalf | stealOne | batch | batchSpill =>
    simp only [hpc] at hs
    exact stealStep_quiet hs
  | _ => simp only [hpc, reduceCtorEq] at hs

theorem scheduleStep_quiet (hs : scheduleStep s th lost = some s') : Quiet th s s' := by
  unfold scheduleStep at hs
  cases hpc : s.pc th with
  | schedPush v x | schedTake v x =>
    simp only [hpc, Option.some.injEq] at hs
    subst hs
    split
    · exact .goto rfl rfl fun h => by cases h
    · exact .goto rfl rfl fun h => by cases h
  | schedLink | schedBatch | schedGlobal =>
    simp only [hpc, Option.some.injEq] at hs
    subst hs
    exact .goto rfl rfl fun h => by cases h
  | _ => simp only [hpc, reduceCtorEq] at hs

theorem scheduleCall_quiet {target : Option ℕ} {d : Draws} (hth : s.pc th = .calling) :
    Quiet th s (scheduleCall c (s.logScheduled X t) th X t target d) := by
  have hcalling : s.pc th ≠ .globalCheck := by
    rw [hth]
    exact fun h => by cases h
  by_cases ho : c.OwnerPath th X target
  · rw [scheduleCall_of_ownerPath ho]
    unfold scheduleOwner
    simp only
    split
    · exact ⟨rfl, fun _ _ => rfl, hcalling⟩
    · exact .goto rfl rfl fun h => by cases h
  · rcases scheduleCall_of_not_ownerPath ho (s.logScheduled X t) t d with ⟨i, -, hs⟩ | hs
    · rw [hs]
      exact ⟨rfl, fun _ _ => rfl, hcalling⟩
    · rw [hs]
      exact ⟨rfl, fun _ _ => rfl, hcalling⟩

end Quiet

/-! ### The steps of a run -/

theorem step_beginRound (hs : step c s l = some s') (hl : l.beginner s = some w) :
    s.pc (.worker w) = .top ∧ s' = s.beginRound w := by
  cases l with
  | work v draw lost =>
    rw [Label.beginner, Option.ite_none_right_eq_some, Option.some.injEq] at hl
    obtain ⟨⟨hpc, hrunning⟩, rfl⟩ := hl
    simp only [step, workerStep, hpc, hrunning, if_true, Option.ite_none_right_eq_some,
      Option.some.injEq] at hs
    exact ⟨hpc, hs.2.symm⟩
  | _ => cases hl

/-- Any other step is quiet, and only a pop leaves the check. -/
theorem step_quiet (hs : step c s l = some s') (hl : l.beginner s = none) :
    (s'.tick = s.tick ∧ s'.pc = s.pc) ∨ ∃ th, Quiet th s s' ∧
      ∀ w, th = .worker w → s.pc th = .globalCheck → l.popper s = some w := by
  cases l with
  | start X | stop X | relink x p =>
    obtain rfl := Option.some.inj hs
    exact Or.inl ⟨rfl, rfl⟩
  | spawn v | finish v =>
    simp only [step, Option.ite_none_right_eq_some, Option.some.injEq] at hs
    obtain ⟨⟨-, hpc⟩, rfl⟩ := hs
    refine Or.inr ⟨.worker v, .goto rfl rfl fun h => (by cases h), fun w _ hcheck => ?_⟩
    exact absurd (hpc.symm.trans hcheck) fun h => by cases h
  | work v draw lost =>
    rw [Label.beginner, ite_eq_right_iff] at hl
    simp only [step, Option.ite_none_right_eq_some] at hs
    have hround : ¬ (s.pc (.worker v) = .top ∧ s.running v.1 = true) := by
      intro htop
      cases hl htop
    refine Or.inr ⟨.worker v, workerStep_quiet hs.2 hround, fun w hw hcheck => ?_⟩
    obtain rfl := Thread.worker.inj hw
    rw [Label.popper, hcheck]
    rfl
  | schedule th X task target d =>
    cases task with
    | none =>
      obtain rfl := step_schedule_null hs
      exact Or.inl ⟨rfl, rfl⟩
    | some x =>
      obtain ⟨hth, rfl⟩ := step_schedule hs
      refine Or.inr ⟨th, scheduleCall_quiet hth, fun w _ hcheck => ?_⟩
      exact absurd (hth.symm.trans hcheck) fun h => by cases h
  | proceed th lost =>
    obtain ⟨v, hframe, -⟩ := scheduleStep_acts hs
    refine Or.inr ⟨th, scheduleStep_quiet hs, fun w _ hcheck => ?_⟩
    rw [hcheck] at hframe
    cases hframe

theorem step_tick_lt (hs : step c s l = some s') (h : ∀ w, s.tick w < 2 ^ 64) (w : E × ℕ) :
    s'.tick w < 2 ^ 64 := by
  cases hl : l.beginner s with
  | none =>
    rcases step_quiet hs hl with ⟨htick, -⟩ | ⟨th, hquiet, -⟩
    · exact htick ▸ h w
    · exact hquiet.tick ▸ h w
  | some v =>
    obtain ⟨-, rfl⟩ := step_beginRound hs hl
    by_cases hw : w = v
    · subst hw
      have htick : (s.beginRound w).tick w = (s.tick w + 1) % 2 ^ 64 := Function.update_self ..
      rw [htick]
      exact Nat.mod_lt _ (by decide)
    · have htick : (s.beginRound v).tick w = s.tick w := Function.update_of_ne hw _ _
      rw [htick]
      exact h w

/-- A round that begins brings the next check nearer. -/
theorem pending_beginRound (htop : s.pc (.worker w) = .top) (htick : s.tick w < 2 ^ 64) :
    1 + pending (s.beginRound w) w = pending s w := by
  have hbefore : pending s w = due (s.tick w) := by
    rw [pending, htop]
    exact if_neg fun h => by cases h
  have hnew : (s.beginRound w).tick w = (s.tick w + 1) % 2 ^ 64 := Function.update_self ..
  have hpc : (s.beginRound w).pc (.worker w) =
      if (s.tick w + 1) % 2 ^ 64 % kGlobalCheckInterval = 0 then .globalCheck else .lifo :=
    State.pc_goto ..
  have hdue := due_tick htick
  rw [hbefore, pending, hpc, hnew]
  by_cases hcheck : (s.tick w + 1) % 2 ^ 64 % kGlobalCheckInterval = 0
  · rw [if_pos hcheck] at hdue
    rw [if_pos hcheck, if_pos rfl, hdue]
  · rw [if_neg hcheck] at hdue
    have hlifo : ¬ (Pc.lifo : Pc E Task) = .globalCheck := fun h => by cases h
    rw [if_neg hcheck, if_neg hlifo, Nat.add_comm]
    exact hdue

/-- **The rounds of `w`** count down to its next check, whatever other threads do. -/
theorem step_pending (hs : step c s l = some s') (htick : s.tick w < 2 ^ 64)
    (hpop : l.popper s ≠ some w) : round w s l + pending s' w = pending s w := by
  cases hl : l.beginner s with
  | none =>
    have hround : round w s l = 0 := by
      rw [round, hl]
      exact if_neg fun h => by cases h
    rw [hround, Nat.zero_add]
    rcases step_quiet hs hl with ⟨htick', hpc⟩ | ⟨th, hquiet, hcheck⟩
    · rw [pending, htick', hpc]
      rfl
    · refine hquiet.pending_eq fun hw hth => hpop (hcheck w hw hth)
  | some v =>
    obtain ⟨htop, rfl⟩ := step_beginRound hs hl
    by_cases hw : w = v
    · subst hw
      have hround : round w s l = 1 := if_pos hl
      rw [hround]
      exact pending_beginRound htop htick
    · have hround : round w s l = 0 := if_neg fun h =>
        hw (Option.some.inj (h.symm.trans hl))
      have htick' : (s.beginRound v).tick w = s.tick w := Function.update_of_ne hw _ _
      have hpc : (s.beginRound v).pc (.worker w) = s.pc (.worker w) :=
        Function.update_of_ne (fun he => hw (Thread.worker.inj he)) _ _
      rw [hround, Nat.zero_add, pending, htick', hpc]
      rfl

/-! ### The bound -/

/-- In `s`, `t` waits in the global queue of `w`'s executor, and `w` begins at most `n` rounds
before `t` is taken. -/
def Awaits (c : Config E K) (w : E × ℕ) (t : Task) (s : State E K Task) (n : ℕ) : Prop :=
  Discipline c s ∧ (∀ u, s.tick u < 2 ^ 64) ∧ ∃ L j, Conserved c s L ∧ Waits L w.1 t j ∧
    kGlobalCheckInterval * j + pending s w ≤ n

/-- In the step `l` a worker of `X` takes `t` from the global queue of `X`, to run it. -/
def Serves (X : E) (t : Task) (s : State E K Task) (l : Label E K Task) (s' : State E K Task) :
    Prop :=
  ∃ v, v.1 = X ∧ l.popper s = some v ∧ s'.pc (.worker v) = .execute t

omit [DecidableEq K] in
theorem pending_le (s : State E K Task) (w : E × ℕ) : pending s w ≤ kGlobalCheckInterval := by
  unfold pending
  split
  · exact Nat.zero_le _
  · exact due_le _

omit [DecidableEq K] in
theorem round_eq_zero (hpop : l.popper s = some v) : round w s l = 0 := by
  cases l with
  | work u draw lost =>
    rw [Label.popper, Option.ite_none_right_eq_some] at hpop
    have hnone : (Label.work u draw lost).beginner s = none := by
      refine if_neg ?_
      rintro ⟨htop, -⟩
      rw [htop] at hpop
      cases hpop.1
    rw [round, hnone]
    exact if_neg fun h => by cases h
  | _ => cases hpop

/-- **Step lemma.**  A task ahead is paid for with `kGlobalCheckInterval` rounds, and each round
that begins brings the next check nearer. -/
theorem step_awaits {n : ℕ} (h : Awaits c w t s n) (hl : Admissible c s l)
    (hs : step c s l = some s') :
    Serves w.1 t s l s' ∨ ∃ n', Awaits c w t s' n' ∧ round w s l + n' ≤ n := by
  obtain ⟨hd, htick, L, j, hC, hwaits, hn⟩ := h
  have hd' := step_discipline hd hl.safe hs
  have htick' := step_tick_lt hs htick
  obtain ⟨L', hC'⟩ := step_conserved hd hC hl hs
  -- unless `w` looks into its queue, `t` keeps its place and `w` counts on
  have hkeep : Waits L' w.1 t j → l.popper s ≠ some w →
      ∃ n', Awaits c w t s' n' ∧ round w s l + n' ≤ n := by
    intro hwaits' hpop
    have hpending := step_pending hs (htick w) hpop
    refine ⟨kGlobalCheckInterval * j + pending s' w,
      ⟨hd', htick', L', j, hC', hwaits', le_rfl⟩, ?_⟩
    omega
  cases hpop : l.popper s with
  | none =>
    have hgrows := step_grows hd hC hl hs hpop
    exact Or.inr (hkeep (hwaits.grows hC'.lists hgrows) fun h => by cases hpop.symm.trans h)
  | some v =>
    by_cases hX : w.1 = v.1
    · rcases step_takes hC hs hpop with ⟨hempty, -⟩ | ⟨x, htakes⟩
      · rw [Waits, hX, hempty] at hwaits
        cases hwaits
      · rw [hX] at hwaits ⊢
        cases j with
        | zero => exact Or.inl ⟨v, rfl, hpop, hwaits.taken htakes ▸ htakes.pc⟩
        | succ j =>
          have hup := hwaits.moveUp hC'.lists htakes
          have hle := pending_le s' w
          refine Or.inr ⟨kGlobalCheckInterval * j + pending s' w,
            ⟨hd', htick', L', j, hC', hX ▸ hup, le_rfl⟩, ?_⟩
          rw [round_eq_zero hpop, Nat.zero_add]
          rw [Nat.mul_succ] at hn
          omega
    · have hne : some v ≠ some w := fun he => hX (congrArg Prod.fst (Option.some.inj he)).symm
      right
      refine hkeep ?_ (hpop ▸ hne)
      rcases step_takes hC hs hpop with ⟨-, hgrows⟩ | ⟨x, htakes⟩
      · exact hwaits.grows hC'.lists hgrows
      · exact hwaits.of_ne hC'.lists htakes hX

/-- **No task starves in the global queue.**  In any state that an interleaving of `Admissible`
steps reaches, let the global queue of `w`'s executor hold the tasks `xs`, with `t` after `p`
others.  In whatever way the run goes on by such steps, once worker `w` has begun more than
`kGlobalCheckInterval * (p + 1)` rounds of its loop, some worker of that executor has taken
`t` from the queue to run it: however many tasks arrive in the meantime, by whichever way, and
also when the counter of rounds wraps around. -/
theorem global_queue_served (next : Task → Option Task) {ls ls' : List (Label E K Task)}
    {xs : List Task} {p : ℕ} (hrun : StepSystem.run (step c) (init next) ls = some s)
    (hok : StepSystem.Meets (step c) (Admissible c) (init next) (ls ++ ls'))
    (hqueue : (s.globalQueue w.1).Lists s.next xs) (hp : xs[p]? = some t)
    (hlater : StepSystem.run (step c) s ls' = some s')
    (hrounds : kGlobalCheckInterval * (p + 1) < StepSystem.total (step c) (round w) s ls') :
    ∃ ls₁ l ls₂ m m', ls' = ls₁ ++ l :: ls₂ ∧ StepSystem.run (step c) s ls₁ = some m ∧
      step c m l = some m' ∧ Serves w.1 t m l m' := by
  have hinv : Discipline c s ∧ (∀ u, s.tick u < 2 ^ 64) ∧ ∃ L, Conserved c s L := by
    refine StepSystem.run_invariant_of_meets
      (I := fun s => Discipline c s ∧ (∀ u, s.tick u < 2 ^ 64) ∧ ∃ L, Conserved c s L) ?_
      ⟨discipline_init next, fun _ => Nat.two_pow_pos 64, _, conserved_init next⟩
      hok.append_left hrun
    rintro s l s' ⟨hd, htick, L, hC⟩ hl hs
    exact ⟨step_discipline hd hl.safe hs, step_tick_lt hs htick, step_conserved hd hC hl hs⟩
  obtain ⟨hd, htick, L, hC⟩ := hinv
  have hwaits : Waits L w.1 t p := by
    rw [Waits, hC.lists.globalQueue_eq hqueue]
    exact hp
  have hstart : Awaits c w t s (kGlobalCheckInterval * (p + 1)) := by
    refine ⟨hd, htick, L, p, hC, hwaits, ?_⟩
    have hle := pending_le s w
    rw [Nat.mul_succ]
    omega
  have hbound := StepSystem.run_bounded (W := Awaits c w t) step_awaits hstart
    (hok.append_right hrun) hlater
  exact hbound.resolve_left (not_le.mpr hrounds)

/-- Task 5 reschedules itself on worker 0 of executor `false`, which finds it in its LIFO slot
in every round, while 7 waits in the global queue: until round 61. -/
def busyLabels : List (Label Bool Unit ℕ) :=
  let work := .work (false, 0) 0 false
  let again := .schedule (.worker (false, 0)) false (some 5) none ⟨0, 0, 0, 0⟩
  List.replicate 6 work ++ [again, .finish (false, 0)] ++
    (List.replicate 59 [work, work, work, again, .finish (false, 0)]).flatten ++
    [work, work, work, .finish (false, 0), work]

theorem global_queue_served_busy :
    ∃ s, StepSystem.run (step hopConfig) (init fun _ => none)
      [.start false, .spawn (false, 0),
        .schedule (.other ()) false (some 5) (some 0) ⟨0, 0, 0, 0⟩,
        .schedule (.other ()) false (some 7) (some 9) ⟨0, 0, 0, 0⟩] = some s ∧
    (s.globalQueue false).Lists s.next [7] ∧
    kGlobalCheckInterval * (0 + 1) <
      StepSystem.total (step hopConfig) (round (false, 0)) s busyLabels ∧
    ∃ ls₁ l ls₂ m m', busyLabels = ls₁ ++ l :: ls₂ ∧
      StepSystem.run (step hopConfig) s ls₁ = some m ∧
      step hopConfig m l = some m' ∧ Serves false 7 m l m' := by
  obtain ⟨s, hrun, hhead, hnext, htail, hrounds, hlater⟩ :
      ∃ s, StepSystem.run (step hopConfig) (init fun _ => none)
        [.start false, .spawn (false, 0),
          .schedule (.other ()) false (some 5) (some 0) ⟨0, 0, 0, 0⟩,
          .schedule (.other ()) false (some 7) (some 9) ⟨0, 0, 0, 0⟩] = some s ∧
      (s.globalQueue false).head = some 7 ∧ s.next 7 = none ∧
      (s.globalQueue false).tail = some 7 ∧
      kGlobalCheckInterval * (0 + 1) <
        StepSystem.total (step hopConfig) (round (false, 0)) s busyLabels ∧
      (StepSystem.run (step hopConfig) s busyLabels).isSome = true :=
    StepSystem.exists_of_run_any (by decide +kernel)
  have hqueue : (s.globalQueue false).Lists s.next [7] := ⟨⟨hhead, hnext⟩, htail⟩
  obtain ⟨s', hs'⟩ := Option.isSome_iff_exists.mp hlater
  exact ⟨s, hrun, hqueue, hrounds,
    global_queue_served (w := (false, 0)) _ hrun (by decide +kernel) hqueue rfl hs' hrounds⟩

end WorkStealing
