/-
Where the tasks of an executor are.

A task is in a LIFO slot, a local queue, an inbox, a global queue or in the local
variables of a worker.  Inboxes, global queues and some local variables hold their
tasks only through the tasks' `next` fields.

* `Place`, `State.cell` — the places and what the state has there;
* `Cell.Lists` — the tasks a cell holds, read through the links;
* `Represents s L` — `L` lists the tasks in every place of `s`;
* `Represents.rearrange` — how a step that touches two places is checked.
-/
import AntServer.Executor
import AntServer.Places

namespace WorkStealing

/-- A place for tasks. -/
inductive Place (E : Type*)
  | lifo (w : E × ℕ)
  | queue (w : E × ℕ)
  | inbox (w : E × ℕ)
  | globalQueue (X : E)
  | held (w : E × ℕ)          -- the local variables of a worker thread
  deriving DecidableEq

/-- The executor a place belongs to. -/
def Place.executor {E : Type*} : Place E → E
  | .lifo w | .queue w | .inbox w | .held w => w.1
  | .globalQueue X => X

/-- The places of executor `X`. -/
def placesOf {E : Type*} (X : E) : Set (Place E) := {p | p.executor = X}

variable {E K Task : Type*}

/-- The tasks in a thread's local variables, in the order the code will reach them. -/
def Pc.Holds (next : Task → Option Task) : Pc E Task → List Task → Prop
  | .detach inboxList, xs => Chain next (some inboxList) xs
  | .drain task curr, xs => ∃ ys, xs = task :: ys ∧ Chain next curr ys
  | .drainPush task curr nxt, xs | .drainSpill task curr nxt, xs =>
    ∃ ys, xs = task :: curr :: ys ∧ Chain next nxt ys
  | .batch task rest, xs => xs = task :: rest
  | .batchSpill task curr rest, xs => xs = task :: curr :: rest
  | .execute task, xs | .schedPush _ task, xs | .schedTake _ task, xs
  | .schedGlobal _ task, xs => xs = [task]
  | .schedLink _ task first rest, xs => xs = first :: rest ++ [task]
  | .schedBatch _ task first, xs => ∃ ys, xs = ys ++ [task] ∧ Chain next (some first) xs
  | .top, xs | .globalCheck, xs | .lifo, xs | .inbox, xs | .tryPop, xs | .steal, xs
  | .stealHalf _ _, xs | .stealOne _ _, xs | .globalPop, xs | .stopped, xs
  | .calling, xs => xs = []

/-- What the state has in a place. -/
inductive Cell (E Task : Type*)
  | slot (p : Option Task)
  | deque (xs : List Task)
  | stack (p : Option Task)
  | fifo (q : IntrusiveSpinLockQueue Task)
  | locals (pc : Pc E Task)

/-- The tasks in a cell. -/
def Cell.Lists (next : Task → Option Task) : Cell E Task → List Task → Prop
  | .slot p, xs => xs = p.toList
  | .deque ys, xs => xs = ys
  | .stack p, xs => Chain next p xs
  | .fifo q, xs => q.Lists next xs
  | .locals pc, xs => pc.Holds next xs

/-- Writing the links of tasks elsewhere does not matter. -/
theorem Pc.Holds.frame {next next' : Task → Option Task} {pc : Pc E Task} {xs : List Task}
    (h : pc.Holds next xs) (hx : ∀ x ∈ xs, next' x = next x) : pc.Holds next' xs := by
  cases pc with
  | detach => exact Chain.frame h hx
  | drain =>
    obtain ⟨ys, rfl, hys⟩ := h
    exact ⟨ys, rfl, hys.frame fun y hy => hx y (by simp [hy])⟩
  | drainPush | drainSpill =>
    obtain ⟨ys, rfl, hys⟩ := h
    exact ⟨ys, rfl, hys.frame fun y hy => hx y (by simp [hy])⟩
  | schedBatch =>
    obtain ⟨ys, rfl, hys⟩ := h
    exact ⟨ys, rfl, hys.frame hx⟩
  | _ => exact h

theorem Cell.Lists.frame {next next' : Task → Option Task} {cell : Cell E Task}
    {xs : List Task} (h : cell.Lists next xs) (hx : ∀ x ∈ xs, next' x = next x) :
    cell.Lists next' xs := by
  cases cell with
  | slot | deque => exact h
  | stack => exact Chain.frame h hx
  | fifo => exact IntrusiveSpinLockQueue.Lists.frame h hx
  | locals => exact Pc.Holds.frame h hx

theorem Pc.Holds.unique {next : Task → Option Task} {pc : Pc E Task} {xs ys : List Task}
    (h : pc.Holds next xs) (h' : pc.Holds next ys) : xs = ys := by
  cases pc with
  | detach => exact Chain.unique h h'
  | drain | drainPush | drainSpill =>
    obtain ⟨as, rfl, has⟩ := h
    obtain ⟨bs, rfl, hbs⟩ := h'
    rw [has.unique hbs]
  | schedBatch =>
    obtain ⟨-, -, hxs⟩ := h
    obtain ⟨-, -, hys⟩ := h'
    exact hxs.unique hys
  | _ => exact h.trans h'.symm

/-- A cell holds one list of tasks. -/
theorem Cell.Lists.unique {next : Task → Option Task} {cell : Cell E Task} {xs ys : List Task}
    (h : cell.Lists next xs) (h' : cell.Lists next ys) : xs = ys := by
  cases cell with
  | slot | deque => exact h.trans h'.symm
  | stack => exact Chain.unique h h'
  | fifo => exact h.chain.unique h'.chain
  | locals => exact Pc.Holds.unique h h'

/-- The cell of a place. -/
def State.cell (s : State E K Task) : Place E → Cell E Task
  | .lifo w => .slot (s.lifoSlot w)
  | .queue w => .deque (s.queue w)
  | .inbox w => .stack (s.inbox w)
  | .globalQueue X => .fifo (s.globalQueue X)
  | .held w => .locals (s.pc (.worker w))

/-- `L` lists the tasks in every place. -/
def Represents (s : State E K Task) (L : Place E → List Task) : Prop :=
  ∀ p, (s.cell p).Lists s.next (L p)

theorem Represents.holds {s : State E K Task} {L : Place E → List Task} {w : E × ℕ} {pc : Pc E Task}
    (h : Represents s L) (hpc : s.pc (.worker w) = pc) : pc.Holds s.next (L (.held w)) :=
  hpc ▸ h (.held w)

/-- The tasks of a place that a step does not touch. -/
theorem Represents.place_eq {s s' : State E K Task} {L L' : Place E → List Task} {p : Place E}
    (h : Represents s L) (h' : Represents s' L') (hcell : s'.cell p = s.cell p)
    (hnext : ∀ x ∈ L p, s'.next x = s.next x) : L' p = L p := by
  have hp' : (s.cell p).Lists s'.next (L' p) := hcell ▸ h' p
  exact hp'.unique ((h p).frame hnext)

theorem Represents.unique {s : State E K Task} {L L' : Place E → List Task} (h : Represents s L)
    (h' : Represents s L') : L' = L := by
  funext p
  exact h.place_eq h' rfl fun _ _ => rfl

/-! ### The cell each operation writes -/

section

variable {s s' : State E K Task} {w : E × ℕ} {p q : Place E} {X : E} {L : Place E → List Task}
  {ins outs : List Task}

@[simp] theorem State.cell_setLinks (next : Task → Option Task) :
    (s.setLinks next).cell p = s.cell p := by
  cases p <;> rfl

@[simp] theorem State.cell_logScheduled (t : Task) :
    (s.logScheduled X t).cell p = s.cell p := by
  cases p <;> rfl

@[simp] theorem State.cell_logRan (t : Task) : (s.logRan w t).cell p = s.cell p := by
  cases p <;> rfl

@[simp] theorem State.cell_logOwner (th : Thread E K) : (s.logOwner th w).cell p = s.cell p := by
  cases p <;> rfl

@[simp] theorem State.cell_logCall (th : Thread E K) (r : Route) :
    (s.logCall th r).cell p = s.cell p := by
  cases p <;> rfl

variable [DecidableEq E]

@[simp] theorem State.cell_setTick (n : ℕ) : (s.setTick w n).cell p = s.cell p := by
  cases p <;> rfl

@[simp] theorem State.cell_setRunning (b : Bool) : (s.setRunning X b).cell p = s.cell p := by
  cases p <;> rfl

@[simp] theorem State.cell_setLifo (h : p ≠ .lifo w) (t : Option Task) :
    (s.setLifo w t).cell p = s.cell p := by
  cases p with
  | lifo v =>
    have hne : v ≠ w := fun he => h (he ▸ rfl)
    exact congrArg Cell.slot (Function.update_of_ne hne _ _)
  | _ => rfl

@[simp] theorem State.cell_setQueue (h : p ≠ .queue w) (xs : List Task) :
    (s.setQueue w xs).cell p = s.cell p := by
  cases p with
  | queue v =>
    have hne : v ≠ w := fun he => h (he ▸ rfl)
    exact congrArg Cell.deque (Function.update_of_ne hne _ _)
  | _ => rfl

@[simp] theorem State.cell_setInbox (h : p ≠ .inbox w) (t : Option Task) :
    (s.setInbox w t).cell p = s.cell p := by
  cases p with
  | inbox v =>
    have hne : v ≠ w := fun he => h (he ▸ rfl)
    exact congrArg Cell.stack (Function.update_of_ne hne _ _)
  | _ => rfl

@[simp] theorem State.cell_setGlobal (h : p ≠ .globalQueue X)
    (r : (Task → Option Task) × IntrusiveSpinLockQueue Task) :
    (s.setGlobal X r).cell p = s.cell p := by
  cases p with
  | globalQueue Y =>
    have hne : Y ≠ X := fun he => h (he ▸ rfl)
    exact congrArg Cell.fifo (Function.update_of_ne hne _ _)
  | _ => rfl

@[simp] theorem State.cell_lifo_setLifo (t : Option Task) :
    (s.setLifo w t).cell (.lifo w) = .slot t :=
  congrArg Cell.slot (Function.update_self ..)

@[simp] theorem State.cell_queue_setQueue (xs : List Task) :
    (s.setQueue w xs).cell (.queue w) = .deque xs :=
  congrArg Cell.deque (Function.update_self ..)

@[simp] theorem State.cell_inbox_setInbox (t : Option Task) :
    (s.setInbox w t).cell (.inbox w) = .stack t :=
  congrArg Cell.stack (Function.update_self ..)

@[simp] theorem State.cell_globalQueue_setGlobal
    (r : (Task → Option Task) × IntrusiveSpinLockQueue Task) :
    (s.setGlobal X r).cell (.globalQueue X) = .fifo r.2 :=
  congrArg Cell.fifo (Function.update_self ..)

variable [DecidableEq K]

@[simp] theorem State.cell_goto (h : p ≠ .held w) (pc : Pc E Task) :
    (s.goto (.worker w) pc).cell p = s.cell p := by
  cases p with
  | held v =>
    have hne : Thread.worker v ≠ (Thread.worker w : Thread E K) := fun he => h (by simpa using he)
    exact congrArg Cell.locals (Function.update_of_ne hne _ _)
  | _ => rfl

@[simp] theorem State.cell_held_goto (pc : Pc E Task) :
    (s.goto (.worker w) pc).cell (.held w) = .locals pc :=
  congrArg Cell.locals (Function.update_self ..)

/-! ### Rearranging two places -/

omit [DecidableEq K] in
/-- A step that changes the place `p` only. -/
theorem Represents.replace (h : Represents s L) (hL : Separate L) (hp : p ∈ placesOf X)
    (xs : List Task) (hcell : ∀ r, r ≠ p → s'.cell r = s.cell r)
    (hnext : ∀ x, x ∉ L p → Within L x → s'.next x = s.next x)
    (hxs : (s'.cell p).Lists s'.next xs) (hperm : (outs ++ xs).Perm (ins ++ L p)) :
    ∃ L', Represents s' L' ∧ Transfer (placesOf X) ins outs L L' := by
  refine ⟨Function.update L p xs, fun r => ?_, Transfer.one hp hperm⟩
  by_cases hr : r = p
  · subst hr
    rwa [Function.update_self]
  · rw [Function.update_of_ne hr, hcell r hr]
    refine (h r).frame fun x hx => hnext x (fun hxp => ?_) ⟨r, hx⟩
    exact hr (hL.eq_of_mem hx hxp)

omit [DecidableEq K] in
/-- **A step that changes two places only.**  It may write the links of the tasks that
were there, and of tasks that are nowhere. -/
theorem Represents.rearrange (h : Represents s L) (hL : Separate L) (hpq : p ≠ q)
    (hp : p ∈ placesOf X) (hq : q ∈ placesOf X) (xs ys : List Task)
    (hcell : ∀ r, r ≠ p → r ≠ q → s'.cell r = s.cell r)
    (hnext : ∀ x, x ∉ L p → x ∉ L q → Within L x → s'.next x = s.next x)
    (hxs : (s'.cell p).Lists s'.next xs) (hys : (s'.cell q).Lists s'.next ys)
    (hperm : (outs ++ (xs ++ ys)).Perm (ins ++ (L p ++ L q))) :
    ∃ L', Represents s' L' ∧ Transfer (placesOf X) ins outs L L' := by
  refine ⟨Function.update (Function.update L p xs) q ys, fun r => ?_,
    Transfer.two hpq hp hq hperm⟩
  by_cases hrq : r = q
  · subst hrq
    rwa [Function.update_self]
  rw [Function.update_of_ne hrq]
  by_cases hrp : r = p
  · subst hrp
    rwa [Function.update_self]
  · rw [Function.update_of_ne hrp, hcell r hrp hrq]
    refine (h r).frame fun x hx => hnext x (fun hxp => ?_) (fun hxq => ?_) ⟨r, hx⟩
    · exact hrp (hL.eq_of_mem hx hxp)
    · exact hrq (hL.eq_of_mem hx hxq)

end

end WorkStealing
