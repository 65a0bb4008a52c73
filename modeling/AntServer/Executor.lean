/-
The work-stealing executor (scheduler/executor.hpp).

Any family of executors `E` runs side by side; executor `X` has
`nthreads X` worker threads, and threads `K` outside all of them also call
`schedule`.  Each operation on a local queue, an inbox or a global queue is one
step, and so is each access to a LIFO slot; the steps of all threads interleave
freely.

* `Pc` — where a thread stands in `WorkerLoop` or in a `schedule` call, with the
  tasks in its local variables;
* `schedule`, `scheduleOn` — the two `schedule` overloads up to their first
  access to a container; `scheduleCall_of_ownerPath` and
  `scheduleCall_of_not_ownerPath` say which one that is;
* `scheduleStep` — the rest of a `schedule` call that took the owner's path;
* `workerStep` — one step of `WorkerLoop`, with `drainStep` for the draining of the
  inbox and `stealStep` for `steal_task`;
* `step` — one step of the family.

A task is a pointer that is not null and its `next` field is part of the state.
A worker's deque is the list of its tasks, oldest first: the owner pushes and pops
at the end, thieves take from the front.  Random draws and observed loads come with
the step, so they are arbitrary.  Parking and waking move no task and are left out.
-/
import AntServer.SpinLockQueue
import AntServer.SpmcQueue

namespace WorkStealing

/-- The capacity of a local queue. -/
def kDefaultSpmcCapacity : ℕ := 256

def kGlobalCheckInterval : ℕ := 61

/-- A thread: the one that runs `WorkerLoop(i)` of executor `X` is `worker (X, i)`. -/
inductive Thread (E K : Type*)
  | worker (w : E × ℕ)
  | other (k : K)
  deriving DecidableEq

/-- The executors' sizes and the thread-locals `(g_executor, g_thread_id)` of the
threads outside. -/
structure Config (E K : Type*) where
  nthreads : E → ℕ
  nthreads_pos : ∀ X, 0 < nthreads X
  tls : K → Option E × ℕ

/-- The thread-locals of any thread; `WorkerLoop` sets those of a worker. -/
def Config.threadLocals {E K : Type*} (c : Config E K) : Thread E K → Option E × ℕ
  | .worker w => (some w.1, w.2)
  | .other k => c.tls k

/-- Where a thread stands. -/
inductive Pc (E Task : Type*)
  -- `WorkerLoop`; `task` is its local variable of that name once it is not null
  | top                                                -- the loop condition
  | globalCheck                                        -- 1. every 61 ticks
  | lifo                                               -- 2. LIFO slot
  | inbox                                              -- 3. `pop_all_inbox`
  | detach (inboxList : Task)
  | drain (task : Task) (curr : Option Task)           -- `while (curr)`
  | drainPush (task curr : Task) (next : Option Task)
  | drainSpill (task curr : Task) (next : Option Task)
  | tryPop                                             -- 4.
  | steal                                              -- 5. `steal_task`
  | stealHalf (start i : ℕ)
  | stealOne (start i : ℕ)
  | batch (task : Task) (rest : List Task)             -- `batch[0]` and what is still to push
  | batchSpill (task curr : Task) (rest : List Task)
  | globalPop                                          -- 6.
  | execute (task : Task)                              -- 7.
  | stopped                                            -- no thread runs this loop
  | calling                                            -- user code: in `task->run()` or outside
  -- `schedule(task, w.2)` of executor `w.1` on the owner's path, LIFO slot occupied
  | schedPush (w : E × ℕ) (task : Task)
  | schedTake (w : E × ℕ) (task : Task)
  | schedLink (w : E × ℕ) (task first : Task) (rest : List Task)
  | schedBatch (w : E × ℕ) (task first : Task)
  | schedGlobal (w : E × ℕ) (task : Task)
  deriving DecidableEq

/-- The worker whose `schedule` call on the owner's path is in progress. -/
def Pc.frame {E Task : Type*} : Pc E Task → Option (E × ℕ)
  | .schedPush w _ | .schedTake w _ | .schedLink w _ _ _ | .schedBatch w _ _
  | .schedGlobal w _ => some w
  | _ => none

/-- The way a `schedule` call takes. -/
inductive Route
  | owner
  | inbox
  | globalQueue
  deriving DecidableEq

/-- The shared state of all executors and where each thread stands.  The last four
fields are history. -/
structure State (E K Task : Type*) where
  next : Task → Option Task
  lifoSlot : E × ℕ → Option Task
  queue : E × ℕ → List Task
  inbox : E × ℕ → Option Task
  tick : E × ℕ → ℕ
  globalQueue : E → IntrusiveSpinLockQueue Task
  running : E → Bool
  pc : Thread E K → Pc E Task
  scheduled : List (E × Task)               -- the tasks passed to `schedule`
  ran : List ((E × ℕ) × Task)               -- the tasks run, with the worker
  ownerOps : List (Thread E K × (E × ℕ))    -- owner-only accesses: thread, worker
  calls : List (Thread E K × Route)         -- the ways the `schedule` calls took

variable {E K Task : Type*} [DecidableEq E] [DecidableEq K] [DecidableEq Task]

/-- Before `Start`: the links hold anything. -/
def init (next : Task → Option Task) : State E K Task where
  next := next
  lifoSlot := fun _ => none
  queue := fun _ => []
  inbox := fun _ => none
  tick := fun _ => 0
  globalQueue := fun _ => .empty
  running := fun _ => false
  pc := fun th => match th with
    | .worker _ => .stopped
    | .other _ => .calling
  scheduled := []
  ran := []
  ownerOps := []
  calls := []

namespace State

/-! ### The containers -/

def goto (s : State E K Task) (th : Thread E K) (pc : Pc E Task) : State E K Task :=
  { s with pc := Function.update s.pc th pc }

def setTick (s : State E K Task) (w : E × ℕ) (tick : ℕ) : State E K Task :=
  { s with tick := Function.update s.tick w tick }

def setRunning (s : State E K Task) (X : E) (b : Bool) : State E K Task :=
  { s with running := Function.update s.running X b }

def setLinks (s : State E K Task) (next : Task → Option Task) : State E K Task :=
  { s with next := next }

def setNext (s : State E K Task) (task : Task) (p : Option Task) : State E K Task :=
  s.setLinks (Function.update s.next task p)

def setLifo (s : State E K Task) (w : E × ℕ) (p : Option Task) : State E K Task :=
  { s with lifoSlot := Function.update s.lifoSlot w p }

def setQueue (s : State E K Task) (w : E × ℕ) (xs : List Task) : State E K Task :=
  { s with queue := Function.update s.queue w xs }

def setInbox (s : State E K Task) (w : E × ℕ) (p : Option Task) : State E K Task :=
  { s with inbox := Function.update s.inbox w p }

/-- `push_inbox`. -/
def pushInbox (s : State E K Task) (w : E × ℕ) (task : Task) : State E K Task :=
  (s.setNext task (s.inbox w)).setInbox w (some task)

/-- The links and the global queue of `X` after an operation on that queue. -/
def setGlobal (s : State E K Task) (X : E)
    (r : (Task → Option Task) × IntrusiveSpinLockQueue Task) : State E K Task :=
  { s.setLinks r.1 with globalQueue := Function.update s.globalQueue X r.2 }

/-- `global_queue_.Push`. -/
def globalPush (s : State E K Task) (X : E) (task : Task) : State E K Task :=
  s.setGlobal X ((s.globalQueue X).push s.next task)

/-- `global_queue_.PushBatch`. -/
def globalPushBatch (s : State E K Task) (X : E) (first last : Task) : State E K Task :=
  s.setGlobal X ((s.globalQueue X).pushBatch s.next first last)

/-- `global_queue_.Pop`, then `found task` or `empty`. -/
def globalPop (s : State E K Task) (X : E) (th : Thread E K) (found : Task → Pc E Task)
    (empty : Pc E Task) : State E K Task :=
  let r := (s.globalQueue X).pop s.next
  (s.setGlobal X r.2).goto th (match r.1 with
    | some task => found task
    | none => empty)

/-- History: `task` is passed to `schedule` of `X`. -/
def logScheduled (s : State E K Task) (X : E) (task : Task) : State E K Task :=
  { s with scheduled := s.scheduled ++ [(X, task)] }

/-- History: worker `w` runs `task`. -/
def logRan (s : State E K Task) (w : E × ℕ) (task : Task) : State E K Task :=
  { s with ran := s.ran ++ [(w, task)] }

/-- History: thread `th` performs an owner-only operation of worker `w`. -/
def logOwner (s : State E K Task) (th : Thread E K) (w : E × ℕ) : State E K Task :=
  { s with ownerOps := s.ownerOps ++ [(th, w)] }

/-- History: a `schedule` call of `th` takes the way `r`. -/
def logCall (s : State E K Task) (th : Thread E K) (r : Route) : State E K Task :=
  { s with calls := s.calls ++ [(th, r)] }

end State

/-! ### `schedule` -/

/-- What an untargeted call from outside draws and reads: two random numbers and the
`approximate_load` of the two candidates. -/
structure Draws where
  r1 : ℕ
  r2 : ℕ
  load1 : ℕ
  load2 : ℕ

/-- The worker that the power of two choices picks among `n`. -/
def p2c (n : ℕ) (d : Draws) : ℕ :=
  let w1 := d.r1 % n
  let w2 := (w1 + 1 + d.r2 % (n - 1)) % n
  if d.load1 ≤ d.load2 then w1 else w2

variable (c : Config E K)

/-- `schedule(task, w.2)` of `w.1` on the owner's path, up to its first access. -/
def scheduleOwner (s : State E K Task) (th : Thread E K) (w : E × ℕ) (task : Task) :
    State E K Task :=
  let s := (s.logOwner th w).logCall th .owner
  match s.lifoSlot w with
  | none => s.setLifo w (some task)
  | some _ => s.goto th (.schedPush w task)

/-- `schedule(task, thread_id)` of `X` on thread `th`. -/
def scheduleOn (s : State E K Task) (th : Thread E K) (X : E) (task : Task) (id : ℕ) :
    State E K Task :=
  if c.nthreads X ≤ id then
    (s.globalPush X task).logCall th .globalQueue
  else if c.threadLocals th = (some X, id) then
    scheduleOwner s th (X, id) task
  else
    (s.pushInbox (X, id) task).logCall th .inbox

/-- `schedule(task)` of `X` on thread `th`. -/
def schedule (s : State E K Task) (th : Thread E K) (X : E) (task : Task) (d : Draws) :
    State E K Task :=
  let tls := c.threadLocals th
  if tls.1 = some X ∧ tls.2 < c.nthreads X then
    scheduleOn c s th X task tls.2
  else if c.nthreads X = 1 then
    (s.pushInbox (X, 0) task).logCall th .inbox
  else
    (s.pushInbox (X, p2c (c.nthreads X) d) task).logCall th .inbox

/-- A call of the overload with or without `thread_id`. -/
def scheduleCall (s : State E K Task) (th : Thread E K) (X : E) (task : Task)
    (target : Option ℕ) (d : Draws) : State E K Task :=
  match target with
  | none => schedule c s th X task d
  | some id => scheduleOn c s th X task id

/-- The thread-locals make this call take the owner's path. -/
def Config.OwnerPath (c : Config E K) (th : Thread E K) (X : E) (target : Option ℕ) : Prop :=
  (c.threadLocals th).1 = some X ∧ (c.threadLocals th).2 < c.nthreads X ∧
    (target = none ∨ target = some (c.threadLocals th).2)

instance (th : Thread E K) (X : E) (target : Option ℕ) : Decidable (c.OwnerPath th X target) :=
  inferInstanceAs (Decidable (_ ∧ _ ∧ _))

/-- `TakeHalf`: the tasks taken and those that stay. -/
def takeHalf (xs : List Task) : List Task × List Task :=
  xs.splitAt (SpmcQueue.numToTake xs.length)

/-- `batch[i]->next = batch[i + 1]`, the last one's `next = task`, `task->next = nullptr`. -/
def linkBatch (next : Task → Option Task) : List Task → Task → Task → Option Task
  | [], task => Function.update next task none
  | x :: xs, task => linkBatch (Function.update next x (some (xs.headD task))) xs task

/-- The next step of a `schedule` call on the owner's path.  `lost` says that `TakeHalf`
loses its compare-exchange to a thief. -/
def scheduleStep (s : State E K Task) (th : Thread E K) (lost : Bool) :
    Option (State E K Task) :=
  match s.pc th with
  | .schedPush w task =>
    let s := s.logOwner th w
    some (if (s.queue w).length < kDefaultSpmcCapacity then
      (s.setQueue w (s.queue w ++ [task])).goto th .calling
    else s.goto th (.schedTake w task))
  | .schedTake w task =>
    let s := s.logOwner th w
    some (match lost, takeHalf (s.queue w) with
    | false, (first :: rest, xs) => (s.setQueue w xs).goto th (.schedLink w task first rest)
    | _, _ => s.goto th (.schedGlobal w task))
  | .schedLink w task first rest =>
    some ((s.setLinks (linkBatch s.next (first :: rest) task)).goto th (.schedBatch w task first))
  | .schedBatch w task first => some ((s.globalPushBatch w.1 first task).goto th .calling)
  | .schedGlobal w task => some ((s.globalPush w.1 task).goto th .calling)
  | _ => none

/-! ### `WorkerLoop` -/

/-- The next step of worker `w` in block 3, the draining of its inbox. -/
def drainStep (s : State E K Task) (w : E × ℕ) : Option (State E K Task) :=
  let th : Thread E K := .worker w
  match s.pc th with
  | .inbox =>
    some (match s.inbox w with
    | some inboxList => (s.setInbox w none).goto th (.detach inboxList)
    | none => s.goto th .tryPop)
  | .detach inboxList =>
    some ((s.setNext inboxList none).goto th (.drain inboxList (s.next inboxList)))
  | .drain task none => some (s.goto th (.execute task))
  | .drain task (some curr) =>
    some ((s.setNext curr none).goto th (.drainPush task curr (s.next curr)))
  | .drainPush task curr next =>
    let s := s.logOwner th w
    some (if (s.queue w).length < kDefaultSpmcCapacity then
      (s.setQueue w (s.queue w ++ [curr])).goto th (.drain task next)
    else s.goto th (.drainSpill task curr next))
  | .drainSpill task curr next => some ((s.globalPush w.1 curr).goto th (.drain task next))
  | _ => none

/-- The next step of worker `w` in `steal_task`.  `draw` is its random number; `lost` says
that a `TakeHalf` or a `Steal` fails its compare-exchange. -/
def stealStep (s : State E K Task) (w : E × ℕ) (draw : ℕ) (lost : Bool) :
    Option (State E K Task) :=
  let n := c.nthreads w.1
  let th : Thread E K := .worker w
  match s.pc th with
  | .steal => some (s.goto th (if n ≤ 1 then .globalPop else .stealHalf (draw % n) 0))
  | .stealHalf start i =>
    let victim := (start + i) % n
    some (if n ≤ i then s.goto th .globalPop
    else if victim = w.2 then s.goto th (.stealHalf start (i + 1))
    else match lost, takeHalf (s.queue (w.1, victim)) with
    | false, (task :: rest, xs) => (s.setQueue (w.1, victim) xs).goto th (.batch task rest)
    | _, _ => s.goto th (.stealOne start i))
  | .stealOne start i =>
    let victim := (start + i) % n
    some (match lost, s.queue (w.1, victim) with
    | false, task :: xs => (s.setQueue (w.1, victim) xs).goto th (.execute task)
    | _, _ => s.goto th (.stealHalf start (i + 1)))
  | .batch task [] => some (s.goto th (.execute task))
  | .batch task (curr :: rest) =>
    let s := s.logOwner th w
    some (if (s.queue w).length < kDefaultSpmcCapacity then
      (s.setQueue w (s.queue w ++ [curr])).goto th (.batch task rest)
    else s.goto th (.batchSpill task curr rest))
  | .batchSpill task curr rest => some ((s.globalPush w.1 curr).goto th (.batch task rest))
  | _ => none

/-- The next step of worker `w`. -/
def workerStep (s : State E K Task) (w : E × ℕ) (draw : ℕ) (lost : Bool) :
    Option (State E K Task) :=
  let th : Thread E K := .worker w
  match s.pc th with
  | .top =>
    let tick := (s.tick w + 1) % 2 ^ 64
    some (if s.running w.1 then
      (s.setTick w tick).goto th
        (if tick % kGlobalCheckInterval = 0 then .globalCheck else .lifo)
    else s.goto th .stopped)
  | .globalCheck => some (s.globalPop w.1 th .execute .lifo)
  | .lifo =>
    let s := s.logOwner th w
    some (match s.lifoSlot w with
    | some task => (s.setLifo w none).goto th (.execute task)
    | none => s.goto th .inbox)
  | .inbox | .detach _ | .drain _ _ | .drainPush _ _ _ | .drainSpill _ _ _ => drainStep s w
  | .tryPop =>
    let s := s.logOwner th w
    some (match (s.queue w).getLast? with
    | some task => (s.setQueue w (s.queue w).dropLast).goto th (.execute task)
    | none => s.goto th .steal)
  | .steal | .stealHalf _ _ | .stealOne _ _ | .batch _ _ | .batchSpill _ _ _ =>
    stealStep c s w draw lost
  | .globalPop => some (s.globalPop w.1 th .execute .top)
  | .execute task => some ((s.logRan w task).goto th .calling)
  | _ => none

/-! ### The family -/

/-- One step of the family. -/
inductive Label (E K Task : Type*)
  | start (X : E)                                  -- `Start` stores `running_`
  | spawn (w : E × ℕ)                              -- and starts `WorkerLoop`s
  | stop (X : E)
  | work (w : E × ℕ) (draw : ℕ) (lost : Bool)
  | finish (w : E × ℕ)                             -- the task that `w` runs returns
  | schedule (th : Thread E K) (X : E) (task : Option Task) (target : Option ℕ) (d : Draws)
  | proceed (th : Thread E K) (lost : Bool)        -- inside a `schedule` call
  | relink (task : Task) (p : Option Task)         -- user code writes `task->next`

def step (s : State E K Task) : Label E K Task → Option (State E K Task)
  | .start X => some (s.setRunning X true)
  | .spawn w =>
    if w.2 < c.nthreads w.1 ∧ s.pc (.worker w) = .stopped then some (s.goto (.worker w) .top)
    else none
  | .stop X => some (s.setRunning X false)
  | .work w draw lost => if w.2 < c.nthreads w.1 then workerStep c s w draw lost else none
  | .finish w =>
    if w.2 < c.nthreads w.1 ∧ s.pc (.worker w) = .calling then some (s.goto (.worker w) .top)
    else none
  | .schedule th X task target d =>
    if s.pc th = .calling then
      match task with
      | none => some s
      | some task =>
        some (scheduleCall c (s.logScheduled X task) th X task target d)
    else none
  | .proceed th lost => scheduleStep s th lost
  | .relink task p => some (s.setNext task p)

/-! ### The ways of a `schedule` call -/

omit [DecidableEq E] [DecidableEq K] [DecidableEq Task] in
theorem p2c_lt {n : ℕ} (hn : 0 < n) (d : Draws) : p2c n d < n := by
  unfold p2c
  simp only
  split
  · exact Nat.mod_lt _ hn
  · exact Nat.mod_lt _ hn

variable {c} {th : Thread E K} {X : E} {target : Option ℕ}

/-- A step that calls `schedule` starts in user code. -/
theorem step_schedule {s s' : State E K Task} {task : Task} {d : Draws}
    (hs : step c s (.schedule th X (some task) target d) = some s') :
    s.pc th = .calling ∧
      s' = scheduleCall c (s.logScheduled X task) th X task target d := by
  simp only [step, Option.ite_none_right_eq_some, Option.some.injEq] at hs
  exact ⟨hs.1, hs.2.symm⟩

/-- `schedule(nullptr)` does nothing. -/
theorem step_schedule_null {s s' : State E K Task} {d : Draws}
    (hs : step c s (.schedule th X none target d) = some s') : s' = s := by
  simp only [step, Option.ite_none_right_eq_some, Option.some.injEq] at hs
  exact hs.2.symm

omit [DecidableEq Task] in
theorem scheduleOwner_of_none {s : State E K Task} {w : E × ℕ} (h : s.lifoSlot w = none)
    (task : Task) : scheduleOwner s th w task =
      ((s.logOwner th w).logCall th .owner).setLifo w (some task) := by
  have hslot : ((s.logOwner th w).logCall th .owner).lifoSlot w = none := h
  simp only [scheduleOwner, hslot]

omit [DecidableEq Task] in
theorem scheduleOwner_of_some {s : State E K Task} {w : E × ℕ} {task' : Task}
    (h : s.lifoSlot w = some task') (task : Task) : scheduleOwner s th w task =
      ((s.logOwner th w).logCall th .owner).goto th (.schedPush w task) := by
  have hslot : ((s.logOwner th w).logCall th .owner).lifoSlot w = some task' := h
  simp only [scheduleOwner, hslot]

/-- The thread-locals name a worker of `X`, and the call is for that worker. -/
theorem scheduleCall_of_ownerPath (h : c.OwnerPath th X target) (s : State E K Task)
    (task : Task) (d : Draws) :
    scheduleCall c s th X task target d =
      scheduleOwner s th (X, (c.threadLocals th).2) task := by
  obtain ⟨hX, hlt, htarget⟩ := h
  have htls : c.threadLocals th = (some X, (c.threadLocals th).2) := Prod.ext hX rfl
  have hon : scheduleOn c s th X task (c.threadLocals th).2 =
      scheduleOwner s th (X, (c.threadLocals th).2) task :=
    (if_neg (not_le.mpr hlt)).trans (if_pos htls)
  rcases htarget with rfl | rfl
  · exact (if_pos ⟨hX, hlt⟩).trans hon
  · exact hon

/-- Any other call goes to an inbox or to the global queue. -/
theorem scheduleCall_of_not_ownerPath (h : ¬ c.OwnerPath th X target) (s : State E K Task)
    (task : Task) (d : Draws) :
    (∃ i < c.nthreads X, scheduleCall c s th X task target d =
      (s.pushInbox (X, i) task).logCall th .inbox) ∨
    scheduleCall c s th X task target d = (s.globalPush X task).logCall th .globalQueue := by
  cases target with
  | none =>
    have hout : ¬ ((c.threadLocals th).1 = some X ∧ (c.threadLocals th).2 < c.nthreads X) :=
      fun ⟨hX, hlt⟩ => h ⟨hX, hlt, Or.inl rfl⟩
    left
    by_cases hn : c.nthreads X = 1
    · exact ⟨0, c.nthreads_pos X, (if_neg hout).trans (if_pos hn)⟩
    · exact ⟨_, p2c_lt (c.nthreads_pos X) d, (if_neg hout).trans (if_neg hn)⟩
  | some id =>
    by_cases hid : c.nthreads X ≤ id
    · exact Or.inr (if_pos hid)
    · have hout : c.threadLocals th ≠ (some X, id) := fun htls =>
        h (by rw [Config.OwnerPath, htls]; exact ⟨rfl, not_le.mp hid, Or.inr rfl⟩)
      exact Or.inl ⟨id, not_le.mp hid, (if_neg hid).trans (if_neg hout)⟩

end WorkStealing
