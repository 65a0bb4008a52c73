/-
The timing wheel of `scheduler/timer_keeper.hpp`.

A timer is added in two steps (`add_internal`): outside the lock the clock is
read and the slot computed, later the entry is inserted under the lock.  One
iteration of `Run` is the pass under the lock (`pass`) and then, outside the
lock, one `dispatch` for each node of the expired list.  `CancelTimer` marks an
entry that `task_map_` knows.  The critical sections and the dispatches are the
labels of the step function `step`, so a run of `step` is an interleaving of the
callers with the timer thread.

Times are nanoseconds of the steady clock and exact.  `next_id_`, a `uint64_t`, is a
natural number: ids do not wrap as long as fewer than 2^64 timers are added.  A bucket
is the list of the entries chained through `TimerEntry::next`, which only the
lock holder touches.  `TaskNode::next` is kept as a heap of links, because the
expired list is chained through it and other threads write it as well.

* `sweepSlot_eq` — what sweeping one slot does to every field;
* `mem_sweepSlot` — which entries stay in which bucket.
-/
import AntServer.StepSystem

namespace TimerKeeper

def kWheelSlots : ℕ := 4096
def kSlotMask : ℕ := kWheelSlots - 1
def kTickMs : ℤ := 10

/-- Nanoseconds in a millisecond. -/
def kNsPerMs : ℤ := 1000000

/-- `duration_cast<milliseconds>(t - start_time_) / kTickMs`, and 0 before the
start. -/
def tickOf (startTime t : ℤ) : ℤ :=
  let elapsedMs := (t - startTime).tdiv kNsPerMs
  if 0 < elapsedMs then elapsedMs.tdiv kTickMs else 0

def slotOf (tick : ℤ) : ℕ := tick.toNat &&& kSlotMask

theorem slotOf_eq_mod (t : ℤ) : slotOf t = t.toNat % kWheelSlots :=
  Nat.and_two_pow_sub_one_eq_mod t.toNat 12

structure TimerEntry (Node : Type*) where
  id : ℕ
  expireAt : ℤ
  taskNode : Option Node
  ownsTaskNode : Bool
  canceled : Bool
deriving DecidableEq, Repr

/-- An entry taken out of the wheel by a pass at the time `now`, with its node. -/
structure Extraction (Node : Type*) where
  entry : TimerEntry Node
  node : Node
  now : ℤ
deriving DecidableEq, Repr

structure State (Node : Type*) where
  startTime : ℤ
  clock : ℤ                               -- the last value of the steady clock that was read
  lastTick : ℤ
  nextId : ℕ
  buckets : ℕ → List (TimerEntry Node)
  taskMap : ℕ → Bool                      -- the ids that `task_map_` holds
  adding : List (TimerEntry Node × ℕ)     -- calls of `add_internal` before the lock, with the slot
  next : Node → Option Node               -- `TaskNode::next`
  expiredHead : Option Node
  -- history
  added : List (TimerEntry Node)
  reaped : List (TimerEntry Node)
  expiring : List (Extraction Node)       -- what the expired list is made of
  dispatched : List (Extraction Node)
  handed : List Node                      -- the calls `executor_.schedule(node)`

variable {Node : Type*}

def init (Node : Type*) (startTime : ℤ) : State Node where
  startTime := startTime
  clock := startTime
  lastTick := 0
  nextId := 1
  buckets := fun _ => []
  taskMap := fun _ => false
  adding := []
  next := fun _ => none
  expiredHead := none
  added := []
  reaped := []
  expiring := []
  dispatched := []
  handed := []

def State.tick (s : State Node) (t : ℤ) : ℤ := tickOf s.startTime t

/-! ### The callers -/

/-- The part of `add_internal` before the lock. -/
def addInternal (s : State Node) (now delay : ℤ) (taskNode : Option Node) (ownsTaskNode : Bool) :
    State Node :=
  let entry : TimerEntry Node :=
    { id := s.nextId, expireAt := now + delay * kNsPerMs, taskNode := taskNode,
      ownsTaskNode := ownsTaskNode, canceled := false }
  { s with
    clock := now
    nextId := s.nextId + 1
    adding := s.adding ++ [(entry, slotOf (s.tick entry.expireAt))]
    added := s.added ++ [entry] }

/-- What `AddTimer` is called with: a pointer to a node, or a callable, for which
it makes a node of its own. -/
inductive Target (Node : Type*)
  | taskNode (node : Option Node)
  | callback (task : Node)
deriving DecidableEq, Repr

/-- `AddTimer`; the overload for nodes refuses the null pointer. -/
def addTimer (s : State Node) (now delay : ℤ) : Target Node → State Node
  | .taskNode none => s
  | .taskNode (some node) => addInternal s now delay (some node) false
  | .callback task => addInternal s now delay (some task) true

/-- The critical section of `add_internal`. -/
def insert (s : State Node) (k : ℕ) : Option (State Node) :=
  match s.adding[k]? with
  | none => none
  | some (entry, slot) =>
    some { s with
      adding := s.adding.eraseIdx k
      buckets := Function.update s.buckets slot (entry :: s.buckets slot)
      taskMap := Function.update s.taskMap entry.id true }

/-- Set the flag of the entry with this id. -/
def mark (id : ℕ) (e : TimerEntry Node) : TimerEntry Node :=
  if e.id = id then { e with canceled := true } else e

def cancelTimer (s : State Node) (id : ℕ) : State Node :=
  if id = 0 then s
  else if s.taskMap id then
    { s with
      buckets := fun k => (s.buckets k).map (mark id)
      taskMap := Function.update s.taskMap id false }
  else s

/-! ### The timer thread -/

section Run

variable [DecidableEq Node]

/-- One round of the inner loop of a pass: the entry `curr` is reaped, prepended
to the expired list, or kept in `remaining`. -/
def sweepEntry (now : ℤ) (w : State Node × List (TimerEntry Node)) (curr : TimerEntry Node) :
    State Node × List (TimerEntry Node) :=
  if curr.canceled then
    ({ w.1 with reaped := w.1.reaped ++ [curr] }, w.2)
  else if curr.expireAt ≤ now then
    match curr.taskNode with
    | none => ({ w.1 with taskMap := Function.update w.1.taskMap curr.id false }, w.2)
    | some node =>
      ({ w.1 with
          taskMap := Function.update w.1.taskMap curr.id false
          next := Function.update w.1.next node w.1.expiredHead
          expiredHead := some node
          expiring := ⟨curr, node, now⟩ :: w.1.expiring }, w.2)
  else
    (w.1, curr :: w.2)

/-- The body of the loop over the ticks. -/
def sweepSlot (now : ℤ) (s : State Node) : State Node :=
  let slot := slotOf s.lastTick
  let detached := { s with buckets := Function.update s.buckets slot [] }
  let swept := (s.buckets slot).foldl (sweepEntry now) (detached, [])
  { swept.1 with
    buckets := Function.update swept.1.buckets slot swept.2
    lastTick := swept.1.lastTick + 1 }

/-- `while (last_tick_ <= current_tick)`, with the number of rounds it can take
as fuel. -/
def sweepTicks (now currentTick : ℤ) : ℕ → State Node → State Node
  | 0, s => s
  | fuel + 1, s =>
    if s.lastTick ≤ currentTick then sweepTicks now currentTick fuel (sweepSlot now s) else s

/-- The critical section of one iteration of `Run` at the time `now`. -/
def pass (s : State Node) (now : ℤ) : State Node :=
  let currentTick := s.tick now
  sweepTicks now currentTick (currentTick + 1 - s.lastTick).toNat { s with clock := now }

/-- One round of the dispatch loop. -/
def dispatch (s : State Node) : Option (State Node) :=
  match s.expiredHead with
  | none => none
  | some node =>
    some { s with
      expiredHead := s.next node
      next := Function.update s.next node none
      handed := s.handed ++ [node]
      expiring := s.expiring.tail
      dispatched := s.dispatched ++ s.expiring.head?.toList }

/-- The moves of the callers, of the timer thread and of everybody else. -/
inductive Label (Node : Type*)
  | addTimer (now delay : ℤ) (target : Target Node)
  | insert (k : ℕ)
  | cancelTimer (id : ℕ)
  | pass (now : ℤ)
  | dispatch
  | relink (node : Node) (v : Option Node)  -- another queue uses the link of a node
deriving DecidableEq, Repr

/-- The clock does not go back; a pass starts when the expired list of the last
one has been dispatched; the links of the nodes in the expired list belong to
the timer thread. -/
def step (s : State Node) : Label Node → Option (State Node)
  | .addTimer now delay target =>
    if s.clock ≤ now then some (addTimer s now delay target) else none
  | .insert k => insert s k
  | .cancelTimer id => some (cancelTimer s id)
  | .pass now => if s.clock ≤ now ∧ s.expiredHead = none then some (pass s now) else none
  | .dispatch => dispatch s
  | .relink node v =>
    if node ∈ s.expiring.map Extraction.node then none
    else some { s with next := Function.update s.next node v }

/-! ### What a pass does -/

/-- The entries that a pass at `now` leaves in their slot. -/
def kept (now : ℤ) (e : TimerEntry Node) : Bool := !e.canceled && decide (now < e.expireAt)

/-- The entries that a pass at `now` takes out of the wheel, with their nodes. -/
def extraction (now : ℤ) (e : TimerEntry Node) : Option (Extraction Node) :=
  if e.canceled = false ∧ e.expireAt ≤ now then e.taskNode.map fun node => ⟨e, node, now⟩
  else none

omit [DecidableEq Node] in
theorem mem_filter_kept {now : ℤ} {e : TimerEntry Node} {es : List (TimerEntry Node)} :
    e ∈ es.filter (kept now) ↔ e ∈ es ∧ e.canceled = false ∧ now < e.expireAt := by
  simp [kept]

section Sweep

variable {now : ℤ} {w : State Node × List (TimerEntry Node)} {e : TimerEntry Node}

theorem sweepEntry_canceled (hc : e.canceled = true) :
    sweepEntry now w e = ({ w.1 with reaped := w.1.reaped ++ [e] }, w.2) := by
  rw [sweepEntry, if_pos hc]

theorem sweepEntry_kept (hc : e.canceled = false) (hlt : now < e.expireAt) :
    sweepEntry now w e = (w.1, e :: w.2) := by
  rw [sweepEntry, if_neg (by simp [hc]), if_neg (by omega)]

theorem sweepEntry_null (hc : e.canceled = false) (hdue : e.expireAt ≤ now)
    (hn : e.taskNode = none) :
    sweepEntry now w e =
      ({ w.1 with taskMap := Function.update w.1.taskMap e.id false }, w.2) := by
  rw [sweepEntry, if_neg (by simp [hc]), if_pos hdue, hn]

theorem sweepEntry_due {node : Node} (hc : e.canceled = false) (hdue : e.expireAt ≤ now)
    (hn : e.taskNode = some node) :
    sweepEntry now w e =
      ({ w.1 with
          taskMap := Function.update w.1.taskMap e.id false
          next := Function.update w.1.next node w.1.expiredHead
          expiredHead := some node
          expiring := ⟨e, node, now⟩ :: w.1.expiring }, w.2) := by
  rw [sweepEntry, if_neg (by simp [hc]), if_pos hdue, hn]

end Sweep

/-- The inner loop reverses the entries it keeps, prepends the nodes of the
expired ones and erases only the ids of those from `task_map_`. -/
theorem foldl_sweepEntry (now : ℤ) (es : List (TimerEntry Node)) (s : State Node)
    (rest : List (TimerEntry Node)) :
    ∃ taskMap next head,
      (∀ id, (∀ e ∈ es, e.canceled = false → e.expireAt ≤ now → e.id ≠ id) →
        taskMap id = s.taskMap id) ∧
      es.foldl (sweepEntry now) (s, rest) =
        ({ s with
            taskMap := taskMap
            next := next
            expiredHead := head
            reaped := s.reaped ++ es.filter TimerEntry.canceled
            expiring := (es.filterMap (extraction now)).reverse ++ s.expiring },
          (es.filter (kept now)).reverse ++ rest) := by
  induction es generalizing s rest with
  | nil => exact ⟨s.taskMap, s.next, s.expiredHead, fun _ _ => rfl, by simp⟩
  | cons e es ih =>
    rw [List.foldl_cons]
    by_cases hc : e.canceled = true
    · rw [sweepEntry_canceled hc]
      obtain ⟨m, n, hd, hm, heq⟩ := ih { s with reaped := s.reaped ++ [e] } rest
      refine ⟨m, n, hd, fun id h => hm id fun x hx => h x (List.mem_cons_of_mem e hx), ?_⟩
      rw [heq]
      simp [kept, extraction, hc]
    rw [Bool.not_eq_true] at hc
    by_cases hdue : e.expireAt ≤ now
    · -- an expired entry also leaves the map
      have herase : ∀ (m : ℕ → Bool) (id : ℕ),
          (∀ x ∈ e :: es, x.canceled = false → x.expireAt ≤ now → x.id ≠ id) →
          Function.update m e.id false id = m id := fun m id h =>
        Function.update_of_ne (h e List.mem_cons_self hc hdue).symm _ _
      cases hn : e.taskNode with
      | none =>
        rw [sweepEntry_null hc hdue hn]
        obtain ⟨m, n, hd, hm, heq⟩ :=
          ih { s with taskMap := Function.update s.taskMap e.id false } rest
        refine ⟨m, n, hd, fun id h => ?_, ?_⟩
        · rw [hm id fun x hx => h x (List.mem_cons_of_mem e hx)]
          exact herase s.taskMap id h
        · rw [heq]
          simp [kept, extraction, hc, hdue, hn]
      | some node =>
        rw [sweepEntry_due hc hdue hn]
        obtain ⟨m, n, hd, hm, heq⟩ :=
          ih { s with
            taskMap := Function.update s.taskMap e.id false
            next := Function.update s.next node s.expiredHead
            expiredHead := some node
            expiring := ⟨e, node, now⟩ :: s.expiring } rest
        refine ⟨m, n, hd, fun id h => ?_, ?_⟩
        · rw [hm id fun x hx => h x (List.mem_cons_of_mem e hx)]
          exact herase s.taskMap id h
        · rw [heq]
          simp [kept, extraction, hc, hdue, hn]
    · have hlt : now < e.expireAt := by omega
      rw [sweepEntry_kept hc hlt]
      obtain ⟨m, n, hd, hm, heq⟩ := ih s (e :: rest)
      refine ⟨m, n, hd, fun id h => hm id fun x hx => h x (List.mem_cons_of_mem e hx), ?_⟩
      rw [heq]
      simp [kept, extraction, hc, hdue, hlt]

/-- **One tick of a pass.**  The slot of `last_tick_` keeps its entries that are
neither canceled nor due; the rest of the wheel stays as it is. -/
theorem sweepSlot_eq (now : ℤ) (s : State Node) :
    ∃ taskMap next head,
      (∀ id, (∀ e ∈ s.buckets (slotOf s.lastTick), e.canceled = false → e.expireAt ≤ now →
        e.id ≠ id) → taskMap id = s.taskMap id) ∧
      sweepSlot now s =
        { s with
          lastTick := s.lastTick + 1
          buckets := Function.update s.buckets (slotOf s.lastTick)
            ((s.buckets (slotOf s.lastTick)).filter (kept now)).reverse
          taskMap := taskMap
          next := next
          expiredHead := head
          reaped := s.reaped ++ (s.buckets (slotOf s.lastTick)).filter TimerEntry.canceled
          expiring := ((s.buckets (slotOf s.lastTick)).filterMap (extraction now)).reverse ++
            s.expiring } := by
  obtain ⟨m, n, hd, hm, heq⟩ := foldl_sweepEntry now (s.buckets (slotOf s.lastTick))
    { s with buckets := Function.update s.buckets (slotOf s.lastTick) [] } []
  refine ⟨m, n, hd, hm, ?_⟩
  rw [sweepSlot]
  simp only [heq, Function.update_idem, List.append_nil]

theorem mem_sweepSlot {now : ℤ} {s : State Node} {k : ℕ} {e : TimerEntry Node} :
    e ∈ (sweepSlot now s).buckets k ↔
      e ∈ s.buckets k ∧ (k = slotOf s.lastTick → e.canceled = false ∧ now < e.expireAt) := by
  obtain ⟨m, n, hd, -, heq⟩ := sweepSlot_eq now s
  rw [heq]
  by_cases hk : k = slotOf s.lastTick
  · subst hk
    simp only [Function.update_self, List.mem_reverse, mem_filter_kept, true_implies]
  · simp only [Function.update_of_ne hk, hk, false_implies, and_true]

@[simp] theorem sweepSlot_lastTick (now : ℤ) (s : State Node) :
    (sweepSlot now s).lastTick = s.lastTick + 1 := by
  obtain ⟨m, n, hd, -, heq⟩ := sweepSlot_eq now s
  rw [heq]

@[simp] theorem sweepSlot_startTime (now : ℤ) (s : State Node) :
    (sweepSlot now s).startTime = s.startTime := by
  obtain ⟨m, n, hd, -, heq⟩ := sweepSlot_eq now s
  rw [heq]

/-- **Loop rule.**  What holds before a pass and is kept by every tick it sweeps
holds after it, and then the current tick has been swept. -/
theorem pass_induction {I : State Node → Prop} {s : State Node} {now : ℤ}
    (h₀ : I { s with clock := now })
    (hstep : ∀ t, I t → t.lastTick ≤ s.tick now → I (sweepSlot now t)) :
    I (pass s now) ∧ s.tick now < (pass s now).lastTick := by
  have key : ∀ (fuel : ℕ) (t : State Node), I t → s.tick now + 1 - t.lastTick ≤ fuel →
      I (sweepTicks now (s.tick now) fuel t) ∧
        s.tick now < (sweepTicks now (s.tick now) fuel t).lastTick := by
    intro fuel
    induction fuel with
    | zero =>
      intro t ht hfuel
      exact ⟨ht, by simp only [sweepTicks]; omega⟩
    | succ fuel ih =>
      intro t ht hfuel
      rw [sweepTicks]
      by_cases hle : t.lastTick ≤ s.tick now
      · rw [if_pos hle]
        refine ih _ (hstep t ht hle) ?_
        rw [sweepSlot_lastTick]
        push_cast at hfuel
        omega
      · rw [if_neg hle]
        exact ⟨ht, by omega⟩
  exact key _ _ h₀ (Int.self_le_toNat _)

end Run

end TimerKeeper
