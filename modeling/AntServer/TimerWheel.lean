/-
The timing wheel in memory.

`TimerKeeper` keeps a bucket as a list of entries.  Here is the wheel as the code has
it: entries are cells of a heap, with a `next` pointer, a bucket is the pointer to
its first entry, and `task_map_` points to entries as well.  An access to a cell that is
not allocated, and likewise a `delete` of one, ends in `none`, and so does a traversal that takes
more steps than there have been entries; the step function records that as a
fault.  As in `TimerKeeper`, fewer than 2^64 timers are added (`next_id_` is a `uint64_t`).
The part of a pass that concerns `TaskNode` is only kept as the list of the nodes
taken out (`TimerPlaces` is about that chain).
-/
import AntServer.TimerKeeper

namespace TimerWheel

open TimerKeeper (TimerEntry Target tickOf slotOf kNsPerMs)

/-- A `TimerEntry` in memory. -/
structure Cell (Node Addr : Type*) where
  entry : TimerEntry Node
  next : Option Addr
deriving DecidableEq, Repr

structure Wheel (Node Addr : Type*) where
  startTime : ℤ
  clock : ℤ                               -- the last value of the steady clock that was read
  lastTick : ℤ
  nextId : ℕ
  heap : Addr → Option (Cell Node Addr)   -- `none` is memory that is not allocated
  buckets : ℕ → Option Addr
  taskMap : ℕ → Option Addr
  adding : List (Addr × ℕ)                -- calls of `add_internal` before the lock, with the slot
  fault : Bool
  -- history
  expired : List Node                     -- the nodes taken out of the wheel, the last one first
  freed : List ℕ                          -- the ids of the entries that were deleted

variable {Node Addr : Type*}

def init (Node Addr : Type*) (startTime : ℤ) : Wheel Node Addr where
  startTime := startTime
  clock := startTime
  lastTick := 0
  nextId := 1
  heap := fun _ => none
  buckets := fun _ => none
  taskMap := fun _ => none
  adding := []
  fault := false
  expired := []
  freed := []

def Wheel.entryOf (w : Wheel Node Addr) (a : Addr) : Option (TimerEntry Node) :=
  (w.heap a).map Cell.entry

def Wheel.nextOf (w : Wheel Node Addr) (a : Addr) : Option Addr := (w.heap a).bind Cell.next

def Wheel.tick (w : Wheel Node Addr) (t : ℤ) : ℤ := tickOf w.startTime t

section Operations

variable [DecidableEq Addr]

def Wheel.store (w : Wheel Node Addr) (a : Addr) (c : Option (Cell Node Addr)) :
    Wheel Node Addr :=
  { w with heap := Function.update w.heap a c }

/-! ### The callers -/

/-- The part of `add_internal` before the lock; `new` has returned `a`. -/
def addInternal (w : Wheel Node Addr) (a : Addr) (now delay : ℤ) (taskNode : Option Node)
    (ownsTaskNode : Bool) : Wheel Node Addr :=
  let entry : TimerEntry Node :=
    { id := w.nextId, expireAt := now + delay * kNsPerMs, taskNode := taskNode,
      ownsTaskNode := ownsTaskNode, canceled := false }
  { w.store a (some ⟨entry, none⟩) with
    clock := now
    nextId := w.nextId + 1
    adding := w.adding ++ [(a, slotOf (w.tick entry.expireAt))] }

def addTimer (w : Wheel Node Addr) (a : Addr) (now delay : ℤ) : Target Node → Wheel Node Addr
  | .taskNode none => w
  | .taskNode (some node) => addInternal w a now delay (some node) false
  | .callback task => addInternal w a now delay (some task) true

/-- The critical section of `add_internal` for the entry at `a`, a call in progress at
position `k`. -/
def insert (w : Wheel Node Addr) (k : ℕ) (a : Addr) (slot : ℕ) : Option (Wheel Node Addr) :=
  (w.heap a).map fun c =>
    { w.store a (some { c with next := w.buckets slot }) with
      adding := w.adding.eraseIdx k
      buckets := Function.update w.buckets slot (some a)
      taskMap := Function.update w.taskMap c.entry.id (some a) }

def cancelTimer (w : Wheel Node Addr) (id : ℕ) : Option (Wheel Node Addr) :=
  if id = 0 then some w
  else
    match w.taskMap id with
    | none => some w
    | some a => (w.heap a).map fun c =>
      { w.store a (some { c with entry := { c.entry with canceled := true } }) with
        taskMap := Function.update w.taskMap id none }

/-! ### The timer thread -/

/-- `delete curr`, for a cell just read. -/
def Wheel.delete (w : Wheel Node Addr) (a : Addr) (c : Cell Node Addr) : Wheel Node Addr :=
  { w.store a none with freed := w.freed ++ [c.entry.id] }

/-- One round of the inner loop of a pass for the entry at `curr`: the new wheel,
`remaining_head` and the entry to go on with. -/
def sweepCell (now : ℤ) (w : Wheel Node Addr) (curr : Addr) (remaining : Option Addr) :
    Option (Wheel Node Addr × Option Addr × Option Addr) :=
  (w.heap curr).map fun c =>
    -- `curr->next = nullptr` does not show: each branch deletes the cell or sets the field
    if c.entry.canceled then (w.delete curr c, remaining, c.next)
    else if c.entry.expireAt ≤ now then
      ({ w.delete curr c with
          taskMap := Function.update w.taskMap c.entry.id none
          expired := c.entry.taskNode.toList ++ w.expired }, remaining, c.next)
    else (w.store curr (some { c with next := remaining }), some curr, c.next)

/-- `while (curr)`. -/
def sweepList (now : ℤ) :
    ℕ → Option Addr → Wheel Node Addr → Option Addr → Option (Wheel Node Addr × Option Addr)
  | _, none, w, remaining => some (w, remaining)
  | 0, some _, _, _ => none
  | fuel + 1, some curr, w, remaining =>
    (sweepCell now w curr remaining).bind fun r => sweepList now fuel r.2.2 r.1 r.2.1

/-- The body of the loop over the ticks; an entry is created with each id, so that no
bucket has as many as `next_id_`. -/
def sweepSlot (now : ℤ) (w : Wheel Node Addr) : Option (Wheel Node Addr) :=
  let slot := slotOf w.lastTick
  let detached := { w with buckets := Function.update w.buckets slot none }
  (sweepList now w.nextId (w.buckets slot) detached none).map fun r =>
    { r.1 with
      buckets := Function.update r.1.buckets slot r.2
      lastTick := r.1.lastTick + 1 }

/-- `while (last_tick_ <= current_tick)`, with the number of rounds it can take
as fuel. -/
def sweepTicks (now currentTick : ℤ) : ℕ → Wheel Node Addr → Option (Wheel Node Addr)
  | 0, w => some w
  | fuel + 1, w =>
    if w.lastTick ≤ currentTick then (sweepSlot now w).bind (sweepTicks now currentTick fuel)
    else some w

/-- The critical section of one iteration of `Run` at the time `now`. -/
def pass (w : Wheel Node Addr) (now : ℤ) : Option (Wheel Node Addr) :=
  let currentTick := w.tick now
  sweepTicks now currentTick (currentTick + 1 - w.lastTick).toNat { w with clock := now }

/-! ### Steps -/

inductive Label (Node Addr : Type*)
  | addTimer (a : Addr) (now delay : ℤ) (target : Target Node)   -- `new` returns `a`
  | insert (k : ℕ)
  | cancelTimer (id : ℕ)
  | pass (now : ℤ)
deriving DecidableEq, Repr

/-- The result of an operation, or the fault. -/
def Wheel.settle (w : Wheel Node Addr) (r : Option (Wheel Node Addr)) : Wheel Node Addr :=
  r.getD { w with fault := true }

/-- The clock does not go back, and `new` returns memory that is not allocated. -/
def step (w : Wheel Node Addr) : Label Node Addr → Option (Wheel Node Addr)
  | .addTimer a now delay target =>
    if w.clock ≤ now ∧ (w.heap a).isNone then some (addTimer w a now delay target) else none
  | .insert k =>
    match w.adding[k]? with
    | none => none
    | some (a, slot) => some (w.settle (insert w k a slot))
  | .cancelTimer id => some (w.settle (cancelTimer w id))
  | .pass now => if w.clock ≤ now then some (w.settle (pass w now)) else none

end Operations

end TimerWheel
