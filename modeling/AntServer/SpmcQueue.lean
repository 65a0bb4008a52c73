/-
The Chase–Lev deque `SPMCQueue` (scheduler/spmc_queue.hpp).

One owner thread runs `Push` and `TryPop` at the bottom end, any number of
thieves run `Steal` and `TakeHalf` at the top end.  Memory is sequentially
consistent: each atomic load, store and compare-exchange and each buffer
access is one step, and the steps of different threads interleave freely.

* `OwnerPc`, `ThiefPc` — where a thread stands inside its operation, with the
  local variables that are live there;
* `step` — one step of one thread; a label `.owner` or `.thief i` performs the
  next access of the operation that thread is in.

The last five fields of `State` are history: the code neither reads nor writes
them.  `accepted` lists the values of the successful `Push`es (a push is
identified by its index there), `stamp p` is the push that last filled
position `p`, `handed` the positions handed out with their stamps, `returned`
the values that `TryPop` and `Steal` return and `batches` those of `TakeHalf`.

`bottom_` and `top_` count pushes and are modelled by unbounded integers.
-/
import AntServer.StampedWindow
import AntServer.StepSystem

namespace SpmcQueue

/-- The template argument `kMaxSize` with its `static_assert`. -/
structure Capacity where
  kMaxSize : ℕ
  pow2 : ∃ k, kMaxSize = 2 ^ k

/-- `kMask = kMaxSize - 1`. -/
def Capacity.kMask (c : Capacity) : ℕ := c.kMaxSize - 1

/-- The buffer index `i & kMask`. -/
def Capacity.slot (c : Capacity) (i : ℤ) : ℕ := i.toNat &&& c.kMask

theorem Capacity.slot_eq_mod (c : Capacity) (i : ℤ) : c.slot i = i.toNat % c.kMaxSize := by
  obtain ⟨k, hk⟩ := c.pow2
  rw [slot, kMask, hk, Nat.and_two_pow_sub_one_eq_mod]

/-- Positions less than `kMaxSize` apart use different buffer slots. -/
theorem Capacity.slot_ne (c : Capacity) {i j : ℤ} (hi : 0 ≤ i) (hij : i < j)
    (hlt : j - i < c.kMaxSize) : c.slot i ≠ c.slot j := by
  rw [c.slot_eq_mod, c.slot_eq_mod]
  intro he
  have hd : c.kMaxSize ∣ j.toNat - i.toNat :=
    Nat.dvd_of_mod_eq_zero (Nat.sub_mod_eq_zero_of_mod_eq he.symm)
  have : j.toNat - i.toNat = 0 := Nat.eq_zero_of_dvd_of_lt hd (by omega)
  omega

variable {T ι : Type*}

/-- The owner inside `Push` or `TryPop`.  Values of the element type (a
pointer) are `Option T`, with `none` for `nullptr`. -/
inductive OwnerPc (T : Type*)
  | idle
  | pushBottom (node : Option T) (b : ℤ)  -- `Push`: `b` loaded from `bottom_`
  | pushRoom (node : Option T) (b : ℤ)  -- `Push`: `top_` loaded and room found
  | pushWritten (node : Option T) (b : ℤ)  -- `Push`: the slot is written
  | popBottom (b : ℤ)  -- `TryPop`: `b = bottom_ - 1` computed
  | popStored (b : ℤ)  -- `TryPop`: `b` stored to `bottom_`
  | popTop (b t : ℤ)  -- `TryPop`: `t` loaded from `top_`
  | popRace (b : ℤ) (task : Option T)  -- `TryPop`: `t == b`, task read, about to compete
  | popRestore (b : ℤ) (task : Option T)  -- `TryPop`: `bottom_` to be restored
  deriving DecidableEq

/-- A thief inside `Steal` or `TakeHalf`. -/
inductive ThiefPc (T : Type*)
  | idle
  | stealTop (t : ℤ)  -- `Steal`: `t` loaded from `top_`
  | stealBottom (t : ℤ)  -- `Steal`: `bottom_` loaded, `t < b`
  | stealRead (t : ℤ) (task : Option T)  -- `Steal`: the task is read
  | takeBottom (b : ℤ)  -- `TakeHalf`: `b` loaded from `bottom_`
  | takeTop (t : ℤ) (numToTake : ℕ)  -- `TakeHalf`: `t` loaded from `top_`
  -- `TakeHalf`: `top_` advanced, `out` is the part of `out_batch` copied so far
  | takeCopy (t : ℤ) (numToTake : ℕ) (out : List (Option T))
  deriving DecidableEq

structure State (T ι : Type*) where
  buffer : ℕ → Option T
  bottom : ℤ
  top : ℤ
  owner : OwnerPc T
  thief : ι → ThiefPc T
  accepted : List (Option T)
  stamp : ℤ → ℕ
  handed : List (ℤ × ℕ)
  returned : List (ℕ × Option T)
  batches : List (ι × ℤ × List (Option T))

/-- The queue as constructed. -/
def init (T ι : Type*) : State T ι where
  buffer := fun _ => none
  bottom := 0
  top := 0
  owner := .idle
  thief := fun _ => .idle
  accepted := []
  stamp := fun _ => 0
  handed := []
  returned := []
  batches := []

/-- `num_to_take` for a queue of `size > 0` elements. -/
def numToTake (size : ℤ) : ℕ := if size / 2 = 0 then 1 else (size / 2).toNat

theorem numToTake_pos {size : ℤ} (h : 0 < size) : 0 < numToTake size := by
  unfold numToTake
  split <;> omega

theorem numToTake_le {size : ℤ} (h : 0 < size) : (numToTake size : ℤ) ≤ size := by
  unfold numToTake
  split <;> omega

inductive Label (T ι : Type*)
  | push (node : Option T)  -- the owner calls `Push(node)` and loads `bottom_`
  | tryPop  -- the owner calls `TryPop()` and loads `bottom_`
  | owner  -- the owner's next access
  | steal (i : ι)  -- thief `i` calls `Steal()` and loads `top_`
  | takeHalf (i : ι)  -- thief `i` calls `TakeHalf(out_batch)` and loads `bottom_`
  | thief (i : ι) (spurious : Bool)  -- thief `i`'s next access (a weak CAS may fail spuriously)

/-- The owner's next access. -/
def ownerStep (c : Capacity) (s : State T ι) : Option (State T ι) :=
  match s.owner with
  | .idle => none
  | .pushBottom node b =>
    if b - s.top < c.kMaxSize then some { s with owner := .pushRoom node b }
    else some { s with owner := .idle }  -- queue full, returns false
  | .pushRoom node b =>
    some { s with
      buffer := Function.update s.buffer (c.slot b) node
      owner := .pushWritten node b }
  | .pushWritten node b =>
    some { s with
      bottom := b + 1
      owner := .idle
      accepted := s.accepted ++ [node]
      stamp := Function.update s.stamp b s.accepted.length }
  | .popBottom b => some { s with bottom := b, owner := .popStored b }
  | .popStored b =>
    -- seeing `t < b` decides that the task at `b` is the owner's
    some { s with
      owner := .popTop b s.top
      handed := if s.top < b then s.handed ++ stampedRange s.stamp b 1 else s.handed }
  | .popTop b t =>
    if t ≤ b then
      let task := s.buffer (c.slot b)
      if t = b then some { s with owner := .popRace b task }
      else some { s with owner := .idle, returned := s.returned ++ [(s.stamp b, task)] }
    else some { s with bottom := b + 1, owner := .idle }  -- empty, returns nullptr
  | .popRace b task =>
    if s.top = b then
      some { s with
        top := b + 1
        owner := .popRestore b task
        handed := s.handed ++ stampedRange s.stamp b 1
        returned := s.returned ++ [(s.stamp b, task)] }
    else some { s with owner := .popRestore b none }  -- stolen
  | .popRestore b _ => some { s with bottom := b + 1, owner := .idle }

variable [DecidableEq ι]

def State.setThief (s : State T ι) (i : ι) (pc : ThiefPc T) : State T ι :=
  { s with thief := Function.update s.thief i pc }

/-- The next access of thief `i`. -/
def thiefStep (c : Capacity) (s : State T ι) (i : ι) (spurious : Bool) : Option (State T ι) :=
  match s.thief i with
  | .idle => none
  | .stealTop t =>
    if t < s.bottom then some (s.setThief i (.stealBottom t)) else some (s.setThief i .idle)
  | .stealBottom t => some (s.setThief i (.stealRead t (s.buffer (c.slot t))))
  | .stealRead t task =>
    if s.top = t ∧ spurious = false then
      some { s.setThief i .idle with
        top := t + 1
        handed := s.handed ++ stampedRange s.stamp t 1
        returned := s.returned ++ [(s.stamp t, task)] }
    else some (s.setThief i .idle)
  | .takeBottom b =>
    let size := b - s.top
    if size ≤ 0 then some (s.setThief i .idle)
    else some (s.setThief i (.takeTop s.top (numToTake size)))
  | .takeTop t n =>
    if s.top = t then
      some { s.setThief i (.takeCopy t n []) with
        top := t + n
        handed := s.handed ++ stampedRange s.stamp t n }
    else some (s.setThief i .idle)
  | .takeCopy t n out =>
    let out' := out ++ [s.buffer (c.slot (t + out.length))]
    if out'.length < n then some (s.setThief i (.takeCopy t n out'))
    else some { s.setThief i .idle with batches := s.batches ++ [(i, t, out')] }

/-- One step of one thread. -/
def step (c : Capacity) (s : State T ι) : Label T ι → Option (State T ι)
  | .push node =>
    match s.owner with
    | .idle => some { s with owner := .pushBottom node s.bottom }
    | _ => none
  | .tryPop =>
    match s.owner with
    | .idle => some { s with owner := .popBottom (s.bottom - 1) }
    | _ => none
  | .owner => ownerStep c s
  | .steal i =>
    match s.thief i with
    | .idle => some (s.setThief i (.stealTop s.top))
    | _ => none
  | .takeHalf i =>
    match s.thief i with
    | .idle => some (s.setThief i (.takeBottom s.bottom))
    | _ => none
  | .thief i spurious => thiefStep c s i spurious

/-- No operation is in progress. -/
def State.Quiescent (s : State T ι) : Prop := s.owner = .idle ∧ ∀ i, s.thief i = .idle

instance [DecidableEq T] [Fintype ι] (s : State T ι) : Decidable s.Quiescent :=
  inferInstanceAs (Decidable (_ ∧ _))

end SpmcQueue
