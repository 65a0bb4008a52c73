/-
`with_timeout`: `awaiter/timeput_awaiter.hpp`, with the promise of `HttpTask`
(`type.hpp`) and the socket awaiters the child waits on
(`awaiter/socket_awaiter.hpp`).

Four parties move.  The launcher executes the statements of
`TimeoutAwaiter::await_suspend`; the first of them runs the child up to its first
suspension, because `initial_suspend` is `suspend_never`.  The child executes a
finite sequence of awaits, each with an `await_suspend` of its own (capture the
stop token, submit the operation, bind the stop callback); once an operation is
submitted it can complete, and the child can then be resumed by any worker, also
before the `await_suspend` that submitted it has returned.  The timer calls
`request_stop`, which runs the registered callbacks one by one.  The parent is
resumed by the transfer of the child's `FinalAwaiter`.

Every access to the promise is one step (`token`, `continuation`); the memory of
an awaiter or of the `TimeoutAwaiter` is taken to be there as long as a party
still uses it.
-/
import AntServer.StepSystem

namespace TimeoutAwaiter

inductive AwaitKind
  | read
  | write
  | iobufWrite
deriving DecidableEq, Repr

/-- An await of the child's body, with the number of bytes to transfer. -/
structure Await where
  kind : AwaitKind
  totalLen : ℕ
deriving DecidableEq, Repr

/-- `await_ready` of the three awaiters. -/
def Await.ready (a : Await) : Bool :=
  match a.kind with
  | .read => false
  | .write => false
  | .iobufWrite => a.totalLen == 0

/-- How far the `await_suspend` of an await has got. -/
inductive Stage
  | notStarted
  | started
  | tokenRead
  | submitted
  | returned
deriving DecidableEq, Repr

/-- The statements of `TimeoutAwaiter::await_suspend`. -/
inductive LauncherPc
  | start
  | inChild       -- inside `task_func_()`
  | tokenSet
  | contSet
  | timerAdded
  | returned
deriving DecidableEq, Repr

inductive ChildPc
  | notCreated
  | running (i : ℕ)   -- before the await `i`, or before the end of the body
  | waiting (i : ℕ)   -- suspended in the await `i`
  | final
deriving DecidableEq, Repr

inductive TimerPc
  | unset
  | armed
  | fired
  | canceled
deriving DecidableEq, Repr

/-- The state of the `stop_source`. -/
inductive StopPc
  | idle
  | running       -- `request_stop` is running the callbacks
  | finished
deriving DecidableEq, Repr

structure State where
  launcher : LauncherPc
  child : ChildPc
  stage : ℕ → Stage
  token : Bool               -- the promise's token is the one of `source_`
  continuation : Bool        -- the promise's continuation is the parent
  captured : ℕ → Bool        -- the awaiter's `token_.stop_possible()`
  registered : List ℕ        -- the awaiters whose callback is registered
  canceled : ℕ → Bool        -- the awaiter's `state_` is `canceled`
  completed : ℕ → Bool
  timer : TimerPc
  timerId : Bool             -- `timer_id_` is set
  stop : StopPc
  transferring : Bool        -- `FinalAwaiter` returned the parent, which is to be resumed
  -- history
  cancels : List ℕ           -- the awaiters for which `SubmitCancel` was called
  resumes : ℕ                -- how often the parent was resumed

def init : State where
  launcher := .start
  child := .notCreated
  stage := fun _ => .notStarted
  token := false
  continuation := false
  captured := fun _ => false
  registered := []
  canceled := fun _ => false
  completed := fun _ => false
  timer := .unset
  timerId := false
  stop := .idle
  transferring := false
  cancels := []
  resumes := 0

/-- The stop callback of the awaiter `j`. -/
def stopCallback (s : State) (j : ℕ) : State :=
  if s.canceled j then s
  else { s with canceled := Function.update s.canceled j true, cancels := s.cancels ++ [j] }

/-- `bind_stop_callback`: a callback bound after the stop request is run at
once. -/
def bindStopCallback (s : State) (j : ℕ) : State :=
  if s.captured j then
    if s.stop = .idle then { s with registered := j :: s.registered } else stopCallback s j
  else s

/-- `task_func_()` has returned to the launcher: the first await that suspends has
returned from its `await_suspend`, or there is none and the child is at its end. -/
def State.launched (ops : List Await) (s : State) : Bool :=
  match ops.findIdx? fun a => !a.ready with
  | some i => s.stage i == .returned
  | none => s.child == .final

/-- `await_resume` of the parent, as far as the timer is concerned. -/
def cancelTimer (s : State) : TimerPc :=
  if s.timerId ∧ s.timer = .armed then .canceled else s.timer

inductive Label
  | launch
  | setStopToken
  | setContinuation
  | addTimer
  | returned
  | skip (i : ℕ)          -- `await_ready` holds
  | suspend (i : ℕ)
  | readToken (j : ℕ)
  | submit (j : ℕ)
  | bind (j : ℕ)
  | complete (j : ℕ)
  | resume (j : ℕ)
  | finalSuspend
  | transfer
  | fire
  | runCallback (j : ℕ)
  | finishStop
deriving DecidableEq, Repr

/-- The child's task function returns `ops` as the body of a coroutine, or
`none` when it returns a task without handle. -/
def step (ops : Option (List Await)) (s : State) : Label → Option State
  | .launch =>
    if s.launcher = .start then
      match ops with
      | some _ => some { s with launcher := .inChild, child := .running 0 }
      | none => some { s with launcher := .returned, resumes := s.resumes + 1 }
    else none
  | .setStopToken =>
    if s.launcher = .inChild ∧ s.launched (ops.getD []) = true then
      some { s with launcher := .tokenSet, token := true }
    else none
  | .setContinuation =>
    if s.launcher = .tokenSet then some { s with launcher := .contSet, continuation := true }
    else none
  | .addTimer =>
    if s.launcher = .contSet then some { s with launcher := .timerAdded, timer := .armed } else none
  | .returned =>
    if s.launcher = .timerAdded then some { s with launcher := .returned, timerId := true }
    else none
  | .skip i =>
    if s.child = .running i ∧ (ops.getD [])[i]?.any Await.ready = true then
      some { s with child := .running (i + 1) }
    else none
  | .suspend i =>
    if s.child = .running i ∧ (ops.getD [])[i]?.any (fun a => !a.ready) = true then
      some { s with child := .waiting i, stage := Function.update s.stage i .started }
    else none
  | .readToken j =>
    if s.stage j = .started then
      some { s with
        stage := Function.update s.stage j .tokenRead
        captured := Function.update s.captured j s.token }
    else none
  | .submit j =>
    if s.stage j = .tokenRead then
      some { s with stage := Function.update s.stage j .submitted }
    else none
  | .bind j =>
    if s.stage j = .submitted then
      some (bindStopCallback { s with stage := Function.update s.stage j .returned } j)
    else none
  | .complete j =>
    if (s.stage j = .submitted ∨ s.stage j = .returned) ∧ s.completed j = false then
      some { s with completed := Function.update s.completed j true }
    else none
  | .resume j =>
    -- the awaiter is destroyed, which removes its callback
    if s.child = .waiting j ∧ s.completed j = true then
      some { s with child := .running (j + 1), registered := s.registered.filter (· ≠ j) }
    else none
  | .finalSuspend =>
    if s.child = .running (ops.getD []).length then
      some { s with child := .final, transferring := s.continuation }
    else none
  | .transfer =>
    if s.transferring = true then
      some { s with
        transferring := false
        resumes := s.resumes + 1
        timer := cancelTimer s }
    else none
  | .fire =>
    if s.timer = .armed then
      some { s with timer := .fired, stop := if s.stop = .idle then .running else s.stop }
    else none
  | .runCallback j =>
    if s.stop = .running ∧ j ∈ s.registered then
      some (stopCallback { s with registered := s.registered.filter (· ≠ j) } j)
    else none
  | .finishStop =>
    if s.stop = .running ∧ s.registered = [] then some { s with stop := .finished } else none

end TimeoutAwaiter
