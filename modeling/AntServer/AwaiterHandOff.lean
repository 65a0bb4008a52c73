/-
When an awaiter still touches itself after its coroutine was resumed.

An awaiter lives in the frame of the coroutine that waits on it.  Its `await_suspend`
publishes the coroutine: it submits the operation, adds the timer, starts the child with
the continuation set, or schedules the task.  From then on another thread can resume the
coroutine, which destroys the awaiter, while `await_suspend` is still executing.

* `awaitSuspend` — the accesses of each `await_suspend` to the fields of its awaiter, in
  order, for every branch it can take;
* `noLate_awaitSuspend_iff` — `ResumeOnAwaiter` publishes last, and `TimeoutAwaiter` when
  there is no child; in all other cases an interleaving touches the dead awaiter;
* `read_binds_callback_late` — a read that completes before `SubmitRead` has returned.
-/
import AntServer.ExecutorPinning
import AntServer.HandOff

namespace AwaiterHandOff

open HandOff (Op NoLate)

/-- The fields of the awaiters, those of `BaseAwaiter` first. -/
inductive Field
  | handle | socketService | token | state | cb
  | fd | buffer | len | isFixed | targetIobuf | block | iovs | iovCount
  | timerKeeper | delay | timerId | task
  | taskFunc | childTask | source | parentHandle
  | executor | targetThreadId
deriving DecidableEq, Repr

/-- An awaiter, with what its `await_suspend` branches on. -/
inductive Awaiter
  | read (targetIobuf : Bool)           -- `target_iobuf_` is not null
  | write
  | iobufWrite (iovCount : ℕ)
  | sleep
  | timeout (childHandle : Bool)        -- `task_func_()` returns a handle that is not null
  | resumeOn (targetThreadId : ℕ)
deriving DecidableEq, Repr

/-- The stop token of the coroutine: the promise has one (`requires`), a stop is possible,
and has been requested. -/
structure Token where
  present : Bool
  possible : Bool
  requested : Bool
deriving DecidableEq, Repr

/-- The callback that `bind_stop_callback` registers. -/
def stopCallback : List (Op Field) := [.read .state, .write .state, .read .socketService]

/-- `bind_stop_callback`; a stop requested before runs the callback at once.  Without a token
from the promise `token_` is the empty one. -/
def bindStopCallback (t : Token) : List (Op Field) :=
  .read .token ::
    if t.present ∧ t.possible then
      [.read .token, .write .cb] ++ if t.requested then stopCallback else []
    else []

/-- `await_suspend` of the socket awaiters: `submit` has the accesses of the call, which
returns from `io_uring_submit` without another one. -/
def socketSuspend (submit : List (Op Field)) (t : Token) : List (Op Field) :=
  [.write .handle] ++ (if t.present then [.write .token] else []) ++ submit ++ [.publish] ++
    bindStopCallback t

/-- The accesses of `await_suspend` to the fields of its awaiter. -/
def awaitSuspend (a : Awaiter) (t : Token) : List (Op Field) :=
  match a with
  | .read targetIobuf =>
    socketSuspend (.read .targetIobuf ::
      if targetIobuf then
        [.write .block, .read .block, .read .block, .read .block,
          .read .socketService, .read .fd, .read .isFixed]
      else
        [.read .socketService, .read .fd, .read .buffer, .read .len, .read .isFixed]) t
  | .write =>
    socketSuspend [.read .socketService, .read .fd, .read .buffer, .read .len, .read .isFixed] t
  | .iobufWrite iovCount =>
    socketSuspend (.read .iovCount ::
      if iovCount = 1 then
        [.read .socketService, .read .fd, .read .iovs, .read .iovs, .read .isFixed]
      else
        [.read .socketService, .read .fd, .read .iovs, .read .iovCount, .read .isFixed]) t
  | .sleep => [.write .task, .read .timerKeeper, .read .delay, .publish, .write .timerId]
  | .timeout childHandle =>
    [.write .parentHandle, .write .source, .read .taskFunc, .write .childTask,
      .read .childTask] ++
    if childHandle then
      -- `set_stop_token`, `set_continuation`, then the timer with its copy of `source_`
      [.read .childTask, .read .source, .read .childTask, .read .parentHandle, .publish,
        .read .timerKeeper, .read .delay, .read .source, .write .timerId]
    else [.read .parentHandle, .give]
  | .resumeOn targetThreadId =>
    [.write .task, .read .targetThreadId, .read .executor] ++
    (if targetThreadId = WorkStealing.kAnyWorkerThread then [] else [.read .targetThreadId]) ++
    [.publish]

/-- The awaiters whose `await_suspend` ends with the hand-off. -/
def Awaiter.PublishesLast : Awaiter → Prop
  | .resumeOn _ => True
  | .timeout childHandle => childHandle = false
  | _ => False

/-- `bind_stop_callback` reads `token_` in any case. -/
theorem handsOffLast_socketSuspend {submit : List (Op Field)} (t : Token)
    (h : ∀ op ∈ submit, op.accesses = true) :
    HandOff.handsOffLast (socketSuspend submit t) = false := by
  have hbefore : ∀ op ∈ [Op.write Field.handle] ++ (if t.present then [.write .token] else []) ++
      submit, op.accesses = true := by
    intro op hop
    rcases List.mem_append.mp hop with hop | hop
    · rcases List.mem_append.mp hop with hop | hop
      · rw [List.mem_singleton.mp hop]
        rfl
      · split at hop
        · rw [List.mem_singleton.mp hop]
          rfl
        · exact absurd hop List.not_mem_nil
    · exact h op hop
  rw [socketSuspend, List.append_assoc, HandOff.handsOffLast_append hbefore]
  rfl

/-- **Hand-off.**  No interleaving lets `await_suspend` touch an awaiter whose coroutine has
been resumed exactly for `ResumeOnAwaiter` and for a `TimeoutAwaiter` without a child. -/
theorem noLate_awaitSuspend_iff (a : Awaiter) (t : Token) :
    NoLate (awaitSuspend a t) ↔ a.PublishesLast := by
  rw [HandOff.noLate_iff]
  cases a with
  | read targetIobuf =>
    rw [awaitSuspend, handsOffLast_socketSuspend t (by cases targetIobuf <;> decide)]
    exact iff_of_false Bool.false_ne_true id
  | write =>
    rw [awaitSuspend, handsOffLast_socketSuspend t (by decide)]
    exact iff_of_false Bool.false_ne_true id
  | iobufWrite iovCount =>
    rw [awaitSuspend, handsOffLast_socketSuspend t (by split <;> decide)]
    exact iff_of_false Bool.false_ne_true id
  | sleep => exact iff_of_false Bool.false_ne_true id
  | timeout childHandle =>
    cases childHandle with
    | true => exact iff_of_false Bool.false_ne_true (fun h => nomatch h)
    | false => exact iff_of_true rfl rfl
  | resumeOn targetThreadId =>
    refine iff_of_true ?_ trivial
    by_cases h : targetThreadId = WorkStealing.kAnyWorkerThread
    · rw [awaitSuspend, if_pos h]
      rfl
    · rw [awaitSuspend, if_neg h]
      rfl

/-- The read completes, and a worker resumes the coroutine, before `SubmitRead` has returned:
`bind_stop_callback` reads the dead `token_` and constructs the callback in the dead `cb_`. -/
theorem read_binds_callback_late :
    ∃ s, StepSystem.run HandOff.step
        (HandOff.start (awaitSuspend (.read false) ⟨true, true, false⟩))
        (List.replicate 9 .exec ++ [.take] ++ List.replicate 3 .exec) = some s ∧
      s.late = [.read .token, .read .token, .write .cb] :=
  StepSystem.exists_of_run_any (by decide)

end AwaiterHandOff
