/-
Which threads touch the submission queue of a Context.

A `Context` is meant to be driven by one IO thread only.  Every operation on a connection
is submitted by the thread that executes the handler at that moment, and that is not always
the IO thread:

* `Server`'s constructor submits the multishot accept on the thread it runs on;
* an accept completion runs the handler on the IO thread up to its first await, a read;
* a completion on the IO thread hands the handler to the workers (`on_complete`), and the
  worker that resumes it submits the next operation;
* the timer's callback runs on a worker, requests the stop, and the stop callbacks that are
  registered submit cancels.

`step` has these moves for any number of connections on one Context, in any order.

* `ring_owned_iff` — the queue was touched by its IO thread only exactly if every `Server` was
  constructed on that thread and no worker has executed a handler;
* `worker_submits_write` — one request, answered by a worker.
-/
import AntServer.HttpFraming
import AntServer.TimeoutAwaiter

namespace RingOwner

open HttpParser (Llhttp)
open TimeoutAwaiter (TimerPc)

/-- A `Scheduler`, and the Context under consideration: `io_contexts_[c]`. -/
structure Config where
  nWorkers : ℕ
  nIoThreads : ℕ
  workers_pos : 0 < nWorkers
  c : Fin nIoThreads

inductive Thread (g : Config)
  | io (j : Fin g.nIoThreads)         -- runs `IOLoop(j)`
  | worker (i : Fin g.nWorkers)
  | other (k : ℕ)
deriving DecidableEq, Repr

/-- The submissions of `IOuringSocketService`. -/
inductive Submission
  | multishotAccept
  | read
  | write
  | close
  | cancel
deriving DecidableEq, Repr

/-- The submission that the awaiter of an operation makes. -/
def submissionOf : HttpHandler.Operation → Submission
  | .read => .read
  | .write _ => .write
  | .close => .close

/-- The awaiters with a `bind_stop_callback`. -/
def binds : HttpHandler.Operation → Bool
  | .read => true
  | .write _ => true
  | .close => false

/-- Where the coroutine of a connection is. -/
inductive Place (g : Config)
  | notAccepted
  | running (th : Thread g)
  | waiting                           -- suspended, its operation is in the ring
  | scheduled                         -- completed, and passed to the executor
  | finished
deriving DecidableEq, Repr

inductive StopPc (g : Config)
  | idle
  | running (i : Fin g.nWorkers)      -- `request_stop` runs the callbacks
  | finished
deriving DecidableEq, Repr

structure Connection (g : Config) where
  handler : HttpHandler.State
  place : Place g
  awaits : ℕ                          -- the awaiters so far, numbered from 0
  token : Bool                        -- `set_stop_token` was called
  captured : ℕ → Bool                 -- the awaiter's `token_.stop_possible()`
  binding : List (Thread g × ℕ)       -- the calls of `bind_stop_callback` still to come
  registered : List ℕ                 -- the awaiters whose callback is registered
  canceled : ℕ → Bool                 -- the awaiter's `state_` is `canceled`
  timer : TimerPc
  stop : StopPc g

structure State (g : Config) where
  connection : ℕ → Connection g
  armed : Bool                        -- the multishot accept is in the ring
  accepting : Option (ℕ × Bool)       -- `on_accept_cb_` is running, with `IORING_CQE_F_MORE`
  submissions : List (Thread g × Submission)      -- history

variable {g : Config} {σ : Type*}

def init (g : Config) : State g where
  connection := fun _ =>
    { handler := HttpHandler.init, place := .notAccepted, awaits := 0, token := false,
      captured := fun _ => false, binding := [], registered := [], canceled := fun _ => false,
      timer := .unset, stop := .idle }
  armed := false
  accepting := none
  submissions := []

def State.set (s : State g) (k : ℕ) (x : Connection g) : State g :=
  { s with connection := Function.update s.connection k x }

/-- `GetSqe` and `Submit` on thread `th`. -/
def State.submit (s : State g) (th : Thread g) (op : Submission) : State g :=
  { s with submissions := s.submissions ++ [(th, op)] }

/-! ### The handler -/

/-- The handler from the result `l` to its next suspension. -/
def segment (m : Llhttp σ) (h : HttpHandler.State) (l : HttpHandler.Label) :
    Option HttpHandler.State :=
  (HttpHandler.step m h l).map fun h' =>
    if h'.phase = .parsing then HttpHandler.parseStep m h' else h'

/-- The operation that was issued between `h` and `h'`. -/
def issued (h h' : HttpHandler.State) : Option HttpHandler.Operation :=
  h'.operations[h.operations.length]?

/-- The coroutine suspends in the awaiter of `op`, on thread `th`. -/
def Connection.suspend (x : Connection g) (h : HttpHandler.State) (th : Thread g)
    (op : HttpHandler.Operation) : Connection g :=
  { x with
    handler := h
    place := .waiting
    awaits := x.awaits + 1
    captured := Function.update x.captured x.awaits (binds op && x.token)
    binding := if binds op then x.binding ++ [(th, x.awaits)] else x.binding }

/-- The handler returns and the parent cancels the timer. -/
def Connection.finish (x : Connection g) (h : HttpHandler.State) : Connection g :=
  { x with
    handler := h
    place := .finished
    timer := if x.timer = .armed then .canceled else x.timer }

/-- The thread `th` executes the handler of connection `k`. -/
def runHandler (m : Llhttp σ) (s : State g) (k : ℕ) (th : Thread g) (l : HttpHandler.Label) :
    Option (State g) :=
  let x := s.connection k
  (segment m x.handler l).map fun h =>
    match issued x.handler h with
    | some op => (s.set k (x.suspend h th op)).submit th (submissionOf op)
    | none => s.set k (x.finish h)

/-! ### Stopping -/

/-- The stop callback of awaiter `j`, on thread `th`. -/
def stopCallback (s : State g) (k : ℕ) (th : Thread g) (j : ℕ) : State g :=
  let x := s.connection k
  if x.canceled j then s
  else (s.set k { x with canceled := Function.update x.canceled j true }).submit th .cancel

/-- `bind_stop_callback` of awaiter `j`, on thread `th`. -/
def bindStopCallback (s : State g) (k : ℕ) (th : Thread g) (j : ℕ) : State g :=
  let x := s.connection k
  let s := s.set k { x with binding := x.binding.erase (th, j) }
  if x.captured j then
    if x.stop = .idle then
      s.set k { s.connection k with registered := j :: x.registered }
    else stopCallback s k th j
  else s

/-! ### Completions -/

/-- Which of `g_executor` and `g_scheduler` are not null on a thread. -/
structure ThreadLocals where
  executor : Bool
  scheduler : Bool

/-- `IOLoop` sets both. -/
def ioLoopLocals : ThreadLocals := ⟨true, true⟩

/-- `BaseAwaiter::on_complete` on the IO thread: the executor resumes the coroutine, directly
or through the scheduler, or the IO thread does it itself. -/
def onComplete (g : Config) (tls : ThreadLocals) : Place g :=
  if tls.executor then .scheduled
  else if tls.scheduler then .scheduled
  else .running (.io g.c)

/-! ### Steps -/

inductive Label (g : Config)
  | construct (th : Thread g)               -- `Server`'s constructor
  | accept (k : ℕ) (more : Bool)
  | acceptFailed (more : Bool)
  | launched (k : ℕ)                        -- the rest of `TimeoutAwaiter::await_suspend`
  | accepted                                -- `on_accept_cb_` returns
  | run (k : ℕ) (l : HttpHandler.Label)
  | bind (k : ℕ) (th : Thread g) (j : ℕ)
  | complete (k : ℕ)
  | resume (k : ℕ) (i : Fin g.nWorkers)
  | fire (k : ℕ) (i : Fin g.nWorkers)       -- worker `i` runs the timer's callback
  | runCallback (k : ℕ) (j : ℕ)
  | finishStop (k : ℕ)
deriving DecidableEq

/-- The end of `Acceptor::on_complete`. -/
def rearm (s : State g) (more : Bool) : State g :=
  if more then s else s.submit (.io g.c) .multishotAccept

/-- The completions are those of the IO thread, so none is handled while it is in
`on_accept_cb_`. -/
def step (m : Llhttp σ) (s : State g) : Label g → Option (State g)
  | .construct th => some { s.submit th .multishotAccept with armed := true }
  | .accept k more =>
    let x := s.connection k
    if s.armed = true ∧ s.accepting = none ∧ x.place = .notAccepted then
      some { s.set k { x with place := .running (.io g.c) } with accepting := some (k, more) }
    else none
  | .acceptFailed more =>
    if s.armed = true ∧ s.accepting = none then some (rearm s more) else none
  | .launched k =>
    let x := s.connection k
    if x.place = .waiting ∧ x.binding = [] ∧ x.token = false then
      some (s.set k { x with token := true, timer := .armed })
    else none
  | .accepted =>
    match s.accepting with
    | none => none
    | some (k, more) =>
      if (s.connection k).token = true then some (rearm { s with accepting := none } more)
      else none
  | .run k l =>
    match (s.connection k).place with
    | .running th => runHandler m s k th l
    | _ => none
  | .bind k th j =>
    if (th, j) ∈ (s.connection k).binding then some (bindStopCallback s k th j) else none
  | .complete k =>
    let x := s.connection k
    if s.accepting = none ∧ x.place = .waiting then
      some (s.set k { x with place := onComplete g ioLoopLocals })
    else none
  | .resume k i =>
    -- the awaiter is destroyed, which removes its callback
    let x := s.connection k
    if x.place = .scheduled then
      some (s.set k { x with
        place := .running (.worker i)
        registered := x.registered.filter (· ≠ x.awaits - 1) })
    else none
  | .fire k i =>
    let x := s.connection k
    if x.timer = .armed then
      some (s.set k { x with
        timer := .fired
        stop := if x.stop = .idle then .running i else x.stop })
    else none
  | .runCallback k j =>
    let x := s.connection k
    match x.stop with
    | .running i =>
      if j ∈ x.registered then
        some (stopCallback (s.set k { x with registered := x.registered.filter (· ≠ j) }) k
          (.worker i) j)
      else none
    | _ => none
  | .finishStop k =>
    let x := s.connection k
    match x.stop with
    | .running _ =>
      if x.registered = [] then some (s.set k { x with stop := .finished }) else none
    | _ => none

/-! ### Inversion -/

section Inversion

variable {m : Llhttp σ} {s s' : State g} {k j : ℕ} {hl : HttpHandler.Label}

theorem step_accepted (hs : step m s .accepted = some s') :
    ∃ more, s' = rearm { s with accepting := none } more := by
  cases hacc : s.accepting with
  | none =>
    simp only [step, hacc] at hs
    cases hs
  | some x =>
    simp only [step, hacc, Option.ite_none_right_eq_some, Option.some.injEq] at hs
    exact ⟨x.2, hs.2.symm⟩

theorem step_run (hs : step m s (.run k hl) = some s') :
    ∃ th, (s.connection k).place = .running th ∧ runHandler m s k th hl = some s' := by
  cases hplace : (s.connection k).place with
  | running th =>
    simp only [step, hplace] at hs
    exact ⟨th, rfl, hs⟩
  | notAccepted | waiting | scheduled | finished => simp [step, hplace] at hs

theorem step_runCallback (hs : step m s (.runCallback k j) = some s') :
    j ∈ (s.connection k).registered ∧ ∃ x i, s' = stopCallback (s.set k x) k (.worker i) j := by
  cases hstop : (s.connection k).stop with
  | running i =>
    simp only [step, hstop, Option.ite_none_right_eq_some, Option.some.injEq] at hs
    exact ⟨hs.1, _, i, hs.2.symm⟩
  | idle | finished => simp [step, hstop] at hs

theorem step_finishStop (hs : step m s (.finishStop k) = some s') :
    s' = s.set k { s.connection k with stop := .finished } := by
  cases hstop : (s.connection k).stop with
  | running i =>
    simp only [step, hstop, Option.ite_none_right_eq_some, Option.some.injEq] at hs
    exact hs.2.symm
  | idle | finished => simp [step, hstop] at hs

end Inversion

/-! ### The first segment and the later ones -/

/-- **The first segment** of a handler ends in a read: the buffer is empty. -/
theorem segment_init {m : Llhttp σ} {h : HttpHandler.State} {l : HttpHandler.Label}
    (hs : segment m HttpHandler.init l = some h) :
    h.phase = .reading ∧ issued HttpHandler.init h = some .read := by
  obtain ⟨h₁, hstep, rfl⟩ := Option.map_eq_some_iff.mp hs
  cases l with
  | parse =>
    have hparse : HttpHandler.parseStep m HttpHandler.init = h₁ := Option.some.inj hstep
    rw [← hparse]
    exact ⟨rfl, rfl⟩
  | readDone result => cases result <;> cases hstep
  | writeDone result => cases hstep
  | closeDone => cases hstep

theorem parseStep_operations (m : Llhttp σ) (h : HttpHandler.State) :
    ∃ op, (HttpHandler.parseStep m h).operations = h.operations ++ [op] := by
  unfold HttpHandler.parseStep
  simp only
  split
  · exact ⟨_, rfl⟩
  · exact ⟨_, rfl⟩
  · exact ⟨_, rfl⟩

/-- **After a read** the handler always submits another operation. -/
theorem segment_reading {m : Llhttp σ} {h h' : HttpHandler.State} {l : HttpHandler.Label}
    (hphase : h.phase = .reading) (hs : segment m h l = some h') :
    ∃ op, issued h h' = some op := by
  have key : ∀ op, h'.operations = h.operations ++ [op] → ∃ op, issued h h' = some op := by
    intro op hop
    refine ⟨op, ?_⟩
    rw [issued, hop]
    exact List.getElem?_concat_length
  obtain ⟨h₁, hstep, heq⟩ := Option.map_eq_some_iff.mp hs
  cases l with
  | parse => simp [HttpHandler.step, hphase] at hstep
  | readDone result =>
    cases result with
    | data blocks =>
      obtain ⟨-, hdata⟩ := Option.ite_none_right_eq_some.mp hstep
      obtain rfl := Option.some.inj hdata
      rw [if_pos rfl] at heq
      obtain ⟨op, hop⟩ := parseStep_operations m
        { h with phase := .parsing, readBuf := h.readBuf ++ blocks }
      exact key op (heq ▸ hop)
    | failed code =>
      obtain ⟨-, hclose⟩ := Option.ite_none_right_eq_some.mp hstep
      obtain rfl := Option.some.inj hclose
      rw [if_neg (by simp [HttpHandler.issueClose])] at heq
      exact key .close (heq ▸ rfl)
  | writeDone result => simp [HttpHandler.step, hphase] at hstep
  | closeDone => simp [HttpHandler.step, hphase] at hstep

/-! ### Runs without a worker -/

/-- The queue was touched by the IO thread of the Context only. -/
def RingOwned (s : State g) : Prop := ∀ x ∈ s.submissions, x.1 = .io g.c

instance (s : State g) : Decidable (RingOwned s) :=
  inferInstanceAs (Decidable (∀ x ∈ s.submissions, _))

/-- Where the handler of a connection can be that no worker has executed. -/
def Place.Early (x : Connection g) : Place g → Prop
  | .notAccepted => x.handler = HttpHandler.init ∧ x.token = false
  | .running (.io j) => j = g.c ∧ x.handler = HttpHandler.init ∧ x.token = false
  | .waiting | .scheduled | .running (.worker _) => x.handler.phase = .reading
  | .running (.other _) | .finished => False

/-- The connection is in its first read: its awaiter has no stop callback, because it has
captured the token before that was set. -/
structure Early (x : Connection g) : Prop where
  place : x.place.Early x
  captured : ∀ j, x.captured j = false
  registered : x.registered = []

structure Quiet (s : State g) : Prop where
  early : ∀ k, Early (s.connection k)
  owned : RingOwned s

theorem quiet_init : Quiet (init g) where
  early := fun _ => ⟨⟨rfl, rfl⟩, fun _ => rfl, rfl⟩
  owned := fun _ hx => absurd hx List.not_mem_nil

theorem Quiet.set {s : State g} (h : Quiet s) (k : ℕ) {x : Connection g} (hx : Early x) :
    Quiet (s.set k x) where
  early := by
    intro k'
    show Early (Function.update s.connection k x k')
    by_cases hk : k' = k
    · subst hk
      rwa [Function.update_self]
    · rw [Function.update_of_ne hk]
      exact h.early k'
  owned := h.owned

theorem Quiet.submit {s : State g} (h : Quiet s) (op : Submission) :
    Quiet (s.submit (.io g.c) op) where
  early := h.early
  owned := by
    intro x hx
    rcases List.mem_append.mp hx with hx | hx
    · exact h.owned x hx
    · rw [List.mem_singleton.mp hx]

theorem Quiet.rearm {s : State g} (h : Quiet s) (more : Bool) : Quiet (rearm s more) := by
  unfold RingOwner.rearm
  split
  · exact h
  · exact h.submit .multishotAccept

/-- The steps considered: `Server`s are constructed, and handlers executed, on the IO thread. -/
def OnIoThread (s : State g) : Label g → Prop
  | .construct th => th = .io g.c
  | .run k _ => (s.connection k).place = .running (.io g.c)
  | _ => True

instance (s : State g) (l : Label g) : Decidable (OnIoThread s l) := by
  unfold OnIoThread
  split <;> infer_instance

variable {m : Llhttp σ} {s s' : State g} {l : Label g}

/-- The IO thread executes a handler: it can only be the first segment. -/
theorem Quiet.run {k : ℕ} {hl : HttpHandler.Label} (h : Quiet s)
    (hplace : (s.connection k).place = .running (.io g.c))
    (hs : runHandler m s k (.io g.c) hl = some s') : Quiet s' := by
  have hearly := h.early k
  obtain ⟨-, hinit, htoken⟩ : (Place.running (.io g.c)).Early (s.connection k) :=
    hplace ▸ hearly.place
  obtain ⟨h', hseg, rfl⟩ := Option.map_eq_some_iff.mp hs
  rw [hinit] at hseg ⊢
  obtain ⟨hphase, hissued⟩ := segment_init hseg
  simp only [hissued]
  refine Quiet.submit (h.set k (x := (s.connection k).suspend h' (.io g.c) .read)
    ⟨hphase, fun j => ?_, hearly.registered⟩) _
  -- the token is set only after this
  show Function.update (s.connection k).captured (s.connection k).awaits
    (binds .read && (s.connection k).token) j = false
  rw [htoken]
  by_cases hj : j = (s.connection k).awaits
  · rw [hj, Function.update_self]
    rfl
  · rw [Function.update_of_ne hj]
    exact hearly.captured j

/-- **Step lemma.** -/
theorem quiet_step (h : Quiet s) (hl : OnIoThread s l) (hs : step m s l = some s') :
    Quiet s' := by
  cases l with
  | construct th =>
    obtain rfl := Option.some.inj hs
    obtain rfl : th = .io g.c := hl
    exact ⟨h.early, (h.submit .multishotAccept).owned⟩
  | accept k more =>
    obtain ⟨⟨-, -, hplace⟩, heq⟩ := Option.ite_none_right_eq_some.mp hs
    obtain rfl := Option.some.inj heq
    have hearly := h.early k
    obtain ⟨hinit, htoken⟩ : Place.notAccepted.Early (s.connection k) := hplace ▸ hearly.place
    have hset := h.set k (x := { s.connection k with place := .running (.io g.c) })
      ⟨⟨rfl, hinit, htoken⟩, hearly.captured, hearly.registered⟩
    exact ⟨hset.early, hset.owned⟩
  | acceptFailed more =>
    obtain ⟨-, heq⟩ := Option.ite_none_right_eq_some.mp hs
    obtain rfl := Option.some.inj heq
    exact h.rearm more
  | launched k =>
    obtain ⟨⟨hplace, -, -⟩, heq⟩ := Option.ite_none_right_eq_some.mp hs
    obtain rfl := Option.some.inj heq
    have hearly := h.early k
    have hphase : Place.waiting.Early (s.connection k) := hplace ▸ hearly.place
    refine h.set k ⟨?_, hearly.captured, hearly.registered⟩
    show Place.Early _ (s.connection k).place
    rw [hplace]
    exact hphase
  | accepted =>
    obtain ⟨more, rfl⟩ := step_accepted hs
    have hnone : Quiet { s with accepting := none } := ⟨h.early, h.owned⟩
    exact hnone.rearm more
  | run k hl' =>
    have hplace : (s.connection k).place = .running (.io g.c) := hl
    obtain ⟨th, hth, hrun⟩ := step_run hs
    obtain rfl : th = .io g.c := Place.running.inj (hth.symm.trans hplace)
    exact h.run hplace hrun
  | bind k th j =>
    obtain ⟨-, heq⟩ := Option.ite_none_right_eq_some.mp hs
    obtain rfl := Option.some.inj heq
    have hearly := h.early k
    rw [bindStopCallback]
    simp only [hearly.captured j, Bool.false_eq_true, if_false]
    exact h.set k ⟨hearly.place, hearly.captured, hearly.registered⟩
  | complete k =>
    obtain ⟨⟨-, hplace⟩, heq⟩ := Option.ite_none_right_eq_some.mp hs
    obtain rfl := Option.some.inj heq
    have hearly := h.early k
    have hphase : Place.waiting.Early (s.connection k) := hplace ▸ hearly.place
    exact h.set k ⟨hphase, hearly.captured, hearly.registered⟩
  | resume k i =>
    obtain ⟨hplace, heq⟩ := Option.ite_none_right_eq_some.mp hs
    obtain rfl := Option.some.inj heq
    have hearly := h.early k
    have hphase : Place.scheduled.Early (s.connection k) := hplace ▸ hearly.place
    refine h.set k ⟨hphase, hearly.captured, ?_⟩
    rw [hearly.registered]
    rfl
  | fire k i =>
    obtain ⟨-, heq⟩ := Option.ite_none_right_eq_some.mp hs
    obtain rfl := Option.some.inj heq
    have hearly := h.early k
    exact h.set k ⟨hearly.place, hearly.captured, hearly.registered⟩
  | runCallback k j =>
    -- there is no callback to run
    have hmem := (step_runCallback hs).1
    rw [(h.early k).registered] at hmem
    exact absurd hmem List.not_mem_nil
  | finishStop k =>
    obtain rfl := step_finishStop hs
    have hearly := h.early k
    exact h.set k ⟨hearly.place, hearly.captured, hearly.registered⟩

/-! ### A breach stays in the history -/

theorem RingOwned.of_subset (h : RingOwned s') (hs : s.submissions ⊆ s'.submissions) :
    RingOwned s := fun x hx => h x (hs hx)

theorem submit_subset (s : State g) (th : Thread g) (op : Submission) :
    s.submissions ⊆ (s.submit th op).submissions :=
  List.subset_append_left s.submissions [(th, op)]

theorem rearm_subset (s : State g) (more : Bool) :
    s.submissions ⊆ (rearm s more).submissions := by
  unfold rearm
  split
  · exact List.Subset.refl s.submissions
  · exact submit_subset s _ _

theorem stopCallback_subset (s : State g) (k : ℕ) (th : Thread g) (j : ℕ) :
    s.submissions ⊆ (stopCallback s k th j).submissions := by
  unfold stopCallback
  simp only
  split
  · exact List.Subset.refl s.submissions
  · exact submit_subset (s.set k _) th .cancel

theorem bindStopCallback_subset (s : State g) (k : ℕ) (th : Thread g) (j : ℕ) :
    s.submissions ⊆ (bindStopCallback s k th j).submissions := by
  unfold bindStopCallback
  simp only
  split
  · split
    · exact List.Subset.refl s.submissions
    · exact stopCallback_subset (s.set k _) k th j
  · exact List.Subset.refl s.submissions

theorem runHandler_subset {k : ℕ} {th : Thread g} {hl : HttpHandler.Label}
    (hs : runHandler m s k th hl = some s') : s.submissions ⊆ s'.submissions := by
  obtain ⟨h', -, rfl⟩ := Option.map_eq_some_iff.mp hs
  split
  · exact submit_subset (s.set k _) th _
  · exact List.Subset.refl s.submissions

/-- No step takes a submission back. -/
theorem step_subset (hs : step m s l = some s') : s.submissions ⊆ s'.submissions := by
  cases l with
  | construct th =>
    obtain rfl := Option.some.inj hs
    exact submit_subset s th .multishotAccept
  | acceptFailed more =>
    obtain ⟨-, heq⟩ := Option.ite_none_right_eq_some.mp hs
    obtain rfl := Option.some.inj heq
    exact rearm_subset s more
  | accepted =>
    obtain ⟨more, rfl⟩ := step_accepted hs
    exact rearm_subset { s with accepting := none } more
  | run k hl =>
    obtain ⟨th, -, hrun⟩ := step_run hs
    exact runHandler_subset hrun
  | bind k th j =>
    obtain ⟨-, heq⟩ := Option.ite_none_right_eq_some.mp hs
    obtain rfl := Option.some.inj heq
    exact bindStopCallback_subset s k th j
  | runCallback k j =>
    obtain ⟨-, x, i, rfl⟩ := step_runCallback hs
    exact stopCallback_subset (s.set k x) k (.worker i) j
  | finishStop k =>
    obtain rfl := step_finishStop hs
    exact List.Subset.refl s.submissions
  | accept k more | launched k | complete k | resume k i | fire k i =>
    -- these only move the connection
    obtain ⟨-, heq⟩ := Option.ite_none_right_eq_some.mp hs
    obtain rfl := Option.some.inj heq
    exact List.Subset.refl s.submissions

/-- A worker that executes the handler after its first read submits. -/
theorem Quiet.breach_run {k : ℕ} {th : Thread g} {hl : HttpHandler.Label} (h : Quiet s)
    (hplace : (s.connection k).place = .running th) (hth : th ≠ .io g.c)
    (hs : runHandler m s k th hl = some s') : ∃ x ∈ s'.submissions, x.1 = th := by
  have hearly : (Place.running th).Early (s.connection k) := hplace ▸ (h.early k).place
  have hphase : (s.connection k).handler.phase = .reading := by
    cases th with
    | io j => exact absurd (congrArg Thread.io hearly.1) hth
    | worker i => exact hearly
    | other n => exact hearly.elim
  obtain ⟨h', hseg, rfl⟩ := Option.map_eq_some_iff.mp hs
  obtain ⟨op, hop⟩ := segment_reading hphase hseg
  refine ⟨(th, submissionOf op), ?_, rfl⟩
  simp only [hop]
  exact List.mem_append_right _ List.mem_cons_self

/-- **A step off the IO thread** leaves a submission of another thread. -/
theorem Quiet.breach (h : Quiet s) (hl : ¬ OnIoThread s l) (hs : step m s l = some s') :
    ¬ RingOwned s' := by
  intro howned
  cases l with
  | construct th =>
    obtain rfl := Option.some.inj hs
    exact hl (howned (th, .multishotAccept) (List.mem_append_right _ List.mem_cons_self))
  | run k hlab =>
    obtain ⟨th, hplace, hrun⟩ := step_run hs
    have hth : th ≠ .io g.c := fun heq => hl (hplace.trans (congrArg Place.running heq))
    obtain ⟨x, hx, hxth⟩ := h.breach_run hplace hth hrun
    exact hth (hxth ▸ howned x hx)
  | _ => exact hl trivial

/-- **The queue has one owner** exactly in the runs in which every `Server` is constructed and
every handler executed on the IO thread. -/
theorem ring_owned_iff (m : Llhttp σ) (ls : List (Label g)) (s : State g)
    (hrun : StepSystem.run (step m) (init g) ls = some s) :
    RingOwned s ↔ StepSystem.Meets (step m) OnIoThread (init g) ls := by
  have quiet : ∀ {ls : List (Label g)} {s : State g},
      StepSystem.Meets (step m) OnIoThread (init g) ls →
      StepSystem.run (step m) (init g) ls = some s → Quiet s := by
    intro ls s hmeets hrun
    exact StepSystem.run_invariant_of_meets (fun _ _ _ h hl hs => quiet_step h hl hs)
      quiet_init hmeets hrun
  constructor
  · -- at the first step off the IO thread the state before it is still quiet
    intro howned
    induction ls using List.reverseRecOn generalizing s with
    | nil => trivial
    | append_singleton ls l ih =>
      obtain ⟨s₁, hrun₁, hs⟩ := StepSystem.run_concat.mp hrun
      have hmeets := ih s₁ hrun₁ (howned.of_subset (step_subset hs))
      refine hmeets.concat fun s₂ hs₂ => ?_
      obtain rfl := Option.some.inj (hrun₁.symm.trans hs₂)
      by_contra hl
      exact (quiet hmeets hrun₁).breach hl hs howned
  · exact fun hmeets => (quiet hmeets hrun).owned

/-- One worker and one Context. -/
abbrev oneWorker : Config := ⟨1, 1, by decide, 0⟩

/-- A connection is accepted and waits in its first read. -/
def acceptLabels : List (Label oneWorker) :=
  [.construct (.io 0), .accept 0 true, .run 0 .parse, .bind 0 (.io 0) 0, .launched 0, .accepted]

theorem ring_owned_iff_accept :
    ∃ s, StepSystem.run (step HttpParser.lineLlhttp) (init oneWorker) acceptLabels = some s ∧
      s.submissions = [(.io 0, .multishotAccept), (.io 0, .read)] ∧ RingOwned s := by
  obtain ⟨s, hrun, hsub⟩ :
      ∃ s, StepSystem.run (step HttpParser.lineLlhttp) (init oneWorker) acceptLabels = some s ∧
        s.submissions = [(.io 0, .multishotAccept), (.io 0, .read)] :=
    StepSystem.exists_of_run_any (by decide +kernel)
  exact ⟨s, hrun, hsub, (ring_owned_iff _ _ s hrun).mpr (by decide +kernel)⟩

/-- **A worker submits the write.**  The request arrives, `on_complete` passes the handler to
the executor, and the worker that resumes it parses the request and answers it. -/
theorem worker_submits_write :
    ∃ s, StepSystem.run (step HttpParser.lineLlhttp) (init oneWorker)
        (acceptLabels ++
          [.complete 0, .resume 0 0, .run 0 (.readDone (.data [HttpHandler.getRoot]))]) = some s ∧
      s.submissions = [(.io 0, .multishotAccept), (.io 0, .read), (.worker 0, .write)] ∧
      ¬ RingOwned s :=
  StepSystem.exists_of_run_any (by decide +kernel)

end RingOwner
