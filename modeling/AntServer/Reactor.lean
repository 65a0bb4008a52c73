/-
The reactor: `Context::ProcessEvents`, the `Acceptor` and the connections on one ring.

The kernel accepts connections into the slots of its table of registered files, performs the
operations of the connections on their slots and posts completions.  The IO thread takes the
completions one by one; a completion of the multishot accept launches a handler, any other one
wakes the handler that waits for it.  The handlers (`HttpTeardown.handler`) run whenever they are
woken.  All of these interleave in any order.

What is taken from outside: a submission takes effect (`GetSqe` and `Submit` do not fail); the
kernel completes every request once, with any result, a multishot accept many times until a
completion without `IORING_CQE_F_MORE`; it puts an accepted connection into a free slot, and a
close that succeeds empties the slot, whatever is in it.

* `State`, `step` — the kernel, the IO thread and the handlers;
* `Serving` — completions are taken in order, and accepting never ends;
* `step_serving` — every step keeps it.
-/
import AntServer.HttpTeardown

namespace Reactor

open HttpTeardown (Op Phase handler)

/-- The user data and arguments of a submission. -/
inductive Request
  | accept
  | op (k : ℕ) (op : Op) (fd : ℕ)
deriving DecidableEq, Repr

/-- A completion queue entry.  `k` is history in those of the accept: the connection. -/
inductive Completion
  | accept (res : ℤ) (more : Bool) (k : ℕ)
  | op (k : ℕ) (op : Op) (res : ℤ)
  | null                              -- no user data: a cancel request, or `Wakeup`
deriving DecidableEq, Repr

structure Connection where
  fd : ℕ
  phase : Phase
  result : Option ℤ                   -- `res_` of the awaiter, when the handler is scheduled
deriving DecidableEq, Repr

/-- The IO thread. -/
inductive Pc
  | wait                              -- in `io_uring_submit_and_wait`
  | forEach                           -- at the head of `io_uring_for_each_cqe`
  | onAccept (k : ℕ) (more : Bool)    -- in `on_accept_cb_`
  | accepted (more : Bool)            -- `Acceptor::on_complete`, behind it
deriving DecidableEq, Repr

structure State where
  -- the kernel
  table : ℕ → Option ℕ                -- whose socket is in a slot
  requests : List Request
  cq : List Completion                -- up to the next `io_uring_cq_advance`
  nextConnection : ℕ
  -- the IO thread
  pc : Pc
  count : ℕ                           -- of `ProcessEvents`
  -- the server
  constructed : Bool
  connection : ℕ → Option Connection
  fault : Bool                        -- a completion found no awaiter that waits for it
  -- history
  posted : List Completion
  handled : List Completion
  performed : List (ℕ × Option ℕ)     -- for which connection, and on whose socket

def init : State where
  table := fun _ => none
  requests := []
  cq := []
  nextConnection := 0
  pc := .wait
  count := 0
  constructed := false
  connection := fun _ => none
  fault := false
  posted := []
  handled := []
  performed := []

namespace State

/-- The completions that `ProcessEvents` has not come to. -/
def unhandled (s : State) : List Completion := s.cq.drop s.count

def submit (s : State) (r : Request) : State := { s with requests := s.requests ++ [r] }

def post (s : State) (c : Completion) : State :=
  { s with cq := s.cq ++ [c], posted := s.posted ++ [c] }

/-- The head of the completion queue moves on, and `count` with it: nothing reads either of them
before the handler of the completion has returned. -/
def take (s : State) (c : Completion) : State :=
  { s with count := s.count + 1, handled := s.handled ++ [c] }

def setConnection (s : State) (k : ℕ) (x : Connection) : State :=
  { s with connection := Function.update s.connection k (some x) }

end State

/-! ### The kernel -/

/-- The multishot accept completes; without `more` it is over. -/
def acceptCompleted (s : State) (more : Bool) : State :=
  if more then s else { s with requests := s.requests.erase .accept }

/-- A connection is accepted into the slot `f`. -/
def accept (s : State) (f : ℕ) (more : Bool) : State :=
  (acceptCompleted
    { s with
      table := Function.update s.table f (some s.nextConnection)
      nextConnection := s.nextConnection + 1 } more).post (.accept f more s.nextConnection)

/-- An operation is performed on whatever is in the slot. -/
def perform (s : State) (k : ℕ) (op : Op) (fd : ℕ) (res : ℤ) : State :=
  { s with
    requests := s.requests.erase (.op k op fd)
    table := if op = Op.close ∧ res = 0 then Function.update s.table fd none else s.table
    performed := s.performed ++ [(k, s.table fd)] }.post (.op k op res)

/-! ### The IO thread -/

/-- `prepare_complete` and `on_complete` of an awaiter. -/
def completeOp (s : State) (k : ℕ) (op : Op) (res : ℤ) : State :=
  match s.connection k with
  | none => { s with fault := true }
  | some x =>
    if x.phase.awaits = some op then s.setConnection k { x with result := some res }
    else { s with fault := true }

/-- The handler of a completion is called. -/
def complete (s : State) : Completion → State
  | .null => s
  | .op k op res => completeOp s k op res
  | .accept res more k =>
    if 0 ≤ res then
      { s.setConnection k ⟨res.toNat, .parsing, none⟩ with pc := .onAccept k more }
    else { s with pc := .accepted more }

/-! ### Steps -/

inductive Label
  | construct                                   -- `Server`'s constructor
  | kernelAccept (f : ℕ) (more : Bool)
  | kernelAcceptError (error : ℤ) (more : Bool)
  | kernelPerform (k : ℕ) (op : Op) (fd : ℕ) (res : ℤ)
  | kernelNull
  | wake                                        -- `io_uring_submit_and_wait(1)` returns
  | next                                        -- the next completion is handled
  | accepted                                    -- `on_accept_cb_` returns
  | rearm                                       -- the rest of `Acceptor::on_complete`
  | advance                                     -- `io_uring_cq_advance`
  | handler (k : ℕ) (l : HttpTeardown.Label)    -- an action of a handler
deriving DecidableEq, Repr

/-- An action of the handler of a connection: the result of an await is that of its completion,
and an operation is submitted on the connection's own descriptor. -/
def runHandler (s : State) (k : ℕ) (x : Connection) (l : HttpTeardown.Label) : Option State :=
  (handler x.phase l).bind fun phase =>
    match l with
    | .parsed _ => some (s.setConnection k { x with phase := phase })
    | .issued op => some ((s.setConnection k { x with phase := phase }).submit (.op k op x.fd))
    | .completed _ res =>
      if x.result = some res then
        some (s.setConnection k { x with phase := phase, result := none })
      else none
    | _ => none

def step (s : State) : Label → Option State
  | .construct =>
    if s.constructed = false then some ({ s with constructed := true }.submit .accept) else none
  | .kernelAccept f more =>
    if .accept ∈ s.requests ∧ s.table f = none then some (accept s f more) else none
  | .kernelAcceptError error more =>
    if .accept ∈ s.requests ∧ error < 0 then
      some ((acceptCompleted s more).post (.accept error more s.nextConnection))
    else none
  | .kernelPerform k op fd res =>
    if .op k op fd ∈ s.requests then some (perform s k op fd res) else none
  | .kernelNull => some (s.post .null)
  | .wake =>
    if s.pc = .wait ∧ s.cq ≠ [] then some { s with pc := .forEach, count := 0 } else none
  | .next =>
    if s.pc = .forEach then
      s.cq[s.count]?.map fun c => complete (s.take c) c
    else none
  | .accepted =>
    match s.pc with
    | .onAccept k more =>
      -- the handler has come to an await, and may have gone on elsewhere since then
      if (s.connection k).any (fun x => x.phase ≠ .parsing) then
        some { s with pc := .accepted more }
      else none
    | _ => none
  | .rearm =>
    match s.pc with
    | .accepted more =>
      some (if more then { s with pc := .forEach }
        else { s with pc := .forEach }.submit .accept)
    | _ => none
  | .advance =>
    if s.pc = .forEach ∧ s.count = s.cq.length then
      some { s with pc := .wait, cq := s.cq.drop s.count, count := 0 }
    else none
  | .handler k l =>
    match s.connection k with
    | none => none
    | some x => runHandler s k x l

/-! ### The loop of the IO thread -/

variable {s s' : State} {l : Label}

/-- No further completion of this multishot accept follows. -/
def Completion.final : Completion → Bool
  | .accept _ more _ => !more
  | _ => false

/-- The IO thread is about to submit a multishot accept. -/
def Pc.owes : Pc → ℕ
  | .onAccept _ more | .accepted more => if more then 0 else 1
  | _ => 0

/-- The next completion, before and after it is taken. -/
theorem unhandled_eq_cons {c : Completion} (h : s.cq[s.count]? = some c) :
    s.unhandled = c :: s.cq.drop (s.count + 1) := by
  obtain ⟨hlt, rfl⟩ := List.getElem?_eq_some_iff.mp h
  exact List.drop_eq_getElem_cons hlt

/-- Completions are taken in the order in which they were posted, each once.  Once the server is
constructed, one multishot accept is in the kernel, or its last completion is still to be handled,
or the IO thread is about to submit the next one. -/
structure Serving (s : State) : Prop where
  count : s.count ≤ s.cq.length
  waits : s.pc = .wait → s.count = 0
  order : s.posted = s.handled ++ s.unhandled
  accept : s.requests.count .accept + s.unhandled.countP Completion.final + s.pc.owes =
    if s.constructed then 1 else 0

theorem serving_init : Serving init := ⟨le_rfl, fun _ => rfl, rfl, rfl⟩

/-- A completion is posted, and with it a multishot accept may end. -/
theorem Serving.posted (h : Serving s) {c : Completion} (hcq : s'.cq = s.cq ++ [c])
    (hcount : s'.count = s.count) (hpc : s'.pc = s.pc) (hposted : s'.posted = s.posted ++ [c])
    (hhandled : s'.handled = s.handled) (hcon : s'.constructed = s.constructed)
    (hreq : s'.requests.count .accept + (if c.final then 1 else 0) = s.requests.count .accept) :
    Serving s' := by
  have hunhandled : s'.unhandled = s.unhandled ++ [c] := by
    rw [State.unhandled, hcq, hcount]
    exact List.drop_append_of_le_length h.count
  refine ⟨?_, fun hw => ?_, ?_, ?_⟩
  · rw [hcq, hcount, List.length_append]
    exact h.count.trans (Nat.le_add_right _ _)
  · rw [hcount]
    exact h.waits (hpc ▸ hw)
  · rw [hposted, hhandled, hunhandled, h.order, List.append_assoc]
  · have haccept := h.accept
    rw [hunhandled, hpc, hcon, List.countP_append, List.countP_singleton]
    omega

theorem count_acceptCompleted (more : Bool) (h : Request.accept ∈ s.requests) :
    (acceptCompleted s more).requests.count .accept + (if more then 0 else 1) =
      s.requests.count .accept := by
  cases more with
  | true => rfl
  | false =>
    have hpos := List.count_pos_iff.mpr h
    simp only [acceptCompleted, Bool.false_eq_true, if_false, List.count_erase_self]
    omega

/-- The IO thread has nothing to do with the step. -/
structure SameLoop (s s' : State) : Prop where
  pc : s'.pc = s.pc
  count : s'.count = s.count
  cq : s'.cq = s.cq
  posted : s'.posted = s.posted
  handled : s'.handled = s.handled
  constructed : s'.constructed = s.constructed
  accepts : s'.requests.count .accept = s.requests.count .accept

theorem SameLoop.unhandled (h : SameLoop s s') : s'.unhandled = s.unhandled := by
  rw [State.unhandled, h.cq, h.count, State.unhandled]

theorem Serving.same (h : Serving s) (hs : SameLoop s s') : Serving s' where
  count := by rw [hs.count, hs.cq]; exact h.count
  waits := fun hw => by rw [hs.count]; exact h.waits (hs.pc ▸ hw)
  order := by rw [hs.posted, hs.handled, hs.unhandled]; exact h.order
  accept := by rw [hs.accepts, hs.unhandled, hs.pc, hs.constructed]; exact h.accept

theorem completeOp_same (s : State) (k : ℕ) (op : Op) (res : ℤ) :
    SameLoop s (completeOp s k op res) := by
  unfold completeOp
  split
  · exact ⟨rfl, rfl, rfl, rfl, rfl, rfl, rfl⟩
  · split
    · exact ⟨rfl, rfl, rfl, rfl, rfl, rfl, rfl⟩
    · exact ⟨rfl, rfl, rfl, rfl, rfl, rfl, rfl⟩

theorem runHandler_same {k : ℕ} {x : Connection} {a : HttpTeardown.Label}
    (hs : runHandler s k x a = some s') : SameLoop s s' := by
  obtain ⟨phase, -, hs⟩ := Option.bind_eq_some_iff.mp hs
  cases a with
  | parsed outcome =>
    obtain rfl := Option.some.inj hs
    exact ⟨rfl, rfl, rfl, rfl, rfl, rfl, rfl⟩
  | issued op =>
    obtain rfl := Option.some.inj hs
    refine ⟨rfl, rfl, rfl, rfl, rfl, rfl, ?_⟩
    exact List.count_append.trans rfl
  | completed op res =>
    rw [Option.ite_none_right_eq_some, Option.some.injEq] at hs
    obtain ⟨-, rfl⟩ := hs
    exact ⟨rfl, rfl, rfl, rfl, rfl, rfl, rfl⟩
  | setStopToken | requestStop | cancel => cases hs

/-- A completion is taken; after the last one of a multishot accept the IO thread is to submit
the next. -/
theorem Serving.taken (h : Serving s) {c : Completion} (pc : Pc) (hpc : s.pc = .forEach)
    (hc : s.cq[s.count]? = some c) (hwait : pc ≠ .wait)
    (howes : pc.owes = if c.final then 1 else 0) : Serving { s.take c with pc := pc } := by
  have hcons := unhandled_eq_cons hc
  refine ⟨(List.getElem?_eq_some_iff.mp hc).1, fun he => absurd he hwait, ?_, ?_⟩
  · show s.posted = s.handled ++ [c] ++ s.cq.drop (s.count + 1)
    rw [h.order, hcons, List.append_assoc]
    rfl
  · show s.requests.count .accept + (s.cq.drop (s.count + 1)).countP Completion.final + pc.owes =
      if s.constructed then 1 else 0
    have haccept := h.accept
    rw [hcons, List.countP_cons, hpc] at haccept
    rw [howes, ← haccept, Nat.add_assoc]
    rfl

theorem complete_serving (h : Serving s) {c : Completion} (hpc : s.pc = .forEach)
    (hc : s.cq[s.count]? = some c) : Serving (complete (s.take c) c) := by
  have hstay : c.final = false → SameLoop { s.take c with pc := .forEach } (s.take c) :=
    fun _ => ⟨hpc, rfl, rfl, rfl, rfl, rfl, rfl⟩
  cases c with
  | null => exact (h.taken .forEach hpc hc (fun he => by cases he) rfl).same (hstay rfl)
  | op k op res =>
    refine Serving.same ?_ (completeOp_same _ k op res)
    exact (h.taken .forEach hpc hc (fun he => by cases he) rfl).same (hstay rfl)
  | accept res more k =>
    have howes : (if more then 0 else 1) = if (!more) = true then 1 else 0 := by
      cases more <;> rfl
    rw [complete]
    split
    · exact (h.taken (.onAccept k more) hpc hc (fun he => by cases he) howes).same
        ⟨rfl, rfl, rfl, rfl, rfl, rfl, rfl⟩
    · exact h.taken (.accepted more) hpc hc (fun he => by cases he) howes

/-- **Step lemma** of the loop. -/
theorem step_serving (h : Serving s) (hs : step s l = some s') : Serving s' := by
  cases l with
  | construct =>
    rw [step, Option.ite_none_right_eq_some, Option.some.injEq] at hs
    obtain ⟨hcon, rfl⟩ := hs
    have haccept := h.accept
    rw [hcon] at haccept
    refine ⟨h.count, h.waits, h.order, ?_⟩
    show (s.requests ++ [Request.accept]).count .accept + s.unhandled.countP Completion.final +
      s.pc.owes = 1
    rw [List.count_append, List.count_singleton_self]
    simp only [Bool.false_eq_true, if_false] at haccept
    omega
  | kernelAccept f more =>
    rw [step, Option.ite_none_right_eq_some, Option.some.injEq] at hs
    obtain ⟨⟨hmem, -⟩, rfl⟩ := hs
    have hcount := count_acceptCompleted more hmem
    refine h.posted (c := .accept f more s.nextConnection) ?_ ?_ ?_ ?_ ?_ ?_ ?_ <;> cases more
    any_goals rfl
    · exact hcount
  | kernelAcceptError error more =>
    rw [step, Option.ite_none_right_eq_some, Option.some.injEq] at hs
    obtain ⟨⟨hmem, -⟩, rfl⟩ := hs
    have hcount := count_acceptCompleted more hmem
    refine h.posted (c := .accept error more s.nextConnection) ?_ ?_ ?_ ?_ ?_ ?_ ?_ <;> cases more
    any_goals rfl
    · exact hcount
  | kernelPerform k op fd res =>
    rw [step, Option.ite_none_right_eq_some, Option.some.injEq] at hs
    obtain ⟨-, rfl⟩ := hs
    refine h.posted (c := .op k op res) rfl rfl rfl rfl rfl rfl ?_
    have hne : Request.accept ≠ .op k op fd := fun he => by cases he
    exact List.count_erase_of_ne hne
  | kernelNull =>
    obtain rfl := Option.some.inj hs
    exact h.posted (c := .null) rfl rfl rfl rfl rfl rfl rfl
  | wake =>
    rw [step, Option.ite_none_right_eq_some, Option.some.injEq] at hs
    obtain ⟨⟨hpc, -⟩, rfl⟩ := hs
    have hzero := h.waits hpc
    have haccept := h.accept
    have horder := h.order
    rw [State.unhandled, hzero] at haccept horder
    rw [hpc] at haccept
    exact ⟨Nat.zero_le _, fun _ => rfl, horder, haccept⟩
  | next =>
    rw [step, Option.ite_none_right_eq_some] at hs
    obtain ⟨c, hc, rfl⟩ := Option.map_eq_some_iff.mp hs.2
    exact complete_serving h hs.1 hc
  | accepted =>
    rw [step] at hs
    split at hs
    next k more hpc =>
      rw [Option.ite_none_right_eq_some, Option.some.injEq] at hs
      obtain ⟨-, rfl⟩ := hs
      have haccept := h.accept
      rw [hpc] at haccept
      exact ⟨h.count, fun he => (by cases he), h.order, haccept⟩
    · cases hs
  | rearm =>
    rw [step] at hs
    split at hs
    next more hpc =>
      obtain rfl := Option.some.inj hs
      have haccept := h.accept
      rw [hpc] at haccept
      cases more with
      | true => exact ⟨h.count, fun he => (by cases he), h.order, haccept⟩
      | false =>
        refine ⟨h.count, fun he => (by cases he), h.order, ?_⟩
        show (s.requests ++ [Request.accept]).count .accept +
          s.unhandled.countP Completion.final + 0 = if s.constructed then 1 else 0
        have howes : (Pc.accepted false).owes = 1 := rfl
        rw [howes] at haccept
        rw [List.count_append, List.count_singleton_self]
        omega
    · cases hs
  | advance =>
    rw [step, Option.ite_none_right_eq_some, Option.some.injEq] at hs
    obtain ⟨⟨hpc, hall⟩, rfl⟩ := hs
    have haccept := h.accept
    rw [hpc] at haccept
    exact ⟨Nat.zero_le _, fun _ => rfl, h.order, haccept⟩
  | handler k a =>
    rw [step] at hs
    split at hs
    · cases hs
    · exact h.same (runHandler_same hs)

end Reactor
