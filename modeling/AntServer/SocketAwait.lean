/-
The cancellation protocol of the socket awaits.

`await_suspend` of `ReadAwaiter`, `WriteAwaiter` and `IOBufWriteAwaiter` submits the operation
under the address of the awaiter and then binds a callback to the stop token.  The callback
submits a cancel request that names the same address.  The completion of the operation, the
completion of the cancel request, the stop and the resumption come in any order; an address is
used again once its awaiter is gone.

What is taken from outside: `io_uring` completes every request once, with any result; a stop
callback runs at most once, and its destructor waits until a run on another thread is over; the
coroutine is resumed only after `await_suspend` has returned.  The requests of all rings are in
one list, so a cancel request is matched against more requests than it is in its own ring; the
kernel looks for the operation when the cancel request is submitted.  `IOHandler` is the first
base of the awaiters, so that `this` and the user data of the operation are one address.

* `State`, `step` — the awaiters, the memory they live in, the kernel's requests;
* `Good` — an awaiter with the number of its requests in the kernel and of its cancel requests;
* `socket_await` — **one resumption for one completion, and no cancel request goes astray**.
-/
import AntServer.TimeoutAwaiter

namespace SocketAwait

open TimeoutAwaiter (Await)

/-! ### Awaiters and requests -/

/-- How far the await has got. -/
inductive Stage
  | unborn
  | constructed
  | submitted       -- inside `await_suspend`, before `bind_stop_callback`
  | binding         -- the stop callback runs inside `bind_stop_callback`
  | suspended       -- `await_suspend` has returned
  | resumed         -- `await_resume` has returned
  | destroying      -- inside `~BaseAwaiter`
  | dead
deriving DecidableEq, Repr

/-- The awaiter is in memory. -/
def Stage.alive : Stage → Bool
  | .unborn | .dead => false
  | _ => true

/-- The operation was submitted. -/
def Stage.begun : Stage → Bool
  | .unborn | .constructed => false
  | _ => true

/-- `await_resume` was executed. -/
def Stage.ended : Stage → Bool
  | .resumed | .destroying | .dead => true
  | _ => false

inductive CancelState
  | pending
  | canceled
deriving DecidableEq, Repr

/-- `cb_` and where its callback is. -/
inductive Callback
  | unbound
  | registered
  | exchange        -- running, at `state_.compare_exchange_strong`
  | onCancel        -- running, at the virtual call of `on_cancel()`
  | submitCancel    -- running, in `on_cancel()` of the awaiter
  | finished
deriving DecidableEq, Repr

def Callback.running : Callback → Bool
  | .exchange | .onCancel | .submitCancel => true
  | _ => false

/-- The exchange has succeeded, and the cancel request is not submitted yet. -/
def Callback.canceling : Callback → Bool
  | .onCancel | .submitCancel => true
  | _ => false

structure Awaiter where
  addr : ℕ := 0
  token : Option ℕ := none            -- the stop source of `token_`, if a stop is possible
  handle : Bool := false
  stage : Stage := .unborn
  state : CancelState := .pending     -- `state_`, which C++20 value-initialises
  cb : Callback := .unbound
  res : Option ℤ := none              -- `res_`
  -- history
  completions : List ℤ := []          -- the results of its own operation
  scheduled : ℕ := 0                  -- how often `on_complete` handed the coroutine over
  returned : Option ℤ := none         -- what `await_resume` returned
deriving DecidableEq, Repr

/-- A request in the kernel: the operation of the await `i`, or a cancel request. -/
inductive Request
  | operation (i : ℕ) (handler : ℕ)
  | cancel (handler : ℕ)
deriving DecidableEq, Repr

/-- `io_uring_sqe_set_data`; a cancel request has the null pointer. -/
def Request.userData : Request → Option ℕ
  | .operation _ handler => some handler
  | .cancel _ => none

def Request.isOperationOf (i : ℕ) : Request → Bool
  | .operation j _ => j == i
  | .cancel _ => false

/-- A call of `SubmitCancel(this)` by the await `await`, the await whose awaiter is at that
address, and the await whose operation the kernel finds under it. -/
structure CancelRecord where
  await : ℕ
  occupant : Option ℕ
  hit : Option ℕ
deriving DecidableEq, Repr

structure State where
  awaiter : ℕ → Awaiter
  memory : ℕ → Option ℕ         -- the await whose awaiter is at an address
  requests : List Request       -- what the kernel has not completed
  stopped : ℕ → Bool            -- the stop sources with a stop request
  wild : Bool                   -- a completion was delivered where no awaiter is
  -- history
  cancels : List CancelRecord

def init : State where
  awaiter := fun _ => {}
  memory := fun _ => none
  requests := []
  stopped := fun _ => false
  wild := false
  cancels := []

def State.put (s : State) (i : ℕ) (w : Awaiter) : State :=
  { s with awaiter := Function.update s.awaiter i w }

/-! ### The steps -/

/-- The end of `bind_stop_callback`, and so of `await_suspend`, if no callback is to run. -/
def bindStopCallback (stopped : ℕ → Bool) (w : Awaiter) : Awaiter :=
  match w.token with
  | none => { w with stage := .suspended }
  | some k =>
    if stopped k then { w with cb := .exchange, stage := .binding }
    else { w with cb := .registered, stage := .suspended }

/-- The stop callback: the exchange of `state_`. -/
def exchangeState (w : Awaiter) : Awaiter :=
  if w.state = .pending then { w with state := .canceled, cb := .onCancel }
  else { w with cb := .finished }

/-- `on_cancel()` is a virtual call: once the destructor of the derived class is over it is the
empty function of `BaseAwaiter`. -/
def callOnCancel (w : Awaiter) : Awaiter :=
  { w with cb := if w.stage = .destroying then .finished else .submitCancel }

/-- The await whose operation has the user data `handler`. -/
def matched (handler : ℕ) : List Request → Option ℕ
  | [] => none
  | .operation i h :: rest => if h = handler then some i else matched handler rest
  | .cancel _ :: rest => matched handler rest

/-- `SubmitCancel(this)` for the await `i`. -/
def submitCancel (s : State) (i : ℕ) : State :=
  { s with
    requests := s.requests ++ [.cancel (s.awaiter i).addr]
    cancels := s.cancels ++
      [⟨i, s.memory (s.awaiter i).addr, matched (s.awaiter i).addr s.requests⟩] }

/-- `prepare_complete` and `on_complete`. -/
def onComplete (w : Awaiter) (res : ℤ) : Awaiter :=
  { w with res := some res, scheduled := if w.handle then w.scheduled + 1 else w.scheduled }

/-- The kernel completes the request `q`; the history has the result under the await whose
operation it is. -/
def State.take (s : State) (q : Request) (res : ℤ) : State :=
  let s := { s with requests := s.requests.erase q }
  match q with
  | .operation i _ =>
    s.put i { s.awaiter i with completions := (s.awaiter i).completions ++ [res] }
  | .cancel _ => s

/-- `ProcessEvents` calls the handler in the user data, if there is one. -/
def processEvent (s : State) (userData : Option ℕ) (res : ℤ) : State :=
  match userData with
  | none => s
  | some handler =>
    match s.memory handler with
    | none => { s with wild := true }
    | some j => s.put j (onComplete (s.awaiter j) res)

inductive Label
  | construct (i : ℕ) (a : Await) (addr : ℕ) (token : Option ℕ)
  | submit (i : ℕ)
  | bind (i : ℕ)
  | requestStop (k : ℕ)
  | invoke (i : ℕ)                    -- `request_stop` comes to the callback
  | callback (i : ℕ)                  -- the next statement of the callback
  | bound (i : ℕ)                     -- `bind_stop_callback` returns after the callback
  | complete (q : Request) (res : ℤ)
  | resume (i : ℕ)
  | destroy (i : ℕ)
  | destroyed (i : ℕ)
deriving DecidableEq, Repr

def step (s : State) : Label → Option State
  | .construct i a addr token =>
    -- an await that is ready does not suspend
    if (s.awaiter i).stage = .unborn ∧ s.memory addr = none ∧ a.ready = false then
      some { s.put i { addr := addr, token := token, stage := .constructed } with
        memory := Function.update s.memory addr (some i) }
    else none
  | .submit i =>
    if (s.awaiter i).stage = .constructed then
      some { s.put i { s.awaiter i with handle := true, stage := .submitted } with
        requests := s.requests ++ [.operation i (s.awaiter i).addr] }
    else none
  | .bind i =>
    if (s.awaiter i).stage = .submitted then
      some (s.put i (bindStopCallback s.stopped (s.awaiter i)))
    else none
  | .requestStop k => some { s with stopped := Function.update s.stopped k true }
  | .invoke i =>
    if (s.awaiter i).cb = .registered ∧ (s.awaiter i).token.any s.stopped = true then
      some (s.put i { s.awaiter i with cb := .exchange })
    else none
  | .callback i =>
    match (s.awaiter i).cb with
    | .exchange => some (s.put i (exchangeState (s.awaiter i)))
    | .onCancel => some (s.put i (callOnCancel (s.awaiter i)))
    | .submitCancel => some ((submitCancel s i).put i { s.awaiter i with cb := .finished })
    | _ => none
  | .bound i =>
    if (s.awaiter i).stage = .binding ∧ (s.awaiter i).cb = .finished then
      some (s.put i { s.awaiter i with stage := .suspended })
    else none
  | .complete q res =>
    if q ∈ s.requests then some (processEvent (s.take q res) q.userData res) else none
  | .resume i =>
    if (s.awaiter i).stage = .suspended ∧ 0 < (s.awaiter i).scheduled then
      some (s.put i { s.awaiter i with stage := .resumed, returned := (s.awaiter i).res })
    else none
  | .destroy i =>
    if (s.awaiter i).stage = .resumed then
      some (s.put i { s.awaiter i with stage := .destroying })
    else none
  | .destroyed i =>
    -- the destructor of `cb_` removes the callback, or waits for it
    if (s.awaiter i).stage = .destroying ∧ (s.awaiter i).cb.running = false then
      some { s.put i { s.awaiter i with stage := .dead, cb := .unbound } with
        memory := Function.update s.memory (s.awaiter i).addr none }
    else none

/-! ### The invariant of an awaiter -/

/-- An awaiter with `n` operations in the kernel and `k` cancel requests submitted for it. -/
structure Good (w : Awaiter) (n k : ℕ) : Prop where
  unborn : w.stage = .unborn → w = {}
  pending : n + w.scheduled = if w.stage.begun then 1 else 0
  handle : w.stage.begun = true → w.handle = true
  scheduled : w.completions.length = w.scheduled
  res : w.res = w.completions.getLast?
  ended : w.stage.ended = true → n = 0 ∧ w.returned = w.res
  cancels : k ≤ 1
  untouched : w.state = .pending → k = 0
  canceling : w.cb.canceling = true → w.state = .canceled ∧ k = 0
  bound : w.cb = .registered ∨ w.cb.running = true → w.stage.begun = true ∧ w.stage.alive = true

namespace Good

variable {w : Awaiter} {n k : ℕ}

theorem init : Good {} 0 0 where
  unborn _ := rfl
  pending := rfl
  handle h := nomatch h
  scheduled := rfl
  res := rfl
  ended h := nomatch h
  cancels := Nat.zero_le 1
  untouched _ := rfl
  canceling h := nomatch h
  bound h := by rcases h with h | h <;> cases h

theorem constructed (h : Good w n k) (hw : w.stage = .unborn) (addr : ℕ) (token : Option ℕ) :
    Good { addr := addr, token := token, stage := .constructed } n k := by
  obtain rfl := h.unborn hw
  exact ⟨nofun, h.pending, nofun, rfl, rfl, nofun, h.cancels, h.untouched, nofun,
    by simp [Callback.running]⟩

theorem submitted (h : Good w n k) (hw : w.stage = .constructed) :
    Good { w with handle := true, stage := .submitted } (n + 1) k := by
  have hn := h.pending
  rw [hw] at hn
  refine ⟨nofun, ?_, fun _ => rfl, h.scheduled, h.res, nofun, h.cancels, h.untouched, h.canceling,
    fun hcb => ?_⟩
  · show n + 1 + w.scheduled = 1
    have : n + w.scheduled = 0 := hn
    omega
  · exact ⟨rfl, rfl⟩

/-- A step between two stages after `SubmitRead` that keeps what is owed. -/
theorem restage (h : Good w n k) (stage : Stage) (hw : w.stage.begun = true)
    (hb : stage.begun = true) (ha : stage.alive = true) (ho : stage.ended = w.stage.ended) :
    Good { w with stage := stage } n k := by
  have hn := h.pending
  rw [if_pos hw] at hn
  refine ⟨?_, ?_, fun _ => h.handle hw, h.scheduled, h.res, ?_, h.cancels, h.untouched, h.canceling,
    fun _ => ⟨hb, ha⟩⟩
  · rintro rfl
    cases hb
  · show n + w.scheduled = if stage.begun then 1 else 0
    rw [if_pos hb]
    exact hn
  · intro hended
    exact h.ended (ho ▸ hended)

/-- The callback moves, in an awaiter that is in memory. -/
theorem moveCallback (h : Good w n k) (cb : Callback)
    (hc : cb.canceling = true → w.cb.canceling = true) (hw : w.stage.begun = true)
    (ha : w.stage.alive = true) : Good { w with cb := cb } n k := by
  refine ⟨fun hu => ?_, h.pending, h.handle, h.scheduled, h.res, h.ended, h.cancels, h.untouched,
    fun hcb => h.canceling (hc hcb), fun _ => ⟨hw, ha⟩⟩
  exact absurd (hu ▸ hw : Stage.unborn.begun = true) (by decide)

theorem bind (h : Good w n k) (hw : w.stage = .submitted) (stopped : ℕ → Bool) :
    Good (bindStopCallback stopped w) n k := by
  have hb : w.stage.begun = true := by rw [hw]; rfl
  have ha : w.stage.alive = true := by rw [hw]; rfl
  have ho : w.stage.ended = false := by rw [hw]; rfl
  rw [bindStopCallback]
  split
  · exact h.restage .suspended hb rfl rfl ho.symm
  · split
    · exact (h.moveCallback .exchange nofun hb ha).restage .binding hb rfl rfl ho.symm
    · exact (h.moveCallback .registered nofun hb ha).restage .suspended hb rfl rfl ho.symm

theorem exchangeState (h : Good w n k) (hcb : w.cb = .exchange) :
    Good (SocketAwait.exchangeState w) n k := by
  obtain ⟨hb, ha⟩ := h.bound (.inr (by rw [hcb]; rfl))
  rw [SocketAwait.exchangeState]
  split
  · rename_i hstate
    refine ⟨fun hu => ?_, h.pending, h.handle, h.scheduled, h.res, h.ended, h.cancels, nofun,
      fun _ => ⟨rfl, h.untouched hstate⟩, fun _ => ⟨hb, ha⟩⟩
    exact absurd (hu ▸ hb : Stage.unborn.begun = true) (by decide)
  · exact h.moveCallback .finished nofun hb ha

theorem callOnCancel (h : Good w n k) (hcb : w.cb = .onCancel) :
    Good (SocketAwait.callOnCancel w) n k := by
  obtain ⟨hb, ha⟩ := h.bound (.inr (by rw [hcb]; rfl))
  exact h.moveCallback _ (fun _ => by rw [hcb]; rfl) hb ha

/-- `on_cancel` submits the only cancel request of the awaiter. -/
theorem submitCancel (h : Good w n k) (hcb : w.cb = .submitCancel) :
    Good { w with cb := .finished } n (k + 1) := by
  obtain ⟨hstate, rfl⟩ := h.canceling (by rw [hcb]; rfl)
  obtain ⟨hb, ha⟩ := h.bound (.inr (by rw [hcb]; rfl))
  refine ⟨fun hu => ?_, h.pending, h.handle, h.scheduled, h.res, h.ended, le_refl 1, fun hp => ?_,
    nofun, fun _ => ⟨hb, ha⟩⟩
  · exact absurd (hu ▸ hb : Stage.unborn.begun = true) (by decide)
  · exact absurd (hstate.symm.trans hp) (by decide)

/-- An awaiter whose operation is in the kernel is in memory, and waits. -/
theorem waiting (h : Good w (n + 1) k) :
    w.stage.begun = true ∧ w.stage.alive = true ∧ w.stage.ended = false := by
  have hn := h.pending
  have hb : w.stage.begun = true := by
    by_contra hb
    rw [if_neg hb] at hn
    omega
  have ho : w.stage.ended = false := by
    rw [Bool.eq_false_iff]
    intro ho
    exact absurd (h.ended ho).1 (Nat.succ_ne_zero n)
  refine ⟨hb, ?_, ho⟩
  revert hb ho
  cases w.stage <;> decide

theorem complete (h : Good w (n + 1) k) (res : ℤ) :
    Good (onComplete { w with completions := w.completions ++ [res] } res) n k := by
  obtain ⟨hb, ha, ho⟩ := h.waiting
  have hn := h.pending
  rw [if_pos hb] at hn
  have hscheduled : (onComplete { w with completions := w.completions ++ [res] } res).scheduled =
      w.scheduled + 1 := by
    show (if w.handle then w.scheduled + 1 else w.scheduled) = w.scheduled + 1
    rw [if_pos (h.handle hb)]
  refine ⟨fun hu => ?_, ?_, h.handle, ?_, ?_, fun hended => ?_, h.cancels, h.untouched, h.canceling,
    h.bound⟩
  · exact absurd (hu ▸ hb : Stage.unborn.begun = true) (by decide)
  · show n + (onComplete _ res).scheduled = if w.stage.begun then 1 else 0
    rw [hscheduled, if_pos hb]
    omega
  · rw [hscheduled]
    show (w.completions ++ [res]).length = w.scheduled + 1
    rw [List.length_append, h.scheduled, List.length_singleton]
  · show some res = (w.completions ++ [res]).getLast?
    rw [List.getLast?_concat]
  · exact absurd (ho.symm.trans hended) (by decide)

theorem resume (h : Good w n k) (hw : w.stage = .suspended) (hs : 0 < w.scheduled) :
    Good { w with stage := .resumed, returned := w.res } n k := by
  have hn := h.pending
  rw [hw] at hn
  have hn : n + w.scheduled = 1 := hn
  refine ⟨nofun, hn, fun _ => h.handle (by rw [hw]; rfl), h.scheduled, h.res, fun _ => ⟨?_, rfl⟩,
    h.cancels, h.untouched, h.canceling, fun _ => ⟨rfl, rfl⟩⟩
  omega

theorem destroyed (h : Good w n k) (hw : w.stage = .destroying) :
    Good { w with stage := .dead, cb := .unbound } n k := by
  have hn := h.pending
  rw [hw] at hn
  exact ⟨nofun, hn, fun _ => h.handle (by rw [hw]; rfl), h.scheduled, h.res,
    fun _ => h.ended (by rw [hw]; rfl), h.cancels, h.untouched, nofun, by simp [Callback.running]⟩

/-- The await is over: one completion, one hand-over, and its result returned. -/
theorem result (h : Good w n k) (ho : w.stage.ended = true) :
    w.scheduled = 1 ∧ ∃ v, w.completions = [v] ∧ w.returned = some v := by
  obtain ⟨rfl, hret⟩ := h.ended ho
  have hb : w.stage.begun = true := by
    revert ho
    cases w.stage <;> decide
  have hn := h.pending
  rw [if_pos hb, Nat.zero_add] at hn
  have hlength := h.scheduled.trans hn
  obtain ⟨v, hv⟩ := List.length_eq_one_iff.mp hlength
  refine ⟨hn, v, hv, ?_⟩
  rw [hret, h.res, hv]
  rfl

end Good

/-! ### The invariant -/

/-- The number of operations of the await in the kernel. -/
def State.pending (s : State) (i : ℕ) : ℕ := s.requests.countP (Request.isOperationOf i)

/-- The number of cancel requests submitted for the await. -/
def State.cancelsOf (s : State) (i : ℕ) : ℕ := s.cancels.countP fun c => c.await == i

/-- The cancel request was submitted while the awaiter it names was in memory, and found no
operation but that of its await. -/
def CancelRecord.Direct (c : CancelRecord) : Prop :=
  c.occupant = some c.await ∧ (c.hit = none ∨ c.hit = some c.await)

structure Inv (s : State) : Prop where
  good : ∀ i, Good (s.awaiter i) (s.pending i) (s.cancelsOf i)
  named : ∀ i handler, .operation i handler ∈ s.requests → handler = (s.awaiter i).addr
  placed : ∀ addr i, s.memory addr = some i ↔
    (s.awaiter i).stage.alive = true ∧ (s.awaiter i).addr = addr
  tame : s.wild = false
  direct : ∀ c ∈ s.cancels, c.Direct

theorem inv_init : Inv init where
  good _ := Good.init
  named _ _ h := absurd h List.not_mem_nil
  placed _ _ := ⟨nofun, fun h => nomatch h.1⟩
  tame := rfl
  direct _ h := absurd h List.not_mem_nil

theorem mem_of_matched {handler i : ℕ} {rs : List Request} (h : matched handler rs = some i) :
    .operation i handler ∈ rs := by
  induction rs with
  | nil => cases h
  | cons q rest ih =>
    cases q with
    | cancel a => exact List.mem_cons_of_mem _ (ih h)
    | operation j a =>
      rw [matched] at h
      split at h
      · rename_i heq
        obtain rfl := Option.some.inj h
        rw [heq]
        exact List.mem_cons_self
      · exact List.mem_cons_of_mem _ (ih h)

namespace Inv

variable {s s' : State} {i : ℕ}

/-- The awaiter of an operation in the kernel is in memory, where the user data says. -/
theorem memory_of_operation (h : Inv s) {handler : ℕ} (hq : .operation i handler ∈ s.requests) :
    s.memory handler = some i := by
  have hpos : 0 < s.pending i := List.countP_pos_iff.mpr ⟨_, hq, beq_self_eq_true i⟩
  obtain ⟨n, hn⟩ := Nat.exists_eq_succ_of_ne_zero (Nat.pos_iff_ne_zero.mp hpos)
  have hgood := h.good i
  rw [hn] at hgood
  exact (h.placed handler i).mpr ⟨hgood.waiting.2.1, (h.named i handler hq).symm⟩

/-- The awaiter `i` changes, in its place; of the requests only those of `i` change. -/
theorem move (h : Inv s) {w : Awaiter} {rs : List Request} {cs : List CancelRecord}
    (hgood : Good w (rs.countP (Request.isOperationOf i)) (cs.countP fun c => c.await == i))
    (haddr : w.addr = (s.awaiter i).addr)
    (halive : w.stage.alive = (s.awaiter i).stage.alive)
    (hrs : ∀ j ≠ i, rs.countP (Request.isOperationOf j) = s.pending j)
    (hcs : ∀ j ≠ i, (cs.countP fun c => c.await == j) = s.cancelsOf j)
    (hnamed : ∀ j handler, .operation j handler ∈ rs → handler = (s.awaiter j).addr)
    (hdirect : ∀ c ∈ cs, c.Direct) :
    Inv { s.put i w with requests := rs, cancels := cs } := by
  have hsame : ∀ j, (Function.update s.awaiter i w j).addr = (s.awaiter j).addr ∧
      (Function.update s.awaiter i w j).stage.alive = (s.awaiter j).stage.alive := by
    intro j
    by_cases hj : j = i
    · subst hj
      rw [Function.update_self]
      exact ⟨haddr, halive⟩
    · rw [Function.update_of_ne hj]
      exact ⟨rfl, rfl⟩
  refine ⟨fun j => ?_, fun j handler hq => ?_, fun addr j => ?_, h.tame, hdirect⟩
  · show Good (Function.update s.awaiter i w j) (rs.countP (Request.isOperationOf j))
      (cs.countP fun c => c.await == j)
    by_cases hj : j = i
    · subst hj
      rw [Function.update_self]
      exact hgood
    · rw [Function.update_of_ne hj, hrs j hj, hcs j hj]
      exact h.good j
  · exact (hnamed j handler hq).trans (hsame j).1.symm
  · show s.memory addr = some j ↔ (Function.update s.awaiter i w j).stage.alive = true ∧
      (Function.update s.awaiter i w j).addr = addr
    rw [(hsame j).1, (hsame j).2]
    exact h.placed addr j

theorem put (h : Inv s) {w : Awaiter} (hgood : Good w (s.pending i) (s.cancelsOf i))
    (haddr : w.addr = (s.awaiter i).addr)
    (halive : w.stage.alive = (s.awaiter i).stage.alive) : Inv (s.put i w) :=
  h.move hgood haddr halive (fun _ _ => rfl) (fun _ _ => rfl) h.named h.direct

theorem good_update (h : Inv s) {w : Awaiter} (hgood : Good w (s.pending i) (s.cancelsOf i))
    (j : ℕ) : Good (Function.update s.awaiter i w j) (s.pending j) (s.cancelsOf j) := by
  by_cases hj : j = i
  · subst hj
    rw [Function.update_self]
    exact hgood
  · rw [Function.update_of_ne hj]
    exact h.good j

theorem construct (h : Inv s) (hi : (s.awaiter i).stage = .unborn) {addr : ℕ}
    (hfree : s.memory addr = none) (token : Option ℕ) :
    Inv { s.put i { addr := addr, token := token, stage := .constructed } with
      memory := Function.update s.memory addr (some i) } := by
  refine ⟨h.good_update ((h.good i).constructed hi addr token), fun j handler hq => ?_,
    fun a j => ?_, h.tame, h.direct⟩
  · -- an operation in the kernel belongs to another awaiter, which is in memory
    have hne : j ≠ i := by
      rintro rfl
      have halive := ((h.placed handler j).mp (h.memory_of_operation hq)).1
      rw [hi] at halive
      cases halive
    show handler = (Function.update s.awaiter i _ j).addr
    rw [Function.update_of_ne hne]
    exact h.named j handler hq
  · show Function.update s.memory addr (some i) a = some j ↔
      (Function.update s.awaiter i _ j).stage.alive = true ∧
        (Function.update s.awaiter i _ j).addr = a
    by_cases hj : j = i
    · subst hj
      rw [Function.update_self]
      by_cases ha : a = addr
      · subst ha
        rw [Function.update_self]
        exact ⟨fun _ => ⟨rfl, rfl⟩, fun _ => rfl⟩
      · rw [Function.update_of_ne ha, h.placed, hi]
        exact ⟨fun hj => absurd hj.1 (by decide), fun hj => absurd hj.2.symm ha⟩
    · rw [Function.update_of_ne hj]
      by_cases ha : a = addr
      · subst ha
        rw [Function.update_self, ← h.placed, hfree]
        exact ⟨fun heq => absurd (Option.some.inj heq).symm hj, nofun⟩
      · rw [Function.update_of_ne ha]
        exact h.placed a j

theorem destroyed (h : Inv s) (hi : (s.awaiter i).stage = .destroying) :
    Inv { s.put i { s.awaiter i with stage := .dead, cb := .unbound } with
      memory := Function.update s.memory (s.awaiter i).addr none } := by
  refine ⟨h.good_update ((h.good i).destroyed hi), fun j handler hq => ?_, fun a j => ?_, h.tame,
    h.direct⟩
  · show handler = (Function.update s.awaiter i _ j).addr
    have hname := h.named j handler hq
    by_cases hj : j = i
    · subst hj
      rw [Function.update_self]
      exact hname
    · rwa [Function.update_of_ne hj]
  · show Function.update s.memory (s.awaiter i).addr none a = some j ↔
      (Function.update s.awaiter i _ j).stage.alive = true ∧
        (Function.update s.awaiter i _ j).addr = a
    -- the place is free now, and it was that of no other awaiter
    have hplace : s.memory (s.awaiter i).addr = some i :=
      (h.placed _ i).mpr ⟨by rw [hi]; rfl, rfl⟩
    by_cases ha : a = (s.awaiter i).addr
    · subst ha
      rw [Function.update_self]
      refine ⟨nofun, fun hj => ?_⟩
      by_cases hij : j = i
      · subst hij
        rw [Function.update_self] at hj
        cases hj.1
      · rw [Function.update_of_ne hij, ← h.placed, hplace] at hj
        exact absurd (Option.some.inj hj).symm hij
    · rw [Function.update_of_ne ha]
      by_cases hij : j = i
      · subst hij
        rw [Function.update_self, h.placed]
        exact ⟨fun hj => absurd hj.2.symm ha, fun hj => nomatch hj.1⟩
      · rw [Function.update_of_ne hij]
        exact h.placed a j

/-- `SubmitRead` and the like: the operation goes to the kernel under the awaiter's address. -/
theorem submit (h : Inv s) (hi : (s.awaiter i).stage = .constructed) :
    Inv { s.put i { s.awaiter i with handle := true, stage := .submitted } with
      requests := s.requests ++ [.operation i (s.awaiter i).addr] } := by
  have hcount : ∀ j, (s.requests ++ [Request.operation i (s.awaiter i).addr]).countP
      (Request.isOperationOf j) = s.pending j + if i = j then 1 else 0 := by
    intro j
    rw [List.countP_append, List.countP_singleton]
    simp only [Request.isOperationOf, beq_iff_eq]
    rfl
  refine h.move ?_ rfl (by rw [hi]; rfl) (fun j hj => ?_) (fun _ _ => rfl) (fun j handler hq => ?_)
    h.direct
  · rw [hcount i, if_pos rfl]
    exact (h.good i).submitted hi
  · rw [hcount j, if_neg (Ne.symm hj), Nat.add_zero]
  · rcases List.mem_append.mp hq with hq | hq
    · exact h.named j handler hq
    · obtain ⟨rfl, rfl⟩ := Request.operation.inj (List.mem_singleton.mp hq)
      rfl

/-- The awaiter that submits a cancel request is in memory, so that an operation under its
address is its own. -/
theorem submitCancel (h : Inv s) (hi : (s.awaiter i).cb = .submitCancel) :
    Inv ((SocketAwait.submitCancel s i).put i { s.awaiter i with cb := .finished }) := by
  have halive := ((h.good i).bound (.inr (by rw [hi]; rfl))).2
  have hplace : s.memory (s.awaiter i).addr = some i := (h.placed _ i).mpr ⟨halive, rfl⟩
  have hpending : ∀ j, (SocketAwait.submitCancel s i).pending j = s.pending j := by
    intro j
    rw [State.pending, SocketAwait.submitCancel, List.countP_append, List.countP_singleton]
    rfl
  have hcancels : ∀ j, (SocketAwait.submitCancel s i).cancelsOf j =
      s.cancelsOf j + if i = j then 1 else 0 := by
    intro j
    rw [State.cancelsOf, SocketAwait.submitCancel, List.countP_append, List.countP_singleton]
    simp only [beq_iff_eq]
    rfl
  refine h.move ?_ rfl rfl (fun j _ => hpending j) (fun j hj => ?_) (fun j handler hq => ?_)
    (fun c hc => ?_)
  · have hone := hcancels i
    rw [if_pos rfl] at hone
    have hgood := (h.good i).submitCancel hi
    rw [← hpending i, ← hone] at hgood
    exact hgood
  · refine (hcancels j).trans ?_
    rw [if_neg (Ne.symm hj), Nat.add_zero]
  · rcases List.mem_append.mp hq with hq | hq
    · exact h.named j handler hq
    · cases List.mem_singleton.mp hq
  · rcases List.mem_append.mp hc with hc | hc
    · exact h.direct c hc
    · rw [List.mem_singleton.mp hc]
      refine ⟨hplace, ?_⟩
      cases hhit : matched (s.awaiter i).addr s.requests with
      | none => exact .inl rfl
      | some j =>
        have hj := h.memory_of_operation (mem_of_matched hhit)
        exact .inr (hj.symm.trans hplace)

/-- The completion of an operation comes to the awaiter that submitted it. -/
theorem complete (h : Inv s) {handler : ℕ} (hq : .operation i handler ∈ s.requests) (res : ℤ) :
    Inv (processEvent (s.take (.operation i handler) res) (some handler) res) := by
  have hplace := h.memory_of_operation hq
  have hcount : ∀ j, (s.requests.erase (.operation i handler)).countP (Request.isOperationOf j) =
      s.pending j - if i = j then 1 else 0 := by
    intro j
    rw [List.countP_erase]
    simp only [hq, Request.isOperationOf, beq_iff_eq, true_and]
    rfl
  have hpos : 0 < s.pending i := List.countP_pos_iff.mpr ⟨_, hq, beq_self_eq_true i⟩
  have hgood := h.good i
  rw [← Nat.sub_add_cancel hpos] at hgood
  have hstate : processEvent (s.take (.operation i handler) res) (some handler) res =
      { s.put i (onComplete { s.awaiter i with
          completions := (s.awaiter i).completions ++ [res] } res) with
        requests := s.requests.erase (.operation i handler), cancels := s.cancels } := by
    simp only [processEvent, State.take, State.put, hplace, Function.update_self,
      Function.update_idem]
  rw [hstate]
  refine h.move ?_ rfl rfl (fun j hj => ?_) (fun _ _ => rfl)
    (fun j a ha => h.named j a (List.mem_of_mem_erase ha)) h.direct
  · rw [hcount i, if_pos rfl]
    exact hgood.complete res
  · rw [hcount j, if_neg (Ne.symm hj), Nat.sub_zero]

/-- The completion of a cancel request goes to nobody. -/
theorem completeCancel (h : Inv s) (handler : ℕ) (res : ℤ) :
    Inv (processEvent (s.take (.cancel handler) res) none res) := by
  have hcount : ∀ j, (s.requests.erase (.cancel handler)).countP (Request.isOperationOf j) =
      s.pending j := by
    intro j
    rw [List.countP_erase, if_neg (by simp [Request.isOperationOf]), Nat.sub_zero]
    rfl
  refine ⟨fun j => ?_, fun j a ha => h.named j a (List.mem_of_mem_erase ha), h.placed, h.tame,
    h.direct⟩
  show Good (s.awaiter j) ((s.requests.erase (.cancel handler)).countP _) (s.cancelsOf j)
  rw [hcount j]
  exact h.good j

theorem step (h : Inv s) {l : Label} (hs : SocketAwait.step s l = some s') : Inv s' := by
  cases l with
  | construct i a addr token =>
    obtain ⟨⟨hi, hfree, -⟩, hs⟩ := Option.ite_none_right_eq_some.mp hs
    obtain rfl := Option.some.inj hs
    exact h.construct hi hfree token
  | submit i =>
    obtain ⟨hi, hs⟩ := Option.ite_none_right_eq_some.mp hs
    obtain rfl := Option.some.inj hs
    exact h.submit hi
  | bind i =>
    obtain ⟨hi, hs⟩ := Option.ite_none_right_eq_some.mp hs
    obtain rfl := Option.some.inj hs
    have hgood := (h.good i).bind hi s.stopped
    have halive : (s.awaiter i).stage.alive = true := by rw [hi]; rfl
    refine h.put hgood ?_ ?_ <;> rw [bindStopCallback] <;> split
    · rfl
    · split <;> rfl
    · exact halive.symm
    · split <;> exact halive.symm
  | requestStop k =>
    obtain rfl := Option.some.inj hs
    exact ⟨h.good, h.named, h.placed, h.tame, h.direct⟩
  | invoke i =>
    obtain ⟨⟨hi, -⟩, hs⟩ := Option.ite_none_right_eq_some.mp hs
    obtain rfl := Option.some.inj hs
    obtain ⟨hb, ha⟩ := (h.good i).bound (.inl hi)
    exact h.put ((h.good i).moveCallback .exchange nofun hb ha) rfl rfl
  | callback i =>
    rw [SocketAwait.step] at hs
    split at hs
    case h_1 hi =>
      obtain rfl := Option.some.inj hs
      refine h.put ((h.good i).exchangeState hi) ?_ ?_ <;> rw [SocketAwait.exchangeState] <;>
        split <;> rfl
    case h_2 hi =>
      obtain rfl := Option.some.inj hs
      exact h.put ((h.good i).callOnCancel hi) rfl rfl
    case h_3 hi =>
      obtain rfl := Option.some.inj hs
      exact h.submitCancel hi
    case h_4 => cases hs
  | bound i =>
    obtain ⟨⟨hi, -⟩, hs⟩ := Option.ite_none_right_eq_some.mp hs
    obtain rfl := Option.some.inj hs
    have hgood := (h.good i).restage .suspended (by rw [hi]; rfl) rfl rfl (by rw [hi]; rfl)
    exact h.put hgood rfl (by rw [hi]; rfl)
  | complete q res =>
    obtain ⟨hq, hs⟩ := Option.ite_none_right_eq_some.mp hs
    obtain rfl := Option.some.inj hs
    cases q with
    | operation i handler => exact h.complete hq res
    | cancel handler => exact h.completeCancel handler res
  | resume i =>
    obtain ⟨⟨hi, hpos⟩, hs⟩ := Option.ite_none_right_eq_some.mp hs
    obtain rfl := Option.some.inj hs
    exact h.put ((h.good i).resume hi hpos) rfl (by rw [hi]; rfl)
  | destroy i =>
    obtain ⟨hi, hs⟩ := Option.ite_none_right_eq_some.mp hs
    obtain rfl := Option.some.inj hs
    have hgood := (h.good i).restage .destroying (by rw [hi]; rfl) rfl rfl (by rw [hi]; rfl)
    exact h.put hgood rfl (by rw [hi]; rfl)
  | destroyed i =>
    obtain ⟨⟨hi, -⟩, hs⟩ := Option.ite_none_right_eq_some.mp hs
    obtain rfl := Option.some.inj hs
    exact h.destroyed hi

theorem run {ls : List Label} (hrun : StepSystem.run SocketAwait.step init ls = some s) : Inv s :=
  StepSystem.run_invariant (fun _ _ _ h hs => h.step hs) inv_init hrun

/-- An await that has begun and is not scheduled yet has its operation in the kernel. -/
theorem operation_pending (h : Inv s) (hb : (s.awaiter i).stage.begun = true)
    (hs : (s.awaiter i).scheduled = 0) : .operation i (s.awaiter i).addr ∈ s.requests := by
  have hn := (h.good i).pending
  rw [if_pos hb, hs] at hn
  have hpos : 0 < s.pending i := by omega
  obtain ⟨q, hq, hqi⟩ := List.countP_pos_iff.mp hpos
  cases q with
  | operation j handler =>
    obtain rfl : j = i := beq_iff_eq.mp hqi
    rw [← h.named j handler hq]
    exact hq
  | cancel handler => cases hqi

end Inv

/-! ### The protocol -/

/-- What the await `i` has seen: its coroutine was handed over as often as its own operation
completed, at most once, and the operation is still to complete if that was never; when it is
over, it has returned the result of that completion.  At most one cancel request was submitted
for it. -/
structure Served (s : State) (i : ℕ) : Prop where
  scheduled : (s.awaiter i).scheduled = (s.awaiter i).completions.length
  once : (s.awaiter i).scheduled ≤ 1
  owed : (s.awaiter i).stage.begun = true → (s.awaiter i).scheduled = 0 →
    .operation i (s.awaiter i).addr ∈ s.requests
  result : (s.awaiter i).stage.ended = true →
    ∃ v, (s.awaiter i).completions = [v] ∧ (s.awaiter i).returned = some v
  cancels : s.cancelsOf i ≤ 1

/-- **In every run every await is scheduled once, at the completion of its own operation, whose
result it returns; it submits at most one cancel request; and every cancel request is submitted
while the awaiter it names is in memory, and finds no operation of another await.** -/
theorem socket_await {ls : List Label} {s : State}
    (hrun : StepSystem.run step init ls = some s) :
    (∀ i, Served s i) ∧ s.wild = false ∧ ∀ c ∈ s.cancels, c.Direct := by
  have h := Inv.run hrun
  refine ⟨fun i => ?_, h.tame, h.direct⟩
  have hgood := h.good i
  refine ⟨hgood.scheduled.symm, ?_, h.operation_pending, fun hended => (hgood.result hended).2,
    hgood.cancels⟩
  have hn := hgood.pending
  split at hn <;> omega

/-- Two reads, one after the other at one address.  The first completes before its callback is
bound; the stop comes while it is being destroyed, after the call of `on_cancel()`.  The second
finds the stop requested, so that its callback runs inside `bind_stop_callback`. -/
def twoReads : List Label :=
  [.construct 0 ⟨.read, 0⟩ 64 (some 0), .submit 0, .complete (.operation 0 64) 5, .bind 0,
    .requestStop 0, .resume 0, .invoke 0, .callback 0, .callback 0, .destroy 0, .callback 0,
    .destroyed 0,
    .construct 1 ⟨.read, 0⟩ 64 (some 0), .submit 1, .bind 1, .callback 1, .callback 1,
    .callback 1, .bound 1, .complete (.cancel 64) 0, .complete (.operation 1 64) (-125),
    .complete (.cancel 64) (-2), .resume 1]

/-- The cancel request of the first read finds nothing, that of the second its own read. -/
theorem socket_await_same_address :
    ∃ s, StepSystem.run step init twoReads = some s ∧
      (s.awaiter 0).returned = some 5 ∧ (s.awaiter 1).returned = some (-125) ∧
      s.cancels = [⟨0, some 0, none⟩, ⟨1, some 1, some 1⟩] ∧
      (∀ i, Served s i) ∧ s.wild = false ∧ ∀ c ∈ s.cancels, c.Direct := by
  have hrun : ∃ s, StepSystem.run step init twoReads = some s ∧
      (s.awaiter 0).returned = some 5 ∧ (s.awaiter 1).returned = some (-125) ∧
      s.cancels = [⟨0, some 0, none⟩, ⟨1, some 1, some 1⟩] :=
    StepSystem.exists_of_run_any (by decide +kernel)
  obtain ⟨s, hrun, hfirst, hsecond, hcancels⟩ := hrun
  exact ⟨s, hrun, hfirst, hsecond, hcancels, socket_await hrun⟩

end SocketAwait
