/-
Parking and waking a worker (`WorkerState::unpark`, `park_and_wait`).

One worker parks; any number of threads `U` push onto its inbox and then unpark it, stop the
executor, or wake any worker.  Each load, each store, taking and releasing the mutex, waiting and
signalling are one step each, and the steps interleave in any order.  The wait may end at any
time: on a signal, on its timeout or for no reason.

* `step` — the threads; on the inbox they take the steps of `Inbox` (`box_run`);
* `Mutex` — at most one thread is between taking and releasing a lock, and the lock knows which;
* `Guarded` — what the worker has seen, at each place in the loop of `park_and_wait`;
* `no_lost_wakeup` — **a worker that is blocked without a signal while there is something to do
  has its signal coming**: a thread is on its way through `unpark`, past the test of `is_parked` or
  with the test about to succeed, and if the threads in `unpark` run, the worker gets a signal;
* `pushed_task_gets_signal` — the same from the side of a task in the inbox.
-/
import AntServer.Inbox

/-! ### Mutexes -/

section Mutex

variable {T : Type*} {inside inside' : T → Bool} {owner : Option T} {t : T}

/-- The threads inside their critical sections are those that own the mutex. -/
def Mutex (inside : T → Bool) (owner : Option T) : Prop :=
  ∀ t, inside t = true ↔ owner = some t

theorem Mutex.frame (h : Mutex inside owner) (hsame : ∀ t, inside' t = inside t) :
    Mutex inside' owner := by
  intro t
  rw [hsame]
  exact h t

theorem Mutex.acquire (h : Mutex inside none) (ht : inside' t = true)
    (hsame : ∀ t', t' ≠ t → inside' t' = inside t') : Mutex inside' (some t) := by
  intro t'
  by_cases he : t' = t
  · subst he
    exact ⟨fun _ => rfl, fun _ => ht⟩
  · rw [hsame t' he]
    constructor
    · intro hin
      exact nomatch (h t').mp hin
    · intro ho
      exact absurd (Option.some.inj ho).symm he

theorem Mutex.release (h : Mutex inside (some t)) (ht : inside' t = false)
    (hsame : ∀ t', t' ≠ t → inside' t' = inside t') : Mutex inside' none := by
  intro t'
  by_cases he : t' = t
  · subst he
    rw [ht]
    exact ⟨nofun, nofun⟩
  · rw [hsame t' he]
    constructor
    · intro hin
      exact absurd (Option.some.inj ((h t').mp hin)).symm he
    · exact nofun

end Mutex

namespace Parking

variable {U Task : Type*}

/-! ### The code -/

/-- Where the worker stands in `park_and_wait`. -/
inductive WorkerPc where
  | out                            -- it runs tasks or looks for one
  | lock
  | check                          -- `if (!running.load())`
  | setParked                      -- before `is_parked.store(true)`
  | testRunning                    -- the three loads of the loop condition
  | testParked
  | testInbox
  | wait                           -- before `WaitWithTimeout`
  | waiting (signaled : Bool)      -- blocked; the mutex is released
  | reacquire (timedOut : Bool)    -- the wait has ended
  | clear                          -- before `is_parked.store(false)`
  | unlock
deriving DecidableEq, Repr

/-- Why a thread calls `unpark`. -/
inductive Cause where
  | push       -- after `push_inbox`
  | stop       -- `Stop`
  | wake       -- `wake_any_worker`
deriving DecidableEq, Repr

/-- Where another thread stands. -/
inductive CallerPc where
  | idle
  | pushing                        -- in `push_inbox`
  | test (why : Cause)             -- `unpark()`: before it loads `is_parked`
  | lock (why : Cause)             -- it saw `true`
  | clear (why : Cause)            -- before `is_parked.store(false)`
  | signal (why : Cause)
  | unlock (why : Cause)
deriving DecidableEq, Repr

inductive Thread (U : Type*) where
  | worker
  | caller (u : U)
deriving DecidableEq, Repr

structure State (U Task : Type*) where
  box : Inbox.State U Task
  running : Bool
  isParked : Bool
  parkMu : Option (Thread U)       -- who has the mutex
  worker : WorkerPc
  caller : U → CallerPc

def init (next : Task → Option Task) (running : Bool) : State U Task where
  box := Inbox.init U next
  running := running
  isParked := false
  parkMu := none
  worker := .out
  caller := fun _ => .idle

inductive Label (U Task : Type*) where
  | call (u : U) (task : Task)                 -- `push_inbox(task)`, then `unpark()`
  | produce (u : U) (spurious : Bool)
  | relink (task : Task) (v : Option Task)
  | stop (u : U)
  | wake (u : U)
  | unpark (u : U)                             -- the next access of `u` in `unpark`
  | consume                                    -- the worker drains its inbox
  | park                                       -- the worker calls `park_and_wait`
  | worker                                     -- its next access there
  | wakeUp (timedOut : Bool)                   -- the wait ends
deriving DecidableEq, Repr

/-- The next access of the worker in `park_and_wait`. -/
def workerStep (s : State U Task) : Option (State U Task) :=
  match s.worker with
  | .out => none
  | .lock =>
    if s.parkMu = none then some { s with parkMu := some .worker, worker := .check } else none
  | .check => some { s with worker := if s.running then .setParked else .unlock }
  | .setParked => some { s with isParked := true, worker := .testRunning }
  | .testRunning => some { s with worker := if s.running then .testParked else .clear }
  | .testParked => some { s with worker := if s.isParked then .testInbox else .clear }
  | .testInbox => some { s with worker := if s.box.inbox = none then .wait else .clear }
  | .wait => some { s with parkMu := none, worker := .waiting false }
  | .waiting _ => none
  | .reacquire timedOut =>
    if s.parkMu = none then
      -- a timeout leaves the loop
      some { s with parkMu := some .worker, worker := if timedOut then .clear else .testRunning }
    else none
  | .clear => some { s with isParked := false, worker := .unlock }
  | .unlock => some { s with parkMu := none, worker := .out }

/-- A signal wakes the worker if it waits, and is lost otherwise. -/
def WorkerPc.notify : WorkerPc → WorkerPc
  | .waiting _ => .waiting true
  | pc => pc

section Steps

variable [DecidableEq U] [DecidableEq Task]

def State.setCaller (s : State U Task) (u : U) (pc : CallerPc) : State U Task :=
  { s with caller := Function.update s.caller u pc }

/-- The next access of thread `u` in `unpark`. -/
def unparkStep (s : State U Task) (u : U) : Option (State U Task) :=
  match s.caller u with
  | .idle | .pushing => none
  | .test why => some (s.setCaller u (if s.isParked then .lock why else .idle))
  | .lock why =>
    if s.parkMu = none then some { s.setCaller u (.clear why) with parkMu := some (.caller u) }
    else none
  | .clear why => some { s.setCaller u (.signal why) with isParked := false }
  | .signal why => some { s.setCaller u (.unlock why) with worker := s.worker.notify }
  | .unlock _ => some { s.setCaller u .idle with parkMu := none }

def step (s : State U Task) : Label U Task → Option (State U Task)
  | .call u task =>
    if s.caller u = .idle then
      some { s.setCaller u .pushing with
        box := { s.box.setProducer u (.start task) with
          busy := Function.update s.box.busy task true } }
    else none
  | .produce u spurious =>
    if s.caller u = .pushing then
      -- the push is done when its compare-exchange succeeds
      (Inbox.produceStep s.box u spurious).map fun box =>
        { s.setCaller u (if box.producer u = .idle then .test .push else .pushing) with box }
    else none
  | .relink task v => some { s with box := s.box.setNext task v }
  | .stop u =>
    if s.caller u = .idle then
      -- only the call whose exchange returns `true` goes on to unpark
      some { s.setCaller u (if s.running then .test .stop else .idle) with running := false }
    else none
  | .wake u =>
    if s.caller u = .idle then some (s.setCaller u (if s.isParked then .test .wake else .idle))
    else none
  | .unpark u => unparkStep s u
  | .consume =>
    if s.worker = .out then some { s with box := Inbox.consumeStep s.box } else none
  | .park =>
    if s.worker = .out ∧ s.box.consumer = .idle then some { s with worker := .lock } else none
  | .worker => workerStep s
  | .wakeUp timedOut =>
    match s.worker with
    | .waiting _ => some { s with worker := .reacquire timedOut }
    | _ => none

end Steps

/-! ### The invariant -/

/-- Between taking and releasing the mutex. -/
def WorkerPc.inside : WorkerPc → Bool
  | .check | .setParked | .testRunning | .testParked | .testInbox | .wait | .clear | .unlock => true
  | .out | .lock | .waiting _ | .reacquire _ => false

def CallerPc.inside : CallerPc → Bool
  | .clear _ | .signal _ | .unlock _ => true
  | .idle | .pushing | .test _ | .lock _ => false

def inside (worker : WorkerPc) (caller : U → CallerPc) : Thread U → Bool
  | .worker => worker.inside
  | .caller u => (caller u).inside

/-- In `unpark`, with the signal still to come unless the test fails. -/
def CallerPc.pending : CallerPc → Bool
  | .test _ | .lock _ | .clear _ | .signal _ => true
  | .idle | .pushing | .unlock _ => false

def Pending (caller : U → CallerPc) : Prop := ∃ u, (caller u).pending = true

def Signalling (caller : U → CallerPc) : Prop := ∃ u why, caller u = .signal why

/-- There is something to do for the worker. -/
def State.Due (s : State U Task) : Prop := s.running = false ∨ s.box.inbox ≠ none

/-- What holds at each place of the worker's loop.  Nobody else writes `is_parked` while the
worker has the mutex, but `running` and the inbox may change as soon as they have been tested:
then a thread is in `unpark`, and it does not give up while `is_parked` is set. -/
def Guarded (s : State U Task) : Prop :=
  match s.worker with
  | .testParked => s.running = false → s.isParked = false ∨ Pending s.caller
  | .testInbox => s.isParked = true ∧ (s.running = false → Pending s.caller)
  | .wait => s.isParked = true ∧ (s.Due → Pending s.caller)
  | .waiting false =>
    (s.isParked = true ∨ Signalling s.caller) ∧ (s.Due → Pending s.caller)
  | _ => True

structure Inv (s : State U Task) : Prop where
  mutex : Mutex (inside s.worker s.caller) s.parkMu
  guarded : Guarded s

theorem inv_init (next : Task → Option Task) (running : Bool) :
    Inv (init next running : State U Task) where
  mutex := by
    intro t
    cases t <;> exact ⟨nofun, nofun⟩
  guarded := trivial

theorem Signalling.pending {caller : U → CallerPc} (h : Signalling caller) : Pending caller := by
  obtain ⟨u, why, hu⟩ := h
  exact ⟨u, by rw [hu]; rfl⟩

section Parts

variable {s s' : State U Task} {worker pc : WorkerPc} {caller : U → CallerPc} {t : Thread U}

theorem inside_setWorker (hpc : pc.inside = worker.inside) (t : Thread U) :
    inside pc caller t = inside worker caller t := by
  cases t with
  | worker => exact hpc
  | caller v => rfl

theorem inside_setWorker_of_ne (ht : t ≠ .worker) :
    inside pc caller t = inside worker caller t := by
  cases t with
  | worker => exact absurd rfl ht
  | caller v => rfl

theorem WorkerPc.notify_inside (pc : WorkerPc) : pc.notify.inside = pc.inside := by
  cases pc <;> rfl

theorem WorkerPc.notify_ne_waiting (pc : WorkerPc) : pc.notify ≠ .waiting false := by
  cases pc <;> exact nofun

/-- Outside the mutex there is only the wait to look at. -/
theorem guarded_of_outside (hout : s.worker.inside = false)
    (hwait : s.worker = .waiting false →
      (s.isParked = true ∨ Signalling s.caller) ∧ (s.Due → Pending s.caller)) : Guarded s := by
  unfold Guarded
  split
  case h_1 hw => exact nomatch hout.symm.trans (congrArg WorkerPc.inside hw)
  case h_2 hw => exact nomatch hout.symm.trans (congrArg WorkerPc.inside hw)
  case h_3 hw => exact nomatch hout.symm.trans (congrArg WorkerPc.inside hw)
  case h_4 hw => exact hwait hw
  case h_5 => trivial

/-- A step of another thread that leaves the worker and `is_parked` alone: no signal is taken
back, and whoever stops the executor or fills the inbox is then in `unpark`. -/
theorem Guarded.env (h : Guarded s) (hw : s'.worker = s.worker) (hp : s'.isParked = s.isParked)
    (hsig : Signalling s.caller → Signalling s'.caller)
    (hpend : Pending s.caller → Pending s'.caller)
    (hrun : s'.running = false → s.running = false ∨ Pending s'.caller)
    (hbox : s'.box.inbox ≠ none → s.box.inbox ≠ none ∨ Pending s'.caller) : Guarded s' := by
  have hdue : (s.Due → Pending s.caller) → s'.Due → Pending s'.caller := by
    rintro hs (hr | hb)
    · exact (hrun hr).elim (fun hr => hpend (hs (Or.inl hr))) id
    · exact (hbox hb).elim (fun hb => hpend (hs (Or.inr hb))) id
  unfold Guarded at h ⊢
  rw [hw, hp]
  cases hworker : s.worker with
  | testParked =>
    rw [hworker] at h
    intro hr
    rcases hrun hr with hr | hr
    · exact (h hr).imp_right hpend
    · exact Or.inr hr
  | testInbox =>
    rw [hworker] at h
    refine ⟨h.1, fun hr => ?_⟩
    exact (hrun hr).elim (fun hr => hpend (h.2 hr)) id
  | wait =>
    rw [hworker] at h
    exact ⟨h.1, hdue h.2⟩
  | waiting signaled =>
    rw [hworker] at h
    cases signaled with
    | false => exact ⟨h.1.imp_right hsig, hdue h.2⟩
    | true => trivial
  | _ => trivial

variable [DecidableEq U] {u : U} {pc : CallerPc}

theorem inside_update (hpc : pc.inside = (caller u).inside) (t : Thread U) :
    inside worker (Function.update caller u pc) t = inside worker caller t := by
  cases t with
  | worker => rfl
  | caller v =>
    by_cases hv : v = u
    · subst hv
      exact (congrArg CallerPc.inside (Function.update_self v pc caller)).trans hpc
    · exact congrArg CallerPc.inside (Function.update_of_ne hv pc caller)

theorem inside_update_of_ne (ht : t ≠ .caller u) :
    inside worker (Function.update caller u pc) t = inside worker caller t := by
  cases t with
  | worker => rfl
  | caller v =>
    have hv : v ≠ u := fun he => ht (congrArg Thread.caller he)
    exact congrArg CallerPc.inside (Function.update_of_ne hv pc caller)

theorem inside_update_self :
    inside worker (Function.update caller u pc) (.caller u) = pc.inside :=
  congrArg CallerPc.inside (Function.update_self u pc caller)

theorem pending_update_self (hpc : pc.pending = true) : Pending (Function.update caller u pc) :=
  ⟨u, by rw [Function.update_self]; exact hpc⟩

theorem Pending.update (h : Pending caller)
    (hpc : (caller u).pending = true → pc.pending = true) :
    Pending (Function.update caller u pc) := by
  obtain ⟨v, hv⟩ := h
  by_cases he : v = u
  · subst he
    exact pending_update_self (hpc hv)
  · exact ⟨v, by rw [Function.update_of_ne he]; exact hv⟩

theorem Signalling.update (h : Signalling caller) (hu : ∀ why, caller u ≠ .signal why) :
    Signalling (Function.update caller u pc) := by
  obtain ⟨v, why, hv⟩ := h
  have he : v ≠ u := fun he => hu why (he ▸ hv)
  exact ⟨v, why, by rw [Function.update_of_ne he]; exact hv⟩

end Parts

/-! ### The worker's steps -/

section Worker

variable {s s' : State U Task} {pc : WorkerPc}

/-- The worker moves on with or without the mutex, as before. -/
theorem Inv.setWorker (h : Inv s) (hpc : pc.inside = s.worker.inside)
    (hg : Guarded { s with worker := pc }) : Inv { s with worker := pc } :=
  ⟨h.mutex.frame (inside_setWorker hpc), hg⟩

theorem Inv.workerAcquire (h : Inv s) (hfree : s.parkMu = none) (hpc : pc.inside = true)
    (hg : Guarded { s with parkMu := some .worker, worker := pc }) :
    Inv { s with parkMu := some .worker, worker := pc } :=
  ⟨(hfree ▸ h.mutex).acquire hpc fun _ ht => inside_setWorker_of_ne ht, hg⟩

theorem Inv.workerRelease (h : Inv s) (hin : s.worker.inside = true) (hpc : pc.inside = false)
    (hg : Guarded { s with parkMu := none, worker := pc }) :
    Inv { s with parkMu := none, worker := pc } := by
  have howner : s.parkMu = some .worker := (h.mutex .worker).mp hin
  exact ⟨(howner ▸ h.mutex).release hpc fun _ ht => inside_setWorker_of_ne ht, hg⟩

theorem Inv.workerStep (h : Inv s) (hs : workerStep s = some s') : Inv s' := by
  have hg := h.guarded
  unfold Parking.workerStep at hs
  unfold Guarded at hg
  cases hw : s.worker with
  | out => rw [hw] at hs; exact nomatch hs
  | waiting signaled => rw [hw] at hs; exact nomatch hs
  | lock =>
    rw [hw] at hs
    obtain ⟨hfree, hs⟩ := Option.ite_none_right_eq_some.mp hs
    obtain rfl := Option.some.inj hs
    exact h.workerAcquire hfree rfl trivial
  | check =>
    rw [hw] at hs
    obtain rfl := Option.some.inj hs
    by_cases hr : s.running = true
    · rw [if_pos hr]
      exact h.setWorker (by rw [hw]; rfl) trivial
    · rw [if_neg hr]
      exact h.setWorker (by rw [hw]; rfl) trivial
  | setParked =>
    rw [hw] at hs
    obtain rfl := Option.some.inj hs
    exact ⟨h.mutex.frame (inside_setWorker (by rw [hw]; rfl)), trivial⟩
  | testRunning =>
    rw [hw] at hs
    obtain rfl := Option.some.inj hs
    by_cases hr : s.running = true
    · -- from here on, whoever stops the executor has its `unpark` ahead
      rw [if_pos hr]
      refine h.setWorker (by rw [hw]; rfl) fun hstop => ?_
      exact nomatch hr.symm.trans hstop
    · rw [if_neg hr]
      exact h.setWorker (by rw [hw]; rfl) trivial
  | testParked =>
    rw [hw] at hs hg
    obtain rfl := Option.some.inj hs
    by_cases hp : s.isParked = true
    · rw [if_pos hp]
      refine h.setWorker (by rw [hw]; rfl) ⟨hp, fun hstop => ?_⟩
      exact (hg hstop).resolve_left fun hclear => nomatch hp.symm.trans hclear
    · rw [if_neg hp]
      exact h.setWorker (by rw [hw]; rfl) trivial
  | testInbox =>
    rw [hw] at hs hg
    obtain rfl := Option.some.inj hs
    by_cases hb : s.box.inbox = none
    · -- the inbox was empty at the load; a push that comes later has its `unpark` ahead
      rw [if_pos hb]
      refine h.setWorker (by rw [hw]; rfl) ⟨hg.1, ?_⟩
      rintro (hstop | hsome)
      · exact hg.2 hstop
      · exact absurd hb hsome
    · rw [if_neg hb]
      exact h.setWorker (by rw [hw]; rfl) trivial
  | wait =>
    -- releasing the mutex and blocking is one step: nobody clears `is_parked` in between
    rw [hw] at hs hg
    obtain rfl := Option.some.inj hs
    exact h.workerRelease (by rw [hw]; rfl) rfl ⟨Or.inl hg.1, hg.2⟩
  | reacquire timedOut =>
    rw [hw] at hs
    obtain ⟨hfree, hs⟩ := Option.ite_none_right_eq_some.mp hs
    obtain rfl := Option.some.inj hs
    cases timedOut <;> exact h.workerAcquire hfree rfl trivial
  | clear =>
    rw [hw] at hs
    obtain rfl := Option.some.inj hs
    exact ⟨h.mutex.frame (inside_setWorker (by rw [hw]; rfl)), trivial⟩
  | unlock =>
    rw [hw] at hs
    obtain rfl := Option.some.inj hs
    exact h.workerRelease (by rw [hw]; rfl) rfl trivial

end Worker

/-! ### The steps of the other threads -/

section Callers

variable [DecidableEq U] {s s' : State U Task} {u : U} {pc : CallerPc}

omit [DecidableEq U] in
theorem Inv.owner_of_inside (h : Inv s) (hin : (s.caller u).inside = true) :
    s.parkMu = some (.caller u) := (h.mutex (.caller u)).mp hin

omit [DecidableEq U] in
/-- While another thread has the mutex, the worker does not. -/
theorem Inv.worker_outside (h : Inv s) (howner : s.parkMu = some (.caller u)) :
    s.worker.inside = false := by
  by_contra hin
  have hmine : s.parkMu = some .worker := (h.mutex .worker).mp (eq_true_of_ne_false hin)
  exact nomatch howner.symm.trans hmine

theorem Guarded.setCaller (h : Guarded s) (hpend : (s.caller u).pending = true → pc.pending = true)
    (hsig : ∀ why, s.caller u ≠ .signal why) : Guarded (s.setCaller u pc) :=
  h.env rfl rfl (fun h => h.update hsig) (fun h => h.update hpend) Or.inl Or.inl

/-- A thread that finds `is_parked` cleared gives up: whoever cleared it is still to signal. -/
theorem Guarded.giveUp (h : Guarded s) {why : Cause} (hu : s.caller u = .test why)
    (hp : s.isParked = false) : Guarded (s.setCaller u .idle) := by
  have hsig : ∀ why, s.caller u ≠ .signal why := by
    intro why he
    exact nomatch hu.symm.trans he
  have hworker : (s.setCaller u .idle).worker = s.worker := rfl
  unfold Guarded at h ⊢
  rw [hworker]
  cases hw : s.worker with
  | testParked => exact fun _ => Or.inl hp
  | testInbox =>
    rw [hw] at h
    exact nomatch hp.symm.trans h.1
  | wait =>
    rw [hw] at h
    exact nomatch hp.symm.trans h.1
  | waiting signaled =>
    rw [hw] at h
    cases signaled with
    | true => trivial
    | false =>
      have hcleared := h.1.resolve_left fun hset => nomatch hp.symm.trans hset
      have hother : Signalling (Function.update s.caller u .idle) := hcleared.update hsig
      exact ⟨Or.inr hother, fun _ => hother.pending⟩
  | _ => trivial

theorem Inv.unparkStep (h : Inv s) (hs : unparkStep s u = some s') : Inv s' := by
  unfold Parking.unparkStep at hs
  cases hu : s.caller u with
  | idle => rw [hu] at hs; exact nomatch hs
  | pushing => rw [hu] at hs; exact nomatch hs
  | test why =>
    rw [hu] at hs
    obtain rfl := Option.some.inj hs
    by_cases hp : s.isParked = true
    · rw [if_pos hp]
      exact ⟨h.mutex.frame (inside_update (by rw [hu]; rfl)),
        h.guarded.setCaller (fun _ => rfl) (by rw [hu]; nofun)⟩
    · rw [if_neg hp]
      exact ⟨h.mutex.frame (inside_update (by rw [hu]; rfl)),
        h.guarded.giveUp hu (eq_false_of_ne_true hp)⟩
  | lock why =>
    rw [hu] at hs
    obtain ⟨hfree, hs⟩ := Option.ite_none_right_eq_some.mp hs
    obtain rfl := Option.some.inj hs
    exact ⟨(hfree ▸ h.mutex).acquire inside_update_self fun _ ht => inside_update_of_ne ht,
      h.guarded.setCaller (fun _ => rfl) (by rw [hu]; nofun)⟩
  | clear why =>
    rw [hu] at hs
    obtain rfl := Option.some.inj hs
    have howner : s.parkMu = some (.caller u) := h.owner_of_inside (by rw [hu]; rfl)
    -- `is_parked` is cleared under the mutex, so the worker is not in its loop; if it waits, this
    -- thread is now the one that signals
    have hsig : Signalling (Function.update s.caller u (.signal why)) :=
      ⟨u, why, Function.update_self ..⟩
    refine ⟨h.mutex.frame (inside_update (by rw [hu]; rfl)), guarded_of_outside ?_ fun _ => ?_⟩
    · exact h.worker_outside howner
    · exact ⟨Or.inr hsig, fun _ => hsig.pending⟩
  | signal why =>
    rw [hu] at hs
    obtain rfl := Option.some.inj hs
    have howner : s.parkMu = some (.caller u) := h.owner_of_inside (by rw [hu]; rfl)
    refine ⟨h.mutex.frame fun t => ?_, guarded_of_outside ?_ fun he => ?_⟩
    · exact (inside_setWorker s.worker.notify_inside t).trans (inside_update (by rw [hu]; rfl) t)
    · exact s.worker.notify_inside.trans (h.worker_outside howner)
    · exact absurd he s.worker.notify_ne_waiting
  | unlock why =>
    rw [hu] at hs
    obtain rfl := Option.some.inj hs
    have howner : s.parkMu = some (.caller u) := h.owner_of_inside (by rw [hu]; rfl)
    exact ⟨(howner ▸ h.mutex).release inside_update_self fun _ ht => inside_update_of_ne ht,
      h.guarded.setCaller (by rw [hu]; nofun) (by rw [hu]; nofun)⟩

/-- A thread that is not in `unpark` moves: if it stops the executor or fills the inbox, its
`unpark` comes next. -/
theorem Inv.enter (h : Inv s) (hout : (s.caller u).inside = false)
    (hidle : (s.caller u).pending = false) (hpc : pc.inside = false) {box : Inbox.State U Task}
    {running : Bool} (hrun : running = false → s.running = false ∨ pc.pending = true)
    (hbox : box.inbox ≠ none → s.box.inbox ≠ none ∨ pc.pending = true) :
    Inv { s.setCaller u pc with box, running } := by
  refine ⟨h.mutex.frame (inside_update (hpc.trans hout.symm)), ?_⟩
  refine h.guarded.env rfl rfl (fun hs => hs.update ?_) (fun hp => hp.update ?_) ?_ ?_
  · intro why he
    exact nomatch hidle.symm.trans (congrArg CallerPc.pending he)
  · intro hp
    exact nomatch hidle.symm.trans hp
  · exact fun hr => (hrun hr).imp_right pending_update_self
  · exact fun hb => (hbox hb).imp_right pending_update_self

variable [DecidableEq Task]

/-- A producer changes the inbox only with its last access, and no other producer. -/
theorem produceStep_spec {b b' : Inbox.State U Task} {spurious : Bool}
    (h : Inbox.produceStep b u spurious = some b') :
    (b'.inbox = b.inbox ∨ b'.producer u = .idle) ∧
      ∀ v, v ≠ u → b'.producer v = b.producer v := by
  unfold Inbox.produceStep at h
  cases hpc : b.producer u with
  | idle => rw [hpc] at h; exact nomatch h
  | start task =>
    rw [hpc] at h
    obtain rfl := Option.some.inj h
    exact ⟨Or.inl rfl, fun _ hv => Function.update_of_ne hv ..⟩
  | loaded task oldHead =>
    rw [hpc] at h
    obtain rfl := Option.some.inj h
    exact ⟨Or.inl rfl, fun _ hv => Function.update_of_ne hv ..⟩
  | written task oldHead =>
    rw [hpc] at h
    dsimp only at h
    split at h
    · obtain rfl := Option.some.inj h
      exact ⟨Or.inr (Function.update_self ..), fun _ hv => Function.update_of_ne hv ..⟩
    · obtain rfl := Option.some.inj h
      exact ⟨Or.inl rfl, fun _ hv => Function.update_of_ne hv ..⟩

theorem wakeUp_spec {timedOut : Bool} (hs : step s (.wakeUp timedOut) = some s') :
    (∃ signaled, s.worker = .waiting signaled) ∧
      s' = { s with worker := .reacquire timedOut } := by
  have hs : (match s.worker with
    | .waiting _ => some { s with worker := .reacquire timedOut }
    | _ => none) = some s' := hs
  split at hs
  · next signaled hw => exact ⟨⟨signaled, hw⟩, (Option.some.inj hs).symm⟩
  · exact nomatch hs

theorem Inv.step (h : Inv s) {l : Label U Task} (hs : step s l = some s') : Inv s' := by
  cases l with
  | call u task =>
    obtain ⟨hu, hs⟩ := Option.ite_none_right_eq_some.mp hs
    obtain rfl := Option.some.inj hs
    exact h.enter (by rw [hu]; rfl) (by rw [hu]; rfl) rfl Or.inl Or.inl
  | produce u spurious =>
    obtain ⟨hu, hs⟩ := Option.ite_none_right_eq_some.mp hs
    obtain ⟨box, hbox, rfl⟩ := Option.map_eq_some_iff.mp hs
    refine h.enter (by rw [hu]; rfl) (by rw [hu]; rfl) (by split <;> rfl) Or.inl fun hne => ?_
    rcases (produceStep_spec hbox).1 with hsame | hdone
    · exact Or.inl (hsame ▸ hne)
    · exact Or.inr (by rw [if_pos hdone]; rfl)
  | relink task v =>
    obtain rfl := Option.some.inj hs
    exact ⟨h.mutex, h.guarded.env rfl rfl id id Or.inl Or.inl⟩
  | stop u =>
    obtain ⟨hu, hs⟩ := Option.ite_none_right_eq_some.mp hs
    obtain rfl := Option.some.inj hs
    refine h.enter (by rw [hu]; rfl) (by rw [hu]; rfl) (by split <;> rfl) (fun _ => ?_) Or.inl
    by_cases hr : s.running = true
    · exact Or.inr (by rw [if_pos hr]; rfl)
    · exact Or.inl (eq_false_of_ne_true hr)
  | wake u =>
    obtain ⟨hu, hs⟩ := Option.ite_none_right_eq_some.mp hs
    obtain rfl := Option.some.inj hs
    exact h.enter (by rw [hu]; rfl) (by rw [hu]; rfl) (by split <;> rfl) Or.inl Or.inl
  | unpark u => exact h.unparkStep hs
  | consume =>
    obtain ⟨hw, hs⟩ := Option.ite_none_right_eq_some.mp hs
    obtain rfl := Option.some.inj hs
    refine ⟨h.mutex, guarded_of_outside ?_ fun he => ?_⟩
    · exact congrArg WorkerPc.inside hw
    · exact nomatch hw.symm.trans he
  | park =>
    obtain ⟨⟨hw, -⟩, hs⟩ := Option.ite_none_right_eq_some.mp hs
    obtain rfl := Option.some.inj hs
    exact h.setWorker (by rw [hw]; rfl) trivial
  | worker => exact h.workerStep hs
  | wakeUp timedOut =>
    obtain ⟨⟨signaled, hw⟩, rfl⟩ := wakeUp_spec hs
    exact h.setWorker (by rw [hw]; rfl) trivial

end Callers

/-! ### What a step leaves alone -/

/-- Why the thread is in `unpark`. -/
def CallerPc.cause : CallerPc → Option Cause
  | .test why | .lock why | .clear why | .signal why | .unlock why => some why
  | .idle | .pushing => none

section Frame

variable {s s' : State U Task}

theorem workerStep_frame (hs : workerStep s = some s') :
    s'.box = s.box ∧ s'.caller = s.caller := by
  unfold workerStep at hs
  split at hs
  all_goals first
    | cases hs; done
    | cases hs; exact ⟨rfl, rfl⟩
    | obtain ⟨-, hs⟩ := Option.ite_none_right_eq_some.mp hs
      cases hs
      exact ⟨rfl, rfl⟩

variable [DecidableEq U] {u : U}

/-- A thread in `unpark` remembers why until it is out again. -/
theorem unparkStep_frame (hs : unparkStep s u = some s') :
    s'.box = s.box ∧ s.caller u ≠ .pushing ∧ ∃ pc, s'.caller = Function.update s.caller u pc ∧
      (pc.cause = none ∨ pc.cause = (s.caller u).cause) := by
  unfold unparkStep at hs
  cases hu : s.caller u with
  | idle => rw [hu] at hs; exact nomatch hs
  | pushing => rw [hu] at hs; exact nomatch hs
  | test why =>
    rw [hu] at hs
    obtain rfl := Option.some.inj hs
    refine ⟨rfl, nofun, _, rfl, ?_⟩
    by_cases hp : s.isParked = true
    · exact Or.inr (by rw [if_pos hp]; rfl)
    · exact Or.inl (by rw [if_neg hp]; rfl)
  | lock why =>
    rw [hu] at hs
    obtain ⟨-, hs⟩ := Option.ite_none_right_eq_some.mp hs
    obtain rfl := Option.some.inj hs
    exact ⟨rfl, nofun, _, rfl, Or.inr rfl⟩
  | clear why =>
    rw [hu] at hs
    obtain rfl := Option.some.inj hs
    exact ⟨rfl, nofun, _, rfl, Or.inr rfl⟩
  | signal why =>
    rw [hu] at hs
    obtain rfl := Option.some.inj hs
    exact ⟨rfl, nofun, _, rfl, Or.inr rfl⟩
  | unlock why =>
    rw [hu] at hs
    obtain rfl := Option.some.inj hs
    exact ⟨rfl, nofun, _, rfl, Or.inl rfl⟩

theorem cause_of_update {caller : U → CallerPc} {pc : CallerPc} {v : U} {why : Cause}
    (h : (Function.update caller u pc v).cause = some why)
    (hpc : pc.cause = some why → (caller u).cause = some why) :
    (caller v).cause = some why := by
  by_cases hv : v = u
  · subst hv
    rw [Function.update_self] at h
    exact hpc h
  · rwa [Function.update_of_ne hv] at h

variable [DecidableEq Task] {l : Label U Task}

/-- Only `wake_any_worker` brings threads into `unpark` for another reason than a push or a
stop. -/
theorem step_cause (hs : step s l = some s') {v : U} (hv : (s'.caller v).cause = some .wake) :
    (s.caller v).cause = some .wake ∨ ∃ u, l = .wake u := by
  cases l with
  | call u task =>
    obtain ⟨-, hs⟩ := Option.ite_none_right_eq_some.mp hs
    obtain rfl := Option.some.inj hs
    exact Or.inl (cause_of_update hv nofun)
  | produce u spurious =>
    obtain ⟨-, hs⟩ := Option.ite_none_right_eq_some.mp hs
    obtain ⟨box, hbox, rfl⟩ := Option.map_eq_some_iff.mp hs
    refine Or.inl (cause_of_update hv ?_)
    split <;> exact nofun
  | relink task w =>
    obtain rfl := Option.some.inj hs
    exact Or.inl hv
  | consume =>
    obtain ⟨-, hs⟩ := Option.ite_none_right_eq_some.mp hs
    obtain rfl := Option.some.inj hs
    exact Or.inl hv
  | stop u =>
    obtain ⟨-, hs⟩ := Option.ite_none_right_eq_some.mp hs
    obtain rfl := Option.some.inj hs
    refine Or.inl (cause_of_update hv ?_)
    split <;> exact nofun
  | wake u => exact Or.inr ⟨u, rfl⟩
  | unpark u =>
    obtain ⟨-, -, pc, hcaller, hpc⟩ := unparkStep_frame hs
    rw [hcaller] at hv
    refine Or.inl (cause_of_update hv fun hwake => ?_)
    rcases hpc with hpc | hpc
    · exact nomatch hpc.symm.trans hwake
    · exact hpc.symm.trans hwake
  | park =>
    obtain ⟨-, hs⟩ := Option.ite_none_right_eq_some.mp hs
    obtain rfl := Option.some.inj hs
    exact Or.inl hv
  | worker => exact Or.inl ((workerStep_frame hs).2 ▸ hv)
  | wakeUp timedOut =>
    obtain ⟨-, rfl⟩ := wakeUp_spec hs
    exact Or.inl hv

end Frame

/-! ### The inbox -/

section Box

variable {s s' : State U Task} {next : Task → Option Task}

/-- The tasks that are pushed, and those whose links others write, are not on their way through
the inbox. -/
def Disciplined (s : State U Task) : Label U Task → Prop
  | .call _ task | .relink task _ => s.box.busy task = false
  | _ => True

variable [DecidableEq Task]

theorem consumeStep_producer (b : Inbox.State U Task) :
    (Inbox.consumeStep b).producer = b.producer := by
  unfold Inbox.consumeStep
  split
  case h_1 => split <;> rfl
  all_goals rfl

variable [DecidableEq U] {l : Label U Task}

/-- The inbox has taken steps of `Inbox`, and only threads in `push_inbox` are in the middle of
one of its pushes. -/
structure BoxRun (next : Task → Option Task) (s : State U Task) : Prop where
  run : ∃ ls, StepSystem.run Inbox.step (Inbox.init U next) ls = some s.box
  idle : ∀ u, s.caller u ≠ .pushing → s.box.producer u = .idle

theorem BoxRun.same (h : BoxRun next s) (hbox : s'.box = s.box)
    (hcaller : ∀ u, s'.caller u ≠ .pushing → s.caller u ≠ .pushing) : BoxRun next s' where
  run := hbox ▸ h.run
  idle := fun u hu => hbox ▸ h.idle u (hcaller u hu)

theorem BoxRun.run_step (h : BoxRun next s) {l : Inbox.Label U Task} {box : Inbox.State U Task}
    (hl : Inbox.step s.box l = some box) :
    ∃ ls, StepSystem.run Inbox.step (Inbox.init U next) ls = some box := by
  obtain ⟨ls, hls⟩ := h.run
  exact ⟨ls ++ [l], StepSystem.run_concat.mpr ⟨s.box, hls, hl⟩⟩

omit [DecidableEq Task] in
theorem ne_pushing_of_update {caller : U → CallerPc} {u v : U} {pc : CallerPc}
    (hu : caller u ≠ .pushing) (hv : Function.update caller u pc v ≠ .pushing) :
    caller v ≠ .pushing := by
  by_cases he : v = u
  · exact he ▸ hu
  · rwa [Function.update_of_ne he] at hv

theorem BoxRun.call (h : BoxRun next s) {u : U} {task : Task} (hd : s.box.busy task = false)
    (hs : step s (.call u task) = some s') : BoxRun next s' := by
  obtain ⟨hu, hs⟩ := Option.ite_none_right_eq_some.mp hs
  obtain rfl := Option.some.inj hs
  have hfree : s.box.producer u = .idle := h.idle u (by rw [hu]; nofun)
  refine ⟨h.run_step (l := .call u task) (if_pos ⟨hfree, hd⟩), fun v hv => ?_⟩
  have hv : Function.update s.caller u .pushing v ≠ .pushing := hv
  by_cases he : v = u
  · subst he
    exact absurd (Function.update_self ..) hv
  · rw [Function.update_of_ne he] at hv
    exact (Function.update_of_ne he ..).trans (h.idle v hv)

theorem BoxRun.produce (h : BoxRun next s) {u : U} {spurious : Bool}
    (hs : step s (.produce u spurious) = some s') : BoxRun next s' := by
  obtain ⟨-, hs⟩ := Option.ite_none_right_eq_some.mp hs
  obtain ⟨box, hbox, rfl⟩ := Option.map_eq_some_iff.mp hs
  refine ⟨h.run_step (l := .produce u spurious) hbox, fun v hv => ?_⟩
  have hv : Function.update s.caller u
      (if box.producer u = .idle then .test .push else .pushing) v ≠ .pushing := hv
  by_cases he : v = u
  · subst he
    rw [Function.update_self] at hv
    by_contra hbusy
    exact hv (if_neg hbusy)
  · rw [Function.update_of_ne he] at hv
    exact ((produceStep_spec hbox).2 v he).trans (h.idle v hv)

theorem BoxRun.step (h : BoxRun next s) (hd : Disciplined s l) (hs : step s l = some s') :
    BoxRun next s' := by
  cases l with
  | call u task => exact h.call hd hs
  | produce u spurious => exact h.produce hs
  | relink task v =>
    obtain rfl := Option.some.inj hs
    exact ⟨h.run_step (l := .relink task v) (if_pos hd), h.idle⟩
  | consume =>
    obtain ⟨-, hs⟩ := Option.ite_none_right_eq_some.mp hs
    obtain rfl := Option.some.inj hs
    refine ⟨h.run_step (l := .consume) rfl, fun u hu => ?_⟩
    exact (congrFun (consumeStep_producer s.box) u).trans (h.idle u hu)
  | stop u =>
    obtain ⟨hu, hs⟩ := Option.ite_none_right_eq_some.mp hs
    obtain rfl := Option.some.inj hs
    exact h.same rfl fun _ => ne_pushing_of_update (by rw [hu]; nofun)
  | wake u =>
    obtain ⟨hu, hs⟩ := Option.ite_none_right_eq_some.mp hs
    obtain rfl := Option.some.inj hs
    exact h.same rfl fun _ => ne_pushing_of_update (by rw [hu]; nofun)
  | unpark u =>
    obtain ⟨hbox, hu, pc, hcaller, -⟩ := unparkStep_frame hs
    exact h.same hbox fun _ hv => ne_pushing_of_update hu (hcaller ▸ hv)
  | park =>
    obtain ⟨-, hs⟩ := Option.ite_none_right_eq_some.mp hs
    obtain rfl := Option.some.inj hs
    exact h.same rfl fun _ => id
  | worker =>
    obtain ⟨hbox, hcaller⟩ := workerStep_frame hs
    exact h.same hbox fun _ hu => hcaller ▸ hu
  | wakeUp timedOut =>
    obtain ⟨-, rfl⟩ := wakeUp_spec hs
    exact h.same rfl fun _ => id

/-- **The inbox takes the steps of `Inbox`**, as long as tasks are not pushed twice: all that holds
of its runs holds here. -/
theorem box_run {running : Bool} {ls : List (Label U Task)}
    (hd : StepSystem.Meets step Disciplined (init next running) ls)
    (hrun : StepSystem.run step (init next running) ls = some s) :
    ∃ ls', StepSystem.run Inbox.step (Inbox.init U next) ls' = some s.box := by
  have hinit : BoxRun next (init next running : State U Task) := ⟨⟨[], rfl⟩, fun _ _ => rfl⟩
  exact (StepSystem.run_invariant_of_meets (fun _ _ _ h hd hs => h.step hd hs) hinit hd hrun).run

end Box

/-! ### No wake-up is lost -/

section Wakeup

variable [DecidableEq U] [DecidableEq Task] {s m : State U Task} {u : U} {why : Cause}

/-- Thread `u` is in `unpark` and has seen, or would now see, that `is_parked` is set. -/
def Wakes (s : State U Task) (u : U) (why : Cause) : Prop :=
  (s.caller u = .test why ∧ s.isParked = true) ∨ s.caller u = .lock why ∨
    s.caller u = .clear why ∨ s.caller u = .signal why

omit [DecidableEq U] [DecidableEq Task] in
theorem Inv.wakes (h : Inv s) (hw : s.worker = .waiting false) (hdue : s.Due) :
    ∃ u why, Wakes s u why := by
  have hg := h.guarded
  unfold Guarded at hg
  rw [hw] at hg
  obtain ⟨hparked, hpending⟩ := hg
  obtain ⟨u, hu⟩ := hpending hdue
  cases hpc : s.caller u with
  | idle => rw [hpc] at hu; exact nomatch hu
  | pushing => rw [hpc] at hu; exact nomatch hu
  | unlock why => rw [hpc] at hu; exact nomatch hu
  | test why =>
    -- if its test is going to fail, then the thread that cleared `is_parked` is at its signal
    rcases hparked with hset | ⟨v, why', hv⟩
    · exact ⟨u, why, Or.inl ⟨hpc, hset⟩⟩
    · exact ⟨v, why', Or.inr (Or.inr (Or.inr hv))⟩
  | lock why => exact ⟨u, why, Or.inr (Or.inl hpc)⟩
  | clear why => exact ⟨u, why, Or.inr (Or.inr (Or.inl hpc))⟩
  | signal why => exact ⟨u, why, Or.inr (Or.inr (Or.inr hpc))⟩

/-- Steps of threads in `unpark` alone bring the worker its signal. -/
def GetsSignal (s : State U Task) : Prop :=
  ∃ us : List U, ∃ s', StepSystem.run step s (us.map .unpark) = some s' ∧
    s'.worker = .waiting true

theorem getsSignal_of_step (hs : step s (.unpark u) = some m) (h : GetsSignal m) :
    GetsSignal s := by
  obtain ⟨us, s', hrun, hw⟩ := h
  exact ⟨u :: us, s', StepSystem.run_cons.mpr ⟨m, hs, hrun⟩, hw⟩

theorem getsSignal_of_signal (hw : s.worker = .waiting false) (hu : s.caller u = .signal why) :
    GetsSignal s := by
  refine ⟨[u], { s.setCaller u (.unlock why) with worker := s.worker.notify }, ?_, ?_⟩
  · simp [StepSystem.run, step, unparkStep, hu]
  · exact congrArg WorkerPc.notify hw

theorem getsSignal_of_clear (hw : s.worker = .waiting false) (hu : s.caller u = .clear why) :
    GetsSignal s := by
  have hs : step s (.unpark u) = some { s.setCaller u (.signal why) with isParked := false } := by
    simp only [step, unparkStep, hu]
  have hu' : Function.update s.caller u (.signal why) u = .signal why := Function.update_self ..
  exact getsSignal_of_step hs (getsSignal_of_signal hw hu')

theorem getsSignal_of_lock (hw : s.worker = .waiting false) (hfree : s.parkMu = none)
    (hu : s.caller u = .lock why) : GetsSignal s := by
  have hs : step s (.unpark u) =
      some { s.setCaller u (.clear why) with parkMu := some (.caller u) } := by
    simp only [step, unparkStep, hu, if_pos hfree]
  have hu' : Function.update s.caller u (.clear why) u = .clear why := Function.update_self ..
  exact getsSignal_of_step hs (getsSignal_of_clear hw hu')

theorem getsSignal_of_test (hw : s.worker = .waiting false) (hfree : s.parkMu = none)
    (hu : s.caller u = .test why) (hp : s.isParked = true) : GetsSignal s := by
  have hs : step s (.unpark u) = some (s.setCaller u (.lock why)) := by
    simp only [step, unparkStep, hu, if_pos hp]
  have hu' : Function.update s.caller u (.lock why) u = .lock why := Function.update_self ..
  exact getsSignal_of_step hs (getsSignal_of_lock hw hfree hu')

theorem getsSignal_of_free (hw : s.worker = .waiting false) (hfree : s.parkMu = none)
    (hu : Wakes s u why) : GetsSignal s := by
  rcases hu with ⟨hu, hp⟩ | hu | hu | hu
  · exact getsSignal_of_test hw hfree hu hp
  · exact getsSignal_of_lock hw hfree hu
  · exact getsSignal_of_clear hw hu
  · exact getsSignal_of_signal hw hu

omit [DecidableEq U] [DecidableEq Task] in
theorem Wakes.frame (h : Wakes s u why) (hu : m.caller u = s.caller u)
    (hp : m.isParked = s.isParked) : Wakes m u why := by
  unfold Wakes
  rw [hu, hp]
  exact h

/-- A thread that leaves `unpark` makes way for the next one. -/
theorem getsSignal_of_unlock {v : U} {why' : Cause} (hw : s.worker = .waiting false)
    (hv : s.caller v = .unlock why') (hne : u ≠ v) (hu : Wakes s u why) : GetsSignal s := by
  have hs : step s (.unpark v) = some { s.setCaller v .idle with parkMu := none } := by
    simp only [step, unparkStep, hv]
  have hu' := hu.frame (m := { s.setCaller v .idle with parkMu := none })
    (Function.update_of_ne hne ..) rfl
  exact getsSignal_of_step hs (getsSignal_of_free hw rfl hu')

/-- **The signal comes**: the mutex is free, or the thread that has it is about to signal or to
release it. -/
theorem Inv.getsSignal (h : Inv s) (hw : s.worker = .waiting false) (hu : Wakes s u why) :
    GetsSignal s := by
  cases howner : s.parkMu with
  | none => exact getsSignal_of_free hw howner hu
  | some t =>
    have hin : inside s.worker s.caller t = true := (h.mutex t).mpr howner
    cases t with
    | worker =>
      have hout : s.worker.inside = false := congrArg WorkerPc.inside hw
      exact nomatch hout.symm.trans hin
    | caller v =>
      have hin : (s.caller v).inside = true := hin
      cases hv : s.caller v with
      | idle => rw [hv] at hin; exact nomatch hin
      | pushing => rw [hv] at hin; exact nomatch hin
      | test why' => rw [hv] at hin; exact nomatch hin
      | lock why' => rw [hv] at hin; exact nomatch hin
      | clear why' => exact getsSignal_of_clear hw hv
      | signal why' => exact getsSignal_of_signal hw hv
      | unlock why' =>
        -- its signal has gone by before the worker waited; it only has to release the mutex
        have hne : u ≠ v := by
          rintro rfl
          rcases hu with ⟨hu, -⟩ | hu | hu | hu <;> exact nomatch hv.symm.trans hu
        exact getsSignal_of_unlock hw hv hne hu

theorem wake_mem {next : Task → Option Task} {running : Bool} {ls : List (Label U Task)}
    (hrun : StepSystem.run step (init next running) ls = some s)
    (hu : (s.caller u).cause = some .wake) : ∃ v, .wake v ∈ ls := by
  refine StepSystem.run_induction (R := fun ls s => ∀ u : U,
    (s.caller u).cause = some .wake → ∃ v, .wake v ∈ ls) ?_ ?_ hrun u hu
  · exact nofun
  · intro ls s l s' ih hs u hu
    rcases step_cause hs hu with hold | ⟨v, rfl⟩
    · obtain ⟨v, hv⟩ := ih u hold
      exact ⟨v, List.mem_append_left _ hv⟩
    · exact ⟨v, List.mem_append_right _ List.mem_cons_self⟩

omit [DecidableEq U] [DecidableEq Task] in
theorem Wakes.cause (h : Wakes s u why) : (s.caller u).cause = some why := by
  rcases h with ⟨h, -⟩ | h | h | h <;> exact congrArg CallerPc.cause h

/-- In terms of what the inbox is for: while a task that was pushed has not been taken, a blocked
worker has its signal or gets one. -/
theorem pushed_task_gets_signal {next : Task → Option Task} {running : Bool}
    {ls : List (Label U Task)} (hd : StepSystem.Meets step Disciplined (init next running) ls)
    (hrun : StepSystem.run step (init next running) ls = some s) {signaled : Bool}
    (hblocked : s.worker = .waiting signaled)
    (htask : (Inbox.Spec.replay s.box.events).stack ≠ []) : GetsSignal s := by
  obtain ⟨ls', hbox⟩ := box_run hd hrun
  obtain ⟨rest, hinbox⟩ := Inbox.inv_run hbox
  have hinv : Inv s :=
    StepSystem.run_invariant (fun _ _ _ h hs => h.step hs) (inv_init next running) hrun
  cases signaled with
  | true => exact ⟨[], s, rfl, hblocked⟩
  | false =>
    have hdue : s.Due := Or.inr (mt hinbox.stack.none_iff.mp htask)
    obtain ⟨u, why, hu⟩ := hinv.wakes hblocked hdue
    exact hinv.getsSignal hblocked hu

/-- **No wake-up is lost.**  In every interleaving of the worker with any threads that push, stop
or wake: if the worker is blocked in its wait without a signal while the executor has been stopped
or its inbox is not empty, then some thread is in `unpark` and has seen, or would now see,
`is_parked` set; it is there for its push or for `Stop` unless somebody called `wake_any_worker`;
and steps of threads in `unpark` bring the worker its signal. -/
theorem no_lost_wakeup (next : Task → Option Task) (running : Bool) (ls : List (Label U Task))
    (s : State U Task) (hrun : StepSystem.run step (init next running) ls = some s)
    (hblocked : s.worker = .waiting false) (hdue : s.running = false ∨ s.box.inbox ≠ none) :
    (∃ u why, Wakes s u why ∧ (why = .wake → ∃ v, .wake v ∈ ls)) ∧ GetsSignal s := by
  have hinv : Inv s :=
    StepSystem.run_invariant (fun _ _ _ h hs => h.step hs) (inv_init next running) hrun
  obtain ⟨u, why, hu⟩ := hinv.wakes hblocked hdue
  refine ⟨⟨u, why, hu, ?_⟩, hinv.getsSignal hblocked hu⟩
  rintro rfl
  exact wake_mem hrun hu.cause

/-- The worker tests its inbox and waits; a push comes, and its thread has not yet looked at
`is_parked`. -/
def latePush : List (Label Bool ℕ) :=
  [.park, .worker, .worker, .worker, .worker, .worker, .call true 7, .worker, .produce true false,
    .worker, .produce true false, .produce true false]

theorem no_lost_wakeup_late_push :
    ∃ s, StepSystem.run step (init (fun _ => none) true) latePush = some s ∧
      s.worker = .waiting false ∧ s.box.inbox = some 7 ∧ (∃ u why, Wakes s u why) ∧
      GetsSignal s := by
  have hrun : ∃ s, StepSystem.run step (init (fun _ => none) true) latePush = some s ∧
      (s.worker = .waiting false ∧ s.box.inbox = some 7) :=
    StepSystem.exists_of_run_any (by decide +kernel)
  obtain ⟨s, hs, hw, hbox⟩ := hrun
  have hdue : s.running = false ∨ s.box.inbox ≠ none := Or.inr (by rw [hbox]; nofun)
  obtain ⟨⟨u, why, hu, -⟩, hsignal⟩ := no_lost_wakeup _ true latePush s hs hw hdue
  exact ⟨s, hs, hw, hbox, ⟨u, why, hu⟩, hsignal⟩

end Wakeup

end Parking
