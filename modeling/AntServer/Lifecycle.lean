/-
`Scheduler::Start` and `Scheduler::Stop`, one call of each, on two threads.

`Start` sets `running_`, starts the timer keeper and the executor, emplaces the
IO threads and joins them; `Stop` takes `running_` back, stops the timer keeper
and the executor and joins the IO threads too.  The calls are interleaved
statement by statement, with the threads they start.

* `State`, `step` — the flags, the thread objects and the two program counters;
* `orderly` — what a step of the two calls must find in order to be harmless;
* `Phase` — the life of a thread object, with the number of calls inside its `join()`;
* `Covers` — a loop of joins still has every joinable thread of a kind before it;
* `joined_once` — **in an orderly run every thread is joined once**.
-/
import AntServer.StepSystem

namespace Lifecycle

/-! ### Threads and thread objects -/

inductive Kind
  | timer
  | worker
  | io
deriving DecidableEq, Repr

inductive ThreadId
  | timer
  | worker (i : ℕ)
  | io (j : ℕ)
deriving DecidableEq, Repr

def ThreadId.kind : ThreadId → Kind
  | .timer => .timer
  | .worker _ => .worker
  | .io _ => .io

/-- A `std::thread` and the thread it stands for.  `joins` counts the calls of `join()`;
`joinable()` stays true until such a call returns. -/
structure Thread where
  created : Bool := false
  alive : Bool := false
  joinable : Bool := false
  joins : ℕ := 0
deriving DecidableEq, Repr

def Thread.spawned : Thread := ⟨true, true, true, 0⟩

def Thread.callJoin (h : Thread) : Thread := { h with joins := h.joins + 1 }

def Thread.endJoin (h : Thread) : Thread := { h with joinable := false }

def Thread.exit (h : Thread) : Thread := { h with alive := false }

abbrev Objects := ThreadId → Thread

def Objects.spawn (T : Objects) (t : ThreadId) : Objects := Function.update T t .spawned

/-! ### `for (auto& t : …) if (t.joinable()) t.join();` -/

/-- The loop is about to test the first thread of `rest`, or it is inside `t.join()`. -/
inductive Loop
  | test (rest : List ThreadId)
  | join (t : ThreadId) (rest : List ThreadId)
deriving DecidableEq, Repr

/-- One statement of the loop; no loop is left when it is over. -/
def Loop.step (T : Objects) : Loop → Option (Objects × Option Loop)
  | .test [] => some (T, none)
  | .test (t :: rest) =>
    if (T t).joinable then some (Function.update T t (T t).callJoin, some (.join t rest))
    else some (T, some (.test rest))
  | .join t rest =>
    -- what a second `join()` of one thread does is undefined: here it returns as the first does
    if (T t).alive then none else some (Function.update T t (T t).endJoin, some (.test rest))

/-- The threads that the loop has not passed yet. -/
def Loop.todo : Loop → List ThreadId
  | .test rest => rest
  | .join t rest => t :: rest

/-- The number of calls of `t.join()` that the loop is inside of. -/
def Loop.joins : Loop → ThreadId → ℕ
  | .test _, _ => 0
  | .join u _, t => if t = u then 1 else 0

/-! ### The two calls -/

inductive StartPc
  | storeRunning
  | timerExchange             -- TimerKeeper::Start
  | timerAssign
  | execStore                 -- WorkStealingExecutor::Start
  | execEmplace (i : ℕ)
  | ioEmplace (j : ℕ)
  | ioLoop (l : Loop)
  | returned
deriving DecidableEq, Repr

inductive StopPc
  | exchange
  | wake (j : ℕ)
  | timerExchange             -- TimerKeeper::Stop
  | timerSignal
  | timerLoop (l : Loop)
  | execExchange              -- WorkStealingExecutor::Stop
  | unpark (i : ℕ)
  | workerLoop (l : Loop)
  | clearThreads
  | ioLoop (l : Loop)
  | clearIoThreads
  | returned (observed : Bool)
deriving DecidableEq, Repr

def StartPc.joins : StartPc → ThreadId → ℕ
  | .ioLoop l, t => l.joins t
  | _, _ => 0

def StopPc.joins : StopPc → ThreadId → ℕ
  | .timerLoop l, t | .workerLoop l, t | .ioLoop l, t => l.joins t
  | _, _ => 0

structure State where
  running : Bool
  timerRunning : Bool
  execRunning : Bool
  object : Objects
  threads : List ThreadId       -- the executor's `threads_`
  ioThreads : List ThreadId     -- `io_threads_`
  start : StartPc
  stop : StopPc
  terminated : Bool             -- `std::terminate` was called

def init : State :=
  { running := false, timerRunning := false, execRunning := false, object := fun _ => {},
    threads := [], ioThreads := [], start := .storeRunning, stop := .exchange,
    terminated := false }

section Calls

variable (n m : ℕ)

/-- The next statement of `Start`, with `n` workers and `m` IO threads. -/
def startStep (s : State) : Option State :=
  match s.start with
  | .storeRunning => some { s with running := true, start := .timerExchange }
  | .timerExchange =>
    some { s with
      timerRunning := true
      start := if s.timerRunning then .execStore else .timerAssign }
  | .timerAssign =>
    -- the assignment to a joinable `thread_` would terminate
    if (s.object .timer).joinable then some { s with terminated := true }
    else some { s with object := s.object.spawn .timer, start := .execStore }
  | .execStore => some { s with execRunning := true, start := .execEmplace 0 }
  | .execEmplace i =>
    if i < n then
      some { s with
        object := s.object.spawn (.worker i)
        threads := s.threads ++ [.worker i]
        start := .execEmplace (i + 1) }
    else some { s with start := .ioEmplace 0 }
  | .ioEmplace j =>
    if j < m then
      some { s with
        object := s.object.spawn (.io j)
        ioThreads := s.ioThreads ++ [.io j]
        start := .ioEmplace (j + 1) }
    else some { s with start := .ioLoop (.test s.ioThreads) }
  | .ioLoop l =>
    (l.step s.object).map fun r =>
      { s with object := r.1, start := r.2.elim .returned .ioLoop }
  | .returned => none

/-- The destructors of the threads in `ts` may run: none of them is joinable. -/
def clearable (s : State) (ts : List ThreadId) : Bool :=
  ts.all fun t => !(s.object t).joinable

/-- The next statement of `Stop`.  A range `for` fixes its range when it is entered. -/
def stopStep (s : State) : Option State :=
  match s.stop with
  | .exchange =>
    some { s with running := false, stop := if s.running then .wake 0 else .returned false }
  | .wake j => some { s with stop := if j < m then .wake (j + 1) else .timerExchange }
  | .timerExchange =>
    some { s with
      timerRunning := false
      stop := if s.timerRunning then .timerSignal else .execExchange }
  | .timerSignal => some { s with stop := .timerLoop (.test [.timer]) }
  | .timerLoop l =>
    (l.step s.object).map fun r =>
      { s with object := r.1, stop := r.2.elim .execExchange .timerLoop }
  | .execExchange =>
    some { s with
      execRunning := false
      stop := if s.execRunning then .unpark 0 else .ioLoop (.test s.ioThreads) }
  | .unpark i =>
    some { s with stop := if i < n then .unpark (i + 1) else .workerLoop (.test s.threads) }
  | .workerLoop l =>
    (l.step s.object).map fun r =>
      { s with object := r.1, stop := r.2.elim .clearThreads .workerLoop }
  | .clearThreads =>
    if clearable s s.threads then
      some { s with threads := [], stop := .ioLoop (.test s.ioThreads) }
    else some { s with terminated := true }
  | .ioLoop l =>
    (l.step s.object).map fun r =>
      { s with object := r.1, stop := r.2.elim .clearIoThreads .ioLoop }
  | .clearIoThreads =>
    if clearable s s.ioThreads then some { s with ioThreads := [], stop := .returned true }
    else some { s with terminated := true }
  | .returned _ => none

/-- `TimerKeeper::Run` and `WorkerLoop` go on while their flag is set; `IOLoop` also ends on
an error of the ring. -/
def mayExit (s : State) : ThreadId → Bool
  | .timer => !s.timerRunning
  | .worker _ => !s.execRunning
  | .io _ => true

inductive Label
  | start
  | stop
  | exit (t : ThreadId)
deriving DecidableEq, Repr

def step (s : State) (l : Label) : Option State :=
  if s.terminated then none
  else match l with
    | .start => startStep n m s
    | .stop => stopStep n m s
    | .exit t =>
      if (s.object t).alive && mayExit s t then
        some { s with object := Function.update s.object t (s.object t).exit }
      else none

/-- Once both calls have returned, where `Stop` has observed `running_`: no worker and no
timer thread runs, and every thread that was created was joined once. -/
def Settled (s : State) : Prop :=
  s.start = .returned → s.stop = .returned true →
    (∀ t, t.kind ≠ .io → (s.object t).alive = false) ∧
    ∀ t, (s.object t).created = true → (s.object t).joins = 1

/-- What a step has to find.  `Stop` finds the timer keeper running and its thread assigned,
the executor running and its `n` threads emplaced; and no call tests `joinable()` of a thread
while the other is inside its `join()`. -/
def orderly (s : State) : Label → Bool
  | .start =>
    match s.start with
    | .ioLoop (.test (t :: _)) => s.stop.joins t == 0
    | _ => true
  | .stop =>
    match s.stop with
    | .timerExchange => s.timerRunning
    | .timerLoop (.test (t :: _)) => (s.object t).created && s.start.joins t == 0
    | .execExchange => s.execRunning
    | .unpark i => i < n || (List.range n).all fun k => (s.object (.worker k)).created
    | .workerLoop (.test (t :: _)) | .ioLoop (.test (t :: _)) => s.start.joins t == 0
    | _ => true
  | .exit _ => true

end Calls

/-! ### The life of a thread object -/

/-- What a thread object looks like, and how many calls are inside its `join()`. -/
inductive Phase : Thread → ℕ → Prop
  | absent : Phase {} 0
  | idle (alive : Bool) : Phase ⟨true, alive, true, 0⟩ 0
  | joining (alive : Bool) : Phase ⟨true, alive, true, 1⟩ 1
  | joined : Phase ⟨true, false, false, 1⟩ 0

theorem Phase.spawned {h : Thread} {k : ℕ} (hp : Phase h k) (hc : h.created = false) :
    Phase .spawned k := by
  cases hp with
  | absent => exact .idle true
  | idle => cases hc
  | joining => cases hc
  | joined => cases hc

theorem Phase.exit {h : Thread} {k : ℕ} (hp : Phase h k) : Phase h.exit k := by
  cases hp with
  | absent => exact .absent
  | idle => exact .idle false
  | joining => exact .joining false
  | joined => exact .joined

theorem Phase.callJoin {h : Thread} (hp : Phase h 0) (hj : h.joinable = true) :
    Phase h.callJoin 1 := by
  cases hp with
  | absent => cases hj
  | idle alive => exact .joining alive
  | joined => cases hj

/-- The join that returns was the only one. -/
theorem Phase.endJoin {h : Thread} {k : ℕ} (hp : Phase h (k + 1)) (ha : h.alive = false) :
    Phase h.endJoin k := by
  cases hp with
  | joining alive =>
    obtain rfl : alive = false := ha
    exact .joined

theorem Phase.settled {h : Thread} {k : ℕ} (hp : Phase h k) (hj : h.joinable = false) :
    h.alive = false ∧ (h.created = true → h.joins = 1) := by
  cases hp with
  | absent => exact ⟨rfl, nofun⟩
  | idle => cases hj
  | joining => cases hj
  | joined => exact ⟨rfl, fun _ => rfl⟩

/-! ### Which threads are still before a loop -/

/-- Every joinable thread of the kind `k` is in `L`. -/
def Covers (k : Kind) (T : Objects) (L : List ThreadId) : Prop :=
  ∀ t, t.kind = k → (T t).joinable = true → t ∈ L

/-- A step that starts no thread: objects stay, and none becomes joinable. -/
structure Calms (T T' : Objects) : Prop where
  created : ∀ t, (T t).created = true → (T' t).created = true
  unborn : ∀ t, (T t).created = false → (T' t).created = false
  joinable : ∀ t, (T' t).joinable = true → (T t).joinable = true

theorem Calms.refl (T : Objects) : Calms T T := ⟨fun _ h => h, fun _ h => h, fun _ h => h⟩

theorem Calms.update {T : Objects} {t : ThreadId} {h : Thread}
    (hc : h.created = (T t).created) (hj : h.joinable = true → (T t).joinable = true) :
    Calms T (Function.update T t h) := by
  refine ⟨?_, ?_, ?_⟩ <;> intro u hu <;> by_cases heq : u = t
  · subst heq
    rw [Function.update_self, hc]
    exact hu
  · rwa [Function.update_of_ne heq]
  · subst heq
    rw [Function.update_self, hc]
    exact hu
  · rwa [Function.update_of_ne heq]
  · subst heq
    rw [Function.update_self] at hu
    exact hj hu
  · rwa [Function.update_of_ne heq] at hu

theorem Covers.calms {k : Kind} {T T' : Objects} {L : List ThreadId} (h : Covers k T L)
    (hT : Calms T T') : Covers k T' L :=
  fun t hk hj => h t hk (hT.joinable t hj)

theorem Covers.mono {k : Kind} {T : Objects} {L L' : List ThreadId} (h : Covers k T L)
    (hL : L ⊆ L') : Covers k T L' :=
  fun t hk hj => hL (h t hk hj)

theorem Covers.spawn {k : Kind} {T : Objects} {L : List ThreadId} {u : ThreadId}
    (h : Covers k T L) (hu : u.kind = k → u ∈ L) : Covers k (T.spawn u) L := by
  intro t hk hj
  by_cases heq : t = u
  · subst heq
    exact hu hk
  · rw [Objects.spawn, Function.update_of_ne heq] at hj
    exact h t hk hj

/-- A thread that is not joinable is dropped. -/
theorem Covers.tail {k : Kind} {T : Objects} {L : List ThreadId} {t : ThreadId}
    (h : Covers k T (t :: L)) (ht : (T t).joinable = false) : Covers k T L := by
  intro u hk hj
  rcases List.mem_cons.mp (h u hk hj) with rfl | hu
  · rw [ht] at hj
    cases hj
  · exact hu

theorem Covers.clear {k : Kind} {s : State} {L : List ThreadId} (h : Covers k s.object L)
    (hL : clearable s L = true) : Covers k s.object [] := by
  intro t hk hj
  have ht := List.all_eq_true.mp hL t (h t hk hj)
  rw [hj] at ht
  cases ht

/-! ### One statement of a loop -/

/-- What is left of a loop after a statement. -/
def todo (o : Option Loop) : List ThreadId := o.elim [] Loop.todo

def joins (o : Option Loop) (t : ThreadId) : ℕ := o.elim 0 fun l => l.joins t

namespace Loop

variable {T T' : Objects} {l : Loop} {o : Option Loop}

theorem step_cases (hs : l.step T = some (T', o)) :
    (l = .test [] ∧ T' = T ∧ o = none) ∨
    ∃ t rest,
      (l = .test (t :: rest) ∧ (T t).joinable = true ∧
        T' = Function.update T t (T t).callJoin ∧ o = some (.join t rest)) ∨
      (l = .test (t :: rest) ∧ (T t).joinable = false ∧ T' = T ∧ o = some (.test rest)) ∨
      (l = .join t rest ∧ (T t).alive = false ∧
        T' = Function.update T t (T t).endJoin ∧ o = some (.test rest)) := by
  cases l with
  | test ts =>
    cases ts with
    | nil =>
      obtain ⟨rfl, rfl⟩ := Prod.mk.inj (Option.some.inj hs)
      exact .inl ⟨rfl, rfl, rfl⟩
    | cons t rest =>
      rw [Loop.step] at hs
      split at hs
      · rename_i hj
        obtain ⟨rfl, rfl⟩ := Prod.mk.inj (Option.some.inj hs)
        exact .inr ⟨t, rest, .inl ⟨rfl, hj, rfl, rfl⟩⟩
      · rename_i hj
        obtain ⟨rfl, rfl⟩ := Prod.mk.inj (Option.some.inj hs)
        exact .inr ⟨t, rest, .inr (.inl ⟨rfl, Bool.eq_false_of_not_eq_true hj, rfl, rfl⟩)⟩
  | join t rest =>
    obtain ⟨ha, hs⟩ := Option.ite_none_left_eq_some.mp hs
    obtain ⟨rfl, rfl⟩ := Prod.mk.inj (Option.some.inj hs)
    exact .inr ⟨t, rest, .inr (.inr ⟨rfl, Bool.eq_false_of_not_eq_true ha, rfl, rfl⟩)⟩

theorem step_calms (hs : l.step T = some (T', o)) : Calms T T' := by
  obtain ⟨-, rfl, -⟩ | ⟨t, rest, ⟨-, -, rfl, -⟩ | ⟨-, -, rfl, -⟩ | ⟨-, -, rfl, -⟩⟩ := step_cases hs
  · exact .refl T'
  · exact .update rfl fun h => h
  · exact .refl T'
  · exact .update rfl nofun

/-- The loop passes only threads that are not joinable any more. -/
theorem step_covers {k : Kind} (hs : l.step T = some (T', o)) (h : Covers k T l.todo) :
    Covers k T' (Lifecycle.todo o) := by
  have hT := h.calms (step_calms hs)
  obtain ⟨rfl, -, rfl⟩ | ⟨t, rest, ⟨rfl, -, -, rfl⟩ | ⟨rfl, hj, rfl, rfl⟩ | ⟨rfl, -, rfl, rfl⟩⟩ :=
    step_cases hs
  · exact hT
  · exact hT
  · exact hT.tail hj
  · refine hT.tail ?_
    rw [Function.update_self]
    rfl

/-- If the other call, which is inside `b t` calls of `t.join()`, is not inside a `join()` of
the thread that is tested, the phases go on. -/
theorem step_phase {b : ThreadId → ℕ} (hs : l.step T = some (T', o))
    (hb : ∀ t rest, l = .test (t :: rest) → b t = 0)
    (hT : ∀ t, Phase (T t) (b t + l.joins t)) :
    ∀ t, Phase (T' t) (b t + Lifecycle.joins o t) := by
  intro u
  obtain ⟨rfl, rfl, rfl⟩ |
    ⟨t, rest, ⟨rfl, hj, rfl, rfl⟩ | ⟨rfl, -, rfl, rfl⟩ | ⟨rfl, ha, rfl, rfl⟩⟩ := step_cases hs
  · exact hT u
  · show Phase _ (b u + if u = t then 1 else 0)
    have hu : Phase (T u) (b u + 0) := hT u
    by_cases heq : u = t
    · subst heq
      rw [hb u rest rfl] at hu ⊢
      rw [Function.update_self, if_pos rfl]
      exact hu.callJoin hj
    · rw [Function.update_of_ne heq, if_neg heq]
      exact hu
  · exact hT u
  · show Phase _ (b u + 0)
    have hu : Phase (T u) (b u + if u = t then 1 else 0) := hT u
    by_cases heq : u = t
    · subst heq
      rw [if_pos rfl] at hu
      rw [Function.update_self]
      exact hu.endJoin ha
    · rw [if_neg heq] at hu
      rwa [Function.update_of_ne heq]

end Loop

/-! ### The invariant -/

/-- `Start` has not started the thread yet. -/
def StartPc.Pending : StartPc → ThreadId → Prop
  | .storeRunning, _ | .timerExchange, _ | .timerAssign, _ => True
  | .execStore, t => t ≠ .timer
  | .execEmplace i, .worker k => i ≤ k
  | .execEmplace _, .io _ => True
  | .ioEmplace j, .io k => j ≤ k
  | _, _ => False

/-- What `Start` has joined. -/
def StartCovers (T : Objects) : StartPc → Prop
  | .ioLoop l => Covers .io T l.todo
  | .returned => Covers .io T []
  | _ => True

/-- The timer keeper's thread was started and joined. -/
def TimerDone (T : Objects) : Prop := (T .timer).created = true ∧ Covers .timer T []

def WorkersStarted (n : ℕ) (T : Objects) : Prop := ∀ k < n, (T (.worker k)).created = true

/-- All threads but those of `L` and the IO threads are started and joined. -/
structure AllBut (n : ℕ) (T : Objects) (L : List ThreadId) : Prop where
  timer : TimerDone T
  started : WorkersStarted n T
  covers : Covers .worker T L

/-- What `Stop` has joined. -/
def StopCovers (n : ℕ) (T : Objects) : StopPc → Prop
  | .timerLoop l =>
    (l = .test [.timer] ∨ (T .timer).created = true) ∧ Covers .timer T l.todo
  | .execExchange | .unpark _ => TimerDone T
  | .workerLoop l => AllBut n T l.todo
  | .clearThreads | .ioLoop _ | .clearIoThreads | .returned true => AllBut n T []
  | _ => True

structure Inv (n : ℕ) (s : State) : Prop where
  phase : ∀ t, Phase (s.object t) (s.start.joins t + s.stop.joins t)
  pending : ∀ t, s.start.Pending t → (s.object t).created = false
  threads : Covers .worker s.object s.threads
  ioThreads : Covers .io s.object s.ioThreads
  start : StartCovers s.object s.start
  stop : StopCovers n s.object s.stop

theorem inv_init (n : ℕ) : Inv n init where
  phase _ := .absent
  pending _ _ := rfl
  threads _ _ h := nomatch h
  ioThreads _ _ h := nomatch h
  start := trivial
  stop := trivial

theorem StartCovers.calms {T T' : Objects} {pc : StartPc} (h : StartCovers T pc)
    (hT : Calms T T') : StartCovers T' pc := by
  cases pc with
  | ioLoop l => exact Covers.calms h hT
  | returned => exact Covers.calms h hT
  | _ => trivial

section StopCovers

variable {n : ℕ} {T T' : Objects} {L : List ThreadId} {pc : StopPc} {u : ThreadId}

theorem TimerDone.calms (h : TimerDone T) (hT : Calms T T') : TimerDone T' :=
  ⟨hT.created _ h.1, h.2.calms hT⟩

theorem AllBut.calms (h : AllBut n T L) (hT : Calms T T') : AllBut n T' L where
  timer := h.timer.calms hT
  started k hk := hT.created _ (h.started k hk)
  covers := h.covers.calms hT

theorem StopCovers.calms (h : StopCovers n T pc) (hT : Calms T T') : StopCovers n T' pc := by
  cases pc with
  | timerLoop l => exact ⟨h.1.imp_right (hT.created _), h.2.calms hT⟩
  | execExchange => exact TimerDone.calms h hT
  | unpark i => exact TimerDone.calms h hT
  | workerLoop l => exact AllBut.calms h hT
  | clearThreads => exact AllBut.calms h hT
  | ioLoop l => exact AllBut.calms h hT
  | clearIoThreads => exact AllBut.calms h hT
  | returned observed =>
    cases observed with
    | false => trivial
    | true => exact AllBut.calms h hT
  | _ => trivial

theorem created_spawn {t : ThreadId} (h : (T t).created = true) :
    (T.spawn u t).created = true := by
  by_cases heq : t = u
  · subst heq
    rw [Objects.spawn, Function.update_self]
    rfl
  · rwa [Objects.spawn, Function.update_of_ne heq]

theorem TimerDone.spawn (h : TimerDone T) (hu : (T u).created = false) :
    TimerDone (T.spawn u) := by
  refine ⟨created_spawn h.1, h.2.spawn fun hk => ?_⟩
  cases u with
  | timer => exact absurd (h.1.symm.trans hu) (by decide)
  | worker => cases hk
  | io => cases hk

/-- Once the workers are started, no further one is. -/
theorem AllBut.spawn (h : AllBut n T L) (hu : (T u).created = false)
    (hn : ∀ k, u = .worker k → k < n) : AllBut n (T.spawn u) L := by
  refine ⟨h.timer.spawn hu, fun k hk => created_spawn (h.started k hk), h.covers.spawn ?_⟩
  intro hk
  cases u with
  | timer => cases hk
  | worker k => exact absurd ((h.started k (hn k rfl)).symm.trans hu) (by decide)
  | io => cases hk

/-- `Start` may start a thread that is not started yet at any time. -/
theorem StopCovers.spawn (h : StopCovers n T pc) (hu : (T u).created = false)
    (hn : ∀ k, u = .worker k → k < n) : StopCovers n (T.spawn u) pc := by
  cases pc with
  | timerLoop l =>
    refine ⟨h.1.imp_right created_spawn, h.2.spawn fun hk => ?_⟩
    cases u with
    | timer =>
      rcases h.1 with rfl | hc
      · exact List.mem_singleton_self _
      · exact absurd (hc.symm.trans hu) (by decide)
    | worker => cases hk
    | io => cases hk
  | execExchange => exact TimerDone.spawn h hu
  | unpark i => exact TimerDone.spawn h hu
  | workerLoop l => exact AllBut.spawn h hu hn
  | clearThreads => exact AllBut.spawn h hu hn
  | ioLoop l => exact AllBut.spawn h hu hn
  | clearIoThreads => exact AllBut.spawn h hu hn
  | returned observed =>
    cases observed with
    | false => trivial
    | true => exact AllBut.spawn h hu hn
  | _ => trivial

end StopCovers

/-! ### Steps keep the invariant -/

namespace Inv

variable {n m : ℕ} {s s' : State}

/-- A statement of `Start` outside its loop that starts no thread. -/
theorem start_moves (h : Inv n s) (r a e : Bool) {pc : StartPc}
    (hj : ∀ t, pc.joins t = s.start.joins t) (hp : ∀ t, pc.Pending t → s.start.Pending t)
    (hc : StartCovers s.object pc) :
    Inv n { s with running := r, timerRunning := a, execRunning := e, start := pc } where
  phase t := by
    rw [hj t]
    exact h.phase t
  pending t ht := h.pending t (hp t ht)
  threads := h.threads
  ioThreads := h.ioThreads
  start := hc
  stop := h.stop

/-- `Start` starts the thread `u`. -/
theorem start_spawns (h : Inv n s) {u : ThreadId} {pc : StartPc} {ts ios : List ThreadId}
    (hu : s.start.Pending u) (hn : ∀ k, u = .worker k → k < n)
    (hj : ∀ t, pc.joins t = s.start.joins t)
    (hp : ∀ t, pc.Pending t → s.start.Pending t ∧ t ≠ u)
    (hts : s.threads ⊆ ts) (huts : u.kind = .worker → u ∈ ts)
    (hios : s.ioThreads ⊆ ios) (huios : u.kind = .io → u ∈ ios)
    (hc : StartCovers (s.object.spawn u) pc) :
    Inv n { s with object := s.object.spawn u, threads := ts, ioThreads := ios, start := pc } where
  phase t := by
    show Phase (s.object.spawn u t) _
    rw [hj t, Objects.spawn]
    by_cases heq : t = u
    · subst heq
      rw [Function.update_self]
      exact (h.phase t).spawned (h.pending t hu)
    · rw [Function.update_of_ne heq]
      exact h.phase t
  pending t ht := by
    obtain ⟨ht, hne⟩ := hp t ht
    show (s.object.spawn u t).created = false
    rw [Objects.spawn, Function.update_of_ne hne]
    exact h.pending t ht
  threads := (h.threads.mono hts).spawn huts
  ioThreads := (h.ioThreads.mono hios).spawn huios
  start := hc
  stop := h.stop.spawn (h.pending u hu) hn

/-- A statement of the loop in `Start`. -/
theorem start_loop (h : Inv n s) {l : Loop} {T : Objects} {o : Option Loop}
    (hpc : s.start = .ioLoop l) (hs : l.step s.object = some (T, o))
    (hb : ∀ t rest, l = .test (t :: rest) → s.stop.joins t = 0) :
    Inv n { s with object := T, start := o.elim .returned .ioLoop } := by
  have hcalms := Loop.step_calms hs
  have hstart := h.start
  have hphase : ∀ t, Phase (s.object t) (s.stop.joins t + l.joins t) := by
    intro t
    have ht := h.phase t
    rw [hpc, Nat.add_comm] at ht
    exact ht
  rw [hpc] at hstart
  refine ⟨fun t => ?_, fun t ht => ?_, h.threads.calms hcalms, h.ioThreads.calms hcalms, ?_,
    h.stop.calms hcalms⟩
  · have ht := Loop.step_phase hs hb hphase t
    rw [Nat.add_comm] at ht
    cases o <;> exact ht
  · cases o <;> exact absurd ht (by simp [StartPc.Pending])
  · have hcovers := Loop.step_covers hs hstart
    cases o <;> exact hcovers

/-- A statement of `Stop` outside its loops. -/
theorem stop_moves (h : Inv n s) (r a e : Bool) {pc : StopPc} {ts ios : List ThreadId}
    (hj : ∀ t, pc.joins t = s.stop.joins t) (hts : Covers .worker s.object ts)
    (hios : Covers .io s.object ios) (hc : StopCovers n s.object pc) :
    Inv n { s with
      running := r, timerRunning := a, execRunning := e, threads := ts, ioThreads := ios,
      stop := pc } where
  phase t := by
    rw [hj t]
    exact h.phase t
  pending := h.pending
  threads := hts
  ioThreads := hios
  start := h.start
  stop := hc

/-- A statement of one of the loops in `Stop`. -/
theorem stop_loop (h : Inv n s) {l : Loop} {T : Objects} {o : Option Loop} {pc : StopPc}
    (hs : l.step s.object = some (T, o)) (hl : ∀ t, s.stop.joins t = l.joins t)
    (hpc : ∀ t, pc.joins t = joins o t)
    (hb : ∀ t rest, l = .test (t :: rest) → s.start.joins t = 0) (hc : StopCovers n T pc) :
    Inv n { s with object := T, stop := pc } := by
  have hcalms := Loop.step_calms hs
  have hphase : ∀ t, Phase (s.object t) (s.start.joins t + l.joins t) := by
    intro t
    rw [← hl t]
    exact h.phase t
  refine ⟨fun t => ?_, fun t ht => ?_, h.threads.calms hcalms, h.ioThreads.calms hcalms,
    h.start.calms hcalms, hc⟩
  · rw [hpc t]
    exact Loop.step_phase hs hb hphase t
  · exact hcalms.unborn t (h.pending t ht)

theorem terminates (h : Inv n s) : Inv n { s with terminated := true } :=
  ⟨h.phase, h.pending, h.threads, h.ioThreads, h.start, h.stop⟩

theorem exits (h : Inv n s) (t : ThreadId) :
    Inv n { s with object := Function.update s.object t (s.object t).exit } := by
  have hcalms : Calms s.object (Function.update s.object t (s.object t).exit) :=
    .update rfl fun hj => hj
  refine ⟨fun u => ?_, fun u hu => hcalms.unborn u (h.pending u hu), h.threads.calms hcalms,
    h.ioThreads.calms hcalms, h.start.calms hcalms, h.stop.calms hcalms⟩
  show Phase (Function.update s.object t (s.object t).exit u) _
  by_cases heq : u = t
  · subst heq
    rw [Function.update_self]
    exact (h.phase u).exit
  · rw [Function.update_of_ne heq]
    exact h.phase u

theorem startStep (h : Inv n s) (ho : orderly n s .start = true)
    (hs : Lifecycle.startStep n m s = some s') : Inv n s' := by
  rw [Lifecycle.startStep] at hs
  split at hs
  case h_1 hpc =>
    obtain rfl := Option.some.inj hs
    exact h.start_moves _ _ _ (by simp [hpc, StartPc.joins]) (by simp [hpc, StartPc.Pending])
      trivial
  case h_2 hpc =>
    obtain rfl := Option.some.inj hs
    split
    · exact h.start_moves _ _ _ (by simp [hpc, StartPc.joins]) (by simp [hpc, StartPc.Pending])
        trivial
    · exact h.start_moves _ _ _ (by simp [hpc, StartPc.joins]) (by simp [hpc, StartPc.Pending])
        trivial
  case h_3 hpc =>
    split at hs
    · obtain rfl := Option.some.inj hs
      exact h.terminates
    · obtain rfl := Option.some.inj hs
      exact h.start_spawns (by simp [hpc, StartPc.Pending]) nofun (by simp [hpc, StartPc.joins])
        (by simp [hpc, StartPc.Pending]) (fun _ ht => ht) nofun (fun _ ht => ht) nofun trivial
  case h_4 hpc =>
    obtain rfl := Option.some.inj hs
    refine h.start_moves _ _ _ (by simp [hpc, StartPc.joins]) ?_ trivial
    rintro (_ | k | k) ht <;> simp [hpc, StartPc.Pending] at ht ⊢
  case h_5 i hpc =>
    split at hs
    · rename_i hi
      obtain rfl := Option.some.inj hs
      refine h.start_spawns (by simp [hpc, StartPc.Pending]) ?_ (by simp [hpc, StartPc.joins]) ?_
        (List.subset_append_left _ _) (fun _ => List.mem_append_right _ (List.mem_singleton_self _))
        (fun _ ht => ht) nofun trivial
      · rintro k ⟨⟩
        exact hi
      · rintro (_ | k | k) ht <;> simp [hpc, StartPc.Pending] at ht ⊢
        omega
    · obtain rfl := Option.some.inj hs
      refine h.start_moves _ _ _ (by simp [hpc, StartPc.joins]) ?_ trivial
      rintro (_ | k | k) ht <;> simp [hpc, StartPc.Pending] at ht ⊢
  case h_6 j hpc =>
    split at hs
    · obtain rfl := Option.some.inj hs
      refine h.start_spawns (by simp [hpc, StartPc.Pending]) nofun (by simp [hpc, StartPc.joins]) ?_
        (fun _ ht => ht) nofun (List.subset_append_left _ _)
        (fun _ => List.mem_append_right _ (List.mem_singleton_self _)) trivial
      rintro (_ | k | k) ht <;> simp [hpc, StartPc.Pending] at ht ⊢
      omega
    · obtain rfl := Option.some.inj hs
      exact h.start_moves _ _ _ (by simp [hpc, StartPc.joins, Loop.joins])
        (by simp [StartPc.Pending]) h.ioThreads
  case h_7 l hpc =>
    obtain ⟨⟨T, o⟩, hstep, rfl⟩ := Option.map_eq_some_iff.mp hs
    refine h.start_loop hpc hstep ?_
    rintro t rest rfl
    rw [orderly, hpc] at ho
    exact beq_iff_eq.mp ho
  case h_8 => cases hs

theorem stopStep (h : Inv n s) (ho : orderly n s .stop = true)
    (hs : Lifecycle.stopStep n m s = some s') : Inv n s' := by
  have hstop := h.stop
  rw [Lifecycle.stopStep] at hs
  split at hs
  case h_1 hpc =>
    obtain rfl := Option.some.inj hs
    split
    · exact h.stop_moves _ _ _ (by simp [hpc, StopPc.joins]) h.threads h.ioThreads trivial
    · exact h.stop_moves _ _ _ (by simp [hpc, StopPc.joins]) h.threads h.ioThreads trivial
  case h_2 j hpc =>
    obtain rfl := Option.some.inj hs
    split
    · exact h.stop_moves _ _ _ (by simp [hpc, StopPc.joins]) h.threads h.ioThreads trivial
    · exact h.stop_moves _ _ _ (by simp [hpc, StopPc.joins]) h.threads h.ioThreads trivial
  case h_3 hpc =>
    obtain rfl := Option.some.inj hs
    rw [orderly, hpc] at ho
    rw [if_pos ho]
    exact h.stop_moves _ _ _ (by simp [hpc, StopPc.joins]) h.threads h.ioThreads trivial
  case h_4 hpc =>
    obtain rfl := Option.some.inj hs
    refine h.stop_moves _ _ _ (by simp [hpc, StopPc.joins, Loop.joins]) h.threads h.ioThreads ?_
    refine ⟨.inl rfl, fun t hk _ => ?_⟩
    cases t with
    | timer => exact List.mem_singleton_self _
    | worker => cases hk
    | io => cases hk
  case h_5 l hpc =>
    obtain ⟨⟨T, o⟩, hstep, rfl⟩ := Option.map_eq_some_iff.mp hs
    rw [hpc] at hstop
    rw [orderly, hpc] at ho
    have hcovers := Loop.step_covers hstep hstop.2
    -- the thread was assigned when it was tested
    have hcreated : (T .timer).created = true := by
      refine (Loop.step_calms hstep).created _ ?_
      rcases hstop.1 with rfl | hc
      · exact (Bool.and_eq_true_iff.mp ho).1
      · exact hc
    refine h.stop_loop hstep (by simp [hpc, StopPc.joins]) (fun t => by cases o <;> rfl) ?_ ?_
    · rintro t rest rfl
      exact beq_iff_eq.mp (Bool.and_eq_true_iff.mp ho).2
    · cases o with
      | none => exact ⟨hcreated, hcovers⟩
      | some l' => exact ⟨.inr hcreated, hcovers⟩
  case h_6 hpc =>
    obtain rfl := Option.some.inj hs
    rw [orderly, hpc] at ho
    rw [hpc] at hstop
    rw [if_pos ho]
    exact h.stop_moves _ _ _ (by simp [hpc, StopPc.joins]) h.threads h.ioThreads hstop
  case h_7 i hpc =>
    obtain rfl := Option.some.inj hs
    rw [orderly, hpc] at ho
    rw [hpc] at hstop
    split
    · exact h.stop_moves _ _ _ (by simp [hpc, StopPc.joins]) h.threads h.ioThreads hstop
    · rename_i hi
      refine h.stop_moves _ _ _ (by simp [hpc, StopPc.joins, Loop.joins]) h.threads h.ioThreads ?_
      refine ⟨hstop, fun k hk => ?_, h.threads⟩
      rcases Bool.or_eq_true_iff.mp ho with hlt | hall
      · exact absurd (of_decide_eq_true hlt) hi
      · exact List.all_eq_true.mp hall k (List.mem_range.mpr hk)
  case h_8 l hpc =>
    obtain ⟨⟨T, o⟩, hstep, rfl⟩ := Option.map_eq_some_iff.mp hs
    rw [hpc] at hstop
    have hcalms := AllBut.calms hstop (Loop.step_calms hstep)
    have hcovers := Loop.step_covers hstep hstop.covers
    refine h.stop_loop hstep (by simp [hpc, StopPc.joins]) (fun t => by cases o <;> rfl) ?_ ?_
    · rintro t rest rfl
      rw [orderly, hpc] at ho
      exact beq_iff_eq.mp ho
    · cases o with
      | none => exact ⟨hcalms.timer, hcalms.started, hcovers⟩
      | some l' => exact ⟨hcalms.timer, hcalms.started, hcovers⟩
  case h_9 hpc =>
    split at hs
    · rename_i hclear
      obtain rfl := Option.some.inj hs
      rw [hpc] at hstop
      exact h.stop_moves _ _ _ (by simp [hpc, StopPc.joins, Loop.joins]) (h.threads.clear hclear)
        h.ioThreads hstop
    · obtain rfl := Option.some.inj hs
      exact h.terminates
  case h_10 l hpc =>
    obtain ⟨⟨T, o⟩, hstep, rfl⟩ := Option.map_eq_some_iff.mp hs
    rw [hpc] at hstop
    have hcalms := AllBut.calms hstop (Loop.step_calms hstep)
    refine h.stop_loop hstep (by simp [hpc, StopPc.joins]) (fun t => by cases o <;> rfl) ?_ ?_
    · rintro t rest rfl
      rw [orderly, hpc] at ho
      exact beq_iff_eq.mp ho
    · cases o <;> exact hcalms
  case h_11 hpc =>
    split at hs
    · rename_i hclear
      obtain rfl := Option.some.inj hs
      rw [hpc] at hstop
      exact h.stop_moves _ _ _ (by simp [hpc, StopPc.joins]) h.threads (h.ioThreads.clear hclear)
        hstop
    · obtain rfl := Option.some.inj hs
      exact h.terminates
  case h_12 => cases hs

theorem step (h : Inv n s) {l : Label} (ho : orderly n s l = true)
    (hs : Lifecycle.step n m s l = some s') : Inv n s' := by
  obtain ⟨-, hs⟩ := Option.ite_none_left_eq_some.mp hs
  cases l with
  | start => exact h.startStep ho hs
  | stop => exact h.stopStep ho hs
  | exit t =>
    obtain ⟨-, hs⟩ := Option.ite_none_right_eq_some.mp hs
    obtain rfl := Option.some.inj hs
    exact h.exits t

theorem run {ls : List Label}
    (hC : StepSystem.Meets (Lifecycle.step n m) (fun s l => orderly n s l = true) init ls)
    (hrun : StepSystem.run (Lifecycle.step n m) init ls = some s) : Inv n s :=
  StepSystem.run_invariant_of_meets (fun _ _ _ h ho hs => h.step ho hs) (inv_init n) hC hrun

/-- When both calls have returned, no thread is joinable. -/
theorem not_joinable (h : Inv n s) (hstart : s.start = .returned)
    (hstop : s.stop = .returned true) (t : ThreadId) : (s.object t).joinable = false := by
  have hio := h.start
  have hrest := h.stop
  rw [hstart] at hio
  rw [hstop] at hrest
  rw [Bool.eq_false_iff]
  intro hj
  cases t with
  | timer => exact absurd (hrest.timer.2 _ rfl hj) List.not_mem_nil
  | worker i => exact absurd (hrest.covers _ rfl hj) List.not_mem_nil
  | io j => exact absurd (hio _ rfl hj) List.not_mem_nil

end Inv

/-! ### The two calls together -/

/-- **In an orderly run of `Start` and `Stop`, when both have returned and `Stop` has observed
`running_`, no worker and no timer thread runs, and every thread was joined once.** -/
theorem joined_once {n m : ℕ} {ls : List Label} {s : State}
    (hC : StepSystem.Meets (step n m) (fun s l => orderly n s l = true) init ls)
    (hrun : StepSystem.run (step n m) init ls = some s) : Settled s := by
  have h := Inv.run hC hrun
  intro hstart hstop
  have hsettled := fun t => (h.phase t).settled (h.not_joinable hstart hstop t)
  exact ⟨fun t _ => (hsettled t).1, fun t => (hsettled t).2⟩

/-- `Start` is inside the join of its IO thread when `Stop` is called, and the IO thread ends
before `Stop` comes to test it. -/
def orderlyRun : List Label :=
  List.flatten [List.replicate 9 .start, List.replicate 6 .stop, [.exit .timer],
    List.replicate 6 .stop, [.exit (.worker 0)], List.replicate 3 .stop, [.exit (.io 0)],
    List.replicate 2 .start, List.replicate 3 .stop]

/-- One worker and one IO thread. -/
theorem joined_once_one_worker :
    ∃ s, StepSystem.run (step 1 1) init orderlyRun = some s ∧
      s.start = .returned ∧ s.stop = .returned true ∧
      (s.object .timer).created = true ∧ (s.object (.worker 0)).created = true ∧
      (s.object (.io 0)).created = true ∧ Settled s := by
  have hmeets : StepSystem.Meets (step 1 1) (fun s l => orderly 1 s l = true) init orderlyRun := by
    decide +kernel
  have hrun : ∃ s, StepSystem.run (step 1 1) init orderlyRun = some s ∧
      s.start = .returned ∧ s.stop = .returned true ∧
      (s.object .timer).created = true ∧ (s.object (.worker 0)).created = true ∧
      (s.object (.io 0)).created = true :=
    StepSystem.exists_of_run_any (by decide +kernel)
  obtain ⟨s, hrun, hstart, hstop, htimer, hworker, hio⟩ := hrun
  exact ⟨s, hrun, hstart, hstop, htimer, hworker, hio, joined_once hmeets hrun⟩

/-- The whole of `Stop` comes right after the first statement of `Start`. -/
def earlyStop : List Label :=
  List.flatten [[.start], List.replicate 7 .stop, List.replicate 8 .start, [.exit (.io 0)],
    List.replicate 2 .start]

/-- `Stop` comes to its test of the IO thread while `Start` is inside the join of it. -/
def doubleJoin : List Label :=
  List.flatten [List.replicate 9 .start, List.replicate 6 .stop, [.exit .timer],
    List.replicate 6 .stop, [.exit (.worker 0)], List.replicate 4 .stop, [.exit (.io 0)],
    List.replicate 2 .start, List.replicate 3 .stop]

/-- Both calls return, but the timer keeper and the worker are left running and unjoined; or
the IO thread is joined by both calls. -/
theorem not_joined_once :
    (∃ s, StepSystem.run (step 1 1) init earlyStop = some s ∧
      (s.object .timer).alive = true ∧ (s.object (.worker 0)).alive = true ∧
      (s.object .timer).joins = 0 ∧ (s.object (.worker 0)).joins = 0 ∧ ¬ Settled s) ∧
    ∃ s, StepSystem.run (step 1 1) init doubleJoin = some s ∧
      (s.object (.io 0)).joins = 2 ∧ ¬ Settled s := by
  have hearly : ∃ s, StepSystem.run (step 1 1) init earlyStop = some s ∧
      s.start = .returned ∧ s.stop = .returned true ∧
      (s.object .timer).alive = true ∧ (s.object (.worker 0)).alive = true ∧
      (s.object .timer).joins = 0 ∧ (s.object (.worker 0)).joins = 0 :=
    StepSystem.exists_of_run_any (by decide +kernel)
  have hdouble : ∃ s, StepSystem.run (step 1 1) init doubleJoin = some s ∧
      s.start = .returned ∧ s.stop = .returned true ∧
      (s.object (.io 0)).created = true ∧ (s.object (.io 0)).joins = 2 :=
    StepSystem.exists_of_run_any (by decide +kernel)
  constructor
  · obtain ⟨s, hrun, hstart, hstop, htimer, hworker, htj, hwj⟩ := hearly
    refine ⟨s, hrun, htimer, hworker, htj, hwj, fun hsettled => ?_⟩
    have hdead := (hsettled hstart hstop).1 .timer (by decide)
    exact absurd (htimer.symm.trans hdead) (by decide)
  · obtain ⟨s, hrun, hstart, hstop, hcreated, hjoins⟩ := hdouble
    refine ⟨s, hrun, hjoins, fun hsettled => ?_⟩
    have honce := (hsettled hstart hstop).2 (.io 0) hcreated
    exact absurd (hjoins.symm.trans honce) (by decide)

end Lifecycle
