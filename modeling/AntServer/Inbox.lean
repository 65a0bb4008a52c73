/-
A worker's inbox (`WorkerState::push_inbox`, `pop_all_inbox`).

Any number of producers push onto a stack that is chained through the tasks' own `next`
fields; the worker takes the whole stack at once and walks it.  Each load, each store to a
`next` field and each compare-exchange is one step.  A task may be pushed again, at the same
address, as soon as the worker has handed it on: its old `next` field, or a head that some
producer loaded before, may then come back.

* `Spec` — what the inbox is for: a stack that is taken all at once;
* `step` — the accesses of the producers and of the worker, with the points where they take
  effect logged as `events`;
* `Inv` — the chains, and who has each task;
* `inbox_exactly_once` — **every push is delivered once**, in the order of the stack, and the
  producers write no link of a published task.
-/
import AntServer.IntrusiveList
import AntServer.Places
import AntServer.StepSystem

namespace Inbox

variable {P Task : Type*}

/-! ### What the inbox is for -/

inductive Event (Task : Type*)
  | push (task : Task)
  | popAll
deriving DecidableEq, Repr

/-- The stack, most recent first, with all that was pushed and taken. -/
structure Spec (Task : Type*) where
  stack : List Task
  pushed : List Task
  popped : List (List Task)
deriving DecidableEq, Repr

namespace Spec

def apply (a : Spec Task) : Event Task → Spec Task
  | .push task => { a with stack := task :: a.stack, pushed := a.pushed ++ [task] }
  | .popAll => { a with stack := [], popped := a.popped ++ [a.stack] }

def replay (es : List (Event Task)) : Spec Task := es.foldl apply ⟨[], [], []⟩

theorem replay_concat (es : List (Event Task)) (e : Event Task) :
    replay (es ++ [e]) = (replay es).apply e :=
  List.foldl_append ..

/-- **Every push is in one of the lists taken, or still in the stack**: each list taken is
what was pushed since the last time, in reverse order. -/
theorem pushed_eq (es : List (Event Task)) :
    (replay es).pushed =
      (replay es).popped.flatMap List.reverse ++ (replay es).stack.reverse := by
  induction es using List.reverseRecOn with
  | nil => rfl
  | append_singleton es e ih =>
    rw [replay_concat]
    cases e with
    | push task =>
      show (replay es).pushed ++ [task] =
        (replay es).popped.flatMap List.reverse ++ (task :: (replay es).stack).reverse
      rw [ih, List.reverse_cons, List.append_assoc]
    | popAll =>
      show (replay es).pushed = ((replay es).popped ++ [(replay es).stack]).flatMap _ ++ []
      rw [ih, List.flatMap_append, List.flatMap_singleton, List.append_nil]

end Spec

/-- The order in which the worker hands on the tasks of a chain: the first one is kept for
last. -/
def handOn : List Task → List Task
  | [] => []
  | head :: rest => rest ++ [head]

/-! ### The code -/

inductive ProducerPc (Task : Type*)
  | idle
  | start (task : Task)                              -- `push_inbox(task)` is called
  | loaded (task : Task) (oldHead : Option Task)     -- before `task->next = old_head`
  | written (task : Task) (oldHead : Option Task)    -- before the compare-exchange
deriving DecidableEq, Repr

inductive ConsumerPc (Task : Type*)
  | idle
  | exchange                                                  -- the load saw a task
  | detach (task : Task)                                      -- `task = inbox_list`
  | clearTask (task : Task) (curr : Option Task)              -- before `task->next = nullptr`
  | walk (task : Task) (curr : Option Task)                   -- `while (curr)`
  | clear (task curr : Task) (next : Option Task)             -- before `curr->next = nullptr`
  | handOver (task curr : Task) (next : Option Task)          -- before `Push(curr)`
deriving DecidableEq, Repr

structure State (P Task : Type*) where
  next : Task → Option Task
  inbox : Option Task
  producer : P → ProducerPc Task
  consumer : ConsumerPc Task
  -- history
  busy : Task → Bool                -- from the call of `push_inbox` until the worker hands it on
  events : List (Event Task)
  delivered : List Task

/-- The links hold anything. -/
def init (P : Type*) (next : Task → Option Task) : State P Task where
  next := next
  inbox := none
  producer := fun _ => .idle
  consumer := .idle
  busy := fun _ => false
  events := []
  delivered := []

inductive Label (P Task : Type*)
  | call (p : P) (task : Task)                -- `push_inbox(task)`
  | produce (p : P) (spurious : Bool)
  | consume
  | relink (task : Task) (v : Option Task)    -- whoever has a task handed on uses its link
deriving DecidableEq, Repr

section Steps

variable [DecidableEq P] [DecidableEq Task]

def State.setProducer (s : State P Task) (p : P) (pc : ProducerPc Task) : State P Task :=
  { s with producer := Function.update s.producer p pc }

def State.setNext (s : State P Task) (task : Task) (v : Option Task) : State P Task :=
  { s with next := Function.update s.next task v }

/-- The next access of producer `p`. -/
def produceStep (s : State P Task) (p : P) (spurious : Bool) : Option (State P Task) :=
  match s.producer p with
  | .idle => none
  | .start task => some (s.setProducer p (.loaded task s.inbox))
  | .loaded task oldHead => some ((s.setNext task oldHead).setProducer p (.written task oldHead))
  | .written task oldHead =>
    if s.inbox = oldHead ∧ spurious = false then
      some { s.setProducer p .idle with
        inbox := some task
        events := s.events ++ [.push task] }
    -- a failure loads the head again
    else some (s.setProducer p (.loaded task s.inbox))

/-- The worker hands `task` on. -/
def State.deliver (s : State P Task) (task : Task) (pc : ConsumerPc Task) : State P Task :=
  { s with
    consumer := pc
    busy := Function.update s.busy task false
    delivered := s.delivered ++ [task] }

/-- The next access of the worker. -/
def consumeStep (s : State P Task) : State P Task :=
  match s.consumer with
  | .idle =>
    match s.inbox with
    | none => { s with events := s.events ++ [.popAll] }
    | some _ => { s with consumer := .exchange }
  | .exchange =>
    { s with
      inbox := none
      events := s.events ++ [.popAll]
      consumer := match s.inbox with
        | none => .idle
        | some inboxList => .detach inboxList }
  | .detach task => { s with consumer := .clearTask task (s.next task) }
  | .clearTask task curr => { s.setNext task none with consumer := .walk task curr }
  | .walk task (some curr) => { s with consumer := .clear task curr (s.next curr) }
  | .clear task curr next => { s.setNext curr none with consumer := .handOver task curr next }
  | .handOver task curr next => s.deliver curr (.walk task next)
  | .walk task none => s.deliver task .idle

/-- A task is pushed by one caller at a time, and not again before it is handed on. -/
def step (s : State P Task) : Label P Task → Option (State P Task)
  | .call p task =>
    if s.producer p = .idle ∧ s.busy task = false then
      some { s.setProducer p (.start task) with busy := Function.update s.busy task true }
    else none
  | .produce p spurious => produceStep s p spurious
  | .consume => some (consumeStep s)
  | .relink task v => if s.busy task = false then some (s.setNext task v) else none

end Steps

/-! ### Who has each task -/

inductive Place (P : Type*)
  | producer (p : P)
  | stack
  | walking
deriving DecidableEq, Repr

/-- The task that a producer is pushing. -/
def ProducerPc.held : ProducerPc Task → List Task
  | .idle => []
  | .start task | .loaded task _ | .written task _ => [task]

/-- The tasks in each place, when the worker still has `rest`. -/
def State.tasksAt (s : State P Task) (rest : List Task) : Place P → List Task
  | .producer p => (s.producer p).held
  | .stack => (Spec.replay s.events).stack
  | .walking => rest

/-- The worker still has `rest`, linked as its position says. -/
def ConsumerPc.Walks (next : Task → Option Task) (rest : List Task) : ConsumerPc Task → Prop
  | .idle | .exchange => rest = []
  | .detach task => ∃ others, rest = task :: others ∧ Chain next (some task) rest
  | .clearTask task curr | .walk task curr =>
    ∃ others, rest = task :: others ∧ Chain next curr others
  | .clear task curr n | .handOver task curr n =>
    ∃ others, rest = task :: curr :: others ∧ Chain next n others

structure Inv (s : State P Task) (rest : List Task) : Prop where
  stack : Chain s.next s.inbox (Spec.replay s.events).stack
  walks : s.consumer.Walks s.next rest
  separate : Separate (s.tasksAt rest)
  busy : ∀ task, s.busy task = true ↔ Within (s.tasksAt rest) task
  written : ∀ p task oldHead, s.producer p = .written task oldHead → s.next task = oldHead
  delivered : (Spec.replay s.events).popped.flatMap handOn = s.delivered ++ handOn rest
  taken : ∀ task, s.consumer = .detach task → (Spec.replay s.events).popped.getLast? = some rest

theorem inv_init (next : Task → Option Task) : Inv (init P next) [] where
  stack := rfl
  walks := rfl
  separate := by
    refine Separate.nil.mono fun place => ?_
    cases place <;> exact List.Sublist.refl []
  busy := fun task => by
    constructor
    · intro h
      cases h
    · rintro ⟨place, hmem⟩
      cases place <;> exact absurd hmem List.not_mem_nil
  written := fun p task oldHead h => by cases h
  delivered := rfl
  taken := fun task h => by cases h

theorem ConsumerPc.Walks.frame {pc : ConsumerPc Task} {next next' : Task → Option Task}
    {rest : List Task} (h : pc.Walks next rest) (hnext : ∀ x ∈ rest, next' x = next x) :
    pc.Walks next' rest := by
  cases pc with
  | idle | exchange => exact h
  | detach task =>
    obtain ⟨others, hrest, hchain⟩ := h
    exact ⟨others, hrest, hchain.frame hnext⟩
  | clearTask task curr | walk task curr =>
    obtain ⟨others, rfl, hchain⟩ := h
    exact ⟨others, rfl, hchain.frame fun x hx => hnext x (List.mem_cons_of_mem _ hx)⟩
  | clear task curr n | handOver task curr n =>
    obtain ⟨others, rfl, hchain⟩ := h
    refine ⟨others, rfl, hchain.frame fun x hx => hnext x ?_⟩
    exact List.mem_cons_of_mem _ (List.mem_cons_of_mem _ hx)

section Preserved

variable [DecidableEq P] [DecidableEq Task] {s s' : State P Task} {rest : List Task} {p : P}

omit [DecidableEq Task] in
theorem tasksAt_setProducer (p : P) (pc : ProducerPc Task) (place : Place P) :
    (s.setProducer p pc).tasksAt rest place =
      if place = .producer p then pc.held else s.tasksAt rest place := by
  cases place with
  | producer q =>
    show (Function.update s.producer p pc q).held = _
    by_cases hq : q = p
    · subst hq
      rw [Function.update_self, if_pos rfl]
    · rw [Function.update_of_ne hq, if_neg (by simpa using hq)]
      rfl
  | stack | walking => rfl

omit [DecidableEq Task] in
theorem tasksAt_of_held {pc : ProducerPc Task} (hheld : pc.held = (s.producer p).held) :
    (s.setProducer p pc).tasksAt rest = s.tasksAt rest := by
  funext place
  rw [tasksAt_setProducer]
  split
  next hplace =>
    subst hplace
    exact hheld
  next => rfl

omit [DecidableEq P] in
/-- **A write to a link** that no chain has, and that no producer has just written. -/
theorem Inv.setNext (h : Inv s rest) {task : Task} (hstack : task ∉ (Spec.replay s.events).stack)
    (hrest : task ∉ rest) (hprod : ∀ p oldHead, s.producer p ≠ .written task oldHead)
    (v : Option Task) : Inv (s.setNext task v) rest where
  stack := h.stack.update_of_notMem hstack v
  walks := h.walks.frame fun x hx => Function.update_of_ne (ne_of_mem_of_not_mem hx hrest) _ _
  separate := h.separate
  busy := h.busy
  written := fun p task' oldHead hp => by
    have hne : task' ≠ task := by
      rintro rfl
      exact hprod p oldHead hp
    exact (Function.update_of_ne hne _ _).trans (h.written p task' oldHead hp)
  delivered := h.delivered
  taken := h.taken

omit [DecidableEq Task] in
/-- A producer moves on with the same task. -/
theorem Inv.setProducer (h : Inv s rest) {pc : ProducerPc Task}
    (hheld : pc.held = (s.producer p).held)
    (hwritten : ∀ task oldHead, pc = .written task oldHead → s.next task = oldHead) :
    Inv (s.setProducer p pc) rest where
  stack := h.stack
  walks := h.walks
  separate := by
    rw [tasksAt_of_held hheld]
    exact h.separate
  busy := by
    rw [tasksAt_of_held hheld]
    exact h.busy
  written := fun q task oldHead hq => by
    have hq' : Function.update s.producer p pc q = .written task oldHead := hq
    by_cases hqp : q = p
    · subst hqp
      rw [Function.update_self] at hq'
      exact hwritten task oldHead hq'
    · rw [Function.update_of_ne hqp] at hq'
      exact h.written q task oldHead hq'
  delivered := h.delivered
  taken := h.taken

omit [DecidableEq P] [DecidableEq Task] in
/-- What a producer holds is in neither chain. -/
theorem Inv.notMem_of_held (h : Inv s rest) {task : Task} (hheld : task ∈ (s.producer p).held) :
    task ∉ (Spec.replay s.events).stack ∧ task ∉ rest := by
  constructor
  · intro hmem
    have hplace := h.separate.eq_of_mem (i := .producer p) (j := .stack) hheld hmem
    cases hplace
  · intro hmem
    have hplace := h.separate.eq_of_mem (i := .producer p) (j := .walking) hheld hmem
    cases hplace

theorem Inv.call (h : Inv s rest) {task : Task} (hidle : s.producer p = .idle)
    (hfree : s.busy task = false) :
    Inv { s.setProducer p (.start task) with busy := Function.update s.busy task true } rest := by
  have hnew : ¬ Within (s.tasksAt rest) task := by
    rw [← h.busy, hfree]
    exact Bool.false_ne_true
  have hperm : ((s.setProducer p (.start task)).tasksAt rest (.producer p)).Perm
      (task :: s.tasksAt rest (.producer p)) := by
    rw [tasksAt_setProducer, if_pos rfl, State.tasksAt, hidle]
    exact List.Perm.refl [task]
  have hothers : ∀ place, place ≠ .producer p →
      (s.setProducer p (.start task)).tasksAt rest place = s.tasksAt rest place := by
    intro place hplace
    rw [tasksAt_setProducer, if_neg hplace]
  have hseparate : Separate ((s.setProducer p (.start task)).tasksAt rest) :=
    h.separate.put hnew hperm hothers
  refine ⟨h.stack, h.walks, hseparate, fun x => ?_, fun q x oldHead hq => ?_, h.delivered,
    h.taken⟩
  · show Function.update s.busy task true x = true ↔ Within ((s.setProducer p _).tasksAt rest) x
    rw [within_put hperm hothers]
    by_cases hx : x = task
    · subst hx
      simp
    · rw [Function.update_of_ne hx, h.busy]
      exact ⟨Or.inr, fun hor => hor.resolve_left hx⟩
  · have hq' : Function.update s.producer p (.start task) q = .written x oldHead := hq
    by_cases hqp : q = p
    · subst hqp
      rw [Function.update_self] at hq'
      cases hq'
    · rw [Function.update_of_ne hqp] at hq'
      exact h.written q x oldHead hq'

omit [DecidableEq Task] in
/-- **The compare-exchange succeeds.**  It may be against a head that left and came back:
the link holds the present head, and that is all that matters. -/
theorem Inv.publish (h : Inv s rest) {task : Task}
    (hpc : s.producer p = .written task s.inbox) :
    Inv { s.setProducer p .idle with inbox := some task, events := s.events ++ [.push task] }
      rest := by
  have hreplay := Spec.replay_concat s.events (.push task)
  let s' : State P Task :=
    { s.setProducer p .idle with inbox := some task, events := s.events ++ [.push task] }
  have hstack : s'.tasksAt rest .stack = task :: s.tasksAt rest .stack :=
    congrArg Spec.stack hreplay
  have hprod : s'.tasksAt rest (.producer p) = [] := by
    show (Function.update s.producer p .idle p).held = []
    rw [Function.update_self]
    rfl
  have hheld : s.tasksAt rest (.producer p) = [task] := by
    rw [State.tasksAt, hpc]
    rfl
  have hperm : ([Place.producer p, .stack].flatMap (s'.tasksAt rest)).Perm
      ([Place.producer p, .stack].flatMap (s.tasksAt rest)) := by
    simp only [List.flatMap_cons, List.flatMap_nil, List.append_nil, hstack, hprod, hheld]
    exact List.Perm.refl _
  have hothers : ∀ place ∉ [Place.producer p, .stack],
      s'.tasksAt rest place = s.tasksAt rest place := by
    intro place hplace
    cases place with
    | producer q =>
      have hqp : q ≠ p := by
        rintro rfl
        exact hplace List.mem_cons_self
      show (Function.update s.producer p .idle q).held = (s.producer q).held
      rw [Function.update_of_ne hqp]
    | stack => exact absurd (by simp) hplace
    | walking => rfl
  refine ⟨?_, h.walks, h.separate.exchange (by simp) hperm.subperm hothers, fun x => ?_,
    fun q x oldHead hq => ?_, ?_, ?_⟩
  · show Chain s.next (some task) (Spec.replay (s.events ++ [.push task])).stack
    rw [hreplay]
    refine chain_cons.mpr ⟨rfl, ?_⟩
    rw [h.written p task s.inbox hpc]
    exact h.stack
  · exact (h.busy x).trans (within_exchange hperm hothers).symm
  · have hq' : Function.update s.producer p .idle q = .written x oldHead := hq
    by_cases hqp : q = p
    · subst hqp
      rw [Function.update_self] at hq'
      cases hq'
    · rw [Function.update_of_ne hqp] at hq'
      exact h.written q x oldHead hq'
  · show (Spec.replay (s.events ++ [.push task])).popped.flatMap handOn = _
    rw [hreplay]
    exact h.delivered
  · show ∀ x, s.consumer = .detach x →
      (Spec.replay (s.events ++ [.push task])).popped.getLast? = some rest
    rw [hreplay]
    exact h.taken

/-- **Step lemma** for the producers. -/
theorem Inv.produceStep (h : Inv s rest) {spurious : Bool}
    (hs : produceStep s p spurious = some s') : Inv s' rest := by
  unfold Inbox.produceStep at hs
  cases hpc : s.producer p with
  | idle => simp only [hpc, reduceCtorEq] at hs
  | start task =>
    simp only [hpc, Option.some.injEq] at hs
    subst hs
    exact h.setProducer (by rw [hpc]; rfl) fun _ _ hw => by cases hw
  | loaded task oldHead =>
    simp only [hpc, Option.some.injEq] at hs
    subst hs
    have hheld : task ∈ (s.producer p).held := by
      rw [hpc]
      exact List.mem_singleton_self task
    obtain ⟨hstack, hrest⟩ := h.notMem_of_held hheld
    -- no other producer has the task
    have hprod : ∀ q old, s.producer q ≠ .written task old := by
      intro q old hq
      have hmem : task ∈ (s.producer q).held := by
        rw [hq]
        exact List.mem_singleton_self task
      have hplace := h.separate.eq_of_mem (i := .producer q) (j := .producer p) hmem hheld
      cases hplace
      cases hq.symm.trans hpc
    refine (h.setNext hstack hrest hprod oldHead).setProducer ?_ fun x old hw => ?_
    · show [task] = (s.producer p).held
      rw [hpc]
      rfl
    · cases hw
      exact Function.update_self ..
  | written task oldHead =>
    simp only [hpc] at hs
    split at hs
    next hcas =>
      obtain ⟨rfl, -⟩ := hcas
      cases hs
      exact h.publish hpc
    next =>
      cases hs
      exact h.setProducer (by rw [hpc]; rfl) fun _ _ hw => by cases hw

/-! #### The worker -/

omit [DecidableEq P] [DecidableEq Task] in
/-- The worker moves on without handing on a task. -/
theorem Inv.setConsumer (h : Inv s rest) {pc : ConsumerPc Task} (hwalks : pc.Walks s.next rest)
    (hpc : ∀ task, pc ≠ .detach task) : Inv { s with consumer := pc } rest where
  stack := h.stack
  walks := hwalks
  separate := h.separate
  busy := h.busy
  written := h.written
  delivered := h.delivered
  taken := fun task htask => absurd htask (hpc task)

omit [DecidableEq P] in
/-- The worker clears the link of a task that it has. -/
theorem Inv.clearNext (h : Inv s rest) {task : Task} (hmem : task ∈ rest) {pc : ConsumerPc Task}
    (hwalks : pc.Walks (Function.update s.next task none) rest) (hpc : ∀ x, pc ≠ .detach x) :
    Inv { s.setNext task none with consumer := pc } rest where
  stack := by
    refine h.stack.update_of_notMem (fun hstack => ?_) none
    have hplace := h.separate.eq_of_mem (i := .stack) (j := .walking) hstack hmem
    cases hplace
  walks := hwalks
  separate := h.separate
  busy := h.busy
  written := fun p x oldHead hp => by
    have hne : x ≠ task := by
      rintro rfl
      have hheld : x ∈ (s.producer p).held := by
        rw [show s.producer p = _ from hp]
        exact List.mem_singleton_self x
      exact (h.notMem_of_held hheld).2 hmem
    exact (Function.update_of_ne hne _ _).trans (h.written p x oldHead hp)
  delivered := h.delivered
  taken := fun x hx => absurd hx (hpc x)

omit [DecidableEq P] in
/-- The worker hands a task on. -/
theorem Inv.deliver (h : Inv s rest) {task : Task} {rest' : List Task} {pc : ConsumerPc Task}
    (hperm : rest.Perm (task :: rest')) (horder : handOn rest = task :: handOn rest')
    (hwalks : pc.Walks s.next rest') (hpc : ∀ x, pc ≠ .detach x) :
    Inv (s.deliver task pc) rest' := by
  have hrest : (task :: rest').Nodup := hperm.nodup_iff.mp (h.separate.nodup .walking)
  have hothers : ∀ place ∉ [Place.walking], s.tasksAt rest' place = s.tasksAt rest place := by
    intro place hplace
    cases place with
    | producer q => rfl
    | stack => rfl
    | walking => exact absurd List.mem_cons_self hplace
  have hsub : ([Place.walking].flatMap (s.tasksAt rest')).Subperm
      ([Place.walking].flatMap (s.tasksAt (P := P) rest)) := by
    rw [List.flatMap_singleton, List.flatMap_singleton]
    exact ((List.sublist_cons_self task rest').subperm).trans hperm.symm.subperm
  have hseparate : Separate (s.tasksAt rest') := h.separate.exchange (by simp) hsub hothers
  refine ⟨h.stack, hwalks, hseparate, fun x => ?_, h.written, ?_, fun x hx => absurd hx (hpc x)⟩
  · show Function.update s.busy task false x = true ↔ Within (s.tasksAt rest') x
    by_cases hx : x = task
    · subst hx
      rw [Function.update_self]
      refine ⟨fun hf => absurd hf Bool.false_ne_true, ?_⟩
      rintro ⟨place, hmem⟩
      have hwalking : x ∈ s.tasksAt rest .walking := hperm.mem_iff.mpr List.mem_cons_self
      cases place with
      | walking => exact absurd hmem (List.nodup_cons.mp hrest).1
      | producer q =>
        have hplace := h.separate.eq_of_mem (i := .producer q) hmem hwalking
        cases hplace
      | stack =>
        have hplace := h.separate.eq_of_mem (i := .stack) hmem hwalking
        cases hplace
    · rw [Function.update_of_ne hx, h.busy]
      constructor
      · rintro ⟨place, hmem⟩
        cases place with
        | walking =>
          have hmem' := hperm.mem_iff.mp hmem
          exact ⟨.walking, (List.mem_cons.mp hmem').resolve_left hx⟩
        | producer q => exact ⟨.producer q, hmem⟩
        | stack => exact ⟨.stack, hmem⟩
      · rintro ⟨place, hmem⟩
        cases place with
        | walking => exact ⟨.walking, hperm.mem_iff.mpr (List.mem_cons_of_mem task hmem)⟩
        | producer q => exact ⟨.producer q, hmem⟩
        | stack => exact ⟨.stack, hmem⟩
  · show _ = s.delivered ++ [task] ++ handOn rest'
    rw [List.append_assoc, List.singleton_append, ← horder]
    exact h.delivered

omit [DecidableEq P] [DecidableEq Task] in
/-- **The exchange**: the chain is the worker's, and new pushes start another one. -/
theorem Inv.popAll (h : Inv s []) {pc : ConsumerPc Task}
    (hwalks : pc.Walks s.next (Spec.replay s.events).stack) :
    Inv { s with inbox := none, events := s.events ++ [.popAll], consumer := pc }
      (Spec.replay s.events).stack := by
  have hreplay := Spec.replay_concat s.events .popAll
  let s' : State P Task :=
    { s with inbox := none, events := s.events ++ [.popAll], consumer := pc }
  let taken := (Spec.replay s.events).stack
  have hstack : s'.tasksAt taken .stack = [] := congrArg Spec.stack hreplay
  have hperm : ([Place.stack, .walking].flatMap (s'.tasksAt taken)).Perm
      ([Place.stack, .walking].flatMap (s.tasksAt (P := P) [])) := by
    simp only [List.flatMap_cons, List.flatMap_nil, List.append_nil, hstack, List.nil_append]
    show taken.Perm (taken ++ [])
    rw [List.append_nil]
  have hothers : ∀ place ∉ [Place.stack, .walking],
      s'.tasksAt taken place = s.tasksAt (P := P) [] place := by
    intro place hplace
    cases place with
    | producer q => rfl
    | stack => exact absurd List.mem_cons_self hplace
    | walking => exact absurd (by simp) hplace
  refine ⟨?_, hwalks, h.separate.exchange (by simp) hperm.subperm hothers, fun x => ?_, h.written,
    ?_, fun x hx => ?_⟩
  · show Chain s.next none (Spec.replay (s.events ++ [.popAll])).stack
    rw [hreplay]
    rfl
  · exact (h.busy x).trans (within_exchange hperm hothers).symm
  · show (Spec.replay (s.events ++ [.popAll])).popped.flatMap handOn = _
    rw [hreplay]
    show ((Spec.replay s.events).popped ++ [taken]).flatMap handOn = _
    rw [List.flatMap_append, List.flatMap_singleton, h.delivered]
    exact congrArg (· ++ handOn taken) (List.append_nil s.delivered)
  · show (Spec.replay (s.events ++ [.popAll])).popped.getLast? = _
    rw [hreplay]
    exact List.getLast?_concat

omit [DecidableEq P] in
/-- **Step lemma** for the worker. -/
theorem Inv.consumeStep [DecidableEq P] (h : Inv s rest) :
    ∃ rest', Inv (consumeStep s) rest' := by
  have hwalks := h.walks
  unfold Inbox.consumeStep
  cases hpc : s.consumer with
  | idle =>
    rw [hpc] at hwalks
    obtain rfl : rest = [] := hwalks
    cases hinbox : s.inbox with
    | none =>
      -- nothing is there: the empty chain is taken
      have hstack := h.stack
      rw [hinbox] at hstack
      have hnil := hstack.none_iff.mp rfl
      have hpop : Inv { s with
          inbox := none, events := s.events ++ [.popAll], consumer := .idle } _ := h.popAll hnil
      rw [hnil] at hpop
      exact ⟨[], hpop⟩
    | some head =>
      have hset : Inv { s with consumer := .exchange } [] := h.setConsumer rfl fun _ => nofun
      rw [hinbox] at hset
      exact ⟨[], hset⟩
  | exchange =>
    rw [hpc] at hwalks
    obtain rfl : rest = [] := hwalks
    refine ⟨_, h.popAll ?_⟩
    have hstack := h.stack
    cases hinbox : s.inbox with
    | none =>
      rw [hinbox] at hstack
      exact hstack.none_iff.mp rfl
    | some head =>
      rw [hinbox] at hstack
      obtain ⟨others, hothers, -⟩ := hstack.tail
      exact ⟨others, hothers, hstack⟩
  | detach task =>
    rw [hpc] at hwalks
    obtain ⟨others, rfl, hchain⟩ := hwalks
    exact ⟨_, h.setConsumer ⟨others, rfl, (chain_cons.mp hchain).2⟩ fun _ => nofun⟩
  | clearTask task curr =>
    rw [hpc] at hwalks
    obtain ⟨others, rfl, hchain⟩ := hwalks
    have hnot : task ∉ others := (List.nodup_cons.mp (h.separate.nodup .walking)).1
    exact ⟨_, h.clearNext List.mem_cons_self
      ⟨others, rfl, hchain.update_of_notMem hnot none⟩ fun _ => nofun⟩
  | walk task curr =>
    rw [hpc] at hwalks
    obtain ⟨others, rfl, hchain⟩ := hwalks
    cases curr with
    | none =>
      obtain rfl := hchain.none_iff.mp rfl
      exact ⟨[], h.deliver (List.Perm.refl _) rfl rfl fun _ => nofun⟩
    | some curr =>
      obtain ⟨others', rfl, hchain'⟩ := hchain.tail
      exact ⟨_, h.setConsumer ⟨others', rfl, hchain'⟩ fun _ => nofun⟩
  | clear task curr n =>
    rw [hpc] at hwalks
    obtain ⟨others, rfl, hchain⟩ := hwalks
    have hnodup := List.nodup_cons.mp (h.separate.nodup .walking)
    have hnot : curr ∉ others := (List.nodup_cons.mp hnodup.2).1
    exact ⟨_, h.clearNext (List.mem_cons_of_mem task List.mem_cons_self)
      ⟨others, rfl, hchain.update_of_notMem hnot none⟩ fun _ => nofun⟩
  | handOver task curr n =>
    rw [hpc] at hwalks
    obtain ⟨others, rfl, hchain⟩ := hwalks
    exact ⟨task :: others, h.deliver (List.Perm.swap curr task others) rfl
      ⟨others, rfl, hchain⟩ fun _ => nofun⟩

/-- **Step lemma.** -/
theorem Inv.step (h : Inv s rest) {l : Label P Task} (hs : step s l = some s') :
    ∃ rest', Inv s' rest' := by
  cases l with
  | call p task =>
    obtain ⟨⟨hidle, hfree⟩, heq⟩ := Option.ite_none_right_eq_some.mp hs
    cases heq
    exact ⟨rest, h.call hidle hfree⟩
  | produce p spurious => exact ⟨rest, h.produceStep hs⟩
  | consume =>
    cases hs
    exact h.consumeStep
  | relink task v =>
    obtain ⟨hfree, heq⟩ := Option.ite_none_right_eq_some.mp hs
    cases heq
    -- a task that is not busy is in no place
    have hnew : ∀ place, task ∉ s.tasksAt rest place := by
      intro place hmem
      have hbusy := (h.busy task).mpr ⟨place, hmem⟩
      cases hfree.symm.trans hbusy
    refine ⟨rest, h.setNext (hnew .stack) (hnew .walking) (fun p old hp => hnew (.producer p) ?_) v⟩
    show task ∈ (s.producer p).held
    rw [hp]
    exact List.mem_singleton_self task

/-- **Run lemma.** -/
theorem inv_run {next : Task → Option Task} {ls : List (Label P Task)}
    (hrun : StepSystem.run Inbox.step (init P next) ls = some s) : ∃ rest, Inv s rest :=
  StepSystem.run_invariant (I := fun s => ∃ rest, Inv s rest)
    (fun _ _ _ ⟨_, h⟩ hs => h.step hs) ⟨[], inv_init next⟩ hrun

end Preserved

theorem handOn_perm (xs : List Task) : (handOn xs).Perm xs := by
  cases xs with
  | nil => exact List.Perm.refl []
  | cons x xs => exact List.perm_append_singleton x xs

/-- **Exactly once.**  In every interleaving: the links from the head are the stack; every
push is in one of the lists taken or still in the stack, each list being what was pushed
since the last one, in reverse order; a chain just taken is that list, ended by null; the
worker hands on exactly what it took; and a producer about to write a link has a task that
is in none of the chains. -/
theorem inbox_exactly_once [DecidableEq P] [DecidableEq Task] (next : Task → Option Task)
    (ls : List (Label P Task)) (s : State P Task)
    (hrun : StepSystem.run step (init P next) ls = some s) :
    Chain s.next s.inbox (Spec.replay s.events).stack ∧
    (Spec.replay s.events).pushed =
      (Spec.replay s.events).popped.flatMap List.reverse ++ (Spec.replay s.events).stack.reverse ∧
    (∀ task, s.consumer = .detach task → ∃ xs,
      (Spec.replay s.events).popped.getLast? = some xs ∧ Chain s.next (some task) xs) ∧
    ∃ rest, (Spec.replay s.events).popped.flatMap handOn = s.delivered ++ rest ∧
      (s.consumer = .idle → rest = []) ∧
      ∀ p task oldHead, s.producer p = .loaded task oldHead →
        task ∉ (Spec.replay s.events).stack ∧ task ∉ rest := by
  obtain ⟨rest, h⟩ := inv_run hrun
  have hwalks := h.walks
  refine ⟨h.stack, Spec.pushed_eq s.events, fun task htask => ?_, handOn rest, h.delivered,
    fun hidle => ?_, fun p task oldHead hp => ?_⟩
  · rw [htask] at hwalks
    obtain ⟨others, -, hchain⟩ := hwalks
    exact ⟨rest, h.taken task htask, hchain⟩
  · rw [hidle] at hwalks
    obtain rfl : rest = [] := hwalks
    rfl
  · have hheld : task ∈ (s.producer p).held := by
      rw [hp]
      exact List.mem_singleton_self task
    obtain ⟨hstack, hrest⟩ := h.notMem_of_held hheld
    exact ⟨hstack, fun hmem => hrest ((handOn_perm rest).mem_iff.mp hmem)⟩

/-- Task 1 is taken and pushed again while producer 1 still has it as the head it loaded. -/
theorem inbox_exactly_once_same_head :
    ∃ s, StepSystem.run step (init ℕ fun _ => some 7)
        [.call 0 1, .produce 0 false, .produce 0 false, .produce 0 false,
          .call 1 2, .produce 1 false, .produce 1 false,
          .consume, .consume, .consume, .consume, .consume,
          .call 0 1, .produce 0 false, .produce 0 false, .produce 0 false,
          .produce 1 false] = some s ∧
      Chain s.next s.inbox [2, 1] ∧ s.delivered = [1] := by
  have hrun : ∃ s, StepSystem.run step (init ℕ fun _ => some 7)
        [.call 0 1, .produce 0 false, .produce 0 false, .produce 0 false,
          .call 1 2, .produce 1 false, .produce 1 false,
          .consume, .consume, .consume, .consume, .consume,
          .call 0 1, .produce 0 false, .produce 0 false, .produce 0 false,
          .produce 1 false] = some s ∧
      (Spec.replay s.events).stack = [2, 1] ∧ s.delivered = [1] :=
    StepSystem.exists_of_run_any (by decide +kernel)
  obtain ⟨s, hs, hstack, hdelivered⟩ := hrun
  have hchain := (inbox_exactly_once _ _ s hs).1
  rw [hstack] at hchain
  exact ⟨s, hs, hchain, hdelivered⟩

end Inbox
