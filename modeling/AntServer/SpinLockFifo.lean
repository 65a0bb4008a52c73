/-
The global queue refines a FIFO list (scheduler/mpmc_queue.hpp).

`State` is the heap of `next` fields with the two pointers of the queue; `Fifo` is what the queue
is for: a list of nodes to which pushes append and from which `Pop` takes the first.  Both take
the same operations, side by side.  Between them the owner of a node that is not queued may write
its link: a task passes through other containers too.

* `Allowed` — what a caller owes: nodes it pushes are not queued, and a batch is a chain of
  distinct nodes from its head to its tail, whatever the tail still points to;
* `Simulates.step` — one operation on both sides;
* `spin_lock_queue_refines_fifo` — **the links hold exactly the list, after any operations**, and
  an operation writes no link but those of queued nodes and of the new last node;
* `lists_push_iff` — the push of a node that is already queued always breaks the list.
-/
import AntServer.SpinLockQueue
import AntServer.StepSystem

namespace SpinLockFifo

open IntrusiveSpinLockQueue

variable {α : Type*}

inductive Op (α : Type*) where
  | push (node : Option α)
  /-- `nodes` are those of the batch; the code does not see them. -/
  | pushBatch (batchHead batchTail : Option α) (nodes : List α)
  | pop
  /-- The owner of a node that is not queued writes its link. -/
  | relink (node : α) (link : Option α)
deriving DecidableEq

/-- The node from outside the queue whose link the operation writes. -/
def Op.argument : Op α → Option α
  | .push node => node
  | .pushBatch _ batchTail _ => batchTail
  | .pop => none
  | .relink node _ => some node

structure State (α : Type*) where
  next : α → Option α
  queue : IntrusiveSpinLockQueue α
  returned : List (Option α)     -- history: what the calls of `Pop` returned

structure Fifo (α : Type*) where
  queued : List α
  returned : List (Option α)

section Operations

variable [DecidableEq α]

/-- `Push(node)`; a null pointer is ignored. -/
def State.push (s : State α) : Option α → State α
  | none => s
  | some node =>
    let (next, queue) := IntrusiveSpinLockQueue.push s.next s.queue node
    { s with next, queue }

/-- `PushBatch(batch_head, batch_tail)`; ignored if one of the pointers is null. -/
def State.pushBatch (s : State α) : Option α → Option α → State α
  | some batchHead, some batchTail =>
    let (next, queue) := IntrusiveSpinLockQueue.pushBatch s.next s.queue batchHead batchTail
    { s with next, queue }
  | _, _ => s

def State.pop (s : State α) : State α :=
  let (node, next, queue) := IntrusiveSpinLockQueue.pop s.next s.queue
  ⟨next, queue, s.returned ++ [node]⟩

def State.apply (s : State α) : Op α → State α
  | .push node => s.push node
  | .pushBatch batchHead batchTail _ => s.pushBatch batchHead batchTail
  | .pop => s.pop
  | .relink node link => { s with next := Function.update s.next node link }

def Fifo.apply (f : Fifo α) : Op α → Fifo α
  | .push node => { f with queued := f.queued ++ node.toList }
  | .pushBatch _ _ nodes => { f with queued := f.queued ++ nodes }
  | .pop => ⟨f.queued.tail, f.returned ++ [f.queued.head?]⟩
  | .relink _ _ => f

/-- An operation, on the queue and on the list. -/
def step (p : State α × Fifo α) (op : Op α) : Option (State α × Fifo α) :=
  some (p.1.apply op, p.2.apply op)

end Operations

/-- An empty queue over any heap. -/
def init (next : α → Option α) : State α × Fifo α := (⟨next, .empty, []⟩, ⟨[], []⟩)

/-- The pointers give a batch of the nodes `nodes`: the links visit them from the head, and the
last of them is the tail.  A null pointer gives no nodes. -/
inductive Batch (next : α → Option α) : Option α → Option α → List α → Prop where
  | null {batchHead batchTail : Option α} (h : batchHead = none ∨ batchTail = none) :
      Batch next batchHead batchTail []
  | chain {hd tl : α} {nodes : List α} {rest : Option α}
      (links : Segment next (some hd) (nodes ++ [tl]) rest) (distinct : (nodes ++ [tl]).Nodup) :
      Batch next (some hd) (some tl) (nodes ++ [tl])

/-- The caller may call the operation. -/
def Allowed (p : State α × Fifo α) : Op α → Prop
  | .push node => ∀ x ∈ node.toList, x ∉ p.2.queued
  | .pushBatch batchHead batchTail nodes =>
    Batch p.1.next batchHead batchTail nodes ∧ ∀ x ∈ nodes, x ∉ p.2.queued
  | .pop => True
  | .relink node _ => node ∉ p.2.queued

/-! ### One operation -/

/-- The queue holds the list, and `Pop` has returned the same nodes. -/
structure Simulates (p : State α × Fifo α) : Prop where
  lists : Lists p.1.next p.1.queue p.2.queued
  returned : p.1.returned = p.2.returned

variable [DecidableEq α] {p p' : State α × Fifo α} {op : Op α}

omit [DecidableEq α] in
theorem Simulates.of_ignored (h : Simulates p) (hs : p'.1 = p.1)
    (hf : p'.2 = { p.2 with queued := p.2.queued ++ [] }) : Simulates p' := by
  rw [List.append_nil] at hf
  exact (Prod.ext hs hf : p' = p) ▸ h

theorem Simulates.step (h : Simulates p) (hop : Allowed p op) (hs : step p op = some p') :
    Simulates p' := by
  obtain rfl := Option.some.inj hs
  cases op with
  | push node =>
    cases node with
    | none => exact h.of_ignored rfl rfl
    | some x => exact ⟨h.lists.push (hop x List.mem_cons_self), h.returned⟩
  | pushBatch batchHead batchTail nodes =>
    obtain ⟨hbatch, hfresh⟩ := hop
    cases hbatch with
    | null hnull =>
      have hsame : p.1.pushBatch batchHead batchTail = p.1 := by
        rcases hnull with rfl | rfl
        · rfl
        · cases batchHead <;> rfl
      exact h.of_ignored hsame rfl
    | chain links distinct =>
      refine ⟨h.lists.pushBatch links distinct fun x hx hmem => ?_, h.returned⟩
      exact hfresh x hmem hx
  | pop =>
    obtain ⟨hnode, hlists⟩ := h.lists.pop
    refine ⟨hlists, ?_⟩
    exact congrArg₂ (fun l r => l ++ [r]) h.returned hnode
  | relink node link =>
    refine ⟨h.lists.frame fun x hx => ?_, h.returned⟩
    have hne : x ≠ node := fun he => hop (he ▸ hx)
    exact Function.update_of_ne hne _ _

/-- **The frame of an operation**: the link of a node that is not queued changes only if the node
is the argument that is linked in. -/
theorem Simulates.apply_next (h : Simulates p) {x : α} (hx : x ∉ p.2.queued)
    (harg : op.argument ≠ some x) : (p.1.apply op).next x = p.1.next x := by
  -- besides its argument, a push writes the link of the last node, and that one is queued
  have htail : p.1.queue.tail ≠ some x := by
    intro he
    exact hx (List.mem_of_getLast? (h.lists.last.symm.trans he))
  cases op with
  | push node =>
    cases node with
    | none => rfl
    | some node =>
      have hne : x ≠ node := fun he => harg (congrArg some he.symm)
      exact pushBatch_next hne htail
  | pushBatch batchHead batchTail nodes =>
    cases batchHead with
    | none => rfl
    | some hd =>
      cases batchTail with
      | none => rfl
      | some tl =>
        have hne : x ≠ tl := fun he => harg (congrArg some he.symm)
        exact pushBatch_next hne htail
  | pop =>
    refine pop_next fun hhead => hx ?_
    obtain ⟨xs, hxs, -⟩ := Chain.tail (hhead ▸ h.lists.chain)
    exact hxs ▸ List.mem_cons_self
  | relink node link =>
    have hne : x ≠ node := fun he => harg (congrArg some he.symm)
    exact Function.update_of_ne hne _ _

/-- `Pop` clears the link of the node it returns. -/
theorem Simulates.pop_clears (h : Simulates p) {x : α} (hx : p.2.queued.head? = some x) :
    p.1.pop.next x = none := by
  obtain ⟨xs, hxs⟩ := List.head?_eq_some_iff.mp hx
  have hhead : p.1.queue.head = some x := (chain_cons.mp (hxs ▸ h.lists.chain)).1
  simp only [State.pop, IntrusiveSpinLockQueue.pop, hhead]
  exact Function.update_self _ _ _

omit [DecidableEq α] in
/-- The link of the last queued node is null. -/
theorem Simulates.last_next (h : Simulates p) {x : α} (hx : p.1.queue.tail = some x) :
    p.1.next x = none := by
  obtain ⟨xs, hxs⟩ := List.getLast?_eq_some_iff.mp (h.lists.last.symm.trans hx)
  obtain ⟨r, -, hlast⟩ := Segment.of_append (hxs ▸ h.lists.chain)
  exact hlast.2

omit [DecidableEq α] in
theorem Simulates.null_or_ends (h : Simulates p) :
    (p.1.queue.head = none ∧ p.1.queue.tail = none ∧ p.2.queued = []) ∨
      ∃ last, p.1.queue.tail = some last ∧ p.1.next last = none := by
  cases htail : p.1.queue.tail with
  | none =>
    have hnil : p.2.queued = [] := List.getLast?_eq_none_iff.mp (h.lists.last.symm.trans htail)
    exact Or.inl ⟨h.lists.chain.none_iff.mpr hnil, rfl, hnil⟩
  | some last => exact Or.inr ⟨last, rfl, h.last_next htail⟩

/-! ### Every sequence of operations -/

theorem meets_cons {C : State α × Fifo α → Op α → Prop} {ops : List (Op α)} :
    StepSystem.Meets step C p (op :: ops) ↔
      C p op ∧ StepSystem.Meets step C (p.1.apply op, p.2.apply op) ops := by
  constructor
  · exact fun h => ⟨h.1, h.2 _ rfl⟩
  · exact fun h => ⟨h.1, fun _ hs => Option.some.inj hs ▸ h.2⟩

/-- **`IntrusiveSpinLockQueue` refines a FIFO list.**  After any allowed operations on a queue that
was empty, over any heap: both pointers are null, or the links from `head_` visit exactly the
queued nodes, once each and in the order of their arrival, and end at `tail_`, whose link is null;
`Pop` has returned what the list gives, and clears the link of the node it returns; and the next
operation, whichever it is, leaves alone the links of all other nodes. -/
theorem spin_lock_queue_refines_fifo (next : α → Option α) (ops : List (Op α))
    (s : State α) (f : Fifo α)
    (hops : StepSystem.Meets step Allowed (init next) ops)
    (hrun : StepSystem.run step (init next) ops = some (s, f)) :
    ((s.queue.head = none ∧ s.queue.tail = none ∧ f.queued = []) ∨
      ∃ last, s.queue.tail = some last ∧ s.next last = none) ∧
      Lists s.next s.queue f.queued ∧ f.queued.Nodup ∧ s.returned = f.returned ∧
      s.pop.returned = f.returned ++ [f.queued.head?] ∧
      (∀ x, f.queued.head? = some x → s.pop.next x = none) ∧
      ∀ (op : Op α) (x : α), x ∉ f.queued → op.argument ≠ some x →
        (s.apply op).next x = s.next x := by
  have hinit : Simulates (init next) := ⟨Lists.empty, rfl⟩
  have h : Simulates (s, f) :=
    StepSystem.run_invariant_of_meets (fun _ _ _ h hC hs => h.step hC hs) hinit hops hrun
  have hpop : s.pop.returned = f.returned ++ [f.queued.head?] :=
    congrArg₂ (fun l r => l ++ [r]) h.returned h.lists.pop.1
  exact ⟨h.null_or_ends, h.lists, h.lists.chain.nodup, h.returned, hpop,
    fun _ hx => h.pop_clears hx, fun _ _ hx harg => h.apply_next hx harg⟩

/-- A task, a batch of three whose last node points back to the first task, and two calls of `Pop`
with a write to the task that has left the queue between them. -/
def someOps : List (Op ℕ) :=
  [.push (some 5), .push none, .pushBatch (some 1) (some 3) [1, 2, 3], .pop, .relink 5 (some 9),
    .pop]

def someLinks : ℕ → Option ℕ
  | 1 => some 2
  | 2 => some 3
  | 3 => some 5
  | _ => none

theorem spin_lock_queue_refines_fifo_some :
    ∃ s f, StepSystem.run step (init someLinks) someOps = some (s, f) ∧ f.queued = [2, 3] ∧
      Lists s.next s.queue [2, 3] ∧ s.returned = [some 5, some 1] := by
  have hbatch : Batch (Function.update someLinks 5 none) (some 1) (some 3) ([1, 2] ++ [3]) :=
    .chain ⟨rfl, rfl, rfl, rfl⟩ (by decide)
  have hfresh : ∀ x ∈ [1, 2, 3], x ∉ [5] := by decide
  have hleft : 5 ∉ [1, 2, 3] := by decide
  have hops : StepSystem.Meets step Allowed (init someLinks) someOps := by
    simp only [someOps, meets_cons]
    exact ⟨fun _ _ => List.not_mem_nil, nofun, ⟨hbatch, hfresh⟩, trivial, hleft, trivial, trivial⟩
  have h := spin_lock_queue_refines_fifo someLinks someOps _ _ hops rfl
  exact ⟨_, _, rfl, rfl, h.2.1, h.2.2.2.1⟩

/-- The push of a node that is already queued always breaks the list: no chain has a node twice. -/
theorem lists_push_iff {next : α → Option α} {q : IntrusiveSpinLockQueue α} {xs : List α} {x : α}
    (h : Lists next q xs) :
    Lists (IntrusiveSpinLockQueue.push next q x).1 (IntrusiveSpinLockQueue.push next q x).2
      (xs ++ [x]) ↔ x ∉ xs := by
  constructor
  · intro hpush hx
    exact (List.nodup_append.mp hpush.chain.nodup).2.2 x hx x List.mem_cons_self rfl
  · exact h.push

end SpinLockFifo
