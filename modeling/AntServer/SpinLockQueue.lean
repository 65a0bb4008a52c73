/-
The global queue `IntrusiveSpinLockQueue` (scheduler/mpmc_queue.hpp).

The queue is kept in the tasks' own `next` fields: `head_` and `tail_` point to
its ends.  The spin lock makes each operation one step.

* `Lists next q xs` — following the links from `head_` visits exactly `xs`, and
  `tail_` is the last of them;
* `Lists.pushBatch`, `Lists.push`, `Lists.pop` — the operations append at the
  end and remove at the front;
* `pushBatch_next`, `pop_next` — the links they leave alone.
-/
import AntServer.IntrusiveList

/-- The two pointers of the queue. -/
structure IntrusiveSpinLockQueue (α : Type*) where
  head : Option α
  tail : Option α

namespace IntrusiveSpinLockQueue

variable {α : Type*} [DecidableEq α] {next : α → Option α} {q : IntrusiveSpinLockQueue α}
  {x hd tl : α} {xs ys : List α} {r : Option α}

/-- `IntrusiveSpinLockQueue()`. -/
def empty : IntrusiveSpinLockQueue α := ⟨none, none⟩

/-- `PushBatch(batch_head, batch_tail)` for pointers that are not null. -/
def pushBatch (next : α → Option α) (q : IntrusiveSpinLockQueue α) (batchHead batchTail : α) :
    (α → Option α) × IntrusiveSpinLockQueue α :=
  let next := Function.update next batchTail none
  match q.tail with
  | none => (next, ⟨some batchHead, some batchTail⟩)
  | some last => (Function.update next last (some batchHead), { q with tail := some batchTail })

/-- `Push(node)`: the statements of `PushBatch` with one node at both ends. -/
def push (next : α → Option α) (q : IntrusiveSpinLockQueue α) (node : α) :
    (α → Option α) × IntrusiveSpinLockQueue α :=
  pushBatch next q node node

/-- `Pop()`: the returned pointer, the links and the queue afterwards. -/
def pop (next : α → Option α) (q : IntrusiveSpinLockQueue α) :
    Option α × (α → Option α) × IntrusiveSpinLockQueue α :=
  match q.head with
  | none => (none, next, q)
  | some node =>
    let head := next node
    (some node, Function.update next node none,
      ⟨head, if head = none then none else q.tail⟩)

/-- The queue holds exactly the nodes `xs`, oldest first. -/
structure Lists (next : α → Option α) (q : IntrusiveSpinLockQueue α) (xs : List α) : Prop where
  chain : Chain next q.head xs
  last : q.tail = xs.getLast?

omit [DecidableEq α] in
theorem Lists.empty : Lists next (IntrusiveSpinLockQueue.empty : IntrusiveSpinLockQueue α) [] :=
  ⟨rfl, rfl⟩

omit [DecidableEq α] in
theorem Lists.frame {next' : α → Option α} (h : Lists next q xs)
    (hx : ∀ x ∈ xs, next' x = next x) : Lists next' q xs :=
  ⟨h.chain.frame hx, h.last⟩

theorem pushBatch_of_none (h : q.tail = none) :
    pushBatch next q hd tl = (Function.update next tl none, ⟨some hd, some tl⟩) := by
  simp only [pushBatch, h]

theorem pushBatch_of_some {z : α} (h : q.tail = some z) :
    pushBatch next q hd tl = (Function.update (Function.update next tl none) z (some hd),
      { q with tail := some tl }) := by
  simp only [pushBatch, h]

/-- **`PushBatch` appends** the segment from `hd` to `tl`, whatever `tl` points to. -/
theorem Lists.pushBatch (h : Lists next q xs) (hseg : Segment next (some hd) (ys ++ [tl]) r)
    (hnd : (ys ++ [tl]).Nodup) (hdis : ∀ x ∈ xs, x ∉ ys ++ [tl]) :
    Lists (pushBatch next q hd tl).1 (pushBatch next q hd tl).2 (xs ++ (ys ++ [tl])) := by
  have htl : tl ∉ ys := fun hmem => (List.nodup_append.mp hnd).2.2 tl hmem tl (by simp) rfl
  have hbatch : Chain (Function.update next tl none) (some hd) (ys ++ [tl]) :=
    hseg.redirect htl none
  have hold : Chain (Function.update next tl none) q.head xs :=
    h.chain.update_of_notMem (fun hmem => hdis tl hmem (by simp)) none
  rcases xs.eq_nil_or_concat' with rfl | ⟨zs, z, rfl⟩
  · rw [pushBatch_of_none h.last]
    exact ⟨hbatch, by simp⟩
  · -- the old last node is the only one of the queue whose link is written
    have hz : z ∉ ys ++ [tl] := hdis z (by simp)
    rw [pushBatch_of_some (h.last.trans List.getLast?_concat)]
    exact ⟨hold.concat hbatch hz, by rw [← List.append_assoc, List.getLast?_concat]⟩

/-- **`Push` appends** one node. -/
theorem Lists.push (h : Lists next q xs) (hx : x ∉ xs) :
    Lists (push next q x).1 (push next q x).2 (xs ++ [x]) := by
  have hseg : Segment next (some x) ([] ++ [x]) (next x) := ⟨rfl, rfl⟩
  refine h.pushBatch hseg (List.nodup_singleton x) fun y hy hyx => ?_
  exact hx (List.mem_singleton.mp hyx ▸ hy)

/-- `PushBatch` writes the link of the new last node and of the old one only. -/
theorem pushBatch_next (hx : x ≠ tl) (hlast : q.tail ≠ some x) :
    (pushBatch next q hd tl).1 x = next x := by
  cases hq : q.tail with
  | none =>
    rw [pushBatch_of_none hq]
    exact Function.update_of_ne hx _ _
  | some last =>
    have hne : x ≠ last := fun he => hlast (he ▸ hq)
    rw [pushBatch_of_some hq]
    exact (Function.update_of_ne hne _ _).trans (Function.update_of_ne hx _ _)

/-- **`Pop` removes** the first node and returns it. -/
theorem Lists.pop (h : Lists next q xs) :
    (pop next q).1 = xs.head? ∧ Lists (pop next q).2.1 (pop next q).2.2 xs.tail := by
  obtain ⟨head, tail⟩ := q
  obtain rfl : tail = xs.getLast? := h.last
  cases xs with
  | nil =>
    obtain rfl : head = none := h.chain
    exact ⟨rfl, rfl, rfl⟩
  | cons x xs =>
    obtain ⟨rfl, hxs⟩ := chain_cons.mp h.chain
    have hx : x ∉ xs := (List.nodup_cons.mp h.chain.nodup).1
    refine ⟨rfl, hxs.update_of_notMem hx none, ?_⟩
    by_cases he : xs = []
    · subst he
      exact if_pos (chain_nil.mp hxs)
    · rw [List.tail_cons, ← List.getLast?_cons_of_ne_nil he]
      exact if_neg fun hnone => he (hxs.none_iff.mp hnone)

/-- `Pop` writes the link of the removed node only. -/
theorem pop_next (hx : q.head ≠ some x) : (pop next q).2.1 x = next x := by
  unfold pop
  cases hq : q.head with
  | none => rfl
  | some node =>
    have hne : x ≠ node := fun he => hx (he ▸ hq)
    exact Function.update_of_ne hne _ _

end IntrusiveSpinLockQueue
