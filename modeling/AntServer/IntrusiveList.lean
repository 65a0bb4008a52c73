/-
Singly linked lists kept in the nodes' own `next` fields.

`next : α → Option α` is the heap of link fields (`none` is the null pointer).
`Chain next p xs` says that following the links from the pointer `p` visits
exactly the nodes `xs` and then ends with null; `Segment next p xs q` that it
visits `xs` and arrives at `q`.

* `Chain.frame` — writes to other nodes do not matter;
* `Chain.cons`, `Chain.tail` — linking a node in front, unlinking the first one;
* `Chain.concat` — linking a chain behind the last node;
* `Chain.unique`, `Chain.nodup` — a pointer heads at most one list, without
  repetitions.
-/
import Mathlib

variable {α : Type*} {next next' : α → Option α} {p q r : Option α} {x : α} {xs ys : List α}

/-- From the pointer `p` the links visit `xs` and arrive at `q`. -/
def Segment (next : α → Option α) : Option α → List α → Option α → Prop
  | p, [], q => p = q
  | p, x :: xs, q => p = some x ∧ Segment next (next x) xs q

/-- From the pointer `p` the links visit `xs` and end with null. -/
def Chain (next : α → Option α) (p : Option α) (xs : List α) : Prop := Segment next p xs none

theorem Segment.frame (h : Segment next p xs q) (hx : ∀ x ∈ xs, next' x = next x) :
    Segment next' p xs q := by
  induction xs generalizing p with
  | nil => exact h
  | cons x xs ih =>
    obtain ⟨hp, hs⟩ := h
    refine ⟨hp, ?_⟩
    rw [hx x List.mem_cons_self]
    exact ih hs fun y hy => hx y (List.mem_cons_of_mem x hy)

theorem Segment.append (h : Segment next p xs q) (h' : Segment next q ys r) :
    Segment next p (xs ++ ys) r := by
  induction xs generalizing p with
  | nil => exact (show p = q from h) ▸ h'
  | cons x xs ih => exact ⟨h.1, ih h.2⟩

theorem Segment.of_append (h : Segment next p (xs ++ ys) r) :
    ∃ q, Segment next p xs q ∧ Segment next q ys r := by
  induction xs generalizing p with
  | nil => exact ⟨p, rfl, h⟩
  | cons x xs ih =>
    obtain ⟨q, hxs, hys⟩ := ih h.2
    exact ⟨q, ⟨h.1, hxs⟩, hys⟩

@[simp] theorem chain_nil : Chain next p [] ↔ p = none := Iff.rfl

theorem chain_cons : Chain next p (x :: xs) ↔ p = some x ∧ Chain next (next x) xs := Iff.rfl

/-- Writing links of nodes outside the chain keeps it. -/
theorem Chain.frame (h : Chain next p xs) (hx : ∀ x ∈ xs, next' x = next x) :
    Chain next' p xs :=
  Segment.frame h hx

theorem Chain.none_iff (h : Chain next p xs) : p = none ↔ xs = [] := by
  cases xs with
  | nil => exact ⟨fun _ => rfl, fun _ => h⟩
  | cons x xs => simp [(chain_cons.mp h).1]

/-- The first node and the rest of a chain. -/
theorem Chain.tail (h : Chain next (some x) xs) : ∃ ys, xs = x :: ys ∧ Chain next (next x) ys := by
  cases xs with
  | nil => cases h
  | cons y ys =>
    obtain ⟨hy, hys⟩ := chain_cons.mp h
    cases hy
    exact ⟨ys, rfl, hys⟩

theorem Chain.unique (h : Chain next p xs) (h' : Chain next p ys) : xs = ys := by
  induction xs generalizing p ys with
  | nil =>
    rw [chain_nil] at h
    exact (h'.none_iff.mp h).symm
  | cons x xs ih =>
    obtain ⟨rfl, hxs⟩ := chain_cons.mp h
    obtain ⟨zs, rfl, hzs⟩ := h'.tail
    rw [ih hxs hzs]

/-- A chain that comes back to a node would never end. -/
theorem Chain.nodup (h : Chain next p xs) : xs.Nodup := by
  induction xs generalizing p with
  | nil => exact List.nodup_nil
  | cons x xs ih =>
    obtain ⟨-, hxs⟩ := chain_cons.mp h
    refine List.nodup_cons.mpr ⟨fun hmem => ?_, ih hxs⟩
    obtain ⟨as, bs, rfl⟩ := List.append_of_mem hmem
    obtain ⟨q, -, hq⟩ := Segment.of_append hxs
    have hq' : Chain next q (x :: bs) := hq
    have hlen := congrArg List.length (hxs.unique (chain_cons.mp hq').2)
    simp at hlen
    omega

section Update

variable [DecidableEq α]

theorem Chain.update_of_notMem (h : Chain next p xs) (hx : x ∉ xs) (v : Option α) :
    Chain (Function.update next x v) p xs := by
  refine h.frame fun y hy => Function.update_of_ne ?_ _ _
  rintro rfl
  exact hx hy

/-- Link a node in front of a chain. -/
theorem Chain.cons (h : Chain next p xs) (hx : x ∉ xs) :
    Chain (Function.update next x p) (some x) (x :: xs) := by
  refine chain_cons.mpr ⟨rfl, ?_⟩
  rw [Function.update_self]
  exact h.update_of_notMem hx p

/-- Point the last node of a segment somewhere else. -/
theorem Segment.redirect (h : Segment next p (xs ++ [x]) r) (hx : x ∉ xs) (q : Option α) :
    Segment (Function.update next x q) p (xs ++ [x]) q := by
  obtain ⟨m, hxs, hm, -⟩ := Segment.of_append h
  have hlast : Segment (Function.update next x q) m [x] q :=
    ⟨hm, show Function.update next x q x = q from Function.update_self ..⟩
  refine Segment.append (hxs.frame fun y hy => ?_) hlast
  exact Function.update_of_ne (ne_of_mem_of_not_mem hy hx) _ _

/-- Link a chain behind the last node of another. -/
theorem Chain.concat (h : Chain next p (xs ++ [x])) (h' : Chain next q ys) (hx : x ∉ ys) :
    Chain (Function.update next x q) p (xs ++ [x] ++ ys) := by
  have hnd : x ∉ xs := fun hmem => (List.nodup_append.mp h.nodup).2.2 x hmem x (by simp) rfl
  exact (Segment.redirect h hnd q).append (h'.update_of_notMem hx q)

end Update
