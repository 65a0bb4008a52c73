/-
`SPMCQueue` as a bounded deque.

When calls do not overlap, each of them is a function of the members `buffer_`, `bottom_`
and `top_`.  These functions are translated here call by call, with the indices they use,
and compared with a list of at most `kMaxSize` elements.

* `Ring`, `Ring.call` — the members and the calls;
* `Deque`, `Deque.call` — the abstract deque, which cannot hold more than its capacity;
* `Ring.contents` — what the members stand for;
* `results_eq_deque` — **the results of every sequence of calls are those of the deque**, and
  every index is within the buffer;
* `call_run` — a call is a run of the steps of `SpmcQueue.step` that nobody interrupts.
-/
import AntServer.SpmcQueue

namespace SpmcQueue

variable {T ι : Type*}

/-! ### The calls -/

structure Ring (T : Type*) where
  buffer : ℕ → Option T
  bottom : ℤ
  top : ℤ

def Ring.empty : Ring T := ⟨fun _ => none, 0, 0⟩

inductive Call (T : Type*)
  | push (node : Option T)
  | tryPop
  | steal (spurious : Bool)             -- whether the weak compare-exchange fails
  | size
  | takeHalf (outBatch : ℕ → Option T)  -- the array before the call

inductive Result (T : Type*)
  | pushed (ok : Bool)
  | task (task : Option T)
  | size (size : ℤ)
  | taken (count : ℕ) (outBatch : ℕ → Option T)

/-- What a call leaves, returns and uses: the indices into `buffer_` and `out_batch`. -/
structure Answer (S T : Type*) where
  state : S
  result : Result T
  indices : List ℕ

namespace Ring

variable (c : Capacity) (q : Ring T)

def push (node : Option T) : Answer (Ring T) T :=
  let b := q.bottom
  let t := q.top
  if b - t < c.kMaxSize then
    { state := { q with buffer := Function.update q.buffer (c.slot b) node, bottom := b + 1 }
      result := .pushed true
      indices := [c.slot b] }
  else { state := q, result := .pushed false, indices := [] }

def tryPop : Answer (Ring T) T :=
  let b := q.bottom - 1
  let q := { q with bottom := b }
  let t := q.top
  if t ≤ b then
    let task := q.buffer (c.slot b)
    if t = b then
      -- the compare-exchange finds the value just loaded
      { state := { q with top := t + 1, bottom := b + 1 }
        result := .task task
        indices := [c.slot b] }
    else { state := q, result := .task task, indices := [c.slot b] }
  else { state := { q with bottom := b + 1 }, result := .task none, indices := [] }

def steal (spurious : Bool) : Answer (Ring T) T :=
  let t := q.top
  let b := q.bottom
  if t < b then
    let task := q.buffer (c.slot t)
    if spurious = false then
      { state := { q with top := t + 1 }, result := .task task, indices := [c.slot t] }
    else { state := q, result := .task none, indices := [c.slot t] }
  else { state := q, result := .task none, indices := [] }

def size : Answer (Ring T) T :=
  let sz := q.bottom - q.top
  { state := q, result := .size (if 0 < sz then sz else 0), indices := [] }

/-- The loop `out_batch[i] = buffer_[(t + i) & kMask]`. -/
def copyBatch (t : ℤ) (n : ℕ) (outBatch : ℕ → Option T) : ℕ → Option T :=
  (List.range n).foldl
    (fun out (i : ℕ) => Function.update out i (q.buffer (c.slot (t + i)))) outBatch

def takeHalf (outBatch : ℕ → Option T) : Answer (Ring T) T :=
  let b := q.bottom
  let t := q.top
  let size := b - t
  if size ≤ 0 then { state := q, result := .taken 0 outBatch, indices := [] }
  else
    let n := numToTake size
    { state := { q with top := t + n }
      result := .taken n (copyBatch c q t n outBatch)
      indices := (List.range n).flatMap fun (i : ℕ) => [i, c.slot (t + i)] }

def call : Call T → Answer (Ring T) T
  | .push node => push c q node
  | .tryPop => tryPop c q
  | .steal spurious => steal c q spurious
  | .size => size q
  | .takeHalf outBatch => takeHalf c q outBatch

end Ring

/-- The answers to a sequence of calls. -/
def answers {S : Type*} (call : S → Call T → Answer S T) : S → List (Call T) → List (Answer S T)
  | _, [] => []
  | s, k :: ks => call s k :: answers call (call s k).state ks

/-! ### The deque -/

/-- At most `capacity` elements, oldest first. -/
@[ext]
structure Deque (T : Type*) (capacity : ℕ) where
  items : List (Option T)
  bound : items.length ≤ capacity

namespace Deque

variable {capacity : ℕ}

def empty : Deque T capacity := ⟨[], Nat.zero_le _⟩

/-- The number of elements that `TakeHalf` removes. -/
def half (len : ℕ) : ℕ := if len = 0 then 0 else max 1 (len / 2)

def dropFront (d : Deque T capacity) (n : ℕ) : Deque T capacity :=
  ⟨d.items.drop n, by
    have := d.bound
    rw [List.length_drop]
    omega⟩

def dropBack (d : Deque T capacity) : Deque T capacity :=
  ⟨d.items.dropLast, by
    have := d.bound
    rw [List.length_dropLast]
    omega⟩

/-- The elements `xs` at the start of the array, the rest as it was. -/
def overwrite (xs : List (Option T)) (outBatch : ℕ → Option T) (i : ℕ) : Option T :=
  xs.getD i (outBatch i)

def call (d : Deque T capacity) : Call T → Deque T capacity × Result T
  | .push node =>
    if h : d.items.length = capacity then (d, .pushed false)
    else
      (⟨d.items ++ [node], by
        have := d.bound
        rw [List.length_append, List.length_singleton]
        omega⟩, .pushed true)
  | .tryPop => (d.dropBack, .task (d.items.getLast?.getD none))
  | .steal true => (d, .task none)
  | .steal false => (d.dropFront 1, .task (d.items.head?.getD none))
  | .size => (d, .size d.items.length)
  | .takeHalf outBatch =>
    let n := half d.items.length
    (d.dropFront n, .taken n (overwrite (d.items.take n) outBatch))

def results (d : Deque T capacity) : List (Call T) → List (Result T)
  | [] => []
  | k :: ks => (d.call k).2 :: results (d.call k).1 ks

end Deque

/-! ### What the members stand for -/

theorem Capacity.kMaxSize_pos (c : Capacity) : 0 < c.kMaxSize := by
  obtain ⟨k, hk⟩ := c.pow2
  rw [hk]
  exact Nat.two_pow_pos k

/-- The mask keeps every index within the buffer. -/
theorem Capacity.slot_lt (c : Capacity) (i : ℤ) : c.slot i < c.kMaxSize := by
  rw [c.slot_eq_mod]
  exact Nat.mod_lt _ c.kMaxSize_pos

theorem Deque.overwrite_take (xs : List (Option T)) (n : ℕ) (outBatch : ℕ → Option T) (i : ℕ) :
    overwrite (xs.take n) outBatch i = (if i < n then xs[i]? else none).getD (outBatch i) := by
  rw [overwrite, List.getD_eq_getElem?_getD, List.getElem?_take]

namespace Ring

variable {c : Capacity} {q : Ring T}

/-- The elements from `top_` to `bottom_`. -/
def contents (c : Capacity) (q : Ring T) : List (Option T) :=
  (List.range (q.bottom - q.top).toNat).map fun (i : ℕ) => q.buffer (c.slot (q.top + i))

structure Good (c : Capacity) (q : Ring T) : Prop where
  top_nonneg : 0 ≤ q.top
  le : q.top ≤ q.bottom
  room : q.bottom - q.top ≤ c.kMaxSize

@[simp] theorem length_contents : (contents c q).length = (q.bottom - q.top).toNat := by
  rw [contents, List.length_map, List.length_range]

theorem getElem?_contents {i : ℕ} (hi : i < (q.bottom - q.top).toNat) :
    (contents c q)[i]? = some (q.buffer (c.slot (q.top + i))) := by
  rw [contents, List.getElem?_map, List.getElem?_range hi, Option.map_some]

/-- A store at `bottom_` is not seen before `bottom_` is advanced. -/
theorem contents_store (h : Good c q) (hroom : q.bottom - q.top < c.kMaxSize) (node : Option T) :
    contents c { q with buffer := Function.update q.buffer (c.slot q.bottom) node } =
      contents c q := by
  refine List.map_congr_left fun i hi => ?_
  have hi' : i < (q.bottom - q.top).toNat := List.mem_range.mp hi
  have htop := h.top_nonneg
  show Function.update q.buffer (c.slot q.bottom) node (c.slot (q.top + i)) = _
  -- no position of the window has the slot of `bottom_`
  exact Function.update_of_ne (c.slot_ne (by omega) (by omega) (by omega)) _ _

/-- Storing at `bottom_` and advancing it appends. -/
theorem contents_push (h : Good c q) (hroom : q.bottom - q.top < c.kMaxSize) (node : Option T) :
    contents c { q with
      buffer := Function.update q.buffer (c.slot q.bottom) node, bottom := q.bottom + 1 } =
      contents c q ++ [node] := by
  have hle := h.le
  have hlen : (q.bottom + 1 - q.top).toNat = (q.bottom - q.top).toNat + 1 := by omega
  simp only [contents, hlen, List.range_succ, List.map_append, List.map_cons, List.map_nil]
  congr 1
  · exact contents_store h hroom node
  · have hlast : q.top + ((q.bottom - q.top).toNat : ℕ) = q.bottom := by omega
    rw [hlast, Function.update_self]

/-- Advancing `top_` drops the oldest elements. -/
theorem contents_advance {n : ℕ} (hn : q.top + n ≤ q.bottom) :
    contents c { q with top := q.top + n } = (contents c q).drop n := by
  have hlen : (q.bottom - (q.top + n)).toNat = (q.bottom - q.top).toNat - n := by omega
  refine List.ext_getElem? fun i => ?_
  rw [List.getElem?_drop]
  by_cases hi : i < (q.bottom - q.top).toNat - n
  · rw [getElem?_contents (by rw [hlen]; exact hi), getElem?_contents (by omega)]
    push_cast
    rw [add_assoc]
  · rw [List.getElem?_eq_none (by simp only [length_contents, hlen]; omega),
      List.getElem?_eq_none (by simp only [length_contents]; omega)]

/-- Lowering `bottom_` drops the newest element. -/
theorem contents_lower :
    contents c { q with bottom := q.bottom - 1 } = (contents c q).dropLast := by
  have hlen : (q.bottom - 1 - q.top).toNat = (q.bottom - q.top).toNat - 1 := by omega
  refine List.ext_getElem? fun i => ?_
  rw [List.getElem?_dropLast, length_contents]
  split
  next hi => rw [getElem?_contents (by simp only [hlen]; exact hi), getElem?_contents (by omega)]
  next hi => rw [List.getElem?_eq_none (by simp only [length_contents, hlen]; omega)]

theorem head?_contents (hlt : q.top < q.bottom) :
    (contents c q).head? = some (q.buffer (c.slot q.top)) := by
  rw [List.head?_eq_getElem?, getElem?_contents (by omega), Nat.cast_zero, add_zero]

theorem getLast?_contents (hlt : q.top < q.bottom) :
    (contents c q).getLast? = some (q.buffer (c.slot (q.bottom - 1))) := by
  have hlast : q.top + (((q.bottom - q.top).toNat - 1 : ℕ) : ℤ) = q.bottom - 1 := by omega
  rw [List.getLast?_eq_getElem?, length_contents, getElem?_contents (by omega), hlast]

theorem contents_eq_nil (hle : q.bottom ≤ q.top) : contents c q = [] := by
  rw [← List.length_eq_zero_iff, length_contents]
  omega

/-- The copying loop writes the elements in order to the start of the array. -/
theorem copyBatch_eq {n : ℕ} (hn : q.top + n ≤ q.bottom) (outBatch : ℕ → Option T) :
    copyBatch c q q.top n outBatch = Deque.overwrite ((contents c q).take n) outBatch := by
  induction n with
  | zero =>
    funext i
    simp [copyBatch, Deque.overwrite]
  | succ n ih =>
    rw [copyBatch, List.range_succ, List.foldl_append, List.foldl_cons, List.foldl_nil,
      ← copyBatch, ih (by omega)]
    funext i
    rw [Deque.overwrite_take]
    by_cases hi : i = n
    · subst hi
      rw [Function.update_self, if_pos (Nat.lt_succ_self i), getElem?_contents (by omega),
        Option.getD_some]
    · rw [Function.update_of_ne hi, Deque.overwrite_take]
      by_cases hlt : i < n
      · rw [if_pos hlt, if_pos (by omega)]
      · rw [if_neg hlt, if_neg (by omega)]

end Ring

/-! ### The refinement -/

/-- The ring stands for the deque. -/
structure Shows (c : Capacity) (q : Ring T) (d : Deque T c.kMaxSize) : Prop where
  good : q.Good c
  items : q.contents c = d.items

/-- The ring answers as the deque does. -/
structure Answers (c : Capacity) (a : Answer (Ring T) T) (r : Deque T c.kMaxSize × Result T) :
    Prop where
  shows_state : Shows c a.state r.1
  result : a.result = r.2
  indices : ∀ i ∈ a.indices, i < c.kMaxSize

section Calls

variable {c : Capacity} {q : Ring T} {d : Deque T c.kMaxSize}

theorem shows_empty (c : Capacity) : Shows c (Ring.empty : Ring T) Deque.empty where
  good := ⟨le_rfl, le_rfl, by simp [Ring.empty]⟩
  items := rfl

theorem Shows.length (h : Shows c q d) : (d.items.length : ℤ) = q.bottom - q.top := by
  have hle := h.good.le
  rw [← h.items, Ring.length_contents]
  omega

theorem Shows.items_eq_nil (h : Shows c q d) (hle : q.bottom ≤ q.top) : d.items = [] := by
  rw [← h.items, Ring.contents_eq_nil hle]

theorem singleton_slot_lt (c : Capacity) (i : ℤ) : ∀ j ∈ [c.slot i], j < c.kMaxSize := by
  intro j hj
  rw [List.mem_singleton.mp hj]
  exact c.slot_lt i

/-- `top_` is advanced by `n`. -/
theorem Shows.advance (h : Shows c q d) {n : ℕ} (hn : q.top + n ≤ q.bottom) :
    Shows c { q with top := q.top + n } (d.dropFront n) where
  good := by
    have := h.good
    exact ⟨by simp only; linarith [this.top_nonneg], hn, by simp only; linarith [this.room]⟩
  items := by rw [Ring.contents_advance hn, h.items, Deque.dropFront]

theorem push_answers (h : Shows c q d) (node : Option T) :
    Answers c (q.push c node) (d.call (.push node)) := by
  have hlen := h.length
  rw [Ring.push, Deque.call]
  by_cases hroom : q.bottom - q.top < c.kMaxSize
  · rw [if_pos hroom, dif_neg (by omega)]
    refine ⟨⟨⟨h.good.top_nonneg, ?_, ?_⟩, ?_⟩, rfl, singleton_slot_lt c _⟩
    · show q.top ≤ q.bottom + 1
      linarith [h.good.le]
    · show q.bottom + 1 - q.top ≤ c.kMaxSize
      omega
    · exact (Ring.contents_push h.good hroom node).trans (congrArg (· ++ [node]) h.items)
  · have hfull : d.items.length = c.kMaxSize := by
      have := d.bound
      omega
    rw [if_neg hroom, dif_pos hfull]
    exact ⟨h, rfl, fun i hi => absurd hi List.not_mem_nil⟩

theorem tryPop_answers (h : Shows c q d) : Answers c (q.tryPop c) (d.call .tryPop) := by
  have hlen := h.length
  rw [Ring.tryPop, Deque.call]
  by_cases hlt : q.top ≤ q.bottom - 1
  · have hlast : d.items.getLast?.getD none = q.buffer (c.slot (q.bottom - 1)) := by
      rw [← h.items, Ring.getLast?_contents (by omega), Option.getD_some]
    rw [if_pos hlt, hlast]
    by_cases hone : q.top = q.bottom - 1
    · -- the only element: `top_` passes it and `bottom_` comes back
      rw [if_pos hone]
      refine ⟨?_, rfl, singleton_slot_lt c _⟩
      have hadvance := h.advance (n := 1) (by push_cast; omega)
      have hsame : d.dropFront 1 = d.dropBack := by
        have hsingle : d.items.length = 1 := by omega
        obtain ⟨x, hx⟩ := List.length_eq_one_iff.mp hsingle
        simp [Deque.dropFront, Deque.dropBack, hx]
      rw [hsame] at hadvance
      have hbottom : q.bottom - 1 + 1 = q.bottom := by omega
      simpa [hbottom] using hadvance
    · rw [if_neg hone]
      refine ⟨⟨⟨h.good.top_nonneg, hlt, ?_⟩, ?_⟩, rfl, singleton_slot_lt c _⟩
      · show q.bottom - 1 - q.top ≤ c.kMaxSize
        linarith [h.good.room]
      · show Ring.contents c { q with bottom := q.bottom - 1 } = d.items.dropLast
        rw [Ring.contents_lower, h.items]
  · have hnil := h.items_eq_nil (by omega)
    have hbottom : q.bottom - 1 + 1 = q.bottom := by omega
    have hsame : d.dropBack = d := by simp [Deque.dropBack, hnil, Deque.ext_iff]
    rw [if_neg hlt, hnil, hsame]
    refine ⟨?_, rfl, fun i hi => absurd hi List.not_mem_nil⟩
    simpa [hbottom] using h

theorem steal_answers (h : Shows c q d) (spurious : Bool) :
    Answers c (q.steal c spurious) (d.call (.steal spurious)) := by
  rw [Ring.steal]
  by_cases hlt : q.top < q.bottom
  · rw [if_pos hlt]
    cases spurious with
    | true => exact ⟨h, rfl, singleton_slot_lt c _⟩
    | false =>
      have hhead : d.items.head?.getD none = q.buffer (c.slot q.top) := by
        rw [← h.items, Ring.head?_contents hlt, Option.getD_some]
      have hadvance := h.advance (n := 1) (by push_cast; omega)
      rw [Deque.call, hhead]
      exact ⟨hadvance, rfl, singleton_slot_lt c _⟩
  · have hnil := h.items_eq_nil (by omega)
    rw [if_neg hlt]
    cases spurious with
    | true => exact ⟨h, rfl, fun i hi => absurd hi List.not_mem_nil⟩
    | false =>
      have hsame : d.dropFront 1 = d := by simp [Deque.dropFront, hnil, Deque.ext_iff]
      rw [Deque.call, hsame, hnil]
      exact ⟨h, rfl, fun i hi => absurd hi List.not_mem_nil⟩

theorem size_answers (h : Shows c q d) : Answers c q.size (d.call .size) := by
  have hlen := h.length
  refine ⟨h, ?_, fun i hi => absurd hi List.not_mem_nil⟩
  rw [Ring.size, Deque.call]
  simp only [Result.size.injEq]
  split <;> omega

theorem numToTake_eq_half {len : ℕ} (h : 0 < len) : numToTake len = Deque.half len := by
  rw [numToTake, Deque.half, if_neg h.ne']
  split <;> omega

theorem takeHalf_answers (h : Shows c q d) (outBatch : ℕ → Option T) :
    Answers c (q.takeHalf c outBatch) (d.call (.takeHalf outBatch)) := by
  have hlen := h.length
  rw [Ring.takeHalf, Deque.call]
  by_cases hle : q.bottom - q.top ≤ 0
  · have hnil := h.items_eq_nil (by omega)
    have hsame : d.dropFront 0 = d := by simp [Deque.dropFront]
    have hhalf : Deque.half d.items.length = 0 := by simp [hnil, Deque.half]
    have hover : Deque.overwrite ([] : List (Option T)) outBatch = outBatch := by
      funext i
      rfl
    rw [if_pos hle, hhalf, hsame, List.take_zero, hover]
    exact ⟨h, rfl, fun i hi => absurd hi List.not_mem_nil⟩
  · have hhalf : numToTake (q.bottom - q.top) = Deque.half d.items.length := by
      rw [← hlen]
      exact numToTake_eq_half (by omega)
    have hn := numToTake_le (by omega : 0 < q.bottom - q.top)
    have hroom := h.good.room
    rw [if_neg hle, ← hhalf, ← h.items]
    refine ⟨h.advance (by omega), ?_, fun i hi => ?_⟩
    · show Result.taken _ (Ring.copyBatch c q q.top _ outBatch) = Result.taken _ _
      rw [Ring.copyBatch_eq (by omega)]
    · obtain ⟨k, hk, hi⟩ := List.mem_flatMap.mp hi
      rw [List.mem_range] at hk
      rcases List.mem_pair.mp hi with rfl | rfl
      · omega
      · exact c.slot_lt _

/-- **Step lemma.** -/
theorem call_answers (h : Shows c q d) (k : Call T) : Answers c (q.call c k) (d.call k) := by
  cases k with
  | push node => exact push_answers h node
  | tryPop => exact tryPop_answers h
  | steal spurious => exact steal_answers h spurious
  | size => exact size_answers h
  | takeHalf outBatch => exact takeHalf_answers h outBatch

/-- **Run lemma.** -/
theorem answers_shown (h : Shows c q d) (ks : List (Call T)) :
    (answers (Ring.call c) q ks).map Answer.result = d.results ks ∧
      ∀ a ∈ answers (Ring.call c) q ks, ∀ i ∈ a.indices, i < c.kMaxSize := by
  induction ks generalizing q d with
  | nil => exact ⟨rfl, fun a ha => absurd ha List.not_mem_nil⟩
  | cons k ks ih =>
    have hk := call_answers h k
    obtain ⟨hresults, hindices⟩ := ih hk.shows_state
    constructor
    · rw [answers, List.map_cons, hresults, hk.result, Deque.results]
    · intro a ha
      rcases List.mem_cons.mp ha with rfl | ha
      · exact hk.indices
      · exact hindices a ha

end Calls

/-- **`SPMCQueue` is a bounded deque.**  The results of any sequence of calls on the empty
queue are those of the deque, and every index used is within the arrays. -/
theorem results_eq_deque (c : Capacity) (ks : List (Call T)) :
    (answers (Ring.call c) Ring.empty ks).map Answer.result =
        (Deque.empty : Deque T c.kMaxSize).results ks ∧
      ∀ a ∈ answers (Ring.call c) (Ring.empty : Ring T) ks, ∀ i ∈ a.indices, i < c.kMaxSize :=
  answers_shown (shows_empty c) ks

/-! ### The calls as runs of the steps -/

def State.ring (s : State T ι) : Ring T := ⟨s.buffer, s.bottom, s.top⟩

/-- What the history says of a call by the owner or by thief `i`. -/
def Records (i : ι) (s s' : State T ι) : Call T → Result T → Prop
  | .push node, .pushed ok => s'.accepted = s.accepted ++ (if ok then [node] else [])
  | .takeHalf outBatch, .taken n out =>
    if n = 0 then s'.batches = s.batches
    else ∃ xs, s'.batches = s.batches ++ [(i, s.top, xs)] ∧ xs.length = n ∧
      Deque.overwrite xs outBatch = out
  | .size, .size _ => s' = s
  | .tryPop, .task task | .steal _, .task task =>
    (s'.returned = s.returned ∧ task = none) ∨
      ∃ stamp, s'.returned = s.returned ++ [(stamp, task)]
  | _, _ => False

section Runs

variable [DecidableEq ι] {c : Capacity} {s : State T ι}

theorem push_run (i : ι) (hq : s.Quiescent) (node : Option T) :
    ∃ ls s', StepSystem.run (step c) s ls = some s' ∧ s'.Quiescent ∧
      s'.ring = (s.ring.push c node).state ∧
      Records i s s' (.push node) (s.ring.push c node).result := by
  obtain ⟨howner, hthief⟩ := hq
  rw [Ring.push]
  by_cases hroom : s.bottom - s.top < c.kMaxSize
  · refine ⟨[.push node, .owner, .owner, .owner],
      { s with
        buffer := Function.update s.buffer (c.slot s.bottom) node
        bottom := s.bottom + 1
        owner := .idle
        accepted := s.accepted ++ [node]
        stamp := Function.update s.stamp s.bottom s.accepted.length }, ?_, ⟨rfl, hthief⟩, ?_⟩
    · simp only [StepSystem.run, step, howner, ownerStep, Option.bind_some, if_pos hroom]
    · have hring : s.ring.bottom - s.ring.top < c.kMaxSize := hroom
      rw [if_pos hring]
      exact ⟨rfl, rfl⟩
  · refine ⟨[.push node, .owner], s, ?_, ⟨howner, hthief⟩, ?_⟩
    · simp only [StepSystem.run, step, howner, ownerStep, if_neg hroom, Option.bind_some]
      rw [← howner]
    · have hring : ¬ s.ring.bottom - s.ring.top < c.kMaxSize := hroom
      rw [if_neg hring]
      exact ⟨rfl, (List.append_nil _).symm⟩

theorem tryPop_run (i : ι) (hq : s.Quiescent) :
    ∃ ls s', StepSystem.run (step c) s ls = some s' ∧ s'.Quiescent ∧
      s'.ring = (s.ring.tryPop c).state ∧
      Records i s s' .tryPop (s.ring.tryPop c).result := by
  obtain ⟨howner, hthief⟩ := hq
  rw [Ring.tryPop]
  by_cases hle : s.top ≤ s.bottom - 1
  · have hring : s.ring.top ≤ s.ring.bottom - 1 := hle
    rw [if_pos hring]
    by_cases hone : s.top = s.bottom - 1
    · have hring' : s.ring.top = s.ring.bottom - 1 := hone
      rw [if_pos hring']
      refine ⟨[.tryPop, .owner, .owner, .owner, .owner, .owner],
        { s with
          bottom := s.bottom - 1 + 1
          top := s.bottom - 1 + 1
          owner := .idle
          handed := s.handed ++ stampedRange s.stamp (s.bottom - 1) 1
          returned := s.returned ++
            [(s.stamp (s.bottom - 1), s.buffer (c.slot (s.bottom - 1)))] }, ?_, ⟨rfl, hthief⟩, ?_,
        Or.inr ⟨_, rfl⟩⟩
      · simp only [StepSystem.run, step, howner, hone, ownerStep, Option.bind_some,
          lt_self_iff_false, if_false, le_refl, if_true]
      · simp [State.ring, hone]
    · have hring' : ¬ s.ring.top = s.ring.bottom - 1 := hone
      rw [if_neg hring']
      refine ⟨[.tryPop, .owner, .owner, .owner],
        { s with
          bottom := s.bottom - 1
          owner := .idle
          handed := s.handed ++ stampedRange s.stamp (s.bottom - 1) 1
          returned := s.returned ++
            [(s.stamp (s.bottom - 1), s.buffer (c.slot (s.bottom - 1)))] }, ?_, ⟨rfl, hthief⟩, rfl,
        Or.inr ⟨_, rfl⟩⟩
      have hlt : s.top < s.bottom - 1 := lt_of_le_of_ne hle hone
      simp only [StepSystem.run, step, howner, ownerStep, Option.bind_some, if_pos hlt, if_pos hle,
        if_neg hone]
  · have hring : ¬ s.ring.top ≤ s.ring.bottom - 1 := hle
    rw [if_neg hring]
    refine ⟨[.tryPop, .owner, .owner, .owner],
      { s with bottom := s.bottom - 1 + 1, owner := .idle }, ?_, ⟨rfl, hthief⟩, rfl,
      Or.inl ⟨rfl, rfl⟩⟩
    have hlt : ¬ s.top < s.bottom - 1 := fun h => hle h.le
    simp only [StepSystem.run, step, howner, ownerStep, Option.bind_some, if_neg hlt, if_neg hle]

theorem State.Quiescent.update_idle (hq : s.Quiescent) (i : ι) :
    Function.update s.thief i .idle = s.thief := by
  rw [← hq.2 i, Function.update_eq_self]

theorem steal_run (i : ι) (hq : s.Quiescent) (spurious : Bool) :
    ∃ ls s', StepSystem.run (step c) s ls = some s' ∧ s'.Quiescent ∧
      s'.ring = (s.ring.steal c spurious).state ∧
      Records i s s' (.steal spurious) (s.ring.steal c spurious).result := by
  have hidle := hq.update_idle i
  have hthief := hq.2 i
  rw [Ring.steal]
  by_cases hlt : s.top < s.bottom
  · have hring : s.ring.top < s.ring.bottom := hlt
    rw [if_pos hring]
    cases spurious with
    | true =>
      refine ⟨[.steal i, .thief i true, .thief i true, .thief i true], s, ?_, hq, rfl,
        Or.inl ⟨rfl, rfl⟩⟩
      simp only [StepSystem.run, step, hthief, thiefStep, State.setThief, Option.bind_some,
        Function.update_self, Function.update_idem, if_pos hlt, hidle, Bool.true_eq_false,
        and_false, if_false]
    | false =>
      refine ⟨[.steal i, .thief i false, .thief i false, .thief i false],
        { s with
          top := s.top + 1
          handed := s.handed ++ stampedRange s.stamp s.top 1
          returned := s.returned ++ [(s.stamp s.top, s.buffer (c.slot s.top))] }, ?_, hq, rfl,
        Or.inr ⟨_, rfl⟩⟩
      simp only [StepSystem.run, step, hthief, thiefStep, State.setThief, Option.bind_some,
        Function.update_self, Function.update_idem, if_pos hlt, hidle, and_true, if_true]
  · have hring : ¬ s.ring.top < s.ring.bottom := hlt
    rw [if_neg hring]
    refine ⟨[.steal i, .thief i spurious], s, ?_, hq, rfl, Or.inl ⟨rfl, rfl⟩⟩
    simp only [StepSystem.run, step, hthief, thiefStep, State.setThief, Option.bind_some,
      Function.update_self, Function.update_idem, if_neg hlt, hidle]

/-- The copying loop of `TakeHalf`, with `m + 1` elements to go. -/
theorem takeCopy_run (i : ι) (t : ℤ) (n m : ℕ) (out : List (Option T)) (s : State T ι)
    (hpc : s.thief i = .takeCopy t n out) (hm : out.length + (m + 1) = n) :
    ∃ ls, StepSystem.run (step c) s ls =
      some { s.setThief i .idle with
        batches := s.batches ++ [(i, t, out ++ (List.range (m + 1)).map fun (k : ℕ) =>
          s.buffer (c.slot (t + (out.length + k))))] } := by
  induction m generalizing out s with
  | zero =>
    have hlast : ¬ out.length + 1 < n := by omega
    refine ⟨[.thief i false], ?_⟩
    simp [StepSystem.run, step, thiefStep, hpc, hlast]
  | succ m ih =>
    have hmore : out.length + 1 < n := by omega
    obtain ⟨ls, hls⟩ := ih (out ++ [s.buffer (c.slot (t + out.length))])
      (s.setThief i (.takeCopy t n (out ++ [s.buffer (c.slot (t + out.length))])))
      (Function.update_self ..) (by rw [List.length_append, List.length_singleton]; omega)
    refine ⟨.thief i false :: ls, StepSystem.run_cons.mpr ⟨_, ?_, hls.trans ?_⟩⟩
    · simp [step, thiefStep, hpc, hmore]
    · -- the first of the remaining elements is the one just copied
      have hrange : (List.range (m + 1 + 1)).map
          (fun (k : ℕ) => s.buffer (c.slot (t + (out.length + k)))) =
          s.buffer (c.slot (t + out.length)) :: (List.range (m + 1)).map
            fun (k : ℕ) => s.buffer (c.slot (t + ((out.length + 1 : ℕ) + k))) := by
        rw [List.range_succ_eq_map, List.map_cons, List.map_map]
        refine congrArg₂ List.cons (by simp) (List.map_congr_left fun k _ => ?_)
        simp only [Function.comp_apply]
        push_cast
        ring_nf
      rw [hrange]
      simp [State.setThief]

theorem takeHalf_run (i : ι) (hq : s.Quiescent) (outBatch : ℕ → Option T) :
    ∃ ls s', StepSystem.run (step c) s ls = some s' ∧ s'.Quiescent ∧
      s'.ring = (s.ring.takeHalf c outBatch).state ∧
      Records i s s' (.takeHalf outBatch) (s.ring.takeHalf c outBatch).result := by
  have hidle := hq.update_idle i
  have hthief := hq.2 i
  rw [Ring.takeHalf]
  by_cases hle : s.bottom - s.top ≤ 0
  · have hring : s.ring.bottom - s.ring.top ≤ 0 := hle
    rw [if_pos hring]
    refine ⟨[.takeHalf i, .thief i false], s, ?_, hq, rfl, rfl⟩
    simp only [StepSystem.run, step, hthief, thiefStep, State.setThief, Function.update_self,
      Option.bind_some, if_pos hle, Function.update_idem, hidle]
  · have hring : ¬ s.ring.bottom - s.ring.top ≤ 0 := hle
    have hsize : s.ring.bottom - s.ring.top = s.bottom - s.top := rfl
    have hpos := numToTake_pos (by omega : 0 < s.bottom - s.top)
    have hle' := numToTake_le (by omega : 0 < s.bottom - s.top)
    rw [if_neg hring, hsize]
    generalize hn : numToTake (s.bottom - s.top) = n at hpos hle'
    -- up to the compare-exchange, and then the loop
    have hclaim : StepSystem.run (step c) s [.takeHalf i, .thief i false, .thief i false] =
        some { s.setThief i (.takeCopy s.top n []) with
          top := s.top + n
          handed := s.handed ++ stampedRange s.stamp s.top n } := by
      simp only [StepSystem.run, step, hthief, thiefStep, State.setThief, Function.update_self,
        Option.bind_some, if_neg hle, Function.update_idem, if_true, hn]
    obtain ⟨ls, hls⟩ := takeCopy_run (c := c) i s.top n (n - 1) []
      { s.setThief i (.takeCopy s.top n []) with
          top := s.top + n
          handed := s.handed ++ stampedRange s.stamp s.top n }
      (Function.update_self ..) (by rw [List.length_nil]; omega)
    refine ⟨_, _, StepSystem.run_append.mpr ⟨_, hclaim, hls⟩, ⟨hq.1, fun j => ?_⟩, rfl, ?_⟩
    · simp only [State.setThief, Function.update_idem, hidle]
      exact hq.2 j
    · show if n = 0 then _ else _
      rw [if_neg hpos.ne']
      refine ⟨_, rfl, ?_, ?_⟩
      · rw [List.nil_append, List.length_map, List.length_range]
        omega
      · have hcopy : Ring.copyBatch c s.ring s.ring.top n outBatch =
            Deque.overwrite ((s.ring.contents c).take n) outBatch :=
          Ring.copyBatch_eq (by show s.top + n ≤ s.bottom; omega) outBatch
        have htake : min n (s.ring.bottom - s.ring.top).toNat = n :=
          min_eq_left (by rw [hsize]; omega)
        rw [hcopy, Ring.contents, ← List.map_take, List.take_range, Nat.sub_add_cancel hpos, htake]
        simp [State.ring, State.setThief]

/-- **A call that nobody interrupts is a call of the functions above.** -/
theorem call_run (i : ι) (hq : s.Quiescent) (k : Call T) :
    ∃ ls s', StepSystem.run (step c) s ls = some s' ∧ s'.Quiescent ∧
      s'.ring = (s.ring.call c k).state ∧ Records i s s' k (s.ring.call c k).result := by
  cases k with
  | push node => exact push_run i hq node
  | tryPop => exact tryPop_run i hq
  | steal spurious => exact steal_run i hq spurious
  | size => exact ⟨[], s, rfl, hq, rfl, rfl⟩
  | takeHalf outBatch => exact takeHalf_run i hq outBatch

end Runs

end SpmcQueue
