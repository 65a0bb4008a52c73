/-
The closures of timer callbacks.

`AddTimer(delay, callback)` stores the callable in a `TypeErasedTask`, whose
destructor calls `destroy_fn` for it.  If the timer fires, the task is executed and
deletes itself, as a `TypeErasedTask`.  If it was canceled, the pass that reaps the
entry deletes the task through `TimerEntry::task_node`, a `TaskNode*`; `TaskNode` has
no virtual destructor, so that no more than `~TaskNode` runs.

* `closureStep` — the timers with the task objects and the execution of what was
  dispatched;
* `Closures` — which objects exist, and whose closures have been destroyed;
* `destroyed_once_iff` — of a callback that was run or reaped the closure has been
  destroyed exactly once if and only if no `CancelTimer` found its entry;
* `canceled_closure_leaks` — a callback that was canceled.
-/
import AntServer.TimerDispatch
import AntServer.TimerIndex

namespace TimerKeeper

variable {Node : Type*}

/-! ### Task objects -/

/-- A `TypeErasedTask` with the callable given to the timer `closure`. -/
structure TaskObject where
  closure : ℕ
  autoDelete : Bool
deriving DecidableEq, Repr

structure Keeper (Node : Type*) where
  timers : State Node
  heap : Node → Option TaskObject
  ready : List (Extraction Node)    -- handed to the executor and not run yet
  -- history
  ran : List (Extraction Node)
  destroyed : List ℕ                -- the closures for which `destroy_fn` was called

def Keeper.init (Node : Type*) (startTime : ℤ) : Keeper Node where
  timers := TimerKeeper.init Node startTime
  heap := fun _ => none
  ready := []
  ran := []
  destroyed := []

inductive StaticType
  | taskNode
  | typeErasedTask
deriving DecidableEq, Repr

section Objects

variable [DecidableEq Node]

/-- The destructor of the static type, and the memory is freed. -/
def Keeper.deleteAs (k : Keeper Node) (type : StaticType) (node : Node) : Keeper Node :=
  { k with
    heap := Function.update k.heap node none
    destroyed :=
      match type, k.heap node with
      | .typeErasedTask, some task => k.destroyed ++ [task.closure]
      | _, _ => k.destroyed }

/-- What a pass deletes with a canceled entry. -/
def Keeper.reap (k : Keeper Node) (e : TimerEntry Node) : Keeper Node :=
  match e.taskNode with
  | some node => if e.ownsTaskNode then k.deleteAs .taskNode node else k
  | none => k

/-- `TaskNode::run`; a node that is none of these objects belongs to the caller. -/
def Keeper.execute (k : Keeper Node) (node : Node) : Keeper Node :=
  match k.heap node with
  | none => k
  | some task => if task.autoDelete then k.deleteAs .typeErasedTask node else k

/-- The moves of `step`, and the executor runs a task that it was handed. -/
inductive KeeperLabel (Node : Type*)
  | timer (l : Label Node)
  | run (i : ℕ)
deriving DecidableEq, Repr

/-- What a move of the timers does to the task objects. -/
def Keeper.after (k : Keeper Node) (s : State Node) : Label Node → Keeper Node
  | .addTimer _ _ (.callback task) =>
    { k with
      timers := s
      heap := Function.update k.heap task (some ⟨k.timers.nextId, true⟩) }
  | .pass _ => (s.reaped.drop k.timers.reaped.length).foldl Keeper.reap { k with timers := s }
  | .dispatch =>
    { k with timers := s, ready := k.ready ++ s.dispatched.drop k.timers.dispatched.length }
  | _ => { k with timers := s }

def closureStep (k : Keeper Node) : KeeperLabel Node → Option (Keeper Node)
  | .timer l => (step k.timers l).map fun s => k.after s l
  | .run i =>
    match k.ready[i]? with
    | none => none
    | some x =>
      some (Keeper.execute { k with ready := k.ready.eraseIdx i, ran := k.ran ++ [x] } x.node)

/-- `new` returns memory that no object and no node in use lies in; callers add nodes
of their own, each at most once at a time. -/
def FreshTask (k : Keeper Node) : KeeperLabel Node → Prop
  | .timer (.addTimer _ _ (.callback task)) =>
    k.heap task = none ∧ ¬ Within k.timers.pendingAt task ∧ task ∉ k.ready.map Extraction.node
  | .timer (.addTimer _ _ (.taskNode (some node))) =>
    k.heap node = none ∧ ¬ Within k.timers.pendingAt node
  | _ => True

/-! ### The timers on their own -/

def timerLabels (ls : List (KeeperLabel Node)) : List (Label Node) :=
  ls.filterMap fun l => match l with
    | .timer l => some l
    | .run _ => none

@[simp] theorem reap_timers (k : Keeper Node) (e : TimerEntry Node) :
    (k.reap e).timers = k.timers := by
  rw [Keeper.reap]
  split
  · split <;> rfl
  · rfl

@[simp] theorem foldl_reap_timers (es : List (TimerEntry Node)) (k : Keeper Node) :
    (es.foldl Keeper.reap k).timers = k.timers := by
  induction es generalizing k with
  | nil => rfl
  | cons e es ih => rw [List.foldl_cons, ih, reap_timers]

@[simp] theorem execute_timers (k : Keeper Node) (node : Node) :
    (k.execute node).timers = k.timers := by
  rw [Keeper.execute]
  split
  · rfl
  · split <;> rfl

@[simp] theorem after_timers (k : Keeper Node) (s : State Node) (l : Label Node) :
    (k.after s l).timers = s := by
  unfold Keeper.after
  split
  · rfl
  · rw [foldl_reap_timers]
  · rfl
  · rfl

/-- A step of the timers, or none. -/
theorem closureStep_timers {k k' : Keeper Node} {l : KeeperLabel Node}
    (hs : closureStep k l = some k') :
    StepSystem.run step k.timers (timerLabels [l]) = some k'.timers := by
  cases l with
  | timer l =>
    obtain ⟨s, hstep, rfl⟩ := Option.map_eq_some_iff.mp hs
    rw [after_timers]
    exact StepSystem.run_cons.mpr ⟨s, hstep, rfl⟩
  | run i =>
    rw [closureStep] at hs
    split at hs
    · cases hs
    · cases hs
      rw [execute_timers]
      rfl

/-- **A run of the whole is a run of the timers.** -/
theorem run_timers {k k' : Keeper Node} {ls : List (KeeperLabel Node)}
    (hrun : StepSystem.run closureStep k ls = some k') :
    StepSystem.run step k.timers (timerLabels ls) = some k'.timers := by
  induction ls generalizing k with
  | nil =>
    rw [StepSystem.run_nil, Option.some_inj] at hrun
    exact hrun ▸ rfl
  | cons l ls ih =>
    obtain ⟨k₁, hl, hrun⟩ := StepSystem.run_cons.mp hrun
    have hsplit : timerLabels (l :: ls) = timerLabels [l] ++ timerLabels ls :=
      List.filterMap_append (l := [l])
    rw [hsplit]
    exact StepSystem.run_append.mpr ⟨k₁.timers, closureStep_timers hl, ih hrun⟩

omit [DecidableEq Node] in
theorem FreshTask.freshNode {k : Keeper Node} {l : Label Node} (h : FreshTask k (.timer l)) :
    FreshNode k.timers l := by
  cases l with
  | addTimer now delay target =>
    intro node hn
    rcases target with (_ | n) | task
    · cases hn
    · cases hn
      exact h.2
    · cases hn
      exact h.2.1
  | _ => trivial

/-! ### Which objects exist -/

/-- The places of timers whose tasks are still to be executed or reaped. -/
def Place.Live : Place → Prop
  | .handed => False
  | .reaped => False
  | _ => True

/-- The object of a timer's task: a callback has one of its own, a node of a caller
is none. -/
def objectOf (e : TimerEntry Node) : Option TaskObject :=
  if e.ownsTaskNode then some ⟨e.id, true⟩ else none

structure Closures (k : Keeper Node) : Prop where
  owned : ∀ p, p.Live → ∀ e ∈ k.timers.entriesAt p, e.ownsTaskNode = true → ∀ node,
    e.taskNode = some node → k.heap node = some ⟨e.id, true⟩
  callers : ∀ p, p.Live → ∀ e ∈ k.timers.entriesAt p, e.canceled = false →
    e.ownsTaskNode = false → ∀ node, e.taskNode = some node → k.heap node = none
  ready : ∀ x ∈ k.ready, k.heap x.node = objectOf x.entry
  split : (k.ran ++ k.ready).Perm k.timers.dispatched
  destroyed : k.destroyed =
    (k.ran.filter fun x => x.entry.ownsTaskNode).map fun x => x.entry.id

omit [DecidableEq Node] in
theorem Closures.init (startTime : ℤ) : Closures (Keeper.init Node startTime) := by
  have hnil : ∀ p, (TimerKeeper.init Node startTime).entriesAt p = [] := fun p => by
    cases p <;> rfl
  refine ⟨fun p _ e he => ?_, fun p _ e he => ?_, fun x hx => ?_, List.Perm.refl [], rfl⟩
  · have he' : e ∈ (TimerKeeper.init Node startTime).entriesAt p := he
    rw [hnil p] at he'
    exact absurd he' List.not_mem_nil
  · have he' : e ∈ (TimerKeeper.init Node startTime).entriesAt p := he
    rw [hnil p] at he'
    exact absurd he' List.not_mem_nil
  · exact absurd hx List.not_mem_nil

omit [DecidableEq Node] in
/-- The heap and the lists of the executor stay; the live timers are old ones. -/
theorem Closures.of_subset {k k' : Keeper Node} (h : Closures k) (hheap : k'.heap = k.heap)
    (hready : k'.ready = k.ready) (hran : k'.ran = k.ran) (hdes : k'.destroyed = k.destroyed)
    (hdisp : k'.timers.dispatched = k.timers.dispatched)
    (hold : ∀ p, p.Live → ∀ e ∈ k'.timers.entriesAt p, ∃ q, q.Live ∧
      ∃ e₀ ∈ k.timers.entriesAt q, e.id = e₀.id ∧ e.taskNode = e₀.taskNode ∧
        e.ownsTaskNode = e₀.ownsTaskNode ∧ (e.canceled = false → e₀.canceled = false)) :
    Closures k' := by
  refine ⟨fun p hp e he howns node hn => ?_, fun p hp e he hc howns node hn => ?_, ?_, ?_, ?_⟩
  · obtain ⟨q, hq, e₀, he₀, hid, hnode, hown, -⟩ := hold p hp e he
    rw [hheap, hid]
    exact h.owned q hq e₀ he₀ (hown ▸ howns) node (hnode ▸ hn)
  · obtain ⟨q, hq, e₀, he₀, -, hnode, hown, hcan⟩ := hold p hp e he
    rw [hheap]
    exact h.callers q hq e₀ he₀ (hcan hc) (hown ▸ howns) node (hnode ▸ hn)
  · rw [hready, hheap]
    exact h.ready
  · rw [hran, hready, hdisp]
    exact h.split
  · rw [hdes, hran]
    exact h.destroyed

/-! ### The steps -/

/-- From `s` to `t` timers have only stayed or been taken out of the wheel. -/
structure SweptFrom (s t : State Node) : Prop where
  live : ∀ p, p.Live → ∀ e ∈ t.entriesAt p, ∃ q, q.Live ∧ e ∈ s.entriesAt q
  dispatched : t.dispatched = s.dispatched
  reaped : ∃ es, t.reaped = s.reaped ++ es ∧ ∀ e ∈ es, ∃ q, q.Live ∧ e ∈ s.entriesAt q

theorem SweptFrom.sweepSlot {s t : State Node} (h : SweptFrom s t) (now : ℤ) :
    SweptFrom s (sweepSlot now t) := by
  obtain ⟨es, hreaped, hes⟩ := h.reaped
  obtain ⟨m, n, hd, -, heq⟩ := sweepSlot_eq now t
  have hbucket : ∀ k, ∀ e ∈ t.buckets k, ∃ q, q.Live ∧ e ∈ s.entriesAt q := fun k =>
    h.live (.bucket k) trivial
  refine ⟨fun p hp e he => ?_, by rw [heq]; exact h.dispatched,
    es ++ (t.buckets (slotOf t.lastTick)).filter TimerEntry.canceled, ?_, ?_⟩
  · cases p with
    | bucket k => exact hbucket k e (mem_sweepSlot.mp he).1
    | adding =>
      rw [heq] at he
      exact h.live .adding trivial e he
    | expired =>
      rw [heq] at he
      obtain ⟨x, hx, rfl⟩ := List.mem_map.mp he
      rcases List.mem_append.mp hx with hx | hx
      · obtain ⟨e, he, hxe⟩ := List.mem_filterMap.mp (List.mem_reverse.mp hx)
        rw [(extraction_eq_some hxe).1]
        exact hbucket _ e he
      · exact h.live .expired trivial _ (List.mem_map_of_mem hx)
    | handed => exact hp.elim
    | reaped => exact hp.elim
  · rw [heq, ← List.append_assoc, ← hreaped]
  · intro e he
    rcases List.mem_append.mp he with he | he
    · exact hes e he
    · exact hbucket _ e (List.mem_filter.mp he).1

theorem pass_sweptFrom (s : State Node) (now : ℤ) : SweptFrom s (pass s now) := by
  have h₀ : SweptFrom s { s with clock := now } := by
    refine ⟨fun p hp e he => ⟨p, hp, ?_⟩, rfl, [], (List.append_nil _).symm, fun e he => ?_⟩
    · cases p <;> exact he
    · exact absurd he List.not_mem_nil
  exact (pass_induction h₀ fun t ht _ => ht.sweepSlot now).1

/-- What reaping entries does: the memory of their tasks is freed, nothing else. -/
theorem foldl_reap (es : List (TimerEntry Node)) (k : Keeper Node) :
    (es.foldl Keeper.reap k).ready = k.ready ∧ (es.foldl Keeper.reap k).ran = k.ran ∧
      (es.foldl Keeper.reap k).destroyed = k.destroyed ∧
      (∀ node, k.heap node = none → (es.foldl Keeper.reap k).heap node = none) ∧
      ∀ node, (∀ e ∈ es, e.ownsTaskNode = true → e.taskNode ≠ some node) →
        (es.foldl Keeper.reap k).heap node = k.heap node := by
  induction es generalizing k with
  | nil => exact ⟨rfl, rfl, rfl, fun _ h => h, fun _ _ => rfl⟩
  | cons e es ih =>
    rw [List.foldl_cons]
    obtain ⟨h₁, h₂, h₃, h₄, h₅⟩ := ih (k.reap e)
    by_cases howns : ∃ node, e.taskNode = some node ∧ e.ownsTaskNode = true
    · obtain ⟨node, hn, howns⟩ := howns
      have hreap : k.reap e = k.deleteAs .taskNode node := by
        simp only [Keeper.reap, hn, howns, if_true]
      rw [hreap] at h₁ h₂ h₃ h₄ h₅ ⊢
      refine ⟨h₁, h₂, h₃, fun n hnone => h₄ n ?_, fun n hother => ?_⟩
      · show Function.update k.heap node none n = none
        by_cases heq : n = node
        · rw [heq, Function.update_self]
        · rw [Function.update_of_ne heq, hnone]
      · rw [h₅ n fun x hx => hother x (List.mem_cons_of_mem e hx)]
        have hne : n ≠ node := fun heq => hother e List.mem_cons_self howns (heq ▸ hn)
        exact Function.update_of_ne hne _ _
    · have hreap : k.reap e = k := by
        rw [Keeper.reap]
        split
        next node hn => exact if_neg fun h => howns ⟨node, hn, h⟩
        · rfl
      rw [hreap] at h₁ h₂ h₃ h₄ h₅ ⊢
      exact ⟨h₁, h₂, h₃, h₄, fun n hother => h₅ n fun x hx =>
        hother x (List.mem_cons_of_mem e hx)⟩

omit [DecidableEq Node] in
/-- A live timer and a handed or reaped one have different ids. -/
theorem id_ne_of_live {s : State Node} (hr : Recorded s) {p q : Place} (hp : p.Live)
    (hq : ¬ q.Live) {e e' : TimerEntry Node} (he : e ∈ s.entriesAt p) (he' : e' ∈ s.entriesAt q) :
    e.id ≠ e'.id := by
  intro hid
  obtain ⟨rfl, -⟩ := hr.entry_unique he he' hid
  exact hq hp

theorem Closures.pass {k : Keeper Node} (h : Closures k) (hr : Recorded k.timers) (now : ℤ) :
    Closures (k.after (pass k.timers now) (.pass now)) := by
  obtain ⟨hlive, hdisp, es, hreaped, hes⟩ := pass_sweptFrom k.timers now
  have hr' : Recorded (TimerKeeper.pass k.timers now) := hr.pass now
  have hnew : (TimerKeeper.pass k.timers now).reaped.drop k.timers.reaped.length = es := by
    rw [hreaped, List.drop_left]
  rw [Keeper.after, hnew]
  obtain ⟨h₁, h₂, h₃, h₄, h₅⟩ := foldl_reap es { k with timers := TimerKeeper.pass k.timers now }
  -- the task of a reaped callback is the task of no other timer
  have hreapedAt : ∀ e ∈ es, e ∈ (TimerKeeper.pass k.timers now).entriesAt .reaped := by
    intro e he
    show e ∈ (TimerKeeper.pass k.timers now).reaped
    rw [hreaped]
    exact List.mem_append_right _ he
  have hfree : ∀ {node id}, k.heap node = some ⟨id, true⟩ → (∀ e ∈ es, e.id ≠ id) →
      ∀ e ∈ es, e.ownsTaskNode = true → e.taskNode ≠ some node := by
    intro node id hheap hne e he howns hn
    obtain ⟨q, hq, heq⟩ := hes e he
    have hheap' := h.owned q hq e heq howns node hn
    rw [hheap] at hheap'
    exact hne e he (congrArg TaskObject.closure (Option.some.inj hheap')).symm
  refine ⟨fun p hp e he howns node hn => ?_, fun p hp e he hc howns node hn => ?_,
    fun x hx => ?_, ?_, ?_⟩
  · rw [foldl_reap_timers] at he
    obtain ⟨q, hq, heq⟩ := hlive p hp e he
    have hheap := h.owned q hq e heq howns node hn
    rw [h₅ node (hfree hheap fun r hr₀ =>
      (id_ne_of_live hr' hp (q := .reaped) id he (hreapedAt r hr₀)).symm)]
    exact hheap
  · rw [foldl_reap_timers] at he
    obtain ⟨q, hq, heq⟩ := hlive p hp e he
    exact h₄ node (h.callers q hq e heq hc howns node hn)
  · rw [h₁] at hx
    have hheap := h.ready x hx
    by_cases howns : x.entry.ownsTaskNode = true
    · rw [objectOf, if_pos howns] at hheap ⊢
      -- the timer of `x` was handed out, not reaped
      have hx' : x.entry ∈ (TimerKeeper.pass k.timers now).entriesAt .handed := by
        show x.entry ∈ (TimerKeeper.pass k.timers now).dispatched.map Extraction.entry
        rw [hdisp]
        exact List.mem_map_of_mem (h.split.subset (List.mem_append_right _ hx))
      rw [h₅ x.node (hfree hheap fun r hr₀ hid => ?_)]
      · exact hheap
      · obtain ⟨hplace, -⟩ := hr'.entry_unique (hreapedAt r hr₀) hx' hid
        cases hplace
    · rw [objectOf, if_neg howns] at hheap ⊢
      exact h₄ x.node hheap
  · rw [h₁, h₂, foldl_reap_timers]
    show (k.ran ++ k.ready).Perm (TimerKeeper.pass k.timers now).dispatched
    rw [hdisp]
    exact h.split
  · rw [h₃, h₂]
    exact h.destroyed

theorem Closures.dispatch {k : Keeper Node} {s : State Node} (h : Closures k)
    (hl : Linked k.timers) (hs : dispatch k.timers = some s) :
    Closures (k.after s .dispatch) := by
  obtain ⟨x, xs, hxs, -, rfl⟩ := dispatch_eq hl hs
  have hx : x ∈ k.timers.expiring := hxs ▸ List.mem_cons_self
  have hat : x.entry ∈ k.timers.entriesAt .expired := List.mem_map_of_mem hx
  obtain ⟨hc, hn, -⟩ := hl.extracted x (List.mem_append_left _ hx)
  have hlive : ∀ p, p.Live → ∀ e ∈ ({ k.timers with
      expiredHead := k.timers.next x.node
      next := Function.update k.timers.next x.node none
      handed := k.timers.handed ++ [x.node]
      expiring := xs
      dispatched := k.timers.dispatched ++ [x] } : State Node).entriesAt p,
      e ∈ k.timers.entriesAt p := by
    intro p hp e he
    cases p with
    | expired =>
      show e ∈ k.timers.expiring.map Extraction.entry
      rw [hxs]
      exact List.mem_cons_of_mem _ he
    | handed => exact hp.elim
    | _ => exact he
  have hnew : (k.timers.dispatched ++ [x]).drop k.timers.dispatched.length = [x] :=
    List.drop_left
  refine ⟨fun p hp e he => h.owned p hp e (hlive p hp e he),
    fun p hp e he => h.callers p hp e (hlive p hp e he), fun y hy => ?_, ?_, h.destroyed⟩
  · have hy' : y ∈ k.ready ++ (k.timers.dispatched ++ [x]).drop k.timers.dispatched.length := hy
    rw [hnew] at hy'
    rcases List.mem_append.mp hy' with hy | hy
    · exact h.ready y hy
    · obtain rfl := List.mem_singleton.mp hy
      show k.heap y.node = objectOf y.entry
      by_cases howns : y.entry.ownsTaskNode = true
      · rw [objectOf, if_pos howns]
        exact h.owned .expired trivial _ hat howns y.node hn
      · rw [objectOf, if_neg howns]
        exact h.callers .expired trivial _ hat hc (by simpa using howns) y.node hn
  · show (k.ran ++ (k.ready ++ (k.timers.dispatched ++ [x]).drop k.timers.dispatched.length)).Perm
      (k.timers.dispatched ++ [x])
    rw [hnew, ← List.append_assoc]
    exact h.split.append_right [x]

/-- The executor runs the task of `x`: a callback is destroyed with its object. -/
theorem Closures.run {k : Keeper Node} (h : Closures k) (hr : Recorded k.timers) {i : ℕ}
    {x : Extraction Node} (hx : k.ready[i]? = some x) :
    Closures (Keeper.execute { k with ready := k.ready.eraseIdx i, ran := k.ran ++ [x] }
      x.node) := by
  obtain ⟨hi, hxi⟩ := List.getElem?_eq_some_iff.mp hx
  have hmem : x ∈ k.ready := List.mem_of_getElem? hx
  have hperm : (x :: k.ready.eraseIdx i).Perm k.ready := hxi ▸ List.getElem_cons_eraseIdx_perm hi
  have hsplit : (k.ran ++ [x] ++ k.ready.eraseIdx i).Perm k.timers.dispatched := by
    rw [List.append_assoc]
    exact (hperm.append_left k.ran).trans h.split
  have hhanded : ∀ y ∈ k.ran ++ k.ready, y.entry ∈ k.timers.entriesAt .handed := fun y hy =>
    List.mem_map_of_mem (h.split.subset hy)
  have hxat := hhanded x (List.mem_append_right _ hmem)
  have hheap := h.ready x hmem
  by_cases howns : x.entry.ownsTaskNode = true
  · rw [objectOf, if_pos howns] at hheap
    have hexec : Keeper.execute { k with ready := k.ready.eraseIdx i, ran := k.ran ++ [x] } x.node =
        { k with
          ready := k.ready.eraseIdx i
          ran := k.ran ++ [x]
          heap := Function.update k.heap x.node none
          destroyed := k.destroyed ++ [x.entry.id] } := by
      simp only [Keeper.execute, Keeper.deleteAs, hheap, if_true]
    rw [hexec]
    -- no other timer has this object
    have hother : ∀ {node id}, k.heap node = some ⟨id, true⟩ → id ≠ x.entry.id →
        Function.update k.heap x.node none node = some ⟨id, true⟩ := by
      intro node id hn hid
      rw [Function.update_of_ne, hn]
      rintro rfl
      rw [hheap] at hn
      exact hid (congrArg TaskObject.closure (Option.some.inj hn)).symm
    have hnone : ∀ {node}, k.heap node = none →
        Function.update k.heap x.node none node = none := by
      intro node hn
      by_cases hnode : node = x.node
      · rw [hnode, Function.update_self]
      · rw [Function.update_of_ne hnode, hn]
    refine ⟨fun p hp e he howns' node hn => ?_, fun p hp e he hc howns' node hn => ?_,
      fun y hy => ?_, hsplit, ?_⟩
    · have hnot : ¬ Place.handed.Live := id
      exact hother (h.owned p hp e he howns' node hn) (id_ne_of_live hr hp hnot he hxat)
    · exact hnone (h.callers p hp e he hc howns' node hn)
    · have hy' : y ∈ k.ready := List.mem_of_mem_eraseIdx hy
      have hyheap := h.ready y hy'
      by_cases hown : y.entry.ownsTaskNode = true
      · rw [objectOf, if_pos hown] at hyheap ⊢
        refine hother hyheap fun hid => ?_
        -- two places in the executor for one timer
        have hids : ((k.ran ++ [x] ++ k.ready.eraseIdx i).map fun z => z.entry.id).Nodup := by
          refine (hsplit.map _).nodup_iff.mpr ?_
          have := hr.ids.nodup .handed
          rwa [State.idsAt, State.entriesAt, List.map_map] at this
        rw [List.append_assoc, List.map_append, List.singleton_append, List.map_cons] at hids
        have hcons := (List.nodup_append.mp hids).2.1
        exact (List.nodup_cons.mp hcons).1 (hid ▸ List.mem_map_of_mem hy)
      · rw [objectOf, if_neg hown] at hyheap ⊢
        exact hnone hyheap
    · rw [List.filter_append, List.map_append, ← h.destroyed, List.filter_singleton, howns]
      rfl
  · rw [objectOf, if_neg howns] at hheap
    rw [Keeper.execute, hheap]
    refine ⟨h.owned, h.callers, fun y hy => h.ready y (List.mem_of_mem_eraseIdx hy), hsplit, ?_⟩
    show k.destroyed = _
    rw [List.filter_append, List.map_append, ← h.destroyed, List.filter_singleton]
    simp [howns]

/-- A new callback: its task object is new. -/
theorem Closures.addCallback {k : Keeper Node} (h : Closures k) {now delay : ℤ} {task : Node}
    (hfresh : FreshTask k (.timer (.addTimer now delay (.callback task)))) :
    Closures (k.after (addInternal k.timers now delay (some task) true)
      (.addTimer now delay (.callback task))) := by
  obtain ⟨hnone, hpending, hready⟩ := hfresh
  have hold : ∀ {node id}, k.heap node = some ⟨id, true⟩ →
      Function.update k.heap task (some ⟨k.timers.nextId, true⟩) node = some ⟨id, true⟩ := by
    intro node id hn
    rw [Function.update_of_ne, hn]
    rintro rfl
    rw [hnone] at hn
    cases hn
  have hcases : ∀ p, ∀ e ∈ (addInternal k.timers now delay (some task) true).entriesAt p,
      e ∈ k.timers.entriesAt p ∨
        e.id = k.timers.nextId ∧ e.taskNode = some task ∧ e.ownsTaskNode = true := by
    intro p e he
    cases p with
    | adding =>
      obtain ⟨x, hx, rfl⟩ := List.mem_map.mp he
      rcases List.mem_append.mp hx with hx | hx
      · exact Or.inl (List.mem_map_of_mem hx)
      · rw [List.mem_singleton.mp hx]
        exact Or.inr ⟨rfl, rfl, rfl⟩
    | _ => exact Or.inl he
  refine ⟨fun p hp e he howns node hn => ?_, fun p hp e he hc howns node hn => ?_,
    fun x hx => ?_, h.split, h.destroyed⟩
  · rcases hcases p e he with he | ⟨hid, hnode, -⟩
    · exact hold (h.owned p hp e he howns node hn)
    · obtain rfl : task = node := Option.some.inj (hnode.symm.trans hn)
      show Function.update k.heap task (some ⟨k.timers.nextId, true⟩) task = _
      rw [Function.update_self, hid]
  · rcases hcases p e he with heold | ⟨-, -, hown⟩
    · have hne : node ≠ task := by
        rintro rfl
        refine hpending ⟨p, ?_⟩
        have hph : p ≠ .handed := by
          rintro rfl
          exact hp
        rw [State.pendingAt, if_neg hph]
        exact List.mem_filterMap.mpr ⟨e, heold, by rw [pendingNode, hc]; exact hn⟩
      show Function.update k.heap task (some ⟨k.timers.nextId, true⟩) node = none
      rw [Function.update_of_ne hne]
      exact h.callers p hp e heold hc howns node hn
    · rw [hown] at howns
      cases howns
  · have hne : x.node ≠ task := fun heq => hready (heq ▸ List.mem_map_of_mem hx)
    show Function.update k.heap task (some ⟨k.timers.nextId, true⟩) x.node = _
    rw [Function.update_of_ne hne]
    exact h.ready x hx

omit [DecidableEq Node] in
/-- A new timer for a node of the caller. -/
theorem Closures.addNode {k : Keeper Node} (h : Closures k) {now delay : ℤ} {node : Node}
    (hnone : k.heap node = none) :
    Closures { k with timers := addInternal k.timers now delay (some node) false } := by
  have hcases : ∀ p, ∀ e ∈ (addInternal k.timers now delay (some node) false).entriesAt p,
      e ∈ k.timers.entriesAt p ∨ e.taskNode = some node ∧ e.ownsTaskNode = false := by
    intro p e he
    cases p with
    | adding =>
      obtain ⟨x, hx, rfl⟩ := List.mem_map.mp he
      rcases List.mem_append.mp hx with hx | hx
      · exact Or.inl (List.mem_map_of_mem hx)
      · rw [List.mem_singleton.mp hx]
        exact Or.inr ⟨rfl, rfl⟩
    | _ => exact Or.inl he
  refine ⟨fun p hp e he howns n hn => ?_, fun p hp e he hc howns n hn => ?_, h.ready, h.split,
    h.destroyed⟩
  · rcases hcases p e he with he | ⟨-, hown⟩
    · exact h.owned p hp e he howns n hn
    · rw [hown] at howns
      cases howns
  · rcases hcases p e he with he | ⟨hnode, -⟩
    · exact h.callers p hp e he hc howns n hn
    · obtain rfl : node = n := Option.some.inj (hnode.symm.trans hn)
      exact hnone

omit [DecidableEq Node] in
theorem Closures.cancelTimer {k : Keeper Node} (h : Closures k) (id : ℕ) :
    Closures { k with timers := cancelTimer k.timers id } := by
  have hdisp : (TimerKeeper.cancelTimer k.timers id).dispatched = k.timers.dispatched := by
    rcases cancelTimer_cases k.timers id with heq | ⟨-, heq⟩ <;> rw [heq]
  refine h.of_subset rfl rfl rfl rfl hdisp fun p hp e he => ?_
  rcases cancelTimer_cases k.timers id with heq | ⟨-, heq⟩
  · simp only [heq] at he
    exact ⟨p, hp, e, he, rfl, rfl, rfl, fun hc => hc⟩
  · simp only [heq] at he
    cases p with
    | bucket j =>
      obtain ⟨e₀, he₀, rfl⟩ := List.mem_map.mp he
      refine ⟨.bucket j, hp, e₀, he₀, mark_id id e₀, ?_, ?_, fun hc => ?_⟩
      · rw [mark]
        split <;> rfl
      · rw [mark]
        split <;> rfl
      · obtain ⟨-, hmark⟩ := mark_of_live hc
        rwa [hmark] at hc
    | _ => exact ⟨_, hp, e, he, rfl, rfl, rfl, fun hc => hc⟩

omit [DecidableEq Node] in
theorem Closures.insert {k : Keeper Node} {s : State Node} {i : ℕ} (h : Closures k)
    (hs : insert k.timers i = some s) : Closures { k with timers := s } := by
  obtain ⟨entry, slot, -, hmoved, heq⟩ := insert_moved hs
  refine h.of_subset rfl rfl rfl rfl (by rw [heq]) fun p hp e he => ?_
  by_cases hps : p ∈ [Place.adding, .bucket slot]
  · obtain ⟨q, hq, he'⟩ :=
      List.mem_flatMap.mp (hmoved.perm.mem_iff.mp (mem_flatMap_of_mem hps he))
    refine ⟨q, ?_, e, he', rfl, rfl, rfl, fun hc => hc⟩
    simp only [List.mem_cons, List.not_mem_nil, or_false] at hq
    rcases hq with rfl | rfl <;> trivial
  · have he' : e ∈ s.entriesAt p := he
    rw [hmoved.rest p hps] at he'
    exact ⟨p, hp, e, he', rfl, rfl, rfl, fun hc => hc⟩

theorem closures_step {k k' : Keeper Node} {l : KeeperLabel Node} (h : Closures k)
    (hr : Recorded k.timers) (hl : Linked k.timers) (hfresh : FreshTask k l)
    (hs : closureStep k l = some k') : Closures k' := by
  cases l with
  | run i =>
    rw [closureStep] at hs
    split at hs
    · cases hs
    next x hx =>
      cases hs
      exact h.run hr hx
  | timer l =>
    obtain ⟨s, hstep, rfl⟩ := Option.map_eq_some_iff.mp hs
    cases l with
    | addTimer now delay target =>
      rw [step] at hstep
      split at hstep
      · cases hstep
        rcases target with (_ | node) | task
        · exact h
        · exact h.addNode hfresh.1
        · exact h.addCallback hfresh
      · cases hstep
    | insert i => exact h.insert hstep
    | cancelTimer id =>
      cases hstep
      exact h.cancelTimer id
    | pass now =>
      rw [step] at hstep
      split at hstep
      · cases hstep
        exact h.pass hr now
      · cases hstep
    | dispatch => exact h.dispatch hl hstep
    | relink node v =>
      rw [step] at hstep
      split at hstep
      · cases hstep
      · cases hstep
        exact ⟨h.owned, h.callers, h.ready, h.split, h.destroyed⟩

/-! ### Runs -/

/-- **The task objects of every run.** -/
theorem run_closures {startTime : ℤ} {ls : List (KeeperLabel Node)} {k : Keeper Node}
    (hfresh : StepSystem.Meets closureStep FreshTask (Keeper.init Node startTime) ls)
    (hrun : StepSystem.run closureStep (Keeper.init Node startTime) ls = some k) :
    Recorded k.timers ∧ Linked k.timers ∧ Closures k := by
  refine StepSystem.run_invariant_of_meets
    (I := fun k => Recorded k.timers ∧ Linked k.timers ∧ Closures k) ?_
    ⟨Recorded.init startTime, Linked.init startTime, Closures.init startTime⟩ hfresh hrun
  rintro k l k' ⟨hr, hl, hc⟩ hfr hs
  have hc' := closures_step hc hr hl hfr hs
  cases l with
  | timer l =>
    obtain ⟨s, hstep, rfl⟩ := Option.map_eq_some_iff.mp hs
    rw [after_timers]
    exact ⟨recorded_step hr hstep, linked_step hr hl hfr.freshNode hstep, hc'⟩
  | run i =>
    have htimers := closureStep_timers hs
    rw [← Option.some.inj htimers]
    exact ⟨hr, hl, hc'⟩

/-- The prefixes of the timers' run add no node twice at a time. -/
theorem meets_freshNode {k : Keeper Node} {ls : List (KeeperLabel Node)}
    (hfresh : StepSystem.Meets closureStep FreshTask k ls)
    {k' : Keeper Node} (hrun : StepSystem.run closureStep k ls = some k') :
    StepSystem.Meets step FreshNode k.timers (timerLabels ls) := by
  induction ls generalizing k with
  | nil => trivial
  | cons l ls ih =>
    obtain ⟨k₁, hl, hrun⟩ := StepSystem.run_cons.mp hrun
    have hrest := ih (hfresh.2 k₁ hl) hrun
    have htimers := closureStep_timers hl
    cases l with
    | run i =>
      rw [← Option.some.inj htimers] at hrest
      exact hrest
    | timer l =>
      refine ⟨hfresh.1.freshNode, fun s hs => ?_⟩
      obtain ⟨s₁, hs₁, hnil⟩ := StepSystem.run_cons.mp htimers
      obtain rfl : s = s₁ := Option.some.inj (hs.symm.trans hs₁)
      rw [Option.some.inj hnil]
      exact hrest

/-- A timer canceled in the wheel is never dispatched. -/
theorem CanceledInWheel.not_dispatched {startTime : ℤ} {ls : List (Label Node)} {s : State Node}
    {id : ℕ} (h : CanceledInWheel startTime ls id)
    (hfresh : StepSystem.Meets step FreshNode (init Node startTime) ls)
    (hrun : StepSystem.run step (init Node startTime) ls = some s) : id ∉ s.idsAt .handed := by
  obtain ⟨hr, -⟩ := run_recorded_linked hfresh hrun
  obtain ⟨pre, post, m, rfl, hpre, hmap⟩ := h
  obtain ⟨hrm, hlm⟩ := run_recorded_linked hfresh.append_left hpre
  obtain ⟨k, e, he, hid, -⟩ := ((run_indexed hpre).2.mapped id).mp hmap
  obtain ⟨m', hm', hpost⟩ := StepSystem.run_append.mp hrun
  obtain rfl : m = m' := Option.some.inj (hpre.symm.trans hm')
  obtain ⟨c, hc, hrest⟩ := StepSystem.run_cons.mp hpost
  cases hc
  have hin : id ∈ m.idsAt (.bucket k) := hid ▸ List.mem_map_of_mem he
  have hgone := StepSystem.run_invariant (fun _ _ _ h hs => Gone.step h hs)
    (gone_cancelTimer hrm hlm hin) hrest
  exact (hgone.not_extracted hr).2

/-- **When the closure is destroyed**: of a callback whose task was run or reaped,
`destroy_fn` has been called exactly once if and only if no `CancelTimer` of its id
found the entry in `task_map_`. -/
theorem destroyed_once_iff (startTime : ℤ) (ls : List (KeeperLabel Node)) (k : Keeper Node)
    (hrun : StepSystem.run closureStep (Keeper.init Node startTime) ls = some k)
    (hfresh : StepSystem.Meets closureStep FreshTask (Keeper.init Node startTime) ls)
    (e : TimerEntry Node) (howns : e.ownsTaskNode = true)
    (hleft : e ∈ k.ran.map Extraction.entry ∨ e ∈ k.timers.reaped) :
    k.destroyed.count e.id = 1 ↔ ¬ CanceledInWheel startTime (timerLabels ls) e.id := by
  obtain ⟨hr, -, hc⟩ := run_closures hfresh hrun
  have hrun' : StepSystem.run step (init Node startTime) (timerLabels ls) = some k.timers :=
    run_timers hrun
  have hhanded : ∀ x ∈ k.ran, x.entry ∈ k.timers.entriesAt .handed := fun x hx =>
    List.mem_map_of_mem (hc.split.subset (List.mem_append_left _ hx))
  rcases hleft with hran | hreaped
  · obtain ⟨x, hx, rfl⟩ := List.mem_map.mp hran
    have hnever : ¬ CanceledInWheel startTime (timerLabels ls) x.entry.id := fun hcan =>
      hcan.not_dispatched (meets_freshNode hfresh hrun) hrun' (List.mem_map_of_mem (hhanded x hx))
    have hmem : x.entry.id ∈ k.destroyed := by
      rw [hc.destroyed]
      exact List.mem_map.mpr ⟨x, List.mem_filter.mpr ⟨hx, howns⟩, rfl⟩
    -- a timer is dispatched, and so run, at most once
    have hnodup : k.destroyed.Nodup := by
      have hids := hr.ids.nodup .handed
      rw [State.idsAt, State.entriesAt, List.map_map] at hids
      have hran : ((k.ran ++ k.ready).map (TimerEntry.id ∘ Extraction.entry)).Nodup :=
        (hc.split.map _).nodup_iff.mpr hids
      rw [List.map_append] at hran
      rw [hc.destroyed]
      exact (List.nodup_append.mp hran).1.sublist (List.filter_sublist.map _)
    exact ⟨fun _ => hnever, fun _ => List.count_eq_one_of_mem hnodup hmem⟩
  · have hcan : CanceledInWheel startTime (timerLabels ls) e.id :=
      (run_markedBy hrun').reaped e hreaped
    have hnot : e.id ∉ k.destroyed := by
      rw [hc.destroyed]
      intro hmem
      obtain ⟨x, hx, hid⟩ := List.mem_map.mp hmem
      obtain ⟨hplace, -⟩ := hr.entry_unique (p := .reaped) hreaped
        (hhanded x (List.mem_filter.mp hx).1) hid.symm
      cases hplace
    rw [List.count_eq_zero_of_not_mem hnot]
    exact ⟨fun h => absurd h Nat.zero_ne_one, fun h => absurd hcan h⟩

end Objects

/-- A callback is added, and then the moves `ls` follow. -/
def callbackThen (ls : List (KeeperLabel ℕ)) : List (KeeperLabel ℕ) :=
  .timer (.addTimer 0 5 (.callback 8)) :: ls

/-- Moves that add nothing. -/
def AddsNothing : KeeperLabel ℕ → Prop
  | .timer (.addTimer _ _ _) => False
  | _ => True

instance (l : KeeperLabel ℕ) : Decidable (AddsNothing l) := by
  unfold AddsNothing
  split <;> infer_instance

theorem AddsNothing.fresh {l : KeeperLabel ℕ} (h : AddsNothing l) (k : Keeper ℕ) :
    FreshTask k l := by
  unfold FreshTask
  split
  · exact h.elim
  · exact h.elim
  · trivial

theorem callbackThen_fresh {ls : List (KeeperLabel ℕ)} (hls : ∀ l ∈ ls, AddsNothing l) :
    StepSystem.Meets closureStep FreshTask (Keeper.init ℕ 0) (callbackThen ls) := by
  have hnil : ∀ p, (init ℕ 0).pendingAt p = [] := fun p => by cases p <;> rfl
  refine ⟨⟨rfl, fun ⟨p, hp⟩ => ?_, List.not_mem_nil⟩, fun k _ => ?_⟩
  · exact absurd (hnil p ▸ hp) List.not_mem_nil
  · exact (StepSystem.Meets.of_forall hls).mono fun k l hl => hl.fresh k

/-- A callback that fires: the closure is destroyed when the task has run. -/
theorem destroyed_once_fired :
    ∃ k, StepSystem.run closureStep (Keeper.init ℕ 0)
        (callbackThen [.timer (.insert 0), .timer (.pass 20000000), .timer .dispatch, .run 0])
          = some k ∧
      k.destroyed = [1] ∧
      ¬ CanceledInWheel 0 (timerLabels (callbackThen [.timer (.insert 0), .timer (.pass 20000000),
        .timer .dispatch, .run 0])) 1 := by
  obtain ⟨k, hrun, hdes, e, hran, howns, hid⟩ : ∃ k, StepSystem.run closureStep (Keeper.init ℕ 0)
      (callbackThen [.timer (.insert 0), .timer (.pass 20000000), .timer .dispatch, .run 0])
        = some k ∧
      k.destroyed = [1] ∧ ∃ e ∈ k.ran.map Extraction.entry, e.ownsTaskNode = true ∧ e.id = 1 :=
    StepSystem.exists_of_run_any (by decide +kernel)
  have hiff := destroyed_once_iff 0 _ k hrun (callbackThen_fresh (by decide)) e howns (Or.inl hran)
  refine ⟨k, hrun, hdes, ?_⟩
  rw [← hid]
  refine hiff.mp ?_
  rw [hdes, hid]
  rfl

/-- **A canceled callback leaks**: the entry is reaped and the memory of the task
freed, but `destroy_fn` is never called for its closure. -/
theorem canceled_closure_leaks :
    ∃ k, StepSystem.run closureStep (Keeper.init ℕ 0)
        (callbackThen [.timer (.insert 0), .timer (.cancelTimer 1), .timer (.pass 20000000)])
          = some k ∧
      k.timers.idsAt .reaped = [1] ∧ k.heap 8 = none ∧ k.destroyed = [] :=
  StepSystem.exists_of_run_any (by decide +kernel)

end TimerKeeper
