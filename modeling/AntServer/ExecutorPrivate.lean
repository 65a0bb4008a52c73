/-
Tasks that only one worker can take.

The inbox and the LIFO slot of worker `v`, and what its thread has at hand, are out of the
reach of other workers; the deques and the global queue are not.

* `Leaves` — what a step of worker `w` does not write;
* `Private` — a task is where only worker `v` takes it from;
* `Private.workerStep`, `Private.scheduleStep`, `Private.scheduleCall` — a private task stays
  private until it is run, or until the drain loop takes it up.
-/
import AntServer.ExecutorMoves
import AntServer.ExecutorOwner

namespace WorkStealing

variable {E K Task : Type*} [DecidableEq E] [DecidableEq K] [DecidableEq Task]

/-- The task that worker `w` runs in its next step. -/
def Pc.runs : Pc E Task → Option Task
  | .execute task => some task
  | _ => none

/-- The task that the drain loop takes up in the next step. -/
def Pc.drains : Pc E Task → Option Task
  | .drain _ (some curr) => some curr
  | _ => none

/-! ### What a step leaves alone -/

section Steps

variable {c : Config E K} {s s' : State E K Task} {L L' : Place E → List Task} {w v : E × ℕ}
  {t : Task} {draw : ℕ} {lost : Bool}

/-- A step of worker `w` writes the links of the tasks at hand and of those in the global
queue, and inboxes and LIFO slots only to take from its own. -/
structure Leaves (w : E × ℕ) (L : Place E → List Task) (s s' : State E K Task) : Prop where
  next : ∀ x, x ∉ L (.held w) → x ∉ L (.globalQueue w.1) → s'.next x = s.next x
  inbox : ∀ v, v ≠ w ∨ s.pc (.worker w) ≠ .inbox → s'.inbox v = s.inbox v
  lifo : ∀ v, v ≠ w ∨ s.pc (.worker w) ≠ .lifo → s'.lifoSlot v = s.lifoSlot v
  ran : s'.ran = s.ran ++ (s.pc (.worker w)).runs.toList.map (w, ·)

omit [DecidableEq E] [DecidableEq K] [DecidableEq Task] in
/-- Of these, only the links change. -/
theorem Leaves.of_next (hpc : (s.pc (.worker w)).runs = none)
    (hnext : ∀ x, x ∉ L (.held w) → x ∉ L (.globalQueue w.1) → s'.next x = s.next x)
    (hinbox : s'.inbox = s.inbox) (hlifo : s'.lifoSlot = s.lifoSlot) (hran : s'.ran = s.ran) :
    Leaves w L s s' := by
  refine ⟨hnext, fun v _ => congrFun hinbox v, fun v _ => congrFun hlifo v, ?_⟩
  rw [hpc, hran]
  exact (List.append_nil _).symm

omit [DecidableEq E] [DecidableEq K] [DecidableEq Task] in
/-- None of these changes. -/
theorem Leaves.of_eq (hpc : (s.pc (.worker w)).runs = none) (hnext : s'.next = s.next)
    (hinbox : s'.inbox = s.inbox) (hlifo : s'.lifoSlot = s.lifoSlot) (hran : s'.ran = s.ran) :
    Leaves w L s s' :=
  .of_next hpc (fun x _ _ => congrFun hnext x) hinbox hlifo hran

theorem drainStep_leaves (h : Represents s L) (hs : drainStep s w = some s') :
    Leaves w L s s' := by
  unfold drainStep at hs
  cases hpc : s.pc (.worker w) with
  | inbox =>
    simp only [hpc, Option.some.injEq] at hs
    subst hs
    split
    · refine ⟨fun _ _ _ => rfl, fun v hv => ?_, fun _ _ => rfl, ?_⟩
      · exact Function.update_of_ne (hv.resolve_right (not_not.mpr hpc)) _ _
      · rw [hpc]
        exact (List.append_nil _).symm
    · exact .of_eq (congrArg Pc.runs hpc) rfl rfl rfl rfl
  | detach x =>
    have hheld : Chain s.next (some x) (L (.held w)) := h.holds hpc
    obtain ⟨ys, hys, -⟩ := hheld.tail
    simp only [hpc, Option.some.injEq] at hs
    subst hs
    refine .of_next (congrArg Pc.runs hpc) (fun y hy _ => Function.update_of_ne ?_ _ _) rfl rfl rfl
    rintro rfl
    exact hy (by simp [hys])
  | drain x curr =>
    obtain ⟨ys, hys, hchain⟩ := h.holds hpc
    cases curr with
    | none =>
      simp only [hpc, Option.some.injEq] at hs
      subst hs
      exact .of_eq (congrArg Pc.runs hpc) rfl rfl rfl rfl
    | some y =>
      obtain ⟨zs, rfl, -⟩ := hchain.tail
      simp only [hpc, Option.some.injEq] at hs
      subst hs
      refine .of_next (congrArg Pc.runs hpc) (fun z hz _ => Function.update_of_ne ?_ _ _)
        rfl rfl rfl
      rintro rfl
      exact hz (by simp [hys])
  | drainPush x y nxt =>
    simp only [hpc, Option.some.injEq] at hs
    subst hs
    split
    · exact .of_eq (congrArg Pc.runs hpc) rfl rfl rfl rfl
    · exact .of_eq (congrArg Pc.runs hpc) rfl rfl rfl rfl
  | drainSpill x y nxt =>
    obtain ⟨ys, hys, -⟩ := h.holds hpc
    simp only [hpc, Option.some.injEq] at hs
    subst hs
    refine .of_next (congrArg Pc.runs hpc) (fun z hz hz' => h.globalPushBatch_next ?_ hz')
      rfl rfl rfl
    rintro rfl
    exact hz (by simp [hys])
  | _ => simp only [hpc, reduceCtorEq] at hs

theorem stealStep_leaves (h : Represents s L) (hs : stealStep c s w draw lost = some s') :
    Leaves w L s s' := by
  unfold stealStep at hs
  cases hpc : s.pc (.worker w) with
  | steal =>
    simp only [hpc, Option.some.injEq] at hs
    subst hs
    exact .of_eq (congrArg Pc.runs hpc) rfl rfl rfl rfl
  | stealHalf start i =>
    simp only [hpc, Option.some.injEq] at hs
    subst hs
    split
    · exact .of_eq (congrArg Pc.runs hpc) rfl rfl rfl rfl
    split
    · exact .of_eq (congrArg Pc.runs hpc) rfl rfl rfl rfl
    split
    · exact .of_eq (congrArg Pc.runs hpc) rfl rfl rfl rfl
    · exact .of_eq (congrArg Pc.runs hpc) rfl rfl rfl rfl
  | stealOne start i =>
    simp only [hpc, Option.some.injEq] at hs
    subst hs
    split
    · exact .of_eq (congrArg Pc.runs hpc) rfl rfl rfl rfl
    · exact .of_eq (congrArg Pc.runs hpc) rfl rfl rfl rfl
  | batch x rest =>
    cases rest with
    | nil =>
      simp only [hpc, Option.some.injEq] at hs
      subst hs
      exact .of_eq (congrArg Pc.runs hpc) rfl rfl rfl rfl
    | cons y rest =>
      simp only [hpc, Option.some.injEq] at hs
      subst hs
      split
      · exact .of_eq (congrArg Pc.runs hpc) rfl rfl rfl rfl
      · exact .of_eq (congrArg Pc.runs hpc) rfl rfl rfl rfl
  | batchSpill x y rest =>
    have hheld : L (.held w) = x :: y :: rest := h.holds hpc
    simp only [hpc, Option.some.injEq] at hs
    subst hs
    refine .of_next (congrArg Pc.runs hpc) (fun z hz hz' => h.globalPushBatch_next ?_ hz')
      rfl rfl rfl
    rintro rfl
    exact hz (by simp [hheld])
  | _ => simp only [hpc, reduceCtorEq] at hs

theorem workerStep_leaves (h : Represents s L) (hs : workerStep c s w draw lost = some s') :
    Leaves w L s s' := by
  unfold workerStep at hs
  cases hpc : s.pc (.worker w) with
  | top =>
    simp only [hpc, Option.some.injEq] at hs
    subst hs
    split
    · exact .of_eq (congrArg Pc.runs hpc) rfl rfl rfl rfl
    · exact .of_eq (congrArg Pc.runs hpc) rfl rfl rfl rfl
  | globalCheck | globalPop =>
    simp only [hpc, Option.some.injEq] at hs
    subst hs
    exact .of_next (congrArg Pc.runs hpc) (fun _ _ hx => h.globalPop_next hx) rfl rfl rfl
  | lifo =>
    simp only [hpc, Option.some.injEq] at hs
    subst hs
    split
    · refine ⟨fun _ _ _ => rfl, fun _ _ => rfl, fun v hv => ?_, ?_⟩
      · exact Function.update_of_ne (hv.resolve_right (not_not.mpr hpc)) _ _
      · rw [hpc]
        exact (List.append_nil _).symm
    · exact .of_eq (congrArg Pc.runs hpc) rfl rfl rfl rfl
  | tryPop =>
    simp only [hpc, Option.some.injEq] at hs
    subst hs
    split
    · exact .of_eq (congrArg Pc.runs hpc) rfl rfl rfl rfl
    · exact .of_eq (congrArg Pc.runs hpc) rfl rfl rfl rfl
  | execute x =>
    simp only [hpc, Option.some.injEq] at hs
    subst hs
    refine ⟨fun _ _ _ => rfl, fun _ _ => rfl, fun _ _ => rfl, ?_⟩
    rw [hpc]
    rfl
  | inbox | detach | drain | drainPush | drainSpill =>
    simp only [hpc] at hs
    exact drainStep_leaves h hs
  | steal | stealHalf | stealOne | batch | batchSpill =>
    simp only [hpc] at hs
    exact stealStep_leaves h hs
  | _ => simp only [hpc, reduceCtorEq] at hs

theorem scheduleStep_leaves (h : Represents s L) (hs : scheduleStep s (.worker w) lost = some s')
    (hown : ∀ v, (s.pc (.worker w)).frame = some v → v = w) : Leaves w L s s' := by
  unfold scheduleStep at hs
  cases hpc : s.pc (.worker w) with
  | schedPush v x | schedTake v x =>
    simp only [hpc, Option.some.injEq] at hs
    subst hs
    split
    · exact .of_eq (congrArg Pc.runs hpc) rfl rfl rfl rfl
    · exact .of_eq (congrArg Pc.runs hpc) rfl rfl rfl rfl
  | schedLink v x y rest =>
    have hheld : L (.held w) = y :: rest ++ [x] := h.holds hpc
    simp only [hpc, Option.some.injEq] at hs
    subst hs
    exact .of_next (congrArg Pc.runs hpc) (fun z hz _ => linkBatch_of_notMem (hheld ▸ hz))
      rfl rfl rfl
  | schedBatch v x y =>
    obtain rfl := hown v (hpc ▸ rfl)
    obtain ⟨ys, hheld, -⟩ := h.holds hpc
    simp only [hpc, Option.some.injEq] at hs
    subst hs
    refine .of_next (congrArg Pc.runs hpc) (fun z hz hz' => h.globalPushBatch_next ?_ hz')
      rfl rfl rfl
    rintro rfl
    exact hz (by simp [hheld])
  | schedGlobal v x =>
    obtain rfl := hown v (hpc ▸ rfl)
    have hheld : L (.held v) = [x] := h.holds hpc
    simp only [hpc, Option.some.injEq] at hs
    subst hs
    refine .of_next (congrArg Pc.runs hpc) (fun z hz hz' => h.globalPushBatch_next ?_ hz')
      rfl rfl rfl
    rintro rfl
    exact hz (by simp [hheld])
  | _ => simp only [hpc, reduceCtorEq] at hs

/-! ### Private places -/

/-- Of the tasks at hand, those that the worker will run itself. -/
def Pc.Keeps (t : Task) : Pc E Task → Prop
  | .detach _ | .drain _ _ | .execute _ => True
  | .drainPush _ curr _ | .drainSpill _ curr _ => t ≠ curr
  | _ => False

/-- The task is where only worker `v` takes it from, and will not be pushed on. -/
def Private (s : State E K Task) (L : Place E → List Task) (v : E × ℕ) (t : Task) : Prop :=
  t ∈ L (.inbox v) ∨ t ∈ L (.lifo v) ∨ (t ∈ L (.held v) ∧ (s.pc (.worker v)).Keeps t)

omit [DecidableEq E] [DecidableEq K] [DecidableEq Task] in
theorem Leaves.inbox_eq (hl : Leaves w L s s') (h : Represents s L) (hL : Separate L)
    (h' : Represents s' L') (hv : v ≠ w ∨ s.pc (.worker w) ≠ .inbox) :
    L' (.inbox v) = L (.inbox v) := by
  refine h.place_eq h' (congrArg Cell.stack (hl.inbox v hv)) fun x hx => hl.next x ?_ ?_
  · exact hL.disjoint _ _ (by simp) x hx
  · exact hL.disjoint _ _ (by simp) x hx

omit [DecidableEq E] [DecidableEq K] [DecidableEq Task] in
theorem Leaves.lifo_eq (hl : Leaves w L s s') (h : Represents s L) (hL : Separate L)
    (h' : Represents s' L') (hv : v ≠ w ∨ s.pc (.worker w) ≠ .lifo) :
    L' (.lifo v) = L (.lifo v) := by
  refine h.place_eq h' (congrArg Cell.slot (hl.lifo v hv)) fun x hx => hl.next x ?_ ?_
  · exact hL.disjoint _ _ (by simp) x hx
  · exact hL.disjoint _ _ (by simp) x hx

omit [DecidableEq E] [DecidableEq K] [DecidableEq Task] in
/-- **A step of worker `w`** does not reach the private places of another. -/
theorem Private.of_ne (hp : Private s L v t) (hl : Leaves w L s s') (ha : Acts (.worker w) w s s')
    (h : Represents s L) (hL : Separate L) (h' : Represents s' L') (hv : v ≠ w) :
    Private s' L' v t := by
  have hpc : s'.pc (.worker v) = s.pc (.worker v) := ha.pc _ (by simpa using hv)
  have hheld : L' (.held v) = L (.held v) := by
    refine h.place_eq h' (congrArg Cell.locals hpc) fun x hx => hl.next x ?_ ?_
    · exact hL.disjoint _ _ (by simpa using hv) x hx
    · exact hL.disjoint _ _ (by simp) x hx
  rw [Private, hl.inbox_eq h hL h' (Or.inl hv), hl.lifo_eq h hL h' (Or.inl hv), hheld, hpc]
  exact hp

omit [DecidableEq Task] in
theorem State.pc_goto (th : Thread E K) (pc : Pc E Task) : (s.goto th pc).pc th = pc :=
  Function.update_self ..

/-- The tasks at hand that the worker keeps, through the drain loop. -/
theorem drainStep_keeps (h : Represents s L) (hL : Separate L) (h' : Represents s' L')
    (hs : drainStep s w = some s') (ht : t ∈ L (.held w)) (hk : (s.pc (.worker w)).Keeps t)
    (hdrain : t ∉ (s.pc (.worker w)).drains) :
    t ∈ L' (.held w) ∧ (s'.pc (.worker w)).Keeps t := by
  unfold drainStep at hs
  cases hpc : s.pc (.worker w) with
  | detach x =>
    simp only [hpc, Option.some.injEq] at hs
    subst hs
    have hheld : L' (.held w) = L (.held w) :=
      (h'.holds (State.pc_goto ..)).unique (h.holds hpc).detach
    rw [State.pc_goto, hheld]
    exact ⟨ht, trivial⟩
  | drain x curr =>
    cases curr with
    | none =>
      -- nothing is left in the chain
      simp only [hpc, Option.some.injEq] at hs
      subst hs
      obtain ⟨ys, hys, hchain⟩ := h.holds hpc
      have hheld : L' (.held w) = [x] := h'.holds (State.pc_goto ..)
      rw [State.pc_goto, hheld]
      rw [hys, hchain.none_iff.mp rfl] at ht
      exact ⟨ht, trivial⟩
    | some y =>
      simp only [hpc, Option.some.injEq] at hs
      subst hs
      have hheld : L' (.held w) = L (.held w) :=
        (h'.holds (State.pc_goto ..)).unique (h.holds hpc).drain
      rw [hpc] at hdrain
      rw [State.pc_goto, hheld]
      refine ⟨ht, ?_⟩
      rintro rfl
      exact hdrain rfl
  | drainPush x y nxt =>
    obtain ⟨ys, hys, hchain⟩ := h.holds hpc
    rw [hpc] at hk
    have hne : t ≠ y := hk
    simp only [hpc, Option.some.injEq] at hs
    subst hs
    split at h'
    · rename_i hroom
      obtain ⟨zs, hzs, hchain'⟩ := h'.holds (State.pc_goto ..)
      rw [if_pos hroom, State.pc_goto, hzs]
      have hyz : ys = zs := hchain.unique hchain'
      rw [hys] at ht
      refine ⟨?_, trivial⟩
      rw [← hyz]
      simpa [hne] using ht
    · rename_i hfull
      obtain ⟨zs, hzs, hchain'⟩ := h'.holds (State.pc_goto ..)
      rw [if_neg hfull, State.pc_goto, hzs]
      have hyz : ys = zs := hchain.unique hchain'
      rw [hys, hyz] at ht
      exact ⟨ht, hne⟩
  | drainSpill x y nxt =>
    obtain ⟨ys, hys, hchain⟩ := h.holds hpc
    rw [hpc] at hk
    have hne : t ≠ y := hk
    simp only [hpc, Option.some.injEq] at hs
    subst hs
    obtain ⟨zs, hzs, hchain'⟩ := h'.holds (State.pc_goto ..)
    -- the rest of the chain is not in the global queue
    have hframe : Chain (s.globalPush w.1 y).next nxt ys := by
      have hnd := hL.nodup (.held w)
      rw [hys] at hnd
      refine hchain.frame fun z hz => h.globalPushBatch_next ?_ ?_
      · rintro rfl
        exact (List.nodup_cons.mp (List.nodup_cons.mp hnd).2).1 hz
      · exact hL.disjoint (.held w) _ (by simp) z (by simp [hys, hz])
    have hyz : ys = zs := hframe.unique hchain'
    rw [State.pc_goto, hzs]
    rw [hys] at ht
    refine ⟨?_, trivial⟩
    rw [← hyz]
    simpa [hne] using ht
  | execute x => simp only [hpc, reduceCtorEq] at hs
  | _ =>
    rw [hpc] at hk
    exact absurd hk not_false

/-- `pop_all_inbox`: the tasks of the inbox are now at hand. -/
theorem workerStep_inbox (h : Represents s L) (h' : Represents s' L')
    (hs : workerStep c s w draw lost = some s') (hpc : s.pc (.worker w) = .inbox)
    (ht : t ∈ L (.inbox w)) : t ∈ L' (.held w) ∧ (s'.pc (.worker w)).Keeps t := by
  have hi : Chain s.next (s.inbox w) (L (.inbox w)) := h (.inbox w)
  unfold workerStep drainStep at hs
  simp only [hpc, Option.some.injEq] at hs
  subst hs
  cases hx : s.inbox w with
  | none =>
    rw [hi.none_iff.mp hx] at ht
    exact absurd ht List.not_mem_nil
  | some x =>
    simp only [hx] at h' ⊢
    have hheld : Chain s.next (some x) (L' (.held w)) := h'.holds (State.pc_goto ..)
    rw [hx] at hi
    rw [State.pc_goto, hheld.unique hi]
    exact ⟨ht, trivial⟩

/-- The LIFO slot: its task is run next. -/
theorem workerStep_lifo (h : Represents s L) (h' : Represents s' L')
    (hs : workerStep c s w draw lost = some s') (hpc : s.pc (.worker w) = .lifo)
    (ht : t ∈ L (.lifo w)) : t ∈ L' (.held w) ∧ (s'.pc (.worker w)).Keeps t := by
  have hl : L (.lifo w) = (s.lifoSlot w).toList := h (.lifo w)
  rw [hl] at ht
  unfold workerStep at hs
  simp only [hpc, Option.some.injEq] at hs
  subst hs
  cases hx : s.lifoSlot w with
  | none =>
    rw [hx] at ht
    exact absurd ht List.not_mem_nil
  | some x =>
    rw [hx] at ht
    have hslot : (s.logOwner (.worker w) w).lifoSlot w = some x := hx
    simp only [hslot] at h' ⊢
    have hheld : L' (.held w) = [x] := h'.holds (State.pc_goto ..)
    rw [State.pc_goto, hheld]
    exact ⟨ht, trivial⟩

/-- **A step of `WorkerLoop`** keeps a private task private, unless it runs it or the drain
loop takes it up. -/
theorem Private.workerStep (hp : Private s L v t) (h : Represents s L) (hL : Separate L)
    (h' : Represents s' L') (hs : workerStep c s w draw lost = some s')
    (hdrain : t ∉ (s.pc (.worker w)).drains) (hrun : t ∉ (s.pc (.worker w)).runs) :
    Private s' L' v t := by
  have hl := workerStep_leaves h hs
  by_cases hv : v = w
  · subst hv
    rcases hp with hp | hp | ⟨hp, hk⟩
    · by_cases hpc : s.pc (.worker v) = .inbox
      · exact Or.inr (Or.inr (workerStep_inbox h h' hs hpc hp))
      · exact Or.inl (hl.inbox_eq h hL h' (Or.inr hpc) ▸ hp)
    · by_cases hpc : s.pc (.worker v) = .lifo
      · exact Or.inr (Or.inr (workerStep_lifo h h' hs hpc hp))
      · exact Or.inr (Or.inl (hl.lifo_eq h hL h' (Or.inr hpc) ▸ hp))
    · refine Or.inr (Or.inr ?_)
      cases hpc : s.pc (.worker v) with
      | execute x =>
        have hx : L (.held v) = [x] := h.holds hpc
        rw [hx, List.mem_singleton] at hp
        rw [hpc, hp] at hrun
        exact absurd rfl hrun
      | detach | drain | drainPush | drainSpill =>
        simp only [WorkStealing.workerStep, hpc] at hs
        exact drainStep_keeps h hL h' hs hp hk hdrain
      | _ =>
        rw [hpc] at hk
        exact absurd hk not_false
  · exact hp.of_ne hl (workerStep_acts hs) h hL h' hv

omit [DecidableEq E] [DecidableEq K] [DecidableEq Task] in
/-- A worker takes a private task only in its loop. -/
theorem Private.of_outside (hp : Private s L v t) (hl : Leaves w L s s')
    (ha : Acts (.worker w) w s s') (h : Represents s L) (hL : Separate L)
    (h' : Represents s' L') (hinbox : s.pc (.worker w) ≠ .inbox)
    (hlifo : s.pc (.worker w) ≠ .lifo) (hk : ¬ (s.pc (.worker w)).Keeps t) :
    Private s' L' v t := by
  by_cases hv : v = w
  · subst hv
    rcases hp with hp | hp | ⟨-, hp⟩
    · exact Or.inl (hl.inbox_eq h hL h' (Or.inr hinbox) ▸ hp)
    · exact Or.inr (Or.inl (hl.lifo_eq h hL h' (Or.inr hlifo) ▸ hp))
    · exact absurd hp hk
  · exact hp.of_ne hl ha h hL h' hv

/-- **A step inside `schedule`** keeps a private task private. -/
theorem Private.scheduleStep (hp : Private s L v t) (h : Represents s L) (hL : Separate L)
    (h' : Represents s' L') (hs : scheduleStep s (.worker w) lost = some s')
    (hown : ∀ u, (s.pc (.worker w)).frame = some u → u = w) : Private s' L' v t := by
  obtain ⟨u, hu, hacts⟩ := scheduleStep_acts hs
  obtain rfl := hown u hu
  refine hp.of_outside (scheduleStep_leaves h hs hown) hacts h hL h' ?_ ?_ ?_
  · intro hpc
    rw [hpc] at hu
    cases hu
  · intro hpc
    rw [hpc] at hu
    cases hu
  · -- no private task is at hand in a call of `schedule`
    intro hk
    cases hpc : s.pc (.worker u) with
    | schedPush | schedTake | schedLink | schedBatch | schedGlobal =>
      rw [hpc] at hk
      exact hk
    | _ =>
      rw [hpc] at hu
      cases hu

/-! ### A call of `schedule` -/

variable {x : Task} {X : E} {th : Thread E K} {target : Option ℕ} {d : Draws}

omit [DecidableEq E] [DecidableEq K] [DecidableEq Task] in
/-- A private task stays private where the cells and the links are as before. -/
theorem Private.of_cells (hp : Private s L v t) (h : Represents s L) (h' : Represents s' L')
    (hnext : ∀ y, Within L y → y ∉ L (.globalQueue X) → s'.next y = s.next y) (hL : Separate L)
    (hinbox : t ∈ L (.inbox v) → t ∈ L' (.inbox v))
    (hlifo : t ∈ L (.lifo v) → s'.lifoSlot v = s.lifoSlot v)
    (hpc : t ∈ L (.held v) → s'.pc (.worker v) = s.pc (.worker v)) : Private s' L' v t := by
  have hkeep : ∀ p : Place E, p ≠ .globalQueue X → ∀ y ∈ L p, s'.next y = s.next y :=
    fun p hne y hy => hnext y ⟨p, hy⟩ (hL.disjoint _ _ hne y hy)
  rcases hp with hp | hp | ⟨hp, hk⟩
  · exact Or.inl (hinbox hp)
  · refine Or.inr (Or.inl ?_)
    rwa [h.place_eq (p := .lifo v) h' (congrArg Cell.slot (hlifo hp)) (hkeep _ (by simp))]
  · have hpc := hpc hp
    refine Or.inr (Or.inr ⟨?_, hpc ▸ hk⟩)
    rwa [h.place_eq (p := .held v) h' (congrArg Cell.locals hpc) (hkeep _ (by simp))]

omit [DecidableEq K] in
theorem inbox_pushInbox {r : Route} {u : E × ℕ} (h : Represents s L) (hnew : ¬ Within L x)
    (h' : Represents (((s.logScheduled X x).pushInbox u x).logCall th r) L') :
    L' (.inbox u) = x :: L (.inbox u) := by
  have hold : Chain s.next (s.inbox u) (L (.inbox u)) := h (.inbox u)
  have hpushed : Chain (Function.update s.next x (s.inbox u)) (some x) (x :: L (.inbox u)) :=
    hold.cons fun hmem => hnew ⟨_, hmem⟩
  have hnow : Chain (Function.update s.next x (s.inbox u))
      (Function.update s.inbox u (some x) u) (L' (.inbox u)) := h' (.inbox u)
  rw [Function.update_self] at hnow
  exact hnow.unique hpushed

omit [DecidableEq Task] in
theorem Private.scheduleOwner {u : E × ℕ} (hp : Private s L v t) (h : Represents s L)
    (hL : Separate L) (h' : Represents (scheduleOwner (s.logScheduled X x) (.worker u) u x) L')
    (hth : s.pc (.worker u) = .calling) :
    Private (scheduleOwner (s.logScheduled X x) (.worker u) u x) L' v t := by
  cases hslot : s.lifoSlot u with
  | none =>
    rw [scheduleOwner_of_none (s := s.logScheduled X x) hslot] at h' ⊢
    refine hp.of_cells (X := X) h h' (fun _ _ _ => rfl) hL (fun ht => ?_) (fun ht => ?_)
      fun _ => rfl
    · rwa [h.place_eq (p := .inbox v) h' rfl fun _ _ => rfl]
    · -- the slot that is written was empty
      refine Function.update_of_ne ?_ _ _
      rintro rfl
      have hempty : L (.lifo v) = (s.lifoSlot v).toList := h (.lifo v)
      rw [hempty, hslot] at ht
      exact absurd ht List.not_mem_nil
  | some y =>
    rw [scheduleOwner_of_some (s := s.logScheduled X x) hslot] at h' ⊢
    refine hp.of_cells (X := X) h h' (fun _ _ _ => rfl) hL (fun ht => ?_) (fun _ => rfl)
      fun ht => ?_
    · rwa [h.place_eq (p := .inbox v) h' rfl fun _ _ => rfl]
    · -- the caller has nothing at hand
      refine Function.update_of_ne ?_ _ _
      intro he
      obtain rfl : v = u := by simpa using he
      have hempty : L (.held v) = [] := h.holds hth
      rw [hempty] at ht
      exact absurd ht List.not_mem_nil

/-- **A `schedule` call** for another task keeps a private task private. -/
theorem Private.scheduleCall (hp : Private s L v t) (h : Represents s L) (hL : Separate L)
    (h' : Represents (scheduleCall c (s.logScheduled X x) th X x target d) L')
    (hnew : ¬ Within L x) (hth : s.pc th = .calling)
    (hown : c.OwnerPath th X target → th = .worker (X, (c.threadLocals th).2)) :
    Private (scheduleCall c (s.logScheduled X x) th X x target d) L' v t := by
  have hxne : ∀ y, Within L y → y ≠ x := fun y hy he => hnew (he ▸ hy)
  by_cases ho : c.OwnerPath th X target
  · obtain ⟨u, hu⟩ : ∃ u, u = (X, (c.threadLocals th).2) := ⟨_, rfl⟩
    have hthu : th = .worker u := hu ▸ hown ho
    subst hthu
    rw [scheduleCall_of_ownerPath ho, ← hu] at h' ⊢
    exact hp.scheduleOwner h hL h' hth
  · rcases scheduleCall_of_not_ownerPath ho (s.logScheduled X x) x d with ⟨i, hi, heq⟩ | heq
    · rw [heq] at h' ⊢
      refine hp.of_cells (X := X) h h' (fun y hy _ => Function.update_of_ne (hxne y hy) _ _) hL
        (fun ht => ?_) (fun _ => rfl) fun _ => rfl
      by_cases hv : v = (X, i)
      · rw [hv] at ht ⊢
        rw [inbox_pushInbox h hnew h']
        exact List.mem_cons_of_mem x ht
      · rw [h.place_eq (p := .inbox v) h'
          (congrArg Cell.stack (Function.update_of_ne hv _ _)) fun y hy =>
          Function.update_of_ne (hxne y ⟨_, hy⟩) _ _]
        exact ht
    · rw [heq] at h' ⊢
      have hnext : ∀ y, Within L y → y ∉ L (.globalQueue X) →
          (((s.logScheduled X x).globalPush X x).logCall th .globalQueue).next y = s.next y :=
        fun y hy hy' => h.globalPushBatch_next (hxne y hy) hy'
      refine hp.of_cells (X := X) h h' hnext hL (fun ht => ?_) (fun _ => rfl) fun _ => rfl
      rw [h.place_eq (p := .inbox v) h' rfl fun y hy =>
        hnext y ⟨_, hy⟩ (hL.disjoint _ _ (by simp) y hy)]
      exact ht

end Steps

end WorkStealing
