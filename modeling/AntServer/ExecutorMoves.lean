/-
What one step of the executor does with the tasks.

A step moves tasks between places of one executor, puts a scheduled task into one, or
takes out the task it runs: `Accounted w s s' L` says this of a step from `s` to `s'` for
worker `w`, where `L` lists the tasks of `s`.

* `Represents.relink`, `Represents.moveQueue`, `Represents.moveLifo`, `Represents.takeInbox`,
  `Represents.pushGlobal`, `Represents.popGlobal` — the operations of a worker;
* `workerStep_accounted`, `scheduleStep_accounted`, `scheduleCall_accounted` — the steps of
  `WorkerLoop` and of `schedule`.
-/
import AntServer.ExecutorPlaces

namespace WorkStealing

variable {E K Task : Type*} {s s' : State E K Task} {L : Place E → List Task} {w v : E × ℕ}
  {X : E} {pc : Pc E Task} {xs ys : List Task} {t : Task}

/-- From `s`, with the tasks `L`, to `s'`: the tasks that enter the places of `w`'s executor
are new there and scheduled there, and those that leave are run by `w`. -/
def Accounted (w : E × ℕ) (s s' : State E K Task) (L : Place E → List Task) : Prop :=
  ∃ L' ins outs, Represents s' L' ∧ Transfer (placesOf w.1) ins outs L L' ∧
    ins.Nodup ∧ (∀ t ∈ ins, ¬ Within L t) ∧
    s'.scheduled = s.scheduled ++ ins.map (w.1, ·) ∧ s'.ran = s.ran ++ outs.map (w, ·)

theorem Accounted.of_move (h : ∃ L', Represents s' L' ∧ Transfer (placesOf w.1) [] [] L L')
    (hsched : s'.scheduled = s.scheduled) (hran : s'.ran = s.ran) : Accounted w s s' L := by
  obtain ⟨L', hrep, htr⟩ := h
  refine ⟨L', [], [], hrep, htr, List.nodup_nil, fun _ h => absurd h List.not_mem_nil, ?_, ?_⟩
  · rw [hsched, List.map_nil, List.append_nil]
  · rw [hran, List.map_nil, List.append_nil]

theorem Represents.logOwner (h : Represents s L) (th : Thread E K) (v : E × ℕ) :
    Represents (s.logOwner th v) L := fun p => by
  rw [State.cell_logOwner]
  exact h p

/-! ### The operations of a worker -/

variable [DecidableEq E] [DecidableEq K]

/-- Writing links of tasks at hand. -/
theorem Represents.relink (h : Represents s L) (hL : Separate L) {next : Task → Option Task}
    (hnext : ∀ x, x ∉ L (.held w) → next x = s.next x)
    (hpc : pc.Holds next (L (.held w))) :
    Accounted w s ((s.setLinks next).goto (.worker w) pc) L := by
  refine .of_move (h.replace hL rfl (L (.held w)) (fun r hr => ?_)
    (fun x hx _ => hnext x hx) ?_ (List.Perm.refl _)) rfl rfl
  · rw [State.cell_goto hr, State.cell_setLinks]
  · rw [State.cell_held_goto]
    exact hpc

/-- Only the program counter changes. -/
theorem Represents.goto (h : Represents s L) (hL : Separate L)
    (hpc : pc.Holds s.next (L (.held w))) :
    Accounted w s (s.goto (.worker w) pc) L :=
  h.relink hL (fun _ _ => rfl) hpc

/-- An operation `m` on the cell of `p`, then `goto`: tasks move between `p` and the
local variables. -/
theorem Represents.exchange {m : State E K Task} {p : Place E} (h : Represents s L)
    (hL : Separate L) (hp : p ∈ placesOf w.1) (hne : Place.held w ≠ p) (xs ys : List Task)
    (hcell : ∀ r, r ≠ p → m.cell r = s.cell r)
    (hnext : ∀ x, x ∉ L (.held w) → x ∉ L p → m.next x = s.next x)
    (hpc : pc.Holds m.next xs) (hys : (m.cell p).Lists m.next ys)
    (hperm : (xs ++ ys).Perm (L (.held w) ++ L p))
    (hsched : m.scheduled = s.scheduled) (hran : m.ran = s.ran) :
    Accounted w s (m.goto (.worker w) pc) L := by
  refine .of_move (h.rearrange hL hne rfl hp xs ys (fun r hr hr' => ?_)
    (fun x hx hx' _ => hnext x hx hx') ?_ ?_ hperm) hsched hran
  · rw [State.cell_goto hr, hcell r hr']
  · rw [State.cell_held_goto]
    exact hpc
  · rw [State.cell_goto hne.symm]
    exact hys

/-- A deque of the same executor. -/
theorem Represents.moveQueue (h : Represents s L) (hL : Separate L) (hv : v.1 = w.1)
    (hpc : pc.Holds s.next xs) (hperm : (xs ++ ys).Perm (L (.held w) ++ s.queue v)) :
    Accounted w s ((s.setQueue v ys).goto (.worker w) pc) L := by
  have hq : L (.queue v) = s.queue v := h (.queue v)
  refine h.exchange hL (p := .queue v) hv (fun he => nomatch he) xs ys
    (fun r hr => State.cell_setQueue hr ys) (fun _ _ _ => rfl) hpc ?_ (hq ▸ hperm) rfl rfl
  rw [State.cell_queue_setQueue]
  exact rfl

/-- The LIFO slot is emptied. -/
theorem Represents.takeLifo (h : Represents s L) (hL : Separate L) (ht : s.lifoSlot w = some t)
    (hheld : L (.held w) = []) :
    Accounted w s ((s.setLifo w none).goto (.worker w) (.execute t)) L := by
  have hl : L (.lifo w) = [t] := (h (.lifo w)).trans (congrArg Option.toList ht)
  refine h.exchange hL (p := .lifo w) rfl (fun he => nomatch he) [t] []
    (fun r hr => State.cell_setLifo hr none) (fun _ _ _ => rfl) rfl ?_ ?_ rfl rfl
  · rw [State.cell_lifo_setLifo]
    exact rfl
  · rw [hl, hheld]
    exact List.Perm.refl _

/-- `pop_all_inbox` takes the whole chain. -/
theorem Represents.takeInbox (h : Represents s L) (hL : Separate L) (ht : s.inbox w = some t)
    (hheld : L (.held w) = []) :
    Accounted w s ((s.setInbox w none).goto (.worker w) (.detach t)) L := by
  have hi : Chain s.next (some t) (L (.inbox w)) := ht ▸ h (.inbox w)
  refine h.exchange hL (p := .inbox w) rfl (fun he => nomatch he) (L (.inbox w)) []
    (fun r hr => State.cell_setInbox hr none) (fun _ _ _ => rfl) hi ?_ ?_ rfl rfl
  · rw [State.cell_inbox_setInbox]
    exact rfl
  · rw [hheld, List.append_nil]
    exact List.Perm.refl _

variable [DecidableEq Task]

omit [DecidableEq K] in
/-- `PushBatch` writes the links of `last` and of the old last task of the queue. -/
theorem Represents.globalPushBatch_next {first last x : Task} (h : Represents s L) (hx : x ≠ last)
    (hx' : x ∉ L (.globalQueue X)) : (s.globalPushBatch X first last).next x = s.next x := by
  have hg : (s.globalQueue X).Lists s.next (L (.globalQueue X)) := h (.globalQueue X)
  refine IntrusiveSpinLockQueue.pushBatch_next hx fun he => hx' ?_
  exact List.mem_of_getLast? (hg.last.symm.trans he)

omit [DecidableEq E] [DecidableEq K] in
/-- `Pop` writes the link of the first task. -/
theorem Represents.globalPop_next {x : Task} (h : Represents s L)
    (hx : x ∉ L (.globalQueue X)) : ((s.globalQueue X).pop s.next).2.1 x = s.next x := by
  have hg : (s.globalQueue X).Lists s.next (L (.globalQueue X)) := h (.globalQueue X)
  refine IntrusiveSpinLockQueue.pop_next fun he => hx ?_
  have hchain := hg.chain
  rw [he] at hchain
  obtain ⟨zs, hzs, -⟩ := hchain.tail
  simp [hzs]

/-- `PushBatch` of a segment at hand; the tasks `xs` stay. -/
theorem Represents.pushGlobal {first last : Task} {r : Option Task} (h : Represents s L)
    (hL : Separate L) (hheld : (L (.held w)).Perm (xs ++ (ys ++ [last])))
    (hseg : Segment s.next (some first) (ys ++ [last]) r) (hpc : pc.Holds s.next xs) :
    Accounted w s ((s.globalPushBatch w.1 first last).goto (.worker w) pc) L := by
  have hg : (s.globalQueue w.1).Lists s.next (L (.globalQueue w.1)) := h (.globalQueue w.1)
  have hne : Place.held w ≠ .globalQueue w.1 := fun he => nomatch he
  have hmem : ∀ x ∈ xs ++ (ys ++ [last]), x ∈ L (.held w) := fun x hx => hheld.mem_iff.mpr hx
  have hdis : ∀ x ∈ L (.globalQueue w.1), x ∉ xs ++ (ys ++ [last]) := fun x hx hx' =>
    hL.disjoint _ _ hne x (hmem x hx') hx
  have hnd : (xs ++ (ys ++ [last])).Nodup := hheld.nodup_iff.mp (hL.nodup _)
  have hnext : ∀ x, x ≠ last → x ∉ L (.globalQueue w.1) →
      (s.globalPushBatch w.1 first last).next x = s.next x := fun x hx hx' =>
    h.globalPushBatch_next hx hx'
  refine h.exchange hL (p := .globalQueue w.1) rfl hne xs (L (.globalQueue w.1) ++ (ys ++ [last]))
    (fun r hr => State.cell_setGlobal hr _) (fun x hx hx' => hnext x ?_ hx') ?_ ?_ ?_ rfl rfl
  · rintro rfl
    exact hx (hmem x (by simp))
  · refine hpc.frame fun x hx => hnext x ?_ fun hx' => hdis x hx' (by simp [hx])
    rintro rfl
    exact (List.nodup_append.mp hnd).2.2 x hx x (by simp) rfl
  · rw [State.globalPushBatch, State.cell_globalQueue_setGlobal]
    refine hg.pushBatch hseg hnd.of_append_right fun x hx hx' => hdis x hx ?_
    exact List.mem_append_right xs hx'
  · rw [List.perm_iff_count] at hheld ⊢
    intro a
    have := hheld a
    simp only [List.count_append] at this ⊢
    omega

/-- `Push` of a task at hand. -/
theorem Represents.pushGlobalOne (h : Represents s L) (hL : Separate L)
    (hheld : (L (.held w)).Perm (t :: xs)) (hpc : pc.Holds s.next xs) :
    Accounted w s ((s.globalPush w.1 t).goto (.worker w) pc) L := by
  have hseg : Segment s.next (some t) ([] ++ [t]) (s.next t) := ⟨rfl, rfl⟩
  exact h.pushGlobal hL (hheld.trans (List.perm_append_singleton t xs).symm) hseg hpc

/-- `Pop` with nothing at hand. -/
theorem Represents.popGlobal (h : Represents s L) (hL : Separate L) (hheld : L (.held w) = [])
    (hpc : ∀ next : Task → Option Task, pc.Holds next []) :
    Accounted w s (s.globalPop w.1 (.worker w) .execute pc) L := by
  have hg : (s.globalQueue w.1).Lists s.next (L (.globalQueue w.1)) := h (.globalQueue w.1)
  obtain ⟨hfst, hrest⟩ := hg.pop
  have hnext : ∀ x ∉ L (.globalQueue w.1),
      ((s.globalQueue w.1).pop s.next).2.1 x = s.next x := fun x hx => h.globalPop_next hx
  refine h.exchange hL (p := .globalQueue w.1) rfl (fun he => nomatch he)
    (L (.globalQueue w.1)).head?.toList (L (.globalQueue w.1)).tail
    (fun r hr => State.cell_setGlobal hr _) (fun x _ hx' => hnext x hx') ?_ ?_ ?_ rfl rfl
  · rw [hfst]
    cases L (.globalQueue w.1) with
    | nil => exact hpc _
    | cons x zs => exact rfl
  · rw [State.cell_globalQueue_setGlobal]
    exact hrest
  · rw [hheld]
    cases L (.globalQueue w.1) with
    | nil => exact List.Perm.refl _
    | cons x zs => exact List.Perm.refl _

omit [DecidableEq Task] in
/-- `task->run()`. -/
theorem Represents.run (h : Represents s L) (hL : Separate L) (hheld : L (.held w) = [t]) :
    Accounted w s ((s.logRan w t).goto (.worker w) .calling) L := by
  obtain ⟨L', hrep, htr⟩ : ∃ L', Represents ((s.logRan w t).goto (.worker w) .calling) L' ∧
      Transfer (placesOf w.1) [] [t] L L' := by
    refine h.replace hL (p := .held w) rfl [] (fun r hr => ?_) (fun _ _ _ => rfl) ?_ ?_
    · rw [State.cell_goto hr, State.cell_logRan]
    · rw [State.cell_held_goto]
      exact rfl
    · rw [hheld]
      exact List.Perm.refl _
  exact ⟨L', [], [t], hrep, htr, List.nodup_nil, fun _ h => absurd h List.not_mem_nil,
    (List.append_nil _).symm, rfl⟩

/-! ### The steps of `WorkerLoop` -/

omit [DecidableEq Task] in
/-- What `TakeHalf` takes and leaves. -/
theorem takeHalf_append (xs : List Task) : (takeHalf xs).1 ++ (takeHalf xs).2 = xs := by
  rw [takeHalf, List.splitAt_eq]
  exact List.take_append_drop _ _

variable {c : Config E K} {draw : ℕ} {lost : Bool}

omit [DecidableEq Task] in
/-- A push to the worker's own deque, which may be full. -/
theorem Represents.tryPush {full : Pc E Task} (h : Represents s L) (hL : Separate L)
    (hheld : (L (.held w)).Perm (t :: xs)) (hpc : pc.Holds s.next xs)
    (hfull : full.Holds s.next (L (.held w))) :
    Accounted w s (if (s.queue w).length < kDefaultSpmcCapacity then
      (s.setQueue w (s.queue w ++ [t])).goto (.worker w) pc
    else s.goto (.worker w) full) L := by
  split
  · refine h.moveQueue hL rfl hpc ?_
    rw [← List.append_assoc]
    exact (List.perm_append_singleton t _).trans (hheld.symm.append_right _)
  · exact h.goto hL hfull

omit [DecidableEq E] [DecidableEq K] in
/-- The first task is cut off the drained chain. -/
theorem Pc.Holds.detach {next : Task → Option Task} (h : (Pc.detach t : Pc E Task).Holds next xs) :
    (Pc.drain t (next t) : Pc E Task).Holds (Function.update next t none) xs := by
  have hchain : Chain next (some t) xs := h
  obtain ⟨ys, rfl, hys⟩ := hchain.tail
  have ht : t ∉ ys := (List.nodup_cons.mp hchain.nodup).1
  exact ⟨ys, rfl, hys.update_of_notMem ht none⟩

omit [DecidableEq E] [DecidableEq K] in
/-- And so is the next one. -/
theorem Pc.Holds.drain {next : Task → Option Task} {x : Task}
    (h : (Pc.drain t (some x) : Pc E Task).Holds next xs) :
    (Pc.drainPush t x (next x) : Pc E Task).Holds (Function.update next x none) xs := by
  obtain ⟨ys, rfl, hys⟩ := h
  obtain ⟨zs, rfl, hzs⟩ := hys.tail
  have hx : x ∉ zs := (List.nodup_cons.mp hys.nodup).1
  exact ⟨zs, rfl, hzs.update_of_notMem hx none⟩

theorem drainStep_accounted (h : Represents s L) (hL : Separate L) (hs : drainStep s w = some s') :
    Accounted w s s' L := by
  unfold drainStep at hs
  cases hpc : s.pc (.worker w) with
  | inbox =>
    have hheld : L (.held w) = [] := h.holds hpc
    simp only [hpc, Option.some.injEq] at hs
    subst hs
    cases hi : s.inbox w with
    | none => exact h.goto hL hheld
    | some t => exact h.takeInbox hL hi hheld
  | detach t =>
    have hheld : Chain s.next (some t) (L (.held w)) := h.holds hpc
    simp only [hpc, Option.some.injEq] at hs
    subst hs
    obtain ⟨ys, hys, -⟩ := hheld.tail
    refine h.relink hL (fun x hx => Function.update_of_ne ?_ _ _) (h.holds hpc).detach
    rintro rfl
    exact hx (by simp [hys])
  | drain t curr =>
    obtain ⟨ys, hys, hchain⟩ := h.holds hpc
    cases curr with
    | none =>
      simp only [hpc, Option.some.injEq] at hs
      subst hs
      exact h.goto hL (by rw [hys, hchain.none_iff.mp rfl]; exact rfl)
    | some x =>
      simp only [hpc, Option.some.injEq] at hs
      subst hs
      obtain ⟨zs, rfl, -⟩ := hchain.tail
      refine h.relink hL (fun y hy => Function.update_of_ne ?_ _ _) (h.holds hpc).drain
      rintro rfl
      exact hy (by simp [hys])
  | drainPush t x nxt =>
    obtain ⟨ys, hys, hchain⟩ := h.holds hpc
    simp only [hpc, Option.some.injEq] at hs
    subst hs
    refine (h.logOwner _ w).tryPush hL ?_ ⟨ys, rfl, hchain⟩ ⟨ys, hys, hchain⟩
    rw [hys]
    exact List.Perm.swap x t ys
  | drainSpill t x nxt =>
    obtain ⟨ys, hys, hchain⟩ := h.holds hpc
    simp only [hpc, Option.some.injEq] at hs
    subst hs
    refine h.pushGlobalOne hL ?_ ⟨ys, rfl, hchain⟩
    rw [hys]
    exact List.Perm.swap x t ys
  | _ => simp only [hpc, reduceCtorEq] at hs

theorem stealStep_accounted (h : Represents s L) (hL : Separate L)
    (hs : stealStep c s w draw lost = some s') : Accounted w s s' L := by
  unfold stealStep at hs
  cases hpc : s.pc (.worker w) with
  | steal =>
    have hheld : L (.held w) = [] := h.holds hpc
    simp only [hpc, Option.some.injEq] at hs
    subst hs
    split
    · exact h.goto hL hheld
    · exact h.goto hL hheld
  | stealHalf start i =>
    have hheld : L (.held w) = [] := h.holds hpc
    simp only [hpc, Option.some.injEq] at hs
    subst hs
    split
    · exact h.goto hL hheld
    split
    · exact h.goto hL hheld
    -- the victim's deque is split, whichever worker it belongs to
    have hsplit := takeHalf_append (s.queue (w.1, (start + i) % c.nthreads w.1))
    split
    · rename_i t rest zs heq
      rw [heq] at hsplit
      refine h.moveQueue hL rfl rfl ?_
      rw [hheld, ← hsplit]
      exact List.Perm.refl _
    · exact h.goto hL hheld
  | stealOne start i =>
    have hheld : L (.held w) = [] := h.holds hpc
    simp only [hpc, Option.some.injEq] at hs
    subst hs
    split
    · rename_i t zs heq
      refine h.moveQueue hL rfl rfl ?_
      rw [hheld, heq]
      exact List.Perm.refl _
    · exact h.goto hL hheld
  | batch t rest =>
    have hheld : L (.held w) = t :: rest := h.holds hpc
    cases rest with
    | nil =>
      simp only [hpc, Option.some.injEq] at hs
      subst hs
      exact h.goto hL hheld
    | cons x rest =>
      simp only [hpc, Option.some.injEq] at hs
      subst hs
      refine (h.logOwner _ w).tryPush hL ?_ rfl hheld
      rw [hheld]
      exact List.Perm.swap x t rest
  | batchSpill t x rest =>
    have hheld : L (.held w) = t :: x :: rest := h.holds hpc
    simp only [hpc, Option.some.injEq] at hs
    subst hs
    refine h.pushGlobalOne hL ?_ rfl
    rw [hheld]
    exact List.Perm.swap x t rest
  | _ => simp only [hpc, reduceCtorEq] at hs

/-- **A step of `WorkerLoop`** keeps account of the tasks. -/
theorem workerStep_accounted (h : Represents s L) (hL : Separate L)
    (hs : workerStep c s w draw lost = some s') : Accounted w s s' L := by
  unfold workerStep at hs
  cases hpc : s.pc (.worker w) with
  | top =>
    have hheld : L (.held w) = [] := h.holds hpc
    simp only [hpc, Option.some.injEq] at hs
    subst hs
    split
    · have htick : Represents (s.setTick w ((s.tick w + 1) % 2 ^ 64)) L := fun p => by
        rw [State.cell_setTick]
        exact h p
      refine htick.goto hL ?_
      split
      · exact hheld
      · exact hheld
    · exact h.goto hL hheld
  | globalCheck | globalPop =>
    simp only [hpc, Option.some.injEq] at hs
    subst hs
    exact h.popGlobal hL (h.holds hpc) fun _ => rfl
  | lifo =>
    have hheld : L (.held w) = [] := h.holds hpc
    simp only [hpc, Option.some.injEq] at hs
    subst hs
    split
    · exact (h.logOwner _ w).takeLifo hL ‹_› hheld
    · exact (h.logOwner _ w).goto hL hheld
  | tryPop =>
    have hheld : L (.held w) = [] := h.holds hpc
    simp only [hpc, Option.some.injEq] at hs
    subst hs
    split
    · rename_i t heq
      refine (h.logOwner _ w).moveQueue hL rfl rfl ?_
      have hlast := List.dropLast_append_getLast? t heq
      have hperm := List.perm_append_singleton t ((s.logOwner (.worker w) w).queue w).dropLast
      rw [hlast] at hperm
      rw [hheld]
      exact hperm.symm
    · exact (h.logOwner _ w).goto hL hheld
  | execute t =>
    simp only [hpc, Option.some.injEq] at hs
    subst hs
    exact h.run hL (h.holds hpc)
  | inbox | detach | drain | drainPush | drainSpill =>
    simp only [hpc] at hs
    exact drainStep_accounted h hL hs
  | steal | stealHalf | stealOne | batch | batchSpill =>
    simp only [hpc] at hs
    exact stealStep_accounted h hL hs
  | _ => simp only [hpc, reduceCtorEq] at hs

/-! ### The steps of `schedule` -/

omit [DecidableEq E] [DecidableEq K] in
theorem linkBatch_of_notMem {next : Task → Option Task} {y : Task} (hy : y ∉ xs ++ [t]) :
    linkBatch next xs t y = next y := by
  induction xs generalizing next with
  | nil => exact Function.update_of_ne (by simpa using hy) _ _
  | cons x xs ih =>
    rw [linkBatch, ih (List.not_mem_of_not_mem_cons hy)]
    exact Function.update_of_ne (List.ne_of_not_mem_cons hy) _ _

omit [DecidableEq E] [DecidableEq K] in
/-- Linking a batch and the task behind it. -/
theorem linkBatch_chain {next : Task → Option Task} (hnd : (xs ++ [t]).Nodup) :
    Chain (linkBatch next xs t) (some (xs.headD t)) (xs ++ [t]) := by
  induction xs generalizing next with
  | nil => exact ⟨rfl, show Function.update next t none t = none from Function.update_self ..⟩
  | cons x xs ih =>
    obtain ⟨hx, hnd'⟩ := List.nodup_cons.mp hnd
    -- the later writes leave the link of `x` alone
    have hlink : linkBatch next (x :: xs) t x = some (xs.headD t) := by
      rw [linkBatch, linkBatch_of_notMem hx, Function.update_self]
    refine chain_cons.mpr ⟨rfl, ?_⟩
    rw [hlink]
    exact ih hnd'

/-- **A step of `schedule`** on the owner's path keeps account of the tasks. -/
theorem scheduleStep_accounted (h : Represents s L) (hL : Separate L)
    (hs : scheduleStep s (.worker w) lost = some s')
    (hown : ∀ v, (s.pc (.worker w)).frame = some v → v = w) : Accounted w s s' L := by
  unfold scheduleStep at hs
  cases hpc : s.pc (.worker w) with
  | schedPush v t =>
    obtain rfl := hown v (hpc ▸ rfl)
    simp only [hpc, Option.some.injEq] at hs
    subst hs
    have hheld : L (.held v) = [t] := h.holds hpc
    exact (h.logOwner _ v).tryPush hL (hheld ▸ List.Perm.refl _) rfl hheld
  | schedTake v t =>
    obtain rfl := hown v (hpc ▸ rfl)
    simp only [hpc, Option.some.injEq] at hs
    subst hs
    have hheld : L (.held v) = [t] := h.holds hpc
    have hsplit := takeHalf_append ((s.logOwner (.worker v) v).queue v)
    split
    · rename_i x rest zs heq
      rw [heq] at hsplit
      refine (h.logOwner _ v).moveQueue hL rfl rfl ?_
      rw [hheld, ← hsplit]
      exact (List.perm_append_singleton t (x :: rest)).append_right zs
    · exact (h.logOwner _ v).goto hL hheld
  | schedLink v t x rest =>
    obtain rfl := hown v (hpc ▸ rfl)
    simp only [hpc, Option.some.injEq] at hs
    subst hs
    have hheld : L (.held v) = x :: rest ++ [t] := h.holds hpc
    refine h.relink hL (fun y hy => linkBatch_of_notMem (hheld ▸ hy)) ⟨x :: rest, hheld, ?_⟩
    rw [hheld]
    exact linkBatch_chain (hheld ▸ hL.nodup (.held v))
  | schedBatch v t x =>
    obtain rfl := hown v (hpc ▸ rfl)
    simp only [hpc, Option.some.injEq] at hs
    subst hs
    obtain ⟨ys, hheld, hchain⟩ := h.holds hpc
    rw [hheld] at hchain
    exact h.pushGlobal hL (hheld ▸ List.Perm.refl _) hchain rfl
  | schedGlobal v t =>
    obtain rfl := hown v (hpc ▸ rfl)
    simp only [hpc, Option.some.injEq] at hs
    subst hs
    have hheld : L (.held v) = [t] := h.holds hpc
    exact h.pushGlobalOne hL (hheld ▸ List.Perm.refl _) rfl
  | _ => simp only [hpc, reduceCtorEq] at hs

omit [DecidableEq K] [DecidableEq Task] in
/-- A scheduled task is put into the place `p`. -/
theorem Represents.put {p : Place E} (h : Represents s L) (hL : Separate L) (hnew : ¬ Within L t)
    (hp : p ∈ placesOf w.1) (xs : List Task) (hcell : ∀ r, r ≠ p → s'.cell r = s.cell r)
    (hnext : ∀ x, x ∉ L p → Within L x → s'.next x = s.next x)
    (hxs : (s'.cell p).Lists s'.next xs) (hperm : xs.Perm (t :: L p))
    (hsched : s'.scheduled = s.scheduled ++ [(w.1, t)]) (hran : s'.ran = s.ran) :
    Accounted w s s' L := by
  obtain ⟨L', hrep, htr⟩ : ∃ L', Represents s' L' ∧ Transfer (placesOf w.1) [t] [] L L' :=
    h.replace hL hp xs hcell hnext hxs hperm
  refine ⟨L', [t], [], hrep, htr, List.nodup_singleton t, ?_, hsched, ?_⟩
  · intro x hx
    obtain rfl := List.mem_singleton.mp hx
    exact hnew
  · rw [hran, List.map_nil, List.append_nil]

omit [DecidableEq K] in
theorem Represents.putInbox {r : Route} {th : Thread E K} (h : Represents s L) (hL : Separate L)
    (hnew : ¬ Within L t) :
    Accounted v s (((s.logScheduled v.1 t).pushInbox v t).logCall th r) L := by
  have hi : Chain s.next (s.inbox v) (L (.inbox v)) := h (.inbox v)
  refine h.put hL hnew (p := .inbox v) rfl (t :: L (.inbox v)) (fun r hr => ?_) (fun x _ hx => ?_)
    ?_ (List.Perm.refl _) rfl rfl
  · rw [State.cell_logCall, State.pushInbox, State.cell_setInbox hr, State.setNext,
      State.cell_setLinks, State.cell_logScheduled]
  · refine Function.update_of_ne ?_ _ _
    rintro rfl
    exact hnew hx
  · rw [State.cell_logCall, State.pushInbox, State.cell_inbox_setInbox]
    exact hi.cons fun hmem => hnew ⟨_, hmem⟩

omit [DecidableEq K] in
theorem Represents.putGlobal {r : Route} {th : Thread E K} (h : Represents s L) (hL : Separate L)
    (hnew : ¬ Within L t) :
    Accounted w s (((s.logScheduled w.1 t).globalPush w.1 t).logCall th r) L := by
  have hg : (s.globalQueue w.1).Lists s.next (L (.globalQueue w.1)) := h (.globalQueue w.1)
  refine h.put hL hnew (p := .globalQueue w.1) rfl (L (.globalQueue w.1) ++ [t]) (fun r hr => ?_)
    (fun x hx hin => ?_) ?_ (List.perm_append_singleton t _) rfl rfl
  · rw [State.cell_logCall, State.globalPush, State.cell_setGlobal hr, State.cell_logScheduled]
  · refine h.globalPushBatch_next ?_ hx
    rintro rfl
    exact hnew hin
  · rw [State.cell_logCall, State.globalPush, State.cell_globalQueue_setGlobal]
    exact hg.push fun hmem => hnew ⟨_, hmem⟩

omit [DecidableEq Task] in
/-- The owner puts the task into its LIFO slot, or keeps it at hand if that is occupied. -/
theorem scheduleOwner_accounted (h : Represents s L) (hL : Separate L) (hnew : ¬ Within L t)
    (hw : s.pc (.worker w) = .calling) :
    Accounted w s (scheduleOwner (s.logScheduled w.1 t) (.worker w) w t) L := by
  have hrest : ∀ r, (((s.logScheduled w.1 t).logOwner (.worker w) w).logCall (.worker w)
      .owner).cell r = s.cell r := fun r => by
    rw [State.cell_logCall, State.cell_logOwner, State.cell_logScheduled]
  unfold scheduleOwner
  simp only
  split
  · rename_i hslot
    have hl : L (.lifo w) = [] := (h (.lifo w)).trans (congrArg Option.toList hslot)
    refine h.put hL hnew (p := .lifo w) rfl [t] (fun r hr => ?_) (fun _ _ _ => rfl) ?_
      (hl ▸ List.Perm.refl _) rfl rfl
    · rw [State.cell_setLifo hr, hrest]
    · rw [State.cell_lifo_setLifo]
      exact rfl
  · have hheld : L (.held w) = [] := h.holds hw
    refine h.put hL hnew (p := .held w) rfl [t] (fun r hr => ?_) (fun _ _ _ => rfl) ?_
      (hheld ▸ List.Perm.refl _) rfl rfl
    · rw [State.cell_goto hr, hrest]
    · rw [State.cell_held_goto]
      exact rfl

/-- **A `schedule` call** for a task that is nowhere.  Only the owner may take the owner's
path. -/
theorem scheduleCall_accounted {th : Thread E K} {target : Option ℕ} {d : Draws}
    (h : Represents s L) (hL : Separate L) (hnew : ¬ Within L t) (hth : s.pc th = .calling)
    (hown : c.OwnerPath th X target → th = .worker (X, (c.threadLocals th).2)) :
    ∃ i < c.nthreads X,
      Accounted (X, i) s (scheduleCall c (s.logScheduled X t) th X t target d) L := by
  by_cases ho : c.OwnerPath th X target
  · obtain ⟨i, hi⟩ : ∃ i, i = (c.threadLocals th).2 := ⟨_, rfl⟩
    obtain rfl : th = .worker (X, i) := hi ▸ hown ho
    refine ⟨i, hi ▸ ho.2.1, ?_⟩
    rw [scheduleCall_of_ownerPath ho, ← hi]
    exact scheduleOwner_accounted (w := (X, i)) h hL hnew hth
  · rcases scheduleCall_of_not_ownerPath ho (s.logScheduled X t) t d with ⟨i, hi, hs⟩ | hs
    · refine ⟨i, hi, ?_⟩
      rw [hs]
      exact h.putInbox (v := (X, i)) hL hnew
    · refine ⟨0, c.nthreads_pos X, ?_⟩
      rw [hs]
      exact h.putGlobal (w := (X, 0)) hL hnew

end WorkStealing
