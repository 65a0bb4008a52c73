/-
The coroutine frames of the connections.

For each accepted connection a parent coroutine (`DetachedTask`) awaits `with_timeout` over a
child (`HttpTask`).  A frame is destroyed by its coroutine, when the coroutine does not suspend
at its final suspend point, or by `destroy()` on a handle to it.  The parent does not suspend
there (`suspend_never`), the child does (`FinalAwaiter`), and nothing calls `destroy()`: the
handle in `child_task_` is a plain pointer.

* `Conn`, `step` — any number of connections, each with its `with_timeout` and its two frames;
* `Tracked` — what a connection's frames have to do with its coroutines;
* `frames_reclaimed_iff` — **the child frames are reclaimed exactly as long as no child ends**.
-/
import AntServer.TimeoutResume

namespace TimeoutAwaiter

/-! ### Frames -/

/-- A coroutine frame, with the number of times it was destroyed. -/
structure Frame where
  allocated : Bool
  destroys : ℕ
deriving DecidableEq, Repr

namespace Frame

def absent : Frame := ⟨false, 0⟩
def fresh : Frame := ⟨true, 0⟩

def live (f : Frame) : Bool := f.allocated && f.destroys == 0

def destroy (f : Frame) : Frame := { f with destroys := f.destroys + 1 }

/-- The coroutine comes to its final suspend point; `ready` is what `await_ready` of the
final awaiter returns. -/
def finalSuspend (f : Frame) (ready : Bool) : Frame := if ready then f.destroy else f

end Frame

/-- `FinalAwaiter::await_ready` of `HttpTask`. -/
def httpTaskFinalReady : Bool := false

/-- `suspend_never::await_ready`, for `DetachedTask`. -/
def detachedTaskFinalReady : Bool := true

/-- The destructor of `HttpTask`, which leaves the frame of its handle alone. -/
def destructHttpTask (f : Frame) : Frame := f

/-! ### Connections -/

structure Conn where
  ops : Option (List Await)     -- what the task function returns
  awaiter : State
  childFrame : Frame
  parentFrame : Frame

def Conn.accepted (ops : Option (List Await)) : Conn := ⟨ops, init, .absent, .fresh⟩

/-- The child frame after a step: the task function makes one if it is a coroutine. -/
def Conn.childFrameAfter (k : Conn) : Label → Frame
  | .launch => if k.ops.isSome then .fresh else k.childFrame
  | .finalSuspend => k.childFrame.finalSuspend httpTaskFinalReady
  | _ => k.childFrame

/-- A step of `with_timeout`. -/
def Conn.step (k : Conn) (l : Label) : Option Conn :=
  (TimeoutAwaiter.step k.ops k.awaiter l).map fun awaiter =>
    { k with awaiter := awaiter, childFrame := k.childFrameAfter l }

/-- The parent has been resumed and runs to its end: the awaiter with `child_task_` is
destroyed, then the frame. -/
def Conn.parentEnds (k : Conn) : Option Conn :=
  if 0 < k.awaiter.resumes ∧ k.parentFrame.live = true then
    some { k with
      childFrame := destructHttpTask k.childFrame
      parentFrame := k.parentFrame.finalSuspend detachedTaskFinalReady }
  else none

inductive ConnLabel
  | accept (ops : Option (List Await))
  | inner (i : ℕ) (l : Label)
  | parentEnds (i : ℕ)
deriving DecidableEq, Repr

/-- The connections, in the order in which they were accepted. -/
def connStep (s : List Conn) : ConnLabel → Option (List Conn)
  | .accept ops => some (s ++ [.accepted ops])
  | .inner i l => do
    let k ← s[i]?
    let k' ← k.step l
    pure (s.set i k')
  | .parentEnds i => do
    let k ← s[i]?
    let k' ← k.parentEnds
    pure (s.set i k')

/-- The child has started and is not at its end. -/
def Conn.childUnfinished (k : Conn) : Bool :=
  k.awaiter.child != .notCreated && k.awaiter.child != .final

/-- The parent has resumed and finished. -/
def Conn.parentFinished (k : Conn) : Bool := k.parentFrame.destroys != 0

/-- The child frame of every finished parent was destroyed once, and there are as many live
child frames as unfinished children. -/
def Reclaimed (s : List Conn) : Prop :=
  (∀ k ∈ s, k.parentFinished = true → k.childFrame.allocated = true →
    k.childFrame.destroys = 1) ∧
  s.countP (fun k => k.childFrame.live) = s.countP Conn.childUnfinished

instance (s : List Conn) : Decidable (Reclaimed s) := inferInstanceAs (Decidable (_ ∧ _))

/-! ### What the frames have to do with the coroutines -/

/-- A step that leaves the child, what is owed to the parent and the start as they are. -/
structure Leaves (s s' : State) : Prop where
  child : s'.child = s.child
  owed : s'.owed = s.owed
  start : s'.launcher = .start → s.launcher = .start

theorem stopCallback_leaves (s : State) (j : ℕ) : Leaves s (stopCallback s j) := by
  rw [stopCallback]
  split <;> exact ⟨rfl, rfl, id⟩

theorem bindStopCallback_leaves (s : State) (j : ℕ) : Leaves s (bindStopCallback s j) := by
  rw [bindStopCallback]
  split
  · split
    · exact ⟨rfl, rfl, id⟩
    · exact stopCallback_leaves s j
  · exact ⟨rfl, rfl, id⟩

/-- The steps that are not the child's own. -/
theorem step_leaves {ops : Option (List Await)} {s s' : State} {l : Label}
    (hs : step ops s l = some s') (hlaunch : l ≠ .launch) (hfinal : l ≠ .finalSuspend)
    (hchild : ∀ i, l ≠ .skip i ∧ l ≠ .suspend i ∧ l ≠ .resume i) : Leaves s s' := by
  cases l <;>
    simp only [step, Option.ite_none_right_eq_some, Option.some.injEq] at hs <;>
    obtain ⟨hg, hs⟩ := hs
  case launch => exact absurd rfl hlaunch
  case finalSuspend => exact absurd rfl hfinal
  case skip i => exact absurd rfl (hchild i).1
  case suspend i => exact absurd rfl (hchild i).2.1
  case resume i => exact absurd rfl (hchild i).2.2
  case bind j =>
    subst hs
    have h := bindStopCallback_leaves { s with stage := Function.update s.stage j .returned } j
    exact ⟨h.child, h.owed, h.start⟩
  case runCallback j =>
    subst hs
    have h := stopCallback_leaves { s with registered := s.registered.filter (· ≠ j) } j
    exact ⟨h.child, h.owed, h.start⟩
  case transfer =>
    subst hs
    refine ⟨rfl, ?_, id⟩
    simp [State.owed, hg]
  case setStopToken | setContinuation | addTimer | returned =>
    subst hs
    exact ⟨rfl, rfl, fun h => by cases h⟩
  all_goals
    subst hs
    exact ⟨rfl, rfl, id⟩

/-- The child frame is there from the launch on, whatever happens. -/
structure Tracked (k : Conn) : Prop where
  start : k.awaiter.launcher = .start → k.awaiter.child = .notCreated
  childless : k.ops = none → k.awaiter.child = .notCreated
  owed : 0 < k.awaiter.owed → k.awaiter.child = .final ∨ k.ops = none
  frame : k.childFrame = if k.awaiter.child = .notCreated then .absent else .fresh
  parent : k.parentFinished = true → k.awaiter.child = .final ∨ k.ops = none

theorem Tracked.accepted (ops : Option (List Await)) : Tracked (.accepted ops) where
  start := fun _ => rfl
  childless := fun _ => rfl
  owed := fun h => absurd h (lt_irrefl 0)
  frame := rfl
  parent := fun h => absurd h Bool.false_ne_true

/-- The child moves on from one await to the next. -/
theorem Tracked.advance {k k' : Conn} (h : Tracked k) (hops : k'.ops = k.ops)
    (hparent : k'.parentFrame = k.parentFrame) (hframe : k'.childFrame = k.childFrame)
    (hlauncher : k'.awaiter.launcher = k.awaiter.launcher)
    (howed : k'.awaiter.owed = k.awaiter.owed)
    (hfrom : k.awaiter.child ≠ .notCreated ∧ k.awaiter.child ≠ .final)
    (hto : k'.awaiter.child ≠ .notCreated) : Tracked k' where
  start := fun hs => absurd (h.start (hlauncher ▸ hs)) hfrom.1
  childless := fun hn => absurd (h.childless (hops ▸ hn)) hfrom.1
  owed := fun ho => by
    rw [howed] at ho
    rw [hops]
    exact Or.inr ((h.owed ho).resolve_left hfrom.2)
  frame := by
    rw [hframe, h.frame, if_neg hfrom.1, if_neg hto]
  parent := fun hp => by
    rw [Conn.parentFinished, hparent] at hp
    rw [hops]
    exact Or.inr ((h.parent hp).resolve_left hfrom.2)

/-- The task function is called. -/
theorem Tracked.launch {k k' : Conn} (h : Tracked k) (hs : k.step .launch = some k') :
    Tracked k' ∧ k'.awaiter.child ≠ .final := by
  obtain ⟨ops, s, childFrame, parentFrame⟩ := k
  obtain ⟨s', hs', rfl⟩ := Option.map_eq_some_iff.mp hs
  simp only [TimeoutAwaiter.step, Option.ite_none_right_eq_some] at hs'
  obtain ⟨hstart, hs'⟩ := hs'
  have hnew : s.child = .notCreated := h.start hstart
  cases ops with
  | none =>
    cases hs'
    refine ⟨⟨fun hs => ?_, fun _ => hnew, fun _ => Or.inr rfl, h.frame, fun _ => Or.inr rfl⟩,
      fun hf => ?_⟩
    · cases hs
    · cases hnew.symm.trans hf
  | some ops =>
    cases hs'
    have hquiet : ¬ (s.child = .final ∨ some ops = none) := by
      rintro (hf | hn)
      · cases hnew.symm.trans hf
      · cases hn
    refine ⟨⟨fun hs => ?_, fun hn => ?_, fun ho => absurd (h.owed ho) hquiet, rfl,
      fun hp => absurd (h.parent hp) hquiet⟩, fun hf => ?_⟩
    · cases hs
    · cases hn
    · cases hf

/-- The child ends, and suspends there. -/
theorem Tracked.finalSuspend {k k' : Conn} (h : Tracked k)
    (hs : k.step .finalSuspend = some k') : Tracked k' ∧ k'.awaiter.child = .final := by
  obtain ⟨s', hs', rfl⟩ := Option.map_eq_some_iff.mp hs
  simp only [TimeoutAwaiter.step, Option.ite_none_right_eq_some, Option.some.injEq] at hs'
  obtain ⟨hrun, rfl⟩ := hs'
  have hcreated : k.awaiter.child ≠ .notCreated := fun hn => by cases hn.symm.trans hrun
  refine ⟨⟨fun hs => absurd (h.start hs) hcreated, fun hn => absurd (h.childless hn) hcreated,
    fun _ => Or.inl rfl, ?_, fun _ => Or.inl rfl⟩, rfl⟩
  show k.childFrame = .fresh
  rw [h.frame, if_neg hcreated]

/-- Any other step. -/
theorem Tracked.proceed {k k' : Conn} {l : Label} (h : Tracked k) (hs : k.step l = some k')
    (hlaunch : l ≠ .launch) (hfinal : l ≠ .finalSuspend) :
    Tracked k' ∧ (k'.awaiter.child = .final ↔ k.awaiter.child = .final) := by
  obtain ⟨s', hs', rfl⟩ := Option.map_eq_some_iff.mp hs
  have hsame : k.childFrameAfter l = k.childFrame := by
    cases l <;> first | rfl | exact absurd rfl hlaunch
  rw [hsame]
  by_cases hchild : ∀ i, l ≠ .skip i ∧ l ≠ .suspend i ∧ l ≠ .resume i
  · have hleaves := step_leaves hs' hlaunch hfinal hchild
    refine ⟨⟨fun hs => ?_, fun hn => ?_, fun ho => ?_, ?_, fun hp => ?_⟩, by rw [hleaves.child]⟩
    · exact hleaves.child.trans (h.start (hleaves.start hs))
    · exact hleaves.child.trans (h.childless hn)
    · have ho' : 0 < k.awaiter.owed := hleaves.owed ▸ ho
      exact (h.owed ho').imp hleaves.child.trans id
    · rw [hleaves.child]
      exact h.frame
    · exact (h.parent hp).imp hleaves.child.trans id
  · -- the child goes from one of its awaits to the next
    have hmoved : s'.launcher = k.awaiter.launcher ∧ s'.owed = k.awaiter.owed ∧
        (k.awaiter.child ≠ .notCreated ∧ k.awaiter.child ≠ .final) ∧
        s'.child ≠ .notCreated ∧ s'.child ≠ .final := by
      push Not at hchild
      obtain ⟨i, hi⟩ := hchild
      by_cases hskip : l = .skip i
      · subst hskip
        simp only [TimeoutAwaiter.step, Option.ite_none_right_eq_some, Option.some.injEq] at hs'
        obtain ⟨⟨hpc, -⟩, rfl⟩ := hs'
        simp [hpc, State.owed]
      by_cases hsuspend : l = .suspend i
      · subst hsuspend
        simp only [TimeoutAwaiter.step, Option.ite_none_right_eq_some, Option.some.injEq] at hs'
        obtain ⟨⟨hpc, -⟩, rfl⟩ := hs'
        simp [hpc, State.owed]
      · obtain rfl := hi hskip hsuspend
        simp only [TimeoutAwaiter.step, Option.ite_none_right_eq_some, Option.some.injEq] at hs'
        obtain ⟨⟨hpc, -⟩, rfl⟩ := hs'
        simp [hpc, State.owed]
    obtain ⟨hlauncher, howed, hfrom, hto, hto'⟩ := hmoved
    exact ⟨h.advance rfl rfl rfl hlauncher howed hfrom hto,
      fun hf => absurd hf hto', fun hf => absurd hf hfrom.2⟩

/-- **Step lemma** for a connection, with the children that have ended. -/
theorem Tracked.step {k k' : Conn} {l : Label} (h : Tracked k) (hs : k.step l = some k') :
    Tracked k' ∧ (k'.awaiter.child = .final ↔ k.awaiter.child = .final ∨ l = .finalSuspend) := by
  by_cases hlaunch : l = .launch
  · subst hlaunch
    obtain ⟨hk', hne⟩ := h.launch hs
    refine ⟨hk', fun hf => absurd hf hne, fun hor => ?_⟩
    rcases hor with hf | hf
    · -- the child has not been created yet
      obtain ⟨s', hs', -⟩ := Option.map_eq_some_iff.mp hs
      simp only [TimeoutAwaiter.step, Option.ite_none_right_eq_some] at hs'
      cases (h.start hs'.1).symm.trans hf
    · cases hf
  by_cases hfinal : l = .finalSuspend
  · subst hfinal
    obtain ⟨hk', heq⟩ := h.finalSuspend hs
    exact ⟨hk', fun _ => Or.inr rfl, fun _ => heq⟩
  · obtain ⟨hk', hiff⟩ := h.proceed hs hlaunch hfinal
    exact ⟨hk', hiff.trans (or_iff_left hfinal).symm⟩

theorem Tracked.parentEnds {k k' : Conn} (h : Tracked k) (hs : k.parentEnds = some k') :
    Tracked k' ∧ k'.awaiter = k.awaiter := by
  obtain ⟨⟨hresumed, -⟩, heq⟩ := Option.ite_none_right_eq_some.mp hs
  cases heq
  have howed : 0 < k.awaiter.owed := Nat.lt_of_lt_of_le hresumed (Nat.le_add_right _ _)
  exact ⟨⟨h.start, h.childless, h.owed, h.frame, fun _ => h.owed howed⟩, rfl⟩

/-! ### Runs -/

/-- A child comes to its end. -/
def ConnLabel.endsChild : ConnLabel → Bool
  | .inner _ .finalSuspend => true
  | _ => false

/-- What a run says about the connections. -/
structure Followed (ls : List ConnLabel) (s : List Conn) : Prop where
  tracked : ∀ k ∈ s, Tracked k
  ended : (∃ k ∈ s, k.awaiter.child = .final) ↔ ∃ l ∈ ls, l.endsChild = true

/-- One connection moves. -/
theorem Followed.set {ls : List ConnLabel} {s : List Conn} {i : ℕ} {k k' : Conn} {l : ConnLabel}
    (h : Followed ls s) (hk : s[i]? = some k) (hk' : Tracked k')
    (hfinal : k'.awaiter.child = .final ↔ k.awaiter.child = .final ∨ l.endsChild = true) :
    Followed (ls ++ [l]) (s.set i k') := by
  obtain ⟨hi, hget⟩ := List.getElem?_eq_some_iff.mp hk
  have hmem : k ∈ s := List.mem_of_getElem? hk
  refine ⟨fun x hx => ?_, ?_⟩
  · rcases List.mem_or_eq_of_mem_set hx with hx | rfl
    · exact h.tracked x hx
    · exact hk'
  have hconcat : (∃ l' ∈ ls ++ [l], l'.endsChild = true) ↔
      (∃ l' ∈ ls, l'.endsChild = true) ∨ l.endsChild = true := by simp [or_and_right, exists_or]
  rw [hconcat, ← h.ended]
  constructor
  · rintro ⟨x, hx, hxf⟩
    rcases List.mem_or_eq_of_mem_set hx with hx | rfl
    · exact Or.inl ⟨x, hx, hxf⟩
    · exact (hfinal.mp hxf).imp (fun hf => ⟨k, hmem, hf⟩) id
  · rintro (⟨x, hx, hxf⟩ | hl)
    · -- the connection that moves keeps its ended child
      obtain ⟨j, hj, rfl⟩ := List.mem_iff_getElem.mp hx
      by_cases hij : i = j
      · subst hij
        have hkf : k.awaiter.child = .final := hget ▸ hxf
        exact ⟨k', List.mem_set hi k', hfinal.mpr (Or.inl hkf)⟩
      · have hset : s[j] ∈ s.set i k' := by
          rw [← List.getElem_set_ne hij (by simpa using hj)]
          exact List.getElem_mem _
        exact ⟨s[j], hset, hxf⟩
    · exact ⟨k', List.mem_set hi k', hfinal.mpr (Or.inr hl)⟩

/-- **Step lemma.** -/
theorem Followed.step {ls : List ConnLabel} {s s' : List Conn} {l : ConnLabel}
    (h : Followed ls s) (hs : connStep s l = some s') : Followed (ls ++ [l]) s' := by
  cases l with
  | accept ops =>
    cases hs
    have hnew : Tracked (.accepted ops) := .accepted ops
    refine ⟨fun x hx => ?_, ?_⟩
    · rcases List.mem_append.mp hx with hx | hx
      · exact h.tracked x hx
      · rw [List.mem_singleton.mp hx]
        exact hnew
    · have hnot : (Conn.accepted ops).awaiter.child ≠ .final := nofun
      have hend : (ConnLabel.accept ops).endsChild = false := rfl
      simpa [or_and_right, exists_or, hnot, hend] using h.ended
  | inner i l =>
    obtain ⟨k, hk, hrest⟩ := Option.bind_eq_some_iff.mp hs
    obtain ⟨k', hk', heq⟩ := Option.bind_eq_some_iff.mp hrest
    cases heq
    obtain ⟨htracked, hfinal⟩ := (h.tracked k (List.mem_of_getElem? hk)).step hk'
    refine h.set hk htracked (hfinal.trans (or_congr_right ?_))
    cases l <;> simp [ConnLabel.endsChild]
  | parentEnds i =>
    obtain ⟨k, hk, hrest⟩ := Option.bind_eq_some_iff.mp hs
    obtain ⟨k', hk', heq⟩ := Option.bind_eq_some_iff.mp hrest
    cases heq
    obtain ⟨htracked, hsame⟩ := (h.tracked k (List.mem_of_getElem? hk)).parentEnds hk'
    refine h.set hk htracked ?_
    rw [hsame]
    exact (or_iff_left Bool.false_ne_true).symm

/-- **Run lemma.** -/
theorem followed_run {ls : List ConnLabel} {s : List Conn}
    (hrun : StepSystem.run connStep [] ls = some s) : Followed ls s := by
  refine StepSystem.run_induction (R := Followed)
    ⟨fun _ hk => absurd hk List.not_mem_nil, ?_⟩ (fun _ _ _ _ h hs => h.step hs) hrun
  simp

/-- A frame is live from the launch on. -/
theorem Tracked.live {k : Conn} (h : Tracked k) :
    k.childFrame.live = (k.awaiter.child != .notCreated) := by
  rw [h.frame]
  by_cases hchild : k.awaiter.child = .notCreated
  · rw [if_pos hchild, hchild]
    rfl
  · rw [if_neg hchild, bne_iff_ne.mpr hchild]
    rfl

theorem countP_lt_of_mem {α : Type*} {p q : α → Bool} {xs : List α}
    (hpq : ∀ x ∈ xs, p x = true → q x = true) {x : α} (hx : x ∈ xs) (hp : p x = false)
    (hq : q x = true) : xs.countP p < xs.countP q := by
  obtain ⟨ys, zs, rfl⟩ := List.append_of_mem hx
  have hys : ys.countP p ≤ ys.countP q := List.countP_mono_left fun y hy => hpq y (by simp [hy])
  have hzs : zs.countP p ≤ zs.countP q := List.countP_mono_left fun z hz => hpq z (by simp [hz])
  simp only [List.countP_append, List.countP_cons, hp, hq, if_true, Bool.false_eq_true, if_false]
  omega

/-- **The child frames are reclaimed exactly as long as no child comes to its end.** -/
theorem frames_reclaimed_iff (ls : List ConnLabel) (s : List Conn)
    (hrun : StepSystem.run connStep [] ls = some s) :
    Reclaimed s ↔ ∀ l ∈ ls, l.endsChild = false := by
  have h := followed_run hrun
  constructor
  · rintro ⟨-, hcount⟩ l hl
    by_contra hend
    obtain ⟨k, hk, hfinal⟩ := h.ended.mpr ⟨l, hl, by simpa using hend⟩
    -- the frame of the ended child is live
    have hlt : s.countP Conn.childUnfinished < s.countP fun k => k.childFrame.live := by
      refine countP_lt_of_mem (fun x hx hunf => ?_) hk ?_ ?_
      · rw [(h.tracked x hx).live]
        exact (Bool.and_eq_true_iff.mp hunf).1
      · rw [Conn.childUnfinished, hfinal]
        rfl
      · rw [(h.tracked k hk).live, hfinal]
        rfl
    omega
  · intro hnone
    have hopen : ∀ k ∈ s, k.awaiter.child ≠ .final := by
      intro k hk hfinal
      obtain ⟨l, hl, hend⟩ := h.ended.mp ⟨k, hk, hfinal⟩
      cases (hnone l hl).symm.trans hend
    refine ⟨fun k hk hp halloc => ?_, List.countP_congr fun k hk => ?_⟩
    · -- such a parent had no child
      have hops := ((h.tracked k hk).parent hp).resolve_left (hopen k hk)
      rw [(h.tracked k hk).frame, if_pos ((h.tracked k hk).childless hops)] at halloc
      cases halloc
    · rw [(h.tracked k hk).live, Conn.childUnfinished]
      simp [hopen k hk]

/-- A connection whose child waits, and one without a child whose parent has finished. -/
theorem frames_reclaimed_waiting :
    ∃ s, StepSystem.run connStep []
        [.accept (some [⟨.read, 1⟩]), .inner 0 .launch, .inner 0 (.suspend 0), .accept none,
          .inner 1 .launch, .parentEnds 1] = some s ∧
      Reclaimed s ∧ s.countP (fun k => k.childFrame.live) = 1 := by
  have hrun : ∃ s, StepSystem.run connStep []
        [.accept (some [⟨.read, 1⟩]), .inner 0 .launch, .inner 0 (.suspend 0), .accept none,
          .inner 1 .launch, .parentEnds 1] = some s ∧
      s.countP (fun k => k.childFrame.live) = 1 :=
    StepSystem.exists_of_run_any (by decide +kernel)
  obtain ⟨s, hs, hlive⟩ := hrun
  exact ⟨s, hs, (frames_reclaimed_iff _ s hs).mpr (by decide), hlive⟩

/-- A child with one read, run to its end: its parent has resumed, finished and destroyed its
own frame, and the frame of the child is left. -/
theorem child_frame_leaks :
    ∃ s, StepSystem.run connStep []
        [.accept (some [⟨.read, 1⟩]), .inner 0 .launch, .inner 0 (.suspend 0),
          .inner 0 (.readToken 0), .inner 0 (.submit 0), .inner 0 (.bind 0),
          .inner 0 .setStopToken, .inner 0 .setContinuation, .inner 0 .addTimer,
          .inner 0 .returned, .inner 0 (.complete 0), .inner 0 (.resume 0),
          .inner 0 .finalSuspend, .inner 0 .transfer, .parentEnds 0] = some s ∧
      ¬ Reclaimed s ∧
      s.all (fun k => k.parentFinished && k.childFrame.live && !k.childUnfinished) = true :=
  StepSystem.exists_of_run_any (by decide +kernel)

end TimeoutAwaiter
