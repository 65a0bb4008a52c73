/-
Whether `with_timeout` resumes its parent.

The child's `FinalAwaiter` reads the continuation once.  The parent is resumed at
most once (`parent_resumed_iff`), and a child that has ended has resumed it, or
is about to, exactly if the launcher's `set_continuation` came before that read.
A child that ends without suspending ends before it (`parent_lost_of_all_ready`).
-/
import AntServer.TimeoutCancel

namespace TimeoutAwaiter

open StepSystem (Before)

/-- What is done for the parent: resumptions, and the transfer under way. -/
def State.owed (s : State) : ℕ := s.resumes + s.transferring.toNat

theorem stopCallback_parent (s : State) (j : ℕ) :
    (stopCallback s j).continuation = s.continuation ∧ (stopCallback s j).owed = s.owed ∧
      (stopCallback s j).child = s.child := by
  rw [stopCallback]
  split <;> exact ⟨rfl, rfl, rfl⟩

theorem bindStopCallback_parent (s : State) (j : ℕ) :
    (bindStopCallback s j).continuation = s.continuation ∧ (bindStopCallback s j).owed = s.owed ∧
      (bindStopCallback s j).child = s.child := by
  rw [bindStopCallback]
  split
  · split
    · exact ⟨rfl, rfl, rfl⟩
    · exact stopCallback_parent s j
  · exact ⟨rfl, rfl, rfl⟩

/-- The statements that concern the parent are `set_continuation` and the read of
`FinalAwaiter`; a transfer only turns what is owed into a resumption.  A child at
its end stays there. -/
theorem step_parent {ops : List Await} {s s' : State} {l : Label} (hb : Bound s)
    (hs : step (some ops) s l = some s') (hcont : l ≠ .setContinuation)
    (hfinal : l ≠ .finalSuspend) :
    s'.continuation = s.continuation ∧ s'.owed = s.owed ∧
      (s.child = .final → s'.child = .final) := by
  cases l <;>
    simp only [step, Option.ite_none_right_eq_some, Option.some.injEq] at hs <;>
    obtain ⟨hg, rfl⟩ := hs
  case launch =>
    refine ⟨rfl, rfl, fun h => ?_⟩
    cases h.symm.trans (hb.start hg)
  case setContinuation => exact absurd rfl hcont
  case finalSuspend => exact absurd rfl hfinal
  case skip i | suspend i | resume i =>
    refine ⟨rfl, rfl, fun h => ?_⟩
    cases h.symm.trans hg.1
  case bind j =>
    obtain ⟨hc, ho, hch⟩ :=
      bindStopCallback_parent { s with stage := Function.update s.stage j .returned } j
    exact ⟨hc, ho, fun h => hch.trans h⟩
  case runCallback j =>
    obtain ⟨hc, ho, hch⟩ :=
      stopCallback_parent { s with registered := s.registered.filter (· ≠ j) } j
    exact ⟨hc, ho, fun h => hch.trans h⟩
  case transfer =>
    refine ⟨rfl, ?_, id⟩
    simp [State.owed, hg]
  all_goals exact ⟨rfl, rfl, id⟩

/-- The parent's part of the state by what has happened. -/
structure ParentHistory (ls : List Label) (s : State) : Prop where
  cont : s.continuation = true ↔ .setContinuation ∈ ls
  final : .finalSuspend ∈ ls → s.child = .final
  owed : s.owed = if Before .setContinuation .finalSuspend ls then 1 else 0

theorem ParentHistory.step {ops : List Await} {ls : List Label} {s s' : State} {l : Label}
    (hb : Bound s) (h : ParentHistory ls s) (hs : step (some ops) s l = some s') :
    ParentHistory (ls ++ [l]) s' := by
  have hmem : ∀ a : Label, a ∈ ls ++ [l] ↔ a ∈ ls ∨ a = l := by simp
  by_cases hcont : l = .setContinuation
  · subst hcont
    simp only [TimeoutAwaiter.step, Option.ite_none_right_eq_some, Option.some.injEq] at hs
    obtain ⟨-, rfl⟩ := hs
    refine ⟨by simp, fun hf => h.final (by simpa using hf), ?_⟩
    simp only [StepSystem.before_concat, reduceCtorEq, false_and, or_false]
    exact h.owed
  by_cases hfinal : l = .finalSuspend
  · subst hfinal
    simp only [TimeoutAwaiter.step, Option.ite_none_right_eq_some, Option.some.injEq] at hs
    obtain ⟨hg, rfl⟩ := hs
    -- the read of the continuation happens once
    have hfirst : ¬ Before .setContinuation .finalSuspend ls := fun hbef => by
      cases hg.symm.trans (h.final hbef.mem_right)
    have howed := h.owed
    rw [if_neg hfirst, State.owed] at howed
    refine ⟨by simpa using h.cont, fun _ => rfl, ?_⟩
    simp only [StepSystem.before_concat, hfirst, true_and, false_or, ← h.cont, State.owed]
    cases s.continuation
    · simp only [Bool.toNat_false, Bool.false_eq_true, if_false]
      omega
    · simp only [Bool.toNat_true, if_true]
      omega
  · obtain ⟨hc, ho, hch⟩ := step_parent hb hs hcont hfinal
    refine ⟨?_, fun hf => hch (h.final ?_), ?_⟩
    · rw [hc, h.cont, hmem]
      exact ⟨Or.inl, fun hm => hm.resolve_right (Ne.symm hcont)⟩
    · exact ((hmem _).mp hf).resolve_right (Ne.symm hfinal)
    · rw [ho, h.owed]
      simp only [StepSystem.before_concat, hfinal, false_and, or_false]

theorem run_parentHistory {ops : List Await} {ls : List Label} {s : State}
    (hrun : StepSystem.run (step (some ops)) init ls = some s) : ParentHistory ls s := by
  have h₀ : Bound init ∧ ParentHistory [] init := by
    refine ⟨Bound.init, by simp [init], fun hf => ?_, ?_⟩
    · exact absurd hf List.not_mem_nil
    · rw [if_neg (StepSystem.not_before_nil _ _)]
      rfl
  exact (StepSystem.run_induction (R := fun ls s => Bound s ∧ ParentHistory ls s) h₀
    (fun _ _ _ _ h hs => ⟨h.1.step hs, h.2.step h.1 hs⟩) hrun).2

/-- Without a child the launcher resumes the parent itself. -/
theorem run_no_child {ls : List Label} {s : State}
    (hrun : StepSystem.run (step none) init ls = some s) :
    s.resumes ≤ 1 ∧ s.child ≠ .final := by
  let I : State → Prop := fun s =>
    s.child = .notCreated ∧ s.transferring = false ∧
      (s.launcher = .start ∧ s.resumes = 0 ∨ s.launcher = .returned ∧ s.resumes = 1)
  have hI : I s := by
    refine StepSystem.run_invariant (I := I) ?_ ⟨rfl, rfl, Or.inl ⟨rfl, rfl⟩⟩ hrun
    rintro s l s' ⟨hchild, htr, hres⟩ hs
    cases l <;>
      simp only [step, Option.ite_none_right_eq_some, Option.some.injEq] at hs <;>
      obtain ⟨hg, rfl⟩ := hs
    case launch =>
      rcases hres with ⟨-, h⟩ | ⟨h, -⟩
      · exact ⟨hchild, htr, Or.inr ⟨rfl, by simp [h]⟩⟩
      · cases hg.symm.trans h
    case setStopToken =>
      rcases hres with ⟨h, -⟩ | ⟨h, -⟩ <;> cases hg.1.symm.trans h
    case setContinuation | addTimer | returned =>
      rcases hres with ⟨h, -⟩ | ⟨h, -⟩ <;> cases hg.symm.trans h
    case skip i | suspend i | resume i => cases hchild.symm.trans hg.1
    case finalSuspend => cases hchild.symm.trans hg
    case transfer => cases htr.symm.trans hg
    case bind j =>
      rw [bindStopCallback, stopCallback]
      split_ifs <;> exact ⟨hchild, htr, hres⟩
    case runCallback j =>
      rw [stopCallback]
      split_ifs <;> exact ⟨hchild, htr, hres⟩
    all_goals exact ⟨hchild, htr, hres⟩
  obtain ⟨hchild, -, hres⟩ := hI
  refine ⟨by omega, by simp [hchild]⟩

/-- **The parent is resumed.**  At most once; and when the child is at its end and
`await_suspend` has returned, the parent has been resumed or is being transferred
to if and only if `set_continuation` came before the child's `FinalAwaiter` read
the continuation. -/
theorem parent_resumed_iff (ops : Option (List Await)) (ls : List Label) (s : State)
    (hrun : StepSystem.run (step ops) init ls = some s) :
    s.resumes ≤ 1 ∧ (s.child = .final → s.launcher = .returned →
      ((s.resumes = 1 ∨ s.transferring = true) ↔
        Before .setContinuation .finalSuspend ls)) := by
  cases ops with
  | none =>
    obtain ⟨hres, hchild⟩ := run_no_child hrun
    exact ⟨hres, fun h => absurd h hchild⟩
  | some ops =>
    have howed := (run_parentHistory hrun).owed
    rw [State.owed] at howed
    by_cases hbef : Before .setContinuation .finalSuspend ls
    · rw [if_pos hbef] at howed
      refine ⟨by omega, fun _ _ => ⟨fun _ => hbef, fun _ => ?_⟩⟩
      cases htr : s.transferring with
      | true => exact Or.inr rfl
      | false =>
        rw [htr] at howed
        exact Or.inl (by simpa using howed)
    · rw [if_neg hbef] at howed
      refine ⟨by omega, fun _ _ => ⟨?_, fun h => absurd h hbef⟩⟩
      rintro (h | h)
      · omega
      · simp [h] at howed

/-- A child that reads once and is resumed after `await_suspend` has returned. -/
theorem parent_resumed_after_read :
    ∃ s, StepSystem.run (step (some [⟨.read, 0⟩])) init
        [.launch, .suspend 0, .readToken 0, .submit 0, .bind 0, .setStopToken, .setContinuation,
          .addTimer, .returned, .complete 0, .resume 0, .finalSuspend] = some s ∧
      s.child = .final ∧ (s.resumes = 1 ∨ s.transferring = true) := by
  obtain ⟨s, hrun, hchild, hlauncher⟩ :
      ∃ s, StepSystem.run (step (some [⟨.read, 0⟩])) init
          [.launch, .suspend 0, .readToken 0, .submit 0, .bind 0, .setStopToken, .setContinuation,
            .addTimer, .returned, .complete 0, .resume 0, .finalSuspend] = some s ∧
        s.child = .final ∧ s.launcher = .returned :=
    StepSystem.exists_of_run_any (by decide +kernel)
  refine ⟨s, hrun, hchild, ?_⟩
  exact ((parent_resumed_iff _ _ s hrun).2 hchild hlauncher).mpr (by decide +kernel)

/-- **A parent that is lost.**  A child without awaits ends inside `task_func_()`,
before `set_continuation`; when `await_suspend` has returned, nobody is left to
resume the parent. -/
theorem parent_lost :
    ∃ s, StepSystem.run (step (some [])) init
        [.launch, .finalSuspend, .setStopToken, .setContinuation, .addTimer, .returned] = some s ∧
      s.child = .final ∧ s.launcher = .returned ∧ s.resumes = 0 ∧ s.transferring = false :=
  StepSystem.exists_of_run_any (by decide +kernel)

theorem step_tokenSet {ops : Option (List Await)} {s s' : State} {l : Label}
    (hs : step ops s l = some s') (hset : l ≠ .setStopToken) (h : s'.launcher = .tokenSet) :
    s.launcher = .tokenSet := by
  cases l <;>
    simp only [step, Option.ite_none_right_eq_some, Option.some.injEq] at hs <;>
    obtain ⟨hg, hs⟩ := hs
  case launch =>
    cases ops <;> cases hs <;> cases h
  case setStopToken => exact absurd rfl hset
  case setContinuation | addTimer | returned =>
    subst hs
    cases h
  case bind j =>
    subst hs
    rw [bindStopCallback, stopCallback] at h
    split_ifs at h <;> exact h
  case runCallback j =>
    subst hs
    rw [stopCallback] at h
    split_ifs at h <;> exact h
  all_goals
    subst hs
    exact h

/-- **A child that does not suspend.**  If no await of the child suspends, no
schedule resumes the parent. -/
theorem parent_lost_of_all_ready {ops : List Await} {ls : List Label} {s : State}
    (hready : ∀ a ∈ ops, a.ready = true)
    (hrun : StepSystem.run (step (some ops)) init ls = some s) : s.resumes = 0 := by
  have hnone : ops.findIdx? (fun a => !a.ready) = none := by
    rw [List.findIdx?_eq_none_iff]
    intro a ha
    simp [hready a ha]
  -- the launcher goes on only when the child is at its end
  let I : State → Prop := fun s =>
    Bound s ∧ s.owed = 0 ∧ (s.launcher = .tokenSet → s.child = .final) ∧
      (s.continuation = true → s.child = .final)
  have hI : I s := by
    have hinit : I init := ⟨Bound.init, rfl, (fun h => by cases h), fun h => by cases h⟩
    refine StepSystem.run_invariant (I := I) ?_ hinit hrun
    rintro s l s' ⟨hb, howed, hset, hcont⟩ hs
    have hb' : Bound s' := hb.step hs
    by_cases hl : l = .setContinuation
    · subst hl
      simp only [step, Option.ite_none_right_eq_some, Option.some.injEq] at hs
      obtain ⟨hg, rfl⟩ := hs
      exact ⟨hb', howed, (fun h => by cases h), fun _ => hset hg⟩
    by_cases hfinal : l = .finalSuspend
    · subst hfinal
      simp only [step, Option.ite_none_right_eq_some, Option.some.injEq] at hs
      obtain ⟨hg, rfl⟩ := hs
      refine ⟨hb', ?_, fun _ => rfl, fun _ => rfl⟩
      cases hc : s.continuation with
      | true => cases hg.symm.trans (hcont hc)
      | false =>
        rw [State.owed] at howed
        simp only [State.owed, Bool.toNat_false]
        omega
    obtain ⟨hc, ho, hch⟩ := step_parent hb hs hl hfinal
    refine ⟨hb', ho.trans howed, fun hl' => ?_, fun hc' => hch (hcont (hc ▸ hc'))⟩
    by_cases hst : l = .setStopToken
    · subst hst
      simp only [step, Option.ite_none_right_eq_some, Option.some.injEq] at hs
      obtain ⟨hg, rfl⟩ := hs
      simpa [State.launched, hnone] using hg.2
    · exact hch (hset (step_tokenSet hs hst hl'))
  have howed := hI.2.1
  rw [State.owed] at howed
  omega

end TimeoutAwaiter
