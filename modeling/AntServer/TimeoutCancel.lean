/-
Which awaits a timeout reaches.

An awaiter binds its stop callback to the token it captured from the promise, so
`request_stop` reaches the awaits that captured the token after the launcher had
set it, and no other.

* `canceled_iff_token_before` — when `request_stop` has finished, a suspended
  await has its cancel request exactly if `set_stop_token` came before the await
  read the token;
* `first_await_not_canceled` — the first await that suspends never has one.
-/
import AntServer.TimeoutAwaiter

namespace TimeoutAwaiter

open StepSystem (Before)

/-- The child has not come to the await `j`. -/
def State.NotReached (s : State) (j : ℕ) : Prop :=
  match s.child with
  | .notCreated => True
  | .running i => i ≤ j
  | .waiting i => i < j
  | .final => False

/-- A suspended await that captured the token has its callback registered, or
the callback has been run. -/
structure Bound (s : State) : Prop where
  start : s.launcher = .start → s.child = .notCreated
  order : ∀ j, s.NotReached j → s.stage j = .notStarted
  captured : ∀ j, s.captured j = true → s.stage j ≠ .notStarted ∧ s.stage j ≠ .started
  bound : ∀ j, s.child = .waiting j → s.stage j = .returned → s.captured j = true →
    j ∈ s.registered ∨ j ∈ s.cancels
  canceled : ∀ j, s.canceled j = true → j ∈ s.cancels
  source : ∀ j, j ∈ s.registered ∨ j ∈ s.cancels → s.captured j = true
  finished : s.stop = .finished → s.registered = []

theorem Bound.init : Bound init where
  start := fun _ => rfl
  order := fun _ _ => rfl
  captured := fun _ h => by cases h
  bound := fun _ h => by cases h
  canceled := fun _ h => by cases h
  source := fun _ h => by simp [TimeoutAwaiter.init] at h
  finished := fun h => by cases h

theorem stopCallback_stage (s : State) (j : ℕ) (stage : ℕ → Stage) :
    stopCallback { s with stage := stage } j = { stopCallback s j with stage := stage } := by
  simp only [stopCallback]
  split <;> rfl

theorem stopCallback_registered (s : State) (j : ℕ) (registered : List ℕ) :
    stopCallback { s with registered := registered } j =
      { stopCallback s j with registered := registered } := by
  simp only [stopCallback]
  split <;> rfl

theorem stopCallback_stage_eq (s : State) (j : ℕ) : (stopCallback s j).stage = s.stage := by
  rw [stopCallback]
  split <;> rfl

theorem stopCallback_registered_eq (s : State) (j : ℕ) :
    (stopCallback s j).registered = s.registered := by
  rw [stopCallback]
  split <;> rfl

/-- The callback of an awaiter that captured the token cancels that awaiter. -/
theorem Bound.stopCallback {s : State} (h : Bound s) {j : ℕ} (hj : s.captured j = true) :
    Bound (stopCallback s j) ∧ j ∈ (stopCallback s j).cancels := by
  rw [TimeoutAwaiter.stopCallback]
  split
  next hc => exact ⟨h, h.canceled j hc⟩
  · refine ⟨⟨h.start, h.order, h.captured, fun k hk hst hcap => ?_, fun k hk => ?_, fun k hk => ?_,
      h.finished⟩, by simp⟩
    · exact (h.bound k hk hst hcap).imp id (List.mem_append_left [j])
    · by_cases hkj : k = j
      · subst hkj
        simp
      · simp only [Function.update_of_ne hkj] at hk
        exact List.mem_append_left [j] (h.canceled k hk)
    · simp only [List.mem_append, List.mem_singleton, ← or_assoc] at hk
      rcases hk with hk | rfl
      · exact h.source k hk
      · exact hj

/-- A step of an `await_suspend` from the token on keeps what is said about the
other awaits; `hb` is what has to be shown for the await itself. -/
theorem Bound.advance {s : State} (h : Bound s) {j : ℕ} {st : Stage}
    (hst : s.stage j ≠ .notStarted) (hn : st ≠ .notStarted ∧ st ≠ .started)
    (hb : st = .returned → s.captured j = true → j ∈ s.registered ∨ j ∈ s.cancels) :
    Bound { s with stage := Function.update s.stage j st } := by
  refine ⟨h.start, fun k hk => ?_, fun k hk => ?_, fun k hk hr hc => ?_, h.canceled, h.source,
    h.finished⟩
  · by_cases hkj : k = j
    · subst hkj
      exact absurd (h.order k hk) hst
    · simp only [Function.update_of_ne hkj]
      exact h.order k hk
  · by_cases hkj : k = j
    · subst hkj
      simpa only [Function.update_self] using hn
    · simp only [Function.update_of_ne hkj]
      exact h.captured k hk
  · by_cases hkj : k = j
    · subst hkj
      simp only [Function.update_self] at hr
      exact hb hr hc
    · simp only [Function.update_of_ne hkj] at hr
      exact h.bound k hk hr hc

theorem Bound.bind {s : State} (h : Bound s) {j : ℕ} (hst : s.stage j = .submitted) :
    Bound (bindStopCallback { s with stage := Function.update s.stage j .returned } j) := by
  have hne : s.stage j ≠ .notStarted := by simp [hst]
  -- the awaiter is put on record before its `await_suspend` is said to have returned
  have key : ∀ t : State, Bound t → t.stage = s.stage → (t.captured j = true →
      j ∈ t.registered ∨ j ∈ t.cancels) →
      Bound { t with stage := Function.update t.stage j .returned } := fun t ht hs hb =>
    ht.advance (by rw [hs]; exact hne) (by simp) fun _ => hb
  rw [bindStopCallback]
  split
  next hcap =>
    have hcap : s.captured j = true := hcap
    split
    · refine key { s with registered := j :: s.registered } ⟨h.start, h.order, h.captured, ?_,
        h.canceled, ?_, ?_⟩ rfl fun _ => Or.inl List.mem_cons_self
      · exact fun k hk hr hc => (h.bound k hk hr hc).imp (List.mem_cons_of_mem j) id
      · rintro k (hk | hk)
        · rcases List.mem_cons.mp hk with rfl | hk
          · exact hcap
          · exact h.source k (Or.inl hk)
        · exact h.source k (Or.inr hk)
      · intro hfin
        simp_all
    · obtain ⟨hb, hmem⟩ := h.stopCallback hcap
      rw [stopCallback_stage, ← stopCallback_stage_eq s j]
      exact key (TimeoutAwaiter.stopCallback s j) hb (stopCallback_stage_eq s j)
        fun _ => Or.inr hmem
  next hcap => exact key s h rfl fun hc => absurd hc hcap

/-- A callback is removed when it has run or its awaiter is done. -/
theorem Bound.unregister {s : State} (h : Bound s) {j : ℕ}
    (hj : s.child = .waiting j → j ∈ s.cancels) :
    Bound { s with registered := s.registered.filter (· ≠ j) } := by
  refine ⟨h.start, h.order, h.captured, fun k hk hr hc => ?_, h.canceled, fun k hk => ?_,
    fun hfin => ?_⟩
  · by_cases hkj : k = j
    · subst hkj
      exact Or.inr (hj hk)
    · refine (h.bound k hk hr hc).imp (fun hmem => ?_) id
      exact List.mem_filter.mpr ⟨hmem, by simpa using hkj⟩
  · exact h.source k (hk.imp (fun hmem => (List.mem_filter.mp hmem).1) id)
  · simp only [h.finished hfin, List.filter_nil]

/-- A child that exists was launched. -/
theorem Bound.launched {s : State} (h : Bound s) (hc : s.child ≠ .notCreated) :
    s.launcher ≠ .start := fun hl => hc (h.start hl)

theorem Bound.readToken {s : State} (h : Bound s) {j : ℕ} (hst : s.stage j = .started) :
    Bound { s with
      stage := Function.update s.stage j .tokenRead
      captured := Function.update s.captured j s.token } := by
  have hold : s.captured j ≠ true := fun hc => (h.captured j hc).2 hst
  refine ⟨h.start, fun k hk => ?_, fun k hk => ?_, fun k hk hr hc => ?_, h.canceled,
    fun k hk => ?_, h.finished⟩
  · have hkj : k ≠ j := by
      rintro rfl
      cases hst.symm.trans (h.order k hk)
    simp only [Function.update_of_ne hkj]
    exact h.order k hk
  · by_cases hkj : k = j
    · subst hkj
      simp
    · simp only [Function.update_of_ne hkj] at hk ⊢
      exact h.captured k hk
  · by_cases hkj : k = j
    · subst hkj
      simp at hr
    · simp only [Function.update_of_ne hkj] at hr hc
      exact h.bound k hk hr hc
  · have hkj : k ≠ j := by
      rintro rfl
      exact hold (h.source k hk)
    simp only [Function.update_of_ne hkj]
    exact h.source k hk

theorem Bound.step {ops : Option (List Await)} {s s' : State} {l : Label} (h : Bound s)
    (hs : step ops s l = some s') : Bound s' := by
  cases l <;>
    simp only [TimeoutAwaiter.step, Option.ite_none_right_eq_some, Option.some.injEq] at hs <;>
    obtain ⟨hg, hs⟩ := hs
  case launch =>
    have horder := h.order
    simp only [State.NotReached, h.start hg, true_implies] at horder
    cases ops with
    | none =>
      cases hs
      exact ⟨fun _ => h.start hg, h.order, h.captured, h.bound, h.canceled, h.source, h.finished⟩
    | some ops =>
      cases hs
      refine ⟨nofun, fun j _ => horder j, h.captured, nofun, h.canceled, h.source, h.finished⟩
  case setStopToken | setContinuation | addTimer | returned =>
    subst hs
    exact ⟨nofun, h.order, h.captured, h.bound, h.canceled, h.source, h.finished⟩
  case skip i =>
    subst hs
    have horder := h.order
    simp only [State.NotReached, hg.1] at horder
    have hlaunched := h.launched (by rw [hg.1]; nofun)
    exact ⟨fun hl => absurd hl hlaunched, fun j hj => horder j (Nat.le_of_succ_le hj),
      h.captured, nofun, h.canceled, h.source, h.finished⟩
  case suspend i =>
    subst hs
    have horder := h.order
    simp only [State.NotReached, hg.1] at horder
    have hfresh : s.captured i ≠ true := fun hc => (h.captured i hc).1 (horder i le_rfl)
    have hlaunched := h.launched (by rw [hg.1]; nofun)
    refine ⟨fun hl => absurd hl hlaunched, fun j hj => ?_, fun j hj => ?_, fun j hj hr => ?_,
      h.canceled, h.source, h.finished⟩
    · have hj : i < j := hj
      simp only [Function.update_of_ne hj.ne']
      exact horder j hj.le
    · have hji : j ≠ i := by
        rintro rfl
        exact hfresh hj
      simp only [Function.update_of_ne hji]
      exact h.captured j hj
    · cases hj
      simp at hr
  case readToken j =>
    subst hs
    exact h.readToken hg
  case submit j =>
    subst hs
    exact h.advance (by simp [hg]) (by simp) nofun
  case bind j =>
    subst hs
    exact h.bind hg
  case complete j =>
    subst hs
    exact ⟨h.start, h.order, h.captured, h.bound, h.canceled, h.source, h.finished⟩
  case resume j =>
    subst hs
    have horder := h.order
    simp only [State.NotReached, hg.1] at horder
    have hlaunched := h.launched (by rw [hg.1]; nofun)
    have hrun : Bound { s with child := .running (j + 1) } :=
      ⟨fun hl => absurd hl hlaunched, fun k hk => horder k hk, h.captured, nofun, h.canceled,
        h.source, h.finished⟩
    exact hrun.unregister nofun
  case finalSuspend =>
    subst hs
    have hlaunched := h.launched (by rw [hg]; nofun)
    exact ⟨fun hl => absurd hl hlaunched, nofun, h.captured, nofun, h.canceled, h.source,
      h.finished⟩
  case transfer =>
    subst hs
    exact ⟨h.start, h.order, h.captured, h.bound, h.canceled, h.source, h.finished⟩
  case fire =>
    subst hs
    refine ⟨h.start, h.order, h.captured, h.bound, h.canceled, h.source, fun hfin => ?_⟩
    by_cases hidle : s.stop = .idle
    · simp only [if_pos hidle] at hfin
      cases hfin
    · simp only [if_neg hidle] at hfin
      exact h.finished hfin
  case runCallback j =>
    subst hs
    obtain ⟨hb, hmem⟩ := h.stopCallback (h.source j (Or.inl hg.2))
    rw [stopCallback_registered, ← stopCallback_registered_eq s j]
    exact hb.unregister fun _ => hmem
  case finishStop =>
    subst hs
    exact ⟨h.start, h.order, h.captured, h.bound, h.canceled, h.source, fun _ => hg.2⟩

theorem run_bound {ops : Option (List Await)} {ls : List Label} {s : State}
    (hrun : StepSystem.run (step ops) init ls = some s) : Bound s :=
  StepSystem.run_invariant (fun _ _ _ h hs => h.step hs) Bound.init hrun

/-! ### When the token was read -/

theorem stopCallback_token_captured (s : State) (j : ℕ) :
    (stopCallback s j).token = s.token ∧ (stopCallback s j).captured = s.captured := by
  rw [stopCallback]
  split <;> exact ⟨rfl, rfl⟩

/-- Only two statements touch the token: the launcher's, and the first one of an
`await_suspend`. -/
theorem step_token_captured {ops : Option (List Await)} {s s' : State} {l : Label}
    (hs : step ops s l = some s') (hset : l ≠ .setStopToken) (hread : ∀ j, l ≠ .readToken j) :
    s'.token = s.token ∧ s'.captured = s.captured := by
  cases l <;>
    simp only [step, Option.ite_none_right_eq_some, Option.some.injEq] at hs <;>
    obtain ⟨hg, hs⟩ := hs
  case launch =>
    cases ops <;> cases hs <;> exact ⟨rfl, rfl⟩
  case setStopToken => exact absurd rfl hset
  case readToken j => exact absurd rfl (hread j)
  case bind j =>
    subst hs
    rw [bindStopCallback]
    split
    · split
      · exact ⟨rfl, rfl⟩
      · exact stopCallback_token_captured _ j
    · exact ⟨rfl, rfl⟩
  case runCallback j =>
    subst hs
    exact stopCallback_token_captured _ j
  all_goals
    subst hs
    exact ⟨rfl, rfl⟩

/-- The token of the promise, and of the awaiters, by what has happened. -/
structure TokenHistory (ls : List Label) (s : State) : Prop where
  token : s.token = true ↔ .setStopToken ∈ ls
  captured : ∀ j, s.captured j = true ↔ Before .setStopToken (.readToken j) ls

theorem TokenHistory.step {ops : Option (List Await)} {ls : List Label} {s s' : State} {l : Label}
    (hb : Bound s) (h : TokenHistory ls s) (hs : step ops s l = some s') :
    TokenHistory (ls ++ [l]) s' := by
  by_cases hset : l = .setStopToken
  · subst hset
    simp only [TimeoutAwaiter.step, Option.ite_none_right_eq_some, Option.some.injEq] at hs
    obtain ⟨-, rfl⟩ := hs
    refine ⟨by simp, fun j => ?_⟩
    rw [StepSystem.before_concat, ← h.captured j]
    simp
  by_cases hread : ∃ j, l = .readToken j
  · obtain ⟨j, rfl⟩ := hread
    simp only [TimeoutAwaiter.step, Option.ite_none_right_eq_some, Option.some.injEq] at hs
    obtain ⟨hg, rfl⟩ := hs
    refine ⟨by simpa using h.token, fun k => ?_⟩
    rw [StepSystem.before_concat, ← h.captured k]
    by_cases hkj : k = j
    · -- the await has not captured a token before
      subst hkj
      have hold : s.captured k ≠ true := fun hc => (hb.captured k hc).2 hg
      simp only [Function.update_self, h.token, true_and]
      exact ⟨Or.inr, fun h => h.resolve_left hold⟩
    · have hne : Label.readToken j ≠ .readToken k := fun he => hkj (Label.readToken.inj he).symm
      simp only [Function.update_of_ne hkj, hne, false_and, or_false]
  · have hread : ∀ j, l ≠ .readToken j := fun j hj => hread ⟨j, hj⟩
    obtain ⟨htok, hcap⟩ := step_token_captured hs hset hread
    refine ⟨?_, fun j => ?_⟩
    · rw [htok, h.token, List.mem_append, List.mem_singleton]
      exact ⟨Or.inl, fun hmem => hmem.resolve_right (Ne.symm hset)⟩
    · rw [hcap, StepSystem.before_concat, h.captured j]
      exact ⟨Or.inl, fun hbef => hbef.resolve_right fun hl => hread j hl.1⟩

theorem run_tokenHistory {ops : Option (List Await)} {ls : List Label} {s : State}
    (hrun : StepSystem.run (step ops) init ls = some s) : TokenHistory ls s := by
  have h₀ : Bound init ∧ TokenHistory [] init := by
    refine ⟨Bound.init, by simp [init], fun j => ?_⟩
    simp [init, StepSystem.not_before_nil]
  exact (StepSystem.run_induction (R := fun ls s => Bound s ∧ TokenHistory ls s) h₀
    (fun _ _ _ _ h hs => ⟨h.1.step hs, h.2.step h.1 hs⟩) hrun).2

/-- **What a timeout reaches.**  When the timer's `request_stop` has finished and
the child is suspended in the await `j`, a cancel request for `j` has been
submitted if and only if the launcher's `set_stop_token` came before the await
read the token. -/
theorem canceled_iff_token_before (ops : Option (List Await)) (ls : List Label) (s : State)
    (hrun : StepSystem.run (step ops) init ls = some s) (j : ℕ) (hstop : s.stop = .finished)
    (hwait : s.child = .waiting j) (hret : s.stage j = .returned) :
    j ∈ s.cancels ↔ Before .setStopToken (.readToken j) ls := by
  have hb := run_bound hrun
  rw [← (run_tokenHistory hrun).captured j]
  refine ⟨fun hmem => hb.source j (Or.inr hmem), fun hcap => ?_⟩
  -- no callback is left to run
  refine (hb.bound j hwait hret hcap).resolve_left fun hreg => ?_
  rw [hb.finished hstop] at hreg
  exact absurd hreg List.not_mem_nil

/-- A child that reads twice. -/
def readTwice : List Await := [⟨.read, 0⟩, ⟨.read, 0⟩]

/-- The first read completes, the second one waits when the timer fires. -/
def secondReadTimesOut : List Label :=
  [.launch, .suspend 0, .readToken 0, .submit 0, .bind 0, .setStopToken, .setContinuation,
    .addTimer, .returned, .complete 0, .resume 0, .suspend 1, .readToken 1, .submit 1, .bind 1,
    .fire, .runCallback 1, .finishStop]

theorem secondRead_canceled :
    ∃ s, StepSystem.run (step (some readTwice)) init secondReadTimesOut = some s ∧
      s.stop = .finished ∧ s.child = .waiting 1 ∧ s.stage 1 = .returned ∧ 1 ∈ s.cancels := by
  obtain ⟨s, hrun, hstop, hwait, hret⟩ :
      ∃ s, StepSystem.run (step (some readTwice)) init secondReadTimesOut = some s ∧
        s.stop = .finished ∧ s.child = .waiting 1 ∧ s.stage 1 = .returned :=
    StepSystem.exists_of_run_any (by decide +kernel)
  refine ⟨s, hrun, hstop, hwait, hret, ?_⟩
  exact (canceled_iff_token_before (some readTwice) _ s hrun 1 hstop hwait hret).mpr
    (by decide +kernel)

/-- **A timeout that reaches nothing.**  A child that reads once is suspended in
that read before the token is set; when the timer has fired, the read is neither
completed nor canceled. -/
theorem firstRead_not_canceled :
    ∃ s, StepSystem.run (step (some [⟨.read, 0⟩])) init
        [.launch, .suspend 0, .readToken 0, .submit 0, .bind 0, .setStopToken, .setContinuation,
          .addTimer, .returned, .fire, .finishStop] = some s ∧
      s.stop = .finished ∧ s.child = .waiting 0 ∧ s.stage 0 = .returned ∧
      s.completed 0 = false ∧ 0 ∉ s.cancels :=
  StepSystem.exists_of_run_any (by decide +kernel)

/-- An `await_suspend` that has returned does not start again. -/
theorem Bound.returned_stays {ops : Option (List Await)} {s s' : State} {l : Label} {f : ℕ}
    (h : Bound s) (hs : TimeoutAwaiter.step ops s l = some s') (hf : s.stage f = .returned) :
    s'.stage f = .returned := by
  have hupd : ∀ (j : ℕ) (st : Stage), s.stage j ≠ .returned →
      Function.update s.stage j st f = .returned := by
    intro j st hj
    rw [Function.update_of_ne (by rintro rfl; exact hj hf)]
    exact hf
  cases l <;>
    simp only [TimeoutAwaiter.step, Option.ite_none_right_eq_some, Option.some.injEq] at hs <;>
    obtain ⟨hg, hs⟩ := hs
  case launch =>
    cases ops <;> cases hs <;> exact hf
  case suspend i =>
    subst hs
    refine hupd i _ ?_
    rw [h.order i (by simp [State.NotReached, hg.1])]
    simp
  case readToken j | submit j =>
    subst hs
    exact hupd j _ (by simp [hg])
  case bind j =>
    subst hs
    rw [bindStopCallback]
    split
    · split
      · exact hupd j _ (by simp [hg])
      · rw [stopCallback_stage_eq]
        exact hupd j _ (by simp [hg])
    · exact hupd j _ (by simp [hg])
  case runCallback j =>
    subst hs
    rw [stopCallback_stage_eq]
    exact hf
  all_goals
    subst hs
    exact hf

/-- **The first await.**  Whatever the child and the schedule, the first await
that suspends is never canceled: the launcher sets the token only after its
`await_suspend` has returned. -/
theorem first_await_not_canceled {ops : List Await} {ls : List Label} {s : State} {f : ℕ}
    (hf : ops.findIdx? (fun a => !a.ready) = some f)
    (hrun : StepSystem.run (step (some ops)) init ls = some s) : f ∉ s.cancels := by
  let I : State → Prop := fun s =>
    Bound s ∧ s.captured f = false ∧ (s.token = true → s.stage f = .returned)
  have hI : I s := by
    refine StepSystem.run_invariant (I := I) ?_ ⟨Bound.init, rfl, nofun⟩ hrun
    rintro s l s' ⟨hb, hcap, htok⟩ hs
    have hb' : Bound s' := hb.step hs
    have hstage : s.stage f = .returned → s'.stage f = .returned := hb.returned_stays hs
    by_cases hset : l = .setStopToken
    · subst hset
      simp only [step, Option.ite_none_right_eq_some, Option.some.injEq] at hs
      obtain ⟨hg, rfl⟩ := hs
      refine ⟨hb', hcap, fun _ => ?_⟩
      simpa [State.launched, hf] using hg.2
    by_cases hread : ∃ j, l = .readToken j
    · obtain ⟨j, rfl⟩ := hread
      simp only [step, Option.ite_none_right_eq_some, Option.some.injEq] at hs
      obtain ⟨hg, rfl⟩ := hs
      refine ⟨hb', ?_, fun ht => hstage (htok ht)⟩
      by_cases hfj : f = j
      · -- the token is not set before the first `await_suspend` has returned
        subst hfj
        simp only [Function.update_self]
        rw [← Bool.not_eq_true]
        intro ht
        cases hg.symm.trans (htok ht)
      · simp only [Function.update_of_ne hfj, hcap]
    · obtain ⟨htok', hcap'⟩ := step_token_captured hs hset fun j hj => hread ⟨j, hj⟩
      exact ⟨hb', by rw [hcap', hcap], fun ht => hstage (htok (htok' ▸ ht))⟩
  intro hmem
  have hcap := hI.1.source f (Or.inr hmem)
  rw [hI.2.1] at hcap
  cases hcap

end TimeoutAwaiter
