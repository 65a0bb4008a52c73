/-
When the timing wheel is on time.

A pass sweeps every tick up to the current one and moves `last_tick_` behind it,
although the current tick is not over yet.  So an entry of a tick that has been
swept is not looked at again until the wheel has turned once.  There are two
ways for that to happen: `add_internal` inserts into a tick already swept, or
the pass itself meets an entry of the current tick that is due only later in
that tick.  `OnTime` excludes the two; `no_overdue_of_onTime` says that the
wheel is then never late.  `overdue_entry_stays` is the first way in a run.
-/
import AntServer.TimerKeeper

namespace TimerKeeper

variable {Node : Type*}

theorem tickOf_eq (startTime t : ℤ) : tickOf startTime t = max 0 ((t - startTime) / 10000000) := by
  obtain ⟨ems, hems⟩ : ∃ ems, ems = (t - startTime).tdiv kNsPerMs := ⟨_, rfl⟩
  rw [tickOf, ← hems]
  by_cases h : 0 ≤ t - startTime
  · rw [Int.tdiv_eq_ediv_of_nonneg h, kNsPerMs] at hems
    split
    · rw [Int.tdiv_eq_ediv_of_nonneg (by omega), kTickMs]
      omega
    · omega
  · have hpos : 0 ≤ (-(t - startTime)).tdiv kNsPerMs :=
      Int.tdiv_nonneg (by omega) (by decide)
    rw [Int.neg_tdiv] at hpos
    rw [if_neg (by omega)]
    omega

theorem tickOf_mono {startTime t t' : ℤ} (h : t ≤ t') :
    tickOf startTime t ≤ tickOf startTime t' := by
  rw [tickOf_eq, tickOf_eq]
  omega

/-- The tick of an entry. -/
def State.target (s : State Node) (e : TimerEntry Node) : ℤ := s.tick e.expireAt

/-- An entry is inserted into a tick that is still to be swept, and a pass finds
no entry of its own current tick that is due later than now. -/
def OnTime (s : State Node) : Label Node → Prop
  | .insert k => ∀ x ∈ s.adding[k]?, s.lastTick ≤ s.target x.1
  | .pass now => ∀ e ∈ s.buckets (slotOf (s.tick now)), e.canceled = false →
      s.target e = s.tick now → e.expireAt ≤ now
  | _ => True

instance OnTime.decidable (s : State Node) : ∀ l, Decidable (OnTime s l)
  | .insert k => inferInstanceAs (Decidable (∀ x ∈ s.adding[k]?, s.lastTick ≤ s.target x.1))
  | .pass now => inferInstanceAs (Decidable (∀ e ∈ s.buckets (slotOf (s.tick now)),
      e.canceled = false → s.target e = s.tick now → e.expireAt ≤ now))
  | .addTimer _ _ _ => isTrue trivial
  | .cancelTimer _ => isTrue trivial
  | .dispatch => isTrue trivial
  | .relink _ _ => isTrue trivial

/-- An entry that is not canceled waits in the slot of its tick. -/
def InSlot (s : State Node) (k : ℕ) (e : TimerEntry Node) : Prop :=
  k = slotOf (s.target e) ∧ s.lastTick ≤ s.target e

/-- No entry waits in a tick that has been swept. -/
structure Ahead (s : State Node) : Prop where
  wheel : ∀ k, ∀ e ∈ s.buckets k, e.canceled = false → InSlot s k e
  adding : ∀ x ∈ s.adding, x.2 = slotOf (s.target x.1)

theorem Ahead.init (startTime : ℤ) : Ahead (init Node startTime) where
  wheel := fun _ _ he => absurd he List.not_mem_nil
  adding := fun _ hx => absurd hx List.not_mem_nil

/-- A step that changes neither the wheel nor the calls in progress. -/
theorem Ahead.of_eq {s s' : State Node} (h : Ahead s) (hstart : s'.startTime = s.startTime)
    (htick : s'.lastTick = s.lastTick) (hb : s'.buckets = s.buckets) (ha : s'.adding = s.adding) :
    Ahead s' := by
  have htgt : ∀ e, s'.target e = s.target e := fun e => by
    simp only [State.target, State.tick, hstart]
  refine ⟨fun k e he hc => ?_, fun x hx => ?_⟩
  · rw [hb] at he
    rw [InSlot, htgt, htick]
    exact h.wheel k e he hc
  · rw [ha] at hx
    rw [htgt]
    exact h.adding x hx

theorem Ahead.addTimer {s : State Node} (h : Ahead s) (now delay : ℤ) (target : Target Node) :
    Ahead (addTimer s now delay target) := by
  have hadd : ∀ node owns, Ahead (addInternal s now delay node owns) := by
    refine fun node owns => ⟨h.wheel, fun x hx => ?_⟩
    rcases List.mem_append.mp hx with hx | hx
    · exact h.adding x hx
    · rw [List.mem_singleton.mp hx]
      rfl
  rcases target with (_ | node) | task
  · exact h
  · exact hadd (some node) false
  · exact hadd (some task) true

theorem Ahead.insert {s s' : State Node} {k : ℕ} (h : Ahead s) (hon : OnTime s (.insert k))
    (hs : insert s k = some s') : Ahead s' := by
  rw [TimerKeeper.insert] at hs
  split at hs
  · cases hs
  next entry slot hk =>
    cases hs
    have hmem : (entry, slot) ∈ s.adding := List.mem_of_getElem? hk
    refine ⟨fun j e he hc => ?_, fun x hx => h.adding x (List.mem_of_mem_eraseIdx hx)⟩
    by_cases hj : j = slot
    · subst hj
      simp only [Function.update_self] at he
      rcases List.mem_cons.mp he with rfl | he
      · exact ⟨h.adding _ hmem, hon _ hk⟩
      · exact h.wheel j e he hc
    · simp only [Function.update_of_ne hj] at he
      exact h.wheel j e he hc

theorem Ahead.cancelTimer {s : State Node} (h : Ahead s) (id : ℕ) : Ahead (cancelTimer s id) := by
  rw [TimerKeeper.cancelTimer]
  split
  · exact h
  split
  · refine ⟨fun k e he hc => ?_, h.adding⟩
    obtain ⟨e₀, he₀, rfl⟩ := List.mem_map.mp he
    -- a marked entry is canceled, the others are as before
    by_cases hid : e₀.id = id
    · simp [mark, hid] at hc
    · rw [mark, if_neg hid] at hc ⊢
      exact h.wheel k e₀ he₀ hc
  · exact h

section Run

variable [DecidableEq Node]

/-- Sweeping a tick takes every entry of that tick out of the wheel, unless the
entry is due later in the current tick. -/
theorem Ahead.sweepSlot {s : State Node} {now : ℤ} (h : Ahead s) (hle : s.lastTick ≤ s.tick now)
    (hcur : ∀ k, ∀ e ∈ s.buckets k, e.canceled = false → s.target e = s.tick now →
      e.expireAt ≤ now) : Ahead (sweepSlot now s) := by
  have htgt : ∀ e, (TimerKeeper.sweepSlot now s).target e = s.target e := fun e => by
    simp only [State.target, State.tick, sweepSlot_startTime]
  refine ⟨fun k e he hc => ?_, fun x hx => ?_⟩
  · obtain ⟨he, hkeep⟩ := mem_sweepSlot.mp he
    obtain ⟨hk, hlast⟩ := h.wheel k e he hc
    refine ⟨by rw [htgt]; exact hk, ?_⟩
    rw [htgt, sweepSlot_lastTick]
    -- an entry of the swept tick is due after now, so that tick is the current one
    by_contra hlt
    have htick : s.target e = s.lastTick := by omega
    obtain ⟨-, hnow⟩ := hkeep (htick ▸ hk)
    have hmono : s.tick now ≤ s.target e := tickOf_mono (le_of_lt hnow)
    have := hcur k e he hc (by omega)
    omega
  · obtain ⟨m, n, hd, -, heq⟩ := sweepSlot_eq now s
    rw [htgt]
    rw [heq] at hx
    exact h.adding x hx

/-- After a pass no entry of the current tick or an earlier one is left. -/
theorem Ahead.pass {s : State Node} {now : ℤ} (h : Ahead s) (hon : OnTime s (.pass now)) :
    Ahead (pass s now) ∧ ∀ k, ∀ e ∈ (pass s now).buckets k, e.canceled = false →
      now < e.expireAt := by
  -- the loop also keeps that the current tick has no entry that is due later
  let I : State Node → Prop := fun t =>
    Ahead t ∧ t.startTime = s.startTime ∧
      ∀ k, ∀ e ∈ t.buckets k, e.canceled = false → s.target e = s.tick now → e.expireAt ≤ now
  have h₀ : I { s with clock := now } := by
    refine ⟨h.of_eq rfl rfl rfl rfl, rfl, fun k e he hc htick => hon e ?_ hc htick⟩
    obtain ⟨rfl, -⟩ := h.wheel k e he hc
    exact htick ▸ he
  have hstep : ∀ t, I t → t.lastTick ≤ s.tick now → I (TimerKeeper.sweepSlot now t) := by
    rintro t ⟨ht, hstart, hcur⟩ hle
    have htick : ∀ u, t.tick u = s.tick u := fun u => by simp only [State.tick, hstart]
    refine ⟨ht.sweepSlot (by rw [htick]; exact hle) fun k e he hc heq => ?_, ?_, ?_⟩
    · exact hcur k e he hc (by simpa only [State.target, htick] using heq)
    · rw [sweepSlot_startTime, hstart]
    · exact fun k e he => hcur k e (mem_sweepSlot.mp he).1
  obtain ⟨⟨hahead, hstart, -⟩, hswept⟩ := pass_induction h₀ hstep
  refine ⟨hahead, fun k e he hc => ?_⟩
  have hlast := (hahead.wheel k e he hc).2
  have htgt : (TimerKeeper.pass s now).target e = s.target e := by
    simp only [State.target, State.tick, hstart]
  by_contra hdue
  have hmono : s.target e ≤ s.tick now := tickOf_mono (by omega)
  omega

theorem Ahead.step {s s' : State Node} {l : Label Node} (h : Ahead s) (hon : OnTime s l)
    (hs : step s l = some s') : Ahead s' := by
  cases l with
  | addTimer now delay target =>
    rw [TimerKeeper.step] at hs
    split at hs
    · cases hs
      exact h.addTimer now delay target
    · cases hs
  | insert k => exact h.insert hon hs
  | cancelTimer id =>
    cases hs
    exact h.cancelTimer id
  | pass now =>
    rw [TimerKeeper.step] at hs
    split at hs
    · cases hs
      exact (h.pass hon).1
    · cases hs
  | dispatch =>
    rw [TimerKeeper.step, dispatch] at hs
    split at hs
    · cases hs
    · cases hs
      exact h.of_eq rfl rfl rfl rfl
  | relink node v =>
    rw [TimerKeeper.step] at hs
    split at hs
    · cases hs
    · cases hs
      exact h.of_eq rfl rfl rfl rfl

/-- **Timeliness.**  In every run that inserts no timer into a tick already swept
and whose passes meet no entry that is due later in their current tick, no entry
is left in the wheel overdue by a tick after a pass. -/
theorem no_overdue_of_onTime (startTime now : ℤ) (ls : List (Label Node)) (s : State Node)
    (hrun : StepSystem.run step (init Node startTime) (ls ++ [.pass now]) = some s)
    (hon : StepSystem.Meets step OnTime (init Node startTime) (ls ++ [.pass now])) :
    ∀ k, ∀ e ∈ s.buckets k, e.canceled = false → ¬ e.expireAt + kTickMs * kNsPerMs ≤ now := by
  obtain ⟨m, hm, hpass⟩ := StepSystem.run_concat.mp hrun
  have hahead : Ahead m :=
    StepSystem.run_invariant_of_meets (fun _ _ _ h hC hs => Ahead.step h hC hs)
      (Ahead.init startTime) hon.append_left hm
  rw [step] at hpass
  split at hpass
  · cases hpass
    intro k e he hc hover
    have hlt := (hahead.pass (hon.append_right hm).1).2 k e he hc
    simp only [kTickMs, kNsPerMs] at hover
    omega
  · cases hpass

end Run

/-- Milliseconds after the start. -/
def ms (t : ℤ) : ℤ := t * kNsPerMs

/-- A timer of 15 ms added at 1 ms and swept at 20 ms. -/
theorem no_overdue_punctual :
    ∃ s, StepSystem.run step (init ℕ 0)
        ([.pass (ms 0), .addTimer (ms 1) 15 (.taskNode (some 7)), .insert 0] ++ [.pass (ms 20)])
          = some s ∧
      s.expiredHead = some 7 ∧
      ∀ k, ∀ e ∈ s.buckets k, e.canceled = false → ¬ e.expireAt + kTickMs * kNsPerMs ≤ ms 20 := by
  obtain ⟨s, hrun, hhead⟩ : ∃ s, StepSystem.run step (init ℕ 0)
      ([.pass (ms 0), .addTimer (ms 1) 15 (.taskNode (some 7)), .insert 0] ++ [.pass (ms 20)])
        = some s ∧ s.expiredHead = some 7 :=
    StepSystem.exists_of_run_any (by decide +kernel)
  exact ⟨s, hrun, hhead, no_overdue_of_onTime 0 (ms 20) _ s hrun (by decide +kernel)⟩

/-- **A timer that is left behind.**  The first pass sweeps tick 0 at the start;
a timer of 5 ms added at 1 ms still belongs to tick 0, so the pass at 16 ms,
which sweeps tick 1 only, leaves it in slot 0, overdue by 10 ms. -/
theorem overdue_entry_stays :
    ∃ s, StepSystem.run step (init ℕ 0)
        [.pass (ms 0), .addTimer (ms 1) 5 (.taskNode (some 7)), .insert 0, .pass (ms 16)]
          = some s ∧
      ∃ e ∈ s.buckets 0, e.canceled = false ∧ e.expireAt + kTickMs * kNsPerMs ≤ ms 16 :=
  StepSystem.exists_of_run_any (by decide +kernel)

end TimerKeeper
