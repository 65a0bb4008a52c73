/-
`sleep_for` (`utils/sleep.hpp`) over the timer keeper, in 64-bit arithmetic.

`sleep_for` casts the duration to milliseconds.  A count that is not positive does not suspend;
otherwise `add_internal` adds the milliseconds, as nanoseconds, to the clock value it reads, and
the sleeper is handed to the executor by a pass that does not come before that point in time.
All of it is done with signed 64-bit integers, whose overflow is taken to wrap.

The steps of the keeper are those of `TimerKeeper` but for the two that compute with time
(`addInternal`, `pass`), which agree with them as long as nothing overflows (`addInternal_eq`,
`pass_eq`).  A node that is given to another timer after it was handed out is a new `other` here.

* `State`, `step` — the sleeping coroutines and the keeper with all its other timers;
* `OnTime` — the arithmetic is exact for a duration and a clock value;
* `neverEarly_iff` — **a sleep never ends early exactly if its arithmetic is exact**.
-/
import AntServer.Chrono
import AntServer.TimerDispatch

namespace SleepFor

open Chrono
open TimerKeeper (kNsPerMs kTickMs slotOf sweepSlot sweepTicks Recorded Linked)

/-! ### The keeper in 64-bit arithmetic -/

/-- The nodes in the wheel: the `task_` of a `SleepAwaiter`, or that of another timer. -/
inductive Task
  | sleeper (i : ℕ)
  | other (k : ℕ)
deriving DecidableEq, Repr

abbrev Keeper := TimerKeeper.State Task

/-- `duration_cast<milliseconds>(t - start_time_) / kTickMs`, and 0 before the start. -/
def tickOf (startTime t : ℤ) : ℤ :=
  let elapsedMs := (int64 (t - startTime)).tdiv kNsPerMs
  if 0 < elapsedMs then elapsedMs.tdiv kTickMs else 0

/-- `steady_clock::now() + delay`. -/
def expireAt (now delay : ℤ) : ℤ := int64 (now + int64 (delay * kNsPerMs))

/-- The part of `add_internal` before the lock. -/
def addInternal (s : Keeper) (now delay : ℤ) (task : Task) (ownsTaskNode : Bool) : Keeper :=
  s.addEntry now
    { id := s.nextId, expireAt := expireAt now delay, taskNode := some task,
      ownsTaskNode := ownsTaskNode, canceled := false }
    (slotOf (tickOf s.startTime (expireAt now delay)))

/-- The critical section of one iteration of `Run`. -/
def pass (s : Keeper) (now : ℤ) : Keeper :=
  let currentTick := tickOf s.startTime now
  sweepTicks now currentTick (currentTick + 1 - s.lastTick).toNat { s with clock := now }

theorem tickOf_eq {startTime t : ℤ} (hlo : -2 ^ 63 ≤ t - startTime) (hhi : t - startTime < 2 ^ 63) :
    tickOf startTime t = TimerKeeper.tickOf startTime t := by
  rw [tickOf, int64_of_mem hlo hhi]
  rfl

/-- Without overflow this is the `add_internal` of exact time. -/
theorem addInternal_eq {s : Keeper} {now delay : ℤ} (task : Task) (owns : Bool)
    (hlo : -2 ^ 63 ≤ now + delay * kNsPerMs) (hhi : now + delay * kNsPerMs < 2 ^ 63)
    (hlo' : -2 ^ 63 ≤ now + delay * kNsPerMs - s.startTime)
    (hhi' : now + delay * kNsPerMs - s.startTime < 2 ^ 63) :
    addInternal s now delay task owns = TimerKeeper.addInternal s now delay (some task) owns := by
  have hpoint : expireAt now delay = now + delay * kNsPerMs := by
    rw [expireAt, int64_add_int64, int64_of_mem hlo hhi]
  rw [addInternal, hpoint, tickOf_eq hlo' hhi']
  rfl

theorem pass_eq {s : Keeper} {now : ℤ} (hlo : -2 ^ 63 ≤ now - s.startTime)
    (hhi : now - s.startTime < 2 ^ 63) : pass s now = TimerKeeper.pass s now := by
  rw [pass, tickOf_eq hlo hhi]
  rfl

/-! ### The system -/

/-- An execution of `co_await sleep_for(tk, duration)`. -/
structure Sleep where
  duration : Duration
  calledAt : ℤ
  suspendedAt : Option ℤ := none      -- the clock value that `add_internal` reads
  continuedAt : Option ℤ := none
deriving DecidableEq, Repr

/-- `delay_` of the `SleepAwaiter`. -/
def Sleep.delay (w : Sleep) : ℤ := w.duration.durationCastMs

/-- `SleepAwaiter::await_ready`. -/
def Sleep.ready (w : Sleep) : Bool := w.delay ≤ 0

structure State where
  keeper : Keeper
  sleeps : List Sleep
  others : ℕ            -- the number of other timers

def init (startTime : ℤ) : State := ⟨TimerKeeper.init Task startTime, [], 0⟩

/-- The clock may be read as `now`: it does not go back, and is a 64-bit integer. -/
def State.Reads (s : State) (now : ℤ) : Prop := s.keeper.clock ≤ now ∧ now < 2 ^ 63

instance (s : State) (now : ℤ) : Decidable (s.Reads now) := inferInstanceAs (Decidable (_ ∧ _))

inductive Label
  | sleepFor (d : Duration) (now : ℤ)
  | suspend (i : ℕ) (now : ℤ)
  | resume (i : ℕ) (now : ℤ)
  | addTimer (now delay : ℤ) (ownsTaskNode : Bool)
  | pass (now : ℤ)
  | insert (k : ℕ)
  | cancelTimer (id : ℕ)
  | dispatch
  | relink (task : Task) (v : Option Task)
deriving DecidableEq, Repr

/-- A step of the keeper that does not compute with time. -/
def State.keeperStep (s : State) (l : TimerKeeper.Label Task) : Option State :=
  (TimerKeeper.step s.keeper l).map fun keeper => { s with keeper := keeper }

def step (s : State) : Label → Option State
  | .sleepFor d now =>
    if s.Reads now then
      some { s with
        keeper := { s.keeper with clock := now }
        sleeps := s.sleeps ++ [{ duration := d, calledAt := now }] }
    else none
  | .suspend i now => do
    let w ← s.sleeps[i]?
    if s.Reads now ∧ w.ready = false ∧ w.suspendedAt = none then
      some { s with
        keeper := addInternal s.keeper now w.delay (.sleeper i) false
        sleeps := s.sleeps.set i { w with suspendedAt := some now } }
    else none
  | .resume i now => do
    let w ← s.sleeps[i]?
    if s.Reads now ∧ w.continuedAt = none ∧ (w.ready = true ∨ .sleeper i ∈ s.keeper.handed) then
      some { s with
        keeper := { s.keeper with clock := now }
        sleeps := s.sleeps.set i { w with continuedAt := some now } }
    else none
  | .addTimer now delay owns =>
    if s.Reads now then
      some { s with
        keeper := addInternal s.keeper now delay (.other s.others) owns
        others := s.others + 1 }
    else none
  | .pass now =>
    if s.Reads now ∧ s.keeper.expiredHead = none then some { s with keeper := pass s.keeper now }
    else none
  | .insert k => s.keeperStep (.insert k)
  | .cancelTimer id => s.keeperStep (.cancelTimer id)
  | .dispatch => s.keeperStep .dispatch
  | .relink task v => s.keeperStep (.relink task v)

/-- Every sleep of `d` whose `add_internal` reads the clock value `now`, if it comes to that,
continues at least `d` after it was called. -/
def NeverEarly (d : Duration) (now : ℤ) : Prop :=
  ∀ startTime ls s, -2 ^ 63 ≤ startTime → startTime ≤ now →
    StepSystem.run step (init startTime) ls = some s →
    ∀ w ∈ s.sleeps, w.duration = d → w.calledAt ≤ now → (∀ n ∈ w.suspendedAt, n = now) →
      ∀ t ∈ w.continuedAt, d.ElapsedBy (t - w.calledAt)

/-- The duration is a whole number of milliseconds, and neither the cast nor the point in time
overflows. -/
structure OnTime (d : Duration) (now : ℤ) : Prop where
  exact : d.Exact
  point : now + d.count * d.cfNum / d.cfDen * kNsPerMs < 2 ^ 63

/-! ### The arithmetic of one sleep -/

section Arithmetic

variable {d : Duration} {now : ℤ}

theorem elapsedBy_mono {t t' : ℤ} (h : d.ElapsedBy t) (ht : t ≤ t') : d.ElapsedBy t' :=
  le_trans h (Int.mul_le_mul_of_nonneg_right ht (Int.natCast_nonneg d.den))

theorem not_elapsedBy_zero (hd : 0 < d.count) : ¬ d.ElapsedBy 0 := by
  intro h
  rw [d.elapsedBy_iff, zero_mul] at h
  have hproduct := Int.mul_pos hd d.cfNum_pos
  omega

/-- **The arithmetic is exact if and only if the sleep suspends and its point in time is not
too early.** -/
theorem onTime_iff (hd : 0 < d.count) (hnow : -2 ^ 63 ≤ now) :
    OnTime d now ↔
      0 < d.durationCastMs ∧ d.ElapsedBy (expireAt now d.durationCastMs - now) := by
  have hden := d.cfDen_pos
  rw [d.elapsedBy_iff, expireAt, int64_add_int64]
  constructor
  · intro h
    obtain ⟨hpos, heq⟩ := (d.durationCastMs_eq_iff hd).mpr h.exact
    have hpoint := h.point
    rw [← heq, Int.mul_ediv_cancel _ hden.ne'] at hpoint
    have hns : 0 < d.durationCastMs * kNsPerMs := Int.mul_pos hpos (by decide)
    refine ⟨hpos, ?_⟩
    rw [int64_of_mem (by omega) hpoint, add_sub_cancel_left, ← heq]
    exact le_of_eq (by rw [kNsPerMs]; ring)
  · rintro ⟨hpos, helapsed⟩
    have hle := d.durationCastMs_mul_le hd hpos
    have hns : 0 < d.durationCastMs * kNsPerMs := Int.mul_pos hpos (by decide)
    have hwrap := int64_le (x := now + d.durationCastMs * kNsPerMs) (by omega)
    have hupper := int64_upper (now + d.durationCastMs * kNsPerMs)
    generalize int64 (now + d.durationCastMs * kNsPerMs) = point at hwrap hupper helapsed
    -- the point in time is at most the true one, and that is at most the duration later
    have hchain : (point - now) * d.cfDen ≤ d.durationCastMs * kNsPerMs * d.cfDen :=
      Int.mul_le_mul_of_nonneg_right (by omega) hden.le
    have hscale : d.durationCastMs * kNsPerMs * d.cfDen =
        d.durationCastMs * d.cfDen * 10 ^ 6 := by rw [kNsPerMs]; ring
    have heq : d.durationCastMs * d.cfDen = d.count * d.cfNum := by omega
    have hpoint : point - now = d.durationCastMs * kNsPerMs := by
      have hmul : (point - now) * d.cfDen = d.durationCastMs * kNsPerMs * d.cfDen := by omega
      exact Int.eq_of_mul_eq_mul_right hden.ne' hmul
    refine ⟨(d.durationCastMs_eq_iff hd).mp ⟨hpos, heq⟩, ?_⟩
    rw [← heq, Int.mul_ediv_cancel _ hden.ne']
    omega

end Arithmetic

/-! ### The invariant -/

/-- A sleep continues when it is ready, or at the point in time of its timer at the earliest. -/
structure Sleep.Timely (w : Sleep) : Prop where
  suspended : ∀ n ∈ w.suspendedAt, w.calledAt ≤ n ∧ w.ready = false
  continued : ∀ t ∈ w.continuedAt,
    w.ready = true ∨ ∃ n ∈ w.suspendedAt, expireAt n w.delay ≤ t

/-- The timer `e` is that of the task: the timer of a sleep has the point in time that its
`add_internal` computed. -/
def Owns (s : State) (e : TimerKeeper.TimerEntry Task) : Task → Prop
  | .sleeper i => ∃ w n, s.sleeps[i]? = some w ∧ w.suspendedAt = some n ∧
      e.expireAt = expireAt n w.delay
  | .other k => k < s.others

structure Inv (s : State) : Prop where
  recorded : Recorded s.keeper
  linked : Linked s.keeper
  extracted : ∀ x ∈ s.keeper.expiring ++ s.keeper.dispatched, x.now ≤ s.keeper.clock
  owner : ∀ e ∈ s.keeper.added, ∀ task ∈ e.taskNode, Owns s e task
  called : ∀ w ∈ s.sleeps, w.calledAt ≤ s.keeper.clock
  timely : ∀ w ∈ s.sleeps, w.Timely

theorem inv_init (startTime : ℤ) : Inv (init startTime) where
  recorded := Recorded.init startTime
  linked := Linked.init startTime
  extracted _ h := absurd h List.not_mem_nil
  owner _ h := absurd h List.not_mem_nil
  called _ h := absurd h List.not_mem_nil
  timely _ h := absurd h List.not_mem_nil

/-- A pass keeps what sweeping a slot keeps. -/
theorem sweepTicks_induction {I : Keeper → Prop} {now currentTick : ℤ}
    (hstep : ∀ t, I t → I (sweepSlot now t)) :
    ∀ (fuel : ℕ) (t : Keeper), I t → I (sweepTicks now currentTick fuel t) := by
  intro fuel
  induction fuel with
  | zero => exact fun t ht => ht
  | succ fuel ih =>
    intro t ht
    rw [sweepTicks]
    split
    · exact ih _ (hstep t ht)
    · exact ht

/-- What a pass at `now` leaves as it is, and when it extracts. -/
structure Swept (now : ℤ) (s t : Keeper) : Prop where
  recorded : Recorded t
  linked : Linked t
  clock : t.clock = now
  added : t.added = s.added
  extracted : ∀ x ∈ t.expiring ++ t.dispatched, x ∈ s.expiring ++ s.dispatched ∨ x.now = now

theorem Swept.sweepSlot {now : ℤ} {s t : Keeper} (h : Swept now s t) :
    Swept now s (sweepSlot now t) := by
  have hrecorded := h.recorded.moved (TimerKeeper.sweepSlot_moved now h.recorded)
  have hlinked : Linked (TimerKeeper.sweepSlot now t) := h.linked.sweepSlot h.recorded
  obtain ⟨m, n, hd, -, heq⟩ := TimerKeeper.sweepSlot_eq now t
  refine ⟨hrecorded, hlinked, ?_, ?_, fun x hx => ?_⟩
  · rw [heq]
    exact h.clock
  · rw [heq]
    exact h.added
  · rw [heq] at hx
    simp only [List.mem_append, List.mem_reverse, List.mem_filterMap, or_assoc] at hx
    rcases hx with ⟨e, -, hx⟩ | hx
    · exact Or.inr (TimerKeeper.extraction_eq_some hx).2.1
    · exact h.extracted x (List.mem_append.mpr hx)

theorem pass_swept {s : Keeper} (hr : Recorded s) (hl : Linked s) (now : ℤ) :
    Swept now s (pass s now) := by
  have hstart : Swept now s { s with clock := now } :=
    ⟨⟨hr.ids, hr.placed, hr.origin, hr.added, hr.nextId⟩,
      ⟨hl.pending, hl.adding, hl.mapped, hl.extracted, hl.chain, hl.handed⟩, rfl, rfl,
      fun x hx => Or.inl hx⟩
  exact sweepTicks_induction (fun t ht => ht.sweepSlot) _ _ hstart

namespace Inv

variable {s s' : State}

/-- Only the keeper moves. -/
theorem keeper (h : Inv s) {k : Keeper} (hr : Recorded k) (hl : Linked k)
    (hadded : k.added = s.keeper.added) (hclock : s.keeper.clock ≤ k.clock)
    (hx : ∀ x ∈ k.expiring ++ k.dispatched,
      x ∈ s.keeper.expiring ++ s.keeper.dispatched ∨ x.now ≤ k.clock) :
    Inv { s with keeper := k } where
  recorded := hr
  linked := hl
  extracted x hmem := by
    rcases hx x hmem with hold | hnow
    · exact (h.extracted x hold).trans hclock
    · exact hnow
  owner e he task htask := by
    rw [hadded] at he
    exact h.owner e he task htask
  called w hw := (h.called w hw).trans hclock
  timely := h.timely

/-- A step of the keeper that does not compute with time. -/
theorem keeperStep (h : Inv s) {l : TimerKeeper.Label Task} (hs : s.keeperStep l = some s')
    (hfresh : TimerKeeper.FreshNode s.keeper l)
    (hsame : ∀ k, TimerKeeper.step s.keeper l = some k →
      k.added = s.keeper.added ∧ k.clock = s.keeper.clock)
    (hpass : ∀ now, l ≠ .pass now) : Inv s' := by
  obtain ⟨k, hk, rfl⟩ := Option.map_eq_some_iff.mp hs
  obtain ⟨hadded, hclock⟩ := hsame k hk
  refine h.keeper (TimerKeeper.recorded_step h.recorded hk)
    (TimerKeeper.linked_step h.recorded h.linked hfresh hk) hadded hclock.ge fun x hx => ?_
  rcases TimerKeeper.extracted_step hk x hx with hold | hnow
  · exact Or.inl hold
  · exact absurd hnow (hpass x.now)

/-- The clock is read, and the sleeps change; timers keep their owners. -/
theorem sleeps (h : Inv s) {now : ℤ} {ws : List Sleep} (hnow : s.keeper.clock ≤ now)
    (howner : ∀ e ∈ s.keeper.added, ∀ task, Owns s e task → Owns { s with sleeps := ws } e task)
    (hcalled : ∀ w ∈ ws, w.calledAt ≤ now) (htimely : ∀ w ∈ ws, w.Timely) :
    Inv { s with keeper := { s.keeper with clock := now }, sleeps := ws } where
  recorded := ⟨h.recorded.ids, h.recorded.placed, h.recorded.origin, h.recorded.added,
    h.recorded.nextId⟩
  linked := ⟨h.linked.pending, h.linked.adding, h.linked.mapped, h.linked.extracted,
    h.linked.chain, h.linked.handed⟩
  extracted x hx := (h.extracted x hx).trans hnow
  owner e he task htask := howner e he task (h.owner e he task htask)
  called := hcalled
  timely := htimely

/-- A timer is added with a task of its own. -/
theorem add (h : Inv s) {now delay : ℤ} {task : Task} (owns : Bool) {ws : List Sleep} {k : ℕ}
    (hnow : s.keeper.clock ≤ now)
    (hfresh : ∀ e ∈ s.keeper.added, task ∉ e.taskNode)
    (howner : ∀ e ∈ s.keeper.added, ∀ u, Owns s e u →
      Owns { s with sleeps := ws, others := k } e u)
    (hnew : ∀ e : TimerKeeper.TimerEntry Task, e.expireAt = expireAt now delay →
      Owns { s with sleeps := ws, others := k } e task)
    (hcalled : ∀ w ∈ ws, w.calledAt ≤ now) (htimely : ∀ w ∈ ws, w.Timely) :
    Inv { s with
      keeper := addInternal s.keeper now delay task owns, sleeps := ws, others := k } where
  recorded := h.recorded.addEntry now _ rfl rfl rfl
  linked := by
    refine h.linked.addEntry now _ rfl rfl ?_
    -- a pending task is that of a timer that was added
    rintro ⟨p, hp⟩
    rw [TimerKeeper.State.pendingAt] at hp
    split at hp
    · exact absurd hp List.not_mem_nil
    · obtain ⟨e, he, hpending⟩ := List.mem_filterMap.mp hp
      refine hfresh _ (h.recorded.origin e ⟨p, he⟩) ?_
      rw [TimerKeeper.pendingNode] at hpending
      split at hpending
      · cases hpending
      · exact hpending
  extracted x hx := (h.extracted x hx).trans hnow
  owner e he u hu := by
    rcases List.mem_append.mp he with he | he
    · exact howner e he u (h.owner e he u hu)
    · rw [List.mem_singleton.mp he] at hu ⊢
      obtain rfl : task = u := Option.some.inj hu
      exact hnew _ rfl
  called := hcalled
  timely := htimely

theorem suspend (h : Inv s) {i : ℕ} {now : ℤ} {w : Sleep} (hw : s.sleeps[i]? = some w)
    (hnow : s.keeper.clock ≤ now) (hready : w.ready = false) (hfirst : w.suspendedAt = none) :
    Inv { s with
      keeper := addInternal s.keeper now w.delay (.sleeper i) false
      sleeps := s.sleeps.set i { w with suspendedAt := some now } } := by
  have hmem : w ∈ s.sleeps := List.mem_of_getElem? hw
  have hi : i < s.sleeps.length := (List.getElem?_eq_some_iff.mp hw).1
  have hcalled := (h.called w hmem).trans hnow
  -- the sleep has no timer yet
  have hnone : ∀ e ∈ s.keeper.added, Task.sleeper i ∉ e.taskNode := by
    intro e he htask
    obtain ⟨w', n, hw', hn, -⟩ := h.owner e he _ htask
    obtain rfl := Option.some.inj (hw.symm.trans hw')
    rw [hfirst] at hn
    cases hn
  refine h.add false hnow hnone ?_ ?_ ?_ ?_
  · intro e he u hu
    cases u with
    | other k => exact hu
    | sleeper j =>
      obtain ⟨w', n, hw', hn, hpoint⟩ := hu
      have hj : i ≠ j := by
        rintro rfl
        obtain rfl := Option.some.inj (hw.symm.trans hw')
        rw [hfirst] at hn
        cases hn
      exact ⟨w', n, by rw [List.getElem?_set_ne hj]; exact hw', hn, hpoint⟩
  · intro e hpoint
    exact ⟨_, now, List.getElem?_set_self hi, rfl, hpoint⟩
  · intro v hv
    rcases List.mem_or_eq_of_mem_set hv with hv | rfl
    · exact (h.called v hv).trans hnow
    · exact hcalled
  · intro v hv
    rcases List.mem_or_eq_of_mem_set hv with hv | rfl
    · exact h.timely v hv
    · refine ⟨fun n hn => ?_, fun t ht => ?_⟩
      · obtain rfl := Option.some.inj hn
        exact ⟨hcalled, hready⟩
      · -- a sleep that has no timer cannot have continued
        rcases (h.timely w hmem).continued t ht with hr | ⟨n, hn, -⟩
        · exact Or.inl hr
        · rw [hfirst] at hn
          cases hn

/-- A sleeper that was handed to the executor: its point in time has passed. -/
theorem handed_due (h : Inv s) {i : ℕ} {w : Sleep} (hw : s.sleeps[i]? = some w)
    (hhanded : .sleeper i ∈ s.keeper.handed) :
    ∃ n ∈ w.suspendedAt, expireAt n w.delay ≤ s.keeper.clock := by
  rw [h.linked.handed] at hhanded
  obtain ⟨x, hx, hnode⟩ := List.mem_map.mp hhanded
  have hx' : x ∈ s.keeper.expiring ++ s.keeper.dispatched := List.mem_append_right _ hx
  obtain ⟨hc, htask, hdue⟩ := h.linked.extracted x hx'
  have hadded := h.recorded.origin x.entry ⟨.handed, List.mem_map_of_mem hx⟩
  rw [← hc] at hadded
  rw [hnode] at htask
  obtain ⟨w', n, hw', hn, hpoint⟩ := h.owner _ hadded _ htask
  obtain rfl := Option.some.inj (hw.symm.trans hw')
  exact ⟨n, hn, hpoint ▸ hdue.trans (h.extracted x hx')⟩

theorem resume (h : Inv s) {i : ℕ} {now : ℤ} {w : Sleep} (hw : s.sleeps[i]? = some w)
    (hnow : s.keeper.clock ≤ now) (hgo : w.ready = true ∨ .sleeper i ∈ s.keeper.handed) :
    Inv { s with
      keeper := { s.keeper with clock := now }
      sleeps := s.sleeps.set i { w with continuedAt := some now } } := by
  have hmem : w ∈ s.sleeps := List.mem_of_getElem? hw
  have hi : i < s.sleeps.length := (List.getElem?_eq_some_iff.mp hw).1
  refine h.sleeps hnow ?_ ?_ ?_
  · intro e he u hu
    cases u with
    | other k => exact hu
    | sleeper j =>
      obtain ⟨w', n, hw', hn, hpoint⟩ := hu
      by_cases hj : i = j
      · subst hj
        obtain rfl := Option.some.inj (hw.symm.trans hw')
        exact ⟨_, n, List.getElem?_set_self hi, hn, hpoint⟩
      · exact ⟨w', n, by rw [List.getElem?_set_ne hj]; exact hw', hn, hpoint⟩
  · intro v hv
    rcases List.mem_or_eq_of_mem_set hv with hv | rfl
    · exact (h.called v hv).trans hnow
    · exact (h.called w hmem).trans hnow
  · intro v hv
    rcases List.mem_or_eq_of_mem_set hv with hv | rfl
    · exact h.timely v hv
    · refine ⟨(h.timely w hmem).suspended, fun t ht => ?_⟩
      obtain rfl := Option.some.inj ht
      rcases hgo with hready | hhanded
      · exact Or.inl hready
      · obtain ⟨n, hn, hdue⟩ := h.handed_due hw hhanded
        exact Or.inr ⟨n, hn, hdue.trans hnow⟩

theorem step (h : Inv s) {l : Label} (hs : SleepFor.step s l = some s') : Inv s' := by
  cases l with
  | sleepFor d now =>
    obtain ⟨hreads, hs⟩ := Option.ite_none_right_eq_some.mp hs
    obtain rfl := Option.some.inj hs
    refine h.sleeps hreads.1 ?_ ?_ ?_
    · intro e he u hu
      cases u with
      | other k => exact hu
      | sleeper j =>
        obtain ⟨w, n, hw, hn, hpoint⟩ := hu
        have hj : j < s.sleeps.length := (List.getElem?_eq_some_iff.mp hw).1
        exact ⟨w, n, by rw [List.getElem?_append_left hj]; exact hw, hn, hpoint⟩
    · intro w hw
      rcases List.mem_append.mp hw with hw | hw
      · exact (h.called w hw).trans hreads.1
      · rw [List.mem_singleton.mp hw]
    · intro w hw
      rcases List.mem_append.mp hw with hw | hw
      · exact h.timely w hw
      · rw [List.mem_singleton.mp hw]
        exact ⟨nofun, nofun⟩
  | suspend i now =>
    obtain ⟨w, hw, hs⟩ := Option.bind_eq_some_iff.mp hs
    obtain ⟨⟨hreads, hready, hfirst⟩, hs⟩ := Option.ite_none_right_eq_some.mp hs
    obtain rfl := Option.some.inj hs
    exact h.suspend hw hreads.1 hready hfirst
  | resume i now =>
    obtain ⟨w, hw, hs⟩ := Option.bind_eq_some_iff.mp hs
    obtain ⟨⟨hreads, -, hgo⟩, hs⟩ := Option.ite_none_right_eq_some.mp hs
    obtain rfl := Option.some.inj hs
    exact h.resume hw hreads.1 hgo
  | addTimer now delay owns =>
    obtain ⟨hreads, hs⟩ := Option.ite_none_right_eq_some.mp hs
    obtain rfl := Option.some.inj hs
    refine h.add owns hreads.1 ?_ ?_ ?_ (fun w hw => (h.called w hw).trans hreads.1) h.timely
    · intro e he htask
      exact absurd (h.owner e he _ htask) (Nat.lt_irrefl s.others)
    · intro e he u hu
      cases u with
      | sleeper j => exact hu
      | other k => exact Nat.lt_succ_of_lt hu
    · intro e _
      exact Nat.lt_succ_self s.others
  | pass now =>
    obtain ⟨⟨hreads, -⟩, hs⟩ := Option.ite_none_right_eq_some.mp hs
    obtain rfl := Option.some.inj hs
    have hswept := pass_swept h.recorded h.linked now
    refine h.keeper hswept.recorded hswept.linked hswept.added ?_ fun x hx => ?_
    · rw [hswept.clock]
      exact hreads.1
    · rw [hswept.clock]
      exact (hswept.extracted x hx).imp_right le_of_eq
  | insert k =>
    refine h.keeperStep hs trivial (fun k hk => ?_) nofun
    obtain ⟨entry, slot, -, -, rfl⟩ := TimerKeeper.insert_moved hk
    exact ⟨rfl, rfl⟩
  | cancelTimer id =>
    refine h.keeperStep hs trivial (fun k hk => ?_) nofun
    obtain rfl := Option.some.inj hk
    rcases TimerKeeper.cancelTimer_cases s.keeper id with heq | ⟨-, heq⟩ <;> rw [heq] <;>
      exact ⟨rfl, rfl⟩
  | dispatch =>
    refine h.keeperStep hs trivial (fun k hk => ?_) nofun
    obtain ⟨x, xs, -, -, rfl⟩ := TimerKeeper.dispatch_eq h.linked hk
    exact ⟨rfl, rfl⟩
  | relink task v =>
    refine h.keeperStep hs trivial (fun k hk => ?_) nofun
    obtain ⟨-, hk⟩ := Option.ite_none_left_eq_some.mp hk
    obtain rfl := Option.some.inj hk
    exact ⟨rfl, rfl⟩

theorem run {startTime : ℤ} {ls : List Label}
    (hrun : StepSystem.run SleepFor.step (init startTime) ls = some s) : Inv s :=
  StepSystem.run_invariant (fun _ _ _ h hs => h.step hs) (inv_init startTime) hrun

end Inv

/-- If its arithmetic is exact, a sleep does not end early. -/
theorem OnTime.neverEarly {d : Duration} {now : ℤ} (hd : 0 < d.count) (hnow : -2 ^ 63 ≤ now)
    (h : OnTime d now) : NeverEarly d now := by
  obtain ⟨hpos, helapsed⟩ := (onTime_iff hd hnow).mp h
  intro startTime ls s _ _ hrun w hw hduration _ hsuspended t ht
  have htimely := (Inv.run hrun).timely w hw
  rcases htimely.continued t ht with hready | ⟨n, hn, hdue⟩
  · have hle : w.delay ≤ 0 := of_decide_eq_true hready
    rw [Sleep.delay, hduration] at hle
    omega
  · obtain rfl := hsuspended n hn
    rw [Sleep.delay, hduration] at hdue
    have hcalled := (htimely.suspended n hn).1
    exact elapsedBy_mono helapsed (by omega)

/-! ### A sleep that ends early -/

/-- A pass extracts a due timer if it comes to its slot. -/
theorem mem_expiring_sweepTicks {now currentTick T : ℤ} {e : TimerKeeper.TimerEntry Task}
    {task : Task} (hc : e.canceled = false) (hdue : e.expireAt ≤ now)
    (hn : e.taskNode = some task) (hT : T ≤ currentTick) :
    ∀ (fuel : ℕ) (t : Keeper), e ∈ t.buckets (slotOf T) → t.lastTick ≤ T →
      T + 1 - t.lastTick ≤ fuel →
      ⟨e, task, now⟩ ∈ (sweepTicks now currentTick fuel t).expiring := by
  intro fuel
  induction fuel with
  | zero =>
    intro t _ hlast hfuel
    push_cast at hfuel
    omega
  | succ fuel ih =>
    intro t he hlast hfuel
    rw [sweepTicks, if_pos (by omega)]
    by_cases hslot : slotOf T = slotOf t.lastTick
    · -- this is the slot; what is extracted stays in the expired list
      have hextracted : ⟨e, task, now⟩ ∈ (sweepSlot now t).expiring := by
        obtain ⟨m, n, hd, -, heq⟩ := TimerKeeper.sweepSlot_eq now t
        rw [heq]
        refine List.mem_append_left _ (List.mem_reverse.mpr (List.mem_filterMap.mpr ⟨e, ?_, ?_⟩))
        · rw [← hslot]
          exact he
        · rw [TimerKeeper.extraction, if_pos ⟨hc, hdue⟩, hn]
          rfl
      refine sweepTicks_induction (I := fun u => ⟨e, task, now⟩ ∈ u.expiring) (fun u hu => ?_)
        fuel _ hextracted
      obtain ⟨m, n, hd, -, heq⟩ := TimerKeeper.sweepSlot_eq now u
      rw [heq]
      exact List.mem_append_right _ hu
    · have hne : t.lastTick ≠ T := fun heq => hslot (by rw [heq])
      refine ih _ (TimerKeeper.mem_sweepSlot.mpr ⟨he, fun h => absurd h hslot⟩) ?_ ?_
      · rw [TimerKeeper.sweepSlot_lastTick]
        omega
      · rw [TimerKeeper.sweepSlot_lastTick]
        push_cast at hfuel
        omega

section Early

variable {d : Duration} {startTime now : ℤ}

/-- The timer of the first sleep. -/
def firstEntry (d : Duration) (now : ℤ) : TimerKeeper.TimerEntry Task :=
  { id := 1, expireAt := expireAt now d.durationCastMs, taskNode := some (.sleeper 0),
    ownsTaskNode := false, canceled := false }

/-- The first sleep has suspended, with its timer in the wheel. -/
def asleep (startTime now : ℤ) (d : Duration) : State where
  keeper :=
    { TimerKeeper.init Task startTime with
      clock := now
      nextId := 2
      buckets := Function.update (fun _ => [])
        (slotOf (tickOf startTime (expireAt now d.durationCastMs))) [firstEntry d now]
      taskMap := Function.update (fun _ => false) 1 true
      added := [firstEntry d now] }
  sleeps := [{ duration := d, calledAt := now, suspendedAt := some now }]
  others := 0

theorem run_asleep (hstart : startTime ≤ now) (hnow : now < 2 ^ 63)
    (hpos : 0 < d.durationCastMs) :
    StepSystem.run step (init startTime) [.sleepFor d now, .suspend 0 now, .insert 0] =
      some (asleep startTime now d) := by
  have hready : Sleep.ready { duration := d, calledAt := now } = false :=
    decide_eq_false (not_le.mpr hpos)
  refine StepSystem.run_cons.mpr ⟨_, if_pos ⟨hstart, hnow⟩, ?_⟩
  refine StepSystem.run_cons.mpr ⟨_, if_pos ⟨⟨le_refl now, hnow⟩, hready, rfl⟩, ?_⟩
  rfl

/-- A pass that comes to the slot of the sleep, at its point in time or later, extracts it. -/
theorem asleep_extracted {t : ℤ} (hdue : expireAt now d.durationCastMs ≤ t)
    (htick : tickOf startTime (expireAt now d.durationCastMs) ≤ tickOf startTime t)
    (hnonneg : 0 ≤ tickOf startTime (expireAt now d.durationCastMs)) :
    ⟨firstEntry d now, .sleeper 0, t⟩ ∈ (pass (asleep startTime now d).keeper t).expiring := by
  have hbucket : firstEntry d now ∈ (asleep startTime now d).keeper.buckets
      (slotOf (tickOf startTime (expireAt now d.durationCastMs))) := by
    simp only [asleep, Function.update_self, List.mem_singleton]
  have hfuel := Int.self_le_toNat (tickOf startTime t + 1 - 0)
  exact mem_expiring_sweepTicks rfl hdue rfl htick _ _ hbucket hnonneg
    (le_trans (by show _ + 1 - (0 : ℤ) ≤ _; omega) hfuel)

/-- The only timer there is is handed out. -/
theorem dispatch_only {s : State} (h : Inv s) {e : TimerKeeper.TimerEntry Task} {task : Task}
    (hadded : s.keeper.added = [e]) (htask : e.taskNode = some task)
    (hne : s.keeper.expiring ≠ []) :
    ∃ k, step s .dispatch = some { s with keeper := k } ∧ task ∈ k.handed ∧
      k.clock = s.keeper.clock := by
  obtain ⟨k, hk⟩ : ∃ k, TimerKeeper.dispatch s.keeper = some k := by
    rw [TimerKeeper.dispatch]
    split
    · rename_i hnone
      exact absurd (List.map_eq_nil_iff.mp (h.linked.chain.none_iff.mp hnone)) hne
    · exact ⟨_, rfl⟩
  have hstep : step s .dispatch = some { s with keeper := k } :=
    Option.map_eq_some_iff.mpr ⟨k, hk, rfl⟩
  obtain ⟨x, xs, hxs, -, rfl⟩ := TimerKeeper.dispatch_eq h.linked hk
  have hx : x ∈ s.keeper.expiring := by
    rw [hxs]
    exact List.mem_cons_self
  obtain ⟨hc, hnode, -⟩ := h.linked.extracted x (List.mem_append_left _ hx)
  have horigin := h.recorded.origin x.entry ⟨.expired, List.mem_map_of_mem hx⟩
  rw [← hc, hadded] at horigin
  have hentry : x.entry = e := List.mem_singleton.mp horigin
  have hsame : task = x.node := by
    rw [hentry, htask] at hnode
    exact Option.some.inj hnode
  refine ⟨_, hstep, ?_, rfl⟩
  rw [hsame]
  exact List.mem_append_right _ (List.mem_singleton_self _)

/-- Such a pass lets the sleep continue. -/
theorem exists_continued {t : ℤ} (hstart : startTime ≤ now) (ht : t < 2 ^ 63) (hnow : now ≤ t)
    (hpos : 0 < d.durationCastMs) (hdue : expireAt now d.durationCastMs ≤ t)
    (htick : tickOf startTime (expireAt now d.durationCastMs) ≤ tickOf startTime t)
    (hnonneg : 0 ≤ tickOf startTime (expireAt now d.durationCastMs)) :
    ∃ ls s, StepSystem.run step (init startTime) ls = some s ∧
      s.sleeps = [⟨d, now, some now, some t⟩] := by
  have hasleep := run_asleep hstart (hnow.trans_lt ht) hpos
  have hpass : step (asleep startTime now d) (.pass t) =
      some { asleep startTime now d with keeper := pass (asleep startTime now d).keeper t } :=
    if_pos ⟨⟨hnow, ht⟩, rfl⟩
  have hrun := StepSystem.run_concat.mpr ⟨_, hasleep, hpass⟩
  have hswept := pass_swept (Inv.run hasleep).recorded (Inv.run hasleep).linked t
  have hextracted := asleep_extracted hdue htick hnonneg
  obtain ⟨k, hdispatch, hhanded, hclock⟩ := dispatch_only (Inv.run hrun) hswept.added rfl
    (List.ne_nil_of_mem hextracted)
  have hrun := StepSystem.run_concat.mpr ⟨_, hrun, hdispatch⟩
  have hresume : step ⟨k, (asleep startTime now d).sleeps, 0⟩ (.resume 0 t) =
      some ⟨{ k with clock := t }, [⟨d, now, some now, some t⟩], 0⟩ :=
    if_pos ⟨⟨(hclock.trans hswept.clock).le, ht⟩, rfl, Or.inr hhanded⟩
  exact ⟨_, _, StepSystem.run_concat.mpr ⟨_, hrun, hresume⟩, rfl⟩

end Early

theorem tickOf_nonneg (startTime t : ℤ) : 0 ≤ tickOf startTime t := by
  rw [tickOf]
  split
  · rename_i hpos
    exact Int.tdiv_nonneg hpos.le (by decide)
  · exact le_refl 0

theorem tickOf_self (t : ℤ) : tickOf t t = 0 := by
  rw [tickOf, sub_self]
  rfl

/-- If its arithmetic is not exact, a sleep can end early. -/
theorem exists_early {d : Duration} {now : ℤ} (hd : 0 < d.count) (hlo : -2 ^ 63 ≤ now)
    (hhi : now < 2 ^ 63) (h : ¬ OnTime d now) : ¬ NeverEarly d now := by
  intro hnever
  rw [onTime_iff hd hlo, not_and] at h
  rcases le_or_gt d.durationCastMs 0 with hle | hpos
  · -- the sleep does not suspend
    have hready : Sleep.ready { duration := d, calledAt := now } = true := decide_eq_true hle
    have hresume : step ⟨{ TimerKeeper.init Task now with clock := now }, [⟨d, now, none, none⟩], 0⟩
        (.resume 0 now) =
        some ⟨{ TimerKeeper.init Task now with clock := now }, [⟨d, now, none, some now⟩], 0⟩ :=
      if_pos ⟨⟨le_refl now, hhi⟩, rfl, Or.inl hready⟩
    have hrun : StepSystem.run step (init now) [.sleepFor d now, .resume 0 now] = _ :=
      StepSystem.run_cons.mpr
        ⟨_, if_pos ⟨le_refl now, hhi⟩, StepSystem.run_cons.mpr ⟨_, hresume, rfl⟩⟩
    have helapsed := hnever now _ _ hlo (le_refl now) hrun _ (List.mem_singleton_self _) rfl
      (le_refl now) nofun now rfl
    rw [sub_self] at helapsed
    exact not_elapsedBy_zero hd helapsed
  · -- a pass at the point in time, or at once if that has passed already
    have hearly := h hpos
    have hpoint : expireAt now d.durationCastMs < 2 ^ 63 := int64_upper _
    obtain ⟨startTime, t, hstartlo, hstart, hnow, ht, hdue, htick, hbefore⟩ :
        ∃ startTime t, -2 ^ 63 ≤ startTime ∧ startTime ≤ now ∧ now ≤ t ∧ t < 2 ^ 63 ∧
          expireAt now d.durationCastMs ≤ t ∧
          tickOf startTime (expireAt now d.durationCastMs) ≤ tickOf startTime t ∧
          ¬ d.ElapsedBy (t - now) := by
      rcases le_or_gt now (expireAt now d.durationCastMs) with hlater | hearlier
      · exact ⟨now, _, hlo, le_refl now, hlater, hpoint, le_refl _, le_refl _, hearly⟩
      · have hpointlo : -2 ^ 63 ≤ expireAt now d.durationCastMs := int64_lower _
        refine ⟨_, now, hpointlo, hearlier.le, le_refl now, hhi, hearlier.le, ?_, ?_⟩
        · rw [tickOf_self]
          exact tickOf_nonneg _ _
        · rw [sub_self]
          exact not_elapsedBy_zero hd
    obtain ⟨ls, s, hrun, hsleeps⟩ := exists_continued hstart ht hnow hpos hdue htick
      (tickOf_nonneg _ _)
    have hmem : (⟨d, now, some now, some t⟩ : Sleep) ∈ s.sleeps := by
      rw [hsleeps]
      exact List.mem_singleton_self _
    refine hbefore (hnever startTime ls s hstartlo hstart hrun _ hmem rfl (le_refl now) ?_ t rfl)
    exact fun n hn => (Option.some.inj hn).symm

/-! ### Whole runs -/

/-- **A sleep of a positive duration never ends early exactly if the duration is a whole number
of milliseconds and neither its cast nor the point in time overflows.** -/
theorem neverEarly_iff {d : Duration} {now : ℤ} (hd : 0 < d.count) (hlo : -2 ^ 63 ≤ now)
    (hhi : now < 2 ^ 63) : NeverEarly d now ↔ OnTime d now := by
  constructor
  · intro hnever
    by_contra h
    exact exists_early hd hlo hhi h hnever
  · exact OnTime.neverEarly hd hlo

def milliseconds (n : ℤ) (hlo : -2 ^ 63 ≤ n) (hhi : n < 2 ^ 63) : Duration :=
  ⟨.signed, 1, 1000, n, Nat.one_pos, Nat.succ_pos _, hlo, hhi⟩

def microseconds (n : ℤ) (hlo : -2 ^ 63 ≤ n) (hhi : n < 2 ^ 63) : Duration :=
  ⟨.signed, 1, 1000000, n, Nat.one_pos, Nat.succ_pos _, hlo, hhi⟩

def hours (n : ℤ) (hlo : -2 ^ 63 ≤ n) (hhi : n < 2 ^ 63) : Duration :=
  ⟨.signed, 3600, 1, n, Nat.succ_pos _, Nat.one_pos, hlo, hhi⟩

/-- 50 ms are slept in full, 1500 µs are not. -/
theorem neverEarly_whole_milliseconds :
    NeverEarly (milliseconds 50 (by decide) (by decide)) 0 ∧
      ¬ NeverEarly (microseconds 1500 (by decide) (by decide)) 0 := by
  constructor
  · refine (neverEarly_iff (by decide) (by decide) (by decide)).mpr ⟨⟨?_, ?_, ?_⟩, ?_⟩ <;>
      decide
  · rw [neverEarly_iff (by decide) (by decide) (by decide)]
    intro h
    exact absurd h.exact.whole (by decide)

/-- One sleep, with a pass at the time `t`. -/
def sleepUntil (d : Duration) (t : ℤ) : List Label :=
  [.sleepFor d 0, .suspend 0 0, .insert 0, .pass t, .dispatch, .resume 0 t]

/-- 1500 µs end after 1 ms, 500 µs at once, and 2562048 h (292 years) with the next pass. -/
theorem sleep_ends_early :
    (∃ s, StepSystem.run step (init 0)
        (sleepUntil (microseconds 1500 (by decide) (by decide)) 1000000) = some s ∧
      s.sleeps = [⟨microseconds 1500 (by decide) (by decide), 0, some 0, some 1000000⟩]) ∧
    (∃ s, StepSystem.run step (init 0)
        [.sleepFor (microseconds 500 (by decide) (by decide)) 0, .resume 0 0] = some s ∧
      s.sleeps = [⟨microseconds 500 (by decide) (by decide), 0, none, some 0⟩]) ∧
    (∃ s, StepSystem.run step (init 0)
        (sleepUntil (hours 2562048 (by decide) (by decide)) 1) = some s ∧
      s.sleeps = [⟨hours 2562048 (by decide) (by decide), 0, some 0, some 1⟩]) ∧
    ¬ (microseconds 1500 (by decide) (by decide)).ElapsedBy 1000000 ∧
    ¬ (microseconds 500 (by decide) (by decide)).ElapsedBy 0 ∧
    ¬ (hours 2562048 (by decide) (by decide)).ElapsedBy 1 :=
  ⟨StepSystem.exists_of_run_any (by decide +kernel),
    StepSystem.exists_of_run_any (by decide +kernel),
    StepSystem.exists_of_run_any (by decide +kernel), by decide, by decide, by decide⟩

end SleepFor
