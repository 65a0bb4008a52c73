/-
What `task_map_` and the slots say about the wheel.

* `Indexed` — an entry is in the slot of the tick computed when it was created, and
  `task_map_` holds exactly the ids of the entries in the wheel that are not
  canceled;
* `indexed_step`, `run_indexed` — kept by every step, whatever is added and
  canceled.
-/
import AntServer.TimerPlaces

namespace TimerKeeper

variable {Node : Type*}

structure Indexed (s : State Node) : Prop where
  adding : ∀ x ∈ s.adding, x.1.canceled = false ∧ x.2 = slotOf (s.tick x.1.expireAt)
  slot : ∀ k, ∀ e ∈ s.buckets k, k = slotOf (s.tick e.expireAt)
  mapped : ∀ id, s.taskMap id = true ↔ ∃ k, ∃ e ∈ s.buckets k, e.id = id ∧ e.canceled = false

theorem Indexed.init (startTime : ℤ) : Indexed (init Node startTime) where
  adding := fun x hx => absurd hx List.not_mem_nil
  slot := fun k e he => absurd he List.not_mem_nil
  mapped := fun id => by
    constructor
    · intro h
      cases h
    · rintro ⟨k, e, he, -⟩
      exact absurd he List.not_mem_nil

/-- Only these fields matter. -/
theorem Indexed.congr {s s' : State Node} (h : Indexed s) (hstart : s'.startTime = s.startTime)
    (hadding : s'.adding = s.adding) (hbuckets : s'.buckets = s.buckets)
    (hmap : s'.taskMap = s.taskMap) : Indexed s' := by
  have htick : s'.tick = s.tick := by
    funext t
    rw [State.tick, hstart, State.tick]
  refine ⟨?_, ?_, ?_⟩
  · rw [hadding, htick]
    exact h.adding
  · rw [hbuckets, htick]
    exact h.slot
  · rw [hmap, hbuckets]
    exact h.mapped

/-- A timer is known by its id. -/
theorem Recorded.entry_unique {s : State Node} (h : Recorded s) {p q : Place}
    {e e' : TimerEntry Node} (he : e ∈ s.entriesAt p) (he' : e' ∈ s.entriesAt q)
    (hid : e.id = e'.id) : p = q ∧ e = e' := by
  have hp : e.id ∈ s.idsAt p := List.mem_map_of_mem he
  have hq : e'.id ∈ s.idsAt q := List.mem_map_of_mem he'
  obtain rfl : p = q := h.ids.eq_of_mem hp (hid ▸ hq)
  exact ⟨rfl, List.inj_on_of_nodup_map (h.ids.nodup p) he he' hid⟩

theorem Indexed.addTimer {s : State Node} (h : Indexed s) (now delay : ℤ)
    (target : Target Node) : Indexed (addTimer s now delay target) := by
  rcases addTimer_cases s now delay target with heq | ⟨node, owns, -, heq⟩
  · rw [heq]
    exact h
  rw [heq]
  refine ⟨fun x hx => ?_, h.slot, h.mapped⟩
  rcases List.mem_append.mp hx with hx | hx
  · exact h.adding x hx
  · rw [List.mem_singleton.mp hx]
    exact ⟨rfl, rfl⟩

/-- The entry gets its slot and its id. -/
theorem Indexed.insert {s s' : State Node} {k : ℕ} (h : Indexed s)
    (hs : insert s k = some s') : Indexed s' := by
  obtain ⟨entry, slot, hmem, -, rfl⟩ := insert_moved hs
  obtain ⟨hlive, hslot⟩ := h.adding _ hmem
  have hbucket : ∀ j e, e ∈ Function.update s.buckets slot (entry :: s.buckets slot) j ↔
      (j = slot ∧ e = entry) ∨ e ∈ s.buckets j := by
    intro j e
    by_cases hj : j = slot
    · subst hj
      rw [Function.update_self, List.mem_cons]
      tauto
    · rw [Function.update_of_ne hj]
      tauto
  refine ⟨fun x hx => h.adding x (List.mem_of_mem_eraseIdx hx), fun j e he => ?_, fun id => ?_⟩
  · rcases (hbucket j e).mp he with ⟨rfl, rfl⟩ | he
    · exact hslot
    · exact h.slot j e he
  · show Function.update s.taskMap entry.id true id = true ↔ _
    by_cases hid : id = entry.id
    · subst hid
      rw [Function.update_self]
      exact ⟨fun _ => ⟨slot, entry, (hbucket slot entry).mpr (Or.inl ⟨rfl, rfl⟩), rfl, hlive⟩,
        fun _ => rfl⟩
    · rw [Function.update_of_ne hid, h.mapped]
      constructor
      · rintro ⟨j, e, he, heid, hc⟩
        exact ⟨j, e, (hbucket j e).mpr (Or.inr he), heid, hc⟩
      · rintro ⟨j, e, he, heid, hc⟩
        rcases (hbucket j e).mp he with ⟨-, rfl⟩ | he
        · exact absurd heid.symm hid
        · exact ⟨j, e, he, heid, hc⟩

theorem Indexed.cancelTimer {s : State Node} (h : Indexed s) (id : ℕ) :
    Indexed (cancelTimer s id) := by
  rcases cancelTimer_cases s id with heq | ⟨-, heq⟩
  · rw [heq]
    exact h
  rw [heq]
  refine ⟨h.adding, fun k e he => ?_, fun id' => ?_⟩
  · obtain ⟨e₀, he₀, rfl⟩ := List.mem_map.mp he
    have hexpire : (mark id e₀).expireAt = e₀.expireAt := by
      rw [mark]
      split <;> rfl
    rw [hexpire]
    exact h.slot k e₀ he₀
  · show Function.update s.taskMap id false id' = true ↔ _
    constructor
    · intro hmap
      have hne : id' ≠ id := by
        rintro rfl
        rw [Function.update_self] at hmap
        cases hmap
      rw [Function.update_of_ne hne, h.mapped] at hmap
      obtain ⟨k, e, he, heid, hc⟩ := hmap
      have hmark : mark id e = e := if_neg fun hid => hne (heid.symm.trans hid)
      exact ⟨k, e, List.mem_map.mpr ⟨e, he, hmark⟩, heid, hc⟩
    · rintro ⟨k, e, he, heid, hc⟩
      obtain ⟨e₀, he₀, rfl⟩ := List.mem_map.mp he
      obtain ⟨hne, hmark⟩ := mark_of_live hc
      rw [hmark] at heid hc
      rw [Function.update_of_ne (heid ▸ hne), h.mapped]
      exact ⟨k, e₀, he₀, heid, hc⟩

section Run

variable [DecidableEq Node]

/-- The inner loop erases exactly the ids of the entries that are due. -/
theorem foldl_sweepEntry_taskMap (now : ℤ) (es : List (TimerEntry Node))
    (w : State Node × List (TimerEntry Node)) (id : ℕ) :
    (es.foldl (sweepEntry now) w).1.taskMap id = true ↔
      w.1.taskMap id = true ∧
        ∀ e ∈ es, e.canceled = false → e.expireAt ≤ now → e.id ≠ id := by
  induction es generalizing w with
  | nil => simp
  | cons e es ih =>
    rw [List.foldl_cons, ih, List.forall_mem_cons, ← and_assoc]
    refine and_congr_left fun _ => ?_
    by_cases hc : e.canceled = true
    · rw [sweepEntry_canceled hc]
      simp [hc]
    rw [Bool.not_eq_true] at hc
    by_cases hdue : e.expireAt ≤ now
    · -- the id leaves the map
      have herase : (sweepEntry now w e).1.taskMap = Function.update w.1.taskMap e.id false := by
        cases hn : e.taskNode with
        | none => rw [sweepEntry_null hc hdue hn]
        | some node => rw [sweepEntry_due hc hdue hn]
      rw [herase]
      by_cases hid : e.id = id
      · subst hid
        simp [hc, hdue]
      · rw [Function.update_of_ne (Ne.symm hid)]
        exact ⟨fun h => ⟨h, fun _ _ => hid⟩, And.left⟩
    · rw [sweepEntry_kept hc (by omega)]
      exact ⟨fun h => ⟨h, fun _ h' => absurd h' hdue⟩, And.left⟩

theorem sweepSlot_taskMap (now : ℤ) (s : State Node) (id : ℕ) :
    (sweepSlot now s).taskMap id = true ↔
      s.taskMap id = true ∧
        ∀ e ∈ s.buckets (slotOf s.lastTick), e.canceled = false → e.expireAt ≤ now → e.id ≠ id :=
  foldl_sweepEntry_taskMap now _ _ id

theorem Indexed.sweepSlot {s : State Node} (hr : Recorded s) (h : Indexed s) (now : ℤ) :
    Indexed (sweepSlot now s) := by
  have htick : (TimerKeeper.sweepSlot now s).tick = s.tick := by
    funext t
    rw [State.tick, sweepSlot_startTime, State.tick]
  refine ⟨?_, fun k e he => ?_, fun id => ?_⟩
  · obtain ⟨m, n, hd, -, heq⟩ := sweepSlot_eq now s
    rw [htick, heq]
    exact h.adding
  · rw [htick]
    exact h.slot k e (mem_sweepSlot.mp he).1
  · rw [sweepSlot_taskMap, h.mapped]
    constructor
    · rintro ⟨⟨k, e, he, hid, hc⟩, hnone⟩
      refine ⟨k, e, mem_sweepSlot.mpr ⟨he, fun hk => ⟨hc, ?_⟩⟩, hid, hc⟩
      by_contra hdue
      exact hnone e (hk ▸ he) hc (by omega) hid
    · rintro ⟨k, e, he, hid, hc⟩
      obtain ⟨he, hkept⟩ := mem_sweepSlot.mp he
      refine ⟨⟨k, e, he, hid, hc⟩, fun e' he' _ hdue hid' => ?_⟩
      obtain ⟨hplace, rfl⟩ := hr.entry_unique (p := .bucket k)
        (q := .bucket (slotOf s.lastTick)) he he' (hid.trans hid'.symm)
      have hlt := (hkept (Place.bucket.inj hplace)).2
      omega

theorem Indexed.pass {s : State Node} (hr : Recorded s) (h : Indexed s) (now : ℤ) :
    Indexed (pass s now) := by
  have h₀ : Recorded { s with clock := now } ∧ Indexed { s with clock := now } :=
    ⟨⟨hr.ids, hr.placed, hr.origin, hr.added, hr.nextId⟩, h.congr rfl rfl rfl rfl⟩
  exact (pass_induction (I := fun t => Recorded t ∧ Indexed t) h₀ fun t ht _ =>
    ⟨ht.1.moved (sweepSlot_moved now ht.1), ht.2.sweepSlot ht.1 now⟩).1.2

theorem indexed_step {s s' : State Node} {l : Label Node} (hr : Recorded s) (h : Indexed s)
    (hs : step s l = some s') : Indexed s' := by
  cases l with
  | addTimer now delay target =>
    rw [step] at hs
    split at hs
    · cases hs
      exact h.addTimer now delay target
    · cases hs
  | insert k => exact h.insert hs
  | cancelTimer id =>
    cases hs
    exact h.cancelTimer id
  | pass now =>
    rw [step] at hs
    split at hs
    · cases hs
      exact h.pass hr now
    · cases hs
  | dispatch =>
    rw [step, dispatch] at hs
    split at hs
    · cases hs
    · cases hs
      exact h.congr rfl rfl rfl rfl
  | relink node v =>
    rw [step] at hs
    split at hs
    · cases hs
    · cases hs
      exact h.congr rfl rfl rfl rfl

/-- **The index of the wheel**, in every run. -/
theorem run_indexed {startTime : ℤ} {ls : List (Label Node)} {s : State Node}
    (hrun : StepSystem.run step (init Node startTime) ls = some s) : Recorded s ∧ Indexed s :=
  StepSystem.run_invariant (I := fun s => Recorded s ∧ Indexed s)
    (fun _ _ _ h hs => ⟨recorded_step h.1 hs, indexed_step h.1 h.2 hs⟩)
    ⟨Recorded.init startTime, Indexed.init startTime⟩ hrun

end Run

end TimerKeeper
