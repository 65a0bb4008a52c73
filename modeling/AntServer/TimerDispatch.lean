/-
Which timers are dispatched.

`TimerPlaces` says that every timer is in one place; here is what decides which
one.  An entry is canceled, and then reaped, only by a `CancelTimer` of its id
(`Explained`); an entry marked by `CancelTimer` is never extracted (`Gone`).

* `dispatch_safe` — a node is dispatched once, not before its time, and not
  after a `CancelTimer` that came when the entry was in the wheel; it is dropped
  only by a `CancelTimer`;
* `cancel_before_insert_dispatched` — a `CancelTimer` that comes before the
  insertion has no effect.
-/
import AntServer.TimerPlaces

namespace TimerKeeper

variable {Node : Type*}

/-! ### Why an entry is where it is -/

/-- An entry is canceled, and then reaped, only for ids with `P`. -/
structure MarkedBy (P : ℕ → Prop) (s : State Node) : Prop where
  adding : ∀ x ∈ s.adding, x.1.canceled = false
  marked : ∀ k, ∀ e ∈ s.buckets k, e.canceled = true → P e.id
  reaped : ∀ e ∈ s.reaped, P e.id

/-- The labels `ls` account for every mark and every extraction. -/
structure Explained (ls : List (Label Node)) (s : State Node) : Prop where
  adding : ∀ x ∈ s.adding, x.1.canceled = false
  marked : ∀ k, ∀ e ∈ s.buckets k, e.canceled = true → .cancelTimer e.id ∈ ls
  reaped : ∀ e ∈ s.reaped, .cancelTimer e.id ∈ ls
  extracted : ∀ x ∈ s.expiring ++ s.dispatched, .pass x.now ∈ ls

section Marked

variable {P Q : ℕ → Prop}

theorem MarkedBy.init (startTime : ℤ) : MarkedBy P (init Node startTime) where
  adding := fun _ hx => absurd hx List.not_mem_nil
  marked := fun _ _ he => absurd he List.not_mem_nil
  reaped := fun _ he => absurd he List.not_mem_nil

theorem MarkedBy.mono {s : State Node} (h : MarkedBy P s) (hPQ : ∀ id, P id → Q id) :
    MarkedBy Q s where
  adding := h.adding
  marked := fun k e he hc => hPQ _ (h.marked k e he hc)
  reaped := fun e he => hPQ _ (h.reaped e he)

theorem MarkedBy.insert {s s' : State Node} {k : ℕ} (h : MarkedBy P s)
    (hs : insert s k = some s') : MarkedBy P s' := by
  obtain ⟨entry, slot, hmem, -, rfl⟩ := insert_moved hs
  refine ⟨fun x hx => h.adding x (List.mem_of_mem_eraseIdx hx), fun j e he hc => ?_, h.reaped⟩
  by_cases hj : j = slot
  · subst hj
    simp only [Function.update_self] at he
    rcases List.mem_cons.mp he with rfl | he
    · rw [h.adding _ hmem] at hc
      cases hc
    · exact h.marked j e he hc
  · simp only [Function.update_of_ne hj] at he
    exact h.marked j e he hc

theorem MarkedBy.cancelTimer {s : State Node} {id : ℕ} (h : MarkedBy P s)
    (hid : s.taskMap id = true → P id) : MarkedBy P (cancelTimer s id) := by
  rcases cancelTimer_cases s id with heq | ⟨hmap, heq⟩
  · rw [heq]
    exact h
  rw [heq]
  refine ⟨h.adding, fun k e he hc => ?_, h.reaped⟩
  obtain ⟨e₀, he₀, rfl⟩ := List.mem_map.mp he
  rw [mark_id]
  by_cases heid : e₀.id = id
  · exact heid ▸ hid hmap
  · rw [mark, if_neg heid] at hc
    exact h.marked k e₀ he₀ hc

theorem MarkedBy.addTimer {s : State Node} (h : MarkedBy P s) (now delay : ℤ)
    (target : Target Node) : MarkedBy P (addTimer s now delay target) := by
  rcases addTimer_cases s now delay target with heq | ⟨node, owns, -, heq⟩
  · rw [heq]
    exact h
  rw [heq]
  refine ⟨fun x hx => ?_, h.marked, h.reaped⟩
  rcases List.mem_append.mp hx with hx | hx
  · exact h.adding x hx
  · rw [List.mem_singleton.mp hx]

variable [DecidableEq Node]

theorem MarkedBy.sweepSlot {s : State Node} (h : MarkedBy P s) (now : ℤ) :
    MarkedBy P (sweepSlot now s) := by
  obtain ⟨m, n, hd, -, heq⟩ := sweepSlot_eq now s
  refine ⟨?_, fun k e he => h.marked k e (mem_sweepSlot.mp he).1, fun e he => ?_⟩
  · rw [heq]
    exact h.adding
  · rw [heq] at he
    rcases List.mem_append.mp he with he | he
    · exact h.reaped e he
    · obtain ⟨he, hc⟩ := List.mem_filter.mp he
      exact h.marked _ e he hc

/-- A mark comes only from a `CancelTimer` that finds the id in `task_map_`. -/
theorem MarkedBy.step {s s' : State Node} {l : Label Node} (h : MarkedBy P s)
    (hcancel : ∀ id, l = .cancelTimer id → s.taskMap id = true → P id)
    (hs : step s l = some s') : MarkedBy P s' := by
  cases l with
  | addTimer now delay target =>
    rw [TimerKeeper.step] at hs
    split at hs
    · cases hs
      exact h.addTimer now delay target
    · cases hs
  | insert k => exact h.insert hs
  | cancelTimer id =>
    cases hs
    exact h.cancelTimer (hcancel id rfl)
  | pass now =>
    rw [TimerKeeper.step] at hs
    split at hs
    · cases hs
      have h₀ : MarkedBy P { s with clock := now } := ⟨h.adding, h.marked, h.reaped⟩
      exact (pass_induction h₀ fun t ht _ => ht.sweepSlot now).1
    · cases hs
  | dispatch =>
    rw [TimerKeeper.step, dispatch] at hs
    split at hs
    · cases hs
    · cases hs
      exact ⟨h.adding, h.marked, h.reaped⟩
  | relink node v =>
    rw [TimerKeeper.step] at hs
    split at hs
    · cases hs
    · cases hs
      exact ⟨h.adding, h.marked, h.reaped⟩

end Marked

section Run

variable [DecidableEq Node]

theorem dispatch_extracted {s s' : State Node} (hs : dispatch s = some s') :
    s'.expiring ++ s'.dispatched ⊆ s.expiring ++ s.dispatched := by
  rw [dispatch] at hs
  split at hs
  · cases hs
  · cases hs
    intro x hx
    cases hexp : s.expiring with
    | nil => simpa [hexp] using hx
    | cons y ys =>
      simp only [hexp, List.tail_cons, List.head?_cons, Option.toList_some, List.mem_append,
        List.mem_singleton] at hx
      simp only [List.cons_append, List.mem_cons, List.mem_append]
      tauto

/-- Only a pass extracts. -/
theorem extracted_step {s s' : State Node} {l : Label Node} (hs : step s l = some s') :
    ∀ x ∈ s'.expiring ++ s'.dispatched, x ∈ s.expiring ++ s.dispatched ∨ l = .pass x.now := by
  cases l with
  | addTimer now delay target =>
    rw [step] at hs
    split at hs
    · cases hs
      rcases addTimer_cases s now delay target with heq | ⟨node, owns, -, heq⟩
      · rw [heq]
        exact fun x hx => Or.inl hx
      · rw [heq]
        exact fun x hx => Or.inl hx
    · cases hs
  | insert k =>
    obtain ⟨entry, slot, -, -, rfl⟩ := insert_moved hs
    exact fun x hx => Or.inl hx
  | cancelTimer id =>
    cases hs
    rcases cancelTimer_cases s id with heq | ⟨-, heq⟩
    · rw [heq]
      exact fun x hx => Or.inl hx
    · rw [heq]
      exact fun x hx => Or.inl hx
  | pass now =>
    rw [step] at hs
    split at hs
    · cases hs
      have h₀ : ∀ x ∈ ({ s with clock := now } : State Node).expiring ++
          ({ s with clock := now } : State Node).dispatched,
          x ∈ s.expiring ++ s.dispatched ∨ x.now = now := fun x hx => Or.inl hx
      have hpass : ∀ x ∈ (pass s now).expiring ++ (pass s now).dispatched,
          x ∈ s.expiring ++ s.dispatched ∨ x.now = now := by
        refine (pass_induction (I := fun t => ∀ x ∈ t.expiring ++ t.dispatched,
          x ∈ s.expiring ++ s.dispatched ∨ x.now = now) h₀ fun t ht _ x hx => ?_).1
        obtain ⟨m, n, hd, -, heq⟩ := sweepSlot_eq now t
        rw [heq] at hx
        simp only [List.mem_append, List.mem_reverse, List.mem_filterMap, or_assoc] at hx
        rcases hx with ⟨e, -, hx⟩ | hx
        · exact Or.inr (extraction_eq_some hx).2.1
        · exact ht x (List.mem_append.mpr hx)
      exact fun x hx => (hpass x hx).imp_right fun h => by rw [h]
    · cases hs
  | dispatch => exact fun x hx => Or.inl (dispatch_extracted hs hx)
  | relink node v =>
    rw [step] at hs
    split at hs
    · cases hs
    · cases hs
      exact fun x hx => Or.inl hx

theorem Explained.step {ls : List (Label Node)} {s s' : State Node} {l : Label Node}
    (h : Explained ls s) (hs : step s l = some s') : Explained (ls ++ [l]) s' := by
  have hl : l ∈ ls ++ [l] := List.mem_append_right ls List.mem_cons_self
  have hmarked : MarkedBy (fun id => .cancelTimer id ∈ ls ++ [l]) s :=
    ⟨h.adding, fun k e he hc => List.mem_append_left [l] (h.marked k e he hc),
      fun e he => List.mem_append_left [l] (h.reaped e he)⟩
  have hmarked' := hmarked.step (fun id hid _ => hid ▸ hl) hs
  refine ⟨hmarked'.adding, hmarked'.marked, hmarked'.reaped, fun x hx => ?_⟩
  rcases extracted_step hs x hx with hx | hpass
  · exact List.mem_append_left [l] (h.extracted x hx)
  · exact hpass ▸ hl

theorem run_explained {startTime : ℤ} {ls : List (Label Node)} {s : State Node}
    (hrun : StepSystem.run step (init Node startTime) ls = some s) : Explained ls s := by
  have hinit : MarkedBy (fun id => .cancelTimer id ∈ ([] : List (Label Node)))
      (init Node startTime) := MarkedBy.init startTime
  exact StepSystem.run_induction ⟨hinit.adding, hinit.marked, hinit.reaped,
    fun x hx => absurd hx List.not_mem_nil⟩ (fun _ _ _ _ h hs => h.step hs) hrun

/-- A `CancelTimer` of this id has found it in `task_map_`. -/
def CanceledInWheel (startTime : ℤ) (ls : List (Label Node)) (id : ℕ) : Prop :=
  ∃ pre post m, ls = pre ++ .cancelTimer id :: post ∧
    StepSystem.run step (init Node startTime) pre = some m ∧ m.taskMap id = true

theorem run_markedBy {startTime : ℤ} {ls : List (Label Node)} {s : State Node}
    (hrun : StepSystem.run step (init Node startTime) ls = some s) :
    MarkedBy (CanceledInWheel startTime ls) s := by
  refine (StepSystem.run_induction (R := fun ls s =>
    StepSystem.run step (init Node startTime) ls = some s ∧
      MarkedBy (CanceledInWheel startTime ls) s)
    ⟨rfl, MarkedBy.init startTime⟩ ?_ hrun).2
  rintro ls s l s' ⟨hrun, h⟩ hs
  have hmono : ∀ id, CanceledInWheel startTime ls id →
      CanceledInWheel startTime (ls ++ [l]) id := by
    rintro id ⟨pre, post, m, rfl, hpre, hmap⟩
    exact ⟨pre, post ++ [l], m, by simp, hpre, hmap⟩
  refine ⟨StepSystem.run_concat.mpr ⟨s, hrun, hs⟩, (h.mono hmono).step ?_ hs⟩
  rintro id rfl hmap
  exact ⟨ls, [], s, rfl, hrun, hmap⟩

end Run

/-! ### Canceled entries -/

/-- The entry with this id is marked in its bucket, or reaped. -/
def Gone (id : ℕ) (s : State Node) : Prop :=
  id ∈ s.idsAt .reaped ∨ ∃ k, ∃ e ∈ s.buckets k, e.id = id ∧ e.canceled = true

/-- `CancelTimer` of an id whose entry is in the wheel. -/
theorem gone_cancelTimer {id k : ℕ} {s : State Node} (hr : Recorded s) (hl : Linked s)
    (hid : id ∈ s.idsAt (.bucket k)) : Gone id (cancelTimer s id) := by
  obtain ⟨e, he, rfl⟩ := List.mem_map.mp hid
  have hpos := (hr.added _ (hr.origin e ⟨.bucket k, he⟩)).1
  by_cases hc : e.canceled = true
  · rcases cancelTimer_cases s e.id with heq | ⟨-, heq⟩
    · rw [heq]
      exact Or.inr ⟨k, e, he, rfl, hc⟩
    · rw [heq]
      exact Or.inr ⟨k, mark e.id e, List.mem_map_of_mem he, mark_id e.id e, by simp [mark]⟩
  · have hmap : s.taskMap e.id = true := hl.mapped k e he (by simpa using hc)
    rw [cancelTimer, if_neg (Nat.pos_iff_ne_zero.mp hpos), if_pos hmap]
    exact Or.inr ⟨k, mark e.id e, List.mem_map_of_mem he, mark_id e.id e, by simp [mark]⟩

theorem Gone.not_extracted {id : ℕ} {s : State Node} (h : Gone id s) (hr : Recorded s) :
    id ∉ s.idsAt .expired ∧ id ∉ s.idsAt .handed := by
  obtain ⟨p, hp, hexp, hhand⟩ : ∃ p, id ∈ s.idsAt p ∧ p ≠ .expired ∧ p ≠ .handed := by
    rcases h with h | ⟨k, e, he, rfl, -⟩
    · exact ⟨.reaped, h, by simp, by simp⟩
    · exact ⟨.bucket k, List.mem_map_of_mem he, by simp, by simp⟩
  exact ⟨fun h' => hexp (hr.ids.eq_of_mem hp h'), fun h' => hhand (hr.ids.eq_of_mem hp h')⟩

section Run

variable [DecidableEq Node]

theorem Gone.sweepSlot {id : ℕ} {s : State Node} (h : Gone id s) (now : ℤ) :
    Gone id (sweepSlot now s) := by
  obtain ⟨m, n, hd, -, heq⟩ := sweepSlot_eq now s
  have hreaped : (TimerKeeper.sweepSlot now s).idsAt .reaped = s.idsAt .reaped ++
      ((s.buckets (slotOf s.lastTick)).filter TimerEntry.canceled).map TimerEntry.id := by
    rw [heq]
    simp only [State.idsAt, State.entriesAt, List.map_append]
  rcases h with h | ⟨k, e, he, hid, hc⟩
  · exact Or.inl (hreaped ▸ List.mem_append_left _ h)
  · by_cases hk : k = slotOf s.lastTick
    · subst hk
      refine Or.inl (hreaped ▸ List.mem_append_right _ ?_)
      exact hid ▸ List.mem_map_of_mem (List.mem_filter.mpr ⟨he, hc⟩)
    · exact Or.inr ⟨k, e, mem_sweepSlot.mpr ⟨he, fun h => absurd h hk⟩, hid, hc⟩

theorem Gone.step {id : ℕ} {s s' : State Node} {l : Label Node} (h : Gone id s)
    (hs : step s l = some s') : Gone id s' := by
  cases l with
  | addTimer now delay target =>
    rw [TimerKeeper.step] at hs
    split at hs
    · cases hs
      rcases addTimer_cases s now delay target with heq | ⟨node, owns, -, heq⟩
      · rw [heq]
        exact h
      · rw [heq]
        exact h
    · cases hs
  | insert k =>
    obtain ⟨entry, slot, -, -, rfl⟩ := insert_moved hs
    rcases h with h | ⟨j, e, he, hid, hc⟩
    · exact Or.inl h
    · refine Or.inr ⟨j, e, ?_, hid, hc⟩
      by_cases hj : j = slot
      · subst hj
        simp only [Function.update_self]
        exact List.mem_cons_of_mem entry he
      · simp only [Function.update_of_ne hj]
        exact he
  | cancelTimer id' =>
    cases hs
    rcases cancelTimer_cases s id' with heq | ⟨-, heq⟩
    · rw [heq]
      exact h
    · rw [heq]
      rcases h with h | ⟨j, e, he, hid, hc⟩
      · exact Or.inl h
      · refine Or.inr ⟨j, mark id' e, List.mem_map_of_mem he, by rw [mark_id, hid], ?_⟩
        rw [mark]
        split
        · rfl
        · exact hc
  | pass now =>
    rw [TimerKeeper.step] at hs
    split at hs
    · cases hs
      have h₀ : Gone id { s with clock := now } := h
      exact (pass_induction h₀ fun t ht _ => ht.sweepSlot now).1
    · cases hs
  | dispatch =>
    rw [TimerKeeper.step, dispatch] at hs
    split at hs
    · cases hs
    · cases hs
      exact h
  | relink node v =>
    rw [TimerKeeper.step] at hs
    split at hs
    · cases hs
    · cases hs
      exact h

/-- **Dispatch safety.**  In every run that adds no node twice at a time:
every timer added is in exactly one place, once; the expired list is the chain of
the nodes in it, and the nodes handed to the executor are those of the timers
dispatched; a timer is extracted with the node it was added with by a pass that
does not come before its time; a `CancelTimer` that finds its entry in the wheel
keeps it from being extracted; and only a `CancelTimer` of its id drops it. -/
theorem dispatch_safe (startTime : ℤ) (ls : List (Label Node)) (s : State Node)
    (hrun : StepSystem.run step (init Node startTime) ls = some s)
    (hfresh : StepSystem.Meets step FreshNode (init Node startTime) ls) :
    (∀ p, (s.idsAt p).Nodup) ∧ (∀ e ∈ s.added, ∃! p, e.id ∈ s.idsAt p) ∧
    Chain s.next s.expiredHead (s.expiring.map Extraction.node) ∧
    s.handed = s.dispatched.map Extraction.node ∧
    (∀ x ∈ s.expiring ++ s.dispatched, x.entry ∈ s.added ∧ x.entry.taskNode = some x.node ∧
      .pass x.now ∈ ls ∧ x.entry.expireAt ≤ x.now) ∧
    (∀ pre post id m k, ls = pre ++ .cancelTimer id :: post →
      StepSystem.run step (init Node startTime) pre = some m → id ∈ m.idsAt (.bucket k) →
      id ∉ s.idsAt .expired ∧ id ∉ s.idsAt .handed) ∧
    (∀ e ∈ s.added, .cancelTimer e.id ∉ ls → e.id ∉ s.idsAt .reaped) := by
  obtain ⟨hr, hl⟩ := run_recorded_linked hfresh hrun
  have hwhy := run_explained hrun
  refine ⟨hr.ids.nodup, fun e he => hr.ids.existsUnique (hr.placed e he), hl.chain, hl.handed,
    fun x hx => ?_, ?_, fun e _ hnever hreaped => ?_⟩
  · obtain ⟨hc, hn, hdue⟩ := hl.extracted x hx
    have hat : Within s.entriesAt x.entry := by
      rcases List.mem_append.mp hx with hx | hx
      · exact ⟨.expired, List.mem_map_of_mem hx⟩
      · exact ⟨.handed, List.mem_map_of_mem hx⟩
    have horigin := hr.origin x.entry hat
    rw [← hc] at horigin
    exact ⟨horigin, hn, hwhy.extracted x hx, hdue⟩
  · rintro pre post id m k rfl hpre hid
    obtain ⟨m', hm', hpost⟩ := StepSystem.run_append.mp hrun
    obtain rfl : m = m' := Option.some.inj (hpre.symm.trans hm')
    obtain ⟨hrm, hlm⟩ := run_recorded_linked hfresh.append_left hpre
    obtain ⟨c, hc, hrest⟩ := StepSystem.run_cons.mp hpost
    cases hc
    have hgone := StepSystem.run_invariant (fun _ _ _ h hs => Gone.step h hs)
      (gone_cancelTimer hrm hlm hid) hrest
    exact hgone.not_extracted hr
  · obtain ⟨e', he', hid⟩ := List.mem_map.mp hreaped
    exact hnever (hid ▸ hwhy.reaped e' he')

end Run

/-- Two timers are added, the second is canceled, and both are swept. -/
def cancelSecond : List (Label ℕ) :=
  [.addTimer 0 5 (.taskNode (some 7)), .insert 0, .addTimer 1 5 (.callback 8), .insert 0,
    .cancelTimer 2, .pass 20000000, .dispatch]

theorem cancelSecond_freshNode :
    StepSystem.Meets step FreshNode (init ℕ 0) cancelSecond := by
  refine ⟨?_, fun s₁ h₁ => ⟨trivial, fun s₂ h₂ => ⟨?_, fun s₃ _ => ⟨trivial, fun s₄ _ =>
    ⟨trivial, fun s₅ _ => ⟨trivial, fun s₆ _ => ⟨trivial, fun s₇ _ => trivial⟩⟩⟩⟩⟩⟩⟩
  · rintro node - ⟨p, hp⟩
    cases p <;> exact absurd hp List.not_mem_nil
  · -- only the node 7 is pending
    rintro node hn ⟨p, hp⟩
    obtain rfl : node = 8 := (Option.some.inj hn).symm
    cases h₁
    cases h₂
    cases p with
    | bucket k =>
      have hslot : slotOf ((init ℕ 0).tick (0 + 5 * kNsPerMs)) = 0 := by decide
      simp only [State.pendingAt, State.entriesAt, reduceCtorEq, if_false, hslot] at hp
      by_cases hk : k = 0
      · subst hk
        revert hp
        decide
      · rw [Function.update_of_ne hk] at hp
        exact absurd hp List.not_mem_nil
    | _ => exact absurd hp (by decide)

/-- The second timer of `cancelSecond` is reaped, not dispatched. -/
theorem dispatch_safe_cancelSecond :
    ∃ s, StepSystem.run step (init ℕ 0) cancelSecond = some s ∧
      s.handed = [7] ∧ s.idsAt .reaped = [2] ∧ 2 ∉ s.idsAt .handed := by
  obtain ⟨s, hrun, hhanded, hreaped⟩ : ∃ s, StepSystem.run step (init ℕ 0) cancelSecond = some s ∧
      s.handed = [7] ∧ s.idsAt .reaped = [2] :=
    StepSystem.exists_of_run_any (by decide +kernel)
  refine ⟨s, hrun, hhanded, hreaped, ?_⟩
  obtain ⟨m, hpre, hm⟩ : ∃ m, StepSystem.run step (init ℕ 0) (cancelSecond.take 4) = some m ∧
      2 ∈ m.idsAt (.bucket 0) := StepSystem.exists_of_run_any (by decide +kernel)
  obtain ⟨-, -, -, -, -, hcancel, -⟩ := dispatch_safe 0 cancelSecond s hrun cancelSecond_freshNode
  exact (hcancel (cancelSecond.take 4) _ 2 m 0 rfl hpre hm).2

/-- **A `CancelTimer` that comes too early.**  The id 1 is canceled before the
timer with that id is inserted; the timer is dispatched all the same. -/
theorem cancel_before_insert_dispatched :
    ∃ s, StepSystem.run step (init ℕ 0)
        [.addTimer 0 5 (.taskNode (some 7)), .cancelTimer 1, .insert 0, .pass 20000000, .dispatch]
          = some s ∧
      1 ∈ s.idsAt .handed ∧ s.handed = [7] :=
  StepSystem.exists_of_run_any (by decide +kernel)

end TimerKeeper
