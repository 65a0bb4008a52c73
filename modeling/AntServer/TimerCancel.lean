/-
When a cancellation is final.

`CancelTimer` finds an entry through `task_map_`, which a pass has left behind as
soon as it takes the entry out of the wheel.  Until the dispatch loop comes to its
node the timer is then in the expired list, where `CancelTimer` does not look: it
returns, and the node is scheduled all the same.

* `CancelInTime` — no `CancelTimer` comes in between (or before the insertion);
* `cancel_final` — then no canceled timer is dispatched, and its node is not
  scheduled again unless it is added again;
* `canceled_timer_dispatched` — a run with such a `CancelTimer`.
-/
import AntServer.TimerDispatch

namespace TimerKeeper

variable {Node : Type*}

/-- **The condition**: `CancelTimer` finds the timer neither in the expired list,
extracted and still to be dispatched, nor in a call of `add_internal` that has not
inserted it yet. -/
def CancelInTime (s : State Node) : Label Node → Prop
  | .cancelTimer id => id ∉ s.idsAt .expired ∧ id ∉ s.idsAt .adding
  | _ => True

instance (s : State Node) (l : Label Node) : Decidable (CancelInTime s l) := by
  unfold CancelInTime
  split <;> infer_instance

/-- The node that a call adds. -/
def Label.node? : Label Node → Option Node
  | .addTimer _ _ target => target.node?
  | _ => none

/-! ### Pending nodes -/

/-- Moving entries, none of them to the executor, leaves the same nodes pending. -/
theorem Moved.within_pending {s s' : State Node} {ps : List Place} (hm : Moved ps s s')
    (hps : Place.handed ∉ ps) {node : Node} :
    Within s'.pendingAt node ↔ Within s.pendingAt node := by
  refine within_exchange ?_ fun p hp => by rw [State.pendingAt, State.pendingAt, hm.rest p hp]
  rw [flatMap_pendingAt s hps, flatMap_pendingAt s' hps]
  exact hm.perm.filterMap _

theorem within_pending_cancelTimer {s : State Node} {id : ℕ} {node : Node}
    (h : Within (cancelTimer s id).pendingAt node) : Within s.pendingAt node := by
  rcases cancelTimer_cases s id with heq | ⟨-, heq⟩
  · rwa [heq] at h
  · rw [heq] at h
    obtain ⟨p, hp⟩ := h
    cases p with
    | bucket k => exact ⟨.bucket k, (filterMap_pendingNode_mark id (s.buckets k)).subset hp⟩
    | _ => exact ⟨_, hp⟩

/-- A canceled entry leaves its node to whoever wants to use it. -/
theorem not_pending_cancelTimer {s : State Node} (hr : Recorded s) (hl : Linked s) {k : ℕ}
    {e : TimerEntry Node} (he : e ∈ s.buckets k) (hc : e.canceled = false) {node : Node}
    (hn : e.taskNode = some node) : ¬ Within (cancelTimer s e.id).pendingAt node := by
  have hpos := (hr.added _ (hr.origin e ⟨.bucket k, he⟩)).1
  have hmap : s.taskMap e.id = true := hl.mapped k e he hc
  have hpend : node ∈ s.pendingAt (.bucket k) := by
    rw [State.pendingAt, if_neg (by simp)]
    exact List.mem_filterMap.mpr ⟨e, he, by rw [pendingNode, hc]; exact hn⟩
  rintro ⟨p, hp⟩
  have hpk : p = .bucket k := by
    obtain ⟨q, hq⟩ := within_pending_cancelTimer ⟨p, hp⟩
    by_contra hne
    -- other places than the buckets are not touched
    have hp' : node ∈ s.pendingAt p := by
      rw [cancelTimer, if_neg (Nat.pos_iff_ne_zero.mp hpos), if_pos hmap] at hp
      cases p with
      | bucket j => exact (filterMap_pendingNode_mark e.id (s.buckets j)).subset hp
      | _ => exact hp
    exact hne (hl.pending.eq_of_mem hp' hpend)
  subst hpk
  rw [cancelTimer, if_neg (Nat.pos_iff_ne_zero.mp hpos), if_pos hmap, State.pendingAt,
    if_neg (by simp)] at hp
  obtain ⟨x, hx, hxn⟩ := List.mem_filterMap.mp hp
  obtain ⟨e', he', rfl⟩ := List.mem_map.mp hx
  have hlive : (mark e.id e').canceled = false := by
    by_contra hne
    rw [Bool.not_eq_false] at hne
    rw [pendingNode, if_pos hne] at hxn
    cases hxn
  obtain ⟨hid, hmark⟩ := mark_of_live hlive
  rw [hmark] at hxn
  -- two entries of the bucket with this node pending
  have hnodup := hl.pending.nodup (.bucket k)
  rw [State.pendingAt, if_neg (by simp), List.Nodup, List.pairwise_filterMap] at hnodup
  have hne : e' ≠ e := fun h => hid (congrArg TimerEntry.id h)
  have hsymm : Std.Symm fun a b : TimerEntry Node =>
      ∀ x, pendingNode a = some x → ∀ y, pendingNode b = some y → x ≠ y :=
    ⟨fun a b h x hx y hy hxy => h y hy x hx hxy.symm⟩
  have hen : pendingNode e = some node := by rw [pendingNode, hc]; exact hn
  exact hnodup.forall he' he hne node hxn node hen rfl

section Run

variable [DecidableEq Node]

/-- A node that is not pending stays so until it is added. -/
theorem not_pending_step {s s' : State Node} {l : Label Node} {node : Node} (hr : Recorded s)
    (hn : ¬ Within s.pendingAt node) (hl : l.node? ≠ some node) (hs : step s l = some s') :
    ¬ Within s'.pendingAt node := by
  cases l with
  | addTimer now delay target =>
    rw [step] at hs
    split at hs
    · cases hs
      rcases addTimer_cases s now delay target with heq | ⟨node', owns, hnode, heq⟩
      · rwa [heq]
      rw [heq]
      rintro ⟨p, hp⟩
      cases p with
      | adding =>
        simp only [addInternal, State.pendingAt, State.entriesAt, reduceCtorEq, if_false,
          List.map_append, List.filterMap_append, List.mem_append] at hp
        rcases hp with hp | hp
        · exact hn ⟨.adding, hp⟩
        · obtain ⟨x, hx, hxn⟩ := List.mem_filterMap.mp hp
          obtain rfl := List.mem_singleton.mp hx
          exact hl (hnode.trans hxn)
      | _ => exact hn ⟨_, hp⟩
    · cases hs
  | insert k =>
    obtain ⟨entry, slot, -, hmoved, -⟩ := insert_moved hs
    rwa [hmoved.within_pending (by simp)]
  | cancelTimer id =>
    cases hs
    exact fun h => hn (within_pending_cancelTimer h)
  | pass now =>
    rw [step] at hs
    split at hs
    · cases hs
      have h₀ : Recorded { s with clock := now } ∧
          ¬ Within ({ s with clock := now } : State Node).pendingAt node :=
        ⟨⟨hr.ids, hr.placed, hr.origin, hr.added, hr.nextId⟩, hn⟩
      refine (pass_induction (I := fun t => Recorded t ∧ ¬ Within t.pendingAt node) h₀
        fun t ht _ => ?_).1.2
      have hmoved := sweepSlot_moved now ht.1
      exact ⟨ht.1.moved hmoved, by rw [hmoved.within_pending (by simp)]; exact ht.2⟩
    · cases hs
  | dispatch =>
    rw [step, dispatch] at hs
    split at hs
    · cases hs
    · cases hs
      rintro ⟨p, hp⟩
      cases p with
      | expired =>
        refine hn ⟨.expired, ?_⟩
        simp only [State.pendingAt, State.entriesAt, reduceCtorEq, if_false] at hp ⊢
        exact (((List.tail_sublist _).map _).filterMap _).subset hp
      | handed => exact absurd hp List.not_mem_nil
      | _ => exact hn ⟨_, hp⟩
  | relink node' v =>
    rw [step] at hs
    split at hs
    · cases hs
    · cases hs
      exact hn

/-- Only a pending node is scheduled. -/
theorem handed_step {s s' : State Node} {l : Label Node} {node : Node} (hl : Linked s)
    (hn : ¬ Within s.pendingAt node) (hs : step s l = some s') :
    s'.handed.count node = s.handed.count node := by
  cases l with
  | addTimer now delay target =>
    rw [step] at hs
    split at hs
    · cases hs
      rcases addTimer_cases s now delay target with heq | ⟨node', owns, -, heq⟩
      · rw [heq]
      · rw [heq]
        rfl
    · cases hs
  | insert k =>
    obtain ⟨entry, slot, -, -, rfl⟩ := insert_moved hs
    rfl
  | cancelTimer id =>
    cases hs
    rcases cancelTimer_cases s id with heq | ⟨-, heq⟩
    · rw [heq]
    · rw [heq]
  | pass now =>
    rw [step] at hs
    split at hs
    · cases hs
      have h₀ : ({ s with clock := now } : State Node).handed = s.handed := rfl
      have hkeep : (pass s now).handed = s.handed := by
        refine (pass_induction (I := fun t => t.handed = s.handed) h₀ fun t ht _ => ?_).1
        obtain ⟨m, n, hd, -, heq⟩ := sweepSlot_eq now t
        rw [heq]
        exact ht
      rw [hkeep]
    · cases hs
  | dispatch =>
    obtain ⟨x, xs, hxs, -, rfl⟩ := dispatch_eq hl hs
    have hpend : x.node ∈ s.pendingAt .expired := by
      rw [pendingAt_expired fun y hy =>
        ⟨(hl.extracted y (List.mem_append_left _ hy)).1,
          (hl.extracted y (List.mem_append_left _ hy)).2.1⟩, hxs]
      exact List.mem_cons_self
    have hne : x.node ≠ node := fun h => hn ⟨.expired, h ▸ hpend⟩
    show (s.handed ++ [x.node]).count node = _
    rw [List.count_append, List.count_singleton, if_neg (by simpa using hne), Nat.add_zero]
  | relink node' v =>
    rw [step] at hs
    split at hs
    · cases hs
    · cases hs
      rfl

/-! ### Cancellation -/

/-- A timer that is added and neither dispatched nor in one of the two gaps is in
the wheel or reaped; `CancelTimer` sees to it that it stays out of the executor. -/
theorem gone_of_cancelInTime {s : State Node} (hr : Recorded s) (hl : Linked s) {id : ℕ}
    (hin : Within s.idsAt id) (hhanded : id ∉ s.idsAt .handed)
    (htime : CancelInTime s (.cancelTimer id)) : Gone id (cancelTimer s id) := by
  obtain ⟨p, hp⟩ := hin
  cases p with
  | adding => exact absurd hp htime.2
  | expired => exact absurd hp htime.1
  | handed => exact absurd hp hhanded
  | bucket k => exact gone_cancelTimer hr hl hp
  | reaped =>
    have hgone : Gone id s := Or.inl hp
    exact Gone.step hgone (l := .cancelTimer id) rfl

/-- **Cancellation is final** in every run in which no `CancelTimer` falls between
the extraction of its timer and the dispatch of it, or before the insertion: a
timer canceled before it is dispatched is never dispatched; and the node of an
entry that the call has canceled is not scheduled again, as long as it is not added
again. -/
theorem cancel_final (startTime : ℤ) (ls : List (Label Node)) (s : State Node)
    (hrun : StepSystem.run step (init Node startTime) ls = some s)
    (hfresh : StepSystem.Meets step FreshNode (init Node startTime) ls)
    (htime : StepSystem.Meets step CancelInTime (init Node startTime) ls) :
    ∀ pre id post m, ls = pre ++ .cancelTimer id :: post →
      StepSystem.run step (init Node startTime) pre = some m →
      (∀ e ∈ m.added, e.id = id → id ∉ m.idsAt .handed → id ∉ s.idsAt .handed) ∧
      (∀ k, ∀ e ∈ m.buckets k, e.id = id → e.canceled = false → ∀ node,
        e.taskNode = some node → (∀ l ∈ post, l.node? ≠ some node) →
        s.handed.count node = m.handed.count node) := by
  rintro pre id post m rfl hpre
  obtain ⟨m', hm', hpost⟩ := StepSystem.run_append.mp hrun
  obtain rfl : m = m' := Option.some.inj (hpre.symm.trans hm')
  obtain ⟨hr, hl⟩ := run_recorded_linked hfresh.append_left hpre
  obtain ⟨hrs, -⟩ := run_recorded_linked hfresh hrun
  obtain ⟨c, hc, hrest⟩ := StepSystem.run_cons.mp hpost
  cases hc
  have htimem : CancelInTime m (.cancelTimer id) := (htime.append_right hpre).1
  constructor
  · intro e he hid hhanded
    have hgone : Gone id (cancelTimer m id) :=
      gone_of_cancelInTime hr hl (hid ▸ hr.placed e he) hhanded htimem
    exact ((StepSystem.run_invariant (fun _ _ _ h hs => Gone.step h hs) hgone hrest).not_extracted
      hrs).2
  · rintro k e he rfl hlive node hn hnever
    have hfresh' : StepSystem.Meets step FreshNode (cancelTimer m e.id) post :=
      (hfresh.append_right hpre).2 _ rfl
    have hlabels : StepSystem.Meets step (fun _ l => l.node? ≠ some node)
        (cancelTimer m e.id) post := StepSystem.Meets.of_forall hnever
    have hsame : (cancelTimer m e.id).handed.count node = m.handed.count node := by
      rcases cancelTimer_cases m e.id with heq | ⟨-, heq⟩
      · rw [heq]
      · rw [heq]
    rw [← hsame]
    refine (StepSystem.run_invariant_of_meets
      (I := fun t => Recorded t ∧ Linked t ∧ ¬ Within t.pendingAt node ∧
        t.handed.count node = (cancelTimer m e.id).handed.count node)
      ?_ ⟨hr.cancelTimer e.id, hl.cancelTimer e.id, not_pending_cancelTimer hr hl he hlive hn, rfl⟩
      (hfresh'.and hlabels) hrest).2.2.2
    rintro t l t' ⟨hrt, hlt, hnt, hcount⟩ ⟨hfr, hlab⟩ hs
    exact ⟨recorded_step hrt hs, linked_step hrt hlt hfr hs, not_pending_step hrt hnt hlab hs,
      (handed_step hlt hnt hs).trans hcount⟩

end Run

/-- The second timer of `cancelSecond` is canceled while it is in the wheel. -/
theorem cancel_final_cancelSecond :
    ∃ s, StepSystem.run step (init ℕ 0) cancelSecond = some s ∧ s.handed = [7] ∧
      2 ∉ s.idsAt .handed := by
  obtain ⟨s, hrun, hhanded⟩ : ∃ s, StepSystem.run step (init ℕ 0) cancelSecond = some s ∧
      s.handed = [7] := StepSystem.exists_of_run_any (by decide +kernel)
  obtain ⟨m, hpre, ⟨e, he, hid⟩, hm⟩ :
      ∃ m, StepSystem.run step (init ℕ 0) (cancelSecond.take 4) = some m ∧
      (∃ e ∈ m.added, e.id = 2) ∧ 2 ∉ m.idsAt .handed :=
    StepSystem.exists_of_run_any (by decide +kernel)
  have hfinal := cancel_final 0 cancelSecond s hrun cancelSecond_freshNode (by decide +kernel)
    (cancelSecond.take 4) 2 _ m rfl hpre
  exact ⟨s, hrun, hhanded, hfinal.1 e he hid hm⟩

/-- **A canceled timer is dispatched.**  A pass extracts the timer; `CancelTimer`
comes before the dispatch loop, finds nothing in `task_map_` and returns; then the
node is scheduled. -/
theorem canceled_timer_dispatched :
    ∃ m s, StepSystem.run step (init ℕ 0)
        [.addTimer 0 5 (.taskNode (some 7)), .insert 0, .pass 20000000, .cancelTimer 1] = some m ∧
      m.handed = [] ∧ StepSystem.run step m [.dispatch] = some s ∧ s.handed = [7] ∧
      1 ∈ s.idsAt .handed := by
  obtain ⟨m, hm, hnil, hany⟩ : ∃ m, StepSystem.run step (init ℕ 0)
      [.addTimer 0 5 (.taskNode (some 7)), .insert 0, .pass 20000000, .cancelTimer 1] = some m ∧
      m.handed = [] ∧ ((StepSystem.run step m [.dispatch]).any fun s =>
        s.handed = [7] ∧ 1 ∈ s.idsAt .handed) = true :=
    StepSystem.exists_of_run_any (by decide +kernel)
  obtain ⟨s, hs, hhanded, hid⟩ := StepSystem.exists_of_run_any hany
  exact ⟨m, s, hm, hnil, hs, hhanded, hid⟩

end TimerKeeper
