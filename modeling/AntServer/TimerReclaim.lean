/-
The wheel gives back its entries within one revolution.

An entry that is canceled, or due, stays in its bucket until a pass reaches the slot.
The passes take the ticks one after the other, so after `kWheelSlots` ticks they have been
at every slot, however the ticks are divided into passes.

* `Unswept` — where such an entry can be after some ticks: in its own bucket, and then the
  slot has not come up yet;
* `exists_tick_of_slot` — every slot comes up among `kWheelSlots` consecutive ticks;
* `reclaimed_in_revolution` — after as many ticks the entry has left the wheel, reaped or
  extracted once.
-/
import AntServer.TimerIndex

namespace TimerKeeper

variable {Node : Type*}

theorem slotOf_eq_emod {t : ℤ} (ht : 0 ≤ t) : (slotOf t : ℤ) = t % kWheelSlots := by
  rw [slotOf_eq_mod, Int.natCast_mod, Int.toNat_of_nonneg ht]

theorem slotOf_lt (t : ℤ) : slotOf t < kWheelSlots := by
  rw [slotOf_eq_mod]
  exact Nat.mod_lt _ (by decide)

/-- **Every slot comes up** among `kWheelSlots` consecutive ticks. -/
theorem exists_tick_of_slot {k : ℕ} (hk : k < kWheelSlots) {l : ℤ} (hl : 0 ≤ l) :
    ∃ t, l ≤ t ∧ t < l + kWheelSlots ∧ slotOf t = k := by
  have hpos : (0 : ℤ) < kWheelSlots := by decide
  have hfirst : 0 ≤ ((k : ℤ) - l) % kWheelSlots := Int.emod_nonneg _ hpos.ne'
  -- the first tick from `l` on that is `k` modulo the revolution
  refine ⟨l + (k - l) % kWheelSlots, by omega, ?_, ?_⟩
  · exact Int.add_lt_add_left (Int.emod_lt_of_pos _ hpos) l
  · have hmod : (l + (k - l) % kWheelSlots) % kWheelSlots = k := by
      rw [Int.add_emod_emod, add_sub_cancel]
      exact Int.emod_eq_of_lt (Int.natCast_nonneg k) (Int.ofNat_lt.mpr hk)
    exact Int.ofNat.inj ((slotOf_eq_emod (by omega)).trans hmod)

/-- The clock value that a step reads. -/
def Label.now? : Label Node → Option ℤ
  | .addTimer now _ _ => some now
  | .pass now => some now
  | _ => none

/-- The entry `id` was in bucket `k` when `last_tick_` was `l`; it is canceled, or due at
`clock`.  If it is still in the wheel then its slot has not come up since. -/
structure Unswept (l clock : ℤ) (k id : ℕ) (s : State Node) : Prop where
  start : 0 ≤ l
  lastTick : l ≤ s.lastTick
  known : id < s.nextId
  added : id ∈ s.added.map TimerEntry.id
  inserted : id ∉ s.idsAt .adding
  bucket : ∀ j, ∀ x ∈ s.buckets j, x.id = id →
    j = k ∧ (x.canceled = true ∨ x.expireAt ≤ clock) ∧
      ∀ t, l ≤ t → t < s.lastTick → slotOf t ≠ k

section Step

variable [DecidableEq Node] {l clock : ℤ} {k id : ℕ} {s s' : State Node}

/-- A tick takes the entry out, or is a tick of another slot. -/
theorem Unswept.sweepSlot (h : Unswept l clock k id s) {now : ℤ} (hnow : clock ≤ now) :
    Unswept l clock k id (sweepSlot now s) := by
  obtain ⟨m, n, hd, -, heq⟩ := sweepSlot_eq now s
  refine ⟨h.start, ?_, ?_, ?_, ?_, fun j x hx hid => ?_⟩
  · rw [sweepSlot_lastTick]
    exact h.lastTick.trans (Int.le_add_one le_rfl)
  · rw [heq]
    exact h.known
  · rw [heq]
    exact h.added
  · rw [heq]
    exact h.inserted
  · obtain ⟨hx₀, hkept⟩ := mem_sweepSlot.mp hx
    obtain ⟨rfl, hripe, hticks⟩ := h.bucket j x hx₀ hid
    refine ⟨rfl, hripe, fun t hlt hts => ?_⟩
    rw [sweepSlot_lastTick] at hts
    rcases Int.lt_or_eq_of_le (Int.le_of_lt_add_one hts) with hlt' | rfl
    · exact hticks t hlt hlt'
    · -- a pass over its own slot would not have kept it
      intro hslot
      obtain ⟨hcanceled, hdue⟩ := hkept hslot.symm
      rcases hripe with hripe | hripe
      · exact Bool.false_ne_true (hcanceled.symm.trans hripe)
      · omega

omit [DecidableEq Node] in
theorem Unswept.congr (h : Unswept l clock k id s) (htick : s'.lastTick = s.lastTick)
    (hnext : s'.nextId = s.nextId) (hadded : s'.added = s.added)
    (hadding : s'.adding = s.adding) (hbuckets : s'.buckets = s.buckets) :
    Unswept l clock k id s' := by
  refine ⟨h.start, htick ▸ h.lastTick, hnext ▸ h.known, hadded ▸ h.added, ?_, ?_⟩
  · rw [State.idsAt, State.entriesAt, hadding]
    exact h.inserted
  · rw [hbuckets, htick]
    exact h.bucket

theorem Unswept.pass (h : Unswept l clock k id s) {now : ℤ} (hnow : clock ≤ now) :
    Unswept l clock k id (pass s now) := by
  have h₀ : Unswept l clock k id { s with clock := now } := h.congr rfl rfl rfl rfl rfl
  exact (pass_induction h₀ fun _ ht _ => ht.sweepSlot hnow).1

omit [DecidableEq Node] in
/-- The calls that are still to insert their entry are for other ids. -/
theorem Unswept.insert (h : Unswept l clock k id s) {i : ℕ} (hs : insert s i = some s') :
    Unswept l clock k id s' := by
  obtain ⟨entry, slot, hmem, -, rfl⟩ := insert_moved hs
  have hne : entry.id ≠ id := by
    rintro rfl
    exact h.inserted (List.mem_map_of_mem (List.mem_map_of_mem hmem))
  refine ⟨h.start, h.lastTick, h.known, h.added, fun hid => ?_, fun j x hx hid => ?_⟩
  · obtain ⟨x, hx, hxid⟩ := List.mem_map.mp hid
    obtain ⟨y, hy, rfl⟩ := List.mem_map.mp hx
    exact h.inserted (List.mem_map.mpr
      ⟨y.1, List.mem_map_of_mem (List.mem_of_mem_eraseIdx hy), hxid⟩)
  · have hx' : x ∈ Function.update s.buckets slot (entry :: s.buckets slot) j := hx
    by_cases hj : j = slot
    · subst hj
      rw [Function.update_self] at hx'
      rcases List.mem_cons.mp hx' with rfl | hx'
      · exact absurd hid hne
      · exact h.bucket j x hx' hid
    · rw [Function.update_of_ne hj] at hx'
      exact h.bucket j x hx' hid

omit [DecidableEq Node] in
theorem Unswept.cancelTimer (h : Unswept l clock k id s) (i : ℕ) :
    Unswept l clock k id (cancelTimer s i) := by
  rcases cancelTimer_cases s i with heq | ⟨-, heq⟩
  · rw [heq]
    exact h
  rw [heq]
  refine ⟨h.start, h.lastTick, h.known, h.added, h.inserted, fun j x hx hid => ?_⟩
  obtain ⟨y, hy, rfl⟩ := List.mem_map.mp hx
  rw [mark_id] at hid
  obtain ⟨hj, hripe, hticks⟩ := h.bucket j y hy hid
  refine ⟨hj, ?_, hticks⟩
  rw [mark]
  split
  · exact Or.inl rfl
  · exact hripe

omit [DecidableEq Node] in
theorem Unswept.addTimer (h : Unswept l clock k id s) (now delay : ℤ) (target : Target Node) :
    Unswept l clock k id (addTimer s now delay target) := by
  rcases addTimer_cases s now delay target with heq | ⟨node, owns, -, heq⟩
  · rw [heq]
    exact h
  rw [heq]
  refine ⟨h.start, h.lastTick, Nat.lt_succ_of_lt h.known, ?_, fun hmem => ?_, h.bucket⟩
  · exact List.map_subset _ (List.subset_append_left _ _) h.added
  simp only [TimerKeeper.addInternal, State.idsAt, State.entriesAt, List.map_append,
    List.mem_append, List.map_cons, List.map_nil, List.mem_singleton] at hmem
  rcases hmem with hmem | rfl
  · exact h.inserted hmem
  · exact absurd h.known (lt_irrefl _)

/-- **Step lemma.** -/
theorem Unswept.step (h : Unswept l clock k id s) {a : Label Node}
    (hnow : ∀ now ∈ a.now?, clock ≤ now) (hs : step s a = some s') :
    Unswept l clock k id s' := by
  cases a with
  | addTimer now delay target =>
    obtain ⟨-, heq⟩ := Option.ite_none_right_eq_some.mp hs
    obtain rfl := Option.some.inj heq
    exact h.addTimer now delay target
  | insert i => exact h.insert hs
  | cancelTimer i =>
    obtain rfl := Option.some.inj hs
    exact h.cancelTimer i
  | pass now =>
    obtain ⟨-, heq⟩ := Option.ite_none_right_eq_some.mp hs
    obtain rfl := Option.some.inj heq
    exact h.pass (hnow now rfl)
  | dispatch =>
    rw [TimerKeeper.step, TimerKeeper.dispatch] at hs
    split at hs
    · cases hs
    · obtain rfl := Option.some.inj hs
      exact h.congr rfl rfl rfl rfl rfl
  | relink node v =>
    obtain ⟨-, heq⟩ := Option.ite_none_left_eq_some.mp hs
    obtain rfl := Option.some.inj heq
    exact h.congr rfl rfl rfl rfl rfl

/-- **Run lemma.** -/
theorem Unswept.run (h : Unswept l clock k id s) {ls : List (Label Node)}
    (hnow : ∀ a ∈ ls, ∀ now ∈ a.now?, clock ≤ now)
    (hrun : StepSystem.run TimerKeeper.step s ls = some s') : Unswept l clock k id s' :=
  StepSystem.run_invariant_of_meets (C := fun _ a => ∀ now ∈ a.now?, clock ≤ now)
    (fun _ _ _ ht ha hs => ht.step ha hs) h (StepSystem.Meets.of_forall hnow) hrun

omit [DecidableEq Node] in
/-- After a revolution the entry is in no bucket. -/
theorem Unswept.left (h : Unswept l clock k id s) (hk : k < kWheelSlots)
    (hrev : l + kWheelSlots ≤ s.lastTick) (j : ℕ) : id ∉ s.idsAt (.bucket j) := by
  intro hmem
  obtain ⟨x, hx, hid⟩ := List.mem_map.mp hmem
  obtain ⟨-, -, hticks⟩ := h.bucket j x hx hid
  obtain ⟨t, hlt, hlt', hslot⟩ := exists_tick_of_slot hk h.start
  exact hticks t hlt (hlt'.trans_le hrev) hslot

end Step

section Run

variable [DecidableEq Node] {startTime : ℤ} {s : State Node}

omit [DecidableEq Node] in
/-- A timer that is neither being added nor in a bucket has left the wheel once. -/
theorem Recorded.count_left (h : Recorded s) {id : ℕ} (hid : Within s.idsAt id)
    (hadding : id ∉ s.idsAt .adding) (hbucket : ∀ j, id ∉ s.idsAt (.bucket j)) :
    (s.idsAt .reaped ++ s.idsAt .expired ++ s.idsAt .handed).count id = 1 := by
  have hflat : [Place.reaped, .expired, .handed].flatMap s.idsAt =
      s.idsAt .reaped ++ s.idsAt .expired ++ s.idsAt .handed := by simp
  rw [← hflat]
  refine List.count_eq_one_of_mem (h.ids.nodup_flatMap (by decide)) ?_
  obtain ⟨p, hp⟩ := hid
  refine mem_flatMap_of_mem ?_ hp
  cases p with
  | adding => exact absurd hp hadding
  | bucket j => exact absurd hp (hbucket j)
  | expired | handed | reaped => simp

/-- `last_tick_` starts at 0 and only grows. -/
theorem lastTick_nonneg {ls : List (Label Node)}
    (hrun : StepSystem.run step (init Node startTime) ls = some s) : 0 ≤ s.lastTick := by
  refine StepSystem.run_invariant (I := fun s => 0 ≤ s.lastTick) ?_ le_rfl hrun
  intro s a s' h hs
  cases a with
  | addTimer now delay target =>
    obtain ⟨-, heq⟩ := Option.ite_none_right_eq_some.mp hs
    obtain rfl := Option.some.inj heq
    rcases addTimer_cases s now delay target with heq | ⟨node, owns, -, heq⟩
    · rw [heq]
      exact h
    · rw [heq]
      exact h
  | insert i =>
    obtain ⟨entry, slot, -, -, rfl⟩ := insert_moved hs
    exact h
  | cancelTimer i =>
    obtain rfl := Option.some.inj hs
    rcases cancelTimer_cases s i with heq | ⟨-, heq⟩
    · rw [heq]
      exact h
    · rw [heq]
      exact h
  | pass now =>
    obtain ⟨-, heq⟩ := Option.ite_none_right_eq_some.mp hs
    obtain rfl := Option.some.inj heq
    have h₀ : 0 ≤ ({ s with clock := now } : State Node).lastTick := h
    refine (pass_induction (I := fun t => 0 ≤ t.lastTick) h₀ fun t ht _ => ?_).1
    rw [sweepSlot_lastTick]
    omega
  | dispatch =>
    rw [step, dispatch] at hs
    split at hs
    · cases hs
    · obtain rfl := Option.some.inj hs
      exact h
  | relink node v =>
    obtain ⟨-, heq⟩ := Option.ite_none_left_eq_some.mp hs
    obtain rfl := Option.some.inj heq
    exact h

/-- **Reclamation within one revolution.**  At some moment of a run an entry is in the wheel,
canceled or due at `clock`, and the clock is read as `clock` or later from then on.  When
`last_tick_` has advanced by `kWheelSlots` the entry is in no bucket, and has been reaped or
extracted exactly once. -/
theorem reclaimed_in_revolution (startTime : ℤ) (pre post : List (Label Node))
    (m s : State Node) (hpre : StepSystem.run step (init Node startTime) pre = some m)
    (hpost : StepSystem.run step m post = some s) (k : ℕ) (e : TimerEntry Node)
    (he : e ∈ m.buckets k) (clock : ℤ)
    (hclock : ∀ a ∈ post, ∀ now ∈ a.now?, clock ≤ now)
    (hripe : e.canceled = true ∨ e.expireAt ≤ clock)
    (hrev : m.lastTick + kWheelSlots ≤ s.lastTick) :
    (∀ j, e.id ∉ s.idsAt (.bucket j)) ∧
      (s.idsAt .reaped ++ s.idsAt .expired ++ s.idsAt .handed).count e.id = 1 := by
  obtain ⟨hr, hi⟩ := run_indexed hpre
  obtain ⟨hr', -⟩ := run_indexed (StepSystem.run_append.mpr ⟨m, hpre, hpost⟩)
  have hk : k < kWheelSlots := by
    rw [hi.slot k e he]
    exact slotOf_lt _
  have hid : e.id ∈ m.idsAt (.bucket k) := List.mem_map_of_mem he
  have horigin := hr.origin e ⟨.bucket k, he⟩
  have h₀ : Unswept m.lastTick clock k e.id m := by
    refine ⟨lastTick_nonneg hpre, le_rfl, (hr.added _ horigin).2.1,
      List.mem_map.mpr ⟨_, horigin, rfl⟩, fun hadding => ?_, fun j x hx hxid => ?_⟩
    · have hplace := hr.ids.eq_of_mem hid hadding
      cases hplace
    · obtain ⟨hp, rfl⟩ := hr.entry_unique (p := .bucket j) (q := .bucket k) hx he hxid
      exact ⟨Place.bucket.inj hp, hripe, fun t hlt hlt' => absurd hlt' (not_lt.mpr hlt)⟩
  have h := h₀.run hclock hpost
  have hleft := h.left hk hrev
  obtain ⟨e', he', hid'⟩ := List.mem_map.mp h.added
  have hwithin : Within s.idsAt e.id := hid' ▸ hr'.placed e' he'
  exact ⟨hleft, hr'.count_left hwithin h.inserted hleft⟩

/-- A canceled timer, and one pass over more than a revolution. -/
theorem reclaimed_in_revolution_canceled :
    ∃ (m : State ℕ) (e : TimerEntry ℕ),
      StepSystem.run step (init ℕ 0) [.addTimer 0 5 (.callback 7), .insert 0, .cancelTimer 1] =
        some m ∧
      e ∈ m.buckets 0 ∧ e.canceled = true ∧
      StepSystem.run step m [.pass 41000000000] = some (pass m 41000000000) ∧
      ∀ j, e.id ∉ (pass m 41000000000).idsAt (.bucket j) := by
  have hrun : ∃ m, StepSystem.run step (init ℕ 0)
      [.addTimer 0 5 (.callback 7), .insert 0, .cancelTimer 1] = some m ∧
      m.clock = 0 ∧ m.expiredHead = none ∧ m.startTime = 0 ∧ m.lastTick = 0 ∧
        m.buckets 0 = [⟨1, 5000000, some 7, true, true⟩] :=
    StepSystem.exists_of_run_any (by decide +kernel)
  obtain ⟨m, hm, hclock, hhead, hstart, htick, hbucket⟩ := hrun
  have he : (⟨1, 5000000, some 7, true, true⟩ : TimerEntry ℕ) ∈ m.buckets 0 := by
    simp [hbucket]
  have hpass : StepSystem.run step m [.pass 41000000000] = some (pass m 41000000000) :=
    StepSystem.run_cons.mpr ⟨_, if_pos ⟨by rw [hclock]; decide, hhead⟩, rfl⟩
  have hrev : m.lastTick + kWheelSlots ≤ (pass m 41000000000).lastTick := by
    -- 41 seconds are 4100 ticks; the loop itself is not evaluated
    have hlast : m.tick 41000000000 < (pass m 41000000000).lastTick :=
      (pass_induction (I := fun _ => True) trivial fun _ _ _ => trivial).2
    have hticks : m.tick 41000000000 = 4100 := by
      rw [State.tick, hstart]
      decide
    have hslots : (kWheelSlots : ℤ) = 4096 := rfl
    omega
  refine ⟨m, _, hm, he, rfl, hpass, ?_⟩
  exact (reclaimed_in_revolution 0 _ _ m _ hm hpass 0 _ he 0 (by simp [Label.now?])
    (Or.inl rfl) hrev).1

end Run

end TimerKeeper
