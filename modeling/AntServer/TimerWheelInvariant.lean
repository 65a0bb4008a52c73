/-
The representation invariant of the timing wheel.

* `WellFormed` — the buckets are finite lists of allocated entries, every live entry is in
  the bucket of its tick and nowhere else, ids are distinct, `task_map_` points
  exactly to the live entries that are not canceled, and nothing was deleted twice;
* `run_sound` — every reachable wheel stands for lists of `TimerKeeper` in which every
  timer has its place;
* `wheel_invariant` — the wheel is well formed after every step of every run.
-/
import AntServer.TimerWheelRefines

namespace TimerWheel

open TimerKeeper (TimerEntry State Extraction slotOf kWheelSlots Recorded Indexed Place)

variable {Node Addr : Type*}

/-! ### Runs -/

section Run

variable [DecidableEq Addr] [DecidableEq Node]

/-- The wheel stands for lists in which every timer has its place. -/
def Sound (w : Wheel Node Addr) : Prop := ∃ s, Refines w s ∧ Recorded s ∧ Indexed s

omit [DecidableEq Addr] [DecidableEq Node] in
theorem sound_init (startTime : ℤ) : Sound (init Node Addr startTime) :=
  ⟨_, refines_init startTime, Recorded.init startTime, Indexed.init startTime⟩

/-- One step of the wheel is the step of the lists. -/
theorem sound_step {w w' : Wheel Node Addr} {l : Label Node Addr} (h : Sound w)
    (hs : step w l = some w') : Sound w' := by
  obtain ⟨s, href, hr, hi⟩ := h
  cases l with
  | addTimer a now delay target =>
    obtain ⟨⟨hclock, hnone⟩, heq⟩ := Option.ite_none_right_eq_some.mp hs
    obtain rfl := Option.some.inj heq
    have hle : s.clock ≤ now := by
      obtain ⟨-, -, -, hf⟩ := href
      exact hf.clock ▸ hclock
    have hs' : TimerKeeper.step s (.addTimer now delay target) =
        some (TimerKeeper.addTimer s now delay target) := if_pos hle
    exact ⟨_, addTimer_refines now delay target href (by simpa using hnone),
      TimerKeeper.recorded_step hr hs', hi.addTimer now delay target⟩
  | insert k =>
    cases hk : w.adding[k]? with
    | none =>
      simp only [step, hk] at hs
      cases hs
    | some x =>
      obtain ⟨w₁, s₁, hw₁, hs₁, h₁⟩ := insert_refines href hk
      simp only [step, hk, hw₁] at hs
      obtain rfl := Option.some.inj hs
      exact ⟨s₁, h₁, TimerKeeper.recorded_step (l := .insert k) hr hs₁, hi.insert hs₁⟩
  | cancelTimer id =>
    obtain ⟨w₁, hw₁, h₁⟩ := cancelTimer_refines id href hr
    simp only [step, hw₁] at hs
    obtain rfl := Option.some.inj hs
    exact ⟨_, h₁, hr.cancelTimer id, hi.cancelTimer id⟩
  | pass now =>
    obtain ⟨w₁, hw₁, h₁⟩ := pass_refines now href hr hi
    obtain ⟨-, heq⟩ := Option.ite_none_right_eq_some.mp hs
    rw [hw₁] at heq
    obtain rfl := Option.some.inj heq
    exact ⟨_, h₁, hr.pass now, hi.pass hr now⟩

theorem run_sound {startTime : ℤ} {ls : List (Label Node Addr)} {w : Wheel Node Addr}
    (hrun : StepSystem.run step (init Node Addr startTime) ls = some w) : Sound w :=
  StepSystem.run_invariant (fun _ _ _ => sound_step) (sound_init startTime) hrun

end Run

/-! ### The representation invariant -/

/-- The wheel is well formed when its buckets are the lists `A`.  An entry is live from
its critical section until it is deleted. -/
structure WellFormed (A : ℕ → List Addr) (w : Wheel Node Addr) : Prop where
  /-- Following the links from a bucket visits its entries once and ends. -/
  chain : ∀ k, Chain w.nextOf (w.buckets k) (A k) ∧ (A k).Nodup
  /-- A live entry is in the bucket of its tick and in no other. -/
  live : ∀ a e, w.entryOf a = some e → a ∉ w.adding.map Prod.fst →
    ∀ k, a ∈ A k ↔ k = (w.tick e.expireAt).toNat % kWheelSlots
  allocated : ∀ k, ∀ a ∈ A k, (w.entryOf a).isSome ∧ a ∉ w.adding.map Prod.fst
  ids : ∀ a b e e', w.entryOf a = some e → w.entryOf b = some e' → e.id = e'.id → a = b
  taskMap : ∀ id a, w.taskMap id = some a ↔
    ∃ k, a ∈ A k ∧ ∃ e, w.entryOf a = some e ∧ e.id = id ∧ e.canceled = false
  /-- No operation has followed a pointer to memory that is not allocated. -/
  noFault : w.fault = false
  freedOnce : w.freed.Nodup
  freed : ∀ a e, w.entryOf a = some e → e.id ∉ w.freed

section Invariant

variable {w : Wheel Node Addr} {s : State Node} {L : Spot → List Addr} {a b : Addr}
  {e : TimerEntry Node}

/-- An allocated entry is in the hands of its caller or in a bucket. -/
theorem Layout.place (hlay : Layout L w none none) (hsh : Shows L w s [] [])
    (hea : w.entryOf a = some e) : a ∈ L .adding ∨ ∃ k, a ∈ L (.bucket k) := by
  have hsome : (w.heap a).isSome = true := by
    rw [heap_eq_some hea]
    rfl
  obtain ⟨p, hp⟩ := (hlay.allocated a).mp hsome
  have hcurr : L .curr = [] := by simpa using hsh.curr
  have hremaining : L .remaining = [] := by simpa using hsh.remaining
  cases p with
  | adding => exact Or.inl hp
  | bucket k => exact Or.inr ⟨k, hp⟩
  | curr => exact absurd (hcurr ▸ hp) List.not_mem_nil
  | remaining => exact absurd (hremaining ▸ hp) List.not_mem_nil

theorem Layout.addrsAt (hlay : Layout L w none none) (hsh : Shows L w s [] [])
    (hea : w.entryOf a = some e) : ∃ p, a ∈ addrsAt L p ∧ (p = .adding ∨ ∃ k, p = .bucket k) := by
  rcases hlay.place hsh hea with h | ⟨k, h⟩
  · exact ⟨.adding, h, Or.inl rfl⟩
  · exact ⟨.bucket k, h, Or.inr ⟨k, rfl⟩⟩

/-- What was deleted was reaped or expired. -/
theorem mem_freed (hf : SameFields w s) {id : ℕ} (hid : id ∈ w.freed) :
    id ∈ s.idsAt .reaped ∨ id ∈ s.idsAt .expired := by
  have hmem := hf.freed.subset hid
  rw [List.map_append] at hmem
  exact List.mem_append.mp hmem

theorem freed_nodup (hf : SameFields w s) (hr : Recorded s) : w.freed.Nodup := by
  have hnd : ([Place.reaped, .expired].flatMap s.idsAt).Nodup :=
    hr.ids.nodup_flatMap (by simp)
  rw [TimerKeeper.flatMap_idsAt] at hnd
  refine hf.freed.nodup_iff.mpr ?_
  simpa [TimerKeeper.State.entriesAt] using hnd

theorem notMem_freed (hf : SameFields w s) (hr : Recorded s) (hlay : Layout L w none none)
    (hsh : Shows L w s [] []) (hea : w.entryOf a = some e) : e.id ∉ w.freed := by
  obtain ⟨p, hap, hp⟩ := hlay.addrsAt hsh hea
  obtain ⟨x, hx, hex⟩ := hsh.entry_of_mem hlay hap
  obtain rfl : x = e := Option.some.inj (hex.symm.trans hea)
  have hid : x.id ∈ s.idsAt p := List.mem_map_of_mem hx
  intro hfreed
  rcases mem_freed hf hfreed with h | h
  · obtain rfl := hr.ids.eq_of_mem hid h
    simp at hp
  · obtain rfl := hr.ids.eq_of_mem hid h
    simp at hp

/-- `task_map_` points exactly to the entries in the buckets that are not canceled. -/
theorem taskMap_iff (hr : Recorded s) (hi : Indexed s) (hlay : Layout L w none none)
    (hsh : Shows L w s [] []) (id : ℕ) (a : Addr) :
    w.taskMap id = some a ↔
      ∃ k, a ∈ L (.bucket k) ∧ ∃ e, w.entryOf a = some e ∧ e.id = id ∧ e.canceled = false := by
  constructor
  · intro hmap
    obtain ⟨k, hak, e, hea, hid⟩ := hsh.mapped_bucket hmap
    have hset : s.taskMap id = true := by
      rw [← hsh.map, hmap]
      rfl
    obtain ⟨j, e', he', hid', hlive⟩ := (hi.mapped id).mp hset
    obtain ⟨x, hx, hex⟩ := hsh.entry_of_mem hlay (p := .bucket k) hak
    obtain rfl : x = e := Option.some.inj (hex.symm.trans hea)
    obtain ⟨-, rfl⟩ := hr.entry_unique (p := .bucket j) (q := .bucket k) he' hx
      (hid'.trans hid.symm)
    exact ⟨k, hak, e', hea, hid, hlive⟩
  · rintro ⟨k, hak, e, hea, hid, hlive⟩
    obtain ⟨x, hx, hex⟩ := hsh.entry_of_mem hlay (p := .bucket k) hak
    obtain rfl : x = e := Option.some.inj (hex.symm.trans hea)
    have hset : s.taskMap id = true := (hi.mapped id).mpr ⟨k, x, hx, hid, hlive⟩
    rw [← hsh.map] at hset
    obtain ⟨b, hb⟩ := Option.isSome_iff_exists.mp hset
    obtain ⟨j, hbj, e', heb, hid'⟩ := hsh.mapped_bucket hb
    rw [hb, hsh.addr_unique hlay hr (p := .bucket j) (q := .bucket k) hbj hak heb hea
      (hid'.trans hid.symm)]

end Invariant

/-- **The representation invariant of the wheel**, after every step of every run. -/
theorem wheel_invariant [DecidableEq Addr] [DecidableEq Node] {startTime : ℤ}
    {ls : List (Label Node Addr)} {w : Wheel Node Addr}
    (hrun : StepSystem.run step (init Node Addr startTime) ls = some w) :
    ∃ A, WellFormed A w := by
  obtain ⟨s, ⟨L, hlay, hsh, hf⟩, hr, hi⟩ := run_sound hrun
  refine ⟨fun k => L (.bucket k), ⟨fun k => ⟨hlay.bucket k, hlay.separate.nodup _⟩,
    fun a e hea hnot k => ?_, fun k a hak => ⟨?_, ?_⟩, fun a b e e' hea heb hid => ?_,
    taskMap_iff hr hi hlay hsh, hf.fault, freed_nodup hf hr, fun a e hea => ?_⟩⟩
  · -- its bucket is the one computed when it was created
    rw [← hlay.adding] at hnot
    obtain ⟨k₀, hak₀⟩ := (hlay.place hsh hea).resolve_left hnot
    obtain ⟨x, hx, hex⟩ := hsh.entry_of_mem hlay (p := .bucket k₀) hak₀
    obtain rfl : x = e := Option.some.inj (hex.symm.trans hea)
    have hslot : k₀ = (w.tick x.expireAt).toNat % kWheelSlots := by
      rw [← TimerKeeper.slotOf_eq_mod, Wheel.tick, hf.startTime]
      exact hi.slot k₀ x hx
    rw [← hslot]
    constructor
    · intro hak
      exact Spot.bucket.inj (hlay.separate.eq_of_mem hak hak₀)
    · rintro rfl
      exact hak₀
  · rw [isSome_entryOf]
    exact (hlay.allocated a).mpr ⟨_, hak⟩
  · rw [← hlay.adding]
    exact hlay.separate.disjoint (.bucket k) .adding (by simp) a hak
  · obtain ⟨p, hp, -⟩ := hlay.addrsAt hsh hea
    obtain ⟨q, hq, -⟩ := hlay.addrsAt hsh heb
    exact hsh.addr_unique hlay hr hp hq hea heb hid
  · exact notMem_freed hf hr hlay hsh hea

/-- Two timers; the first is canceled, twice, and reaped by a pass. -/
def cancelFirst : List (Label ℕ ℕ) :=
  [.addTimer 70 0 5 (.callback 1), .addTimer 80 0 50000 (.taskNode (some 2)), .insert 1, .insert 0,
    .cancelTimer 1, .cancelTimer 1, .pass 10000000]

theorem wheel_invariant_cancelFirst :
    ∃ w, StepSystem.run step (init ℕ ℕ 0) cancelFirst = some w ∧
      (w.freed = [1] ∧ w.taskMap 2 = some 80) ∧ ∃ A, WellFormed A w := by
  obtain ⟨w, hw, hfreed⟩ := StepSystem.exists_of_run_any
    (P := fun w : Wheel ℕ ℕ => w.freed = [1] ∧ w.taskMap 2 = some 80)
    (show (StepSystem.run step (init ℕ ℕ 0) cancelFirst).any _ = true by decide +kernel)
  exact ⟨w, hw, hfreed, wheel_invariant hw⟩

end TimerWheel
