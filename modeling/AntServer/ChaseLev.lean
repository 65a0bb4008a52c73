/-
The deque without batch stealing: every push is returned exactly once.

Over the claim invariant (`SpmcInvariant.lean`) this file follows the values.
In the runs whose thieves only `Steal`:

* every open position holds, in its buffer slot, the value of the push that
  last filled it (`ValInv.live`): the owner's fullness test keeps a wrap-around
  `Push` away from the slots of the open positions;
* a thief that has read its slot holds the value of its position as long as
  `top_` has not moved (`ThiefVal`), and so does the owner in the race for the
  last task (`OwnerVal`);
* a position is handed out and its value returned once (`ValInv.perm`).

`chaseLev_exactly_once` states the result; `StampedWindow.Good.untaken_eq` gives
that nothing is lost.
-/
import AntServer.SpmcInvariant

namespace SpmcQueue

variable {T ι : Type*}

/-- `v` is the value of the push that last filled position `p`. -/
def State.PushedAt (s : State T ι) (p : ℤ) (v : Option T) : Prop :=
  s.accepted[s.stamp p]? = some v

def OwnerVal (c : Capacity) (s : State T ι) : OwnerPc T → Prop
  | .pushWritten node b => s.buffer (c.slot b) = node
  | .popTop b t => t < b → s.PushedAt b (s.buffer (c.slot b))
  | .popRace b task => s.top = b → s.PushedAt b task
  | _ => True

def ThiefVal (s : State T ι) : ThiefPc T → Prop
  | .stealRead t task => s.top = t → s.PushedAt t task
  | .takeBottom _ => False
  | .takeTop _ _ => False
  | .takeCopy _ _ _ => False
  | _ => True

/-- Only a thief that has read its slot says something about the state. -/
theorem ThiefVal.congr {s s' : State T ι} {pc : ThiefPc T} (h : ThiefVal s pc)
    (hread : ∀ t task, pc = .stealRead t task → s'.top = t → s'.PushedAt t task) :
    ThiefVal s' pc := by
  cases pc with
  | idle | stealTop _ | stealBottom _ => trivial
  | stealRead t task => exact hread t task rfl
  | takeBottom _ | takeTop _ _ | takeCopy _ _ _ => exact h

/-- The push that the owner has taken and not yet returned. -/
def pendingPop (stamp : ℤ → ℕ) : OwnerPc T → List ℕ
  | .popTop b t => if t < b then [stamp b] else []
  | _ => []

structure ValInv (c : Capacity) (s : State T ι) : Prop where
  live : ∀ p, s.top ≤ p → p < s.limit → s.PushedAt p (s.buffer (c.slot p))
  owner : OwnerVal c s s.owner
  thief : ∀ i, ThiefVal s (s.thief i)
  returned : ∀ r ∈ s.returned, s.accepted[r.1]? = some r.2
  perm : (s.handed.map Prod.snd).Perm (s.returned.map Prod.fst ++ pendingPop s.stamp s.owner)

theorem valInv_init (c : Capacity) : ValInv c (init T ι) where
  live := fun p h1 h2 => by
    simp only [init, State.limit, limitOf] at h1 h2
    omega
  owner := trivial
  thief := fun _ => trivial
  returned := fun r hr => by simp [init] at hr
  perm := by simp [init, pendingPop]

section

variable {c : Capacity} {s s' : State T ι}

/-- Only the owner's place and `bottom_` change, and the limit stays. -/
theorem ValInv.owner_stay (h : ValInv c s) (pc : OwnerPc T) (bottom : ℤ)
    (hlim : limitOf bottom pc = s.limit) (hval : OwnerVal c s pc)
    (hpend : pendingPop s.stamp pc = pendingPop s.stamp s.owner) :
    ValInv c { s with owner := pc, bottom := bottom } := by
  refine ⟨?_, hval, h.thief, h.returned, ?_⟩
  · intro p hp hp'
    have hl : ({ s with owner := pc, bottom := bottom } : State T ι).limit = s.limit := hlim
    exact h.live p hp (hl ▸ hp')
  · show (s.handed.map Prod.snd).Perm (s.returned.map Prod.fst ++ pendingPop s.stamp pc)
    rw [hpend]
    exact h.perm

/-- One more task is returned, with the value of its push. -/
theorem ValInv.returned_concat (h : ValInv c s) {r : ℕ × Option T}
    (hr : s.accepted[r.1]? = some r.2) :
    ∀ r' ∈ s.returned ++ [r], s.accepted[r'.1]? = some r'.2 := by
  intro r' hr'
  rcases List.mem_append.mp hr' with hr' | hr'
  · exact h.returned r' hr'
  · rw [List.mem_singleton.mp hr']
    exact hr

/-- `Push` publishes what it has stored. -/
theorem ValInv.pushWritten {node : Option T} {b : ℤ} (h : ValInv c s) (hI : Inv c s)
    (hpc : s.owner = .pushWritten node b) (hs : ownerStep c s = some s') : ValInv c s' := by
  have ho := hI.owner
  have hv := h.owner
  have hperm := h.perm
  rw [hpc] at ho hv hperm
  obtain ⟨hb, hroom⟩ := ho
  have hlim : s.limit = b := by simp [State.limit, limitOf, hpc, hb]
  simp only [ownerStep, hpc, Option.some_inj] at hs
  subst hs
  -- a position below `b` keeps its push, and the pushes before keep their values
  have hkeep : ∀ p v, s.PushedAt p v → p ≠ b →
      (s.accepted ++ [node])[Function.update s.stamp b s.accepted.length p]? = some v := by
    intro p v hpv hne
    rw [Function.update_of_ne hne]
    rw [State.PushedAt] at hpv
    rw [List.getElem?_append_left (List.getElem?_eq_some_iff.mp hpv).1]
    exact hpv
  refine ⟨?_, trivial, ?_, ?_, hperm⟩
  · intro p hp hp'
    have hpb : p ≤ b := by
      simp only [State.limit, limitOf] at hp'
      omega
    rcases eq_or_lt_of_le hpb with rfl | hlt
    · show (s.accepted ++ [node])[Function.update s.stamp p s.accepted.length p]? = _
      rw [Function.update_self, List.getElem?_concat_length]
      exact congrArg some hv.symm
    · exact hkeep p _ (h.live p hp (by omega)) (by omega)
  · refine fun i => (h.thief i).congr fun t task hi heq => ?_
    have hti := h.thief i
    have htI := hI.thief i
    rw [hi] at hti htI
    have hopen := htI.2 heq
    exact hkeep t task (hti heq) (by omega)
  · intro r hr
    have hold := h.returned r hr
    show (s.accepted ++ [node])[r.1]? = some r.2
    rw [List.getElem?_append_left (List.getElem?_eq_some_iff.mp hold).1]
    exact hold

/-- `TryPop` has loaded `top_`. -/
theorem ValInv.popTop {b t : ℤ} (h : ValInv c s) (hI : Inv c s)
    (hpc : s.owner = .popTop b t) (hs : ownerStep c s = some s') : ValInv c s' := by
  have ho := hI.owner
  have hv := h.owner
  have hperm := h.perm
  rw [hpc] at ho hv hperm
  obtain ⟨hb, ht⟩ := ho
  simp only [ownerStep, hpc] at hs
  by_cases hle : t ≤ b
  · rw [if_pos hle] at hs
    by_cases heq : t = b
    · rw [if_pos heq, Option.some_inj] at hs
      subst hs
      refine h.owner_stay _ s.bottom (by simp [State.limit, limitOf, hpc, heq]) ?_
        (by simp [pendingPop, hpc, heq])
      intro htop
      exact h.live b (by omega) (by simp [State.limit, limitOf, hpc, heq])
    · have hlt : t < b := by omega
      rw [if_neg heq, Option.some_inj] at hs
      subst hs
      refine ⟨?_, trivial, h.thief, ?_, ?_⟩
      · intro p hp hp'
        exact h.live p hp (by simpa [State.limit, limitOf, hpc, hlt, hb] using hp')
      · exact h.returned_concat (hv hlt)
      · simpa [pendingPop, hlt] using hperm
  · have hlt : ¬ t < b := by omega
    rw [if_neg hle, Option.some_inj] at hs
    subst hs
    exact h.owner_stay _ (b + 1) (by simp [State.limit, limitOf, hpc, hlt]) trivial
      (by simp [pendingPop, hpc, hlt])

/-- `TryPop` races with the thieves for the last task. -/
theorem ValInv.popRace {b : ℤ} {task : Option T} (h : ValInv c s) (hI : Inv c s)
    (hpc : s.owner = .popRace b task) (hs : ownerStep c s = some s') : ValInv c s' := by
  have ho := hI.owner
  have hv := h.owner
  have hperm := h.perm
  rw [hpc] at ho hv hperm
  obtain ⟨hb, ht⟩ := ho
  simp only [ownerStep, hpc] at hs
  by_cases heq : s.top = b
  · rw [if_pos heq, Option.some_inj] at hs
    subst hs
    refine ⟨?_, trivial, ?_, ?_, ?_⟩
    · intro p hp hp'
      simp only [State.limit, limitOf] at hp hp'
      omega
    · refine fun i => (h.thief i).congr fun t task hi heq' => ?_
      have htI := hI.thief i
      rw [hi] at htI
      have hle := htI.1
      simp only at heq'
      omega
    · exact h.returned_concat (hv heq)
    · simpa [pendingPop] using hperm.append_right [s.stamp b]
  · rw [if_neg heq, Option.some_inj] at hs
    subst hs
    exact h.owner_stay _ s.bottom (by simp [State.limit, limitOf, hpc]) trivial
      (by simp [pendingPop, hpc])

theorem ownerStep_valInv (hI : Inv c s) (h : ValInv c s) (hs : ownerStep c s = some s') :
    ValInv c s' := by
  have ho := hI.owner
  have hv := h.owner
  have hperm := h.perm
  cases hpc : s.owner with
  | idle => simp [ownerStep, hpc] at hs
  | pushBottom node b =>
    simp only [ownerStep, hpc] at hs
    split at hs
    all_goals
      rw [Option.some_inj] at hs
      subst hs
      exact h.owner_stay _ s.bottom (by simp [State.limit, limitOf, hpc]) trivial
        (by simp [pendingPop, hpc])
  | pushRoom node b =>
    rw [hpc] at ho hperm
    obtain ⟨hb, hroom⟩ := ho
    simp only [ownerStep, hpc, Option.some_inj] at hs
    subst hs
    refine ⟨?_, by simp [OwnerVal], h.thief, h.returned, hperm⟩
    intro p hp hp'
    have hpb : p < b := by simpa [State.limit, limitOf, hb] using hp'
    have hne : c.slot p ≠ c.slot b := by
      have hnn := hI.nonneg
      simp only at hp
      exact c.slot_ne (by omega) hpb (by omega)
    have hold := h.live p hp (by simpa [State.limit, limitOf, hpc, hb] using hpb)
    simpa [State.PushedAt, Function.update_of_ne hne] using hold
  | pushWritten node b => exact h.pushWritten hI hpc hs
  | popBottom b =>
    rw [hpc] at ho
    have hb : s.bottom = b + 1 := ho
    simp only [ownerStep, hpc, Option.some_inj] at hs
    subst hs
    exact h.owner_stay _ b (by simp [State.limit, limitOf, hpc, hb]) trivial
      (by simp [pendingPop, hpc])
  | popStored b =>
    rw [hpc] at hperm
    have hlim : s.limit = b + 1 := by simp [State.limit, limitOf, hpc]
    simp only [ownerStep, hpc, Option.some_inj] at hs
    by_cases hlt : s.top < b
    · -- the task at `b` is taken now and returned after the buffer access
      subst hs
      refine ⟨?_, ?_, h.thief, h.returned, ?_⟩
      · intro p hp hp'
        simp only [State.limit, limitOf, if_pos hlt] at hp'
        exact h.live p hp (by omega)
      · exact fun _ => h.live b (by omega) (by omega)
      · simpa [pendingPop, hlt] using hperm.append_right [s.stamp b]
    · subst hs
      have := h.owner_stay (.popTop b s.top) s.bottom (by simp [limitOf, hlim, hlt])
        (fun hlt' => absurd hlt' hlt) (by simp [pendingPop, hpc, hlt])
      simpa [hlt] using this
  | popTop b t => exact h.popTop hI hpc hs
  | popRace b task => exact h.popRace hI hpc hs
  | popRestore b task =>
    simp only [ownerStep, hpc, Option.some_inj] at hs
    subst hs
    exact h.owner_stay _ (b + 1) (by simp [State.limit, limitOf, hpc]) trivial
      (by simp [pendingPop, hpc])

/-- Without batches there is no `TakeHalf` whose claim could be stale. -/
theorem ValInv.claimsOpen (h : ValInv c s) (l : Label T ι) : ClaimsOpen s l := by
  cases l with
  | thief i spurious =>
    have hti := h.thief i
    simp only [ClaimsOpen]
    split
    · rename_i hpc
      rw [hpc] at hti
      exact hti.elim
    · trivial
  | push _ | tryPop | owner | steal _ | takeHalf _ => trivial

variable [DecidableEq ι]

/-- Only the place of thief `i` changes. -/
theorem ValInv.thief_stay (h : ValInv c s) (i : ι) (pc : ThiefPc T) (hpc : ThiefVal s pc) :
    ValInv c (s.setThief i pc) := by
  refine ⟨h.live, h.owner, ?_, h.returned, h.perm⟩
  intro j
  show ThiefVal s (Function.update s.thief i pc j)
  by_cases hj : j = i
  · subst hj
    rwa [Function.update_self]
  · rw [Function.update_of_ne hj]
    exact h.thief j

theorem thiefStep_valInv {i : ι} {spurious : Bool} (hI : Inv c s) (h : ValInv c s)
    (hs : thiefStep c s i spurious = some s') : ValInv c s' := by
  have htI := hI.thief i
  have hti := h.thief i
  have hidle : ValInv c (s.setThief i .idle) := h.thief_stay i .idle trivial
  cases hpc : s.thief i with
  | idle => simp [thiefStep, hpc] at hs
  | stealTop t =>
    simp only [thiefStep, hpc] at hs
    split at hs
    · rw [Option.some_inj] at hs
      exact hs ▸ h.thief_stay i (.stealBottom t) trivial
    · rw [Option.some_inj] at hs
      exact hs ▸ hidle
  | stealBottom t =>
    rw [hpc] at htI
    simp only [thiefStep, hpc, Option.some_inj] at hs
    refine hs ▸ h.thief_stay i (.stealRead t _) fun heq => ?_
    exact h.live t (by omega) (htI.2 heq)
  | stealRead t task =>
    rw [hpc] at htI hti
    simp only [thiefStep, hpc] at hs
    by_cases hcas : s.top = t ∧ spurious = false
    · rw [if_pos hcas, Option.some_inj] at hs
      subst hs
      refine ⟨?_, ?_, ?_, ?_, ?_⟩
      · intro p hp hp'
        simp only at hp
        exact h.live p (by omega) hp'
      · -- the owner's race for position `b ≤ top_` cannot be at `top_ + 1`
        have ho := hI.owner
        have hv := h.owner
        show OwnerVal c _ s.owner
        cases howner : s.owner with
        | popRace b task =>
          rw [howner] at ho
          intro heq
          have hle := ho.2
          simp only at heq
          omega
        | pushWritten node b => rw [howner] at hv; exact hv
        | popTop b t => rw [howner] at hv; exact hv
        | idle | pushBottom _ _ | pushRoom _ _ | popBottom _ | popStored _ => trivial
        | popRestore _ _ => trivial
      · intro j
        refine (hidle.thief j).congr fun t' task' hj heq => ?_
        have hne : j ≠ i := by
          rintro rfl
          simp [State.setThief] at hj
        have htj := hI.thief j
        rw [show s.thief j = .stealRead t' task' by simpa [State.setThief, hne] using hj] at htj
        have hle := htj.1
        simp only at heq
        omega
      · exact h.returned_concat (hti hcas.1)
      · have hperm := h.perm.append_right [s.stamp t]
        simp only [stampedRange_one, List.map_append, List.map_cons, List.map_nil]
        refine hperm.trans ?_
        rw [List.append_assoc, List.append_assoc]
        have hcomm : (pendingPop s.stamp s.owner ++ [s.stamp t]).Perm
            ([s.stamp t] ++ pendingPop s.stamp s.owner) := List.perm_append_comm
        exact hcomm.append_left _
    · rw [if_neg hcas, Option.some_inj] at hs
      exact hs ▸ hidle
  | takeBottom b =>
    rw [hpc] at hti
    exact hti.elim
  | takeTop t n =>
    rw [hpc] at hti
    exact hti.elim
  | takeCopy t n out =>
    rw [hpc] at hti
    exact hti.elim

/-- The label does not start a batch. -/
def Label.NoBatch : Label T ι → Prop
  | .takeHalf _ => False
  | _ => True

instance (l : Label T ι) : Decidable l.NoBatch :=
  match l with
  | .takeHalf _ => isFalse id
  | .push _ | .tryPop | .owner | .steal _ | .thief _ _ => isTrue trivial

theorem step_valInv {l : Label T ι} (hI : Inv c s) (h : ValInv c s) (hl : l.NoBatch)
    (hs : step c s l = some s') : ValInv c s' := by
  cases l with
  | push node =>
    simp only [step] at hs
    split at hs
    · rename_i hpc
      rw [Option.some_inj] at hs
      exact hs ▸ h.owner_stay _ s.bottom (by simp [State.limit, limitOf, hpc]) trivial
        (by simp [pendingPop, hpc])
    · cases hs
  | tryPop =>
    simp only [step] at hs
    split at hs
    · rename_i hpc
      rw [Option.some_inj] at hs
      exact hs ▸ h.owner_stay _ s.bottom (by simp [State.limit, limitOf, hpc]) trivial
        (by simp [pendingPop, hpc])
    · cases hs
  | owner => exact ownerStep_valInv hI h hs
  | steal i =>
    simp only [step] at hs
    split at hs
    · rw [Option.some_inj] at hs
      exact hs ▸ h.thief_stay i (.stealTop s.top) trivial
    · cases hs
  | takeHalf i => exact hl.elim
  | thief i spurious => exact thiefStep_valInv hI h hs

theorem inv_of_run_noBatch {ls : List (Label T ι)} (hl : ∀ l ∈ ls, l.NoBatch)
    (hrun : StepSystem.run (step c) (init T ι) ls = some s) : Inv c s ∧ ValInv c s := by
  refine StepSystem.run_invariant_of_meets (I := fun s => Inv c s ∧ ValInv c s)
    (C := fun _ l => l.NoBatch) ?_ ⟨inv_init c, valInv_init c⟩ (.of_forall hl) hrun
  intro s l s' h hC hs
  exact ⟨(step_refines h.1 (h.2.claimsOpen l) hs).inv, step_valInv h.1 h.2 hC hs⟩

end

/-- The values accepted and not returned, in push order. -/
def State.unreturned (s : State T ι) : List (Option T) :=
  ((List.range s.accepted.length).filter fun n => n ∉ s.returned.map Prod.fst).filterMap
    fun n => s.accepted[n]?

/-- `buffer_[top_ & kMask], …, buffer_[(bottom_ - 1) & kMask]`. -/
def State.contents (c : Capacity) (s : State T ι) : List (Option T) :=
  (List.range (s.bottom - s.top).toNat).map fun k : ℕ => s.buffer (c.slot (s.top + k))

theorem unreturned_eq_contents {c : Capacity} {s : State T ι} (hI : Inv c s) (h : ValInv c s)
    (hq : s.Quiescent) : s.unreturned = s.contents c := by
  have hlim : s.limit = s.bottom := by simp [State.limit, limitOf, hq.1]
  have hperm : (s.handed.map Prod.snd).Perm (s.returned.map Prod.fst) := by
    simpa [hq.1, pendingPop] using h.perm
  have huntaken := hI.good.untaken_eq
  simp only [State.window, StampedWindow.taken, hperm.mem_iff, hlim] at huntaken
  rw [State.unreturned, huntaken, List.filterMap_map, State.contents, ← List.filterMap_eq_map]
  refine List.filterMap_congr fun k hk => ?_
  rw [List.mem_range] at hk
  exact h.live (s.top + k) (by omega) (by omega)

variable [DecidableEq ι]

/-- **Exactly once without batches.**  In every state of every run whose thieves
only `Steal`: no push is returned twice, what is returned for a push is its
value, `bottom_ - top_` stays between `-1` and `kMaxSize`, and when no operation
is in progress the pushes not returned are those between `top_` and `bottom_`, in
push order. -/
theorem chaseLev_exactly_once (c : Capacity) (ls : List (Label T ι)) (s : State T ι)
    (hrun : StepSystem.run (step c) (init T ι) ls = some s) (hl : ∀ l ∈ ls, l.NoBatch) :
    (s.returned.map Prod.fst).Nodup ∧
      (∀ r ∈ s.returned, s.accepted[r.1]? = some r.2) ∧
      (-1 ≤ s.bottom - s.top ∧ s.bottom - s.top ≤ c.kMaxSize) ∧
      (s.Quiescent → s.unreturned = s.contents c) := by
  obtain ⟨hI, h⟩ := inv_of_run_noBatch hl hrun
  have hle : s.top ≤ s.limit := hI.good.le
  have hroom := hI.room
  have hbottom := hI.bottom_le
  refine ⟨?_, h.returned, ⟨by omega, by omega⟩, unreturned_eq_contents hI h⟩
  have hnodup : (s.handed.map Prod.snd).Nodup := hI.good.nodup
  exact (List.nodup_append.mp (h.perm.nodup_iff.mp hnodup)).1

/-- Two pushes, then the owner pops while a thief steals: the thief reads `t = 0`
and `b = 2`, the owner takes position 1, the thief wins position 0. -/
def stealRun : List (Label ℕ Unit) :=
  [.push (some 10), .owner, .owner, .owner, .push (some 11), .owner, .owner, .owner,
    .steal (), .tryPop, .thief () false, .owner, .owner, .thief () false, .owner,
    .thief () false]

theorem chaseLev_exactly_once_stealRun :
    ∃ s, StepSystem.run (step ⟨4, 2, rfl⟩) (init ℕ Unit) stealRun = some s ∧
      s.returned = [(1, some 11), (0, some 10)] ∧ (s.returned.map Prod.fst).Nodup ∧
      s.unreturned = s.contents ⟨4, 2, rfl⟩ := by
  obtain ⟨s, hrun, hret, hq⟩ : ∃ s, StepSystem.run (step ⟨4, 2, rfl⟩) (init ℕ Unit) stealRun
      = some s ∧ s.returned = [(1, some 11), (0, some 10)] ∧ s.Quiescent :=
    StepSystem.exists_of_run_any (by decide +kernel)
  obtain ⟨hnodup, -, -, hcontents⟩ :=
    chaseLev_exactly_once ⟨4, 2, rfl⟩ stealRun s hrun (by decide)
  exact ⟨s, hrun, hret, hnodup, hcontents hq⟩

end SpmcQueue
