/-
The claim invariant of the Chase–Lev deque.

`State.limit` is the end of the positions that are still open for taking: the
value of `bottom_`, except inside `TryPop`, where position `b` stays open after
`bottom_` has been lowered to `b` until the owner has seen `t < b`.  The open
positions `[top_, limit)` form a `StampedWindow`, and a step of the deque is a
step of that window (`step_refines`) as long as every successful `TakeHalf`
claims open positions only (`ClaimsOpen`).  For `Steal` that is not a condition
but a consequence: a thief that saw `t < b` and finds `top_` unchanged claims
an open position (`ThiefOk`).

`Inv` collects what the steps keep, and `run_refines` lifts both to runs.
-/
import AntServer.SpmcQueue

namespace SpmcQueue

variable {T ι : Type*}

/-- The end of the open positions, for the owner's place and `bottom_`. -/
def limitOf (bottom : ℤ) : OwnerPc T → ℤ
  | .popStored b => b + 1
  | .popTop b t => if t < b then b else b + 1
  | .popRace b _ => b + 1
  | .popRestore b _ => b + 1
  | _ => bottom

def State.limit (s : State T ι) : ℤ := limitOf s.bottom s.owner

/-- The open positions with their stamps, and what was handed out so far. -/
def State.window (s : State T ι) : StampedWindow :=
  ⟨s.top, s.limit, s.stamp, s.accepted.length, s.handed⟩

/-- What the owner's local variables say about `bottom_` and `top_`. -/
def OwnerOk (c : Capacity) (bottom top : ℤ) : OwnerPc T → Prop
  | .idle => True
  | .pushBottom _ b => bottom = b
  | .pushRoom _ b => bottom = b ∧ b - top < c.kMaxSize
  | .pushWritten _ b => bottom = b ∧ b - top < c.kMaxSize
  | .popBottom b => bottom = b + 1
  | .popStored b => bottom = b
  | .popTop b t => bottom = b ∧ t ≤ top
  | .popRace b _ => bottom = b ∧ b ≤ top
  | .popRestore b _ => bottom = b ∧ b < top

/-- What a thief's local variables say: if `top_` still is the `t` it loaded,
then the position `t` that it is about to claim is open. -/
def ThiefOk (top limit : ℤ) : ThiefPc T → Prop
  | .stealTop t => t ≤ top
  | .stealBottom t => t ≤ top ∧ (top = t → t < limit)
  | .stealRead t _ => t ≤ top ∧ (top = t → t < limit)
  | .takeTop _ n => 0 < n
  | _ => True

structure Inv (c : Capacity) (s : State T ι) : Prop where
  owner : OwnerOk c s.bottom s.top s.owner
  thief : ∀ i, ThiefOk s.top s.limit (s.thief i)
  nonneg : 0 ≤ s.top
  room : s.limit ≤ s.top + c.kMaxSize
  good : s.window.Good

theorem inv_init (c : Capacity) : Inv c (init T ι) where
  owner := trivial
  thief := fun _ => trivial
  nonneg := le_rfl
  room := by simp [init, State.limit, limitOf]
  good := StampedWindow.Good.empty 0 _

theorem Inv.bottom_le {c : Capacity} {s : State T ι} (h : Inv c s) :
    s.bottom ≤ s.limit ∧ s.limit ≤ s.bottom + 1 := by
  have ho := h.owner
  unfold State.limit limitOf
  unfold OwnerOk at ho
  split
  · simp_all
  · rename_i b t heq
    simp only [heq] at ho
    split <;> omega
  · simp_all
  · simp_all
  · exact ⟨le_rfl, by omega⟩

/-- A thief's facts survive when `top_` moves on, and when `top_` stays and the
position it points to stays open. -/
theorem ThiefOk.mono {top limit top' limit' : ℤ} {pc : ThiefPc T} (h : ThiefOk top limit pc)
    (hmove : top < top' ∨ top' = top ∧ (limit ≤ limit' ∨ top < limit')) :
    ThiefOk top' limit' pc := by
  cases pc with
  | stealTop t =>
    simp only [ThiefOk] at h ⊢
    omega
  | stealBottom t =>
    obtain ⟨ht, hopen⟩ := h
    refine ⟨by omega, fun heq => ?_⟩
    rcases hmove with hlt | ⟨hsame, hle | hlt⟩
    · omega
    · have := hopen (by omega)
      omega
    · omega
  | stealRead t task =>
    obtain ⟨ht, hopen⟩ := h
    refine ⟨by omega, fun heq => ?_⟩
    rcases hmove with hlt | ⟨hsame, hle | hlt⟩
    · omega
    · have := hopen (by omega)
      omega
    · omega
  | takeTop t n => exact h
  | idle | takeBottom _ | takeCopy _ _ _ => trivial

theorem OwnerOk.mono {c : Capacity} {bottom top top' : ℤ} {pc : OwnerPc T}
    (h : OwnerOk c bottom top pc) (hle : top ≤ top') : OwnerOk c bottom top' pc := by
  cases pc with
  | idle => trivial
  | pushBottom _ b | popBottom b | popStored b => exact h
  | pushRoom _ b | pushWritten _ b =>
    obtain ⟨hb, hr⟩ := h
    exact ⟨hb, by omega⟩
  | popTop b t | popRace b _ | popRestore b _ =>
    obtain ⟨hb, hr⟩ := h
    exact ⟨hb, by omega⟩

/-! ### The three kinds of steps -/

/-- A step keeps the invariant and is a step of the window. -/
structure Refines (c : Capacity) (s s' : State T ι) : Prop where
  inv : Inv c s'
  win : s.window.Step s'.window

section

variable {c : Capacity} {s : State T ι}

/-- The owner moves without touching the window. -/
theorem Inv.owner_stay (h : Inv c s) {s' : State T ι} (htop : s'.top = s.top)
    (hthief : s'.thief = s.thief) (hwin : s'.window = s.window)
    (howner : OwnerOk c s'.bottom s.top s'.owner) : Refines c s s' := by
  have hlim : s'.limit = s.limit := congrArg StampedWindow.hi hwin
  refine ⟨⟨htop ▸ howner, ?_, htop ▸ h.nonneg, ?_, hwin ▸ h.good⟩, hwin ▸ .stay _⟩
  · intro i
    rw [hthief, htop, hlim]
    exact h.thief i
  · rw [htop, hlim]
    exact h.room

/-- Some thread claims the first `n > 0` open positions. -/
theorem Inv.claim (h : Inv c s) {n : ℕ} (hn : 0 < n) (hopen : s.top + n ≤ s.limit)
    {s' : State T ι} (hwin : s'.window = s.window.takeFront n)
    (hthief : ∀ i, s'.thief i = s.thief i ∨ s'.thief i = .idle ∨
      ∃ t m out, s'.thief i = .takeCopy t m out)
    (howner : OwnerOk c s'.bottom s'.top s'.owner) : Refines c s s' := by
  have hstep : s.window.Step s'.window := hwin ▸ .takeFront _ n hopen
  have htop : s'.top = s.top + n := congrArg StampedWindow.lo hwin
  have hlim : s'.limit = s.limit := congrArg StampedWindow.hi hwin
  have hnn := h.nonneg
  have hroom := h.room
  refine ⟨⟨howner, ?_, by omega, by omega, h.good.step hstep⟩, hstep⟩
  intro i
  rcases hthief i with hi | hi | ⟨t, m, out, hi⟩
  · rw [hi]
    exact (h.thief i).mono (Or.inl (by omega))
  · rw [hi]
    trivial
  · rw [hi]
    trivial

variable [DecidableEq ι]

/-- A thief moves without claiming anything. -/
theorem Inv.thief_stay (h : Inv c s) (i : ι) (pc : ThiefPc T) (hpc : ThiefOk s.top s.limit pc)
    {s' : State T ι} (hs' : s'.thief = Function.update s.thief i pc) (htop : s'.top = s.top)
    (hown : s'.owner = s.owner) (hbot : s'.bottom = s.bottom) (hwin : s'.window = s.window) :
    Refines c s s' := by
  have hlim : s'.limit = s.limit := congrArg StampedWindow.hi hwin
  refine ⟨⟨by rw [hown, hbot, htop]; exact h.owner, ?_, htop ▸ h.nonneg, ?_, hwin ▸ h.good⟩,
    hwin ▸ .stay _⟩
  · intro j
    rw [hs', htop, hlim]
    by_cases hj : j = i
    · subst hj
      rwa [Function.update_self]
    · rw [Function.update_of_ne hj]
      exact h.thief j
  · rw [htop, hlim]
    exact h.room

end

/-! ### Every step keeps the invariant -/

/-- A successful `TakeHalf` claims open positions only: at its compare-exchange,
if `top_` still is `t`, the `num_to_take` positions from `t` end at or below the
limit. -/
def ClaimsOpen (s : State T ι) : Label T ι → Prop
  | .thief i _ =>
    match s.thief i with
    | .takeTop t n => s.top = t → t + n ≤ s.limit
    | _ => True
  | _ => True

/-- What `ClaimsOpen` asks of a thief at `pc`. -/
def ThiefPc.ClaimsOpen (s : State T ι) : ThiefPc T → Prop
  | .takeTop t n => s.top = t → t + n ≤ s.limit
  | _ => True

instance (s : State T ι) (pc : ThiefPc T) : Decidable (pc.ClaimsOpen s) :=
  match pc with
  | .takeTop t n => inferInstanceAs (Decidable (s.top = t → t + n ≤ s.limit))
  | .idle | .stealTop _ | .stealBottom _ | .stealRead _ _ | .takeBottom _ | .takeCopy _ _ _ =>
    isTrue trivial

instance (s : State T ι) (l : Label T ι) : Decidable (ClaimsOpen s l) :=
  match l with
  | .thief i _ => inferInstanceAs (Decidable ((s.thief i).ClaimsOpen s))
  | .push _ | .tryPop | .owner | .steal _ | .takeHalf _ => isTrue trivial

theorem ownerStep_refines {c : Capacity} {s s' : State T ι} (h : Inv c s)
    (hs : ownerStep c s = some s') : Refines c s s' := by
  have ho := h.owner
  cases hpc : s.owner with
  | idle => simp [ownerStep, hpc] at hs
  | pushBottom node b =>
    rw [hpc] at ho
    simp only [ownerStep, hpc] at hs
    by_cases hroom : b - s.top < c.kMaxSize
    · rw [if_pos hroom, Option.some_inj] at hs
      subst hs
      exact h.owner_stay rfl rfl (by simp [State.window, State.limit, limitOf, hpc]) ⟨ho, hroom⟩
    · rw [if_neg hroom, Option.some_inj] at hs
      subst hs
      exact h.owner_stay rfl rfl (by simp [State.window, State.limit, limitOf, hpc]) trivial
  | pushRoom node b =>
    rw [hpc] at ho
    simp only [ownerStep, hpc, Option.some_inj] at hs
    subst hs
    exact h.owner_stay rfl rfl (by simp [State.window, State.limit, limitOf, hpc]) ho
  | pushWritten node b =>
    rw [hpc] at ho
    obtain ⟨hb, hroom⟩ := ho
    simp only [ownerStep, hpc, Option.some_inj] at hs
    have hlim : s.limit = b := by simp [State.limit, limitOf, hpc, hb]
    have hwin : s'.window = s.window.push := by
      subst hs
      simp [State.window, State.limit, limitOf, hpc, hb, StampedWindow.push]
    have hstep : s.window.Step s'.window := hwin ▸ .push _
    subst hs
    refine ⟨⟨trivial, ?_, h.nonneg, ?_, h.good.step hstep⟩, hstep⟩
    · refine fun i => (h.thief i).mono (Or.inr ⟨rfl, Or.inl ?_⟩)
      rw [hlim]
      simp [State.limit, limitOf]
    · simp only [State.limit, limitOf]
      omega
  | popBottom b =>
    rw [hpc] at ho
    simp only [ownerStep, hpc, Option.some_inj] at hs
    subst hs
    have hb : s.bottom = b + 1 := ho
    exact h.owner_stay rfl rfl (by simp [State.window, State.limit, limitOf, hpc, hb]) rfl
  | popStored b =>
    rw [hpc] at ho
    simp only [ownerStep, hpc, Option.some_inj] at hs
    have hlim : s.limit = b + 1 := by simp [State.limit, limitOf, hpc]
    by_cases hlt : s.top < b
    · -- the owner takes the last open position
      have hwin : s'.window = s.window.takeBack := by
        subst hs
        simp [State.window, State.limit, limitOf, hpc, StampedWindow.takeBack, hlt]
      have hstep : s.window.Step s'.window :=
        hwin ▸ .takeBack _ (by simp only [State.window]; omega)
      have hroom := h.room
      subst hs
      refine ⟨⟨⟨ho, le_rfl⟩, ?_, h.nonneg, ?_, h.good.step hstep⟩, hstep⟩
      · refine fun i => (h.thief i).mono (Or.inr ⟨rfl, Or.inr ?_⟩)
        simp [State.limit, limitOf, hlt]
      · simp only [State.limit, limitOf, if_pos hlt]
        omega
    · subst hs
      exact h.owner_stay rfl rfl (by simp [State.window, State.limit, limitOf, hpc, hlt])
        ⟨ho, le_rfl⟩
  | popTop b t =>
    rw [hpc] at ho
    obtain ⟨hb, ht⟩ := ho
    simp only [ownerStep, hpc] at hs
    by_cases hle : t ≤ b
    · rw [if_pos hle] at hs
      by_cases heq : t = b
      · rw [if_pos heq, Option.some_inj] at hs
        subst hs
        exact h.owner_stay rfl rfl (by simp [State.window, State.limit, limitOf, hpc, heq])
          ⟨hb, by omega⟩
      · have hlt : t < b := by omega
        rw [if_neg heq, Option.some_inj] at hs
        subst hs
        exact h.owner_stay rfl rfl (by simp [State.window, State.limit, limitOf, hpc, hlt, hb])
          trivial
    · have hlt : ¬ t < b := by omega
      rw [if_neg hle, Option.some_inj] at hs
      subst hs
      exact h.owner_stay rfl rfl (by simp [State.window, State.limit, limitOf, hpc, hlt]) trivial
  | popRace b task =>
    rw [hpc] at ho
    obtain ⟨hb, ht⟩ := ho
    have hlim : s.limit = b + 1 := by simp [State.limit, limitOf, hpc]
    simp only [ownerStep, hpc] at hs
    by_cases heq : s.top = b
    · -- the owner wins the last open position
      rw [if_pos heq, Option.some_inj] at hs
      subst hs
      refine h.claim (n := 1) one_pos (by rw [hlim, heq]; simp) ?_ (fun i => Or.inl rfl)
        ⟨hb, by simp⟩
      simp [State.window, State.limit, limitOf, hpc, StampedWindow.takeFront, heq]
    · rw [if_neg heq, Option.some_inj] at hs
      subst hs
      exact h.owner_stay rfl rfl (by simp [State.window, State.limit, limitOf, hpc])
        ⟨hb, by omega⟩
  | popRestore b task =>
    simp only [ownerStep, hpc, Option.some_inj] at hs
    subst hs
    exact h.owner_stay rfl rfl (by simp [State.window, State.limit, limitOf, hpc]) trivial

variable [DecidableEq ι]

theorem thiefStep_refines {c : Capacity} {s s' : State T ι} {i : ι} {spurious : Bool}
    (h : Inv c s) (hopen : ClaimsOpen s (.thief i spurious))
    (hs : thiefStep c s i spurious = some s') : Refines c s s' := by
  have ht := h.thief i
  have hidle : Refines c s (s.setThief i .idle) :=
    h.thief_stay i .idle trivial rfl rfl rfl rfl rfl
  have hbl := h.bottom_le
  have hupd : ∀ (pc : ThiefPc T) j, Function.update s.thief i pc j = s.thief j ∨
      Function.update s.thief i pc j = pc := by
    intro pc j
    by_cases hj : j = i
    · subst hj
      exact Or.inr (Function.update_self ..)
    · exact Or.inl (Function.update_of_ne hj ..)
  cases hpc : s.thief i with
  | idle => simp [thiefStep, hpc] at hs
  | stealTop t =>
    rw [hpc] at ht
    simp only [thiefStep, hpc] at hs
    by_cases hlt : t < s.bottom
    · rw [if_pos hlt, Option.some_inj] at hs
      subst hs
      refine h.thief_stay i (.stealBottom t) ⟨ht, fun _ => ?_⟩ rfl rfl rfl rfl rfl
      omega
    · rw [if_neg hlt, Option.some_inj] at hs
      exact hs ▸ hidle
  | stealBottom t =>
    rw [hpc] at ht
    simp only [thiefStep, hpc, Option.some_inj] at hs
    subst hs
    exact h.thief_stay i (.stealRead t _) ht rfl rfl rfl rfl rfl
  | stealRead t task =>
    rw [hpc] at ht
    simp only [thiefStep, hpc] at hs
    by_cases hcas : s.top = t ∧ spurious = false
    · rw [if_pos hcas, Option.some_inj] at hs
      have hlt := ht.2 hcas.1
      have ho := h.owner
      subst hs
      refine h.claim (n := 1) one_pos ?_ ?_ ?_ ?_
      · push_cast
        omega
      · simp [State.window, State.limit, State.setThief, StampedWindow.takeFront, hcas.1]
      · exact fun j => (hupd .idle j).imp_right Or.inl
      · exact ho.mono (by simp only; omega)
    · rw [if_neg hcas, Option.some_inj] at hs
      exact hs ▸ hidle
  | takeBottom b =>
    simp only [thiefStep, hpc] at hs
    by_cases hsz : b - s.top ≤ 0
    · rw [if_pos hsz, Option.some_inj] at hs
      exact hs ▸ hidle
    · rw [if_neg hsz, Option.some_inj] at hs
      subst hs
      exact h.thief_stay i (.takeTop _ _) (numToTake_pos (by omega)) rfl rfl rfl rfl rfl
  | takeTop t n =>
    rw [hpc] at ht
    simp only [ClaimsOpen, hpc] at hopen
    simp only [thiefStep, hpc] at hs
    by_cases hcas : s.top = t
    · rw [if_pos hcas, Option.some_inj] at hs
      have hle := hopen hcas
      have ho := h.owner
      subst hs
      refine h.claim (n := n) ht (by omega) ?_ ?_ ?_
      · simp [State.window, State.limit, State.setThief, StampedWindow.takeFront, hcas]
      · exact fun j => (hupd _ j).imp_right fun hj => Or.inr ⟨t, n, [], hj⟩
      · exact ho.mono (by simp only; omega)
    · rw [if_neg hcas, Option.some_inj] at hs
      exact hs ▸ hidle
  | takeCopy t n out =>
    simp only [thiefStep, hpc] at hs
    split at hs
    · rw [Option.some_inj] at hs
      subst hs
      exact h.thief_stay i (.takeCopy t n _) trivial rfl rfl rfl rfl rfl
    · rw [Option.some_inj] at hs
      subst hs
      exact h.thief_stay i .idle trivial rfl rfl rfl rfl rfl

/-- **One step of the deque** keeps the invariant and is a step of its window. -/
theorem step_refines {c : Capacity} {s s' : State T ι} {l : Label T ι} (h : Inv c s)
    (hopen : ClaimsOpen s l) (hs : step c s l = some s') : Refines c s s' := by
  cases l with
  | push node =>
    simp only [step] at hs
    split at hs
    · rename_i hpc
      rw [Option.some_inj] at hs
      subst hs
      exact h.owner_stay rfl rfl (by simp [State.window, State.limit, limitOf, hpc]) rfl
    · cases hs
  | tryPop =>
    simp only [step] at hs
    split at hs
    · rename_i hpc
      rw [Option.some_inj] at hs
      subst hs
      exact h.owner_stay rfl rfl (by simp [State.window, State.limit, limitOf, hpc])
        (by simp [OwnerOk])
    · cases hs
  | owner => exact ownerStep_refines h hs
  | steal i =>
    simp only [step] at hs
    split at hs
    · rw [Option.some_inj] at hs
      subst hs
      exact h.thief_stay i (.stealTop s.top) le_rfl rfl rfl rfl rfl rfl
    · cases hs
  | takeHalf i =>
    simp only [step] at hs
    split at hs
    · rw [Option.some_inj] at hs
      subst hs
      exact h.thief_stay i (.takeBottom s.bottom) trivial rfl rfl rfl rfl rfl
    · cases hs
  | thief i spurious => exact thiefStep_refines h hopen hs

/-- **Refinement.**  A run whose `TakeHalf`s claim open positions only keeps the
invariant, and is a run of the window of open positions. -/
theorem run_refines {c : Capacity} {s : State T ι} {ls : List (Label T ι)}
    (hopen : StepSystem.Meets (step c) ClaimsOpen (init T ι) ls)
    (hrun : StepSystem.run (step c) (init T ι) ls = some s) :
    Inv c s ∧ Relation.ReflTransGen StampedWindow.Step (init T ι).window s.window := by
  refine StepSystem.run_invariant_of_meets
    (I := fun s => Inv c s ∧ Relation.ReflTransGen StampedWindow.Step (init T ι).window s.window)
    ?_ ⟨inv_init c, .refl⟩ hopen hrun
  intro s l s' h hC hs
  have hstep := step_refines h.1 hC hs
  exact ⟨hstep.inv, h.2.tail hstep.win⟩

end SpmcQueue
