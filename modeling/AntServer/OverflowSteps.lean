/-
The overflow path of `WorkStealingExecutor::schedule`, access by access.

Worker `i`'s own thread calls `schedule(task, i)` while its LIFO slot is occupied and its
local queue is full.  The loops that copy and link the batch are taken by index.  The thieves
are those of `SpmcQueue`: `Steal` and `TakeHalf` step by step between any two accesses of the
call, so that a thief may have moved `top_` over positions whose slots it has not copied yet;
with the links of what it has, a thief does as it likes.

* `step` — the accesses of the call (`own`) and of the thieves;
* `held` — who has each position of the full queue, and `Kept` — each is in one place;
* `Kept.thief` — **a thief's step keeps this**, as long as nothing is stored.

`ExecutorOverflow.lean` has what the call does.
-/
import AntServer.SpmcDeque
import AntServer.SpmcCopy
import AntServer.ExecutorMoves

namespace Overflow

open SpmcQueue (Capacity ThiefPc numToTake numToTake_pos numToTake_le span mem_span nodup_span)

variable {Task ι : Type*}

/-- Where the call stands, with its local variables. -/
inductive Pc (Task : Type*)
  | entry
  | push                                                  -- `w.queue.Push(task)`
  | pushWrite (b : ℤ)
  | pushStore (b : ℤ)
  | takeHalf                                              -- `w.queue.TakeHalf(batch)`
  | takeCas (t : ℤ) (n : ℕ)
  | copy (t : ℤ) (n i : ℕ) (batch : ℕ → Option Task)
  | link (count i : ℕ) (batch : ℕ → Option Task)
  | pushBatch (batch : ℕ → Option Task)
  | pushOne
  | done

structure State (Task ι : Type*) where
  queue : SpmcQueue.State Task ι          -- the local queue, with the thieves
  lifoSlot : Option Task
  next : Task → Option Task
  globalQueue : IntrusiveSpinLockQueue Task
  pc : Pc Task
  -- history
  full : Bool                             -- `Push` returned false
  lost : Bool                             -- `TakeHalf` lost its compare-exchange

/-- Where a task is.  `global` is also the way there. -/
inductive Place (ι : Type*)
  | returned                              -- a thief's `Steal` has returned it
  | batches                               -- a thief's `TakeHalf` has returned it
  | thief (i : ι)                         -- claimed by `TakeHalf` of thief `i`
  | queue
  | global
deriving DecidableEq

/-- What the thieves have been handed so far. -/
def inHand (q : SpmcQueue.State Task ι) : Place ι → List (Option Task)
  | .returned => q.returned.map Prod.snd
  | .batches => q.batches.flatMap fun x => x.2.2
  | .thief i =>
    match q.thief i with
    | .takeCopy _ _ out => out
    | _ => []
  | .queue | .global => []

inductive Label (Task ι : Type*)
  | own
  | thief (l : SpmcQueue.Label Task ι)
  | relink (p : Place ι) (node : Task) (v : Option Task)    -- a thief writes a link

/-- A step of a thief. -/
def byThief : SpmcQueue.Label Task ι → Bool
  | .steal _ | .takeHalf _ | .thief _ _ => true
  | .push _ | .tryPop | .owner => false

section Steps

variable [DecidableEq Task] [DecidableEq ι] (c : Capacity) (task : Task)

/-- The next access of the call. -/
def ownStep (s : State Task ι) : Option (State Task ι) :=
  match s.pc with
  | .entry =>
    match s.lifoSlot with
    | none => some { s with lifoSlot := some task, pc := .done }
    | some _ => some { s with pc := .push }
  | .push =>
    let b := s.queue.bottom
    let t := s.queue.top
    if b - t < c.kMaxSize then some { s with pc := .pushWrite b }
    else some { s with full := true, pc := .takeHalf }
  | .pushWrite b =>
    some { s with
      queue := { s.queue with buffer := Function.update s.queue.buffer (c.slot b) (some task) }
      pc := .pushStore b }
  | .pushStore b => some { s with queue := { s.queue with bottom := b + 1 }, pc := .done }
  | .takeHalf =>
    let size := s.queue.bottom - s.queue.top
    if size ≤ 0 then some { s with pc := .pushOne }
    else some { s with pc := .takeCas s.queue.top (numToTake size) }
  | .takeCas t n =>
    if s.queue.top = t then
      some { s with
        queue := { s.queue with top := t + n }
        pc := .copy t n 0 fun _ => none }
    else some { s with lost := true, pc := .pushOne }
  | .copy t n i batch =>
    if i < n then
      some { s with
        pc := .copy t n (i + 1) (Function.update batch i (s.queue.buffer (c.slot (t + i)))) }
    else if 0 < n then some { s with pc := .link n 0 batch }
    else some { s with pc := .pushOne }
  | .link count i batch =>
    -- a null pointer would be followed
    if i < count - 1 then
      (batch i).map fun node =>
        { s with
          next := Function.update s.next node (batch (i + 1))
          pc := .link count (i + 1) batch }
    else
      (batch (count - 1)).map fun node =>
        { s with
          next := Function.update (Function.update s.next node (some task)) task none
          pc := .pushBatch batch }
  | .pushBatch batch =>
    match batch 0 with
    | none => some { s with pc := .done }
    | some first =>
      let r := s.globalQueue.pushBatch s.next first task
      some { s with next := r.1, globalQueue := r.2, pc := .done }
  | .pushOne =>
    let r := s.globalQueue.push s.next task
    some { s with next := r.1, globalQueue := r.2, pc := .done }
  | .done => none

/-- The call and the thieves, also behind the end of the call. -/
def step (s : State Task ι) : Label Task ι → Option (State Task ι)
  | .own => ownStep c task s
  | .thief l =>
    if byThief l then (SpmcQueue.step c s.queue l).map fun q => { s with queue := q } else none
  | .relink p node v =>
    if some node ∈ inHand s.queue p then some { s with next := Function.update s.next node v }
    else none

end Steps

/-- The call starts. -/
def start (q : SpmcQueue.State Task ι) (lifo : Task) (next : Task → Option Task)
    (g : IntrusiveSpinLockQueue Task) : State Task ι where
  queue := q
  lifoSlot := some lifo
  next := next
  globalQueue := g
  pc := .entry
  full := false
  lost := false

/-! ### The positions of the full queue -/

/-- What is stored for the position `p`. -/
def value (c : Capacity) (q : SpmcQueue.State Task ι) (p : ℤ) : Option Task :=
  q.buffer (c.slot p)

/-- Who has each position: the positions `rs` were returned by `Steal`, `bs` by `TakeHalf`,
and `own` are those that the call has claimed. -/
def held (q : SpmcQueue.State Task ι) (rs bs own : List ℤ) : Place ι → List ℤ
  | .returned => rs
  | .batches => bs
  | .thief i => (q.thief i).claim
  | .queue => span q.top (q.bottom - q.top).toNat
  | .global => own

/-- What the local variables of a thief say.  Before its compare-exchange they need to be
right only if `top_` is still what the thief has loaded. -/
def Ready (c : Capacity) (q : SpmcQueue.State Task ι) : ThiefPc Task → Prop
  | .idle => True
  | .stealTop t => t ≤ q.top
  | .stealBottom t => t ≤ q.top ∧ t < q.bottom
  | .stealRead t task => t ≤ q.top ∧ (q.top = t → t < q.bottom ∧ task = value c q t)
  | .takeBottom b => b ≤ q.bottom
  | .takeTop t n => t ≤ q.top ∧ (q.top = t → 0 < n ∧ t + n ≤ q.bottom)
  | .takeCopy t n out => out.length < n ∧ out = (span t out.length).map (value c q)

/-- Every position of the full queue `q₀` is in one place, and what the thieves have is what
was stored there. -/
structure Kept (c : Capacity) (q₀ q : SpmcQueue.State Task ι) (rs bs own : List ℤ) : Prop where
  buffer : q.buffer = q₀.buffer
  bottom : q.bottom = q₀.bottom
  top_le : q.top ≤ q.bottom
  separate : Separate (held q rs bs own)
  within : ∀ p, Within (held q rs bs own) p ↔ q₀.top ≤ p ∧ p < q₀.bottom
  returned : q.returned.map Prod.snd = rs.map (value c q₀)
  batches : (q.batches.flatMap fun x => x.2.2) = bs.map (value c q₀)
  ready : ∀ i, Ready c q (q.thief i)

/-- So the call finds the thieves: none of them has a claim, each is idle or still before its
compare-exchange.  (A claim on `p` not copied yet, at a full queue, was overwritten before the
call: `p + kMaxSize` is stored in the same slot.)  The history begins here. -/
structure Fresh (c : Capacity) (q : SpmcQueue.State Task ι) : Prop where
  ready : ∀ i, Ready c q (q.thief i)
  unclaimed : ∀ i, (q.thief i).claim = []
  returned : q.returned = []
  batches : q.batches = []

theorem span_append (t : ℤ) (m n : ℕ) : span t (m + n) = span t m ++ span (t + m) n := by
  simp only [span, List.range_add, List.map_append, List.map_map]
  congr 1
  refine List.map_congr_left fun k _ => ?_
  show t + ((m + k : ℕ) : ℤ) = t + m + k
  push_cast
  ring

theorem length_span (t : ℤ) (n : ℕ) : (span t n).length = n := by
  rw [span, List.length_map, List.length_range]

theorem contents_eq_map_span (c : Capacity) (q : SpmcQueue.State Task ι) :
    q.ring.contents c = (span q.top (q.bottom - q.top).toNat).map (value c q) := by
  rw [span, List.map_map]
  rfl

section Kept

variable {c : Capacity} {q₀ q q' : SpmcQueue.State Task ι} {rs bs own : List ℤ}

theorem Ready.mono (hbuffer : q'.buffer = q.buffer) (hbottom : q'.bottom = q.bottom)
    (htop : q.top ≤ q'.top) {pc : ThiefPc Task} (h : Ready c q pc) : Ready c q' pc := by
  have hvalue : value c q' = value c q := by
    funext p
    rw [value, value, hbuffer]
  cases pc with
  | idle => trivial
  | stealTop t => exact le_trans h htop
  | stealBottom t => exact ⟨h.1.trans htop, hbottom ▸ h.2⟩
  | stealRead t task =>
    refine ⟨h.1.trans htop, fun heq => ?_⟩
    rw [hbottom, hvalue]
    exact h.2 (le_antisymm (heq ▸ htop) h.1)
  | takeBottom b => exact le_of_le_of_eq h hbottom.symm
  | takeTop t n =>
    refine ⟨h.1.trans htop, fun heq => ?_⟩
    rw [hbottom]
    exact h.2 (le_antisymm (heq ▸ htop) h.1)
  | takeCopy t n out =>
    rw [Ready, hvalue]
    exact h

/-- The whole queue, when the call starts. -/
theorem Fresh.kept (h : Fresh c q) (hle : q.top ≤ q.bottom) : Kept c q q [] [] [] where
  buffer := rfl
  bottom := rfl
  top_le := hle
  separate := by
    refine ⟨fun p => ?_, fun p p' hne a ha ha' => ?_⟩
    · cases p with
      | thief i => exact (h.unclaimed i).symm ▸ List.nodup_nil
      | queue => exact nodup_span _ _
      | returned | batches | global => exact List.nodup_nil
    · have hqueue : ∀ {p : Place ι}, a ∈ held q [] [] [] p → p = .queue := by
        intro p hp
        cases p with
        | thief i => exact absurd hp (by simp [held, h.unclaimed i])
        | queue => rfl
        | returned | batches | global => exact absurd hp List.not_mem_nil
      exact hne ((hqueue ha).trans (hqueue ha').symm)
  within := by
    intro p
    constructor
    · rintro ⟨place, hp⟩
      cases place with
      | thief i => exact absurd hp (by simp [held, h.unclaimed i])
      | queue =>
        have := mem_span.mp hp
        omega
      | returned | batches | global => exact absurd hp List.not_mem_nil
    · intro hp
      exact ⟨.queue, mem_span.mpr (by omega)⟩
  returned := by rw [h.returned]; rfl
  batches := by rw [h.batches]; rfl
  ready := h.ready

theorem Kept.value_eq (h : Kept c q₀ q rs bs own) : value c q = value c q₀ := by
  funext p
  rw [value, value, h.buffer]

theorem Kept.le_top (h : Kept c q₀ q rs bs own) (hle : q₀.top ≤ q₀.bottom) : q₀.top ≤ q.top := by
  have hbottom := h.bottom
  have htop := h.top_le
  by_cases hlt : q.top < q.bottom
  · exact ((h.within q.top).mp ⟨.queue, mem_span.mpr (by omega)⟩).1
  · omega

/-- Positions move from one place to another. -/
theorem Kept.move (h : Kept c q₀ q rs bs own) {rs' bs' own' : List ℤ} {p p' : Place ι}
    (hne : p ≠ p')
    (hperm : (held q' rs' bs' own' p ++ held q' rs' bs' own' p').Perm
      (held q rs bs own p ++ held q rs bs own p'))
    (hrest : ∀ r, r ≠ p → r ≠ p' → held q' rs' bs' own' r = held q rs bs own r)
    (hbuffer : q'.buffer = q.buffer) (hbottom : q'.bottom = q.bottom) (htop : q'.top ≤ q.bottom)
    (hreturned : q'.returned.map Prod.snd = rs'.map (value c q₀))
    (hbatches : (q'.batches.flatMap fun x => x.2.2) = bs'.map (value c q₀))
    (hready : ∀ j, Ready c q' (q'.thief j)) : Kept c q₀ q' rs' bs' own' := by
  obtain ⟨hseparate, hwithin⟩ := h.separate.move hne hperm hrest
  exact ⟨hbuffer.trans h.buffer, hbottom.trans h.bottom, hbottom.symm ▸ htop, hseparate,
    fun a => (hwithin a).trans (h.within a), hreturned, hbatches, hready⟩

theorem span_queue {n : ℕ} (hn : q.top + n ≤ q.bottom) :
    span q.top (q.bottom - q.top).toNat =
      span q.top n ++ span (q.top + n) (q.bottom - (q.top + n)).toNat := by
  have hlen : (q.bottom - q.top).toNat = n + (q.bottom - (q.top + n)).toNat := by omega
  rw [hlen, span_append]

/-- The call claims the positions from `top_` on. -/
theorem Kept.claim (h : Kept c q₀ q rs bs []) {n : ℕ} (hn : q.top + n ≤ q.bottom) :
    Kept c q₀ { q with top := q.top + n } rs bs (span q.top n) := by
  have hne : (Place.queue : Place ι) ≠ .global := fun he => by cases he
  refine h.move hne ?_ (fun r hr hr' => ?_) rfl rfl hn h.returned h.batches fun j => ?_
  · show (span (q.top + n) (q.bottom - (q.top + n)).toNat ++ span q.top n).Perm
      (span q.top (q.bottom - q.top).toNat ++ [])
    rw [List.append_nil, span_queue hn]
    exact List.perm_append_comm
  · cases r with
    | queue => exact absurd rfl hr
    | global => exact absurd rfl hr'
    | returned | batches | thief j => rfl
  · refine (h.ready j).mono ?_ ?_ ?_
    · rfl
    · rfl
    · show q.top ≤ q.top + n
      omega

variable [DecidableEq ι] {i : ι}

/-- A thief goes on without a new claim. -/
theorem Kept.setThief (h : Kept c q₀ q rs bs own) {pc : ThiefPc Task}
    (hclaim : pc.claim = (q.thief i).claim) (hpc : Ready c q pc) :
    Kept c q₀ (q.setThief i pc) rs bs own := by
  have hheld : held (q.setThief i pc) rs bs own = held q rs bs own := by
    funext p
    cases p with
    | thief j =>
      show (Function.update q.thief i pc j).claim = (q.thief j).claim
      by_cases hj : j = i
      · subst hj
        rw [Function.update_self, hclaim]
      · rw [Function.update_of_ne hj]
    | returned | batches | queue | global => rfl
  refine ⟨h.buffer, h.bottom, h.top_le, hheld ▸ h.separate, fun p => ?_, h.returned, h.batches,
    fun j => ?_⟩
  · rw [hheld]
    exact h.within p
  · show Ready c (q.setThief i pc) (Function.update q.thief i pc j)
    by_cases hj : j = i
    · subst hj
      rw [Function.update_self]
      exact hpc.mono rfl rfl le_rfl
    · rw [Function.update_of_ne hj]
      exact (h.ready j).mono rfl rfl le_rfl

/-- A thief and its claim after its own step. -/
theorem held_setThief (pc : ThiefPc Task) (p : Place ι) (hp : p ≠ .thief i) :
    held (q.setThief i pc) rs bs own p = held q rs bs own p := by
  cases p with
  | thief j =>
    have hj : j ≠ i := fun he => hp (by rw [he])
    show (Function.update q.thief i pc j).claim = (q.thief j).claim
    rw [Function.update_of_ne hj]
  | returned | batches | queue | global => rfl

theorem ready_setThief (hready : ∀ j, Ready c q (q.thief j)) {pc : ThiefPc Task}
    (hbuffer : q'.buffer = q.buffer) (hbottom : q'.bottom = q.bottom) (htop : q.top ≤ q'.top)
    (hpc : Ready c q' pc) (j : ι) : Ready c q' (Function.update q.thief i pc j) := by
  by_cases hj : j = i
  · subst hj
    rw [Function.update_self]
    exact hpc
  · rw [Function.update_of_ne hj]
    exact (hready j).mono hbuffer hbottom htop

/-- `Steal` wins its compare-exchange. -/
theorem Kept.steal (h : Kept c q₀ q rs bs own) {task : Option Task}
    (hpc : q.thief i = .stealRead q.top task) (handed : List (ℤ × ℕ)) :
    Kept c q₀ { q.setThief i .idle with
      top := q.top + 1
      handed := handed
      returned := q.returned ++ [(q.stamp q.top, task)] } (rs ++ [q.top]) bs own := by
  have hready := h.ready i
  rw [hpc] at hready
  obtain ⟨hlt, htask⟩ := hready.2 rfl
  have hne : (Place.queue : Place ι) ≠ .returned := fun he => by cases he
  refine h.move hne ?_ (fun r hr hr' => ?_) rfl rfl (Int.add_one_le_of_lt hlt) ?_ h.batches
    fun j => ?_
  · have hspan : span q.top (q.bottom - q.top).toNat =
        [q.top] ++ span (q.top + 1) (q.bottom - (q.top + 1)).toNat := by
      have := span_queue (q := q) (n := 1) (by push_cast; omega)
      simpa [span] using this
    show (span (q.top + 1) (q.bottom - (q.top + 1)).toNat ++ (rs ++ [q.top])).Perm
      (span q.top (q.bottom - q.top).toNat ++ rs)
    rw [hspan, ← List.append_assoc]
    exact List.perm_append_comm.trans (List.Perm.of_eq (List.append_assoc ..).symm)
  · by_cases hi : r = .thief i
    · subst hi
      show (Function.update q.thief i .idle i).claim = (q.thief i).claim
      rw [Function.update_self, hpc]
      rfl
    · refine Eq.trans ?_ (held_setThief .idle r hi)
      cases r with
      | queue => exact absurd rfl hr
      | returned => exact absurd rfl hr'
      | batches | thief j | global => rfl
  · rw [List.map_append, List.map_append, h.returned, List.map_singleton, List.map_singleton,
      htask, h.value_eq]
  · refine ready_setThief h.ready ?_ ?_ ?_ ?_ j
    · rfl
    · rfl
    · show q.top ≤ q.top + 1
      omega
    · trivial

/-- A thief's `TakeHalf` wins its compare-exchange. -/
theorem Kept.take (h : Kept c q₀ q rs bs own) {n : ℕ} (hpc : q.thief i = .takeTop q.top n)
    (handed : List (ℤ × ℕ)) :
    Kept c q₀ { q.setThief i (.takeCopy q.top n []) with
      top := q.top + n, handed := handed } rs bs own := by
  have hready := h.ready i
  rw [hpc] at hready
  obtain ⟨hpos, hn⟩ := hready.2 rfl
  have hne : (Place.queue : Place ι) ≠ .thief i := fun he => by cases he
  refine h.move hne ?_ (fun r hr hr' => ?_) rfl rfl hn h.returned h.batches fun j => ?_
  · show (span (q.top + n) (q.bottom - (q.top + n)).toNat ++
        (Function.update q.thief i (.takeCopy q.top n []) i).claim).Perm
      (span q.top (q.bottom - q.top).toNat ++ (q.thief i).claim)
    rw [Function.update_self, hpc, span_queue hn]
    show (span (q.top + n) _ ++ span q.top n).Perm (span q.top n ++ span (q.top + n) _ ++ [])
    rw [List.append_nil]
    exact List.perm_append_comm
  · refine Eq.trans ?_ (held_setThief (.takeCopy q.top n []) r hr')
    cases r with
    | queue => exact absurd rfl hr
    | returned | batches | thief j | global => rfl
  · refine ready_setThief h.ready ?_ ?_ ?_ ?_ j
    · rfl
    · rfl
    · show q.top ≤ q.top + n
      omega
    · exact ⟨hpos, rfl⟩

/-- A thief's `TakeHalf` has copied its last slot. -/
theorem Kept.return (h : Kept c q₀ q rs bs own) {t : ℤ} {n : ℕ} {out out' : List (Option Task)}
    (hpc : q.thief i = .takeCopy t n out) (hout : out' = (span t n).map (value c q₀)) :
    Kept c q₀ { q.setThief i .idle with batches := q.batches ++ [(i, t, out')] }
      rs (bs ++ span t n) own := by
  have hne : (Place.thief i : Place ι) ≠ .batches := fun he => by cases he
  refine h.move hne ?_ (fun r hr hr' => ?_) rfl rfl h.top_le h.returned ?_ fun j => ?_
  · show ((Function.update q.thief i .idle i).claim ++ (bs ++ span t n)).Perm
      ((q.thief i).claim ++ bs)
    rw [Function.update_self, hpc]
    show (bs ++ span t n).Perm (span t n ++ bs)
    exact List.perm_append_comm
  · refine Eq.trans ?_ (held_setThief .idle r hr)
    cases r with
    | batches => exact absurd rfl hr'
    | returned | thief j | queue | global => rfl
  · rw [List.flatMap_append, List.flatMap_singleton, h.batches, hout, List.map_append]
  · refine ready_setThief h.ready ?_ ?_ ?_ ?_ j
    · rfl
    · rfl
    · exact le_rfl
    · trivial

omit [DecidableEq ι] in
/-- One more slot is copied. -/
theorem copied_concat {t : ℤ} {out : List (Option Task)}
    (hout : out = (span t out.length).map (value c q)) :
    out ++ [value c q (t + out.length)] = (span t (out.length + 1)).map (value c q) := by
  rw [span_append, List.map_append, ← hout]
  simp [span]

/-- **A step of a thief** leaves every position in one place. -/
theorem Kept.thief (h : Kept c q₀ q rs bs own) {l : SpmcQueue.Label Task ι}
    (hl : byThief l = true) (hs : SpmcQueue.step c q l = some q') :
    ∃ rs' bs', Kept c q₀ q' rs' bs' own ∧ q.top ≤ q'.top := by
  cases l with
  | push node | tryPop | owner => cases hl
  | steal i =>
    rw [SpmcQueue.step] at hs
    split at hs
    next hpc =>
      cases hs
      exact ⟨rs, bs, h.setThief (by rw [hpc]; rfl) le_rfl, le_rfl⟩
    · cases hs
  | takeHalf i =>
    rw [SpmcQueue.step] at hs
    split at hs
    next hpc =>
      cases hs
      exact ⟨rs, bs, h.setThief (by rw [hpc]; rfl) le_rfl, le_rfl⟩
    · cases hs
  | thief i spurious =>
    have hready := h.ready i
    rw [SpmcQueue.step, SpmcQueue.thiefStep] at hs
    cases hpc : q.thief i with
    | idle => simp only [hpc, reduceCtorEq] at hs
    | stealTop t =>
      rw [hpc] at hready
      simp only [hpc] at hs
      split at hs
      next hlt =>
        cases hs
        exact ⟨rs, bs, h.setThief (by rw [hpc]; rfl) ⟨hready, hlt⟩, le_rfl⟩
      next =>
        cases hs
        exact ⟨rs, bs, h.setThief (by rw [hpc]; rfl) trivial, le_rfl⟩
    | stealBottom t =>
      rw [hpc] at hready
      simp only [hpc] at hs
      cases hs
      exact ⟨rs, bs, h.setThief (by rw [hpc]; rfl) ⟨hready.1, fun _ => ⟨hready.2, rfl⟩⟩, le_rfl⟩
    | stealRead t task =>
      simp only [hpc] at hs
      split at hs
      next hwin =>
        obtain ⟨rfl, -⟩ := hwin
        cases hs
        exact ⟨_, bs, h.steal hpc _, Int.le_add_one le_rfl⟩
      next =>
        cases hs
        exact ⟨rs, bs, h.setThief (by rw [hpc]; rfl) trivial, le_rfl⟩
    | takeBottom b =>
      rw [hpc] at hready
      have hb : b ≤ q.bottom := hready
      simp only [hpc] at hs
      split at hs
      next =>
        cases hs
        exact ⟨rs, bs, h.setThief (by rw [hpc]; rfl) trivial, le_rfl⟩
      next hsize =>
        cases hs
        have hpos : 0 < b - q.top := by omega
        have hle := numToTake_le hpos
        refine ⟨rs, bs, h.setThief (by rw [hpc]; rfl) ⟨le_rfl, fun _ => ?_⟩, le_rfl⟩
        exact ⟨numToTake_pos hpos, by omega⟩
    | takeTop t n =>
      simp only [hpc] at hs
      split at hs
      next htop =>
        subst htop
        cases hs
        exact ⟨rs, bs, h.take hpc _, Int.le_add_of_nonneg_right (Int.natCast_nonneg n)⟩
      next =>
        cases hs
        exact ⟨rs, bs, h.setThief (by rw [hpc]; rfl) trivial, le_rfl⟩
    | takeCopy t n out =>
      rw [hpc] at hready
      obtain ⟨hlt, hout⟩ := hready
      have hnext := copied_concat hout
      simp only [hpc] at hs
      split at hs
      next hmore =>
        cases hs
        refine ⟨rs, bs, h.setThief (by rw [hpc]; rfl) ⟨hmore, ?_⟩, le_rfl⟩
        rw [List.length_append, List.length_singleton]
        exact hnext
      next hlast =>
        cases hs
        rw [List.length_append, List.length_singleton] at hlast
        obtain rfl : n = out.length + 1 := by omega
        exact ⟨rs, _, h.return hpc (h.value_eq ▸ hnext), le_rfl⟩

end Kept

end Overflow
