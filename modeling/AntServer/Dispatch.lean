/-
The index arithmetic of dispatch (scheduler/executor.hpp, scheduler/scheduler.hpp).

Counts and indices are `std::size_t`, 64 bits; random draws are 32 bits; thread ids are `int`, 32
bits.  A remainder by zero and an index past the end of a vector are faults.

* `schedule`, `stealTask` — the worker indices of a call from outside and of a thief;
* `getIOContext`, `getNextIOContext` — the context indices;
* `Safe` — no call faults, the two candidates differ, and a thief that finds nothing has visited
  every other worker once;
* `safe_iff` — **dispatch is safe exactly for 1 to 2³¹ workers and at least one context**.  The
  constructors accept zero of either, and then the first call divides by zero.
-/
import AntServer.Executor

namespace Dispatch

abbrev SizeT := BitVec 64

inductive Fault where
  | moduloByZero
  | outOfRange (index : SizeT)
deriving DecidableEq

def modulo (a b : SizeT) : Except Fault SizeT :=
  if b = 0#64 then .error .moduloByZero else .ok (a % b)

/-- A vector of `size` elements is accessed at `index`. -/
def access (size index : SizeT) : Except Fault SizeT :=
  if index < size then .ok index else .error (.outOfRange index)

/-- `max_size()` of a vector of pointers; `reserve` throws for more. -/
def maxSize : ℕ := 2 ^ 60 - 1

/-- The constructors do not look at the counts; they only reserve that many pointers. -/
def Accepted (count : SizeT) : Prop := count.toNat ≤ maxSize

instance (count : SizeT) : Decidable (Accepted count) :=
  inferInstanceAs (Decidable (count.toNat ≤ maxSize))

/-! ### `WorkStealingExecutor` -/

/-- The power of two choices: `w1` and `w2` from the draws. -/
def candidates (nthreads : SizeT) (r1 r2 : BitVec 32) : Except Fault (SizeT × SizeT) := do
  let w1 ← modulo (r1.setWidth 64) nthreads
  let offset ← modulo (r2.setWidth 64) (nthreads - 1#64)
  let w2 ← modulo (w1 + 1#64 + offset) nthreads
  return (w1, w2)

/-- `schedule(task)` on a thread outside: the worker whose inbox gets the task.  `load` is what
`approximate_load` returns. -/
def schedule (nthreads : SizeT) (r1 r2 : BitVec 32) (load : SizeT → SizeT) :
    Except Fault SizeT :=
  if nthreads = 1#64 then access nthreads 0#64
  else do
    let (w1, w2) ← candidates nthreads r1 r2
    let w1 ← access nthreads w1
    let w2 ← access nthreads w2
    access nthreads (if load w1 ≤ load w2 then w1 else w2)

/-- What a thief finds at a victim: nothing, by `TakeHalf`, or by `Steal`. -/
inductive Found where
  | nothing
  | batch
  | single
deriving DecidableEq

/-- The rounds `i` of the loop in `steal_task`: the victims whose queues are tried, and the one
that is robbed.  `found` says what each round finds. -/
def stealRounds (nthreads : SizeT) (thiefId : BitVec 32) (start : SizeT) (found : SizeT → Found) :
    List SizeT → Except Fault (List SizeT × Option SizeT)
  | [] => .ok ([], none)
  | i :: rounds => do
    let victim ← modulo (start + i) nthreads
    if victim.setWidth 32 = thiefId then
      stealRounds nthreads thiefId start found rounds
    else do
      let victim ← access nthreads victim
      match found i with
      | .batch =>
        -- `workers_[thief_id]`: the `int` is converted back
        let _ ← access nthreads (thiefId.signExtend 64)
        return ([victim], some victim)
      | .single => return ([victim], some victim)
      | .nothing =>
        let (victims, robbed) ← stealRounds nthreads thiefId start found rounds
        return (victim :: victims, robbed)

/-- The indices `0, …, count - 1`. -/
def indices (count : SizeT) : List SizeT := (List.range count.toNat).map (BitVec.ofNat 64)

def stealTask (nthreads : SizeT) (thiefId : BitVec 32) (r : BitVec 32) (found : SizeT → Found) :
    Except Fault (List SizeT × Option SizeT) :=
  if nthreads ≤ 1#64 then .ok ([], none)
  else do
    let start ← modulo (r.setWidth 64) nthreads
    stealRounds nthreads thiefId start found (indices nthreads)

/-- `static_cast<int>(i)`: the id that `Start` passes to `WorkerLoop` of worker `i`. -/
def threadId (i : SizeT) : BitVec 32 := i.setWidth 32

/-! ### `Scheduler` -/

/-- `GetIOContext(index)`, of `contexts` contexts. -/
def getIOContext (contexts index : SizeT) : Except Fault SizeT :=
  if contexts ≤ index then access contexts 0#64 else access contexts index

/-- `GetNextIOContext()`: the context and `next_io_idx_` afterwards. -/
def getNextIOContext (contexts nextIoIdx : SizeT) : Except Fault (SizeT × SizeT) := do
  let idx ← modulo nextIoIdx contexts
  let idx ← access contexts idx
  return (idx, nextIoIdx + 1#64)

/-! ### Remainders and accesses -/

variable {a b n m w i : SizeT}

theorem toNat_pos_iff : 0 < n.toNat ↔ n ≠ 0#64 := by
  rw [Nat.pos_iff_ne_zero]
  exact (BitVec.toNat_inj (y := 0#64)).not

theorem modulo_spec (hb : 0 < b.toNat) :
    ∃ c, modulo a b = .ok c ∧ c.toNat = a.toNat % b.toNat ∧ c.toNat < b.toNat := by
  refine ⟨a % b, if_neg (toNat_pos_iff.mp hb), BitVec.toNat_umod, ?_⟩
  rw [BitVec.toNat_umod]
  exact Nat.mod_lt _ hb

theorem access_of_lt (h : i.toNat < n.toNat) : access n i = .ok i := if_pos h

/-- A sum of two indices does not overflow. -/
theorem toNat_add_of_lt (ha : a.toNat < 2 ^ 33) (hb : b.toNat < 2 ^ 33) :
    (a + b).toNat = a.toNat + b.toNat := by
  rw [BitVec.toNat_add]
  exact Nat.mod_eq_of_lt (by omega)

theorem toNat_draw (r : BitVec 32) : (r.setWidth 64).toNat = r.toNat :=
  BitVec.toNat_setWidth_of_le (by decide)

theorem not_le_one (hn : 2 ≤ n.toNat) : ¬ n ≤ 1#64 := by
  intro hle
  have hle : n.toNat ≤ 1 := hle
  omega

/-! ### The two candidates -/

/-- A step of 1 to `n - 1` around a circle of `n` never ends where it started. -/
theorem step_around_ne {n w d : ℕ} (hw : w < n) (hd : d < n - 1) : (w + 1 + d) % n ≠ w := by
  by_cases hlt : w + 1 + d < n
  · rw [Nat.mod_eq_of_lt hlt]
    omega
  · have hle : n ≤ w + 1 + d := Nat.le_of_not_lt hlt
    rw [Nat.mod_eq_sub_mod hle, Nat.mod_eq_of_lt (by omega)]
    omega

/-- The candidates, as remainders of numbers: nothing overflows. -/
theorem candidates_spec (hn : 2 ≤ n.toNat) (hn' : n.toNat ≤ 2 ^ 31) (r1 r2 : BitVec 32) :
    ∃ w1 w2, candidates n r1 r2 = .ok (w1, w2) ∧ w1.toNat = r1.toNat % n.toNat ∧
      w2.toNat = (w1.toNat + 1 + r2.toNat % (n.toNat - 1)) % n.toNat := by
  have hpred : (n - 1#64).toNat = n.toNat - 1 := BitVec.toNat_sub_of_le (show 1 ≤ n.toNat by omega)
  obtain ⟨w1, hm1, hv1, hlt1⟩ := modulo_spec (a := r1.setWidth 64) (b := n) (by omega)
  obtain ⟨d, hmd, hvd, hltd⟩ := modulo_spec (a := r2.setWidth 64) (b := n - 1#64) (by omega)
  obtain ⟨w2, hm2, hv2, -⟩ := modulo_spec (a := w1 + 1#64 + d) (b := n) (by omega)
  have hsucc : (w1 + 1#64).toNat = w1.toNat + 1 := toNat_add_of_lt (by omega) (by decide)
  refine ⟨w1, w2, ?_, ?_, ?_⟩
  · simp only [candidates, hm1, hmd, hm2, bind, Except.bind, pure, Except.pure]
  · rw [hv1, toNat_draw]
  · rw [hv2, toNat_add_of_lt (by omega) (by omega), hsucc, hvd, hpred, toNat_draw]

theorem candidates_ne (hn : 2 ≤ n.toNat) (hn' : n.toNat ≤ 2 ^ 31) {r1 r2 : BitVec 32}
    {w1 w2 : SizeT} (h : candidates n r1 r2 = .ok (w1, w2)) : w1 ≠ w2 := by
  obtain ⟨v1, v2, hv, h1, h2⟩ := candidates_spec hn hn' r1 r2
  obtain ⟨rfl, rfl⟩ := Prod.mk.inj (Except.ok.inj (h.symm.trans hv))
  have hw : w1.toNat < n.toNat := h1 ▸ Nat.mod_lt _ (by omega)
  have hne := step_around_ne hw (Nat.mod_lt r2.toNat (by omega : 0 < n.toNat - 1))
  intro he
  exact hne (h2.symm.trans (congrArg BitVec.toNat he.symm))

/-- **The target of a call** is in range and is the worker `p2c` picks. -/
theorem schedule_spec (hn : 2 ≤ n.toNat) (hn' : n.toNat ≤ 2 ^ 31) (r1 r2 : BitVec 32)
    (load : SizeT → SizeT) :
    ∃ w1 w2 target, candidates n r1 r2 = .ok (w1, w2) ∧ schedule n r1 r2 load = .ok target ∧
      target.toNat = WorkStealing.p2c n.toNat
        ⟨r1.toNat, r2.toNat, (load w1).toNat, (load w2).toNat⟩ := by
  obtain ⟨w1, w2, hc, h1, h2⟩ := candidates_spec hn hn' r1 r2
  have hlt1 : w1.toNat < n.toNat := h1 ▸ Nat.mod_lt _ (by omega)
  have hlt2 : w2.toNat < n.toNat := h2 ▸ Nat.mod_lt _ (by omega)
  have htarget : (if load w1 ≤ load w2 then w1 else w2).toNat < n.toNat := by
    split
    · exact hlt1
    · exact hlt2
  have hne : n ≠ 1#64 := fun he => not_le_one hn (he ▸ BitVec.le_refl n)
  refine ⟨w1, w2, if load w1 ≤ load w2 then w1 else w2, hc, ?_, ?_⟩
  · simp only [schedule, if_neg hne, hc, bind, Except.bind, access_of_lt hlt1,
      access_of_lt hlt2, access_of_lt htarget]
  · rw [WorkStealing.p2c, apply_ite BitVec.toNat, ← h1, ← h2]
    rfl

/-! ### The victims -/

/-- The remainders from `start` on, once around, are a rotation of the indices. -/
theorem map_range_mod_eq_rotate (n start : ℕ) :
    (List.range n).map (fun i => (start + i) % n) = (List.range n).rotate start := by
  refine List.ext_getElem (by simp) fun k hk hk' => ?_
  simp [List.getElem_rotate, Nat.add_comm]

theorem mem_indices : w ∈ indices n ↔ w.toNat < n.toNat := by
  rw [indices, List.mem_map]
  constructor
  · rintro ⟨i, hi, rfl⟩
    have hi : i < n.toNat := List.mem_range.mp hi
    rw [BitVec.toNat_ofNat, Nat.mod_eq_of_lt (by omega)]
    exact hi
  · intro hw
    exact ⟨w.toNat, List.mem_range.mpr hw, BitVec.ofNat_toNat 64 w⟩

theorem nodup_indices (n : SizeT) : (indices n).Nodup := by
  refine List.Nodup.map_on (fun i hi j hj he => ?_) List.nodup_range
  have hi : i < n.toNat := List.mem_range.mp hi
  have hj : j < n.toNat := List.mem_range.mp hj
  have he := congrArg BitVec.toNat he
  rwa [BitVec.toNat_ofNat, BitVec.toNat_ofNat, Nat.mod_eq_of_lt (by omega),
    Nat.mod_eq_of_lt (by omega)] at he

/-- The queue a round tries, unless it is the thief's own. -/
def victimId (nthreads start i : SizeT) : SizeT := (start + i) % nthreads

/-- It is the victim of the executor's own rounds, which count in numbers. -/
theorem toNat_victimId {start : SizeT} (hn' : n.toNat ≤ 2 ^ 31) (hstart : start.toNat < n.toNat)
    (hi : i.toNat < n.toNat) :
    (victimId n start i).toNat = (start.toNat + i.toNat) % n.toNat := by
  rw [victimId, BitVec.toNat_umod, toNat_add_of_lt (by omega) (by omega)]

/-- From `start` the rounds pass every worker once. -/
theorem map_victimId_perm {start : SizeT} (hn' : n.toNat ≤ 2 ^ 31)
    (hstart : start.toNat < n.toNat) : ((indices n).map (victimId n start)).Perm (indices n) := by
  have hmap : (indices n).map (victimId n start) =
      ((List.range n.toNat).rotate start.toNat).map (BitVec.ofNat 64) := by
    rw [← map_range_mod_eq_rotate, indices, List.map_map, List.map_map]
    refine List.map_congr_left fun i hi => BitVec.eq_of_toNat_eq ?_
    have hi : i < n.toNat := List.mem_range.mp hi
    have hround : (BitVec.ofNat 64 i).toNat = i := Nat.mod_eq_of_lt (by omega)
    have hmod : (start.toNat + i) % n.toNat < n.toNat := Nat.mod_lt _ (by omega)
    calc (victimId n start (BitVec.ofNat 64 i)).toNat
      _ = (start.toNat + i) % n.toNat := by
        rw [toNat_victimId hn' hstart (hround.symm ▸ hi), hround]
      _ = (BitVec.ofNat 64 ((start.toNat + i) % n.toNat)).toNat :=
        (Nat.mod_eq_of_lt (by omega)).symm
  rw [hmap]
  exact (List.rotate_perm _ _).map _

section Rounds

variable {start t : SizeT} {found : SizeT → Found} {rounds : List SizeT}

theorem threadId_eq_iff {v : SizeT} (hv : v.toNat < 2 ^ 32) (ht : t.toNat < 2 ^ 32) :
    v.setWidth 32 = threadId t ↔ v = t := by
  constructor
  · intro h
    have h := congrArg BitVec.toNat h
    rw [threadId, BitVec.toNat_setWidth, BitVec.toNat_setWidth, Nat.mod_eq_of_lt hv,
      Nat.mod_eq_of_lt ht] at h
    exact BitVec.eq_of_toNat_eq h
  · rintro rfl
    rfl

/-- The id of a worker, converted back, is its index. -/
theorem signExtend_threadId (ht : t.toNat < 2 ^ 31) : (threadId t).signExtend 64 = t := by
  have hval : (threadId t).toNat = t.toNat := by
    rw [threadId, BitVec.toNat_setWidth]
    exact Nat.mod_eq_of_lt (by omega)
  have hmsb : (threadId t).msb = false := by
    rw [BitVec.msb_eq_false_iff_two_mul_lt]
    omega
  rw [BitVec.signExtend_eq_setWidth_of_msb_false hmsb]
  refine BitVec.eq_of_toNat_eq ?_
  rw [BitVec.toNat_setWidth_of_le (by decide), hval]

/-- **The loop of `steal_task` does not fault**, whatever the rounds find. -/
theorem stealRounds_ok (hn' : n.toNat ≤ 2 ^ 31) (ht : t.toNat < n.toNat) :
    ∃ res, stealRounds n (threadId t) start found rounds = .ok res := by
  induction rounds with
  | nil => exact ⟨_, rfl⟩
  | cons i rounds ih =>
    obtain ⟨res, hres⟩ := ih
    obtain ⟨v, hm, -, hv⟩ := modulo_spec (a := start + i) (b := n) (by omega)
    have hthief : access n ((threadId t).signExtend 64) = .ok t := by
      rw [signExtend_threadId (by omega)]
      exact access_of_lt ht
    simp only [stealRounds, hm, bind, Except.bind, access_of_lt hv]
    by_cases hskip : v.setWidth 32 = threadId t
    · exact ⟨res, (if_pos hskip).trans hres⟩
    · rw [if_neg hskip]
      cases found i with
      | nothing => exact ⟨(v :: res.1, res.2), by rw [hres]; rfl⟩
      | batch => exact ⟨([v], some v), by rw [hthief]; rfl⟩
      | single => exact ⟨([v], some v), rfl⟩

/-- A thief that finds nothing tries the victim of each round except itself. -/
theorem stealRounds_nothing (hn' : n.toNat ≤ 2 ^ 31) (ht : t.toNat < n.toNat)
    (hfound : ∀ i, found i = .nothing) :
    stealRounds n (threadId t) start found rounds =
      .ok ((rounds.map (victimId n start)).filter (· ≠ t), none) := by
  induction rounds with
  | nil => rfl
  | cons i rounds ih =>
    obtain ⟨v, hm, hval, hv⟩ := modulo_spec (a := start + i) (b := n) (by omega)
    have hvictim : victimId n start i = v :=
      BitVec.eq_of_toNat_eq (BitVec.toNat_umod.trans hval.symm)
    simp only [stealRounds, hm, bind, Except.bind, access_of_lt hv, hfound i, ih]
    rw [List.map_cons, hvictim]
    by_cases hskip : v = t
    · rw [if_pos ((threadId_eq_iff (by omega) (by omega)).mpr hskip), List.filter_cons_of_neg]
      simpa using hskip
    · rw [if_neg (mt (threadId_eq_iff (by omega) (by omega)).mp hskip), List.filter_cons_of_pos]
      · rfl
      · simpa using hskip

end Rounds

theorem stealTask_of_two_le (hn : 2 ≤ n.toNat) (t : SizeT) (r : BitVec 32)
    (found : SizeT → Found) :
    ∃ start : SizeT, start.toNat < n.toNat ∧
      stealTask n (threadId t) r found =
        stealRounds n (threadId t) start found (indices n) := by
  obtain ⟨start, hm, -, hstart⟩ := modulo_spec (a := r.setWidth 64) (b := n) (by omega)
  refine ⟨start, hstart, ?_⟩
  simp only [stealTask, if_neg (not_le_one hn), hm, bind, Except.bind]

theorem stealTask_one (hn : n.toNat ≤ 1) (id r : BitVec 32) (found : SizeT → Found) :
    stealTask n id r found = .ok ([], none) := if_pos hn

/-! ### Which counts are safe -/

/-- Dispatch to `n` workers and `m` contexts. -/
structure Safe (n m : SizeT) : Prop where
  scheduled : ∀ r1 r2 load, ∃ target, schedule n r1 r2 load = .ok target
  distinct : 2 ≤ n.toNat → ∀ r1 r2, ∃ w1 w2, candidates n r1 r2 = .ok (w1, w2) ∧ w1 ≠ w2
  steals : ∀ t : SizeT, t.toNat < n.toNat → ∀ r found, ∃ res,
    stealTask n (threadId t) r found = .ok res
  visits : ∀ t : SizeT, t.toNat < n.toNat → ∀ r found, (∀ i, found i = .nothing) → ∃ victims,
    stealTask n (threadId t) r found = .ok (victims, none) ∧ victims.Nodup ∧
      ∀ w : SizeT, w ∈ victims ↔ w.toNat < n.toNat ∧ w ≠ t
  context : ∀ index, ∃ ctx, getIOContext m index = .ok ctx
  nextContext : ∀ nextIoIdx, ∃ res, getNextIOContext m nextIoIdx = .ok res

theorem schedule_ok (hn : 0 < n.toNat) (hn' : n.toNat ≤ 2 ^ 31) (r1 r2 : BitVec 32)
    (load : SizeT → SizeT) : ∃ target, schedule n r1 r2 load = .ok target := by
  by_cases hone : n = 1#64
  · subst hone
    exact ⟨_, rfl⟩
  · have hne : n.toNat ≠ 1 := fun h => hone (BitVec.eq_of_toNat_eq h)
    obtain ⟨-, -, target, -, hs, -⟩ := schedule_spec (by omega) hn' r1 r2 load
    exact ⟨target, hs⟩

theorem stealTask_ok {t : SizeT} (hn' : n.toNat ≤ 2 ^ 31) (ht : t.toNat < n.toNat) (r : BitVec 32)
    (found : SizeT → Found) : ∃ res, stealTask n (threadId t) r found = .ok res := by
  by_cases hn : 2 ≤ n.toNat
  · obtain ⟨start, -, hs⟩ := stealTask_of_two_le hn t r found
    exact hs ▸ stealRounds_ok hn' ht
  · exact ⟨_, stealTask_one (by omega) _ _ _⟩

theorem stealTask_visits {t : SizeT} (hn' : n.toNat ≤ 2 ^ 31) (ht : t.toNat < n.toNat)
    (r : BitVec 32) {found : SizeT → Found} (hfound : ∀ i, found i = .nothing) :
    ∃ victims, stealTask n (threadId t) r found = .ok (victims, none) ∧ victims.Nodup ∧
      ∀ w : SizeT, w ∈ victims ↔ w.toNat < n.toNat ∧ w ≠ t := by
  by_cases hn : 2 ≤ n.toNat
  · obtain ⟨start, hstart, hs⟩ := stealTask_of_two_le hn t r found
    have hperm := (map_victimId_perm hn' hstart).filter (· ≠ t)
    refine ⟨_, hs.trans (stealRounds_nothing hn' ht hfound), ?_, fun w => ?_⟩
    · exact hperm.nodup_iff.mpr ((nodup_indices n).filter _)
    · rw [hperm.mem_iff, List.mem_filter, mem_indices, decide_eq_true_eq]
  · refine ⟨[], stealTask_one (by omega) _ _ _, List.nodup_nil, fun w => ?_⟩
    constructor
    · exact nofun
    · rintro ⟨hw, hne⟩
      exact absurd (BitVec.eq_of_toNat_eq (by omega)) hne

theorem getIOContext_ok (hm : 0 < m.toNat) (index : SizeT) :
    ∃ ctx, getIOContext m index = .ok ctx := by
  by_cases hle : m ≤ index
  · exact ⟨0#64, (if_pos hle).trans (access_of_lt hm)⟩
  · have hlt : index.toNat < m.toNat := Nat.lt_of_not_le hle
    exact ⟨index, (if_neg hle).trans (access_of_lt hlt)⟩

theorem getNextIOContext_ok (hm : 0 < m.toNat) (nextIoIdx : SizeT) :
    ∃ res, getNextIOContext m nextIoIdx = .ok res := by
  obtain ⟨idx, hmod, -, hlt⟩ := modulo_spec (a := nextIoIdx) hm
  refine ⟨(idx, nextIoIdx + 1#64), ?_⟩
  simp only [getNextIOContext, hmod, bind, Except.bind, access_of_lt hlt, pure, Except.pure]

/-- Past 2³¹ workers one has a negative id: when it robs a victim of a batch, its own index is out
of range. -/
theorem stealTask_fault (hn : Accepted n) (hmany : 2 ^ 31 < n.toNat) :
    stealTask n (threadId 0x80000000#64) 0#32 (fun _ => .batch) =
      .error (.outOfRange 0xffffffff80000000#64) := by
  -- the id is -2³¹, and as an index it is far past the end
  have hthief : access n 0xffffffff80000000#64 = .error (.outOfRange 0xffffffff80000000#64) := by
    refine if_neg fun h => ?_
    have h : 0xffffffff80000000 < n.toNat := h
    have hmax : n.toNat ≤ 2 ^ 60 - 1 := hn
    omega
  have hzero : modulo 0#64 n = .ok 0#64 := by
    obtain ⟨c, hm, hval, -⟩ := modulo_spec (a := 0#64) (b := n) (by omega)
    have hc : c = 0#64 := BitVec.eq_of_toNat_eq (hval.trans (Nat.zero_mod _))
    exact hc ▸ hm
  have hsome : ¬ n ≤ 1#64 := not_le_one (by omega)
  -- the first round tries worker 0
  obtain ⟨rounds, hrounds⟩ : ∃ rounds, indices n = 0#64 :: rounds := by
    obtain ⟨k, hk⟩ : ∃ k, n.toNat = k + 1 := ⟨n.toNat - 1, by omega⟩
    rw [indices, hk, List.range_succ_eq_map]
    exact ⟨_, rfl⟩
  have hstart : modulo ((0#32).setWidth 64) n = .ok 0#64 := hzero
  have hvictim : modulo (0#64 + 0#64) n = .ok 0#64 := hzero
  have hother : ¬ (0#64).setWidth 32 = threadId 0x80000000#64 := by decide
  have hid : (threadId 0x80000000#64).signExtend 64 = 0xffffffff80000000#64 := by decide
  have hfirst : access n 0#64 = .ok 0#64 := access_of_lt (show 0 < n.toNat by omega)
  simp only [stealTask, if_neg hsome, hstart, hrounds, stealRounds, hvictim, if_neg hother, hfirst,
    hid, hthief, bind, Except.bind]

theorem pos_of_scheduled (h : ∃ target, schedule n 0#32 0#32 id = .ok target) :
    0 < n.toNat := by
  refine toNat_pos_iff.mpr ?_
  rintro rfl
  obtain ⟨target, htarget⟩ := h
  exact nomatch htarget

theorem pos_of_context (h : ∃ ctx, getIOContext m 0#64 = .ok ctx) : 0 < m.toNat := by
  refine toNat_pos_iff.mpr ?_
  rintro rfl
  obtain ⟨ctx, hctx⟩ := h
  exact nomatch hctx

/-- **Which counts are safe.**  For every number of workers that the constructor accepts and every
number of contexts, dispatch is safe if and only if there are at least one worker, at most 2³¹
workers and at least one context. -/
theorem safe_iff (n m : SizeT) (hn : Accepted n) :
    Safe n m ↔ 0 < n.toNat ∧ n.toNat ≤ 2 ^ 31 ∧ 0 < m.toNat := by
  constructor
  · intro h
    refine ⟨pos_of_scheduled (h.scheduled _ _ _), ?_, pos_of_context (h.context _)⟩
    -- worker 2³¹ exists, and some victim has a batch for it
    by_contra hmany
    have hmany : 2 ^ 31 < n.toNat := Nat.lt_of_not_le hmany
    obtain ⟨res, hres⟩ := h.steals 0x80000000#64 hmany 0#32 fun _ => .batch
    exact nomatch hres.symm.trans (stealTask_fault hn hmany)
  · rintro ⟨hpos, hmax, hctx⟩
    exact {
      scheduled := schedule_ok hpos hmax
      distinct := fun htwo r1 r2 => by
        obtain ⟨w1, w2, hc, -⟩ := candidates_spec htwo hmax r1 r2
        exact ⟨w1, w2, hc, candidates_ne htwo hmax hc⟩
      steals := fun _ ht => stealTask_ok hmax ht
      visits := fun _ ht r _ hfound => stealTask_visits hmax ht r hfound
      context := getIOContext_ok hctx
      nextContext := getNextIOContext_ok hctx }

theorem safe_iff_four_two : Accepted 4#64 ∧ Safe 4#64 2#64 :=
  ⟨by decide, (safe_iff 4#64 2#64 (by decide)).mpr (by decide)⟩

/-- **Zero workers or zero contexts are accepted**: the first call from outside and the first
`GetNextIOContext` divide by zero, and `GetIOContext` uses index 0 of an empty vector. -/
theorem zero_counts_fault :
    Accepted 0#64 ∧ (∀ load, schedule 0#64 7#32 5#32 load = .error .moduloByZero) ∧
      getNextIOContext 0#64 0#64 = .error .moduloByZero ∧
      getIOContext 0#64 0#64 = .error (.outOfRange 0#64) := by
  exact ⟨by decide, fun _ => rfl, rfl, rfl⟩

end Dispatch
