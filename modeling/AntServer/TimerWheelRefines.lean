/-
The wheel in memory refines the lists of `TimerKeeper`.

* `Layout` — which entry is chained where: the calls before the lock, the buckets
  and, inside a pass, the two lists of the inner loop; every allocated entry is in one of
  them, once, and the lists end with null;
* `Shows` — the entries in these lists are those of a state of `TimerKeeper`, and
  `task_map_` points to the entries whose ids that state has in its map;
* `sweepList_refines`, `pass_refines`, `insert_refines`, `cancelTimer_refines` — no
  operation leaves the allocated memory, and each does to the wheel what the operation
  of `TimerKeeper` does to the lists.
-/
import AntServer.IntrusiveList
import AntServer.TimerIndex
import AntServer.TimerWheel

namespace TimerWheel

open TimerKeeper (TimerEntry Target State Extraction slotOf tickOf kWheelSlots kSlotMask sweepEntry
  Recorded Indexed Place)

variable {Node Addr : Type*}

/-! ### Memory -/

section Memory

variable [DecidableEq Addr] (w : Wheel Node Addr) (a : Addr) (c : Option (Cell Node Addr))

theorem entryOf_store :
    (w.store a c).entryOf = Function.update w.entryOf a (c.map Cell.entry) := by
  funext b
  show (Function.update w.heap a c b).map Cell.entry = _
  by_cases hb : b = a
  · subst hb
    rw [Function.update_self, Function.update_self]
  · rw [Function.update_of_ne hb, Function.update_of_ne hb]
    rfl

theorem nextOf_store : (w.store a c).nextOf = Function.update w.nextOf a (c.bind Cell.next) := by
  funext b
  show (Function.update w.heap a c b).bind Cell.next = _
  by_cases hb : b = a
  · subst hb
    rw [Function.update_self, Function.update_self]
  · rw [Function.update_of_ne hb, Function.update_of_ne hb]
    rfl

theorem isSome_store {b : Addr} :
    ((w.store a c).heap b).isSome = true ↔
      (b = a ∧ c.isSome = true) ∨ (b ≠ a ∧ (w.heap b).isSome = true) := by
  show (Function.update w.heap a c b).isSome = true ↔ _
  by_cases hb : b = a
  · subst hb
    simp
  · simp [hb]

end Memory

theorem isSome_entryOf {w : Wheel Node Addr} {a : Addr} :
    (w.entryOf a).isSome = (w.heap a).isSome := by
  rw [Wheel.entryOf, Option.isSome_map]

/-- The cell of an entry that is there. -/
theorem heap_eq_some {w : Wheel Node Addr} {a : Addr} {e : TimerEntry Node}
    (h : w.entryOf a = some e) : w.heap a = some ⟨e, w.nextOf a⟩ := by
  obtain ⟨c, hc, rfl⟩ := Option.map_eq_some_iff.mp h
  rw [Wheel.nextOf, hc]
  rfl

/-! ### The relation -/

/-- Where an entry is chained. -/
inductive Spot
  | adding
  | bucket (k : ℕ)
  | curr                    -- still to be swept
  | remaining               -- swept and kept
deriving DecidableEq

/-- The addresses of the entries by spot; `curr` and `remaining` are the pointers of the
inner loop. -/
structure Layout (L : Spot → List Addr) (w : Wheel Node Addr) (curr remaining : Option Addr) :
    Prop where
  separate : Separate L
  allocated : ∀ a, (w.heap a).isSome = true ↔ Within L a
  adding : L .adding = w.adding.map Prod.fst
  bucket : ∀ k, Chain w.nextOf (w.buckets k) (L (.bucket k))
  curr : Chain w.nextOf curr (L .curr)
  remaining : Chain w.nextOf remaining (L .remaining)

/-- The entries at these addresses are those of `s`, of the list `es` still to be swept and
the list `rest` of those kept. -/
structure Shows (L : Spot → List Addr) (w : Wheel Node Addr) (s : State Node)
    (es rest : List (TimerEntry Node)) : Prop where
  adding : w.adding.map (fun x => (w.entryOf x.1, x.2)) = s.adding.map (fun x => (some x.1, x.2))
  bucket : ∀ k, (L (.bucket k)).map w.entryOf = (s.buckets k).map some
  curr : (L .curr).map w.entryOf = es.map some
  remaining : (L .remaining).map w.entryOf = rest.map some
  map : ∀ id, (w.taskMap id).isSome = s.taskMap id
  mapped : ∀ id a, w.taskMap id = some a →
    ∃ p, p ≠ .adding ∧ a ∈ L p ∧ ∃ e, w.entryOf a = some e ∧ e.id = id

/-- The other fields. -/
structure SameFields (w : Wheel Node Addr) (s : State Node) : Prop where
  startTime : w.startTime = s.startTime
  clock : w.clock = s.clock
  lastTick : w.lastTick = s.lastTick
  nextId : w.nextId = s.nextId
  fault : w.fault = false
  expired : w.expired = s.expiring.map Extraction.node
  freed : w.freed.Perm ((s.reaped ++ s.expiring.map Extraction.entry).map TimerEntry.id)

/-- Between the critical sections. -/
def Refines (w : Wheel Node Addr) (s : State Node) : Prop :=
  ∃ L, Layout L w none none ∧ Shows L w s [] [] ∧ SameFields w s

theorem refines_init (startTime : ℤ) :
    Refines (init Node Addr startTime) (TimerKeeper.init Node startTime) := by
  refine ⟨fun _ => [], ⟨Separate.nil, fun a => ?_, rfl, fun _ => rfl, rfl, rfl⟩,
    ⟨rfl, fun _ => rfl, rfl, rfl, fun _ => rfl, fun id a h => ?_⟩,
    ⟨rfl, rfl, rfl, rfl, rfl, rfl, List.Perm.refl _⟩⟩
  · constructor
    · intro h
      cases h
    · rintro ⟨p, hp⟩
      exact absurd hp List.not_mem_nil
  · cases h

/-! ### Frames -/

/-- The layout is a matter of these fields. -/
theorem Layout.of_eq {L : Spot → List Addr} {w w' : Wheel Node Addr} {curr remaining : Option Addr}
    (h : Layout L w curr remaining) (hheap : w'.heap = w.heap) (hbuckets : w'.buckets = w.buckets)
    (hadding : w'.adding = w.adding) : Layout L w' curr remaining := by
  have hnext : w'.nextOf = w.nextOf := by
    funext a
    rw [Wheel.nextOf, hheap, Wheel.nextOf]
  refine ⟨h.separate, ?_, hadding ▸ h.adding, ?_, hnext ▸ h.curr, hnext ▸ h.remaining⟩
  · rw [hheap]
    exact h.allocated
  · rw [hnext, hbuckets]
    exact h.bucket

section Frame

variable [DecidableEq Addr]

theorem map_update_of_notMem {α β : Type*} [DecidableEq α] {f : α → β} {a : α} {v : β}
    {xs : List α} (h : a ∉ xs) : xs.map (Function.update f a v) = xs.map f :=
  List.map_congr_left fun _ hb => Function.update_of_ne (ne_of_mem_of_not_mem hb h) _ _

theorem map_adding_of_notMem {w : Wheel Node Addr} {a : Addr} (h : a ∉ w.adding.map Prod.fst)
    (v : Option (TimerEntry Node)) :
    w.adding.map (fun x => (Function.update w.entryOf a v x.1, x.2)) =
      w.adding.map fun x => (w.entryOf x.1, x.2) := by
  refine List.map_congr_left fun x hx => ?_
  have hne : x.1 ≠ a := fun hxa => h (hxa ▸ List.mem_map_of_mem hx)
  rw [Function.update_of_ne hne]

/-- A store to a cell that is in none of the lists, or no longer. -/
theorem Layout.store {L L' : Spot → List Addr} {w : Wheel Node Addr}
    {curr remaining curr' remaining' : Option Addr} {a : Addr} {c : Option (Cell Node Addr)}
    (h : Layout L w curr remaining) (hsep : Separate L')
    (hwithin : ∀ b, Within L' b ↔ (b = a ∧ c.isSome = true) ∨ (b ≠ a ∧ Within L b))
    (hadding : L' .adding = L .adding) (hbucket : ∀ k, L' (.bucket k) = L (.bucket k))
    (hnot : ∀ k, a ∉ L (.bucket k))
    (hcurr : Chain (Function.update w.nextOf a (c.bind Cell.next)) curr' (L' .curr))
    (hremaining : Chain (Function.update w.nextOf a (c.bind Cell.next)) remaining'
      (L' .remaining)) : Layout L' (w.store a c) curr' remaining' := by
  refine ⟨hsep, fun b => ?_, hadding.trans h.adding, fun k => ?_, ?_, ?_⟩
  · rw [isSome_store, hwithin, h.allocated]
  · rw [nextOf_store, hbucket]
    exact (h.bucket k).update_of_notMem (hnot k) _
  · rw [nextOf_store]
    exact hcurr
  · rw [nextOf_store]
    exact hremaining

omit [DecidableEq Addr] in
/-- The entry at the head of the list to be swept is in no other list. -/
theorem Layout.curr_cases {L : Spot → List Addr} {w : Wheel Node Addr} {a : Addr}
    {remaining : Option Addr} (h : Layout L w (some a) remaining) :
    ∃ as, L .curr = a :: as ∧ Chain w.nextOf (w.nextOf a) as ∧ a ∉ as ∧
      ∀ p, p ≠ .curr → a ∉ L p := by
  obtain ⟨as, hL, htail⟩ := h.curr.tail
  have hnd : (a :: as).Nodup := hL ▸ h.separate.nodup .curr
  have hmem : a ∈ L .curr := hL ▸ List.mem_cons_self
  refine ⟨as, hL, htail, (List.nodup_cons.mp hnd).1, fun p hp => ?_⟩
  exact h.separate.disjoint .curr p (Ne.symm hp) a hmem

/-- The entry is deleted. -/
theorem Layout.deleteCurr {L : Spot → List Addr} {w : Wheel Node Addr} {a : Addr} {as : List Addr}
    {remaining : Option Addr} (h : Layout L w (some a) remaining) (hL : L .curr = a :: as) :
    Layout (Function.update L .curr as) (w.store a none) (w.nextOf a) remaining := by
  obtain ⟨as', hL', htail, hnot, hother⟩ := h.curr_cases
  obtain rfl : as' = as := (List.cons.inj (hL'.symm.trans hL)).2
  have htr : Transfer Set.univ [] [a] L (Function.update L .curr as') := by
    refine Transfer.one (Set.mem_univ _) ?_
    rw [hL]
    exact List.Perm.refl _
  have hsep : Separate (Function.update L .curr as') :=
    htr.separate h.separate List.nodup_nil fun b hb => absurd hb List.not_mem_nil
  refine h.store hsep (fun b => ?_) rfl (fun _ => rfl) (fun k => hother _ (by simp)) ?_ ?_
  · -- exactly `a` is not in the lists any more
    constructor
    · rintro ⟨p, hp⟩
      by_cases hpc : p = .curr
      · subst hpc
        rw [Function.update_self] at hp
        refine Or.inr ⟨fun hb => hnot (hb ▸ hp), .curr, ?_⟩
        rw [hL]
        exact List.mem_cons_of_mem a hp
      · rw [Function.update_of_ne hpc] at hp
        exact Or.inr ⟨fun hb => hother p hpc (hb ▸ hp), p, hp⟩
    · rintro (⟨-, hfalse⟩ | ⟨hne, p, hp⟩)
      · cases hfalse
      · by_cases hpc : p = .curr
        · subst hpc
          rw [hL] at hp
          refine ⟨.curr, ?_⟩
          rw [Function.update_self]
          exact (List.mem_cons.mp hp).resolve_left hne
        · exact ⟨p, by rwa [Function.update_of_ne hpc]⟩
  · rw [Function.update_self]
    exact htail.update_of_notMem hnot _
  · exact h.remaining.update_of_notMem (hother .remaining (by simp)) _

/-- The entry is linked in front of those that are kept. -/
theorem Layout.keepCurr {L : Spot → List Addr} {w : Wheel Node Addr} {a : Addr} {as : List Addr}
    {remaining : Option Addr} (h : Layout L w (some a) remaining) (hL : L .curr = a :: as)
    (e : TimerEntry Node) :
    Layout (Function.update (Function.update L .curr as) .remaining (a :: L .remaining))
      (w.store a (some ⟨e, remaining⟩)) (w.nextOf a) (some a) := by
  obtain ⟨as', hL', htail, hnot, hother⟩ := h.curr_cases
  obtain rfl : as' = as := (List.cons.inj (hL'.symm.trans hL)).2
  have htr : Transfer Set.univ [] [] L
      (Function.update (Function.update L .curr as') .remaining (a :: L .remaining)) := by
    refine Transfer.two (by simp) (Set.mem_univ _) (Set.mem_univ _) ?_
    rw [hL]
    exact List.perm_middle
  refine h.store ?_ (fun b => ?_) rfl (fun _ => rfl) (fun k => hother _ (by simp)) ?_ ?_
  · exact htr.separate h.separate List.nodup_nil fun b hb => absurd hb List.not_mem_nil
  · rw [htr.within]
    have hin : Within L a := ⟨.curr, hL ▸ List.mem_cons_self⟩
    constructor
    · rintro (hb | hb)
      · exact absurd hb List.not_mem_nil
      · by_cases hba : b = a
        · exact Or.inl ⟨hba, rfl⟩
        · exact Or.inr ⟨hba, hb⟩
    · rintro (⟨rfl, -⟩ | ⟨-, hb⟩)
      · exact Or.inr hin
      · exact Or.inr hb
  · exact htail.update_of_notMem hnot _
  · exact h.remaining.cons (hother .remaining (by simp))

end Frame

/-! ### The inner loop -/

/-- What is known of the entries still to be swept. -/
structure Sweepable (s : State Node) (es : List (TimerEntry Node)) : Prop where
  canceled : ∀ e ∈ es, e.canceled = true → s.taskMap e.id = false
  nodes : ∀ e ∈ es, e.taskNode.isSome

section Loop

variable [DecidableEq Addr] {L : Spot → List Addr} {w w' : Wheel Node Addr} {s s' : State Node}
  {a : Addr} {as : List Addr} {remaining : Option Addr} {e : TimerEntry Node}
  {es rest : List (TimerEntry Node)}

omit [DecidableEq Addr] in
theorem Shows.curr_cons (h : Shows L w s (e :: es) rest) (hL : L .curr = a :: as) :
    w.entryOf a = some e ∧ as.map w.entryOf = es.map some := by
  have hcurr := h.curr
  rw [hL, List.map_cons, List.map_cons] at hcurr
  exact List.cons.inj hcurr

/-- The entry at the head is gone, and nothing points to it. -/
theorem Shows.deleteCurr (h : Shows L w s (e :: es) rest)
    (hlay : Layout L w (some a) remaining) (hL : L .curr = a :: as)
    (hentry : w'.entryOf = Function.update w.entryOf a none) (hwadding : w'.adding = w.adding)
    (hbuckets : s'.buckets = s.buckets) (hadding : s'.adding = s.adding)
    (hmap : ∀ id, (w'.taskMap id).isSome = s'.taskMap id)
    (hmapped : ∀ id b, w'.taskMap id = some b → w.taskMap id = some b ∧ b ≠ a) :
    Shows (Function.update L .curr as) w' s' es rest := by
  obtain ⟨as', hL', -, hnot, hother⟩ := hlay.curr_cases
  obtain rfl : as' = as := (List.cons.inj (hL'.symm.trans hL)).2
  obtain ⟨-, hes⟩ := h.curr_cons hL
  refine ⟨?_, fun k => ?_, ?_, ?_, hmap, fun id b hb => ?_⟩
  · have hnotadding : a ∉ w.adding.map Prod.fst := hlay.adding ▸ hother .adding (by simp)
    rw [hwadding, hadding, ← h.adding, hentry]
    exact map_adding_of_notMem hnotadding none
  · rw [Function.update_of_ne (by simp), hbuckets, hentry,
      map_update_of_notMem (hother (.bucket k) (by simp))]
    exact h.bucket k
  · rw [Function.update_self, hentry, map_update_of_notMem hnot]
    exact hes
  · rw [Function.update_of_ne (by simp), hentry,
      map_update_of_notMem (hother .remaining (by simp))]
    exact h.remaining
  · obtain ⟨hb, hne⟩ := hmapped id b hb
    obtain ⟨p, hp, hbp, e', he', hid⟩ := h.mapped id b hb
    refine ⟨p, hp, ?_, e', ?_, hid⟩
    · by_cases hpc : p = .curr
      · subst hpc
        rw [hL] at hbp
        rw [Function.update_self]
        exact (List.mem_cons.mp hbp).resolve_left hne
      · rwa [Function.update_of_ne hpc]
    · rw [hentry, Function.update_of_ne hne, he']

/-- The entry at the head is kept. -/
theorem Shows.keepCurr (h : Shows L w s (e :: es) rest) (hL : L .curr = a :: as) :
    Shows (Function.update (Function.update L .curr as) .remaining (a :: L .remaining))
      (w.store a (some ⟨e, remaining⟩)) s es (e :: rest) := by
  obtain ⟨hea, hes⟩ := h.curr_cons hL
  have hentry : (w.store a (some ⟨e, remaining⟩)).entryOf = w.entryOf := by
    rw [entryOf_store]
    exact Function.update_eq_self_iff.mpr hea.symm
  refine ⟨?_, fun k => ?_, ?_, ?_, h.map, fun id b hb => ?_⟩
  · rw [hentry]
    exact h.adding
  · rw [hentry, Function.update_of_ne (by simp), Function.update_of_ne (by simp)]
    exact h.bucket k
  · rw [hentry, Function.update_of_ne (by simp), Function.update_self]
    exact hes
  · rw [hentry, Function.update_self, List.map_cons, List.map_cons, hea, h.remaining]
  · obtain ⟨p, hp, hbp, e', he', hid⟩ := h.mapped id b hb
    rw [hentry]
    by_cases hpc : p = .curr
    · subst hpc
      rw [hL] at hbp
      rcases List.mem_cons.mp hbp with rfl | hbp
      · exact ⟨.remaining, by simp, by rw [Function.update_self]; exact List.mem_cons_self,
          e', he', hid⟩
      · exact ⟨.curr, by simp,
          by rw [Function.update_of_ne (by simp), Function.update_self]; exact hbp, e', he', hid⟩
    · by_cases hpr : p = .remaining
      · subst hpr
        exact ⟨.remaining, by simp,
          by rw [Function.update_self]; exact List.mem_cons_of_mem a hbp, e', he', hid⟩
      · exact ⟨p, hp, by rwa [Function.update_of_ne hpr, Function.update_of_ne hpc], e', he', hid⟩

omit [DecidableEq Addr] in
/-- Only the id of an entry can lead to it. -/
theorem Shows.ne_of_mapped {b : Addr} {id : ℕ} (hsh : Shows L w s (e :: es) rest)
    (hea : w.entryOf a = some e) (hb : w.taskMap id = some b) (hid : id ≠ e.id) : b ≠ a := by
  rintro rfl
  obtain ⟨-, -, -, e', he', hid'⟩ := hsh.mapped id b hb
  obtain rfl := Option.some.inj (hea.symm.trans he')
  exact hid hid'.symm

/-- The canceled entry is deleted and counted as reaped. -/
theorem SameFields.reap (hf : SameFields w s) (a : Addr) (next : Option Addr) :
    SameFields (w.delete a ⟨e, next⟩) { s with reaped := s.reaped ++ [e] } := by
  refine ⟨hf.startTime, hf.clock, hf.lastTick, hf.nextId, hf.fault, hf.expired, ?_⟩
  show (w.freed ++ [e.id]).Perm
    ((s.reaped ++ [e] ++ s.expiring.map Extraction.entry).map TimerEntry.id)
  rw [List.append_assoc, List.map_append, List.map_append]
  refine (hf.freed.append_right [e.id]).trans ?_
  rw [List.map_append, List.append_assoc]
  exact List.perm_append_comm.append_left _

variable [DecidableEq Node]

/-- The entry that is due is deleted, and its node goes to the front of the expired list. -/
theorem SameFields.expire {now : ℤ} {node : Node} (hf : SameFields w s) (a : Addr)
    (next : Option Addr) (hn : e.taskNode = some node) (taskMap : ℕ → Option Addr)
    (taskMap' : ℕ → Bool) :
    SameFields
      { w.delete a ⟨e, next⟩ with
        taskMap := taskMap
        expired := e.taskNode.toList ++ w.expired }
      { s with
        taskMap := taskMap'
        next := Function.update s.next node s.expiredHead
        expiredHead := some node
        expiring := ⟨e, node, now⟩ :: s.expiring } := by
  refine ⟨hf.startTime, hf.clock, hf.lastTick, hf.nextId, hf.fault, ?_, ?_⟩
  · show e.taskNode.toList ++ w.expired = node :: s.expiring.map Extraction.node
    rw [hn, hf.expired]
    rfl
  · show (w.freed ++ [e.id]).Perm
      ((s.reaped ++ e :: s.expiring.map Extraction.entry).map TimerEntry.id)
    refine (hf.freed.append_right [e.id]).trans ?_
    rw [List.map_append, List.map_append, List.map_cons, List.append_assoc]
    have hswap : ((s.expiring.map Extraction.entry).map TimerEntry.id ++ [e.id]).Perm
        (e.id :: (s.expiring.map Extraction.entry).map TimerEntry.id) :=
      List.perm_append_comm
    exact hswap.append_left _

/-- **One round of the inner loop.**  The entry at `curr` is allocated, and what
happens to it is what `sweepEntry` does. -/
theorem sweepCell_refines (now : ℤ) (hlay : Layout L w (some a) remaining)
    (hsh : Shows L w s (e :: es) rest) (hf : SameFields w s) (hsw : Sweepable s (e :: es)) :
    ∃ L' r, sweepCell now w a remaining = some r ∧ Layout L' r.1 r.2.2 r.2.1 ∧
      Shows L' r.1 (sweepEntry now (s, rest) e).1 es (sweepEntry now (s, rest) e).2 ∧
      SameFields r.1 (sweepEntry now (s, rest) e).1 ∧
      Sweepable (sweepEntry now (s, rest) e).1 es := by
  obtain ⟨as, hL, -⟩ := hlay.curr_cases
  obtain ⟨hea, -⟩ := hsh.curr_cons hL
  have hcell := heap_eq_some hea
  have hcanceled : ∀ x ∈ es, x.canceled = true → s.taskMap x.id = false := fun x hx =>
    hsw.canceled x (List.mem_cons_of_mem e hx)
  have hnodes : ∀ x ∈ es, x.taskNode.isSome := fun x hx =>
    hsw.nodes x (List.mem_cons_of_mem e hx)
  have hdelete : (w.store a none).entryOf = Function.update w.entryOf a none := entryOf_store ..
  by_cases hc : e.canceled = true
  · rw [TimerKeeper.sweepEntry_canceled hc]
    have hnone : w.taskMap e.id = none := by
      have := hsh.map e.id
      rw [hsw.canceled e List.mem_cons_self hc] at this
      simpa using this
    refine ⟨_, (w.delete a ⟨e, w.nextOf a⟩, remaining, w.nextOf a), ?_,
      (hlay.deleteCurr hL).of_eq rfl rfl rfl, ?_, hf.reap a _, ⟨hcanceled, hnodes⟩⟩
    · rw [sweepCell, hcell, Option.map_some, if_pos hc]
    · refine hsh.deleteCurr hlay hL hdelete rfl rfl rfl hsh.map fun id b hb => ⟨hb, ?_⟩
      refine hsh.ne_of_mapped hea hb fun hid => ?_
      rw [hid] at hb
      exact absurd (hnone.symm.trans hb) (Option.some_ne_none b).symm
  rw [Bool.not_eq_true] at hc
  by_cases hdue : e.expireAt ≤ now
  · obtain ⟨node, hn⟩ := Option.isSome_iff_exists.mp (hsw.nodes e List.mem_cons_self)
    rw [TimerKeeper.sweepEntry_due hc hdue hn]
    refine ⟨_, ({ w.delete a ⟨e, w.nextOf a⟩ with
      taskMap := Function.update w.taskMap e.id none
      expired := e.taskNode.toList ++ w.expired }, remaining, w.nextOf a), ?_,
      (hlay.deleteCurr hL).of_eq rfl rfl rfl, ?_, hf.expire a _ hn _ _, ?_⟩
    · rw [sweepCell, hcell, Option.map_some, if_neg (by simp [hc]), if_pos hdue]
    · refine hsh.deleteCurr hlay hL hdelete rfl rfl rfl (fun id => ?_) fun id b hb => ?_
      · show (Function.update w.taskMap e.id none id).isSome =
          Function.update s.taskMap e.id false id
        by_cases hid : id = e.id
        · rw [hid, Function.update_self, Function.update_self]
          rfl
        · rw [Function.update_of_ne hid, Function.update_of_ne hid]
          exact hsh.map id
      · have hb' : Function.update w.taskMap e.id none id = some b := hb
        by_cases hid : id = e.id
        · rw [hid, Function.update_self] at hb'
          cases hb'
        · rw [Function.update_of_ne hid] at hb'
          exact ⟨hb', hsh.ne_of_mapped hea hb' hid⟩
    · refine ⟨fun x hx hxc => ?_, hnodes⟩
      show Function.update s.taskMap e.id false x.id = false
      by_cases hid : x.id = e.id
      · rw [hid, Function.update_self]
      · rw [Function.update_of_ne hid]
        exact hcanceled x hx hxc
  · rw [TimerKeeper.sweepEntry_kept hc (by omega)]
    refine ⟨_, (w.store a (some ⟨e, remaining⟩), some a, w.nextOf a), ?_, hlay.keepCurr hL e,
      hsh.keepCurr hL, ?_, ⟨hcanceled, hnodes⟩⟩
    · rw [sweepCell, hcell, Option.map_some, if_neg (by simp [hc]), if_neg hdue]
    · exact ⟨hf.startTime, hf.clock, hf.lastTick, hf.nextId, hf.fault, hf.expired, hf.freed⟩

/-- **The inner loop** ends, within the allocated memory, with the lists of the fold. -/
theorem sweepList_refines (now : ℤ) {curr : Option Addr} {fuel : ℕ} (hfuel : es.length ≤ fuel)
    (hlay : Layout L w curr remaining) (hsh : Shows L w s es rest) (hf : SameFields w s)
    (hsw : Sweepable s es) :
    ∃ L' r, sweepList now fuel curr w remaining = some r ∧ Layout L' r.1 none r.2 ∧
      L' .curr = [] ∧
      Shows L' r.1 (es.foldl (sweepEntry now) (s, rest)).1 []
        (es.foldl (sweepEntry now) (s, rest)).2 ∧
      SameFields r.1 (es.foldl (sweepEntry now) (s, rest)).1 := by
  induction es generalizing L w s rest remaining curr fuel with
  | nil =>
    have hnil : L .curr = [] := by simpa using hsh.curr
    have hcurr := hlay.curr
    rw [hnil, chain_nil] at hcurr
    subst hcurr
    refine ⟨L, (w, remaining), ?_, hlay, hnil, hsh, hf⟩
    cases fuel <;> rfl
  | cons e es ih =>
    obtain ⟨a, as, hL⟩ : ∃ a as, L .curr = a :: as := by
      have hlen := congrArg List.length hsh.curr
      rw [List.length_map, List.length_map, List.length_cons] at hlen
      exact List.exists_cons_of_length_eq_add_one hlen
    have hcurr := hlay.curr
    rw [hL] at hcurr
    obtain ⟨rfl, -⟩ := chain_cons.mp hcurr
    obtain ⟨L', r, hr, hlay', hsh', hf', hsw'⟩ := sweepCell_refines now hlay hsh hf hsw
    cases fuel with
    | zero => exact absurd hfuel (Nat.not_succ_le_zero _)
    | succ fuel =>
      obtain ⟨L'', r', hr', h⟩ := ih (Nat.le_of_succ_le_succ hfuel) hlay' hsh' hf' hsw'
      refine ⟨L'', r', ?_, h⟩
      rw [sweepList, hr]
      exact hr'

end Loop

/-! ### One tick -/

/-- A whole list moves from the spot `p` to the empty spot `q`. -/
theorem transfer_shift {L : Spot → List Addr} {p q : Spot} (hpq : q ≠ p) (hq : L q = []) :
    Transfer Set.univ [] [] L (Function.update (Function.update L q (L p)) p []) := by
  refine Transfer.two hpq (Set.mem_univ _) (Set.mem_univ _) ?_
  rw [hq, List.append_nil]
  exact List.Perm.refl _

section Tick

variable {L : Spot → List Addr} {w : Wheel Node Addr} {s : State Node} {slot : ℕ}

/-- The allocated entries after a shift. -/
theorem Layout.shift {p q : Spot} (h : Separate L) (hpq : q ≠ p) (hq : L q = [])
    (halloc : ∀ a, (w.heap a).isSome = true ↔ Within L a) :
    Separate (Function.update (Function.update L q (L p)) p []) ∧
      ∀ a, (w.heap a).isSome = true ↔
        Within (Function.update (Function.update L q (L p)) p []) a := by
  have htr := transfer_shift hpq hq
  refine ⟨htr.separate h List.nodup_nil fun b hb => absurd hb List.not_mem_nil, fun a => ?_⟩
  rw [halloc, htr.within]
  exact ⟨Or.inr, fun h => h.resolve_left List.not_mem_nil⟩

/-- `buckets_[slot] = nullptr`, and its list is the one to be swept. -/
theorem detach_refines (slot : ℕ) (hlay : Layout L w none none) (hsh : Shows L w s [] []) :
    Layout (Function.update (Function.update L .curr (L (.bucket slot))) (.bucket slot) [])
        { w with buckets := Function.update w.buckets slot none } (w.buckets slot) none ∧
      Shows (Function.update (Function.update L .curr (L (.bucket slot))) (.bucket slot) [])
        { w with buckets := Function.update w.buckets slot none }
        { s with buckets := Function.update s.buckets slot [] } (s.buckets slot) [] := by
  have hcurr : L .curr = [] := by simpa using hsh.curr
  obtain ⟨hsep, halloc⟩ := Layout.shift (p := .bucket slot) (q := .curr) hlay.separate (by simp)
    hcurr hlay.allocated
  constructor
  · refine ⟨hsep, halloc, hlay.adding, fun k => ?_, hlay.bucket slot, hlay.remaining⟩
    by_cases hk : k = slot
    · subst hk
      show Chain w.nextOf (Function.update w.buckets k none k) _
      rw [Function.update_self, Function.update_self]
      rfl
    · show Chain w.nextOf (Function.update w.buckets slot none k) _
      rw [Function.update_of_ne hk, Function.update_of_ne (by simpa using hk)]
      exact hlay.bucket k
  · refine ⟨hsh.adding, fun k => ?_, hsh.bucket slot, hsh.remaining, hsh.map, fun id a ha => ?_⟩
    · show _ = (Function.update s.buckets slot [] k).map some
      by_cases hk : k = slot
      · subst hk
        rw [Function.update_self, Function.update_self]
        rfl
      · rw [Function.update_of_ne hk, Function.update_of_ne (by simpa using hk)]
        exact hsh.bucket k
    · obtain ⟨p, hp, hap, he⟩ := hsh.mapped id a ha
      by_cases hps : p = .bucket slot
      · subst hps
        refine ⟨.curr, by simp, ?_, he⟩
        rw [Function.update_of_ne (by simp), Function.update_self]
        exact hap
      · by_cases hpc : p = .curr
        · subst hpc
          rw [hcurr] at hap
          exact absurd hap List.not_mem_nil
        · exact ⟨p, hp, by rwa [Function.update_of_ne hps, Function.update_of_ne hpc], he⟩

/-- `buckets_[slot] = remaining_head`. -/
theorem attach_refines {remaining : Option Addr} {rest : List (TimerEntry Node)} (t t' : ℤ)
    (hlay : Layout L w none remaining) (hsh : Shows L w s [] rest) (hslot : s.buckets slot = []) :
    ∃ L', Layout L'
        { w with buckets := Function.update w.buckets slot remaining, lastTick := t } none none ∧
      Shows L' { w with buckets := Function.update w.buckets slot remaining, lastTick := t }
        { s with buckets := Function.update s.buckets slot rest, lastTick := t' } [] [] := by
  have hbucket : L (.bucket slot) = [] := by
    have := hsh.bucket slot
    rw [hslot] at this
    simpa using this
  refine ⟨Function.update (Function.update L (.bucket slot) (L .remaining)) .remaining [], ?_, ?_⟩
  · obtain ⟨hsep, halloc⟩ := Layout.shift (p := .remaining) (q := .bucket slot) hlay.separate
      (by simp) hbucket hlay.allocated
    refine ⟨hsep, halloc, hlay.adding, fun k => ?_, hlay.curr, rfl⟩
    rw [Function.update_of_ne (by simp)]
    by_cases hk : k = slot
    · subst hk
      show Chain w.nextOf (Function.update w.buckets k remaining k) _
      rw [Function.update_self, Function.update_self]
      exact hlay.remaining
    · show Chain w.nextOf (Function.update w.buckets slot remaining k) _
      rw [Function.update_of_ne hk, Function.update_of_ne (by simpa using hk)]
      exact hlay.bucket k
  · refine ⟨hsh.adding, fun k => ?_, hsh.curr, rfl, hsh.map, fun id a ha => ?_⟩
    · show _ = (Function.update s.buckets slot rest k).map some
      rw [Function.update_of_ne (by simp)]
      by_cases hk : k = slot
      · subst hk
        rw [Function.update_self, Function.update_self]
        exact hsh.remaining
      · rw [Function.update_of_ne hk, Function.update_of_ne (by simpa using hk)]
        exact hsh.bucket k
    · obtain ⟨p, hp, hap, he⟩ := hsh.mapped id a ha
      by_cases hpr : p = .remaining
      · subst hpr
        exact ⟨.bucket slot, by simp,
          by rw [Function.update_of_ne (by simp), Function.update_self]; exact hap, he⟩
      · by_cases hps : p = .bucket slot
        · subst hps
          rw [hbucket] at hap
          exact absurd hap List.not_mem_nil
        · exact ⟨p, hp, by rwa [Function.update_of_ne hpr, Function.update_of_ne hps], he⟩

end Tick

/-- A bucket has fewer entries than there have been ids. -/
theorem bucket_length_le {s : State Node} (hr : Recorded s) (k : ℕ) :
    (s.buckets k).length ≤ s.nextId := by
  have hnd : (s.idsAt (.bucket k)).Nodup := hr.ids.nodup (.bucket k)
  have hsub : s.idsAt (.bucket k) ⊆ List.range s.nextId := by
    intro id hid
    obtain ⟨e, he, rfl⟩ := List.mem_map.mp hid
    rw [List.mem_range]
    exact (hr.added _ (hr.origin e ⟨.bucket k, he⟩)).2.1
  have hle := (List.subperm_of_subset hnd hsub).length_le
  rw [List.length_range] at hle
  exact (List.length_map TimerEntry.id).symm.trans_le hle

/-- The entries of a bucket, when a pass comes to it. -/
theorem sweepable_bucket {s : State Node} (hr : Recorded s) (hi : Indexed s) (k : ℕ) :
    Sweepable s (s.buckets k) := by
  refine ⟨fun e he hc => ?_, fun e he => hr.taskNode_isSome (p := .bucket k) he⟩
  by_contra hmap
  rw [Bool.not_eq_false] at hmap
  obtain ⟨j, e', he', hid, hc'⟩ := (hi.mapped e.id).mp hmap
  obtain ⟨-, rfl⟩ := hr.entry_unique (p := .bucket j) (q := .bucket k) he' he hid
  rw [hc] at hc'
  cases hc'

section Pass

variable [DecidableEq Addr] [DecidableEq Node] {w : Wheel Node Addr} {s : State Node}

theorem sweepSlot_refines (now : ℤ) (h : Refines w s) (hr : Recorded s) (hi : Indexed s) :
    ∃ w', sweepSlot now w = some w' ∧ Refines w' (TimerKeeper.sweepSlot now s) := by
  obtain ⟨L, hlay, hsh, hf⟩ := h
  have hslot : slotOf w.lastTick = slotOf s.lastTick := by rw [hf.lastTick]
  obtain ⟨hlay₁, hsh₁⟩ := detach_refines (slotOf s.lastTick) hlay hsh
  have hf₁ : SameFields { w with buckets := Function.update w.buckets (slotOf s.lastTick) none }
      { s with buckets := Function.update s.buckets (slotOf s.lastTick) [] } :=
    ⟨hf.startTime, hf.clock, hf.lastTick, hf.nextId, hf.fault, hf.expired, hf.freed⟩
  have hsw := sweepable_bucket hr hi (slotOf s.lastTick)
  have hsw₁ : Sweepable { s with buckets := Function.update s.buckets (slotOf s.lastTick) [] }
      (s.buckets (slotOf s.lastTick)) := ⟨hsw.canceled, hsw.nodes⟩
  have hfuel : (s.buckets (slotOf s.lastTick)).length ≤ w.nextId := by
    rw [hf.nextId]
    exact bucket_length_le hr _
  obtain ⟨L₂, r, hrun, hlay₂, -, hsh₂, hf₂⟩ := sweepList_refines now hfuel hlay₁ hsh₁ hf₁ hsw₁
  have hempty : ((s.buckets (slotOf s.lastTick)).foldl (sweepEntry now)
      ({ s with buckets := Function.update s.buckets (slotOf s.lastTick) [] }, [])).1.buckets
        (slotOf s.lastTick) = [] := by
    obtain ⟨m, n, hd, -, heq⟩ := TimerKeeper.foldl_sweepEntry now
      (s.buckets (slotOf s.lastTick))
      { s with buckets := Function.update s.buckets (slotOf s.lastTick) [] } []
    rw [heq]
    exact Function.update_self ..
  obtain ⟨L₃, hlay₃, hsh₃⟩ := attach_refines (r.1.lastTick + 1) _ hlay₂ hsh₂ hempty
  refine ⟨_, ?_, L₃, hlay₃, hsh₃, ?_⟩
  · rw [sweepSlot]
    simp only [hslot, hrun, Option.map_some]
  · exact ⟨hf₂.startTime, hf₂.clock, congrArg (· + 1) hf₂.lastTick, hf₂.nextId, hf₂.fault,
      hf₂.expired,
      hf₂.freed⟩

theorem sweepTicks_refines (now currentTick : ℤ) (fuel : ℕ) (h : Refines w s) (hr : Recorded s)
    (hi : Indexed s) :
    ∃ w', sweepTicks now currentTick fuel w = some w' ∧
      Refines w' (TimerKeeper.sweepTicks now currentTick fuel s) := by
  induction fuel generalizing w s with
  | zero => exact ⟨w, rfl, h⟩
  | succ fuel ih =>
    have htick : w.lastTick = s.lastTick := by
      obtain ⟨-, -, -, hf⟩ := h
      exact hf.lastTick
    rw [sweepTicks, TimerKeeper.sweepTicks, htick]
    by_cases hle : s.lastTick ≤ currentTick
    · rw [if_pos hle, if_pos hle]
      obtain ⟨w₁, hw₁, h₁⟩ := sweepSlot_refines now h hr hi
      rw [hw₁, Option.bind_some]
      exact ih h₁ (hr.moved (TimerKeeper.sweepSlot_moved now hr)) (hi.sweepSlot hr now)
    · rw [if_neg hle, if_neg hle]
      exact ⟨w, rfl, h⟩

/-- **A pass** never leaves the allocated memory, and takes out of the wheel what
`TimerKeeper.pass` takes out of the lists. -/
theorem pass_refines (now : ℤ) (h : Refines w s) (hr : Recorded s) (hi : Indexed s) :
    ∃ w', pass w now = some w' ∧ Refines w' (TimerKeeper.pass s now) := by
  obtain ⟨L, hlay, hsh, hf⟩ := h
  have h₀ : Refines { w with clock := now } { s with clock := now } :=
    ⟨L, hlay.of_eq rfl rfl rfl,
      ⟨hsh.adding, hsh.bucket, hsh.curr, hsh.remaining, hsh.map, hsh.mapped⟩,
      ⟨hf.startTime, rfl, hf.lastTick, hf.nextId, hf.fault, hf.expired, hf.freed⟩⟩
  have htick : w.tick now = s.tick now := by rw [Wheel.tick, TimerKeeper.State.tick, hf.startTime]
  have hfuel : (s.tick now + 1 - w.lastTick).toNat = (s.tick now + 1 - s.lastTick).toNat := by
    rw [hf.lastTick]
  show ∃ w', sweepTicks now (w.tick now) (w.tick now + 1 - w.lastTick).toNat
    { w with clock := now } = some w' ∧ _
  rw [htick, hfuel]
  exact sweepTicks_refines now _ _ h₀ ⟨hr.ids, hr.placed, hr.origin, hr.added, hr.nextId⟩
    (hi.congr rfl rfl rfl rfl)

end Pass

/-! ### The callers -/

section Callers

variable [DecidableEq Addr] {w : Wheel Node Addr} {s : State Node}

/-- An entry at an address that was not allocated. -/
theorem addInternal_refines {a : Addr} (now delay : ℤ) (node : Option Node) (owns : Bool)
    (h : Refines w s) (ha : w.heap a = none) :
    Refines (addInternal w a now delay node owns)
      (TimerKeeper.addInternal s now delay node owns) := by
  obtain ⟨L, hlay, hsh, hf⟩ := h
  have hnew : ¬ Within L a := fun hin => by
    have := (hlay.allocated a).mpr hin
    rw [ha] at this
    cases this
  have hnot : ∀ p, a ∉ L p := fun p hp => hnew ⟨p, hp⟩
  have htr : Transfer Set.univ [a] [] L (Function.update L .adding (L .adding ++ [a])) := by
    refine Transfer.one (Set.mem_univ _) ?_
    rw [List.nil_append]
    exact List.perm_append_comm
  have htick : ∀ t, w.tick t = s.tick t := fun t => by
    rw [Wheel.tick, TimerKeeper.State.tick, hf.startTime]
  have hentry : (addInternal w a now delay node owns).entryOf = Function.update w.entryOf a
      (some ⟨w.nextId, now + delay * TimerKeeper.kNsPerMs, node, owns, false⟩) :=
    entryOf_store w a _
  refine ⟨Function.update L .adding (L .adding ++ [a]), ⟨?_, fun b => ?_, ?_, fun k => ?_, ?_, ?_⟩,
    ⟨?_, fun k => ?_, ?_, ?_, hsh.map, fun id b hb => ?_⟩, ?_⟩
  · exact htr.separate hlay.separate (List.nodup_singleton a) fun b hb =>
      List.mem_singleton.mp hb ▸ hnew
  · rw [htr.within, List.mem_singleton, ← hlay.allocated]
    refine (isSome_store w a _).trans ?_
    by_cases hba : b = a
    · simp [hba]
    · simp [hba]
  · rw [Function.update_self, hlay.adding, addInternal, List.map_append]
    rfl
  · rw [Function.update_of_ne (by simp)]
    exact nextOf_store w a _ ▸ (hlay.bucket k).update_of_notMem (hnot _) _
  · exact nextOf_store w a _ ▸ hlay.curr.update_of_notMem (hnot _) _
  · exact nextOf_store w a _ ▸ hlay.remaining.update_of_notMem (hnot _) _
  · show (w.adding ++ [_]).map _ = (s.adding ++ [_]).map _
    rw [List.map_append, List.map_append, hentry, ← hsh.adding,
      map_adding_of_notMem (hlay.adding ▸ hnot .adding)]
    simp only [List.map_cons, List.map_nil, Function.update_self, htick, hf.nextId]
  · rw [Function.update_of_ne (by simp), hentry, map_update_of_notMem (hnot _)]
    exact hsh.bucket k
  · rw [Function.update_of_ne (by simp), hentry, map_update_of_notMem (hnot _)]
    exact hsh.curr
  · rw [Function.update_of_ne (by simp), hentry, map_update_of_notMem (hnot _)]
    exact hsh.remaining
  · obtain ⟨p, hp, hbp, he⟩ := hsh.mapped id b hb
    refine ⟨p, hp, by rwa [Function.update_of_ne hp], ?_⟩
    rw [hentry, Function.update_of_ne (ne_of_mem_of_not_mem hbp (hnot p))]
    exact he
  · exact ⟨hf.startTime, rfl, hf.lastTick, congrArg (· + 1) hf.nextId, hf.fault, hf.expired,
      hf.freed⟩

theorem addTimer_refines {a : Addr} (now delay : ℤ) (target : Target Node) (h : Refines w s)
    (ha : w.heap a = none) :
    Refines (addTimer w a now delay target) (TimerKeeper.addTimer s now delay target) := by
  cases target with
  | taskNode node =>
    cases node with
    | none => exact h
    | some node => exact addInternal_refines now delay _ _ h ha
  | callback task => exact addInternal_refines now delay _ _ h ha

omit [DecidableEq Addr] in
/-- A call in progress and the entry it has made. -/
theorem Shows.adding_get {L : Spot → List Addr} {k slot : ℕ} {a : Addr} (h : Shows L w s [] [])
    (hk : w.adding[k]? = some (a, slot)) :
    ∃ e, w.entryOf a = some e ∧ s.adding[k]? = some (e, slot) := by
  have hget := congrArg (·[k]?) h.adding
  simp only [List.getElem?_map, hk, Option.map_some] at hget
  obtain ⟨x, hx, heq⟩ := Option.map_eq_some_iff.mp hget.symm
  obtain ⟨hentry, hslot⟩ := Prod.mk.inj heq
  exact ⟨x.1, hentry.symm, by rw [hx, ← hslot]⟩

section Link

variable {L : Spot → List Addr} {k slot : ℕ} {a : Addr} {e : TimerEntry Node}

/-- The lists when the call `k` has linked its entry `a` in front of its bucket. -/
def linkedLayout (L : Spot → List Addr) (w : Wheel Node Addr) (k : ℕ) (a : Addr) (slot : ℕ) :
    Spot → List Addr :=
  Function.update (Function.update L .adding ((w.adding.eraseIdx k).map Prod.fst))
    (.bucket slot) (a :: L (.bucket slot))

omit [DecidableEq Addr] in
theorem Layout.adding_perm (h : Layout L w none none) (hk : w.adding[k]? = some (a, slot)) :
    (a :: (w.adding.eraseIdx k).map Prod.fst).Perm (L .adding) := by
  obtain ⟨hlt, hget⟩ := List.getElem?_eq_some_iff.mp hk
  have hperm := (List.getElem_cons_eraseIdx_perm hlt).map Prod.fst
  rw [hget, List.map_cons] at hperm
  rwa [h.adding]

omit [DecidableEq Addr] in
theorem Layout.notMem_of_adding (h : Layout L w none none) (hk : w.adding[k]? = some (a, slot))
    {p : Spot} (hp : p ≠ .adding) : a ∉ L p :=
  h.separate.disjoint .adding p (Ne.symm hp) a ((h.adding_perm hk).subset List.mem_cons_self)

theorem Layout.link (h : Layout L w none none) (hk : w.adding[k]? = some (a, slot))
    (hea : w.entryOf a = some e) :
    Layout (linkedLayout L w k a slot)
      { w.store a (some ⟨e, w.buckets slot⟩) with
        adding := w.adding.eraseIdx k
        buckets := Function.update w.buckets slot (some a)
        taskMap := Function.update w.taskMap e.id (some a) } none none := by
  have htr : Transfer Set.univ [] [] L (linkedLayout L w k a slot) := by
    refine Transfer.two (by simp) (Set.mem_univ _) (Set.mem_univ _) ?_
    exact List.perm_middle.trans ((h.adding_perm hk).append_right _)
  have hnot := fun {p} (hp : p ≠ Spot.adding) => h.notMem_of_adding hk hp
  have hnext := nextOf_store w a (some ⟨e, w.buckets slot⟩)
  refine ⟨?_, fun b => ?_, rfl, fun j => ?_, ?_, ?_⟩
  · exact htr.separate h.separate List.nodup_nil fun b hb => absurd hb List.not_mem_nil
  · rw [htr.within, ← h.allocated]
    refine (isSome_store w a _).trans ?_
    by_cases hba : b = a
    · subst hba
      simp [heap_eq_some hea]
    · simp [hba]
  · show Chain (w.store a _).nextOf (Function.update w.buckets slot (some a) j) _
    rw [hnext, linkedLayout]
    by_cases hj : j = slot
    · subst hj
      rw [Function.update_self, Function.update_self]
      exact (h.bucket j).cons (hnot (by simp))
    · rw [Function.update_of_ne hj, Function.update_of_ne (by simpa using hj),
        Function.update_of_ne (by simp)]
      exact (h.bucket j).update_of_notMem (hnot (by simp)) _
  · exact hnext ▸ h.curr.update_of_notMem (hnot (by simp)) _
  · exact hnext ▸ h.remaining.update_of_notMem (hnot (by simp)) _

theorem Shows.link (h : Shows L w s [] []) (hea : w.entryOf a = some e) :
    Shows (linkedLayout L w k a slot)
      { w.store a (some ⟨e, w.buckets slot⟩) with
        adding := w.adding.eraseIdx k
        buckets := Function.update w.buckets slot (some a)
        taskMap := Function.update w.taskMap e.id (some a) }
      { s with
        adding := s.adding.eraseIdx k
        buckets := Function.update s.buckets slot (e :: s.buckets slot)
        taskMap := Function.update s.taskMap e.id true } [] [] := by
  have hentry : (w.store a (some ⟨e, w.buckets slot⟩)).entryOf = w.entryOf := by
    rw [entryOf_store]
    exact Function.update_eq_self_iff.mpr hea.symm
  refine ⟨?_, fun j => ?_, ?_, ?_, fun id => ?_, fun id b hb => ?_⟩
  · show (w.adding.eraseIdx k).map (fun x => ((w.store a _).entryOf x.1, x.2)) =
      (s.adding.eraseIdx k).map fun x => (some x.1, x.2)
    rw [hentry, ← List.eraseIdx_map, ← List.eraseIdx_map, h.adding]
  · show (linkedLayout L w k a slot (.bucket j)).map (w.store a _).entryOf =
      (Function.update s.buckets slot (e :: s.buckets slot) j).map some
    rw [hentry, linkedLayout]
    by_cases hj : j = slot
    · subst hj
      rw [Function.update_self, Function.update_self, List.map_cons, List.map_cons, hea, h.bucket]
    · rw [Function.update_of_ne hj, Function.update_of_ne (by simpa using hj),
        Function.update_of_ne (by simp)]
      exact h.bucket j
  · show (L .curr).map (w.store a _).entryOf = _
    rw [hentry]
    exact h.curr
  · show (L .remaining).map (w.store a _).entryOf = _
    rw [hentry]
    exact h.remaining
  · show (Function.update w.taskMap e.id (some a) id).isSome =
      Function.update s.taskMap e.id true id
    by_cases hid : id = e.id
    · rw [hid, Function.update_self, Function.update_self]
      rfl
    · rw [Function.update_of_ne hid, Function.update_of_ne hid]
      exact h.map id
  · have hb' : Function.update w.taskMap e.id (some a) id = some b := hb
    show ∃ p, p ≠ .adding ∧ b ∈ linkedLayout L w k a slot p ∧
      ∃ e', (w.store a _).entryOf b = some e' ∧ e'.id = id
    rw [hentry]
    have hslot : linkedLayout L w k a slot (.bucket slot) = a :: L (.bucket slot) :=
      Function.update_self ..
    by_cases hid : id = e.id
    · -- the entry just linked
      rw [hid, Function.update_self] at hb'
      obtain rfl := Option.some.inj hb'
      exact ⟨.bucket slot, by simp, hslot ▸ List.mem_cons_self, e, hea, hid.symm⟩
    · rw [Function.update_of_ne hid] at hb'
      obtain ⟨p, hp, hbp, he⟩ := h.mapped id b hb'
      by_cases hps : p = .bucket slot
      · exact ⟨.bucket slot, by simp, hslot ▸ List.mem_cons_of_mem a (hps ▸ hbp), he⟩
      · refine ⟨p, hp, ?_, he⟩
        rwa [linkedLayout, Function.update_of_ne hps, Function.update_of_ne hp]

end Link

/-- **The critical section of `add_internal`** links the entry in front of its bucket. -/
theorem insert_refines {k slot : ℕ} {a : Addr} (h : Refines w s)
    (hk : w.adding[k]? = some (a, slot)) :
    ∃ w' s', insert w k a slot = some w' ∧ TimerKeeper.insert s k = some s' ∧ Refines w' s' := by
  obtain ⟨L, hlay, hsh, hf⟩ := h
  obtain ⟨e, hea, hsk⟩ := hsh.adding_get hk
  refine ⟨_, _, ?_, ?_, _, hlay.link hk hea, hsh.link hea, ?_⟩
  · rw [insert, heap_eq_some hea, Option.map_some]
  · rw [TimerKeeper.insert, hsk]
  · exact ⟨hf.startTime, hf.clock, hf.lastTick, hf.nextId, hf.fault, hf.expired, hf.freed⟩

/-- An entry is written over in its place. -/
theorem Layout.rewrite {L : Spot → List Addr} {a : Addr} {e : TimerEntry Node}
    (h : Layout L w none none) (hea : w.entryOf a = some e) (e' : TimerEntry Node) :
    Layout L (w.store a (some ⟨e', w.nextOf a⟩)) none none := by
  have hnext : (w.store a (some ⟨e', w.nextOf a⟩)).nextOf = w.nextOf := by
    rw [nextOf_store]
    exact Function.update_eq_self a w.nextOf
  refine ⟨h.separate, fun b => ?_, h.adding, fun j => ?_, ?_, ?_⟩
  · rw [← h.allocated]
    refine (isSome_store w a _).trans ?_
    by_cases hba : b = a
    · subst hba
      simp [heap_eq_some hea]
    · simp [hba]
  · rw [hnext]
    exact h.bucket j
  · rw [hnext]
    exact h.curr
  · rw [hnext]
    exact h.remaining

section Mark

variable {L : Spot → List Addr} {a b : Addr} {e e' : TimerEntry Node}

/-- The addresses of the entries at a place of `TimerKeeper`. -/
def addrsAt (L : Spot → List Addr) : Place → List Addr
  | .adding => L .adding
  | .bucket k => L (.bucket k)
  | _ => []

omit [DecidableEq Addr] in
theorem Shows.map_addrsAt (h : Shows L w s [] []) (hlay : Layout L w none none) {p : Place}
    (ha : a ∈ addrsAt L p) : (addrsAt L p).map w.entryOf = (s.entriesAt p).map some := by
  cases p with
  | adding =>
    have hfst := congrArg (List.map Prod.fst) h.adding
    rw [List.map_map, List.map_map] at hfst
    show (L .adding).map w.entryOf = (s.adding.map Prod.fst).map some
    rw [hlay.adding, List.map_map, List.map_map]
    exact hfst
  | bucket k => exact h.bucket k
  | expired => exact absurd ha List.not_mem_nil
  | handed => exact absurd ha List.not_mem_nil
  | reaped => exact absurd ha List.not_mem_nil

omit [DecidableEq Addr] in
/-- The entry at an address. -/
theorem Shows.entry_of_mem (h : Shows L w s [] []) (hlay : Layout L w none none) {p : Place}
    (ha : a ∈ addrsAt L p) : ∃ e ∈ s.entriesAt p, w.entryOf a = some e := by
  have hmem : w.entryOf a ∈ (addrsAt L p).map w.entryOf := List.mem_map_of_mem ha
  rw [h.map_addrsAt hlay ha] at hmem
  obtain ⟨e, he, heq⟩ := List.mem_map.mp hmem
  exact ⟨e, he, heq.symm⟩

omit [DecidableEq Addr] in
/-- An entry is known by its id. -/
theorem Shows.addr_unique (h : Shows L w s [] []) (hlay : Layout L w none none) (hr : Recorded s)
    {p q : Place} (ha : a ∈ addrsAt L p) (hb : b ∈ addrsAt L q) (hea : w.entryOf a = some e)
    (heb : w.entryOf b = some e') (hid : e.id = e'.id) : a = b := by
  obtain ⟨x, hx, hex⟩ := h.entry_of_mem hlay ha
  obtain rfl : x = e := Option.some.inj (hex.symm.trans hea)
  obtain ⟨y, hy, hey⟩ := h.entry_of_mem hlay hb
  obtain rfl : y = e' := Option.some.inj (hey.symm.trans heb)
  obtain ⟨rfl, rfl⟩ := hr.entry_unique hx hy hid
  -- the entries at one place differ in their ids
  have hnd : ((addrsAt L p).map w.entryOf).Nodup := by
    rw [h.map_addrsAt hlay ha]
    exact (hr.ids.nodup p).of_map.map (Option.some_injective _)
  exact List.inj_on_of_nodup_map hnd ha hb (hea.trans heb.symm)

omit [DecidableEq Addr] in
/-- Between the critical sections `task_map_` points into the buckets. -/
theorem Shows.mapped_bucket (h : Shows L w s [] []) {id : ℕ} (ha : w.taskMap id = some a) :
    ∃ k, a ∈ L (.bucket k) ∧ ∃ e, w.entryOf a = some e ∧ e.id = id := by
  have hcurr : L .curr = [] := by simpa using h.curr
  have hremaining : L .remaining = [] := by simpa using h.remaining
  obtain ⟨p, hp, hap, he⟩ := h.mapped id a ha
  cases p with
  | adding => exact absurd rfl hp
  | bucket k => exact ⟨k, hap, he⟩
  | curr => exact absurd (hcurr ▸ hap) List.not_mem_nil
  | remaining => exact absurd (hremaining ▸ hap) List.not_mem_nil

/-- The flag is set through the pointer in `task_map_`: that is the entry with this id. -/
theorem Shows.mark (h : Shows L w s [] []) (hlay : Layout L w none none) (hr : Recorded s)
    {id : ℕ} (hmap : w.taskMap id = some a) (hea : w.entryOf a = some e) :
    Shows L
      { w.store a (some ⟨{ e with canceled := true }, w.nextOf a⟩) with
        taskMap := Function.update w.taskMap id none }
      { s with
        buckets := fun k => (s.buckets k).map (TimerKeeper.mark id)
        taskMap := Function.update s.taskMap id false } [] [] := by
  obtain ⟨k₀, hak, e₀, he₀, hid⟩ := h.mapped_bucket hmap
  obtain rfl : e₀ = e := Option.some.inj (he₀.symm.trans hea)
  have hentry := entryOf_store w a (some ⟨{ e₀ with canceled := true }, w.nextOf a⟩)
  have hcurr : L .curr = [] := by simpa using h.curr
  have hremaining : L .remaining = [] := by simpa using h.remaining
  refine ⟨?_, fun k => ?_, ?_, ?_, fun id' => ?_, fun id' b hb => ?_⟩
  · have hnot : a ∉ L .adding := hlay.separate.disjoint (.bucket k₀) .adding (by simp) a hak
    show w.adding.map (fun x => ((w.store a _).entryOf x.1, x.2)) = _
    rw [hentry, map_adding_of_notMem (hlay.adding ▸ hnot)]
    exact h.adding
  · show (L (.bucket k)).map (w.store a _).entryOf =
      ((s.buckets k).map (TimerKeeper.mark id)).map some
    have hmarked : ((s.buckets k).map (TimerKeeper.mark id)).map some =
        ((L (.bucket k)).map w.entryOf).map (Option.map (TimerKeeper.mark id)) := by
      rw [h.bucket, List.map_map, List.map_map]
      rfl
    rw [hmarked, List.map_map, hentry]
    refine List.map_congr_left fun b hb => ?_
    by_cases hba : b = a
    · subst hba
      show Function.update w.entryOf b _ b = (w.entryOf b).map (TimerKeeper.mark id)
      rw [Function.update_self, hea]
      show some { e₀ with canceled := true } = some (TimerKeeper.mark id e₀)
      rw [TimerKeeper.mark, if_pos hid]
    · obtain ⟨e', -, heb⟩ := h.entry_of_mem hlay (p := .bucket k) hb
      have hne : e'.id ≠ id := fun hid' =>
        hba (h.addr_unique hlay hr (p := .bucket k) (q := .bucket k₀) hb hak heb hea
          (hid'.trans hid.symm))
      show Function.update w.entryOf a _ b = (w.entryOf b).map (TimerKeeper.mark id)
      rw [Function.update_of_ne hba, heb, Option.map_some, TimerKeeper.mark, if_neg hne]
  · rw [hcurr]
    rfl
  · rw [hremaining]
    rfl
  · show (Function.update w.taskMap id none id').isSome = Function.update s.taskMap id false id'
    by_cases hid' : id' = id
    · rw [hid', Function.update_self, Function.update_self]
      rfl
    · rw [Function.update_of_ne hid', Function.update_of_ne hid']
      exact h.map id'
  · have hb' : Function.update w.taskMap id none id' = some b := hb
    have hne : id' ≠ id := by
      rintro rfl
      rw [Function.update_self] at hb'
      cases hb'
    rw [Function.update_of_ne hne] at hb'
    obtain ⟨k, hbk, e', heb, hid'⟩ := h.mapped_bucket hb'
    have hba : b ≠ a := by
      rintro rfl
      obtain rfl : e₀ = e' := Option.some.inj (hea.symm.trans heb)
      exact hne (hid'.symm.trans hid)
    refine ⟨.bucket k, by simp, hbk, e', ?_, hid'⟩
    show (w.store a _).entryOf b = some e'
    rw [hentry, Function.update_of_ne hba, heb]

end Mark

/-- **`CancelTimer`** with any id: what it follows is an allocated entry. -/
theorem cancelTimer_refines (id : ℕ) (h : Refines w s) (hr : Recorded s) :
    ∃ w', cancelTimer w id = some w' ∧ Refines w' (TimerKeeper.cancelTimer s id) := by
  by_cases hzero : id = 0
  · refine ⟨w, ?_, ?_⟩
    · rw [cancelTimer, if_pos hzero]
    · rw [TimerKeeper.cancelTimer, if_pos hzero]
      exact h
  obtain ⟨L, hlay, hsh, hf⟩ := h
  have hmap := hsh.map id
  cases hw : w.taskMap id with
  | none =>
    rw [hw] at hmap
    refine ⟨w, ?_, ?_⟩
    · rw [cancelTimer, if_neg hzero, hw]
    · rw [TimerKeeper.cancelTimer, if_neg hzero, ← hmap]
      exact ⟨L, hlay, hsh, hf⟩
  | some a =>
    rw [hw] at hmap
    obtain ⟨k, hak, e, hea, -⟩ := hsh.mapped_bucket hw
    rw [TimerKeeper.cancelTimer, if_neg hzero, ← hmap]
    have hlay' := hlay.rewrite hea { e with canceled := true }
    refine ⟨{ w.store a (some ⟨{ e with canceled := true }, w.nextOf a⟩) with
      taskMap := Function.update w.taskMap id none }, ?_, L, hlay'.of_eq rfl rfl rfl,
      hsh.mark hlay hr hw hea, ?_⟩
    · rw [cancelTimer, if_neg hzero, hw]
      show (w.heap a).map _ = _
      rw [heap_eq_some hea, Option.map_some]
    · exact ⟨hf.startTime, hf.clock, hf.lastTick, hf.nextId, hf.fault, hf.expired, hf.freed⟩

end Callers

end TimerWheel
