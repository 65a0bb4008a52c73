/-
Where the timers are.

Every timer that `AddTimer` has numbered is in one `Place`: its call is still
before the lock, or its entry is in a bucket, in the expired list of the pass in
progress, handed to the executor, or reaped as canceled.  The critical sections
only move entries among these places (`Moved`).

* `Recorded` — every timer is in exactly one place, as it was added;
* `Linked` — the expired list is a chain through `TaskNode::next`, and no node is
  pending twice;
* `run_recorded_linked` — both hold after every run that adds no node twice at a
  time (`FreshNode`).
-/
import AntServer.IntrusiveList
import AntServer.Places
import AntServer.TimerKeeper

namespace TimerKeeper

variable {Node : Type*}

inductive Place
  | adding                -- `add_internal` has not reached its critical section
  | bucket (k : ℕ)
  | expired
  | handed
  | reaped
deriving DecidableEq

def State.entriesAt (s : State Node) : Place → List (TimerEntry Node)
  | .adding => s.adding.map Prod.fst
  | .bucket k => s.buckets k
  | .expired => s.expiring.map Extraction.entry
  | .handed => s.dispatched.map Extraction.entry
  | .reaped => s.reaped

def State.idsAt (s : State Node) (p : Place) : List ℕ := (s.entriesAt p).map TimerEntry.id

/-- The node that an entry will still hand out. -/
def pendingNode (e : TimerEntry Node) : Option Node := if e.canceled then none else e.taskNode

/-- The nodes at a place that are pending: neither canceled nor handed out. -/
def State.pendingAt (s : State Node) (p : Place) : List Node :=
  if p = .handed then [] else (s.entriesAt p).filterMap pendingNode

/-! ### Moving entries -/

/-- From `s` to `s'` entries have moved among the places `ps` only. -/
structure Moved (ps : List Place) (s s' : State Node) : Prop where
  nodup : ps.Nodup
  perm : (ps.flatMap s'.entriesAt).Perm (ps.flatMap s.entriesAt)
  rest : ∀ p ∉ ps, s'.entriesAt p = s.entriesAt p
  added : s'.added = s.added
  nextId : s'.nextId = s.nextId

/-- Every timer numbered so far is in exactly one place, and is there as it was
added, but for the flag. -/
structure Recorded (s : State Node) : Prop where
  ids : Separate s.idsAt
  placed : ∀ e ∈ s.added, Within s.idsAt e.id
  origin : ∀ e, Within s.entriesAt e → { e with canceled := false } ∈ s.added
  added : ∀ e ∈ s.added, 0 < e.id ∧ e.id < s.nextId ∧ e.taskNode.isSome
  nextId : 0 < s.nextId

theorem Recorded.taskNode_isSome {s : State Node} (h : Recorded s) {p : Place}
    {e : TimerEntry Node} (he : e ∈ s.entriesAt p) : e.taskNode.isSome :=
  (h.added _ (h.origin e ⟨p, he⟩)).2.2

theorem flatMap_idsAt (s : State Node) (ps : List Place) :
    ps.flatMap s.idsAt = (ps.flatMap s.entriesAt).map TimerEntry.id :=
  List.map_flatMap.symm

theorem flatMap_pendingAt (s : State Node) {ps : List Place} (hps : Place.handed ∉ ps) :
    ps.flatMap s.pendingAt = (ps.flatMap s.entriesAt).filterMap pendingNode := by
  induction ps with
  | nil => rfl
  | cons p ps ih =>
    obtain ⟨hp, hrest⟩ := not_or.mp (mt List.mem_cons.mpr hps)
    rw [List.flatMap_cons, List.flatMap_cons, List.filterMap_append, ih hrest,
      State.pendingAt, if_neg (Ne.symm hp)]

theorem Recorded.moved {s s' : State Node} {ps : List Place} (h : Recorded s)
    (hm : Moved ps s s') : Recorded s' := by
  have hperm : (ps.flatMap s'.idsAt).Perm (ps.flatMap s.idsAt) := by
    rw [flatMap_idsAt, flatMap_idsAt]
    exact hm.perm.map _
  have hrest : ∀ p ∉ ps, s'.idsAt p = s.idsAt p := fun p hp => by
    rw [State.idsAt, hm.rest p hp, State.idsAt]
  refine ⟨h.ids.exchange hm.nodup hperm.subperm hrest, fun e he => ?_, fun e he => ?_, ?_, ?_⟩
  · rw [hm.added] at he
    exact (within_exchange hperm hrest).mpr (h.placed e he)
  · rw [hm.added]
    exact h.origin e ((within_exchange hm.perm hm.rest).mp he)
  · rw [hm.added, hm.nextId]
    exact h.added
  · rw [hm.nextId]
    exact h.nextId

/-- Moving entries without handing any out keeps pending nodes apart. -/
theorem Moved.pending {s s' : State Node} {ps : List Place} (hm : Moved ps s s')
    (hps : Place.handed ∉ ps) (h : Separate s.pendingAt) : Separate s'.pendingAt := by
  refine h.exchange hm.nodup ?_ fun p hp => by
    rw [State.pendingAt, State.pendingAt, hm.rest p hp]
  rw [flatMap_pendingAt s hps, flatMap_pendingAt s' hps]
  exact (hm.perm.filterMap _).subperm

theorem insert_moved {s s' : State Node} {k : ℕ} (hs : insert s k = some s') :
    ∃ entry slot, (entry, slot) ∈ s.adding ∧ Moved [.adding, .bucket slot] s s' ∧
      s' = { s with
        adding := s.adding.eraseIdx k
        buckets := Function.update s.buckets slot (entry :: s.buckets slot)
        taskMap := Function.update s.taskMap entry.id true } := by
  rw [insert] at hs
  split at hs
  · cases hs
  next entry slot hk =>
    cases hs
    obtain ⟨hlt, hget⟩ := List.getElem?_eq_some_iff.mp hk
    refine ⟨entry, slot, List.mem_of_getElem? hk, ⟨by simp, ?_, ?_, rfl, rfl⟩, rfl⟩
    · have hperm := (List.getElem_cons_eraseIdx_perm hlt).map Prod.fst
      rw [hget, List.map_cons] at hperm
      simp only [List.flatMap_cons, List.flatMap_nil, List.append_nil, State.entriesAt,
        Function.update_self]
      exact (List.perm_middle.trans (hperm.append_right _))
    · intro p hp
      cases p with
      | bucket j =>
        have hj : j ≠ slot := by
          rintro rfl
          exact hp (by simp)
        simp only [State.entriesAt, Function.update_of_ne hj]
      | adding => exact absurd List.mem_cons_self hp
      | expired => rfl
      | handed => rfl
      | reaped => rfl

/-- The entries a pass takes out are those that are due. -/
theorem map_entry_filterMap_extraction (now : ℤ) {es : List (TimerEntry Node)}
    (hes : ∀ e ∈ es, e.taskNode.isSome) :
    (es.filterMap (extraction now)).map Extraction.entry =
      es.filter fun e => !e.canceled && !decide (now < e.expireAt) := by
  induction es with
  | nil => rfl
  | cons e es ih =>
    have ih := ih fun x hx => hes x (List.mem_cons_of_mem e hx)
    obtain ⟨node, hn⟩ := Option.isSome_iff_exists.mp (hes e List.mem_cons_self)
    by_cases hdue : e.canceled = false ∧ e.expireAt ≤ now
    · rw [List.filterMap_cons_some (b := ⟨e, node, now⟩) (by simp [extraction, hdue, hn]),
        List.map_cons, ih, List.filter_cons_of_pos (by simp [hdue])]
    · rw [List.filterMap_cons_none (by rw [extraction, if_neg hdue]), ih,
        List.filter_cons_of_neg (by simpa [not_and] using hdue)]

/-- A pass splits a bucket three ways. -/
theorem split_perm (now : ℤ) {es : List (TimerEntry Node)} (hes : ∀ e ∈ es, e.taskNode.isSome) :
    ((es.filter (kept now)).reverse ++
      ((es.filterMap (extraction now)).reverse.map Extraction.entry ++
        es.filter TimerEntry.canceled)).Perm es := by
  have hlive := List.filter_append_perm (fun e => decide (now < e.expireAt))
    (es.filter fun e : TimerEntry Node => !e.canceled)
  simp only [List.filter_filter] at hlive
  rw [List.map_reverse, map_entry_filterMap_extraction now hes, ← List.append_assoc]
  have hrev : ((es.filter (kept now)).reverse ++ (es.filter fun e : TimerEntry Node =>
      !e.canceled && !decide (now < e.expireAt)).reverse).Perm
        (es.filter fun e : TimerEntry Node => !e.canceled) := by
    have hswap : ∀ q : TimerEntry Node → Bool,
        (fun e => !e.canceled && q e) = fun e => q e && !e.canceled :=
      fun q => funext fun e => Bool.and_comm _ _
    rw [show kept now = fun e : TimerEntry Node => !e.canceled && decide (now < e.expireAt)
      from rfl, hswap, hswap]
    exact ((List.reverse_perm _).append (List.reverse_perm _)).trans hlive
  exact (hrev.append_right _).trans
    (List.perm_append_comm.trans (List.filter_append_perm TimerEntry.canceled es))

section Run

variable [DecidableEq Node]

/-- Sweeping a slot moves entries from the bucket to the expired list and to the
reaped ones. -/
theorem sweepSlot_moved (now : ℤ) {s : State Node} (h : Recorded s) :
    Moved [.bucket (slotOf s.lastTick), .expired, .reaped] s (sweepSlot now s) := by
  have hsome : ∀ e ∈ s.buckets (slotOf s.lastTick), e.taskNode.isSome := fun e he =>
    h.taskNode_isSome (p := .bucket (slotOf s.lastTick)) he
  obtain ⟨m, n, hd, -, heq⟩ := sweepSlot_eq now s
  rw [heq]
  refine ⟨by simp, ?_, ?_, rfl, rfl⟩
  · have hsplit := split_perm now hsome
    simp only [List.flatMap_cons, List.flatMap_nil, List.append_nil, State.entriesAt,
      Function.update_self, List.map_append]
    rw [List.perm_iff_count] at hsplit ⊢
    intro e
    have := hsplit e
    simp only [List.count_append] at this ⊢
    omega
  · intro p hp
    cases p with
    | bucket j =>
      have hj : j ≠ slotOf s.lastTick := by
        rintro rfl
        exact hp List.mem_cons_self
      simp only [State.entriesAt, Function.update_of_ne hj]
    | adding => rfl
    | handed => rfl
    | expired => simp at hp
    | reaped => simp at hp

theorem dispatch_moved {s s' : State Node} (hs : dispatch s = some s') :
    Moved [.expired, .handed] s s' := by
  rw [dispatch] at hs
  split at hs
  · cases hs
  · cases hs
    refine ⟨by simp, ?_, ?_, rfl, rfl⟩
    · simp only [List.flatMap_cons, List.flatMap_nil, List.append_nil, State.entriesAt,
        List.map_append]
      cases s.expiring with
      | nil => simp
      | cons x xs =>
        simp only [List.tail_cons, List.head?_cons, Option.toList_some, List.map_cons, List.map_nil]
        rw [← List.append_assoc]
        exact List.perm_append_comm
    · intro p hp
      cases p with
      | adding => rfl
      | bucket k => rfl
      | reaped => rfl
      | expired => exact absurd List.mem_cons_self hp
      | handed => simp at hp

/-! ### The links -/

/-- The links of the expired list, the ids in `task_map_` and the nodes that are
pending fit the entries. -/
structure Linked (s : State Node) : Prop where
  pending : Separate s.pendingAt
  adding : ∀ x ∈ s.adding, x.1.canceled = false
  mapped : ∀ k, ∀ e ∈ s.buckets k, e.canceled = false → s.taskMap e.id = true
  extracted : ∀ x ∈ s.expiring ++ s.dispatched, x.entry.canceled = false ∧
    x.entry.taskNode = some x.node ∧ x.entry.expireAt ≤ x.now
  chain : Chain s.next s.expiredHead (s.expiring.map Extraction.node)
  handed : s.handed = s.dispatched.map Extraction.node

omit [DecidableEq Node] in
theorem pendingAt_expired {s : State Node}
    (h : ∀ x ∈ s.expiring, x.entry.canceled = false ∧ x.entry.taskNode = some x.node) :
    s.pendingAt .expired = s.expiring.map Extraction.node := by
  rw [State.pendingAt, if_neg (by simp), State.entriesAt, List.filterMap_map]
  refine List.filterMap_eq_map_iff_forall_eq_some.mpr fun x hx => ?_
  obtain ⟨hc, hn⟩ := h x hx
  simp [pendingNode, hc, hn]

omit [DecidableEq Node] in
theorem extraction_eq_some {now : ℤ} {e : TimerEntry Node} {x : Extraction Node}
    (h : extraction now e = some x) :
    x.entry = e ∧ x.now = now ∧ e.canceled = false ∧ e.expireAt ≤ now ∧
      e.taskNode = some x.node := by
  rw [extraction] at h
  split at h
  next hdue =>
    obtain ⟨node, hn, rfl⟩ := Option.map_eq_some_iff.mp h
    exact ⟨rfl, rfl, hdue.1, hdue.2, hn⟩
  · cases h

/-- Prepending distinct nodes builds a chain. -/
theorem foldl_sweepEntry_chain (now : ℤ) {es : List (TimerEntry Node)}
    {w : State Node × List (TimerEntry Node)}
    (hchain : Chain w.1.next w.1.expiredHead (w.1.expiring.map Extraction.node))
    (hnd : ((es.foldl (sweepEntry now) w).1.expiring.map Extraction.node).Nodup) :
    Chain (es.foldl (sweepEntry now) w).1.next (es.foldl (sweepEntry now) w).1.expiredHead
      ((es.foldl (sweepEntry now) w).1.expiring.map Extraction.node) := by
  induction es generalizing w with
  | nil => exact hchain
  | cons e es ih =>
    rw [List.foldl_cons] at hnd ⊢
    refine ih ?_ hnd
    by_cases hc : e.canceled = true
    · rw [sweepEntry_canceled hc]
      exact hchain
    rw [Bool.not_eq_true] at hc
    by_cases hdue : e.expireAt ≤ now
    · cases hn : e.taskNode with
      | none =>
        rw [sweepEntry_null hc hdue hn]
        exact hchain
      | some node =>
        rw [sweepEntry_due hc hdue hn] at hnd ⊢
        -- the node is not yet in the list: both are in the list at the end
        obtain ⟨m, n, hd, -, heq⟩ := foldl_sweepEntry now es
          { w.1 with
            taskMap := Function.update w.1.taskMap e.id false
            next := Function.update w.1.next node w.1.expiredHead
            expiredHead := some node
            expiring := ⟨e, node, now⟩ :: w.1.expiring } w.2
        rw [heq] at hnd
        simp only [List.map_append, List.map_cons] at hnd
        have hnew : node ∉ w.1.expiring.map Extraction.node :=
          (List.nodup_cons.mp (List.nodup_append.mp hnd).2.1).1
        exact hchain.cons hnew
    · rw [sweepEntry_kept hc (by omega)]
      exact hchain

theorem Linked.sweepSlot {s : State Node} {now : ℤ} (hr : Recorded s) (h : Linked s) :
    Linked (sweepSlot now s) := by
  have hmoved := sweepSlot_moved now hr
  have hr' := hr.moved hmoved
  have hpending := hmoved.pending (by simp) h.pending
  obtain ⟨m, n, hd, hmap, heq⟩ := sweepSlot_eq now s
  have hextracted : ∀ x ∈ (TimerKeeper.sweepSlot now s).expiring ++
      (TimerKeeper.sweepSlot now s).dispatched, x.entry.canceled = false ∧
        x.entry.taskNode = some x.node ∧ x.entry.expireAt ≤ x.now := by
    intro x hx
    rw [heq] at hx
    simp only [List.mem_append, List.mem_reverse, List.mem_filterMap, or_assoc] at hx
    rcases hx with ⟨e, -, hx⟩ | hx
    · obtain ⟨rfl, rfl, hc, hdue, hn⟩ := extraction_eq_some hx
      exact ⟨hc, hn, hdue⟩
    · exact h.extracted x (List.mem_append.mpr hx)
  have hnodes := pendingAt_expired fun x hx =>
    ⟨(hextracted x (List.mem_append_left _ hx)).1, (hextracted x (List.mem_append_left _ hx)).2.1⟩
  refine ⟨hpending, ?_, fun k e he hc => ?_, hextracted, ?_, ?_⟩
  · rw [heq]
    exact h.adding
  · -- an id that leaves the map is in the expired list, so it is not in a bucket
    have hid : e.id ∈ (TimerKeeper.sweepSlot now s).idsAt (.bucket k) :=
      List.mem_map_of_mem he
    have hold := h.mapped k e (mem_sweepSlot.mp he).1 hc
    have hkeep : m e.id = s.taskMap e.id := by
      refine hmap e.id fun e' he' hc' hdue' hsame => ?_
      obtain ⟨node, hn⟩ := Option.isSome_iff_exists.mp
        (hr.taskNode_isSome (p := .bucket (slotOf s.lastTick)) he')
      have hexp : e'.id ∈ (TimerKeeper.sweepSlot now s).idsAt .expired := by
        have hmem : (⟨e', node, now⟩ : Extraction Node) ∈
            (s.buckets (slotOf s.lastTick)).filterMap (extraction now) :=
          List.mem_filterMap.mpr ⟨e', he', by simp [extraction, hc', hdue', hn]⟩
        refine List.mem_map.mpr ⟨e', List.mem_map.mpr ⟨⟨e', node, now⟩, ?_, rfl⟩, rfl⟩
        rw [heq]
        exact List.mem_append_left _ (List.mem_reverse.mpr hmem)
      rw [hsame] at hexp
      cases hr'.ids.eq_of_mem hid hexp
    rw [heq]
    exact hkeep.trans hold
  · have hnd := hpending.nodup .expired
    rw [hnodes] at hnd
    exact foldl_sweepEntry_chain now h.chain hnd
  · rw [heq]
    exact h.handed

theorem Recorded.pass {s : State Node} (h : Recorded s) (now : ℤ) : Recorded (pass s now) := by
  have h₀ : Recorded { s with clock := now } := ⟨h.ids, h.placed, h.origin, h.added, h.nextId⟩
  exact (pass_induction h₀ fun t ht _ => ht.moved (sweepSlot_moved now ht)).1

theorem Linked.pass {s : State Node} (hr : Recorded s) (h : Linked s) (now : ℤ) :
    Linked (pass s now) := by
  have h₀ : Recorded { s with clock := now } ∧ Linked { s with clock := now } :=
    ⟨⟨hr.ids, hr.placed, hr.origin, hr.added, hr.nextId⟩,
      ⟨h.pending, h.adding, h.mapped, h.extracted, h.chain, h.handed⟩⟩
  exact (pass_induction (I := fun t => Recorded t ∧ Linked t) h₀
    fun t ht _ => ⟨ht.1.moved (sweepSlot_moved now ht.1), ht.2.sweepSlot ht.1⟩).1.2

/-- The head of the expired list is the last node prepended. -/
theorem dispatch_eq {s s' : State Node} (h : Linked s) (hs : dispatch s = some s') :
    ∃ x xs, s.expiring = x :: xs ∧ Chain s.next (s.next x.node) (xs.map Extraction.node) ∧
      s' = { s with
        expiredHead := s.next x.node
        next := Function.update s.next x.node none
        handed := s.handed ++ [x.node]
        expiring := xs
        dispatched := s.dispatched ++ [x] } := by
  rw [dispatch] at hs
  split at hs
  · cases hs
  next node hhead =>
    cases hs
    have hchain := h.chain
    rw [hhead] at hchain
    obtain ⟨ys, hys, htail⟩ := hchain.tail
    obtain ⟨x, xs, hxs, rfl, rfl⟩ := List.map_eq_cons_iff.mp hys
    exact ⟨x, xs, hxs, htail, by simp [hxs]⟩

theorem Linked.dispatch {s s' : State Node} (h : Linked s) (hs : dispatch s = some s') :
    Linked s' := by
  obtain ⟨x, xs, hxs, htail, rfl⟩ := dispatch_eq h hs
  have hnd : (s.expiring.map Extraction.node).Nodup := h.chain.nodup
  rw [hxs, List.map_cons, List.nodup_cons] at hnd
  have hext := h.extracted
  rw [hxs] at hext
  refine ⟨?_, h.adding, h.mapped, fun y hy => hext y ?_, htail.update_of_notMem hnd.1 _, ?_⟩
  · refine h.pending.exchange (List.nodup_singleton Place.expired) ?_ fun p hp => ?_
    · simp only [List.flatMap_cons, List.flatMap_nil, List.append_nil, State.pendingAt,
        State.entriesAt, hxs, reduceCtorEq, if_false, List.map_cons]
      exact (List.Sublist.filterMap _ (List.sublist_cons_self _ _)).subperm
    · cases p with
      | expired => exact absurd List.mem_cons_self hp
      | _ => rfl
  · simp only [List.mem_append, List.mem_cons, List.not_mem_nil, or_false] at hy ⊢
    tauto
  · simp only [h.handed, List.map_append, List.map_cons, List.map_nil]

end Run

/-! ### The callers -/

/-- The node that `AddTimer` is given or makes. -/
def Target.node? : Target Node → Option Node
  | .taskNode node => node
  | .callback task => some task

theorem addTimer_cases (s : State Node) (now delay : ℤ) (target : Target Node) :
    addTimer s now delay target = s ∨
      ∃ node owns, target.node? = some node ∧
        addTimer s now delay target = addInternal s now delay (some node) owns := by
  rcases target with (_ | node) | task
  · exact Or.inl rfl
  · exact Or.inr ⟨node, false, rfl, rfl⟩
  · exact Or.inr ⟨task, true, rfl, rfl⟩

/-- `add_internal` before the lock, for an entry with its slot. -/
def State.addEntry (s : State Node) (now : ℤ) (e : TimerEntry Node) (slot : ℕ) : State Node :=
  { s with
    clock := now
    nextId := s.nextId + 1
    adding := s.adding ++ [(e, slot)]
    added := s.added ++ [e] }

theorem Recorded.addEntry {s : State Node} (h : Recorded s) (now : ℤ) {e : TimerEntry Node}
    (slot : ℕ) (hid : e.id = s.nextId) (hc : e.canceled = false) (hn : e.taskNode.isSome) :
    Recorded (s.addEntry now e slot) := by
  have hnew : ¬ Within s.idsAt e.id := by
    rintro ⟨p, hp⟩
    obtain ⟨x, hx, hxid⟩ := List.mem_map.mp hp
    have hlt : x.id < s.nextId := (h.added _ (h.origin x ⟨p, hx⟩)).2.1
    omega
  have hput : ((s.addEntry now e slot).idsAt .adding).Perm (e.id :: s.idsAt .adding) := by
    simp only [State.addEntry, State.idsAt, State.entriesAt, List.map_append]
    exact List.perm_append_comm
  have hrest : ∀ p, p ≠ Place.adding → (s.addEntry now e slot).idsAt p = s.idsAt p := by
    intro p hp
    cases p with
    | adding => exact absurd rfl hp
    | _ => rfl
  refine ⟨h.ids.put hnew hput hrest, fun x hx => ?_, ?_, fun x hx => ?_, Nat.succ_pos _⟩
  · rw [within_put hput hrest]
    rcases List.mem_append.mp hx with hx | hx
    · exact Or.inr (h.placed x hx)
    · rw [List.mem_singleton.mp hx]
      exact Or.inl rfl
  · rintro x ⟨p, hx⟩
    have hold : x ∈ s.entriesAt p → { x with canceled := false } ∈ (s.addEntry now e slot).added :=
      fun hx => List.mem_append_left _ (h.origin x ⟨p, hx⟩)
    cases p with
    | adding =>
      simp only [State.addEntry, State.entriesAt, List.map_append, List.mem_append,
        List.map_cons, List.map_nil, List.mem_singleton] at hx
      rcases hx with hx | rfl
      · exact hold hx
      · rw [← hc]
        exact List.mem_append_right _ List.mem_cons_self
    | _ => exact hold hx
  · show 0 < x.id ∧ x.id < s.nextId + 1 ∧ x.taskNode.isSome
    rcases List.mem_append.mp hx with hx | hx
    · obtain ⟨hpos, hlt, hsome⟩ := h.added x hx
      exact ⟨hpos, Nat.lt_succ_of_lt hlt, hsome⟩
    · rw [List.mem_singleton.mp hx, hid]
      exact ⟨h.nextId, Nat.lt_succ_self _, hn⟩

theorem Linked.addEntry {s : State Node} (h : Linked s) (now : ℤ) {e : TimerEntry Node}
    (slot : ℕ) {node : Node} (hc : e.canceled = false) (hn : e.taskNode = some node)
    (hfresh : ¬ Within s.pendingAt node) : Linked (s.addEntry now e slot) := by
  refine ⟨h.pending.put (i := .adding) hfresh ?_ fun p hp => ?_, fun x hx => ?_, h.mapped,
    h.extracted, h.chain, h.handed⟩
  · have hpending : [e].filterMap pendingNode = [node] := by simp [pendingNode, hc, hn]
    simp only [State.addEntry, State.pendingAt, State.entriesAt, reduceCtorEq, if_false,
      List.map_append, List.map_cons, List.map_nil, List.filterMap_append, hpending]
    exact List.perm_append_comm
  · cases p with
    | adding => exact absurd rfl hp
    | _ => rfl
  · rcases List.mem_append.mp hx with hx | hx
    · exact h.adding x hx
    · rw [List.mem_singleton.mp hx]
      exact hc

theorem Recorded.addInternal {s : State Node} (h : Recorded s) (now delay : ℤ) (node : Node)
    (owns : Bool) : Recorded (addInternal s now delay (some node) owns) :=
  h.addEntry now _ rfl rfl rfl

theorem Linked.addInternal {s : State Node} (h : Linked s) (now delay : ℤ) (node : Node)
    (owns : Bool) (hfresh : ¬ Within s.pendingAt node) :
    Linked (addInternal s now delay (some node) owns) :=
  h.addEntry now _ rfl rfl hfresh

theorem Linked.insert {s s' : State Node} {k : ℕ} (h : Linked s) (hs : insert s k = some s') :
    Linked s' := by
  obtain ⟨entry, slot, hmem, hmoved, heq⟩ := insert_moved hs
  have hpending := hmoved.pending (by simp) h.pending
  rw [heq] at hpending ⊢
  refine ⟨hpending, fun x hx => h.adding x (List.mem_of_mem_eraseIdx hx), fun j e he hc => ?_,
    h.extracted, h.chain, h.handed⟩
  by_cases hid : e.id = entry.id
  · rw [hid]
    exact Function.update_self ..
  · simp only [Function.update_of_ne hid]
    by_cases hj : j = slot
    · subst hj
      simp only [Function.update_self] at he
      rcases List.mem_cons.mp he with rfl | he
      · exact absurd rfl hid
      · exact h.mapped j e he hc
    · simp only [Function.update_of_ne hj] at he
      exact h.mapped j e he hc

@[simp] theorem mark_id (id : ℕ) (e : TimerEntry Node) : (mark id e).id = e.id := by
  rw [mark]
  split <;> rfl

theorem mark_uncanceled (id : ℕ) (e : TimerEntry Node) :
    { mark id e with canceled := false } = { e with canceled := false } := by
  rw [mark]
  split <;> rfl

/-- `CancelTimer` either leaves everything as it is or marks the entry. -/
theorem cancelTimer_cases (s : State Node) (id : ℕ) :
    cancelTimer s id = s ∨ s.taskMap id = true ∧ cancelTimer s id =
      { s with
        buckets := fun k => (s.buckets k).map (mark id)
        taskMap := Function.update s.taskMap id false } := by
  rw [cancelTimer]
  split
  · exact Or.inl rfl
  split
  next hmap => exact Or.inr ⟨hmap, rfl⟩
  · exact Or.inl rfl

theorem Recorded.cancelTimer {s : State Node} (h : Recorded s) (id : ℕ) :
    Recorded (cancelTimer s id) := by
  rcases cancelTimer_cases s id with heq | ⟨-, heq⟩
  · rw [heq]
    exact h
  rw [heq]
  -- the ids are everywhere the same
  have hids : State.idsAt { s with
      buckets := fun k => (s.buckets k).map (mark id)
      taskMap := Function.update s.taskMap id false } = s.idsAt := by
    funext p
    cases p with
    | bucket k =>
      simp only [State.idsAt, State.entriesAt, List.map_map]
      exact List.map_congr_left fun e _ => mark_id id e
    | _ => rfl
  refine ⟨by rw [hids]; exact h.ids, fun e he => by rw [hids]; exact h.placed e he, ?_, h.added,
    h.nextId⟩
  rintro e ⟨p, he⟩
  cases p with
  | bucket k =>
    obtain ⟨e₀, he₀, rfl⟩ := List.mem_map.mp he
    rw [mark_uncanceled]
    exact h.origin e₀ ⟨.bucket k, he₀⟩
  | adding => exact h.origin e ⟨.adding, he⟩
  | expired => exact h.origin e ⟨.expired, he⟩
  | handed => exact h.origin e ⟨.handed, he⟩
  | reaped => exact h.origin e ⟨.reaped, he⟩

theorem mark_of_live {id : ℕ} {e : TimerEntry Node} (hc : (mark id e).canceled = false) :
    e.id ≠ id ∧ mark id e = e := by
  by_cases hid : e.id = id
  · simp [mark, hid] at hc
  · exact ⟨hid, by rw [mark, if_neg hid]⟩

theorem filterMap_pendingNode_mark (id : ℕ) (es : List (TimerEntry Node)) :
    ((es.map (mark id)).filterMap pendingNode).Sublist (es.filterMap pendingNode) := by
  induction es with
  | nil => exact List.Sublist.refl []
  | cons e es ih =>
    rw [List.map_cons, List.filterMap_cons, List.filterMap_cons]
    by_cases hid : e.id = id
    · have hnone : pendingNode (mark id e) = none := by simp [pendingNode, mark, hid]
      rw [hnone]
      cases pendingNode e with
      | none => exact ih
      | some n => exact ih.cons n
    · rw [mark, if_neg hid]
      cases pendingNode e with
      | none => exact ih
      | some n => exact ih.cons_cons n

theorem Linked.cancelTimer {s : State Node} (h : Linked s) (id : ℕ) :
    Linked (cancelTimer s id) := by
  rcases cancelTimer_cases s id with heq | ⟨-, heq⟩
  · rw [heq]
    exact h
  rw [heq]
  refine ⟨h.pending.mono fun p => ?_, h.adding, fun k e he hc => ?_, h.extracted, h.chain, h.handed⟩
  · cases p with
    | bucket k =>
      simp only [State.pendingAt, State.entriesAt, reduceCtorEq, if_false]
      exact filterMap_pendingNode_mark id _
    | _ => exact List.Sublist.refl _
  · obtain ⟨e₀, he₀, rfl⟩ := List.mem_map.mp he
    obtain ⟨hne, heq₀⟩ := mark_of_live hc
    rw [heq₀] at hc ⊢
    simp only [Function.update_of_ne hne]
    exact h.mapped k e₀ he₀ hc

section Run

variable [DecidableEq Node]

/-- A timer is added with a node that no pending timer has. -/
def FreshNode (s : State Node) : Label Node → Prop
  | .addTimer _ _ target => ∀ node ∈ target.node?, ¬ Within s.pendingAt node
  | _ => True

omit [DecidableEq Node] in
theorem Recorded.init (startTime : ℤ) : Recorded (init Node startTime) := by
  have hnil : ∀ p, (TimerKeeper.init Node startTime).entriesAt p = [] := fun p => by
    cases p <;> rfl
  have hids : (TimerKeeper.init Node startTime).idsAt = fun _ => [] := by
    funext p
    rw [State.idsAt, hnil p, List.map_nil]
  refine ⟨hids ▸ Separate.nil, fun e he => ?_, ?_, fun e he => ?_, Nat.one_pos⟩
  · exact absurd he List.not_mem_nil
  · rintro e ⟨p, he⟩
    rw [hnil p] at he
    exact absurd he List.not_mem_nil
  · exact absurd he List.not_mem_nil

omit [DecidableEq Node] in
theorem Linked.init (startTime : ℤ) : Linked (init Node startTime) := by
  have hnil : (TimerKeeper.init Node startTime).pendingAt = fun _ => [] := by
    funext p
    cases p <;> rfl
  refine ⟨hnil ▸ Separate.nil, fun x hx => ?_, fun k e he => ?_, fun x hx => ?_, rfl, rfl⟩
  · exact absurd hx List.not_mem_nil
  · exact absurd he List.not_mem_nil
  · exact absurd hx List.not_mem_nil

/-- Every timer stays in exactly one place, whatever nodes are added. -/
theorem recorded_step {s s' : State Node} {l : Label Node} (hr : Recorded s)
    (hs : step s l = some s') : Recorded s' := by
  cases l with
  | addTimer now delay target =>
    rw [step] at hs
    split at hs
    · cases hs
      rcases addTimer_cases s now delay target with heq | ⟨node, owns, -, heq⟩
      · rw [heq]
        exact hr
      · rw [heq]
        exact hr.addInternal now delay node owns
    · cases hs
  | insert k =>
    obtain ⟨entry, slot, -, hmoved, -⟩ := insert_moved hs
    exact hr.moved hmoved
  | cancelTimer id =>
    cases hs
    exact hr.cancelTimer id
  | pass now =>
    rw [step] at hs
    split at hs
    · cases hs
      exact hr.pass now
    · cases hs
  | dispatch => exact hr.moved (dispatch_moved hs)
  | relink node v =>
    rw [step] at hs
    split at hs
    · cases hs
    · cases hs
      exact ⟨hr.ids, hr.placed, hr.origin, hr.added, hr.nextId⟩

theorem linked_step {s s' : State Node} {l : Label Node} (hr : Recorded s) (h : Linked s)
    (hfresh : FreshNode s l) (hs : step s l = some s') : Linked s' := by
  cases l with
  | addTimer now delay target =>
    rw [step] at hs
    split at hs
    · cases hs
      rcases addTimer_cases s now delay target with heq | ⟨node, owns, hn, heq⟩
      · rw [heq]
        exact h
      · rw [heq]
        exact h.addInternal now delay node owns (hfresh node hn)
    · cases hs
  | insert k => exact h.insert hs
  | cancelTimer id =>
    cases hs
    exact h.cancelTimer id
  | pass now =>
    rw [step] at hs
    split at hs
    · cases hs
      exact h.pass hr now
    · cases hs
  | dispatch => exact h.dispatch hs
  | relink node v =>
    rw [step] at hs
    split at hs
    · cases hs
    next hout =>
      cases hs
      exact ⟨h.pending, h.adding, h.mapped, h.extracted, h.chain.update_of_notMem hout v,
        h.handed⟩

/-- In every run that adds no node twice at a time, every timer is in exactly one
place and the links fit. -/
theorem run_recorded_linked {startTime : ℤ} {ls : List (Label Node)} {s : State Node}
    (hfresh : StepSystem.Meets step FreshNode (init Node startTime) ls)
    (hrun : StepSystem.run step (init Node startTime) ls = some s) : Recorded s ∧ Linked s :=
  StepSystem.run_invariant_of_meets (I := fun s => Recorded s ∧ Linked s)
    (fun _ _ _ h hC hs => ⟨recorded_step h.1 hs, linked_step h.1 h.2 hC hs⟩)
    ⟨Recorded.init startTime, Linked.init startTime⟩ hfresh hrun

end Run

end TimerKeeper
