/-
What the overflow path of `WorkStealingExecutor::schedule` leaves.

* `At` — what holds at each point of the call, and `Inv.step` — every access keeps it;
* `Inv.returns` — the call ends when it is alone;
* `overflow` — **what the call leaves** when `Push` finds the queue full, without thieves and
  when it loses its compare-exchange;
* `scheduleStep_overflow` — the executor's model, where the queue is a list, does the same.
-/
import AntServer.OverflowSteps

namespace Overflow

open SpmcQueue (Capacity ThiefPc numToTake numToTake_pos numToTake_le span mem_span nodup_span)

variable {Task ι : Type*}

/-! ### What holds at each point of the call -/

section Invariant

variable [DecidableEq Task] (c : Capacity) (task : Task) (lifo : Task) (g : List Task)
  (q₀ : SpmcQueue.State Task ι)

/-- The call has claimed the positions from `t` on, with the tasks `own`. -/
structure Owns (q : SpmcQueue.State Task ι) (t : ℤ) (own : List Task) : Prop where
  kept : ∃ rs bs, Kept c q₀ q rs bs (span t own.length)
  tasks : own.map some = (span t own.length).map (value c q₀)

/-- Besides, the global queue is as before. -/
structure Held (s : State Task ι) (t : ℤ) (own : List Task) : Prop extends
    Owns c q₀ s.queue t own where
  global : s.globalQueue.Lists s.next g

/-- The batch was claimed by a compare-exchange on `top_` from `t`. -/
structure Took (q : SpmcQueue.State Task ι) (t : ℤ) (n : ℕ) : Prop where
  start : q₀.top ≤ t
  count : n = numToTake (q₀.bottom - t)
  past : t + n ≤ q.top

/-- What holds at each point of the call. -/
def At (s : State Task ι) : Pc Task → Prop
  | .entry | .push => s.full = false ∧ Held c g q₀ s q₀.top []
  | .pushWrite _ | .pushStore _ => s.full = false
  | .takeHalf => s.full = true ∧ Held c g q₀ s q₀.top []
  | .takeCas t n =>
    s.full = true ∧ Held c g q₀ s q₀.top [] ∧ q₀.top ≤ t ∧ t ≤ s.queue.top ∧ t < q₀.bottom ∧
      n = numToTake (q₀.bottom - t)
  | .copy t n i batch =>
    s.full = true ∧ ∃ own, Held c g q₀ s t own ∧ own.length = n ∧ 0 < n ∧ Took q₀ s.queue t n ∧
      i ≤ n ∧ ∀ k < i, batch k = own[k]?
  | .link n i batch =>
    s.full = true ∧ ∃ t own, Held c g q₀ s t own ∧ own.length = n ∧ Took q₀ s.queue t n ∧ i < n ∧
      (∀ k < n, batch k = own[k]?) ∧ Segment s.next own.head? (own.take i) own[i]?
  | .pushBatch batch =>
    s.full = true ∧ ∃ t own, Held c g q₀ s t own ∧ own ≠ [] ∧ Took q₀ s.queue t own.length ∧
      batch 0 = own.head? ∧ Chain s.next own.head? (own ++ [task])
  | .pushOne => s.full = true ∧ Held c g q₀ s q₀.top [] ∧ q₀.top < s.queue.top
  | .done =>
    s.full = true → ∃ t own, Owns c q₀ s.queue t own ∧
      (own ≠ [] → s.lost = false ∧ Took q₀ s.queue t own.length) ∧
      (own = [] → q₀.top < s.queue.top) ∧
      s.globalQueue.Lists s.next (g ++ (own ++ [task]))

structure Inv (s : State Task ι) : Prop where
  lifoSlot : s.lifoSlot = some lifo
  lost : s.lost = true → s.full = true ∧ (s.pc = .pushOne ∨ s.pc = .done)
  here : At c task g q₀ s s.pc

end Invariant

section Preserved

variable [DecidableEq Task] {c : Capacity} {task lifo : Task} {xs g : List Task}
  {q₀ q q' : SpmcQueue.State Task ι} {s s' : State Task ι} {t : ℤ} {n : ℕ} {own : List Task}

omit [DecidableEq Task] in
/-- The tasks of the full queue, by position. -/
theorem value_of_contents (hq : q₀.ring.contents c = xs.map some) {p : ℤ} (hp : q₀.top ≤ p)
    (hp' : p < q₀.bottom) : ∃ k, ∃ hk : k < xs.length, p = q₀.top + k ∧
      value c q₀ p = some xs[k] := by
  obtain ⟨k, rfl⟩ := Int.le.dest hp
  have hlt : k < (q₀.bottom - q₀.top).toNat := by omega
  have hlen : xs.length = (q₀.bottom - q₀.top).toNat := by
    have := congrArg List.length hq
    rw [SpmcQueue.Ring.length_contents, List.length_map] at this
    exact this.symm
  have hk : k < xs.length := hlen ▸ hlt
  have hget := SpmcQueue.Ring.getElem?_contents (c := c) (q := q₀.ring) hlt
  rw [hq, List.getElem?_map, List.getElem?_eq_getElem hk, Option.map_some] at hget
  exact ⟨k, hk, rfl, (Option.some.inj hget).symm⟩

omit [DecidableEq Task] in
theorem value_injective (hq : q₀.ring.contents c = xs.map some) (hxs : xs.Nodup) {p p' : ℤ}
    (hp : q₀.top ≤ p ∧ p < q₀.bottom) (hp' : q₀.top ≤ p' ∧ p' < q₀.bottom)
    (h : value c q₀ p = value c q₀ p') : p = p' := by
  obtain ⟨k, hk, rfl, hval⟩ := value_of_contents hq hp.1 hp.2
  obtain ⟨k', hk', rfl, hval'⟩ := value_of_contents hq hp'.1 hp'.2
  rw [hval, hval', Option.some_inj] at h
  rw [(List.Nodup.getElem_inj_iff hxs).mp h]

omit [DecidableEq Task] in
/-- The tasks of some positions in a row. -/
theorem map_value_span (hq : q₀.ring.contents c = xs.map some) (ht : q₀.top ≤ t)
    (hn : t + n ≤ q₀.bottom) :
    (span t n).map (value c q₀) = ((xs.drop (t - q₀.top).toNat).take n).map some := by
  have hlen : (q₀.bottom - q₀.top).toNat =
      (t - q₀.top).toNat + (n + (q₀.bottom - (t + n)).toNat) := by omega
  have hstart : q₀.top + (t - q₀.top).toNat = t := by omega
  rw [List.map_take, List.map_drop, ← hq, contents_eq_map_span, hlen, span_append, hstart,
    span_append, List.map_append, List.map_append,
    List.drop_left' (by rw [List.length_map, length_span]),
    List.take_left' (by rw [List.length_map, length_span])]

omit [DecidableEq Task] in
/-- What is left in the queue is the end of what was there. -/
theorem Kept.contents_eq {rs bs os : List ℤ} (h : Kept c q₀ q rs bs os)
    (hq : q₀.ring.contents c = xs.map some) (hle : q₀.top ≤ q₀.bottom) :
    q.ring.contents c = (xs.drop (q.top - q₀.top).toNat).map some := by
  have hbottom := h.bottom
  have htop := h.top_le
  have hstart := h.le_top hle
  have hlen : xs.length = (q₀.bottom - q₀.top).toNat := by
    have hmap := congrArg List.length hq
    rw [contents_eq_map_span, List.length_map, length_span, List.length_map] at hmap
    exact hmap.symm
  have hspan := map_value_span hq hstart (n := (q₀.bottom - q.top).toNat) (by omega)
  rw [contents_eq_map_span, h.value_eq, hbottom, hspan, List.take_of_length_le]
  rw [List.length_drop]
  omega

omit [DecidableEq Task] in
/-- A task of the batch is one of the full queue, and no thief has it. -/
theorem Owns.mem (h : Owns c q₀ q t own) (hq : q₀.ring.contents c = xs.map some) {x : Task}
    (hx : x ∈ own) : x ∈ xs ∧ ∃ p, p ∈ span t own.length ∧ value c q₀ p = some x := by
  obtain ⟨rs, bs, hkept⟩ := h.kept
  have hmem : some x ∈ (span t own.length).map (value c q₀) :=
    h.tasks ▸ List.mem_map_of_mem hx
  obtain ⟨p, hp, hval⟩ := List.mem_map.mp hmem
  obtain ⟨hlo, hhi⟩ := (hkept.within p).mp ⟨.global, hp⟩
  obtain ⟨k, hk, -, hval'⟩ := value_of_contents hq hlo hhi
  obtain rfl : xs[k] = x := Option.some.inj (hval'.symm.trans hval)
  exact ⟨List.getElem_mem hk, p, hp, hval⟩

omit [DecidableEq Task] in
theorem Owns.nodup (h : Owns c q₀ q t own) (hq : q₀.ring.contents c = xs.map some)
    (hxs : xs.Nodup) : own.Nodup := by
  obtain ⟨rs, bs, hkept⟩ := h.kept
  refine List.Nodup.of_map some ?_
  rw [h.tasks]
  refine (nodup_span t own.length).map_on fun p hp p' hp' heq => ?_
  exact value_injective hq hxs ((hkept.within p).mp ⟨.global, hp⟩)
    ((hkept.within p').mp ⟨.global, hp'⟩) heq

/-! #### Thieves -/

omit [DecidableEq Task] in
/-- What a thief has been handed was stored for a position that it has claimed. -/
theorem Kept.of_inHand {rs bs os : List ℤ} (h : Kept c q₀ q rs bs os) {p : Place ι}
    {v : Option Task} (hv : v ∈ inHand q p) : p ≠ .global ∧ ∃ a ∈ held q rs bs os p, value c q₀ a = v := by
  cases p with
  | returned =>
    rw [Overflow.inHand, h.returned] at hv
    obtain ⟨a, ha, rfl⟩ := List.mem_map.mp hv
    exact ⟨by simp, a, ha, rfl⟩
  | batches =>
    rw [Overflow.inHand, h.batches] at hv
    obtain ⟨a, ha, rfl⟩ := List.mem_map.mp hv
    exact ⟨by simp, a, ha, rfl⟩
  | thief i =>
    have hready := h.ready i
    rw [Overflow.inHand] at hv
    refine ⟨by simp, ?_⟩
    show ∃ a ∈ (q.thief i).claim, value c q₀ a = v
    cases hpc : q.thief i with
    | takeCopy t n out =>
      rw [hpc] at hready
      obtain ⟨hlt, hout⟩ := hready
      simp only [hpc] at hv
      rw [hout, h.value_eq] at hv
      obtain ⟨a, ha, rfl⟩ := List.mem_map.mp hv
      refine ⟨a, ?_, rfl⟩
      have := mem_span.mp ha
      exact mem_span.mpr ⟨this.1, by omega⟩
    | idle | stealTop _ | stealBottom _ | stealRead _ _ | takeBottom _ | takeTop _ _ =>
      simp only [hpc, List.not_mem_nil] at hv
  | queue | global => cases hv

omit [DecidableEq Task] in
/-- A task in the hands of a thief is not in the batch. -/
theorem Owns.of_inHand (h : Owns c q₀ q t own) (hq : q₀.ring.contents c = xs.map some)
    (hxs : xs.Nodup) {p : Place ι} {node : Task} (hnode : some node ∈ Overflow.inHand q p) :
    node ∈ xs ∧ node ∉ own := by
  obtain ⟨rs, bs, hkept⟩ := h.kept
  obtain ⟨hp, a, ha, hval⟩ := hkept.of_inHand hnode
  have hrange := (hkept.within a).mp ⟨p, ha⟩
  obtain ⟨k, hk, -, hval'⟩ := value_of_contents hq hrange.1 hrange.2
  obtain rfl : xs[k] = node := Option.some.inj (hval'.symm.trans hval)
  refine ⟨List.getElem_mem hk, fun hown => ?_⟩
  obtain ⟨-, b, hb, hval''⟩ := h.mem hq hown
  obtain rfl := value_injective hq hxs hrange ((hkept.within b).mp ⟨.global, hb⟩)
    (hval.trans hval''.symm)
  exact hkept.separate.disjoint p .global hp a ha hb

omit [DecidableEq Task] in
theorem Owns.thief [DecidableEq ι] (h : Owns c q₀ q t own) {l : SpmcQueue.Label Task ι}
    (hl : byThief l = true) (hs : SpmcQueue.step c q l = some q') :
    Owns c q₀ q' t own ∧ q.top ≤ q'.top := by
  obtain ⟨rs, bs, hkept⟩ := h.kept
  obtain ⟨rs', bs', hkept', htop⟩ := hkept.thief hl hs
  exact ⟨⟨⟨rs', bs', hkept'⟩, h.tasks⟩, htop⟩

omit [DecidableEq Task] in
theorem At.thief [DecidableEq ι] {pc : Pc Task} (h : At c task g q₀ s pc)
    {l : SpmcQueue.Label Task ι} (hl : byThief l = true)
    (hs : SpmcQueue.step c s.queue l = some q') :
    At c task g q₀ { s with queue := q' } pc := by
  have hheld : ∀ {t own}, Held c g q₀ s t own →
      Held c g q₀ { s with queue := q' } t own ∧ s.queue.top ≤ q'.top := by
    intro t own hheld
    obtain ⟨howns, htop⟩ := hheld.toOwns.thief hl hs
    exact ⟨⟨howns, hheld.global⟩, htop⟩
  have htook : ∀ {t n}, s.queue.top ≤ q'.top → Took q₀ s.queue t n → Took q₀ q' t n := by
    intro t n htop htook
    exact ⟨htook.start, htook.count, htook.past.trans htop⟩
  cases pc with
  | entry | push | takeHalf => exact ⟨h.1, (hheld h.2).1⟩
  | pushWrite b | pushStore b => exact h
  | takeCas t n =>
    obtain ⟨hfull, h, ht, hle, hrest⟩ := h
    exact ⟨hfull, (hheld h).1, ht, hle.trans (hheld h).2, hrest⟩
  | copy t n i batch =>
    obtain ⟨hfull, own, h, hlen, hpos, htake, hrest⟩ := h
    exact ⟨hfull, own, (hheld h).1, hlen, hpos, htook (hheld h).2 htake, hrest⟩
  | link n i batch =>
    obtain ⟨hfull, t, own, h, hlen, htake, hrest⟩ := h
    exact ⟨hfull, t, own, (hheld h).1, hlen, htook (hheld h).2 htake, hrest⟩
  | pushBatch batch =>
    obtain ⟨hfull, t, own, h, hne, htake, hrest⟩ := h
    exact ⟨hfull, t, own, (hheld h).1, hne, htook (hheld h).2 htake, hrest⟩
  | pushOne =>
    obtain ⟨hfull, h, hlt⟩ := h
    exact ⟨hfull, (hheld h).1, hlt.trans_le (hheld h).2⟩
  | done =>
    intro hfull
    obtain ⟨t, own, howns, htake, hlt, hlists⟩ := h hfull
    obtain ⟨howns', htop⟩ := howns.thief hl hs
    exact ⟨t, own, howns', fun hne => ⟨(htake hne).1, htook htop (htake hne).2⟩,
      fun hnil => (hlt hnil).trans_le htop, hlists⟩

/-- The links of the tasks that the thieves have are not the call's. -/
theorem At.relink {pc : Pc Task} (hq : q₀.ring.contents c = xs.map some)
    (hnd : (xs ++ (g ++ [task])).Nodup) (h : At c task g q₀ s pc) {p : Place ι} {node : Task}
    (hnode : some node ∈ inHand s.queue p) (v : Option Task) :
    At c task g q₀ { s with next := Function.update s.next node v } pc := by
  obtain ⟨hxs, -, hdis⟩ := List.nodup_append.mp hnd
  have hother : ∀ {t own}, Owns c q₀ s.queue t own → ∀ x ∈ g ++ (own ++ [task]),
      Function.update s.next node v x = s.next x := by
    intro t own howns x hx
    refine Function.update_of_ne ?_ _ _
    rintro rfl
    obtain ⟨hmem, hown⟩ := howns.of_inHand hq hxs hnode
    rcases List.mem_append.mp hx with hx | hx
    · exact hdis x hmem x (List.mem_append_left _ hx) rfl
    · rcases List.mem_append.mp hx with hx | hx
      · exact hown hx
      · exact hdis x hmem x (List.mem_append_right _ hx) rfl
  have hheld : ∀ {t own}, Held c g q₀ s t own →
      Held c g q₀ { s with next := Function.update s.next node v } t own := fun hheld =>
    ⟨hheld.toOwns, hheld.global.frame fun x hx =>
      hother hheld.toOwns x (List.mem_append_left _ hx)⟩
  cases pc with
  | entry | push | takeHalf => exact ⟨h.1, hheld h.2⟩
  | pushWrite b | pushStore b => exact h
  | takeCas t n => exact ⟨h.1, hheld h.2.1, h.2.2⟩
  | pushOne => exact ⟨h.1, hheld h.2.1, h.2.2⟩
  | copy t n i batch =>
    obtain ⟨hfull, own, h, hrest⟩ := h
    exact ⟨hfull, own, hheld h, hrest⟩
  | link n i batch =>
    obtain ⟨hfull, t, own, h, hlen, htake, hi, hbatch, hseg⟩ := h
    refine ⟨hfull, t, own, hheld h, hlen, htake, hi, hbatch, hseg.frame fun x hx => ?_⟩
    exact hother h.toOwns x
      (List.mem_append_right _ (List.mem_append_left _ (List.mem_of_mem_take hx)))
  | pushBatch batch =>
    obtain ⟨hfull, t, own, h, hne, htake, hfirst, hchain⟩ := h
    refine ⟨hfull, t, own, hheld h, hne, htake, hfirst, hchain.frame fun x hx => ?_⟩
    exact hother h.toOwns x (List.mem_append_right _ hx)
  | done =>
    intro hfull
    obtain ⟨t, own, howns, htake, hlt, hlists⟩ := h hfull
    exact ⟨t, own, howns, htake, hlt, hlists.frame (hother howns)⟩

/-! #### The call -/

omit [DecidableEq Task] in
/-- The batch is taken. -/
theorem Held.claim (hq : q₀.ring.contents c = xs.map some) (h : Held c g q₀ s q₀.top [])
    (hstart : q₀.top ≤ s.queue.top) (hn : s.queue.top + n ≤ s.queue.bottom) (pc : Pc Task) :
    ∃ own, own.length = n ∧
      Held c g q₀ { s with queue := { s.queue with top := s.queue.top + n }, pc := pc }
        s.queue.top own := by
  obtain ⟨rs, bs, hkept⟩ := h.kept
  have hclaim := hkept.claim hn
  have hspan := map_value_span hq hstart (hkept.bottom ▸ hn)
  have hlen : ((xs.drop (s.queue.top - q₀.top).toNat).take n).length = n := by
    have := congrArg List.length hspan
    rw [List.length_map, List.length_map, length_span] at this
    exact this.symm
  exact ⟨_, hlen, ⟨⟨rs, bs, by rw [hlen]; exact hclaim⟩, by rw [hlen, hspan]⟩, h.global⟩

omit [DecidableEq Task] in
/-- One round of the copying loop. -/
theorem copy_round {i : ℕ} {batch : ℕ → Option Task} {v : Option Task}
    (hv : v = own[i]?) (hbatch : ∀ k < i, batch k = own[k]?) :
    ∀ k < i + 1, Function.update batch i v k = own[k]? := by
  intro k hk
  by_cases hki : k = i
  · subst hki
    rw [Function.update_self, hv]
  · rw [Function.update_of_ne hki]
    exact hbatch k (by omega)

/-- One round of the linking loop. -/
theorem link_round {next : Task → Option Task} {i : ℕ} (hnd : own.Nodup) (hi : i < own.length)
    (hseg : Segment next own.head? (own.take i) own[i]?) (v : Option Task) :
    Segment (Function.update next (own.get ⟨i, hi⟩) v) own.head? (own.take (i + 1)) v := by
  have hget : own[i]? = some (own.get ⟨i, hi⟩) := List.getElem?_eq_getElem hi
  have hnot : own.get ⟨i, hi⟩ ∉ own.take i := by
    intro hmem
    obtain ⟨k, hk, heq⟩ := List.mem_take_iff_getElem.mp hmem
    have := (List.Nodup.getElem_inj_iff hnd).mp heq
    omega
  rw [List.take_add_one, hget, Option.toList_some]
  refine Segment.append (hseg.frame fun x hx => ?_) ⟨hget, Function.update_self ..⟩
  exact Function.update_of_ne (ne_of_mem_of_not_mem hx hnot) _ _

omit [DecidableEq Task] in
/-- The tasks of the batch are neither in the global queue nor the scheduled one. -/
theorem Owns.disjoint (hq : q₀.ring.contents c = xs.map some)
    (hnd : (xs ++ (g ++ [task])).Nodup) (h : Owns c q₀ q t own) :
    own.Nodup ∧ ∀ x ∈ own, x ∉ g ++ [task] := by
  obtain ⟨hxs, -, hdis⟩ := List.nodup_append.mp hnd
  exact ⟨h.nodup hq hxs, fun x hx hx' => hdis x (h.mem hq hx).1 x hx' rfl⟩

omit [DecidableEq Task] in
/-- The slot that the call copies next. -/
theorem Owns.getElem? (h : Owns c q₀ q t own) {k : ℕ} (hk : k < own.length) :
    q.buffer (c.slot (t + k)) = own[k]? := by
  obtain ⟨rs, bs, hkept⟩ := h.kept
  have hget := congrArg (·[k]?) h.tasks
  simp only [span, List.map_map, List.getElem?_map, List.getElem?_range hk,
    List.getElem?_eq_getElem hk, Option.map_some, Option.some_inj] at hget
  rw [hkept.buffer, List.getElem?_eq_getElem hk, hget]
  rfl

theorem At.link (hq : q₀.ring.contents c = xs.map some) (hnd : (xs ++ (g ++ [task])).Nodup)
    {i : ℕ} {batch : ℕ → Option Task} (h : At c task g q₀ s (.link n i batch)) (hi : i < n - 1) :
    ∃ node, batch i = some node ∧
      At c task g q₀ { s with
        next := Function.update s.next node (batch (i + 1)), pc := .link n (i + 1) batch }
        (.link n (i + 1) batch) := by
  obtain ⟨hfull, t, own, hheld, rfl, htook, hin, hbatch, hseg⟩ := h
  obtain ⟨hown, hdis⟩ := hheld.disjoint hq hnd
  refine ⟨own.get ⟨i, hin⟩, (hbatch i hin).trans (List.getElem?_eq_getElem hin), hfull, t, own,
    ⟨hheld.toOwns, hheld.global.frame fun x hx => Function.update_of_ne ?_ _ _⟩, rfl, htook,
    by omega, hbatch, ?_⟩
  · rintro rfl
    exact hdis _ (List.get_mem ..) (List.mem_append_left _ hx)
  · have := link_round hown hin hseg (batch (i + 1))
    rw [hbatch (i + 1) (by omega)] at this ⊢
    exact this

theorem At.linkLast (hq : q₀.ring.contents c = xs.map some) (hnd : (xs ++ (g ++ [task])).Nodup)
    {i : ℕ} {batch : ℕ → Option Task} (h : At c task g q₀ s (.link n i batch))
    (hi : ¬ i < n - 1) :
    ∃ node, batch (n - 1) = some node ∧
      At c task g q₀ { s with
        next := Function.update (Function.update s.next node (some task)) task none
        pc := .pushBatch batch } (.pushBatch batch) := by
  obtain ⟨hfull, t, own, hheld, rfl, htook, hin, hbatch, hseg⟩ := h
  obtain ⟨hown, hdis⟩ := hheld.disjoint hq hnd
  obtain rfl : i = own.length - 1 := by omega
  have hne : own ≠ [] := List.length_pos_iff.mp (by omega)
  have htask : task ∉ own := fun hmem => hdis task hmem (by simp)
  have htask' : task ∉ g := fun hmem =>
    (List.nodup_append.mp (List.nodup_append.mp hnd).2.1).2.2 task hmem task (by simp) rfl
  refine ⟨own.get ⟨own.length - 1, hin⟩,
    (hbatch _ hin).trans (List.getElem?_eq_getElem hin), hfull, t, own,
    ⟨hheld.toOwns, hheld.global.frame fun x hx => ?_⟩, hne, htook, ?_, ?_⟩
  · have hxt : x ≠ task := ne_of_mem_of_not_mem hx htask'
    refine (Function.update_of_ne hxt _ _).trans (Function.update_of_ne ?_ _ _)
    rintro rfl
    exact hdis _ (List.get_mem ..) (List.mem_append_left _ hx)
  · rw [List.head?_eq_getElem?]
    exact hbatch 0 (by omega)
  · have hall := link_round hown hin hseg (some task)
    have htake : own.take (own.length - 1 + 1) = own := List.take_of_length_le (by omega)
    rw [htake] at hall
    refine Segment.append (hall.frame fun x hx => ?_) ⟨rfl, Function.update_self ..⟩
    exact Function.update_of_ne (ne_of_mem_of_not_mem hx htask) _ _

/-- The linked batch, with `task` at its end, goes behind the global queue. -/
theorem Held.pushBatch (h : Held c g q₀ s t own) (hq : q₀.ring.contents c = xs.map some)
    (hnd : (xs ++ (g ++ [task])).Nodup) {first : Task} (hfirst : own.head? = some first)
    (hchain : Chain s.next own.head? (own ++ [task])) :
    IntrusiveSpinLockQueue.Lists (s.globalQueue.pushBatch s.next first task).1
      (s.globalQueue.pushBatch s.next first task).2 (g ++ (own ++ [task])) := by
  obtain ⟨-, hdis⟩ := h.disjoint hq hnd
  rw [hfirst] at hchain
  refine h.global.pushBatch hchain hchain.nodup fun x hx hx' => ?_
  rcases List.mem_append.mp hx' with hx' | hx'
  · exact hdis x hx' (List.mem_append_left _ hx)
  · have hg := List.nodup_append.mp (List.nodup_append.mp hnd).2.1
    exact hg.2.2 x hx x hx' rfl

/-- **Step lemma** for the call. -/
theorem Inv.ownStep (hq : q₀.ring.contents c = xs.map some) (hnonempty : q₀.top < q₀.bottom)
    (hnd : (xs ++ (g ++ [task])).Nodup) (h : Inv c task lifo g q₀ s)
    (hs : Overflow.ownStep c task s = some s') : Inv c task lifo g q₀ s' := by
  obtain ⟨hlifo, hlost, hhere⟩ := h
  have hlive : ∀ {pc : Pc Task}, s.pc = pc → pc ≠ .pushOne → pc ≠ .done → s.lost ≠ true := by
    intro pc hpc h₁ h₂ hl
    rcases (hlost hl).2 with hpc' | hpc'
    · exact h₁ (hpc.symm.trans hpc')
    · exact h₂ (hpc.symm.trans hpc')
  unfold Overflow.ownStep at hs
  cases hpc : s.pc with
  | entry =>
    have hl := hlive hpc (by simp) (by simp)
    simp only [hpc, hlifo, Option.some.injEq] at hs hhere
    subst hs
    exact ⟨rfl, fun h => absurd h hl, hhere.1, hhere.2.toOwns, hhere.2.global⟩
  | push =>
    have hl := hlive hpc (by simp) (by simp)
    simp only [hpc] at hs hhere
    split at hs
    next =>
      cases hs
      exact ⟨hlifo, fun h => absurd h hl, hhere.1⟩
    next =>
      cases hs
      exact ⟨hlifo, fun h => absurd h hl, rfl, hhere.2.toOwns, hhere.2.global⟩
  | pushWrite b =>
    have hl := hlive hpc (by simp) (by simp)
    simp only [hpc, Option.some.injEq] at hs hhere
    subst hs
    exact ⟨hlifo, fun h => absurd h hl, hhere⟩
  | pushStore b =>
    have hl := hlive hpc (by simp) (by simp)
    simp only [hpc, Option.some.injEq] at hs hhere
    subst hs
    have hfull : s.full = false := hhere
    exact ⟨hlifo, fun h => absurd h hl, fun h => absurd (hfull.symm.trans h) (by simp)⟩
  | takeHalf =>
    have hl := hlive hpc (by simp) (by simp)
    simp only [hpc] at hs hhere
    obtain ⟨hfull, hheld⟩ := hhere
    obtain ⟨rs, bs, hkept⟩ := hheld.kept
    have hbottom := hkept.bottom
    have htop := hkept.le_top hnonempty.le
    split at hs
    next hle =>
      cases hs
      exact ⟨hlifo, fun h => absurd h hl, hfull, ⟨hheld.toOwns, hheld.global⟩,
        by show q₀.top < s.queue.top; omega⟩
    next hlt =>
      cases hs
      exact ⟨hlifo, fun h => absurd h hl, hfull, ⟨hheld.toOwns, hheld.global⟩, htop, le_rfl,
        by omega, by rw [hbottom]⟩
  | takeCas t n =>
    have hl := hlive hpc (by simp) (by simp)
    simp only [hpc] at hs hhere
    obtain ⟨hfull, hheld, ht, hle, hlt, hn⟩ := hhere
    obtain ⟨rs, bs, hkept⟩ := hheld.kept
    have hpos : 0 < q₀.bottom - t := by omega
    have hcount := numToTake_le hpos
    split at hs
    next htop =>
      subst htop
      cases hs
      have hroom : s.queue.top + n ≤ s.queue.bottom := by
        rw [hkept.bottom]
        omega
      obtain ⟨own, hlen, hheld'⟩ :=
        hheld.claim hq ht hroom (.copy s.queue.top n 0 fun _ => none)
      exact ⟨hlifo, fun h => absurd h hl, hfull, own, hheld', hlen, hn ▸ numToTake_pos hpos,
        ⟨ht, hn, le_rfl⟩, Nat.zero_le n, fun k hk => absurd hk (Nat.not_lt_zero k)⟩
    next htop =>
      cases hs
      exact ⟨hlifo, fun _ => ⟨hfull, Or.inl rfl⟩, hfull, ⟨hheld.toOwns, hheld.global⟩,
        ht.trans_lt (lt_of_le_of_ne hle (Ne.symm htop))⟩
  | copy t n i batch =>
    have hl := hlive hpc (by simp) (by simp)
    simp only [hpc] at hs hhere
    obtain ⟨hfull, own, hheld, hlen, hpos, htook, hi, hbatch⟩ := hhere
    split at hs
    next hin =>
      cases hs
      have hslot := hheld.toOwns.getElem? (hlen.symm ▸ hin)
      exact ⟨hlifo, fun h => absurd h hl, hfull, own, ⟨hheld.toOwns, hheld.global⟩, hlen, hpos,
        htook, hin, copy_round hslot hbatch⟩
    next hin =>
      obtain rfl : i = n := by omega
      cases hs
      refine ⟨hlifo, fun h => absurd h hl, hfull, t, own, ⟨hheld.toOwns, hheld.global⟩, hlen,
        htook, hpos, hbatch, ?_⟩
      rw [List.take_zero, ← List.head?_eq_getElem?]
      rfl
  | link n i batch =>
    have hl := hlive hpc (by simp) (by simp)
    rw [hpc] at hhere
    simp only [hpc] at hs
    split at hs
    next hi =>
      obtain ⟨node, hnode, hat⟩ := hhere.link hq hnd hi
      rw [hnode, Option.map_some, Option.some_inj] at hs
      subst hs
      exact ⟨hlifo, fun h => absurd h hl, hat⟩
    next hi =>
      obtain ⟨node, hnode, hat⟩ := hhere.linkLast hq hnd hi
      rw [hnode, Option.map_some, Option.some_inj] at hs
      subst hs
      exact ⟨hlifo, fun h => absurd h hl, hat⟩
  | pushBatch batch =>
    have hl := hlive hpc (by simp) (by simp)
    simp only [hpc] at hs hhere
    obtain ⟨-, t, own, hheld, hne, htook, hfirst, hchain⟩ := hhere
    obtain ⟨first, tail, rfl⟩ := List.exists_cons_of_ne_nil hne
    rw [hfirst, List.head?_cons] at hs
    cases hs
    exact ⟨hlifo, fun h => absurd h hl, fun _ => ⟨t, _, hheld.toOwns,
      fun _ => ⟨eq_false_of_ne_true hl, htook⟩, fun h => absurd h hne,
      hheld.pushBatch hq hnd rfl hchain⟩⟩
  | pushOne =>
    simp only [hpc, Option.some.injEq] at hs hhere
    subst hs
    obtain ⟨-, hheld, hlt⟩ := hhere
    have hg := List.nodup_append.mp (List.nodup_append.mp hnd).2.1
    refine ⟨hlifo, fun h => ⟨(hlost h).1, Or.inr rfl⟩, fun _ => ⟨q₀.top, [], hheld.toOwns,
      fun h => absurd rfl h, fun _ => hlt, ?_⟩⟩
    exact hheld.global.push fun hmem => hg.2.2 task hmem task (by simp) rfl
  | done => simp only [hpc, reduceCtorEq] at hs

/-- **Step lemma.** -/
theorem Inv.step [DecidableEq ι] (hq : q₀.ring.contents c = xs.map some)
    (hnonempty : q₀.top < q₀.bottom) (hnd : (xs ++ (g ++ [task])).Nodup)
    (h : Inv c task lifo g q₀ s) {l : Label Task ι} (hs : step c task s l = some s') :
    Inv c task lifo g q₀ s' := by
  cases l with
  | own => exact h.ownStep hq hnonempty hnd hs
  | thief l =>
    obtain ⟨hl, hmap⟩ := Option.ite_none_right_eq_some.mp hs
    obtain ⟨q', hq', rfl⟩ := Option.map_eq_some_iff.mp hmap
    exact ⟨h.lifoSlot, h.lost, h.here.thief hl hq'⟩
  | relink p node v =>
    obtain ⟨hmem, heq⟩ := Option.ite_none_right_eq_some.mp hs
    cases heq
    exact ⟨h.lifoSlot, h.lost, h.here.relink hq hnd hmem v⟩

/-! #### The call returns -/

/-- A bound on the accesses that the call still makes. -/
def Pc.remaining (capacity : ℕ) : Pc Task → ℕ
  | .entry => 2 * capacity + 7
  | .push => 2 * capacity + 6
  | .takeHalf => 2 * capacity + 5
  | .takeCas _ n => 2 * n + 4
  | .copy _ n i _ => n - i + (n + 3)
  | .link n i _ => n - i + 2
  | .pushWrite _ => 2
  | .pushStore _ | .pushBatch _ | .pushOne => 1
  | .done => 0

/-- The thieves stand where they stood. -/
structure SameThieves (q q' : SpmcQueue.State Task ι) : Prop where
  thief : q'.thief = q.thief
  returned : q'.returned = q.returned
  batches : q'.batches = q.batches

/-- The call is never stuck, and comes nearer to its end. -/
theorem Inv.progress (hq : q₀.ring.contents c = xs.map some) (hroom : q₀.ring.Good c)
    (hnd : (xs ++ (g ++ [task])).Nodup) (h : Inv c task lifo g q₀ s) (hdone : s.pc ≠ .done) :
    ∃ s', Overflow.ownStep c task s = some s' ∧ (s.full = true → s'.full = true) ∧
      SameThieves s.queue s'.queue ∧ s'.pc.remaining c.kMaxSize < s.pc.remaining c.kMaxSize := by
  have hhere := h.here
  unfold Overflow.ownStep
  cases hpc : s.pc with
  | entry =>
    rw [h.lifoSlot]
    exact ⟨_, rfl, id, ⟨rfl, rfl, rfl⟩, by simp only [Pc.remaining]; omega⟩
  | push =>
    simp only
    split
    · exact ⟨_, rfl, id, ⟨rfl, rfl, rfl⟩, by simp only [Pc.remaining]; omega⟩
    · exact ⟨_, rfl, fun _ => rfl, ⟨rfl, rfl, rfl⟩, by simp only [Pc.remaining]; omega⟩
  | pushWrite b => exact ⟨_, rfl, id, ⟨rfl, rfl, rfl⟩, by simp only [Pc.remaining]; omega⟩
  | pushStore b => exact ⟨_, rfl, id, ⟨rfl, rfl, rfl⟩, by simp only [Pc.remaining]; omega⟩
  | takeHalf =>
    rw [hpc] at hhere
    obtain ⟨rs, bs, hkept⟩ := hhere.2.kept
    have hle := hkept.le_top hroom.le
    have hbottom := hkept.bottom
    have hsize : q₀.bottom - q₀.top ≤ c.kMaxSize := hroom.room
    simp only
    split
    · exact ⟨_, rfl, id, ⟨rfl, rfl, rfl⟩, by simp only [Pc.remaining]; omega⟩
    · have hcount := numToTake_le (by omega : 0 < s.queue.bottom - s.queue.top)
      exact ⟨_, rfl, id, ⟨rfl, rfl, rfl⟩, by simp only [Pc.remaining]; omega⟩
  | takeCas t n =>
    simp only
    split
    · exact ⟨_, rfl, id, ⟨rfl, rfl, rfl⟩, by simp only [Pc.remaining]; omega⟩
    · exact ⟨_, rfl, id, ⟨rfl, rfl, rfl⟩, by simp only [Pc.remaining]; omega⟩
  | copy t n i batch =>
    rw [hpc] at hhere
    obtain ⟨-, own, -, -, hpos, -, hi, -⟩ := hhere
    simp only
    split
    · exact ⟨_, rfl, id, ⟨rfl, rfl, rfl⟩, by simp only [Pc.remaining]; omega⟩
    · exact ⟨_, rfl, id, ⟨rfl, rfl, rfl⟩, by simp only [Pc.remaining]; omega⟩
  | link n i batch =>
    rw [hpc] at hhere
    simp only
    split
    next hi =>
      obtain ⟨node, hnode, -⟩ := hhere.link hq hnd hi
      rw [hnode]
      exact ⟨_, rfl, id, ⟨rfl, rfl, rfl⟩, by simp only [Pc.remaining]; omega⟩
    next hi =>
      obtain ⟨node, hnode, -⟩ := hhere.linkLast hq hnd hi
      rw [hnode]
      exact ⟨_, rfl, id, ⟨rfl, rfl, rfl⟩, by simp only [Pc.remaining]; omega⟩
  | pushBatch batch =>
    simp only
    split
    · exact ⟨_, rfl, id, ⟨rfl, rfl, rfl⟩, by simp only [Pc.remaining]; omega⟩
    · exact ⟨_, rfl, id, ⟨rfl, rfl, rfl⟩, by simp only [Pc.remaining]; omega⟩
  | pushOne => exact ⟨_, rfl, id, ⟨rfl, rfl, rfl⟩, by simp only [Pc.remaining]; omega⟩
  | done => exact absurd hpc hdone

/-- Without thieves the call returns. -/
theorem Inv.returns [DecidableEq ι] (hq : q₀.ring.contents c = xs.map some)
    (hroom : q₀.ring.Good c) (hnonempty : q₀.top < q₀.bottom)
    (hnd : (xs ++ (g ++ [task])).Nodup) (h : Inv c task lifo g q₀ s) (hfull : s.full = true) :
    ∃ k s', StepSystem.run (Overflow.step c task) s (List.replicate k .own) = some s' ∧
      Inv c task lifo g q₀ s' ∧ s'.pc = .done ∧ s'.full = true ∧
      SameThieves s.queue s'.queue := by
  -- by induction on the accesses that remain
  induction hm : s.pc.remaining c.kMaxSize using Nat.strong_induction_on generalizing s with
  | h m ih =>
    by_cases hdone : s.pc = .done
    · exact ⟨0, s, rfl, h, hdone, hfull, rfl, rfl, rfl⟩
    · obtain ⟨s₁, hs₁, hfull₁, hsame₁, hlt⟩ := h.progress hq hroom hnd hdone
      obtain ⟨k, s', hrun, hinv, hpc, hfull', hsame⟩ :=
        ih _ (hm ▸ hlt) (h.ownStep hq hnonempty hnd hs₁) (hfull₁ hfull) rfl
      refine ⟨k + 1, s', ?_, hinv, hpc, hfull', hsame.thief.trans hsame₁.thief,
        hsame.returned.trans hsame₁.returned, hsame.batches.trans hsame₁.batches⟩
      rw [List.replicate_succ]
      exact StepSystem.run_cons.mpr ⟨s₁, hs₁, hrun⟩

end Preserved

/-! ### The result -/

/-- The slots that thief `i` has claimed and not copied yet. -/
def toCopy (c : Capacity) (q : SpmcQueue.State Task ι) (i : ι) : List (Option Task) :=
  match q.thief i with
  | .takeCopy t n out => (span (t + out.length) (n - out.length)).map (value c q)
  | _ => []

/-- The tasks in each place, when the global queue holds `g`. -/
def tasksAt (c : Capacity) (q : SpmcQueue.State Task ι) (g : List Task) :
    Place ι → List (Option Task)
  | .thief i => inHand q (.thief i) ++ toCopy c q i
  | .queue => q.ring.contents c
  | .global => g.map some
  | p => inHand q p

section Result

variable {c : Capacity} {task lifo : Task} {xs g : List Task}
  {q₀ q : SpmcQueue.State Task ι} {t : ℤ} {own : List Task} {s : State Task ι}

/-- What a thief has claimed is what was stored there. -/
theorem Kept.claimed {rs bs os : List ℤ} (h : Kept c q₀ q rs bs os) (i : ι) :
    inHand q (.thief i) ++ toCopy c q i = (q.thief i).claim.map (value c q₀) := by
  have hready := h.ready i
  rw [inHand, toCopy]
  cases hpc : q.thief i with
  | takeCopy t n out =>
    rw [hpc] at hready
    obtain ⟨hlt, hout⟩ := hready
    simp only [ThiefPc.claim, ← h.value_eq]
    have hlen : n = out.length + (n - out.length) := by omega
    conv_rhs => rw [hlen, span_append, List.map_append, ← hout]
  | idle | stealTop _ | stealBottom _ | stealRead _ _ | takeBottom _ | takeTop _ _ => rfl

/-- **Every task is in one place.** -/
theorem Owns.separate (h : Owns c q₀ q t own) (hq : q₀.ring.contents c = xs.map some)
    (hnd : (xs ++ (g ++ [task])).Nodup) :
    Separate (tasksAt c q (g ++ (own ++ [task]))) ∧
      ∀ x, Within (tasksAt c q (g ++ (own ++ [task]))) x ↔
        x ∈ (xs ++ (g ++ [task])).map some := by
  classical
  obtain ⟨rs, bs, hkept⟩ := h.kept
  obtain ⟨hxs, hg, hdis⟩ := List.nodup_append.mp hnd
  -- the positions, seen through what is stored for them
  let V : Place ι → List (Option Task) := fun p =>
    (held q rs bs (span t own.length) p).map (value c q₀)
  have hV : Separate V := hkept.separate.map fun a b ha hb =>
    value_injective hq hxs ((hkept.within a).mp ha) ((hkept.within b).mp hb)
  have hwithin : ∀ x, Within V x ↔ x ∈ xs.map some := by
    intro x
    rw [within_map]
    constructor
    · rintro ⟨a, ha, rfl⟩
      obtain ⟨hlo, hhi⟩ := (hkept.within a).mp ha
      obtain ⟨k, hk, -, hval⟩ := value_of_contents hq hlo hhi
      rw [hval]
      exact List.mem_map_of_mem (List.getElem_mem hk)
    · intro hx
      rw [← hq, contents_eq_map_span] at hx
      obtain ⟨a, ha, rfl⟩ := List.mem_map.mp hx
      have := mem_span.mp ha
      exact ⟨a, (hkept.within a).mpr (by omega), rfl⟩
  have hplaces : tasksAt c q (g ++ (own ++ [task])) =
      Function.update V .global ((g ++ (own ++ [task])).map some) := by
    funext p
    cases p with
    | global => rw [Function.update_self]; rfl
    | returned => rw [Function.update_of_ne (by simp)]; exact hkept.returned
    | batches => rw [Function.update_of_ne (by simp)]; exact hkept.batches
    | thief i => rw [Function.update_of_ne (by simp)]; exact hkept.claimed i
    | queue =>
      rw [Function.update_of_ne (by simp)]
      show q.ring.contents c = _
      rw [contents_eq_map_span, hkept.value_eq]
      rfl
  -- the rest of the global queue comes in
  have htransfer : Transfer Set.univ ((g ++ [task]).map some) [] V
      (tasksAt c q (g ++ (own ++ [task]))) := by
    rw [hplaces]
    refine Transfer.one (Set.mem_univ _) ?_
    have hown : V .global = own.map some := h.tasks.symm
    rw [hown, List.nil_append, ← List.map_append, List.append_assoc]
    exact (List.perm_append_comm.append_left g).map some
  have hnew : ∀ x ∈ (g ++ [task]).map some, ¬ Within V x := by
    intro x hx hx'
    obtain ⟨y, hy, rfl⟩ := List.mem_map.mp hx
    obtain ⟨z, hz, heq⟩ := List.mem_map.mp ((hwithin _).mp hx')
    exact hdis z hz y hy (Option.some.inj heq)
  refine ⟨htransfer.separate hV (hg.map (Option.some_injective _)) hnew, fun x => ?_⟩
  rw [htransfer.within, hwithin, or_comm, ← List.mem_append, ← List.map_append]

/-- The positions, when no thief has any. -/
theorem Owns.untouched (h : Owns c q₀ q t own) (hfresh : Fresh c q₀) (hsame : SameThieves q₀ q)
    (hlt : q₀.top < q₀.bottom) (htook : own ≠ [] → Took q₀ q t own.length)
    (hnil : own = [] → q₀.top < q.top) :
    t = q₀.top ∧ own.length = numToTake (q₀.bottom - q₀.top) ∧
      q.top = q₀.top + own.length := by
  obtain ⟨rs, bs, hkept⟩ := h.kept
  have hrs : rs = [] := by
    have := hkept.returned
    rw [hsame.returned, hfresh.returned] at this
    exact List.map_eq_nil_iff.mp this.symm
  have hbs : bs = [] := by
    have := hkept.batches
    rw [hsame.batches, hfresh.batches] at this
    exact List.map_eq_nil_iff.mp this.symm
  have hplace : ∀ p, q₀.top ≤ p → p < q₀.bottom →
      (t ≤ p ∧ p < t + own.length) ∨ q.top ≤ p := by
    intro p hlo hhi
    obtain ⟨place, hp⟩ := (hkept.within p).mpr ⟨hlo, hhi⟩
    cases place with
    | returned => exact absurd (hrs ▸ hp) List.not_mem_nil
    | batches => exact absurd (hbs ▸ hp) List.not_mem_nil
    | thief i =>
      have hclaim : (q.thief i).claim = [] := by rw [hsame.thief, hfresh.unclaimed]
      have hp' : p ∈ (q.thief i).claim := hp
      rw [hclaim] at hp'
      exact absurd hp' List.not_mem_nil
    | queue => exact Or.inr (mem_span.mp hp).1
    | global => exact Or.inl (mem_span.mp hp)
  by_cases hown : own = []
  · rcases hplace q₀.top le_rfl hlt with hin | hin
    · rw [hown, List.length_nil] at hin
      omega
    · exact absurd (hnil hown) (not_lt.mpr hin)
  · obtain ⟨hstart, hcount, hpast⟩ := htook hown
    have hpos : 0 < own.length := List.length_pos_iff.mpr hown
    have hbottom := hkept.bottom
    have htop := hkept.top_le
    obtain rfl : t = q₀.top := by
      rcases hplace q₀.top le_rfl hlt with hin | hin
      · omega
      · omega
    refine ⟨rfl, hcount, ?_⟩
    by_cases hend : q₀.top + own.length < q₀.bottom
    · rcases hplace (q₀.top + own.length) (by omega) hend with hin | hin
      · omega
      · omega
    · omega

variable [DecidableEq Task] [DecidableEq ι]

omit [DecidableEq Task] [DecidableEq ι] in
theorem inv_start {next : Task → Option Task} {gq : IntrusiveSpinLockQueue Task}
    (hfresh : Fresh c q₀) (hle : q₀.top ≤ q₀.bottom) (hg : gq.Lists next g) :
    Inv c task lifo g q₀ (start q₀ lifo next gq) where
  lifoSlot := rfl
  lost := fun h => by cases h
  here := ⟨rfl, ⟨⟨[], [], hfresh.kept hle⟩, rfl⟩, hg⟩

/-- `Push` finds the queue full. -/
theorem run_push (c : Capacity) (task lifo : Task) (next : Task → Option Task)
    (gq : IntrusiveSpinLockQueue Task) (hfull : q₀.bottom - q₀.top = c.kMaxSize) :
    StepSystem.run (step c task) (start q₀ lifo next gq) [.own, .own] =
      some { start q₀ lifo next gq with full := true, pc := .takeHalf } := by
  have hnot : ¬ q₀.bottom - q₀.top < c.kMaxSize := by omega
  refine StepSystem.run_cons.mpr ⟨{ start q₀ lifo next gq with pc := .push }, rfl, ?_⟩
  exact StepSystem.run_cons.mpr ⟨_, if_neg hnot, rfl⟩

/-- **The overflow path.**  The call meets a full queue with the tasks `xs`, and the global
queue holds `g`.  Without thieves it returns, the newer half stays in the queue and the
global queue is `g`, the older half and `task`.  If its compare-exchange is lost, all it has
done is to append `task` to the global queue.  In both cases, and in every run in which `Push`
finds the queue full, each task is in one place, also while thieves still copy.  (A thief that
moves `top_` before `Push` loads it makes room: the call is then an ordinary `Push`.) -/
theorem overflow (c : Capacity) (heven : Even c.kMaxSize) (task lifo : Task) (xs g : List Task)
    (q : SpmcQueue.State Task ι) (next : Task → Option Task) (gq : IntrusiveSpinLockQueue Task)
    (hgood : q.ring.Good c) (hq : q.ring.contents c = xs.map some)
    (hfull : xs.length = c.kMaxSize) (hfresh : Fresh c q) (hg : gq.Lists next g)
    (hnd : (xs ++ (g ++ [task])).Nodup) :
    (∃ k s, StepSystem.run (step c task) (start q lifo next gq) (List.replicate k .own) = some s ∧
      s.pc = .done ∧ s.full = true ∧ s.lifoSlot = some lifo ∧
      s.queue.ring.contents c = (xs.drop (c.kMaxSize / 2)).map some ∧
      s.globalQueue.Lists s.next (g ++ (xs.take (c.kMaxSize / 2) ++ [task]))) ∧
    (∀ ls s, StepSystem.run (step c task) (start q lifo next gq) ls = some s → s.pc = .done →
      s.lost = true →
        s.full = true ∧ s.lifoSlot = some lifo ∧
        s.queue.buffer = q.buffer ∧ s.queue.bottom = q.bottom ∧
        (∃ rest, rest <:+ xs ∧ s.queue.ring.contents c = rest.map some) ∧
        s.globalQueue.Lists s.next (g ++ [task])) ∧
    ∀ ls s, StepSystem.run (step c task) (start q lifo next gq) ls = some s → s.pc = .done →
      s.full = true →
        ∃ g', s.globalQueue.Lists s.next g' ∧ Separate (tasksAt c s.queue g') ∧
          ∀ x, Within (tasksAt c s.queue g') x ↔ x ∈ (xs ++ (g ++ [task])).map some := by
  have hsize : q.bottom - q.top = c.kMaxSize := by
    have hlen := congrArg List.length hq
    have hle : q.top ≤ q.bottom := hgood.le
    rw [SpmcQueue.Ring.length_contents, List.length_map, hfull] at hlen
    have : (q.bottom - q.top).toNat = c.kMaxSize := hlen
    omega
  have hpos := c.kMaxSize_pos
  have hnonempty : q.top < q.bottom := by omega
  have h₀ : Inv c task lifo g q (start q lifo next gq) := inv_start hfresh hgood.le hg
  have hall : ∀ ls s, StepSystem.run (step c task) (start q lifo next gq) ls = some s →
      Inv c task lifo g q s := fun ls s hrun =>
    StepSystem.run_invariant (fun _ _ _ h hs => h.step hq hnonempty hnd hs) h₀ hrun
  refine ⟨?_, fun ls s hrun hdone hlost => ?_, fun ls s hrun hdone hover => ?_⟩
  · have hpush := run_push c task lifo next gq hsize
    obtain ⟨k, s, hrun, hinv, hdone, hover, hsame⟩ :=
      (hall _ _ hpush).returns hq hgood hnonempty hnd rfl
    have hhere := hinv.here
    rw [hdone] at hhere
    obtain ⟨t, own, howns, htook, hnil, hlists⟩ := hhere hover
    obtain ⟨rfl, hlen, htop⟩ := howns.untouched hfresh ⟨hsame.thief, hsame.returned, hsame.batches⟩
      hnonempty (fun h => (htook h).2) hnil
    obtain ⟨rs, bs, hkept⟩ := howns.kept
    have hhalf : own.length = c.kMaxSize / 2 := by
      obtain ⟨m, hm⟩ := heven
      rw [hlen, hsize, numToTake, if_neg (by omega)]
      omega
    have hown : own = xs.take (c.kMaxSize / 2) := by
      have hspan := map_value_span hq le_rfl (n := own.length) (t := q.top) (by omega)
      rw [← howns.tasks, sub_self, Int.toNat_zero, List.drop_zero, hhalf] at hspan
      exact List.map_injective_iff.mpr (Option.some_injective _) hspan
    refine ⟨2 + k, s, ?_, hdone, hover, hinv.lifoSlot, ?_, hown ▸ hlists⟩
    · rw [List.replicate_add]
      exact StepSystem.run_append.mpr ⟨_, hpush, hrun⟩
    · have hdrop : (q.top + own.length - q.top).toNat = c.kMaxSize / 2 := by omega
      rw [hkept.contents_eq hq hgood.le, htop, hdrop]
  · have hinv := hall ls s hrun
    have hover := (hinv.lost hlost).1
    have hhere := hinv.here
    rw [hdone] at hhere
    obtain ⟨t, own, howns, htook, -, hlists⟩ := hhere hover
    obtain rfl : own = [] := by
      by_contra hne
      exact absurd ((htook hne).1.symm.trans hlost) (by simp)
    obtain ⟨rs, bs, hkept⟩ := howns.kept
    exact ⟨hover, hinv.lifoSlot, hkept.buffer, hkept.bottom,
      ⟨_, List.drop_suffix _ _, hkept.contents_eq hq hgood.le⟩, hlists⟩
  · have hhere := (hall ls s hrun).here
    rw [hdone] at hhere
    obtain ⟨t, own, howns, -, -, hlists⟩ := hhere hover
    obtain ⟨hseparate, hwithin⟩ := howns.separate hq hnd
    exact ⟨_, hlists, hseparate, hwithin⟩

end Result

/-- The full queue of the tasks 1 and 2, with one thief. -/
def fullTwo : SpmcQueue.State ℕ Unit :=
  { SpmcQueue.init ℕ Unit with buffer := fun i => some (i + 1), bottom := 2 }

/-- A thief's `TakeHalf` moves `top_` between the loads and the compare-exchange of the call. -/
def stolenInBetween : List (Label ℕ Unit) :=
  [.own, .own, .own, .thief (.takeHalf ()), .thief (.thief () false), .thief (.thief () false),
    .own, .own]

theorem overflow_two :
    (∃ k s, StepSystem.run (step ⟨2, 1, rfl⟩ 3)
        (start fullTwo 5 (Function.update (fun _ => some 1) 4 none) ⟨some 4, some 4⟩)
          (List.replicate k .own) = some s ∧
      s.queue.ring.contents ⟨2, 1, rfl⟩ = [some 2] ∧ s.globalQueue.Lists s.next [4, 1, 3]) ∧
    ∃ s, StepSystem.run (step ⟨2, 1, rfl⟩ 3)
        (start fullTwo 5 (Function.update (fun _ => some 1) 4 none) ⟨some 4, some 4⟩)
          stolenInBetween = some s ∧
      s.lost = true ∧ toCopy ⟨2, 1, rfl⟩ s.queue () = [some 1] ∧
      s.globalQueue.Lists s.next [4, 3] := by
  obtain ⟨⟨k, s, hrun, -, -, -, hqueue, hlists⟩, hlost, -⟩ :=
    overflow ⟨2, 1, rfl⟩ ⟨1, rfl⟩ 3 5 [1, 2] [4] fullTwo
      (Function.update (fun _ => some 1) 4 none) ⟨some 4, some 4⟩
      ⟨by decide, by decide, by decide⟩ rfl rfl
      ⟨fun _ => trivial, fun _ => rfl, rfl, rfl⟩ ⟨⟨rfl, rfl⟩, rfl⟩ (by decide)
  refine ⟨⟨k, s, hrun, hqueue, hlists⟩, _, rfl, rfl, rfl, ?_⟩
  exact (hlost stolenInBetween _ rfl rfl rfl).2.2.2.2.2

/-! ### The call in the executor's model -/

section Executor

variable {E K : Type*} [DecidableEq E] [DecidableEq K] [DecidableEq Task]
  {s : WorkStealing.State E K Task} {th : WorkStealing.Thread E K} {w : E × ℕ} {task : Task}
  {g : List Task}

/-- Four steps of the executor's model come to the same queues. -/
theorem scheduleStep_overflow (hpc : s.pc th = .schedPush w task)
    (hfull : (s.queue w).length = WorkStealing.kDefaultSpmcCapacity)
    (hg : (s.globalQueue w.1).Lists s.next g) (hnd : (s.queue w ++ (g ++ [task])).Nodup) :
    ∃ s', StepSystem.run (fun s lost => WorkStealing.scheduleStep s th lost) s
        (List.replicate 4 false) = some s' ∧
      s'.lifoSlot = s.lifoSlot ∧
      s'.queue w = (s.queue w).drop (WorkStealing.kDefaultSpmcCapacity / 2) ∧
      (s'.globalQueue w.1).Lists s'.next
        (g ++ ((s.queue w).take (WorkStealing.kDefaultSpmcCapacity / 2) ++ [task])) := by
  have hhalf : numToTake (s.queue w).length = WorkStealing.kDefaultSpmcCapacity / 2 := by
    rw [hfull]
    decide
  rw [← hhalf]
  have hnfull : ¬ (s.queue w).length < WorkStealing.kDefaultSpmcCapacity := by omega
  obtain ⟨first, rest, hown⟩ : ∃ first rest,
      (s.queue w).take (numToTake (s.queue w).length) = first :: rest := by
    refine List.exists_cons_of_ne_nil fun hnil => ?_
    have hlen := congrArg List.length hnil
    rw [List.length_take, hhalf, hfull, List.length_nil] at hlen
    exact absurd hlen (by decide)
  obtain ⟨hqueue, hgt, hdis⟩ := List.nodup_append.mp hnd
  have hsub : ∀ x ∈ first :: rest, x ∈ s.queue w := fun x hx =>
    List.take_subset _ _ (hown ▸ hx)
  have hbatch : (first :: rest ++ [task]).Nodup := by
    refine List.nodup_append.mpr ⟨hown ▸ hqueue.take, List.nodup_singleton task, ?_⟩
    intro x hx y hy
    exact hdis x (hsub x hx) y (List.mem_append_right _ hy)
  have hlists : (s.globalQueue w.1).Lists
      (WorkStealing.linkBatch s.next (first :: rest) task) g := by
    refine hg.frame fun x hx => WorkStealing.linkBatch_of_notMem fun hmem => ?_
    rcases List.mem_append.mp hmem with hmem | hmem
    · exact hdis x (hsub x hmem) x (List.mem_append_left _ hx) rfl
    · exact (List.nodup_append.mp hgt).2.2 x hx x hmem rfl
  have htake : WorkStealing.takeHalf (s.queue w) =
      (first :: rest, (s.queue w).drop (numToTake (s.queue w).length)) := by
    rw [WorkStealing.takeHalf, List.splitAt_eq, hown]
  -- `Push` fails, `TakeHalf`, the loop, `PushBatch`
  let s₁ := (s.logOwner th w).goto th (.schedTake w task)
  let s₂ := ((s₁.logOwner th w).setQueue w ((s.queue w).drop (numToTake (s.queue w).length))).goto
    th (.schedLink w task first rest)
  let s₃ := (s₂.setLinks (WorkStealing.linkBatch s.next (first :: rest) task)).goto th
    (.schedBatch w task first)
  let s₄ := (s₃.globalPushBatch w.1 first task).goto th .calling
  have hpc₁ : s₁.pc th = .schedTake w task := Function.update_self ..
  have hpc₂ : s₂.pc th = .schedLink w task first rest := Function.update_self ..
  have hpc₃ : s₃.pc th = .schedBatch w task first := Function.update_self ..
  have hs₁ : WorkStealing.scheduleStep s th false = some s₁ := by
    simp only [WorkStealing.scheduleStep, hpc]
    exact congrArg some (if_neg hnfull)
  have hs₂ : WorkStealing.scheduleStep s₁ th false = some s₂ := by
    have hsame : (s₁.logOwner th w).queue w = s.queue w := rfl
    simp only [WorkStealing.scheduleStep, hpc₁, hsame, htake]
    rfl
  have hs₃ : WorkStealing.scheduleStep s₂ th false = some s₃ := by
    simp only [WorkStealing.scheduleStep, hpc₂]
    rfl
  have hs₄ : WorkStealing.scheduleStep s₃ th false = some s₄ := by
    simp only [WorkStealing.scheduleStep, hpc₃]
    rfl
  refine ⟨s₄, ?_, rfl, Function.update_self .., ?_⟩
  · exact StepSystem.run_cons.mpr ⟨s₁, hs₁, StepSystem.run_cons.mpr ⟨s₂, hs₂,
      StepSystem.run_cons.mpr ⟨s₃, hs₃, StepSystem.run_cons.mpr ⟨s₄, hs₄, rfl⟩⟩⟩⟩
  · have hpush := hlists.pushBatch (WorkStealing.linkBatch_chain hbatch) hbatch fun x hx hx' => by
      rcases List.mem_append.mp hx' with hx' | hx'
      · exact hdis x (hsub x hx') x (List.mem_append_left _ hx) rfl
      · exact (List.nodup_append.mp hgt).2.2 x hx x hx' rfl
    have hqueue₄ : s₄.globalQueue w.1 = ((s.globalQueue w.1).pushBatch
        (WorkStealing.linkBatch s.next (first :: rest) task) first task).2 :=
      Function.update_self ..
    rw [hown, hqueue₄]
    exact hpush

end Executor

end Overflow
