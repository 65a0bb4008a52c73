/-
Whose socket an operation of the reactor meets.

A slot of the kernel's table is used again as soon as it has been closed, so an operation that is
submitted after the close, or is still under way then, would meet another connection's socket.

* `Waiting` — one operation for each connection that waits, and none for the others;
* `Owning` — whose socket is in which slot;
* `reactor_isolates` — **no operation meets another connection's socket**, no completion a
  handler that does not wait for it, and accepting never ends.
-/
import AntServer.Reactor

namespace Reactor

open HttpTeardown (Op Phase handler)

variable {s s' : State} {l : Label}

/-! ### The operations of the connections -/

def Request.isOf (k : ℕ) : Request → Bool
  | .op k' _ _ => k' = k
  | .accept => false

def Completion.isOf (k : ℕ) : Completion → Bool
  | .op k' _ _ => k' = k
  | _ => false

/-- The connection that a completion of the accept brings. -/
def Completion.brings : Completion → Option ℕ
  | .accept res _ k => if 0 ≤ res then some k else none
  | _ => none

/-- The operations of `k` in the kernel and in the completion queue. -/
def State.inFlight (s : State) (k : ℕ) : ℕ :=
  s.requests.countP (Request.isOf k) + s.unhandled.countP (Completion.isOf k)

/-- The operations that `k` still needs to see completed. -/
def Connection.open? (x : Connection) : ℕ :=
  if x.phase.awaits.isSome ∧ x.result = none then 1 else 0

theorem Connection.open?_le (x : Connection) : x.open? ≤ 1 := by
  unfold Connection.open?
  split
  · exact le_rfl
  · exact Nat.zero_le 1

/-- A connection that waits for an operation has it in the kernel, or in the completion queue, or
has its result; no other operation is there, and none on another descriptor. -/
structure Waiting (s : State) : Prop where
  inFlight : ∀ k, s.inFlight k = ((s.connection k).map Connection.open?).getD 0
  request : ∀ k op fd, .op k op fd ∈ s.requests →
    ∃ x, s.connection k = some x ∧ x.fd = fd ∧ x.phase.awaits = some op
  completion : ∀ k op res, .op k op res ∈ s.unhandled →
    ∃ x, s.connection k = some x ∧ x.phase.awaits = some op
  result : ∀ k x, s.connection k = some x → x.result.isSome → x.phase.awaits.isSome
  fault : s.fault = false

/-- The slot of an accepted connection is its own, from the accept until a close of it has been
performed with success. -/
structure Owning (s : State) : Prop where
  fresh : ∀ k, s.nextConnection ≤ k → s.connection k = none
  accepted : ∀ res more k, .accept res more k ∈ s.unhandled → 0 ≤ res →
    k < s.nextConnection ∧ s.connection k = none ∧ s.table res.toNat = some k
  once : (s.unhandled.filterMap Completion.brings).Nodup
  owned : ∀ k x, s.connection k = some x →
    x.phase.closes = false ∨ .op k .close x.fd ∈ s.requests → s.table x.fd = some k
  held : ∀ f k, s.table f = some k → (∃ x, s.connection k = some x ∧ x.fd = f) ∨
    ∃ more, .accept f more k ∈ s.unhandled
  performed : ∀ x ∈ s.performed, x.2 = some x.1

theorem waiting_init : Waiting init where
  inFlight := fun _ => rfl
  request := fun _ _ _ h => absurd h List.not_mem_nil
  completion := fun _ _ _ h => absurd h List.not_mem_nil
  result := fun _ _ h => by cases h
  fault := rfl

theorem owning_init : Owning init where
  fresh := fun _ _ => rfl
  accepted := fun _ _ _ h => absurd h List.not_mem_nil
  once := List.nodup_nil
  owned := fun _ _ h => by cases h
  held := fun _ _ h => by cases h
  performed := fun _ h => absurd h List.not_mem_nil

theorem closes_of_awaits {p : Phase} {op : Op} (h : p.awaits = some op) (hop : op ≠ .close) :
    p.closes = false := by
  cases p with
  | closing =>
    obtain rfl := Option.some.inj h
    exact absurd rfl hop
  | returned => cases h
  | _ => rfl

/-- **A request is on the socket of its connection.** -/
theorem Owning.request (ho : Owning s) (hw : Waiting s) {k fd : ℕ} {op : Op}
    (h : .op k op fd ∈ s.requests) : s.table fd = some k := by
  obtain ⟨x, hx, rfl, hawaits⟩ := hw.request k op fd h
  refine ho.owned k x hx ?_
  by_cases hop : op = .close
  · exact Or.inr (hop ▸ h)
  · exact Or.inl (closes_of_awaits hawaits hop)

/-! ### Steps that do not concern them -/

/-- Nothing of the connections and of their operations changes. -/
structure SameOps (s s' : State) : Prop where
  requests : ∀ k, s'.requests.countP (Request.isOf k) = s.requests.countP (Request.isOf k)
  mem : ∀ k op fd, .op k op fd ∈ s'.requests ↔ .op k op fd ∈ s.requests
  connection : s'.connection = s.connection
  fault : s'.fault = s.fault

/-- Nor of the kernel's table. -/
structure SameTable (s s' : State) : Prop where
  table : s'.table = s.table
  nextConnection : s'.nextConnection = s.nextConnection
  performed : s'.performed = s.performed

/-- Requests may differ by an accept. -/
theorem SameOps.of_accept (hreq : s'.requests = s.requests ∨ s'.requests = s.requests ++ [.accept] ∨
      s'.requests = s.requests.erase .accept) (hcon : s'.connection = s.connection)
    (hfault : s'.fault = s.fault) : SameOps s s' := by
  refine ⟨fun k => ?_, fun k op fd => ?_, hcon, hfault⟩
  · rcases hreq with h | h | h
    · rw [h]
    · rw [h, List.countP_append]
      rfl
    · rw [h]
      by_cases hmem : Request.accept ∈ s.requests
      · rw [(List.perm_cons_erase hmem).countP_eq, List.countP_cons]
        rfl
      · rw [List.erase_of_not_mem hmem]
  · have hne : Request.op k op fd ≠ .accept := fun he => by cases he
    rcases hreq with h | h | h
    · rw [h]
    · rw [h, List.mem_append, List.mem_singleton, or_iff_left hne]
    · rw [h, List.mem_erase_of_ne hne]

/-- Completions of other handlers may come or go. -/
theorem Waiting.same (h : Waiting s) (hs : SameOps s s')
    (hcount : ∀ k, s'.unhandled.countP (Completion.isOf k) = s.unhandled.countP (Completion.isOf k))
    (hmem : ∀ k op res, .op k op res ∈ s'.unhandled → .op k op res ∈ s.unhandled) :
    Waiting s' where
  inFlight := fun k => by
    rw [State.inFlight, hs.requests, hcount, hs.connection]
    exact h.inFlight k
  request := fun k op fd hreq => by
    rw [hs.connection]
    exact h.request k op fd ((hs.mem k op fd).mp hreq)
  completion := fun k op res hc => by
    rw [hs.connection]
    exact h.completion k op res (hmem k op res hc)
  result := by
    rw [hs.connection]
    exact h.result
  fault := hs.fault.trans h.fault

theorem Owning.same (h : Owning s) (hs : SameOps s s') (ht : SameTable s s')
    (hbrings : s'.unhandled.filterMap Completion.brings = s.unhandled.filterMap Completion.brings)
    (hmem : ∀ res more k, 0 ≤ res →
      (.accept res more k ∈ s'.unhandled ↔ .accept res more k ∈ s.unhandled)) : Owning s' where
  fresh := by
    rw [hs.connection, ht.nextConnection]
    exact h.fresh
  accepted := fun res more k hc hres => by
    rw [hs.connection, ht.nextConnection, ht.table]
    exact h.accepted res more k ((hmem res more k hres).mp hc) hres
  once := hbrings ▸ h.once
  owned := fun k x hx hopen => by
    rw [ht.table]
    rw [hs.connection] at hx
    exact h.owned k x hx (hopen.imp_right (hs.mem k .close x.fd).mp)
  held := fun f k hf => by
    rw [ht.table] at hf
    rw [hs.connection]
    refine (h.held f k hf).imp_right ?_
    rintro ⟨more, hc⟩
    exact ⟨more, (hmem f more k (Int.natCast_nonneg f)).mpr hc⟩
  performed := ht.performed ▸ h.performed

/-- A completion that belongs to no connection. -/
def Completion.Foreign (c : Completion) : Prop := (∀ k, c.isOf k = false) ∧ c.brings = none

theorem Completion.Foreign.ne_op {c : Completion} (h : c.Foreign) (k : ℕ) (op : Op) (res : ℤ) :
    .op k op res ≠ c := by
  rintro rfl
  have hof := h.1 k
  exact absurd rfl (of_decide_eq_false hof)

theorem Completion.Foreign.ne_accept {c : Completion} (h : c.Foreign) {res : ℤ} (more : Bool)
    (k : ℕ) (hres : 0 ≤ res) : .accept res more k ≠ c := by
  rintro rfl
  have hbrings := h.2
  rw [Completion.brings, if_pos hres] at hbrings
  cases hbrings

/-- Such a completion is posted. -/
theorem owning_postForeign (hw : Waiting s) (ho : Owning s) {c : Completion} (hc : c.Foreign)
    (hs : SameOps s s') (ht : SameTable s s') (hun : s'.unhandled = s.unhandled ++ [c]) :
    Waiting s' ∧ Owning s' := by
  refine ⟨hw.same hs (fun k => ?_) (fun k op res hmem => ?_),
    ho.same hs ht ?_ fun res more k hres => ?_⟩
  · rw [hun, List.countP_append, List.countP_singleton, hc.1 k]
    rfl
  · rw [hun, List.mem_append, List.mem_singleton, or_iff_left (hc.ne_op k op res)] at hmem
    exact hmem
  · rw [hun, List.filterMap_append, List.filterMap_cons_none hc.2, List.filterMap_nil,
      List.append_nil]
  · rw [hun, List.mem_append, List.mem_singleton, or_iff_left (hc.ne_accept more k hres)]

/-- Such a completion is taken. -/
theorem owning_takeForeign (hw : Waiting s) (ho : Owning s) {c : Completion} (hc : c.Foreign)
    (hs : SameOps s s') (ht : SameTable s s') (hun : s.unhandled = c :: s'.unhandled) :
    Waiting s' ∧ Owning s' := by
  refine ⟨hw.same hs (fun k => ?_) (fun k op res hmem => ?_),
    ho.same hs ht ?_ fun res more k hres => ?_⟩
  · rw [hun, List.countP_cons, hc.1 k]
    rfl
  · rw [hun]
    exact List.mem_cons_of_mem c hmem
  · rw [hun, List.filterMap_cons_none hc.2]
  · rw [hun, List.mem_cons, or_iff_right (hc.ne_accept more k hres)]

/-- The queue does not change. -/
theorem owning_keep (hw : Waiting s) (ho : Owning s) (hs : SameOps s s') (ht : SameTable s s')
    (hun : s'.unhandled = s.unhandled) : Waiting s' ∧ Owning s' := by
  refine ⟨hw.same hs (fun k => by rw [hun]) (fun k op res hmem => hun ▸ hmem),
    ho.same hs ht (by rw [hun]) fun res more k _ => by rw [hun]⟩

/-! ### The kernel's steps -/

theorem acceptCompleted_requests (s : State) (more : Bool) :
    (acceptCompleted s more).requests = s.requests ∨
      (acceptCompleted s more).requests = s.requests ++ [.accept] ∨
      (acceptCompleted s more).requests = s.requests.erase .accept := by
  cases more with
  | true => exact Or.inl rfl
  | false => exact Or.inr (Or.inr rfl)

section Accept

variable {f : ℕ} {more : Bool}

theorem accept_unhandled (hc : s.count ≤ s.cq.length) :
    (accept s f more).unhandled = s.unhandled ++ [.accept f more s.nextConnection] := by
  cases more <;> exact List.drop_append_of_le_length hc

theorem accept_connection : (accept s f more).connection = s.connection := by
  cases more <;> rfl

theorem accept_table :
    (accept s f more).table = Function.update s.table f (some s.nextConnection) := by
  cases more <;> rfl

theorem accept_nextConnection : (accept s f more).nextConnection = s.nextConnection + 1 := by
  cases more <;> rfl

theorem accept_performed : (accept s f more).performed = s.performed := by
  cases more <;> rfl

theorem accept_sameOps : SameOps s (accept s f more) := by
  refine .of_accept ?_ accept_connection (by cases more <;> rfl)
  exact acceptCompleted_requests { s with table := _, nextConnection := _ } more

/-- The slots in use stay as they are. -/
theorem accept_table_of_some {g k : ℕ} (hfree : s.table f = none) (hg : s.table g = some k) :
    (accept s f more).table g = some k := by
  have hne : g ≠ f := by
    rintro rfl
    cases hfree.symm.trans hg
  rw [accept_table, Function.update_of_ne hne]
  exact hg

theorem accept_waiting (hc : s.count ≤ s.cq.length) (hw : Waiting s) :
    Waiting (accept s f more) := by
  refine hw.same accept_sameOps (fun k => ?_) fun k op res hmem => ?_
  · rw [accept_unhandled hc, List.countP_append]
    rfl
  · rw [accept_unhandled hc, List.mem_append, List.mem_singleton] at hmem
    exact hmem.resolve_right fun he => by cases he

/-- No completion brings a connection that is still to come. -/
theorem Owning.brings_lt (ho : Owning s) {k : ℕ}
    (h : k ∈ s.unhandled.filterMap Completion.brings) : k < s.nextConnection := by
  obtain ⟨c, hmem, hb⟩ := List.mem_filterMap.mp h
  cases c with
  | accept res more k' =>
    rw [Completion.brings, Option.ite_none_right_eq_some, Option.some.injEq] at hb
    obtain ⟨hres, rfl⟩ := hb
    exact (ho.accepted res more _ hmem hres).1
  | op | null => cases hb

/-- A connection is accepted into a free slot. -/
theorem accept_owning (hc : s.count ≤ s.cq.length) (ho : Owning s) (hfree : s.table f = none) :
    Owning (accept s f more) := by
  have hun : (accept s f more).unhandled = _ := accept_unhandled hc
  refine ⟨fun k hk => ?_, fun res more' k hmem hres => ?_, ?_, fun k x hx hopen => ?_,
    fun g k hg => ?_, ?_⟩
  · rw [accept_nextConnection] at hk
    rw [accept_connection]
    exact ho.fresh k (Nat.le_of_succ_le hk)
  · rw [accept_nextConnection, accept_connection]
    rw [hun, List.mem_append, List.mem_singleton] at hmem
    rcases hmem with hold | hnew
    · obtain ⟨hlt, hnone, hslot⟩ := ho.accepted res more' k hold hres
      exact ⟨Nat.lt_succ_of_lt hlt, hnone, accept_table_of_some hfree hslot⟩
    · obtain ⟨rfl, -, rfl⟩ := Completion.accept.inj hnew
      refine ⟨Nat.lt_succ_self _, ho.fresh _ le_rfl, ?_⟩
      rw [accept_table, Int.toNat_natCast, Function.update_self]
  · have hbrings : (Completion.accept f more s.nextConnection).brings = some s.nextConnection := by
      rw [Completion.brings, if_pos (Int.natCast_nonneg f)]
    rw [hun, List.filterMap_append, List.filterMap_cons_some hbrings, List.filterMap_nil]
    refine ho.once.append (List.nodup_singleton _) fun k hk hk' => ?_
    obtain rfl := List.mem_singleton.mp hk'
    exact absurd (ho.brings_lt hk) (lt_irrefl _)
  · rw [accept_connection] at hx
    have hopen' := hopen.imp_right (accept_sameOps.mem k .close x.fd).mp
    exact accept_table_of_some hfree (ho.owned k x hx hopen')
  · rw [accept_connection, hun]
    by_cases hgf : g = f
    · subst hgf
      rw [accept_table, Function.update_self, Option.some.injEq] at hg
      subst hg
      exact Or.inr ⟨more, List.mem_append_right _ List.mem_cons_self⟩
    · rw [accept_table, Function.update_of_ne hgf] at hg
      refine (ho.held g k hg).imp_right ?_
      rintro ⟨more', hmem⟩
      exact ⟨more', List.mem_append_left _ hmem⟩
  · rw [accept_performed]
    exact ho.performed

end Accept

theorem countP_erase_request {k k' fd : ℕ} {op : Op} (h : .op k op fd ∈ s.requests) :
    s.requests.countP (Request.isOf k') =
      (s.requests.erase (.op k op fd)).countP (Request.isOf k') + if k = k' then 1 else 0 := by
  rw [(List.perm_cons_erase h).countP_eq, List.countP_cons, Request.isOf]
  congr 1
  by_cases hk : k = k'
  · rw [if_pos hk, if_pos (decide_eq_true hk)]
  · rw [if_neg hk, if_neg fun he => hk (of_decide_eq_true he)]

section Perform

variable {k fd : ℕ} {op : Op} {res : ℤ}

theorem perform_unhandled (hc : s.count ≤ s.cq.length) :
    (perform s k op fd res).unhandled = s.unhandled ++ [.op k op res] :=
  List.drop_append_of_le_length hc

theorem mem_of_mem_perform {r : Request} (h : r ∈ (perform s k op fd res).requests) :
    r ∈ s.requests :=
  List.mem_of_mem_erase h

/-- At most the slot of the operation is emptied. -/
theorem perform_table_of_ne {g : ℕ} (hg : g ≠ fd) :
    (perform s k op fd res).table g = s.table g := by
  show (if op = Op.close ∧ res = 0 then Function.update s.table fd none else s.table) g = _
  split
  · exact Function.update_of_ne hg _ _
  · rfl

theorem perform_table_of_not_close (hop : op ≠ .close) :
    (perform s k op fd res).table = s.table :=
  if_neg fun he => hop he.1

theorem table_of_perform {g k' : ℕ} (h : (perform s k op fd res).table g = some k') :
    s.table g = some k' := by
  change (if op = Op.close ∧ res = 0 then Function.update s.table fd none else s.table) g =
    some k' at h
  split at h
  · by_cases hg : g = fd
    · rw [hg, Function.update_self] at h
      cases h
    · rwa [Function.update_of_ne hg] at h
  · exact h

/-- An operation is performed: it is under way as before. -/
theorem perform_waiting (hc : s.count ≤ s.cq.length) (hw : Waiting s)
    (hreq : .op k op fd ∈ s.requests) : Waiting (perform s k op fd res) := by
  obtain ⟨x, hx, -, hawaits⟩ := hw.request k op fd hreq
  refine ⟨fun k' => ?_, fun k' op' fd' h => hw.request k' op' fd' (mem_of_mem_perform h),
    fun k' op' res' h => ?_, hw.result, hw.fault⟩
  · have hold := hw.inFlight k'
    rw [State.inFlight, countP_erase_request hreq] at hold
    rw [State.inFlight, perform_unhandled hc, List.countP_append, List.countP_singleton,
      Completion.isOf]
    show (s.requests.erase (.op k op fd)).countP (Request.isOf k') +
      (s.unhandled.countP (Completion.isOf k') + if decide (k = k') then 1 else 0) =
        ((s.connection k').map Connection.open?).getD 0
    simp only [decide_eq_true_eq]
    omega
  · rw [perform_unhandled hc, List.mem_append, List.mem_singleton] at h
    rcases h with hold | hnew
    · exact hw.completion k' op' res' hold
    · obtain ⟨rfl, rfl, rfl⟩ := Completion.op.inj hnew
      exact ⟨x, hx, hawaits⟩

/-- A close is the last request of its connection. -/
theorem Waiting.close_last {x : Connection} (hw : Waiting s) (hx : s.connection k = some x)
    (hreq : .op k .close x.fd ∈ s.requests) :
    x.phase.closes = true ∧ .op k .close x.fd ∉ s.requests.erase (.op k .close x.fd) := by
  constructor
  · obtain ⟨x', hx', -, hawaits⟩ := hw.request k .close x.fd hreq
    obtain rfl := Option.some.inj (hx.symm.trans hx')
    cases hphase : x.phase with
    | closing => rfl
    | _ =>
      rw [hphase] at hawaits
      cases hawaits
  · intro hagain
    have hpos : 0 < (s.requests.erase (.op k .close x.fd)).countP (Request.isOf k) :=
      List.countP_pos_iff.mpr ⟨_, hagain, decide_eq_true rfl⟩
    have hflight := hw.inFlight k
    have hle := x.open?_le
    rw [State.inFlight, countP_erase_request hreq, if_pos rfl, hx, Option.map_some,
      Option.getD_some] at hflight
    omega

/-- And it is performed on the connection's own socket. -/
theorem perform_owning (hc : s.count ≤ s.cq.length) (hw : Waiting s) (ho : Owning s)
    (hreq : .op k op fd ∈ s.requests) : Owning (perform s k op fd res) := by
  obtain ⟨x, hx, rfl, -⟩ := hw.request k op fd hreq
  have hslot : s.table x.fd = some k := ho.request hw hreq
  have hun : (perform s k op x.fd res).unhandled = _ := perform_unhandled hc
  -- another connection's slot is another one
  have hother : ∀ {g k'}, s.table g = some k' → k' ≠ k →
      (perform s k op x.fd res).table g = some k' := by
    intro g k' hg hk
    refine (perform_table_of_ne ?_).trans hg
    rintro rfl
    exact hk (Option.some.inj (hg.symm.trans hslot))
  refine ⟨ho.fresh, fun res' more k' h hres => ?_, ?_, fun k' x' hx' hopen => ?_,
    fun g k' hg => ?_, fun y hy => ?_⟩
  · rw [hun, List.mem_append, List.mem_singleton] at h
    have hold := h.resolve_right fun he => by cases he
    obtain ⟨hlt, hnone, htab⟩ := ho.accepted res' more k' hold hres
    refine ⟨hlt, hnone, hother htab ?_⟩
    rintro rfl
    cases hnone.symm.trans hx
  · rw [hun, List.filterMap_append]
    exact (List.append_nil _).symm ▸ ho.once
  · have hold := ho.owned k' x' hx' (hopen.imp_right mem_of_mem_perform)
    by_cases hk : k' = k
    · subst hk
      obtain rfl := Option.some.inj (hx.symm.trans hx')
      rw [perform_table_of_not_close]
      · exact hold
      rintro rfl
      obtain ⟨hcloses, hlast⟩ := hw.close_last hx hreq
      rcases hopen with hopen | hagain
      · cases hcloses.symm.trans hopen
      · exact hlast hagain
    · exact hother hold hk
  · rw [hun]
    refine (ho.held g k' (table_of_perform hg)).imp_right ?_
    rintro ⟨more, h⟩
    exact ⟨more, List.mem_append_left _ h⟩
  · rcases List.mem_append.mp hy with hold | hnew
    · exact ho.performed y hold
    · obtain rfl := List.mem_singleton.mp hnew
      exact hslot

end Perform

/-! ### Steps of one connection -/

section Update

variable {k : ℕ} {x y : Connection} (hx : s.connection k = some x)
  (hcon : s'.connection = Function.update s.connection k (some y))

include hx hcon

/-- A connection goes on with its operation; the others do not notice. -/
theorem Waiting.update (h : Waiting s) (hfault : s'.fault = s.fault)
    (hself : s'.inFlight k = y.open?) (hother : ∀ k', k' ≠ k → s'.inFlight k' = s.inFlight k')
    (hreq : ∀ k' op fd, .op k' op fd ∈ s'.requests → k' ≠ k → .op k' op fd ∈ s.requests)
    (hdone : ∀ k' op res, .op k' op res ∈ s'.unhandled → k' ≠ k → .op k' op res ∈ s.unhandled)
    (hmine : ∀ op fd, .op k op fd ∈ s'.requests → y.fd = fd ∧ y.phase.awaits = some op)
    (hdone' : ∀ op res, .op k op res ∈ s'.unhandled → y.phase.awaits = some op)
    (hresult : y.result.isSome → y.phase.awaits.isSome) : Waiting s' := by
  have hk : s'.connection k = some y := by rw [hcon, Function.update_self]
  have hne : ∀ {k'}, k' ≠ k → s'.connection k' = s.connection k' := fun hk' => by
    rw [hcon, Function.update_of_ne hk']
  refine ⟨fun k' => ?_, fun k' op fd hmem => ?_, fun k' op res hmem => ?_, fun k' z hz hr => ?_,
    hfault.trans h.fault⟩
  · by_cases hk' : k' = k
    · rw [hk', hself, hk]
      rfl
    · rw [hother k' hk', hne hk']
      exact h.inFlight k'
  · by_cases hk' : k' = k
    · subst hk'
      exact ⟨y, hk, hmine op fd hmem⟩
    · rw [hne hk']
      exact h.request k' op fd (hreq k' op fd hmem hk')
  · by_cases hk' : k' = k
    · subst hk'
      exact ⟨y, hk, hdone' op res hmem⟩
    · rw [hne hk']
      exact h.completion k' op res (hdone k' op res hmem hk')
  · by_cases hk' : k' = k
    · subst hk'
      obtain rfl := Option.some.inj (hk.symm.trans hz)
      exact hresult hr
    · exact h.result k' z ((hne hk').symm.trans hz) hr

/-- A connection keeps its slot. -/
theorem Owning.update (h : Owning s) (ht : SameTable s s') (hfd : y.fd = x.fd)
    (hbrings : s'.unhandled.filterMap Completion.brings = s.unhandled.filterMap Completion.brings)
    (hmem : ∀ res more k, .accept res more k ∈ s'.unhandled ↔ .accept res more k ∈ s.unhandled)
    (hreq : ∀ k' fd, .op k' .close fd ∈ s'.requests → k' ≠ k → .op k' .close fd ∈ s.requests)
    (hopen : y.phase.closes = false ∨ .op k .close x.fd ∈ s'.requests →
      x.phase.closes = false ∨ .op k .close x.fd ∈ s.requests) : Owning s' := by
  have hk : s'.connection k = some y := by rw [hcon, Function.update_self]
  have hne : ∀ {k'}, k' ≠ k → s'.connection k' = s.connection k' := fun hk' => by
    rw [hcon, Function.update_of_ne hk']
  have hnone : ∀ {k'}, s.connection k' = none → s'.connection k' = none := by
    intro k' hnone
    have hk' : k' ≠ k := by
      rintro rfl
      cases hnone.symm.trans hx
    exact (hne hk').trans hnone
  refine ⟨fun k' hlt => ?_, fun res more k' hc hres => ?_, hbrings ▸ h.once, fun k' z hz ho => ?_,
    fun f k' hf => ?_, ht.performed ▸ h.performed⟩
  · exact hnone (h.fresh k' (ht.nextConnection ▸ hlt))
  · obtain ⟨hlt, hno, htab⟩ := h.accepted res more k' ((hmem res more k').mp hc) hres
    exact ⟨ht.nextConnection ▸ hlt, hnone hno, ht.table ▸ htab⟩
  · rw [ht.table]
    by_cases hk' : k' = k
    · subst hk'
      obtain rfl := Option.some.inj (hk.symm.trans hz)
      rw [hfd] at ho ⊢
      exact h.owned k' x hx (hopen ho)
    · exact h.owned k' z ((hne hk').symm.trans hz) (ho.imp_right fun hm => hreq k' z.fd hm hk')
  · rw [ht.table] at hf
    rcases h.held f k' hf with ⟨z, hz, hzf⟩ | ⟨more, hc⟩
    · refine Or.inl ?_
      by_cases hk' : k' = k
      · subst hk'
        obtain rfl := Option.some.inj (hx.symm.trans hz)
        exact ⟨y, hk, hfd.trans hzf⟩
      · exact ⟨z, (hne hk').trans hz, hzf⟩
    · exact Or.inr ⟨more, (hmem f more k').mpr hc⟩

end Update

/-! ### The IO thread's steps -/

/-- The completion of an operation wakes the handler that waits for it. -/
theorem completeOp_owning {k : ℕ} {op : Op} {res : ℤ} (hw : Waiting s) (ho : Owning s)
    (hc : s.cq[s.count]? = some (.op k op res)) :
    Waiting (completeOp (s.take (.op k op res)) k op res) ∧
      Owning (completeOp (s.take (.op k op res)) k op res) := by
  have hcons := unhandled_eq_cons hc
  obtain ⟨x, hx, hawaits⟩ := hw.completion k op res (hcons ▸ List.mem_cons_self)
  have htake : (s.take (.op k op res)).connection k = some x := hx
  have heq : completeOp (s.take (.op k op res)) k op res =
      (s.take (.op k op res)).setConnection k { x with result := some res } := by
    simp only [completeOp, htake, if_pos hawaits]
  rw [heq]
  have hflight : ∀ k', s.inFlight k' = s.requests.countP (Request.isOf k') +
      ((s.cq.drop (s.count + 1)).countP (Completion.isOf k') + if k = k' then 1 else 0) := by
    intro k'
    rw [State.inFlight, hcons, List.countP_cons, Completion.isOf]
    simp only [decide_eq_true_eq]
  have hlast : ∀ k' op' res', .op k' op' res' ∈ s.cq.drop (s.count + 1) →
      .op k' op' res' ∈ s.unhandled := fun k' op' res' h => hcons ▸ List.mem_cons_of_mem _ h
  constructor
  · refine hw.update hx rfl rfl ?_ (fun k' hk => ?_) (fun _ _ _ h _ => h)
      (fun k' op' res' h _ => hlast k' op' res' h) (fun op' fd h => ?_) (fun op' res' h => ?_)
      fun _ => Option.isSome_of_eq_some hawaits
    · have hself := hw.inFlight k
      have hle := x.open?_le
      have hclosed : ({ x with result := some res } : Connection).open? = 0 :=
        if_neg fun he => by cases he.2
      rw [hflight, if_pos rfl, hx, Option.map_some, Option.getD_some] at hself
      rw [hclosed]
      show s.requests.countP (Request.isOf k) +
        (s.cq.drop (s.count + 1)).countP (Completion.isOf k) = 0
      omega
    · rw [hflight, if_neg (Ne.symm hk)]
      rfl
    · obtain ⟨x', hx', hrest⟩ := hw.request k op' fd h
      obtain rfl := Option.some.inj (hx.symm.trans hx')
      exact hrest
    · obtain ⟨x', hx', hrest⟩ := hw.completion k op' res' (hlast k op' res' h)
      obtain rfl := Option.some.inj (hx.symm.trans hx')
      exact hrest
  · refine ho.update hx rfl ⟨rfl, rfl, rfl⟩ rfl ?_ (fun res' more k' => ?_) (fun _ _ h _ => h) id
    · rw [hcons, List.filterMap_cons_none rfl]
      rfl
    · rw [hcons, List.mem_cons]
      exact ⟨Or.inr, fun h => h.resolve_left fun he => by cases he⟩

/-- A completion of the accept launches a handler. -/
def launched (s : State) (res : ℤ) (more : Bool) (k : ℕ) : State :=
  { (s.take (.accept res more k)).setConnection k ⟨res.toNat, .parsing, none⟩ with
    pc := .onAccept k more }

section Launch

variable {k : ℕ} {more : Bool} {res : ℤ} (hc : s.cq[s.count]? = some (.accept res more k))
  (hres : 0 ≤ res)

theorem launched_self : (launched s res more k).connection k = some ⟨res.toNat, .parsing, none⟩ :=
  Function.update_self ..

theorem launched_of_ne {k' : ℕ} (hk : k' ≠ k) :
    (launched s res more k).connection k' = s.connection k' :=
  Function.update_of_ne hk _ _

include hc hres

theorem launched_waiting (hw : Waiting s) (ho : Owning s) : Waiting (launched s res more k) := by
  have hcons := unhandled_eq_cons hc
  obtain ⟨-, hnone, -⟩ := ho.accepted res more k (hcons ▸ List.mem_cons_self) hres
  -- the other connections are other ones
  have hold : ∀ {k' y}, s.connection k' = some y →
      (launched s res more k).connection k' = some y := by
    intro k' y hy
    have hne : k' ≠ k := by
      rintro rfl
      cases hnone.symm.trans hy
    exact (launched_of_ne hne).trans hy
  refine ⟨fun k' => ?_, fun k' op fd h => ?_, fun k' op res' h => ?_, fun k' y hy hr => ?_,
    hw.fault⟩
  · have hflight := hw.inFlight k'
    rw [State.inFlight, hcons, List.countP_cons_of_neg (fun he => by cases he)] at hflight
    refine Eq.trans hflight ?_
    by_cases hk : k' = k
    · rw [hk, launched_self, hnone]
      rfl
    · rw [launched_of_ne hk]
  · obtain ⟨y, hy, hrest⟩ := hw.request k' op fd h
    exact ⟨y, hold hy, hrest⟩
  · have hmem : .op k' op res' ∈ s.unhandled := hcons ▸ List.mem_cons_of_mem _ h
    obtain ⟨y, hy, hrest⟩ := hw.completion k' op res' hmem
    exact ⟨y, hold hy, hrest⟩
  · by_cases hk : k' = k
    · subst hk
      obtain rfl := Option.some.inj (launched_self.symm.trans hy)
      cases hr
    · exact hw.result k' y ((launched_of_ne hk).symm.trans hy) hr

theorem launched_owning (ho : Owning s) : Owning (launched s res more k) := by
  have hcons := unhandled_eq_cons hc
  obtain ⟨hlt, hnone, htable⟩ := ho.accepted res more k (hcons ▸ List.mem_cons_self) hres
  have hbrings : (Completion.accept res more k).brings = some k := by
    rw [Completion.brings, if_pos hres]
  have honce := ho.once
  rw [hcons, List.filterMap_cons_some hbrings, List.nodup_cons] at honce
  refine ⟨fun k' hk => ?_, fun res' more' k' h hres' => ?_, honce.2, fun k' y hy hopen => ?_,
    fun f k' hf => ?_, ho.performed⟩
  · have hne : k' ≠ k := fun he => absurd hlt (not_lt.mpr (he ▸ hk))
    exact (launched_of_ne hne).trans (ho.fresh k' hk)
  · have hmem : .accept res' more' k' ∈ s.unhandled := hcons ▸ List.mem_cons_of_mem _ h
    obtain ⟨hlt', hnone', htab'⟩ := ho.accepted res' more' k' hmem hres'
    -- no other completion brings `k`
    have hne : k' ≠ k := by
      rintro rfl
      refine honce.1 (List.mem_filterMap.mpr ⟨_, h, ?_⟩)
      rw [Completion.brings, if_pos hres']
    exact ⟨hlt', (launched_of_ne hne).trans hnone', htab'⟩
  · by_cases hk : k' = k
    · subst hk
      obtain rfl := Option.some.inj (launched_self.symm.trans hy)
      exact htable
    · exact ho.owned k' y ((launched_of_ne hk).symm.trans hy) hopen
  · rcases ho.held f k' hf with ⟨y, hy, hfd⟩ | ⟨more', h⟩
    · have hne : k' ≠ k := by
        rintro rfl
        cases hnone.symm.trans hy
      exact Or.inl ⟨y, (launched_of_ne hne).trans hy, hfd⟩
    · rw [hcons, List.mem_cons] at h
      rcases h with hnow | hlater
      · obtain ⟨rfl, -, rfl⟩ := Completion.accept.inj hnow
        exact Or.inl ⟨_, launched_self, Int.toNat_natCast f⟩
      · exact Or.inr ⟨more', hlater⟩

end Launch

/-! ### The handlers' steps -/

/-- A handler's action that issues nothing leaves the kernel alone. -/
theorem handler_owning {k : ℕ} {x y : Connection} {a : HttpTeardown.Label} (hw : Waiting s)
    (ho : Owning s) (hx : s.connection k = some x) (hphase : handler x.phase a = some y.phase)
    (hfd : y.fd = x.fd) (hop : a.op? = none) (hidle : x.open? = 0) (hdone : y.phase.awaits = none)
    (hresult : y.result = none) :
    Waiting (s.setConnection k y) ∧ Owning (s.setConnection k y) := by
  have hzero : s.inFlight k = 0 := by
    rw [hw.inFlight k, hx]
    exact hidle
  have hnoReq : ∀ op fd, .op k op fd ∉ s.requests := fun op fd hmem => by
    have hpos : 0 < s.requests.countP (Request.isOf k) :=
      List.countP_pos_iff.mpr ⟨_, hmem, decide_eq_true rfl⟩
    rw [State.inFlight] at hzero
    omega
  have hnoDone : ∀ op res, .op k op res ∉ s.unhandled := fun op res hmem => by
    have hpos : 0 < s.unhandled.countP (Completion.isOf k) :=
      List.countP_pos_iff.mpr ⟨_, hmem, decide_eq_true rfl⟩
    rw [State.inFlight] at hzero
    omega
  have hopen : y.open? = 0 := by
    rw [Connection.open?, hdone]
    rfl
  constructor
  · refine hw.update hx rfl rfl (hzero.trans hopen.symm) (fun _ _ => rfl) (fun _ _ _ h _ => h)
      (fun _ _ _ h _ => h) (fun op fd h => absurd h (hnoReq op fd))
      (fun op res h => absurd h (hnoDone op res)) fun hr => ?_
    rw [hresult] at hr
    cases hr
  · refine ho.update hx rfl ⟨rfl, rfl, rfl⟩ hfd rfl (fun _ _ _ => Iff.rfl) (fun _ _ h _ => h)
      fun h => ?_
    rcases HttpTeardown.handler_op hphase with ⟨-, hbefore, -⟩ | ⟨-, -, hclose⟩ | ⟨hclosed, -, -⟩
    · exact Or.inl hbefore
    · cases hop.symm.trans hclose
    · exact Or.inr (h.resolve_left fun hfalse => by cases hclosed.symm.trans hfalse)

/-- An operation is issued. -/
theorem issue_owning {k : ℕ} {x : Connection} {op : Op} {phase : Phase} (hw : Waiting s)
    (ho : Owning s) (hx : s.connection k = some x)
    (hphase : handler x.phase (.issued op) = some phase) (hbefore : x.phase.awaits = none)
    (hafter : phase.awaits = some op) (hresult : x.result = none) :
    Waiting ((s.setConnection k { x with phase := phase }).submit (.op k op x.fd)) ∧
      Owning ((s.setConnection k { x with phase := phase }).submit (.op k op x.fd)) := by
  have hidle : x.open? = 0 := by
    rw [Connection.open?, hbefore]
    rfl
  have hzero : s.inFlight k = 0 := by
    rw [hw.inFlight k, hx]
    exact hidle
  have hopen : ({ x with phase := phase } : Connection).open? = 1 := by
    rw [Connection.open?, hafter, hresult]
    rfl
  have hflight : ∀ k', (s.requests ++ [Request.op k op x.fd]).countP (Request.isOf k') +
      s.unhandled.countP (Completion.isOf k') = s.inFlight k' + if k = k' then 1 else 0 := by
    intro k'
    rw [List.countP_append, List.countP_singleton, Request.isOf, State.inFlight]
    simp only [decide_eq_true_eq]
    omega
  have hmem : ∀ k' op' fd, .op k' op' fd ∈ s.requests ++ [Request.op k op x.fd] → k' ≠ k →
      .op k' op' fd ∈ s.requests := by
    intro k' op' fd h hk
    refine (List.mem_append.mp h).resolve_right fun hnew => ?_
    exact hk (Request.op.inj (List.mem_singleton.mp hnew)).1
  constructor
  · refine hw.update hx rfl rfl ?_ (fun k' hk => ?_) hmem (fun _ _ _ h _ => h)
      (fun op' fd h => ?_) (fun op' res h => ?_) fun hr => ?_
    · rw [hopen]
      refine (hflight k).trans ?_
      rw [hzero, if_pos rfl]
    · refine (hflight k').trans ?_
      rw [if_neg (Ne.symm hk), Nat.add_zero]
    · rcases List.mem_append.mp h with hold | hnew
      · have hpos : 0 < s.requests.countP (Request.isOf k) :=
          List.countP_pos_iff.mpr ⟨_, hold, decide_eq_true rfl⟩
        rw [State.inFlight] at hzero
        omega
      · obtain ⟨-, rfl, rfl⟩ := Request.op.inj (List.mem_singleton.mp hnew)
        exact ⟨rfl, hafter⟩
    · have hpos : 0 < s.unhandled.countP (Completion.isOf k) :=
        List.countP_pos_iff.mpr ⟨_, h, decide_eq_true rfl⟩
      rw [State.inFlight] at hzero
      omega
    · exact Option.isSome_of_eq_some hafter
  · refine ho.update hx rfl ⟨rfl, rfl, rfl⟩ rfl rfl (fun _ _ _ => Iff.rfl)
      (fun k' fd h hk => hmem k' .close fd h hk) fun _ => ?_
    -- a handler that issues an operation has not closed yet
    rcases HttpTeardown.handler_op hphase with ⟨-, hopen', -⟩ | ⟨-, hopen', -⟩ | ⟨-, -, hnone⟩
    · exact Or.inl hopen'
    · exact Or.inl hopen'
    · cases hnone

theorem awaits_parsed {p p' : Phase} {outcome : HttpTeardown.Outcome}
    (h : handler p (.parsed outcome) = some p') : p.awaits = none ∧ p'.awaits = none := by
  cases HttpTeardown.handler_moves h with
  | parse => exact ⟨rfl, rfl⟩

theorem awaits_issued {p p' : Phase} {op : Op} (h : handler p (.issued op) = some p') :
    p.awaits = none ∧ p'.awaits = some op := by
  cases HttpTeardown.handler_moves h with
  | read | write | refuse | close => exact ⟨rfl, rfl⟩

theorem awaits_completed {p p' : Phase} {op : Op} {res : ℤ}
    (h : handler p (.completed op res) = some p') : p'.awaits = none := by
  cases HttpTeardown.handler_moves h with
  | received | lost | written | writtenLast | closed => rfl

theorem runHandler_owning {k : ℕ} {x : Connection} {a : HttpTeardown.Label} (hw : Waiting s)
    (ho : Owning s) (hx : s.connection k = some x) (hs : runHandler s k x a = some s') :
    Waiting s' ∧ Owning s' := by
  obtain ⟨phase, hphase, hs⟩ := Option.bind_eq_some_iff.mp hs
  have hresult : x.phase.awaits = none → x.result = none := by
    intro hnone
    by_contra hne
    have hsome := hw.result k x hx (Option.isSome_iff_ne_none.mpr hne)
    rw [hnone] at hsome
    cases hsome
  cases a with
  | parsed outcome =>
    obtain rfl := Option.some.inj hs
    obtain ⟨hbefore, hafter⟩ := awaits_parsed hphase
    have hidle : x.open? = 0 := by
      rw [Connection.open?, hbefore]
      rfl
    exact handler_owning hw ho hx hphase rfl rfl hidle hafter (hresult hbefore)
  | issued op =>
    obtain rfl := Option.some.inj hs
    obtain ⟨hbefore, hafter⟩ := awaits_issued hphase
    exact issue_owning hw ho hx hphase hbefore hafter (hresult hbefore)
  | completed op res =>
    rw [Option.ite_none_right_eq_some, Option.some.injEq] at hs
    obtain ⟨hres, rfl⟩ := hs
    have hidle : x.open? = 0 := if_neg fun he => by cases hres.symm.trans he.2
    exact handler_owning hw ho hx hphase rfl rfl hidle (awaits_completed hphase) rfl
  | setStopToken | requestStop | cancel => cases hs

/-! ### All steps -/

theorem complete_owning {c : Completion} (hw : Waiting s) (ho : Owning s)
    (hc : s.cq[s.count]? = some c) :
    Waiting (complete (s.take c) c) ∧ Owning (complete (s.take c) c) := by
  have hcons := unhandled_eq_cons hc
  cases c with
  | null =>
    have hforeign : Completion.null.Foreign := ⟨fun _ => rfl, rfl⟩
    exact owning_takeForeign hw ho hforeign (.of_accept (Or.inl rfl) rfl rfl) ⟨rfl, rfl, rfl⟩ hcons
  | op k op res => exact completeOp_owning hw ho hc
  | accept res more k =>
    rw [complete]
    split
    next hres => exact ⟨launched_waiting hc hres hw ho, launched_owning hc hres ho⟩
    next hres =>
      have hforeign : (Completion.accept res more k).Foreign := ⟨fun _ => rfl, if_neg hres⟩
      exact owning_takeForeign hw ho hforeign (.of_accept (Or.inl rfl) rfl rfl)
        ⟨rfl, rfl, rfl⟩ hcons

/-- **Step lemma** of the connections. -/
theorem step_owning (h : Serving s) (hw : Waiting s) (ho : Owning s)
    (hs : step s l = some s') : Waiting s' ∧ Owning s' := by
  cases l with
  | construct =>
    rw [step, Option.ite_none_right_eq_some, Option.some.injEq] at hs
    obtain ⟨-, rfl⟩ := hs
    exact owning_keep hw ho (.of_accept (Or.inr (Or.inl rfl)) rfl rfl) ⟨rfl, rfl, rfl⟩ rfl
  | kernelAccept f more =>
    rw [step, Option.ite_none_right_eq_some, Option.some.injEq] at hs
    obtain ⟨⟨-, hfree⟩, rfl⟩ := hs
    exact ⟨accept_waiting h.count hw, accept_owning h.count ho hfree⟩
  | kernelAcceptError error more =>
    rw [step, Option.ite_none_right_eq_some, Option.some.injEq] at hs
    obtain ⟨⟨-, herror⟩, rfl⟩ := hs
    have hforeign : (Completion.accept error more s.nextConnection).Foreign :=
      ⟨fun _ => rfl, if_neg (not_le.mpr herror)⟩
    have hreq := acceptCompleted_requests s more
    have hun : ∀ c, (s.cq ++ [c]).drop s.count = s.cq.drop s.count ++ [c] := fun c =>
      List.drop_append_of_le_length h.count
    cases more with
    | true =>
      exact owning_postForeign hw ho hforeign (.of_accept hreq rfl rfl) ⟨rfl, rfl, rfl⟩ (hun _)
    | false =>
      exact owning_postForeign hw ho hforeign (.of_accept hreq rfl rfl) ⟨rfl, rfl, rfl⟩ (hun _)
  | kernelPerform k op fd res =>
    rw [step, Option.ite_none_right_eq_some, Option.some.injEq] at hs
    obtain ⟨hreq, rfl⟩ := hs
    exact ⟨perform_waiting h.count hw hreq, perform_owning h.count hw ho hreq⟩
  | kernelNull =>
    obtain rfl := Option.some.inj hs
    have hforeign : Completion.null.Foreign := ⟨fun _ => rfl, rfl⟩
    exact owning_postForeign hw ho hforeign (.of_accept (Or.inl rfl) rfl rfl) ⟨rfl, rfl, rfl⟩
      (List.drop_append_of_le_length h.count)
  | wake =>
    rw [step, Option.ite_none_right_eq_some, Option.some.injEq] at hs
    obtain ⟨⟨hpc, -⟩, rfl⟩ := hs
    refine owning_keep hw ho (.of_accept (Or.inl rfl) rfl rfl) ⟨rfl, rfl, rfl⟩ ?_
    show s.cq.drop 0 = s.cq.drop s.count
    rw [h.waits hpc]
  | next =>
    rw [step, Option.ite_none_right_eq_some] at hs
    obtain ⟨c, hc, rfl⟩ := Option.map_eq_some_iff.mp hs.2
    exact complete_owning hw ho hc
  | accepted =>
    rw [step] at hs
    split at hs
    · rw [Option.ite_none_right_eq_some, Option.some.injEq] at hs
      obtain ⟨-, rfl⟩ := hs
      exact owning_keep hw ho (.of_accept (Or.inl rfl) rfl rfl) ⟨rfl, rfl, rfl⟩ rfl
    · cases hs
  | rearm =>
    rw [step] at hs
    split at hs
    next more hpc =>
      obtain rfl := Option.some.inj hs
      cases more with
      | true => exact owning_keep hw ho (.of_accept (Or.inl rfl) rfl rfl) ⟨rfl, rfl, rfl⟩ rfl
      | false =>
        exact owning_keep hw ho (.of_accept (Or.inr (Or.inl rfl)) rfl rfl) ⟨rfl, rfl, rfl⟩ rfl
    · cases hs
  | advance =>
    rw [step, Option.ite_none_right_eq_some, Option.some.injEq] at hs
    obtain ⟨-, rfl⟩ := hs
    exact owning_keep hw ho (.of_accept (Or.inl rfl) rfl rfl) ⟨rfl, rfl, rfl⟩ rfl
  | handler k a =>
    rw [step] at hs
    split at hs
    · cases hs
    next x hx => exact runHandler_owning hw ho hx hs

/-! ### Launches -/

/-- The connections come in order, and those whose completion was handled have a handler. -/
structure Launching (s : State) : Prop where
  brought : s.posted.filterMap Completion.brings = List.range s.nextConnection
  launched : ∀ k, (s.connection k).isSome ↔ k ∈ s.handled.filterMap Completion.brings

theorem launching_init : Launching init :=
  ⟨rfl, fun _ => iff_of_false (fun h => by cases h) List.not_mem_nil⟩

/-- No connection is accepted or launched. -/
theorem Launching.keep (h : Launching s)
    (hposted : s'.posted.filterMap Completion.brings = s.posted.filterMap Completion.brings)
    (hnext : s'.nextConnection = s.nextConnection)
    (hhandled : s'.handled.filterMap Completion.brings = s.handled.filterMap Completion.brings)
    (hcon : ∀ k, (s'.connection k).isSome = (s.connection k).isSome) : Launching s' := by
  refine ⟨?_, fun k => ?_⟩
  · rw [hposted, hnext]
    exact h.brought
  · rw [hcon, hhandled]
    exact h.launched k

theorem filterMap_concat_none {cs : List Completion} {c : Completion} (h : c.brings = none) :
    (cs ++ [c]).filterMap Completion.brings = cs.filterMap Completion.brings := by
  rw [List.filterMap_append, List.filterMap_cons_none h, List.filterMap_nil, List.append_nil]

theorem filterMap_concat_accept {cs : List Completion} {res : ℤ} {more : Bool} {k : ℕ}
    (h : 0 ≤ res) : (cs ++ [Completion.accept res more k]).filterMap Completion.brings =
      cs.filterMap Completion.brings ++ [k] := by
  have hbrings : (Completion.accept res more k).brings = some k := if_pos h
  rw [List.filterMap_append, List.filterMap_cons_some hbrings, List.filterMap_nil]

/-- A handler that exists goes on. -/
theorem isSome_setConnection {k : ℕ} {x y : Connection} (hx : s.connection k = some x) (k' : ℕ) :
    ((s.setConnection k y).connection k').isSome = (s.connection k').isSome := by
  by_cases hk : k' = k
  · subst hk
    have hself : (s.setConnection k' y).connection k' = some y := Function.update_self ..
    rw [hself, hx]
    rfl
  · exact congrArg Option.isSome (Function.update_of_ne hk _ _)

theorem completeOp_launching {k : ℕ} {op : Op} {res : ℤ} (h : Launching s) :
    Launching (completeOp s k op res) := by
  rw [completeOp]
  split
  · exact h.keep rfl rfl rfl fun _ => rfl
  next x hx =>
    split
    · exact h.keep rfl rfl rfl (isSome_setConnection hx)
    · exact h.keep rfl rfl rfl fun _ => rfl

theorem runHandler_launching {k : ℕ} {x : Connection} {a : HttpTeardown.Label} (h : Launching s)
    (hx : s.connection k = some x) (hs : runHandler s k x a = some s') : Launching s' := by
  obtain ⟨phase, -, hs⟩ := Option.bind_eq_some_iff.mp hs
  cases a with
  | parsed outcome =>
    obtain rfl := Option.some.inj hs
    exact h.keep rfl rfl rfl (isSome_setConnection hx)
  | issued op =>
    obtain rfl := Option.some.inj hs
    exact h.keep rfl rfl rfl (isSome_setConnection hx)
  | completed op res =>
    rw [Option.ite_none_right_eq_some, Option.some.injEq] at hs
    obtain ⟨-, rfl⟩ := hs
    exact h.keep rfl rfl rfl (isSome_setConnection hx)
  | setStopToken | requestStop | cancel => cases hs

theorem complete_launching {c : Completion} (h : Launching s) :
    Launching (complete (s.take c) c) := by
  cases c with
  | null => exact h.keep rfl rfl (filterMap_concat_none rfl) fun _ => rfl
  | op k op res =>
    exact completeOp_launching (h.keep rfl rfl (filterMap_concat_none rfl) fun _ => rfl)
  | accept res more k =>
    rw [complete]
    split
    next hres =>
      refine ⟨h.brought, fun k' => ?_⟩
      show (Function.update s.connection k _ k').isSome ↔
        k' ∈ (s.handled ++ [Completion.accept res more k]).filterMap Completion.brings
      rw [filterMap_concat_accept hres, List.mem_append, List.mem_singleton]
      by_cases hk : k' = k
      · rw [hk, Function.update_self]
        exact ⟨fun _ => Or.inr rfl, fun _ => rfl⟩
      · rw [Function.update_of_ne hk, or_iff_left hk]
        exact h.launched k'
    next hres => exact h.keep rfl rfl (filterMap_concat_none (if_neg hres)) fun _ => rfl

/-- **Step lemma** of the launches. -/
theorem step_launching (h : Launching s) (hs : step s l = some s') : Launching s' := by
  cases l with
  | kernelAccept f more =>
    rw [step, Option.ite_none_right_eq_some, Option.some.injEq] at hs
    obtain ⟨-, rfl⟩ := hs
    have hposted : (accept s f more).posted = s.posted ++ [.accept f more s.nextConnection] := by
      cases more <;> rfl
    have hhandled : (accept s f more).handled = s.handled := by cases more <;> rfl
    refine ⟨?_, fun k => ?_⟩
    · rw [hposted, accept_nextConnection, filterMap_concat_accept (Int.natCast_nonneg f), h.brought,
        List.range_succ]
    · rw [accept_connection, hhandled]
      exact h.launched k
  | kernelAcceptError error more =>
    rw [step, Option.ite_none_right_eq_some, Option.some.injEq] at hs
    obtain ⟨⟨-, herror⟩, rfl⟩ := hs
    have hnone : (s.posted ++ [Completion.accept error more s.nextConnection]).filterMap _ = _ :=
      filterMap_concat_none (if_neg (not_le.mpr herror))
    cases more with
    | true => exact h.keep hnone rfl rfl fun _ => rfl
    | false => exact h.keep hnone rfl rfl fun _ => rfl
  | kernelPerform k op fd res =>
    rw [step, Option.ite_none_right_eq_some, Option.some.injEq] at hs
    obtain ⟨-, rfl⟩ := hs
    exact h.keep (filterMap_concat_none rfl) rfl rfl fun _ => rfl
  | kernelNull =>
    obtain rfl := Option.some.inj hs
    exact h.keep (filterMap_concat_none rfl) rfl rfl fun _ => rfl
  | next =>
    rw [step, Option.ite_none_right_eq_some] at hs
    obtain ⟨c, -, rfl⟩ := Option.map_eq_some_iff.mp hs.2
    exact complete_launching h
  | handler k a =>
    rw [step] at hs
    split at hs
    · cases hs
    next x hx => exact runHandler_launching h hx hs
  | rearm =>
    rw [step] at hs
    split at hs
    next more hpc =>
      obtain rfl := Option.some.inj hs
      cases more with
      | true => exact h.keep rfl rfl rfl fun _ => rfl
      | false => exact h.keep rfl rfl rfl fun _ => rfl
    · cases hs
  | accepted =>
    rw [step] at hs
    split at hs
    · rw [Option.ite_none_right_eq_some, Option.some.injEq] at hs
      obtain ⟨-, rfl⟩ := hs
      exact h.keep rfl rfl rfl fun _ => rfl
    · cases hs
  | construct | wake | advance =>
    rw [step, Option.ite_none_right_eq_some, Option.some.injEq] at hs
    obtain ⟨-, rfl⟩ := hs
    exact h.keep rfl rfl rfl fun _ => rfl

/-! ### Whole runs -/

/-- What a run keeps. -/
structure Isolating (s : State) : Prop where
  serving : Serving s
  waiting : Waiting s
  owning : Owning s
  launching : Launching s

theorem step_isolating (h : Isolating s) (hs : step s l = some s') : Isolating s' := by
  obtain ⟨hw, ho⟩ := step_owning h.serving h.waiting h.owning hs
  exact ⟨step_serving h.serving hs, hw, ho, step_launching h.launching hs⟩

theorem run_isolating {ls : List Label} (hrun : StepSystem.run step init ls = some s) :
    Isolating s :=
  StepSystem.run_invariant (fun _ _ _ h hs => step_isolating h hs)
    ⟨serving_init, waiting_init, owning_init, launching_init⟩ hrun

/-- **The connections of a ring are isolated from one another.**  In every interleaving of the
kernel, the IO thread and the handlers, with slots that are used again at once:
completions are handled in the order in which they were posted, each once; connections are
launched in the order in which they were accepted, each once; one multishot accept is armed, or
its last completion is unhandled, or the IO thread is about to arm the next; no completion finds a
handler that does not wait for it, and a handler that waits has one operation under way; every
operation was performed on the socket of the connection that submitted it; and a slot is held only
by a connection that has a handler or is about to get one. -/
theorem reactor_isolates {ls : List Label} (hrun : StepSystem.run step init ls = some s) :
    s.posted = s.handled ++ s.unhandled ∧
      s.handled.filterMap Completion.brings ++ s.unhandled.filterMap Completion.brings =
        List.range s.nextConnection ∧
      (∀ k, (s.connection k).isSome ↔ k ∈ s.handled.filterMap Completion.brings) ∧
      (s.constructed = true →
        s.requests.count .accept + s.unhandled.countP Completion.final + s.pc.owes = 1) ∧
      s.fault = false ∧
      (∀ k, s.inFlight k = ((s.connection k).map Connection.open?).getD 0) ∧
      (∀ x ∈ s.performed, x.2 = some x.1) ∧
      (∀ k op fd, .op k op fd ∈ s.requests → s.table fd = some k) ∧
      (∀ k x, s.connection k = some x → x.phase.closes = false → s.table x.fd = some k) ∧
      ∀ f k, s.table f = some k → (∃ x, s.connection k = some x ∧ x.fd = f) ∨
        ∃ more, .accept f more k ∈ s.unhandled := by
  obtain ⟨hserv, hw, ho, hl⟩ := run_isolating hrun
  refine ⟨hserv.order, ?_, hl.launched, fun hcon => ?_, hw.fault, hw.inFlight, ho.performed,
    fun k op fd hreq => ho.request hw hreq, fun k x hx hopen => ho.owned k x hx (Or.inl hopen),
    ho.held⟩
  · rw [← List.filterMap_append, ← hserv.order]
    exact hl.brought
  · have haccept := hserv.accept
    rw [if_pos hcon] at haccept
    exact haccept

/-- The second connection gets the slot of the first one while the completion of its close is
still unhandled. -/
def reuseLabels : List Label :=
  [.construct, .kernelAccept 0 true, .wake, .next, .handler 0 (.parsed .needMoreData),
    .handler 0 (.issued .read), .accepted, .rearm, .advance, .kernelPerform 0 .read 0 0, .wake,
    .next, .handler 0 (.completed .read 0), .handler 0 (.issued .close), .advance,
    .kernelPerform 0 .close 0 0, .kernelAccept 0 false, .wake, .next, .next,
    .handler 0 (.completed .close 0), .handler 1 (.parsed (.success false)),
    .handler 1 (.issued .write), .accepted, .rearm, .advance, .kernelPerform 1 .write 0 5]

theorem reactor_isolates_reuse :
    ∃ s, StepSystem.run step init reuseLabels = some s ∧
      s.performed = [(0, some 0), (0, some 0), (1, some 1)] ∧ s.table 0 = some 1 ∧
      s.fault = false ∧ s.inFlight 0 = 0 ∧ s.inFlight 1 = 1 ∧
      s.requests.count .accept + s.unhandled.countP Completion.final + s.pc.owes = 1 := by
  obtain ⟨s, hrun, hperf, htable, hzero, hone, hcon⟩ :
      ∃ s, StepSystem.run step init reuseLabels = some s ∧
        s.performed = [(0, some 0), (0, some 0), (1, some 1)] ∧ s.table 0 = some 1 ∧
        ((s.connection 0).map Connection.open?).getD 0 = 0 ∧
        ((s.connection 1).map Connection.open?).getD 0 = 1 ∧ s.constructed = true :=
    StepSystem.exists_of_run_any (by decide +kernel)
  obtain ⟨-, -, -, harmed, hfault, hflight, -⟩ := reactor_isolates hrun
  exact ⟨s, hrun, hperf, htable, hfault, (hflight 0).trans hzero, (hflight 1).trans hone,
    harmed hcon⟩

end Reactor
