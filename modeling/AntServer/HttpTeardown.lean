/-
How a connection ends: the operations of `handle_http_client` on `client_fd`.

Here the handler is taken statement by statement, with any outcome of the parser and any
result of an operation, so that a stop request can come between any two of its actions.
A run is its own trace.  The actions of the handler in it are a run of `handler`, the
control flow of the coroutine; everything else only moves the stop state.

* `run_handler` — the handler's own actions in a run follow `handler`;
* `run_farewell` — once a connection ends, what is left of it is fixed;
* `teardown` — the trace of every run;
* `operations_of_run` — the operations of `HttpHandler` come from such a trace.
-/
import AntServer.HttpHandler

namespace HttpTeardown

/-- What `parser.parse` returns, as far as the loop looks at it. -/
inductive Outcome
  | needMoreData
  | success (keepAlive : Bool)
  | error
deriving DecidableEq, Repr

/-- The operations on `client_fd`. -/
inductive Op
  | read
  | write
  | close
deriving DecidableEq, Repr

inductive Phase
  | parsing
  | parsed (outcome : Outcome)
  | reading
  | writing (keepAlive : Bool)
  | leaving                     -- before `co_await CloseAwaiter`
  | closing
  | returned
deriving DecidableEq, Repr

inductive Label
  -- the handler
  | parsed (outcome : Outcome)
  | issued (op : Op)
  | completed (op : Op) (result : ℤ)
  -- the awaiter of the parent, the holder of the stop source and its callback
  | setStopToken
  | requestStop
  | cancel
deriving DecidableEq, Repr

/-- `handle_http_client`. -/
def handler : Phase → Label → Option Phase
  | .parsing, .parsed outcome => some (.parsed outcome)
  | .parsed .needMoreData, .issued .read => some .reading
  | .reading, .completed .read result => some (if result ≤ 0 then .leaving else .parsing)
  | .parsed (.success keepAlive), .issued .write => some (.writing keepAlive)
  -- the number of bytes written is not looked at
  | .writing keepAlive, .completed .write _ => some (if keepAlive then .parsing else .leaving)
  | .parsed .error, .issued .close => some .closing
  | .leaving, .issued .close => some .closing
  | .closing, .completed .close _ => some .returned
  | _, _ => none

structure State where
  phase : Phase
  stopPossible : Bool           -- the promise has its stop token
  stopRequested : Bool
  armed : Bool                  -- the awaiter's stop callback is registered and has not run
deriving DecidableEq, Repr

def init : State := ⟨.parsing, false, false, false⟩

/-- The stop callback of an awaiter lives from `await_suspend` to the end of the await;
`CloseAwaiter` registers none. -/
def arms (s : State) : Label → Bool
  | .issued .read => s.stopPossible
  | .issued .write => s.stopPossible
  | .completed _ _ => s.armed
  | _ => false

def step (s : State) : Label → Option State
  | .setStopToken => some { s with stopPossible := true }
  | .requestStop => some { s with stopRequested := true }
  | .cancel => if s.armed ∧ s.stopRequested then some { s with armed := false } else none
  | l => (handler s.phase l).map fun phase => { s with phase := phase, armed := arms s l }

/-! ### Traces -/

/-- The handler's own actions. -/
def Label.own : Label → Bool
  | .parsed _ | .issued _ | .completed _ _ => true
  | _ => false

def own (ls : List Label) : List Label := ls.filter Label.own

def Label.op? : Label → Option Op
  | .issued op => some op
  | _ => none

/-- The operations issued. -/
def issuedOps (ls : List Label) : List Op := ls.filterMap Label.op?

def pend (pending : List Op) : Label → List Op
  | .issued op => op :: pending
  | .completed op _ => pending.erase op
  | _ => pending

/-- The operations issued and not completed. -/
def outstanding (ls : List Label) : List Op := ls.foldl pend []

/-- The connection is to be closed. -/
def Label.ends : Label → Bool
  | .completed .read result => result ≤ 0
  | .parsed .error => true
  | .parsed (.success false) => true
  | _ => false

/-- What follows, with the results of the write and of the close. -/
def farewell (written closed : ℤ) : Label → List Label
  | .parsed (.success false) =>
    [.issued .write, .completed .write written, .issued .close, .completed .close closed]
  | _ => [.issued .close, .completed .close closed]

/-! ### The control flow -/

/-- What the handler waits for. -/
def Phase.awaits : Phase → Option Op
  | .reading => some .read
  | .writing _ => some .write
  | .closing => some .close
  | _ => none

/-- The close has been issued. -/
def Phase.closes : Phase → Bool
  | .closing | .returned => true
  | _ => false

/-- The actions of the handler, one by one. -/
inductive Moves : Phase → Label → Phase → Prop
  | parse (outcome : Outcome) : Moves .parsing (.parsed outcome) (.parsed outcome)
  | read : Moves (.parsed .needMoreData) (.issued .read) .reading
  | received (result : ℤ) (h : 0 < result) : Moves .reading (.completed .read result) .parsing
  | lost (result : ℤ) (h : result ≤ 0) : Moves .reading (.completed .read result) .leaving
  | write (keepAlive : Bool) :
    Moves (.parsed (.success keepAlive)) (.issued .write) (.writing keepAlive)
  | written (result : ℤ) : Moves (.writing true) (.completed .write result) .parsing
  | writtenLast (result : ℤ) : Moves (.writing false) (.completed .write result) .leaving
  | refuse : Moves (.parsed .error) (.issued .close) .closing
  | close : Moves .leaving (.issued .close) .closing
  | closed (result : ℤ) : Moves .closing (.completed .close result) .returned

theorem handler_moves {p p' : Phase} {l : Label} (h : handler p l = some p') : Moves p l p' := by
  unfold handler at h
  split at h
  case h_1 => cases h; exact .parse _
  case h_2 => cases h; exact .read
  case h_3 result =>
    cases h
    split
    next hle => exact .lost result hle
    next hpos => exact .received result (by omega)
  case h_4 => cases h; exact .write _
  case h_5 keepAlive result =>
    cases h
    cases keepAlive with
    | false => exact .writtenLast result
    | true => exact .written result
  case h_6 => cases h; exact .refuse
  case h_7 => cases h; exact .close
  case h_8 => cases h; exact .closed _
  case h_9 => cases h

theorem handler_own {p p' : Phase} {l : Label} (h : handler p l = some p') : l.own = true := by
  cases handler_moves h <;> rfl

/-- The operations that an action completes and issues. -/
theorem handler_pend {p p' : Phase} {l : Label} (h : handler p l = some p') :
    pend p.awaits.toList l = p'.awaits.toList := by
  cases handler_moves h <;> rfl

/-- The close comes once, and nothing is issued after it. -/
theorem handler_op {p p' : Phase} {l : Label} (h : handler p l = some p') :
    p'.closes = false ∧ p.closes = false ∧ l.op? ≠ some .close ∨
      p'.closes = true ∧ p.closes = false ∧ l.op? = some .close ∨
        p'.closes = true ∧ p.closes = true ∧ l.op? = none := by
  cases handler_moves h <;> simp [Phase.closes, Label.op?]

theorem handler_write {p p' : Phase} (h : handler p (.issued .write) = some p') :
    ∃ keepAlive, p = .parsed (.success keepAlive) := by
  cases handler_moves h with
  | write keepAlive => exact ⟨keepAlive, rfl⟩

/-- The phase after a call of the parser is reached by that call alone. -/
theorem handler_parsed {p : Phase} {l : Label} {outcome : Outcome}
    (h : handler p l = some (.parsed outcome)) : l = .parsed outcome := by
  cases handler_moves h with
  | parse => rfl

/-- Where an action that ends the connection leads. -/
theorem handler_ends {p p' : Phase} {l : Label} (h : handler p l = some p')
    (hends : l.ends = true) :
    (p' = .parsed (.success false) ∧ l = .parsed (.success false)) ∨
      (p' = .leaving ∨ p' = .parsed .error) ∧
        ∀ written closed, farewell written closed l = farewell written closed (.parsed .error) := by
  cases handler_moves h with
  | parse outcome =>
    cases outcome with
    | needMoreData => cases hends
    | error => exact Or.inr ⟨Or.inr rfl, fun _ _ => rfl⟩
    | success keepAlive =>
      cases keepAlive with
      | true => cases hends
      | false => exact Or.inl ⟨rfl, rfl⟩
  | lost => exact Or.inr ⟨Or.inl rfl, fun _ _ => rfl⟩
  | received result hpos =>
    have hle := of_decide_eq_true hends
    omega
  | read | write | written | writtenLast | refuse | close | closed => cases hends

/-! ### After the end -/

/-- **Once a connection ends, the rest of it can be run**, whatever the results are. -/
theorem run_farewell {p p' : Phase} {l : Label} (h : handler p l = some p')
    (hends : l.ends = true) (written closed : ℤ) :
    StepSystem.run handler p' (farewell written closed l) = some .returned := by
  rcases handler_ends h hends with ⟨rfl, rfl⟩ | ⟨rfl | rfl, heq⟩
  · rfl
  · rw [heq]
    rfl
  · rw [heq]
    rfl

theorem run_returned {p : Phase} {ls : List Label}
    (h : StepSystem.run handler .returned ls = some p) : ls = [] := by
  cases ls with
  | nil => rfl
  | cons l ls =>
    obtain ⟨q, hl, -⟩ := StepSystem.run_cons.mp h
    cases handler_moves hl

theorem run_closing {p : Phase} {ls : List Label}
    (h : StepSystem.run handler .closing ls = some p) :
    ∃ closed, ls <+: [.completed .close closed] := by
  cases ls with
  | nil => exact ⟨0, List.nil_prefix⟩
  | cons l ls =>
    obtain ⟨q, hl, hls⟩ := StepSystem.run_cons.mp h
    cases handler_moves hl with
    | closed result =>
      obtain rfl := run_returned hls
      exact ⟨result, List.prefix_rfl⟩

theorem run_leaving {p q : Phase} {ls : List Label} (hp : p = .leaving ∨ p = .parsed .error)
    (h : StepSystem.run handler p ls = some q) :
    ∃ closed, ls <+: [.issued .close, .completed .close closed] := by
  cases ls with
  | nil => exact ⟨0, List.nil_prefix⟩
  | cons l ls =>
    obtain ⟨r, hl, hls⟩ := StepSystem.run_cons.mp h
    have hclose : l = .issued .close ∧ r = .closing := by
      rcases hp with rfl | rfl
      · cases handler_moves hl
        exact ⟨rfl, rfl⟩
      · cases handler_moves hl
        exact ⟨rfl, rfl⟩
    obtain ⟨rfl, rfl⟩ := hclose
    obtain ⟨closed, hpre⟩ := run_closing hls
    exact ⟨closed, List.cons_prefix_cons.mpr ⟨rfl, hpre⟩⟩

theorem run_writing_false {p : Phase} {ls : List Label}
    (h : StepSystem.run handler (.writing false) ls = some p) :
    ∃ written closed,
      ls <+: [.completed .write written, .issued .close, .completed .close closed] := by
  cases ls with
  | nil => exact ⟨0, 0, List.nil_prefix⟩
  | cons l ls =>
    obtain ⟨q, hl, hls⟩ := StepSystem.run_cons.mp h
    cases handler_moves hl with
    | writtenLast result =>
      obtain ⟨closed, hpre⟩ := run_leaving (Or.inl rfl) hls
      exact ⟨result, closed, List.cons_prefix_cons.mpr ⟨rfl, hpre⟩⟩

/-- **Once a connection ends, nothing else follows.** -/
theorem prefix_farewell {p p' q : Phase} {l : Label} {ls : List Label}
    (h : handler p l = some p') (hends : l.ends = true)
    (hls : StepSystem.run handler p' ls = some q) :
    ∃ written closed, ls <+: farewell written closed l := by
  rcases handler_ends h hends with ⟨rfl, rfl⟩ | ⟨hp, heq⟩
  · cases ls with
    | nil => exact ⟨0, 0, List.nil_prefix⟩
    | cons l ls =>
      obtain ⟨r, hl, hls⟩ := StepSystem.run_cons.mp hls
      cases handler_moves hl with
      | write =>
        obtain ⟨written, closed, hpre⟩ := run_writing_false hls
        exact ⟨written, closed, List.cons_prefix_cons.mpr ⟨rfl, hpre⟩⟩
  · obtain ⟨closed, hpre⟩ := run_leaving hp hls
    exact ⟨0, closed, (heq 0 closed).symm ▸ hpre⟩

/-! ### Whole runs -/

/-- A step is an action of the handler, or leaves the handler where it is. -/
theorem step_handler {s s' : State} {l : Label} (hs : step s l = some s') :
    l.own = true ∧ handler s.phase l = some s'.phase ∨ l.own = false ∧ s'.phase = s.phase := by
  cases l with
  | setStopToken =>
    cases hs
    exact Or.inr ⟨rfl, rfl⟩
  | requestStop =>
    cases hs
    exact Or.inr ⟨rfl, rfl⟩
  | cancel =>
    obtain ⟨-, heq⟩ := Option.ite_none_right_eq_some.mp hs
    cases heq
    exact Or.inr ⟨rfl, rfl⟩
  | parsed | issued | completed =>
    obtain ⟨phase, hphase, rfl⟩ := Option.map_eq_some_iff.mp hs
    exact Or.inl ⟨rfl, hphase⟩

theorem step_of_handler {s : State} {l : Label} {p : Phase} (h : handler s.phase l = some p) :
    ∃ s', step s l = some s' ∧ s'.phase = p := by
  refine ⟨{ s with phase := p, armed := arms s l }, ?_, rfl⟩
  have hown : l.own = true := handler_own h
  cases l with
  | parsed | issued | completed => exact Option.map_eq_some_iff.mpr ⟨_, h, rfl⟩
  | setStopToken | requestStop | cancel => cases hown

theorem run_of_handler {s : State} {ls : List Label} {p : Phase}
    (h : StepSystem.run handler s.phase ls = some p) :
    ∃ s', StepSystem.run step s ls = some s' ∧ s'.phase = p := by
  induction ls generalizing s with
  | nil => exact ⟨s, rfl, Option.some.inj h⟩
  | cons l ls ih =>
    obtain ⟨q, hl, hls⟩ := StepSystem.run_cons.mp h
    obtain ⟨s₁, hs₁, rfl⟩ := step_of_handler hl
    obtain ⟨s', hs', hp⟩ := ih hls
    exact ⟨s', StepSystem.run_cons.mpr ⟨s₁, hs₁, hs'⟩, hp⟩

/-- What a trace `ls` that leads to `s` says. -/
structure Traced (ls : List Label) (s : State) : Prop where
  control : StepSystem.run handler .parsing (own ls) = some s.phase
  pending : outstanding ls = s.phase.awaits.toList
  unclosed : s.phase.closes = false → .close ∉ issuedOps ls
  closed : s.phase.closes = true → ∃ ops, issuedOps ls = ops ++ [.close] ∧ .close ∉ ops

theorem own_concat (ls : List Label) (l : Label) :
    own (ls ++ [l]) = own ls ++ [l].filter Label.own :=
  List.filter_append ..

theorem outstanding_concat (ls : List Label) (l : Label) :
    outstanding (ls ++ [l]) = pend (outstanding ls) l :=
  List.foldl_append ..

theorem issuedOps_concat (ls : List Label) (l : Label) :
    issuedOps (ls ++ [l]) = issuedOps ls ++ l.op?.toList := by
  rw [issuedOps, List.filterMap_append]
  cases h : l.op? with
  | none => simp [issuedOps, h]
  | some op => simp [issuedOps, h]

/-- **Step lemma.** -/
theorem Traced.step {ls : List Label} {s s' : State} {l : Label} (h : Traced ls s)
    (hs : step s l = some s') : Traced (ls ++ [l]) s' := by
  rcases step_handler hs with ⟨hown, hl⟩ | ⟨hown, hphase⟩
  · have hops := handler_op hl
    refine ⟨?_, ?_, fun hclose hmem => ?_, fun hclose => ?_⟩
    · rw [own_concat, List.filter_cons_of_pos hown, List.filter_nil]
      exact StepSystem.run_concat.mpr ⟨s.phase, h.control, hl⟩
    · rw [outstanding_concat, h.pending]
      exact handler_pend hl
    · rw [issuedOps_concat, List.mem_append, Option.mem_toList] at hmem
      rcases hops with ⟨-, hopen, hop⟩ | ⟨hclosed, -⟩ | ⟨hclosed, -⟩
      · exact hmem.elim (h.unclosed hopen) hop
      · cases hclosed.symm.trans hclose
      · cases hclosed.symm.trans hclose
    · rw [issuedOps_concat]
      rcases hops with ⟨hopen, -⟩ | ⟨-, hopen, hop⟩ | ⟨-, hclosed, hop⟩
      · cases hopen.symm.trans hclose
      · rw [hop]
        exact ⟨_, rfl, h.unclosed hopen⟩
      · rw [hop, Option.toList_none, List.append_nil]
        exact h.closed hclosed
  · -- a move of the stop state
    have hpend : pend (outstanding ls) l = outstanding ls := by
      cases l <;> first | rfl | cases hown
    have hop : l.op? = none := by
      cases l <;> first | rfl | cases hown
    refine ⟨?_, ?_, ?_, ?_⟩
    · rw [own_concat, List.filter_cons_of_neg (by simp [hown]), List.filter_nil,
        List.append_nil, hphase]
      exact h.control
    · rw [outstanding_concat, hpend, hphase]
      exact h.pending
    · rw [issuedOps_concat, hop, Option.toList_none, List.append_nil, hphase]
      exact h.unclosed
    · rw [issuedOps_concat, hop, Option.toList_none, List.append_nil, hphase]
      exact h.closed

/-- **Run lemma.** -/
theorem traced_run {ls : List Label} {s : State} (hrun : StepSystem.run step init ls = some s) :
    Traced ls s := by
  refine StepSystem.run_induction (R := Traced) ?_ (fun _ _ _ _ h hs => h.step hs) hrun
  exact ⟨rfl, rfl, fun _ => List.not_mem_nil, fun h => by cases h⟩

theorem Traced.write {ls : List Label} {s : State} (h : Traced ls s) {a b : List Label}
    (heq : own ls = a ++ .issued .write :: b) :
    ∃ keepAlive, a.getLast? = some (.parsed (.success keepAlive)) := by
  have hown := h.control
  rw [heq] at hown
  obtain ⟨p, hp, hrest⟩ := StepSystem.run_append.mp hown
  obtain ⟨q, hwrite, -⟩ := StepSystem.run_cons.mp hrest
  obtain ⟨keepAlive, rfl⟩ := handler_write hwrite
  refine ⟨keepAlive, ?_⟩
  rcases List.eq_nil_or_concat' a with rfl | ⟨a', l, rfl⟩
  · cases hp
  · obtain ⟨q, -, hlast⟩ := StepSystem.run_concat.mp hp
    rw [handler_parsed hlast]
    exact List.getLast?_concat

theorem Traced.returned {ls : List Label} {s : State} (h : Traced ls s) :
    s.phase = .returned ↔
      ∃ ops, issuedOps ls = ops ++ [.close] ∧ .close ∉ ops ∧ outstanding ls = [] := by
  constructor
  · intro hphase
    obtain ⟨ops, hops, hclose⟩ := h.closed (by rw [hphase]; rfl)
    exact ⟨ops, hops, hclose, by rw [h.pending, hphase]; rfl⟩
  · rintro ⟨ops, hops, -, hnone⟩
    have hmem : Op.close ∈ issuedOps ls := by simp [hops]
    rw [h.pending] at hnone
    -- the close has been issued, and the handler does not wait for it
    cases hphase : s.phase with
    | returned => rfl
    | closing =>
      rw [hphase] at hnone
      cases hnone
    | parsing | parsed | reading | writing | leaving =>
      exact absurd hmem (h.unclosed (by rw [hphase]; rfl))

theorem Traced.ended {ls : List Label} {s : State} (h : Traced ls s) {a b : List Label}
    {l : Label} (heq : own ls = a ++ l :: b) (hends : l.ends = true) :
    (∃ written closed, b <+: farewell written closed l) ∧
      ∀ written closed rest, farewell written closed l = b ++ rest →
        ∃ s', StepSystem.run HttpTeardown.step s rest = some s' ∧ s'.phase = .returned := by
  have hown := h.control
  rw [heq] at hown
  obtain ⟨p, -, hrest⟩ := StepSystem.run_append.mp hown
  obtain ⟨p', hl, hb⟩ := StepSystem.run_cons.mp hrest
  refine ⟨prefix_farewell hl hends hb, fun written closed rest hfare => ?_⟩
  have hrun := run_farewell hl hends written closed
  rw [hfare] at hrun
  obtain ⟨q, hq, hrun⟩ := StepSystem.run_append.mp hrun
  obtain rfl : q = s.phase := Option.some.inj (hq.symm.trans hb)
  exact run_of_handler hrun

/-- No read comes after the end. -/
theorem read_notMem_farewell (written closed : ℤ) (l : Label) :
    .issued .read ∉ farewell written closed l := by
  unfold farewell
  split <;> simp

/-- **Connection teardown.**  In every run, with stop requests at any point: at most one
operation is outstanding; a write comes directly after a `PARSE_SUCCESS`; the handler has
returned if and only if it has issued exactly one close, as its last operation, and that
has completed; and after a failed read, a parse error or a request without keep-alive no
read is issued, and what is left leads to the close and to the return. -/
theorem teardown (ls : List Label) (s : State) (hrun : StepSystem.run step init ls = some s) :
    (outstanding ls).length ≤ 1 ∧
      (∀ a b, own ls = a ++ .issued .write :: b →
        ∃ keepAlive, a.getLast? = some (.parsed (.success keepAlive))) ∧
      (s.phase = .returned ↔
        ∃ ops, issuedOps ls = ops ++ [.close] ∧ .close ∉ ops ∧ outstanding ls = []) ∧
      ∀ a l b, own ls = a ++ l :: b → l.ends = true →
        .issued .read ∉ b ∧
        (∃ written closed, b <+: farewell written closed l) ∧
        ∀ written closed rest, farewell written closed l = b ++ rest →
          ∃ s', StepSystem.run step s rest = some s' ∧ s'.phase = .returned := by
  have h := traced_run hrun
  refine ⟨?_, fun a b heq => h.write heq, h.returned, fun a l b heq hends => ?_⟩
  · rw [h.pending]
    cases s.phase.awaits with
    | none => exact Nat.zero_le 1
    | some op => exact le_rfl
  · obtain ⟨⟨written, closed, hpre⟩, hrest⟩ := h.ended heq hends
    exact ⟨fun hmem => read_notMem_farewell written closed l (hpre.subset hmem),
      ⟨written, closed, hpre⟩, hrest⟩

/-- A request, then a read that a stop request cancels. -/
theorem teardown_canceled_read :
    ∃ s, StepSystem.run step init
        [.parsed .needMoreData, .issued .read, .setStopToken, .completed .read 40,
          .parsed (.success true), .issued .write, .completed .write 190,
          .parsed .needMoreData, .issued .read, .requestStop, .cancel, .completed .read (-125),
          .issued .close, .completed .close 0] = some s ∧
      s.phase = .returned ∧
      ∃ ops : List Op, ops ++ [.close] = [.read, .write, .read, .close] ∧ .close ∉ ops := by
  have hrun : ∃ s, StepSystem.run step init
        [.parsed .needMoreData, .issued .read, .setStopToken, .completed .read 40,
          .parsed (.success true), .issued .write, .completed .write 190,
          .parsed .needMoreData, .issued .read, .requestStop, .cancel, .completed .read (-125),
          .issued .close, .completed .close 0] = some s ∧ s.phase = .returned :=
    StepSystem.exists_of_run_any (by decide +kernel)
  obtain ⟨s, hs, hphase⟩ := hrun
  obtain ⟨-, -, hreturned, -⟩ := teardown _ s hs
  obtain ⟨ops, hops, hclose, -⟩ := hreturned.mp hphase
  exact ⟨s, hs, hphase, ops, hops.symm, hclose⟩

/-! ### The handler with its buffer and parser -/

section Refines

open HttpParser

variable {σ : Type*} {m : Llhttp σ} {s s' : HttpHandler.State}

/-- The operations without the text that is written. -/
def opOf : HttpHandler.Operation → Op
  | .read => .read
  | .write _ => .write
  | .close => .close

def phaseOf : HttpHandler.Phase → Phase
  | .parsing => .parsing
  | .reading => .reading
  | .writing keepAlive => .writing keepAlive
  | .closing => .closing
  | .returned => .returned

/-- A step of `HttpHandler` is one or two actions here, with the same operations. -/
theorem actions_of_step {l : HttpHandler.Label} (hs : HttpHandler.step m s l = some s') :
    ∃ ls, StepSystem.run handler (phaseOf s.phase) ls = some (phaseOf s'.phase) ∧
      s'.operations.map opOf = s.operations.map opOf ++ issuedOps ls := by
  cases l with
  | parse =>
    obtain ⟨hphase, heq⟩ := Option.ite_none_right_eq_some.mp hs
    cases heq
    rw [hphase, HttpHandler.parseStep]
    cases hstatus : (HttpParser.parse m s.readBuf).1.status with
    | needMoreData => exact ⟨[.parsed .needMoreData, .issued .read], rfl, List.map_append⟩
    | success =>
      exact ⟨[.parsed (.success (HttpParser.parse m s.readBuf).2.keepAlive), .issued .write],
        rfl, List.map_append⟩
    | error => exact ⟨[.parsed .error, .issued .close], rfl, List.map_append⟩
  | readDone result =>
    cases result with
    | data blocks =>
      obtain ⟨⟨hphase, hne, hblocks⟩, heq⟩ := Option.ite_none_right_eq_some.mp hs
      cases heq
      -- the result of the read is the number of bytes it brings
      have hpos : 0 < blocks.flatten.length := by
        obtain ⟨b, bs, rfl⟩ := List.exists_cons_of_ne_nil hne
        have hb : 0 < b.length := List.length_pos_iff.mpr (hblocks b List.mem_cons_self)
        rw [List.flatten_cons, List.length_append]
        omega
      have hdata : handler .reading (.completed .read blocks.flatten.length) = some .parsing :=
        congrArg some (if_neg (by omega))
      refine ⟨[.completed .read blocks.flatten.length], ?_, (List.append_nil _).symm⟩
      rw [hphase]
      exact StepSystem.run_cons.mpr ⟨_, hdata, rfl⟩
    | failed code =>
      obtain ⟨⟨hphase, hcode⟩, heq⟩ := Option.ite_none_right_eq_some.mp hs
      cases heq
      refine ⟨[.completed .read code, .issued .close], ?_, List.map_append⟩
      rw [hphase]
      have hlost : handler .reading (.completed .read code) = some .leaving :=
        congrArg some (if_pos hcode)
      exact StepSystem.run_cons.mpr ⟨_, hlost, rfl⟩
  | writeDone result =>
    rw [HttpHandler.step] at hs
    split at hs
    next hphase =>
      cases hs
      rw [hphase]
      exact ⟨[.completed .write result], rfl, (List.append_nil _).symm⟩
    next hphase =>
      cases hs
      rw [hphase]
      exact ⟨[.completed .write result, .issued .close], rfl, List.map_append⟩
    next => cases hs
  | closeDone =>
    obtain ⟨hphase, heq⟩ := Option.ite_none_right_eq_some.mp hs
    cases heq
    rw [hphase]
    exact ⟨[.completed .close 0], rfl, (List.append_nil _).symm⟩

/-- **The operations of `HttpHandler` are those of a trace.** -/
theorem operations_of_run {ls : List HttpHandler.Label}
    (hrun : StepSystem.run (HttpHandler.step m) HttpHandler.init ls = some s) :
    ∃ ls' t, StepSystem.run step init ls' = some t ∧ t.phase = phaseOf s.phase ∧
      s.operations.map opOf = issuedOps ls' := by
  have key : ∃ ls', StepSystem.run handler .parsing ls' = some (phaseOf s.phase) ∧
      s.operations.map opOf = issuedOps ls' := by
    refine StepSystem.run_invariant (I := fun s => ∃ ls',
      StepSystem.run handler .parsing ls' = some (phaseOf s.phase) ∧
        s.operations.map opOf = issuedOps ls') ?_ ⟨[], rfl, rfl⟩ hrun
    rintro s l s' ⟨ls₁, hrun₁, hops₁⟩ hs
    obtain ⟨ls₂, hrun₂, hops₂⟩ := actions_of_step hs
    refine ⟨ls₁ ++ ls₂, StepSystem.run_append.mpr ⟨_, hrun₁, hrun₂⟩, ?_⟩
    rw [hops₂, hops₁]
    exact List.filterMap_append.symm
  obtain ⟨ls', hrun', hops⟩ := key
  obtain ⟨t, ht, hphase⟩ := run_of_handler (s := init) hrun'
  exact ⟨ls', t, ht, hphase, hops⟩

end Refines

end HttpTeardown
