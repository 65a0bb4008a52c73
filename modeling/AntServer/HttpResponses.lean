/-
The responses as they reach the kernel.

`handle_http_client` awaits the write of a response and drops its result.  A result may
be an error or fewer bytes than were submitted; on a keep-alive connection the
handler then goes on, and the next response follows a part of this one.

* `wireStep` — the handler with the bytes that the kernel has accepted;
* `Whole` — these bytes are complete responses, one for each request;
* `responses_whole` — so they are in every run in which a short or failed write
  belongs to a response with `Connection: close`;
* `short_write_continued` — another run.
-/
import AntServer.HttpFraming

namespace HttpHandler

open HttpParser

variable {σ : Type*}

def responseBytes (keepAlive : Bool) : Bytes := ascii (response keepAlive).toList

/-- The response to a parsed request. -/
def answer (x : ParseResult × HttpRequest) : Bytes := responseBytes x.2.keepAlive

/-! ### The handler and the kernel -/

structure Connection where
  handler : State
  accepted : Bytes

def Connection.init : Connection := ⟨HttpHandler.init, []⟩

/-- The results the kernel may give for a write: an error, or a positive number of
the bytes submitted. -/
def KernelResult : Phase → Label → Prop
  | .writing keepAlive, .writeDone n => n < 0 ∨ 1 ≤ n ∧ n ≤ (responseBytes keepAlive).length
  | _, _ => True

instance (p : Phase) (l : Label) : Decidable (KernelResult p l) := by
  unfold KernelResult
  split <;> infer_instance

/-- The bytes that the kernel has accepted when the write ends. -/
def written : Phase → Label → Bytes
  | .writing keepAlive, .writeDone n => (responseBytes keepAlive).take n.toNat
  | _, _ => []

def wireStep (m : Llhttp σ) (c : Connection) (l : Label) : Option Connection :=
  if KernelResult c.handler.phase l then
    (step m c.handler l).map fun s => ⟨s, c.accepted ++ written c.handler.phase l⟩
  else none

/-- What was accepted, by the phase of the handler: complete responses, one for each
request in order; while the last one is being written, all but that; and after the
last one, when the connection is closed, perhaps only the beginning of it. -/
def Whole (c : Connection) : Prop :=
  match c.handler.phase with
  | .parsing => c.accepted = c.handler.requests.flatMap answer
  | .reading => c.accepted = c.handler.requests.flatMap answer
  | .writing keepAlive => ∃ xs x, c.handler.requests = xs ++ [x] ∧ x.2.keepAlive = keepAlive ∧
      c.accepted = xs.flatMap answer
  | _ => c.accepted = c.handler.requests.flatMap answer ∨
      ∃ xs x p, c.handler.requests = xs ++ [x] ∧ p <+: answer x ∧ p ≠ answer x ∧
        c.accepted = xs.flatMap answer ++ p

/-- In any phase nothing but the responses in order is accepted. -/
theorem Whole.isPrefix {c : Connection} (h : Whole c) :
    c.accepted <+: c.handler.requests.flatMap answer := by
  have hlast : ∀ {xs x p}, c.handler.requests = xs ++ [x] → p <+: answer x →
      c.accepted = xs.flatMap answer ++ p → c.accepted <+: c.handler.requests.flatMap answer := by
    intro xs x p hreq hp hacc
    rw [hreq, hacc, List.flatMap_append, List.flatMap_singleton]
    exact List.prefix_append_right_inj _ |>.mpr hp
  rw [Whole] at h
  split at h
  · exact h ▸ List.prefix_rfl
  · exact h ▸ List.prefix_rfl
  · obtain ⟨xs, x, hreq, -, hacc⟩ := h
    exact hlast hreq List.nil_prefix (hacc.trans (List.append_nil _).symm)
  · rcases h with h | ⟨xs, x, p, hreq, hp, -, hacc⟩
    · exact h ▸ List.prefix_rfl
    · exact hlast hreq hp hacc

/-- **The condition**: on a keep-alive connection a write is complete. -/
def WrittenWhole (c : Connection) : Label → Prop
  | .writeDone n => c.handler.phase = .writing true → n = (responseBytes true).length
  | _ => True

instance (c : Connection) (l : Label) : Decidable (WrittenWhole c l) := by
  unfold WrittenWhole
  split <;> infer_instance

/-! ### One step -/

section Step

variable {m : Llhttp σ} {c c' : Connection}

/-- The handler's part of a step, and what the kernel accepts with it. -/
theorem wireStep_eq {l : Label} (h : wireStep m c l = some c') :
    KernelResult c.handler.phase l ∧ step m c.handler l = some c'.handler ∧
      c'.accepted = c.accepted ++ written c.handler.phase l := by
  rw [wireStep, Option.ite_none_right_eq_some, Option.map_eq_some_iff] at h
  obtain ⟨hk, s, hs, rfl⟩ := h
  exact ⟨hk, hs, rfl⟩

theorem wireStep_of_step {l : Label} {s : State} (hk : KernelResult c.handler.phase l)
    (hs : step m c.handler l = some s) :
    wireStep m c l = some ⟨s, c.accepted ++ written c.handler.phase l⟩ := by
  rw [wireStep, if_pos hk, hs, Option.map_some]

theorem written_of_not_writeDone (p : Phase) {l : Label} (hl : ∀ n, l ≠ .writeDone n) :
    written p l = [] := by
  rw [written]
  intro keepAlive n _
  exact hl n

/-- Steps other than the end of a write. -/
theorem Whole.of_accepted_eq (h : Whole c) {l : Label} (hl : ∀ n, l ≠ .writeDone n)
    (hs : step m c.handler l = some c'.handler) (hacc : c'.accepted = c.accepted) :
    Whole c' := by
  rw [Whole] at h ⊢
  rw [hacc]
  cases l with
  | writeDone n => exact absurd rfl (hl n)
  | parse =>
    simp only [step, Option.ite_none_right_eq_some, Option.some.injEq] at hs
    obtain ⟨hphase, heq⟩ := hs
    rw [hphase] at h
    simp only at h
    rw [← heq, parseStep]
    cases (HttpParser.parse m c.handler.readBuf).1.status with
    | needMoreData => exact h
    | success => exact ⟨c.handler.requests, _, rfl, rfl, h⟩
    | error => exact Or.inl h
  | readDone result =>
    cases result with
    | data blocks =>
      simp only [step, Option.ite_none_right_eq_some, Option.some.injEq] at hs
      obtain ⟨⟨hphase, -⟩, heq⟩ := hs
      rw [hphase] at h
      rw [← heq]
      exact h
    | failed code =>
      simp only [step, Option.ite_none_right_eq_some, Option.some.injEq] at hs
      obtain ⟨⟨hphase, -⟩, heq⟩ := hs
      rw [hphase] at h
      rw [← heq]
      exact Or.inl h
  | closeDone =>
    simp only [step, Option.ite_none_right_eq_some, Option.some.injEq] at hs
    obtain ⟨hphase, heq⟩ := hs
    rw [hphase] at h
    rw [← heq]
    exact h

/-- The end of a write. -/
theorem Whole.writeDone (h : Whole c) {n : ℤ} (hk : KernelResult c.handler.phase (.writeDone n))
    (hw : WrittenWhole c (.writeDone n)) (hs : step m c.handler (.writeDone n) = some c'.handler)
    (hacc : c'.accepted = c.accepted ++ written c.handler.phase (.writeDone n)) : Whole c' := by
  rw [WrittenWhole] at hw
  rw [Whole] at h ⊢
  rw [hacc]
  cases hphase : c.handler.phase with
  | writing keepAlive =>
    rw [hphase] at h hk hw
    obtain ⟨xs, x, hreq, hka, hxs⟩ := h
    have hans : answer x = responseBytes keepAlive := by rw [answer, hka]
    have hwhole : (responseBytes keepAlive).length = n.toNat →
        c.accepted ++ written (.writing keepAlive) (.writeDone n) =
          c.handler.requests.flatMap answer := by
      intro hn
      rw [written, ← hn, List.take_length, hxs, hreq, List.flatMap_append, List.flatMap_singleton,
        hans]
    simp only [step, hphase] at hs
    cases keepAlive with
    | true =>
      obtain heq := Option.some.inj hs
      rw [← heq]
      have hn := hw rfl
      exact hwhole (by omega)
    | false =>
      obtain heq := Option.some.inj hs
      rw [← heq]
      by_cases hn : (responseBytes false).length = n.toNat
      · exact Or.inl (hwhole hn)
      · refine Or.inr ⟨xs, x, (responseBytes false).take n.toNat, hreq, ?_, ?_, ?_⟩
        · rw [hans]
          exact List.take_prefix _ _
        · intro hall
          have hlen := congrArg List.length hall
          rw [hans, List.length_take] at hlen
          have hk' : n < 0 ∨ 1 ≤ n ∧ n ≤ (responseBytes false).length := hk
          omega
        · rw [hxs, written]
  | _ => simp [step, hphase] at hs

theorem wireStep_whole {l : Label} (h : Whole c) (hw : WrittenWhole c l)
    (hs : wireStep m c l = some c') : Whole c' := by
  obtain ⟨hk, hs, hacc⟩ := wireStep_eq hs
  by_cases hl : ∀ n, l ≠ .writeDone n
  · rw [written_of_not_writeDone _ hl, List.append_nil] at hacc
    exact h.of_accepted_eq hl hs hacc
  · push Not at hl
    obtain ⟨n, rfl⟩ := hl
    exact h.writeDone hk hw hs hacc

/-- A handler that closes parses and answers nothing more. -/
theorem wireStep_closing {l : Label}
    (h : c.handler.phase = .closing ∨ c.handler.phase = .returned)
    (hs : wireStep m c l = some c') :
    (c'.handler.phase = .closing ∨ c'.handler.phase = .returned) ∧
      c'.handler.requests = c.handler.requests ∧ c'.accepted = c.accepted := by
  obtain ⟨-, hs, hacc⟩ := wireStep_eq hs
  have hnone : written c.handler.phase l = [] := by
    rcases h with h | h <;> rw [h] <;> rfl
  rw [hnone, List.append_nil] at hacc
  cases l with
  | closeDone =>
    simp only [step, Option.ite_none_right_eq_some, Option.some.injEq] at hs
    rw [← hs.2]
    exact ⟨Or.inr rfl, rfl, hacc⟩
  | parse => rcases h with h | h <;> simp [step, h] at hs
  | readDone result => rcases h with h | h <;> cases result <;> simp [step, h] at hs
  | writeDone n => rcases h with h | h <;> simp [step, h] at hs

end Step

/-! ### Runs -/

/-- The write of a response ends with an error or with fewer bytes than submitted. -/
def ShortWrite (c : Connection) (n : ℤ) : Prop :=
  ∃ keepAlive, c.handler.phase = .writing keepAlive ∧ n < (responseBytes keepAlive).length

/-- After a short write under the condition the handler closes. -/
theorem ShortWrite.closing {m : Llhttp σ} {c c' : Connection} {n : ℤ} (h : ShortWrite c n)
    (hw : WrittenWhole c (.writeDone n)) (hs : wireStep m c (.writeDone n) = some c') :
    c'.handler.phase = .closing ∧ c'.handler.requests = c.handler.requests := by
  obtain ⟨keepAlive, hphase, hlt⟩ := h
  obtain ⟨-, hs, -⟩ := wireStep_eq hs
  simp only [step, hphase] at hs
  cases keepAlive with
  | true =>
    have hn := hw hphase
    omega
  | false =>
    rw [← Option.some.inj hs]
    exact ⟨rfl, rfl⟩

theorem run_closing {m : Llhttp σ} {c c' : Connection} {ls : List Label}
    (h : c.handler.phase = .closing ∨ c.handler.phase = .returned)
    (hrun : StepSystem.run (wireStep m) c ls = some c') :
    c'.handler.requests = c.handler.requests ∧ c'.accepted = c.accepted := by
  have hinv : (c'.handler.phase = .closing ∨ c'.handler.phase = .returned) ∧
      c'.handler.requests = c.handler.requests ∧ c'.accepted = c.accepted := by
    refine StepSystem.run_invariant
      (I := fun x => (x.handler.phase = .closing ∨ x.handler.phase = .returned) ∧
        x.handler.requests = c.handler.requests ∧ x.accepted = c.accepted)
      (fun x l x' hx hs => ?_) ⟨h, rfl, rfl⟩ hrun
    obtain ⟨hphase, hreq, hacc⟩ := wireStep_closing hx.1 hs
    exact ⟨hphase, hreq.trans hx.2.1, hacc.trans hx.2.2⟩
  exact hinv.2

/-- **Responses arrive whole** in every run in which a write on a keep-alive
connection is complete: what the kernel has accepted are complete responses in
request order, perhaps with the beginning of one more on a connection that is
being closed; and after a short or failed write no further request is answered and
nothing more is accepted. -/
theorem responses_whole (m : Llhttp σ) (ls : List Label) (c : Connection)
    (hrun : StepSystem.run (wireStep m) .init ls = some c)
    (hwhole : StepSystem.Meets (wireStep m) WrittenWhole .init ls) :
    Whole c ∧
      ∀ ls₁ n ls₂ c₁ c₂, ls = ls₁ ++ .writeDone n :: ls₂ →
        StepSystem.run (wireStep m) .init ls₁ = some c₁ → ShortWrite c₁ n →
        wireStep m c₁ (.writeDone n) = some c₂ →
        c.handler.requests = c₁.handler.requests ∧ c.accepted = c₂.accepted := by
  constructor
  · exact StepSystem.run_invariant_of_meets (fun c l c' h hw hs => wireStep_whole h hw hs)
      (show Whole .init from rfl) hwhole hrun
  · rintro ls₁ n ls₂ c₁ c₂ rfl hrun₁ hshort hs
    obtain ⟨hw, -⟩ := hwhole.append_right hrun₁
    obtain ⟨hphase, hreq⟩ := hshort.closing hw hs
    obtain ⟨c₁', hrun₁', hrest⟩ := StepSystem.run_append.mp hrun
    obtain rfl := Option.some.inj (hrun₁.symm.trans hrun₁')
    obtain ⟨c₂', hs', hrest⟩ := StepSystem.run_cons.mp hrest
    obtain rfl := Option.some.inj (hs.symm.trans hs')
    obtain ⟨hreq', hacc⟩ := run_closing (Or.inl hphase) hrest
    exact ⟨hreq'.trans hreq, hacc⟩

/-! ### Two requests -/

def statusLine : Bytes :=
  ascii ['H', 'T', 'T', 'P', '/', '1', '.', '1', ' ', '2', '0', '0', ' ', 'O', 'K', '\r', '\n']

theorem isPrefix_ascii_append {bs : Bytes} {s : String} (h : bs <+: ascii s.toList)
    (t : String) : bs <+: ascii (s ++ t).toList := by
  rw [String.toList_append, ascii, List.map_append]
  exact h.trans (List.prefix_append _ _)

theorem statusLine_isPrefix (keepAlive : Bool) : statusLine <+: responseBytes keepAlive := by
  unfold responseBytes response
  iterate 10 apply isPrefix_ascii_append
  decide +kernel

/-- The handler reads `GET / HTTP/1.1` and answers it; the kernel's result is `n`. -/
def serveOne (n : ℤ) : List Label :=
  [.parse, .readDone (.data [getRoot]), .parse, .writeDone n]

theorem parse_getRoot :
    (HttpParser.parse lineLlhttp [getRoot]).1.status = .success ∧
      (HttpParser.parse lineLlhttp [getRoot]).1.consumedBytes = getRoot.length ∧
      (HttpParser.parse lineLlhttp [getRoot]).2.keepAlive = true := by
  decide +kernel

/-- From the head of the loop with an empty buffer to the same, with one request more. -/
theorem run_serveOne {n : ℤ} (hn : n < 0 ∨ 1 ≤ n ∧ n ≤ (responseBytes true).length)
    (requests : List (ParseResult × HttpRequest)) (operations : List Operation)
    (accepted : Bytes) :
    StepSystem.run (wireStep lineLlhttp) ⟨⟨.parsing, [], requests, operations⟩, accepted⟩
        (serveOne n) =
      some ⟨⟨.parsing, [], requests ++ [HttpParser.parse lineLlhttp [getRoot]],
          operations ++ [.read] ++ [.write (response true)]⟩,
        accepted ++ (responseBytes true).take n.toNat⟩ := by
  obtain ⟨hsucc, hconsumed, halive⟩ := parse_getRoot
  have hread : step lineLlhttp ⟨.parsing, [], requests, operations⟩ .parse =
      some ⟨.reading, [], requests, operations ++ [.read]⟩ := rfl
  have harrive : step lineLlhttp ⟨.reading, [], requests, operations ++ [.read]⟩
        (.readDone (.data [getRoot])) =
      some ⟨.parsing, [getRoot], requests, operations ++ [.read]⟩ := rfl
  have hwrite : step lineLlhttp ⟨.parsing, [getRoot], requests, operations ++ [.read]⟩ .parse =
      some ⟨.writing true, [], requests ++ [HttpParser.parse lineLlhttp [getRoot]],
        operations ++ [.read] ++ [.write (response true)]⟩ := by
    rw [step, if_pos rfl, parseStep]
    simp only [hsucc, hconsumed, halive]
    rfl
  have hdone : ∀ rs os, step lineLlhttp ⟨.writing true, [], rs, os⟩ (.writeDone n) =
      some ⟨.parsing, [], rs, os⟩ := fun _ _ => rfl
  rw [serveOne]
  refine StepSystem.run_cons.mpr ⟨_, wireStep_of_step trivial hread, ?_⟩
  refine StepSystem.run_cons.mpr ⟨_, wireStep_of_step trivial harrive, ?_⟩
  refine StepSystem.run_cons.mpr ⟨_, wireStep_of_step trivial hwrite, ?_⟩
  refine StepSystem.run_cons.mpr ⟨_, wireStep_of_step hn (hdone _ _), ?_⟩
  simp only [written, List.append_nil]
  rfl

/-- The label of a complete write meets the condition in whatever state. -/
theorem writtenWhole_of_mem {l : Label} (hl : l ∈ serveOne (responseBytes true).length)
    (c : Connection) : WrittenWhole c l := by
  cases l with
  | writeDone n =>
    intro _
    rcases List.mem_cons.mp hl with h | hl
    · cases h
    rcases List.mem_cons.mp hl with h | hl
    · cases h
    rcases List.mem_cons.mp hl with h | hl
    · cases h
    exact Label.writeDone.inj (List.mem_singleton.mp hl)
  | _ => trivial

/-- Two requests, both answered completely. -/
theorem responses_whole_two :
    ∃ c, StepSystem.run (wireStep lineLlhttp) .init
        (serveOne (responseBytes true).length ++ serveOne (responseBytes true).length) = some c ∧
      c.accepted = responseBytes true ++ responseBytes true ∧ Whole c := by
  have hlen : 17 ≤ (responseBytes true).length := (statusLine_isPrefix true).length_le
  have hrun := StepSystem.run_append.mpr
    ⟨_, run_serveOne (n := (responseBytes true).length) (by omega) [] [] [],
      run_serveOne (n := (responseBytes true).length) (by omega) _ _ _⟩
  have hmeets : StepSystem.Meets (wireStep lineLlhttp) WrittenWhole .init
      (serveOne (responseBytes true).length ++ serveOne (responseBytes true).length) := by
    refine (StepSystem.Meets.of_forall (P := (· ∈ serveOne (responseBytes true).length))
      fun l hl => ?_).mono fun c l hl => writtenWhole_of_mem hl c
    exact (List.mem_append.mp hl).elim id id
  have hacc : [] ++ (responseBytes true).take ((responseBytes true).length : ℤ).toNat ++
      (responseBytes true).take ((responseBytes true).length : ℤ).toNat =
      responseBytes true ++ responseBytes true := by
    rw [Int.toNat_natCast, List.take_length, List.nil_append]
  exact ⟨_, hrun, hacc, (responses_whole lineLlhttp _ _ hrun hmeets).1⟩

/-- Byte 10 is the first of a response in the one, and its eleventh in the other. -/
theorem not_isPrefix_short_write :
    ¬ (responseBytes true).take 10 ++ responseBytes true <+:
      responseBytes true ++ responseBytes true := by
  obtain ⟨rest, hrest⟩ := statusLine_isPrefix true
  intro h
  have hshift : responseBytes true <+: (responseBytes true).drop 10 ++ responseBytes true := by
    rw [← List.prefix_append_right_inj ((responseBytes true).take 10), ← List.append_assoc,
      List.take_append_drop]
    exact h
  rw [← hrest] at hshift
  have hhead : byte 'H' = byte '0' := (List.cons_prefix_cons.mp hshift).1
  exact absurd hhead (by decide)

/-- **A short write is continued with the next response**: of the first response ten
bytes are accepted, the second follows them, and the handler waits for the next
request. -/
theorem short_write_continued :
    ∃ c, StepSystem.run (wireStep lineLlhttp) .init
        (serveOne 10 ++ serveOne (responseBytes true).length) = some c ∧
      c.handler.phase = .parsing ∧ c.handler.requests.length = 2 ∧
      c.accepted = (responseBytes true).take 10 ++ responseBytes true ∧
      ¬ c.accepted <+: c.handler.requests.flatMap answer := by
  have hlen : 17 ≤ (responseBytes true).length := (statusLine_isPrefix true).length_le
  have hrun := StepSystem.run_append.mpr
    ⟨_, run_serveOne (n := 10) (by omega) [] [] [],
      run_serveOne (n := (responseBytes true).length) (by omega) _ _ _⟩
  have hans : answer (HttpParser.parse lineLlhttp [getRoot]) = responseBytes true := by
    rw [answer, parse_getRoot.2.2]
  have hacc : [] ++ (responseBytes true).take (Int.toNat 10) ++
      (responseBytes true).take ((responseBytes true).length : ℤ).toNat =
      (responseBytes true).take 10 ++ responseBytes true := by
    rw [Int.toNat_natCast, List.take_length, List.nil_append]
    rfl
  refine ⟨_, hrun, rfl, rfl, hacc, fun hprefix => not_isPrefix_short_write ?_⟩
  rw [hacc, List.nil_append, List.singleton_append, List.flatMap_cons, List.flatMap_singleton,
    hans] at hprefix
  exact hprefix

end HttpHandler
