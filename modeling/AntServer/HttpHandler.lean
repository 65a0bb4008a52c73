/-
`handle_http_client` of `server.hpp`.

The handler is a coroutine: between two awaits it parses the buffer and issues
one operation, then it waits for the result.  Its phases are the places where it
waits, and `parsing`, the head of its loop; the labels of `step` are the results
that arrive, and `parse`, the part of the loop up to the next await.

* `parse_append` — a result of `parse` other than "need more" does not depend on
  what is appended to the buffer;
* `popFront_append` — nor does what is left after taking the consumed bytes.
-/
import AntServer.HttpParser
import AntServer.StepSystem

namespace HttpHandler

open HttpParser

variable {σ : Type*}

/-- `IOBuf::pop_front`: drop the first `n` bytes. -/
def popFront : ℕ → List Bytes → List Bytes
  | _, [] => []
  | n, b :: bs => if b.length ≤ n then popFront (n - b.length) bs else b.drop n :: bs

def responseBody : String := "Hello, C++20 io_uring Web Server with IOBuf & llhttp!"

def response (keepAlive : Bool) : String :=
  "HTTP/1.1 200 OK\r\n" ++
  "Server: MyAwesomeServer/1.0\r\n" ++
  "Content-Length: " ++ toString responseBody.length ++ "\r\n" ++
  "Content-Type: text/plain\r\n" ++
  "Connection: " ++ (if keepAlive then "keep-alive" else "close") ++ "\r\n" ++
  "\r\n" ++ responseBody

inductive Phase
  | parsing
  | reading
  | writing (keepAlive : Bool)
  | closing
  | returned
deriving DecidableEq, Repr

/-- The operations on `client_fd`. -/
inductive Operation
  | read
  | write (response : String)
  | close

/-- What a read brings: the blocks it appends, or a result that is not positive. -/
inductive ReadResult
  | data (blocks : List Bytes)
  | failed (code : ℤ)
deriving DecidableEq, Repr

structure State where
  phase : Phase
  readBuf : List Bytes
  -- history
  requests : List (ParseResult × HttpRequest)   -- the results `PARSE_SUCCESS`
  operations : List Operation

def init : State := ⟨.parsing, [], [], []⟩

inductive Label
  | parse
  | readDone (result : ReadResult)
  | writeDone (result : ℤ)
  | closeDone
deriving DecidableEq, Repr

def issueClose (s : State) : State :=
  { s with phase := .closing, operations := s.operations ++ [.close] }

/-- The part of the loop from `parser.parse` to the next await. -/
def parseStep (m : Llhttp σ) (s : State) : State :=
  let result := HttpParser.parse m s.readBuf
  match result.1.status with
  | .needMoreData =>
    { s with phase := .reading, operations := s.operations ++ [.read] }
  | .success =>
    { phase := .writing result.2.keepAlive
      readBuf := popFront result.1.consumedBytes s.readBuf
      requests := s.requests ++ [result]
      operations := s.operations ++ [.write (response result.2.keepAlive)] }
  | .error => issueClose s

def step (m : Llhttp σ) (s : State) : Label → Option State
  | .parse => if s.phase = .parsing then some (parseStep m s) else none
  | .readDone (.data blocks) =>
    if s.phase = .reading ∧ blocks ≠ [] ∧ ∀ b ∈ blocks, b ≠ [] then
      some { s with phase := .parsing, readBuf := s.readBuf ++ blocks }
    else none
  | .readDone (.failed code) =>
    if s.phase = .reading ∧ code ≤ 0 then some (issueClose s) else none
  | .writeDone _ =>
    -- the number of bytes written is not looked at
    match s.phase with
    | .writing true => some { s with phase := .parsing }
    | .writing false => some (issueClose s)
    | _ => none
  | .closeDone => if s.phase = .closing then some { s with phase := .returned } else none

/-! ### Appending to the buffer -/

/-- Once the loop of `parse` has stopped, later blocks are not looked at. -/
theorem parseBlocks_append {m : Llhttp σ} {s : σ} {o : Option Token} {ctx : ParserContext}
    {total : ℕ} {B : List Bytes} (hctx : ctx.req.complete = false)
    (h : (parseBlocks m s o ctx total B).1.status ≠ .needMoreData) (C : List Bytes) :
    parseBlocks m s o ctx total (B ++ C) = parseBlocks m s o ctx total B := by
  induction B generalizing s o ctx total with
  | nil =>
    rw [parseBlocks, finish, if_neg (by simp [hctx])] at h
    exact absurd rfl h
  | cons b B ih =>
    rw [List.cons_append]
    rw [parseBlocks] at h ⊢
    rw [parseBlocks]
    by_cases hb : b.isEmpty = true
    · rw [if_pos hb] at h ⊢
      rw [if_pos hb]
      exact ih hctx h
    · rw [if_neg hb] at h ⊢
      rw [if_neg hb]
      cases hexec : SpanMachine.execute m.toMachine s o b with
      | error => rfl
      | paused cs s' n => rfl
      | ok cs s' o' =>
        rw [hexec] at h
        simp only at h ⊢
        by_cases hcomp : (cs.foldl callback ctx).req.complete = true
        · rw [if_pos hcomp, if_pos hcomp]
        · rw [if_neg hcomp] at h ⊢
          rw [if_neg hcomp]
          exact ih (by simpa using hcomp) h

theorem parse_append {m : Llhttp σ} {B : List Bytes}
    (h : (HttpParser.parse m B).1.status ≠ .needMoreData) (C : List Bytes) :
    HttpParser.parse m (B ++ C) = HttpParser.parse m B :=
  parseBlocks_append rfl h C

/-- A pause comes after at least one byte, and within the block. -/
theorem execute_consumed_le {m : Llhttp σ} {s : σ} {o : Option (Token × Bytes)} {xs : Bytes}
    {cs : List (SpanMachine.Callback UInt8 Token Notice)} {s' : σ} {n : ℕ}
    (h : SpanMachine.executeFrom m.toMachine s o xs = .paused cs s' n) :
    0 < n ∧ n ≤ xs.length := by
  induction xs generalizing s o cs s' n with
  | nil => cases h
  | cons x xs ih =>
    rw [SpanMachine.executeFrom] at h
    cases hstep : m.step s x with
    | error => simp [hstep] at h
    | pause pre post s₁ =>
      simp only [hstep, SpanMachine.Result.paused.injEq] at h
      simp [← h.2.2]
    | next pre post s₁ =>
      simp only [hstep] at h
      cases hrest : SpanMachine.executeFrom m.toMachine s₁
        (SpanMachine.doActs (SpanMachine.feed x (SpanMachine.doActs o pre).1) post).1 xs with
      | ok cs' s₂ o₂ => simp [hrest, SpanMachine.Result.after] at h
      | error => simp [hrest, SpanMachine.Result.after] at h
      | paused cs' s₂ n' =>
        simp only [hrest, SpanMachine.Result.after, SpanMachine.Result.paused.injEq] at h
        obtain ⟨hpos, hle⟩ := ih hrest
        rw [List.length_cons]
        omega

@[simp] theorem finish_consumedBytes (m : Llhttp σ) (s : σ) (req : HttpRequest) (k : ℕ) :
    (finish m s req k).1.consumedBytes = k := by
  rw [finish]
  split <;> rfl

theorem parseBlocks_consumed_le (m : Llhttp σ) (s : σ) (o : Option Token) (ctx : ParserContext)
    (total : ℕ) (B : List Bytes) :
    (parseBlocks m s o ctx total B).1.consumedBytes ≤ total + B.flatten.length := by
  induction B generalizing s o ctx total with
  | nil =>
    rw [parseBlocks, finish_consumedBytes]
    exact Nat.le_add_right _ _
  | cons b B ih =>
    rw [List.flatten_cons, List.length_append, parseBlocks]
    split
    · have := ih s o ctx total
      omega
    · cases hexec : SpanMachine.execute m.toMachine s o b with
      | error => exact Nat.zero_le _
      | paused cs s' n =>
        have := (execute_consumed_le hexec).2
        simp only [finish_consumedBytes]
        omega
      | ok cs s' o' =>
        simp only
        split
        · rw [finish_consumedBytes]
          omega
        · have := ih s' o' (cs.foldl callback ctx) (total + b.length)
          omega

/-- `parse` consumes no more than there is. -/
theorem parse_consumed_le (m : Llhttp σ) (B : List Bytes) :
    (HttpParser.parse m B).1.consumedBytes ≤ B.flatten.length := by
  have := parseBlocks_consumed_le m m.start none .empty 0 B
  rw [Nat.zero_add] at this
  exact this

theorem popFront_zero {C : List Bytes} (hC : ∀ b ∈ C, b ≠ []) : popFront 0 C = C := by
  cases C with
  | nil => rfl
  | cons c C =>
    have hc : 0 < c.length := List.length_pos_iff.mpr (hC c List.mem_cons_self)
    rw [popFront, if_neg (by omega), List.drop_zero]

theorem popFront_append {n : ℕ} {B : List Bytes} (hn : n ≤ B.flatten.length) {C : List Bytes}
    (hC : ∀ b ∈ C, b ≠ []) : popFront n (B ++ C) = popFront n B ++ C := by
  induction B generalizing n with
  | nil =>
    obtain rfl : n = 0 := by simpa using hn
    rw [List.nil_append, popFront_zero hC]
    rfl
  | cons b B ih =>
    rw [List.flatten_cons, List.length_append] at hn
    rw [List.cons_append, popFront, popFront]
    split
    · exact ih (by omega)
    · rfl

theorem popFront_flatten_length (B : List Bytes) : popFront B.flatten.length B = [] := by
  induction B with
  | nil => rfl
  | cons b B ih =>
    rw [List.flatten_cons, List.length_append, popFront, if_pos (Nat.le_add_right _ _),
      Nat.add_sub_cancel_left, ih]

theorem popFront_nonempty {n : ℕ} {B : List Bytes} (hB : ∀ b ∈ B, b ≠ []) :
    ∀ b ∈ popFront n B, b ≠ [] := by
  induction B generalizing n with
  | nil => exact hB
  | cons b B ih =>
    have hB' : ∀ x ∈ B, x ≠ [] := fun x hx => hB x (List.mem_cons_of_mem b hx)
    rw [popFront]
    split
    · exact ih hB'
    next hlt =>
      intro x hx
      rcases List.mem_cons.mp hx with rfl | hx
      · rw [← List.length_pos_iff, List.length_drop]
        omega
      · exact hB' x hx

end HttpHandler
