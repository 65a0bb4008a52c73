/-
Incremental lexers that report tokens in fragments.

A `Machine` reads symbols one by one and, before and after a symbol, may start a
span, stop it, or call a notice; a notice, or the start of another span, stops
the open span.  The input comes in blocks.  `execute` runs the machine on one
block and gives the callbacks in order: a span is reported when it stops, and a
span still open at the end of the block is reported as far as it has come; the
next block starts with an empty fragment.

* `lexBlocks` — the tokens of a divided input, each with its list of fragments;
* `executeBlocks_eq` — the callbacks of `execute`, block by block, are the
  fragments of the tokens in order;
* `lexBlocks_joined` — the tokens themselves do not depend on the division;
* `executeFrom_of_unpaused` — a pause behind the last symbol changes no callback;
* `cutBefore_eq` — how much of a token came before its last fragment, told from
  what is open at the block boundaries.
-/
import Mathlib

namespace SpanMachine

variable {α T N σ : Type*}

inductive Act (T N : Type*)
  | start (t : T)
  | stop
  | notice (n : N)
deriving DecidableEq, Repr

/-- What the machine does with a symbol: the acts before and after it. -/
inductive Outcome (T N σ : Type*)
  | next (pre post : List (Act T N)) (s : σ)
  | pause (pre post : List (Act T N)) (s : σ)   -- stop after this symbol
  | error

structure Machine (α T N σ : Type*) where
  start : σ
  step : σ → α → Outcome T N σ

inductive Callback (α T N : Type*)
  | data (t : T) (xs : List α)
  | notice (n : N)
deriving DecidableEq, Repr

/-! ### Running the machine on a block -/

/-- The callback for an open span. -/
def flush : Option (T × List α) → List (Callback α T N)
  | none => []
  | some (t, xs) => [.data t xs]

def doAct (o : Option (T × List α)) : Act T N → Option (T × List α) × List (Callback α T N)
  | .start t => (some (t, []), flush o)
  | .stop => (none, flush o)
  | .notice n => (none, flush o ++ [.notice n])

def doActs (o : Option (T × List α)) :
    List (Act T N) → Option (T × List α) × List (Callback α T N)
  | [] => (o, [])
  | a :: as =>
    let r := doAct o a
    let r' := doActs r.1 as
    (r'.1, r.2 ++ r'.2)

/-- The symbol `x` is added to the open span. -/
def feed (x : α) (o : Option (T × List α)) : Option (T × List α) :=
  o.map fun p => (p.1, p.2 ++ [x])

inductive Result (α T N σ : Type*)
  | ok (cs : List (Callback α T N)) (s : σ) (open_ : Option T)
  | paused (cs : List (Callback α T N)) (s : σ) (consumed : ℕ)
  | error

/-- The result of a run that first consumed `k` symbols with the callbacks `cs`. -/
def Result.after (k : ℕ) (cs : List (Callback α T N)) : Result α T N σ → Result α T N σ
  | .ok cs' s o => .ok (cs ++ cs') s o
  | .paused cs' s n => .paused (cs ++ cs') s (k + n)
  | .error => .error

/-- Run the machine on the symbols of a block. -/
def executeFrom (m : Machine α T N σ) : σ → Option (T × List α) → List α → Result α T N σ
  | s, o, [] => .ok (flush o) s (o.map Prod.fst)
  | s, o, x :: xs =>
    match m.step s x with
    | .next pre post s' =>
      let a := doActs o pre
      let b := doActs (feed x a.1) post
      (executeFrom m s' b.1 xs).after 1 (a.2 ++ b.2)
    | .pause pre post s' =>
      let a := doActs o pre
      let b := doActs (feed x a.1) post
      .paused (a.2 ++ b.2) s' 1
    | .error => .error

/-- Run the machine on a block; `o` is the span left open by the block before. -/
def execute (m : Machine α T N σ) (s : σ) (o : Option T) (block : List α) : Result α T N σ :=
  executeFrom m s (o.map fun t => (t, [])) block

/-! ### Tokens -/

/-- A span with the fragments in which it came, the last one apart, or a notice. -/
inductive Entry (α T N : Type*)
  | span (t : T) (done : List (List α)) (last : List α)
  | notice (n : N)
deriving DecidableEq, Repr

/-- An open span: the fragments of the blocks before, and what the present block
has added. -/
structure OpenSpan (α T : Type*) where
  token : T
  done : List (List α)
  cur : List α
deriving DecidableEq, Repr

def close : Option (OpenSpan α T) → List (Entry α T N)
  | none => []
  | some o => [.span o.token o.done o.cur]

def lexAct (o : Option (OpenSpan α T)) : Act T N → Option (OpenSpan α T) × List (Entry α T N)
  | .start t => (some ⟨t, [], []⟩, close o)
  | .stop => (none, close o)
  | .notice n => (none, close o ++ [.notice n])

def lexActs (o : Option (OpenSpan α T)) :
    List (Act T N) → Option (OpenSpan α T) × List (Entry α T N)
  | [] => (o, [])
  | a :: as =>
    let r := lexAct o a
    let r' := lexActs r.1 as
    (r'.1, r.2 ++ r'.2)

def OpenSpan.feed (x : α) (o : OpenSpan α T) : OpenSpan α T := { o with cur := o.cur ++ [x] }

/-- The tokens of a block; `none` if the machine stops in it. -/
def lex (m : Machine α T N σ) :
    σ → Option (OpenSpan α T) → List α → Option (List (Entry α T N) × σ × Option (OpenSpan α T))
  | s, o, [] => some ([], s, o)
  | s, o, x :: xs =>
    match m.step s x with
    | .next pre post s' =>
      let a := lexActs o pre
      let b := lexActs (a.1.map (OpenSpan.feed x)) post
      (lex m s' b.1 xs).map fun r => (a.2 ++ b.2 ++ r.1, r.2)
    | .pause _ _ _ => none
    | .error => none

/-- A new block: what the old one added becomes a fragment. -/
def OpenSpan.cut (o : OpenSpan α T) : OpenSpan α T :=
  { o with done := o.done ++ [o.cur], cur := [] }

def lexBlocks (m : Machine α T N σ) : σ → Option (OpenSpan α T) → List (List α) →
    Option (List (Entry α T N) × σ × Option (OpenSpan α T))
  | s, o, [] => some ([], s, o)
  | s, o, b :: bs =>
    (lex m s o b).bind fun r =>
      (lexBlocks m r.2.1 (r.2.2.map OpenSpan.cut) bs).map fun r' => (r.1 ++ r'.1, r'.2)

/-! ### The callbacks are the fragments -/

def Entry.callbacks : Entry α T N → List (Callback α T N)
  | .span t done last => (done ++ [last]).map (.data t)
  | .notice n => [.notice n]

/-- The callbacks already made for an open span. -/
def reported : Option (OpenSpan α T) → List (Callback α T N)
  | none => []
  | some o => o.done.map (.data o.token)

/-- The part of an open span that `execute` knows. -/
def present (o : Option (OpenSpan α T)) : Option (T × List α) :=
  o.map fun o => (o.token, o.cur)

theorem present_feed (x : α) (o : Option (OpenSpan α T)) :
    present (o.map (OpenSpan.feed x)) = feed x (present o) := by
  cases o <;> rfl

theorem reported_feed (x : α) (o : Option (OpenSpan α T)) :
    reported (N := N) (o.map (OpenSpan.feed x)) = reported o := by
  cases o <;> rfl

theorem reported_flush (o : Option (OpenSpan α T)) :
    reported (N := N) o ++ flush (present o) = (close o).flatMap Entry.callbacks := by
  cases o with
  | none => rfl
  | some o => simp [reported, flush, present, close, Entry.callbacks]

theorem doAct_lexAct (o : Option (OpenSpan α T)) (a : Act T N) :
    (doAct (present o) a).1 = present (lexAct o a).1 ∧
      reported o ++ (doAct (present o) a).2 =
        (lexAct o a).2.flatMap Entry.callbacks ++ reported (lexAct o a).1 := by
  have hflush := reported_flush (N := N) o
  cases a with
  | start t => exact ⟨rfl, by simpa [doAct, lexAct, reported] using hflush⟩
  | stop => exact ⟨rfl, by simpa [doAct, lexAct, reported] using hflush⟩
  | notice n =>
    refine ⟨rfl, ?_⟩
    simp only [doAct, lexAct, reported, List.flatMap_append, List.append_nil, ← hflush]
    simp [Entry.callbacks]

theorem doActs_lexActs (o : Option (OpenSpan α T)) (as : List (Act T N)) :
    (doActs (present o) as).1 = present (lexActs o as).1 ∧
      reported o ++ (doActs (present o) as).2 =
        (lexActs o as).2.flatMap Entry.callbacks ++ reported (lexActs o as).1 := by
  induction as generalizing o with
  | nil => exact ⟨rfl, by simp [doActs, lexActs]⟩
  | cons a as ih =>
    obtain ⟨h₁, h₂⟩ := doAct_lexAct o a
    obtain ⟨ih₁, ih₂⟩ := ih (lexAct o a).1
    rw [← h₁] at ih₁ ih₂
    refine ⟨ih₁, ?_⟩
    simp only [doActs, lexActs, List.flatMap_append]
    rw [← List.append_assoc, h₂, List.append_assoc, ih₂, List.append_assoc]

theorem Result.after_zero (r : Result α T N σ) : r.after 0 [] = r := by
  cases r with
  | ok cs s o => rfl
  | paused cs s n => simp [Result.after]
  | error => rfl

theorem Result.after_after (k k' : ℕ) (cs cs' : List (Callback α T N)) (r : Result α T N σ) :
    (r.after k' cs').after k cs = r.after (k + k') (cs ++ cs') := by
  cases r with
  | ok cs'' s o => simp [Result.after]
  | paused cs'' s n => simp [Result.after, Nat.add_assoc]
  | error => rfl

/-- A run over `xs ++ ys` that gets through `xs` goes on with `ys`; by then it
has reported the tokens of `xs`. -/
theorem executeFrom_append {m : Machine α T N σ} {s s' : σ} {o o' : Option (OpenSpan α T)}
    {xs : List α} {es : List (Entry α T N)} (h : lex m s o xs = some (es, s', o'))
    (ys : List α) :
    ∃ cs, executeFrom m s (present o) (xs ++ ys) =
        (executeFrom m s' (present o') ys).after xs.length cs ∧
      reported o ++ cs = es.flatMap Entry.callbacks ++ reported o' := by
  induction xs generalizing s o es with
  | nil =>
    cases h
    exact ⟨[], (Result.after_zero _).symm, by simp⟩
  | cons x xs ih =>
    rw [lex] at h
    rw [List.cons_append, executeFrom]
    cases hstep : m.step s x with
    | error => simp [hstep] at h
    | pause pre post s₁ => simp [hstep] at h
    | next pre post s₁ =>
      simp only [hstep, Option.map_eq_some_iff] at h
      obtain ⟨⟨es₁, s₂, o₂⟩, hlex, heq⟩ := h
      cases heq
      obtain ⟨cs, hcs, hrep⟩ := ih hlex
      -- the acts before and after the symbol
      obtain ⟨hpre, hpre'⟩ := doActs_lexActs o pre
      obtain ⟨hpost, hpost'⟩ :=
        doActs_lexActs ((lexActs o pre).1.map (OpenSpan.feed x)) post
      rw [present_feed, ← hpre] at hpost hpost'
      rw [reported_feed] at hpost'
      rw [← hpost] at hcs
      simp only
      rw [hcs, Result.after_after, Nat.add_comm]
      refine ⟨_, rfl, ?_⟩
      simp only [List.flatMap_append, List.append_assoc]
      rw [← List.append_assoc, hpre', List.append_assoc]
      congr 1
      rw [← List.append_assoc, hpost', List.append_assoc, hrep]

theorem present_cut (o : Option (OpenSpan α T)) :
    present (o.map OpenSpan.cut) = (o.map OpenSpan.token).map fun t => (t, []) := by
  cases o <;> rfl

theorem reported_cut (o : Option (OpenSpan α T)) :
    reported (N := N) (o.map OpenSpan.cut) = reported o ++ flush (present o) := by
  cases o with
  | none => rfl
  | some o => simp [reported, flush, present, OpenSpan.cut]

/-- A block that the machine gets through. -/
theorem execute_eq {m : Machine α T N σ} {s s' : σ} {o o' : Option (OpenSpan α T)}
    {xs : List α} {es : List (Entry α T N)}
    (h : lex m s (o.map OpenSpan.cut) xs = some (es, s', o')) :
    ∃ cs, execute m s (o.map OpenSpan.token) xs = .ok cs s' (o'.map OpenSpan.token) ∧
      reported (o.map OpenSpan.cut) ++ cs =
        es.flatMap Entry.callbacks ++ reported (o'.map OpenSpan.cut) := by
  obtain ⟨cs, hcs, hrep⟩ := executeFrom_append h []
  rw [List.append_nil, present_cut] at hcs
  refine ⟨cs ++ flush (present o'), ?_, ?_⟩
  · rw [execute, hcs, executeFrom, Result.after]
    cases o' <;> rfl
  · rw [← List.append_assoc, hrep, reported_cut, List.append_assoc]

/-! ### The tokens do not depend on the division -/

/-- The token in one piece. -/
def Entry.join : Entry α T N → Entry α T N
  | .span t done last => .span t [] (done ++ [last]).flatten
  | .notice n => .notice n

def OpenSpan.join (o : OpenSpan α T) : OpenSpan α T :=
  ⟨o.token, [], (o.done ++ [o.cur]).flatten⟩

def joinAll (r : List (Entry α T N) × σ × Option (OpenSpan α T)) :
    List (Entry α T N) × σ × Option (OpenSpan α T) :=
  (r.1.map Entry.join, r.2.1, r.2.2.map OpenSpan.join)

theorem close_join (o : Option (OpenSpan α T)) :
    close (N := N) (o.map OpenSpan.join) = (close o).map Entry.join := by
  cases o <;> rfl

theorem lexAct_join (o : Option (OpenSpan α T)) (a : Act T N) :
    lexAct (o.map OpenSpan.join) a =
      ((lexAct o a).1.map OpenSpan.join, (lexAct o a).2.map Entry.join) := by
  cases a with
  | start t => simp [lexAct, close_join, OpenSpan.join]
  | stop => simp [lexAct, close_join]
  | notice n => simp [lexAct, close_join, Entry.join]

theorem lexActs_join (o : Option (OpenSpan α T)) (as : List (Act T N)) :
    lexActs (o.map OpenSpan.join) as =
      ((lexActs o as).1.map OpenSpan.join, (lexActs o as).2.map Entry.join) := by
  induction as generalizing o with
  | nil => rfl
  | cons a as ih => simp only [lexActs, lexAct_join, ih, List.map_append]

theorem map_feed_join (x : α) (o : Option (OpenSpan α T)) :
    (o.map OpenSpan.join).map (OpenSpan.feed x) = (o.map (OpenSpan.feed x)).map OpenSpan.join := by
  cases o with
  | none => rfl
  | some o => simp [OpenSpan.join, OpenSpan.feed]

theorem lex_join (m : Machine α T N σ) (s : σ) (o : Option (OpenSpan α T)) (xs : List α) :
    lex m s (o.map OpenSpan.join) xs = (lex m s o xs).map joinAll := by
  induction xs generalizing s o with
  | nil => rfl
  | cons x xs ih =>
    rw [lex, lex]
    cases m.step s x with
    | error => rfl
    | pause pre post s₁ => rfl
    | next pre post s₁ =>
      simp only [lexActs_join, map_feed_join, ih]
      rw [Option.map_map, Option.map_map]
      congr 1
      funext r
      simp [joinAll]

theorem lex_append (m : Machine α T N σ) (s : σ) (o : Option (OpenSpan α T)) (xs ys : List α) :
    lex m s o (xs ++ ys) =
      (lex m s o xs).bind fun r => (lex m r.2.1 r.2.2 ys).map fun r' => (r.1 ++ r'.1, r'.2) := by
  induction xs generalizing s o with
  | nil => simp [lex]
  | cons x xs ih =>
    rw [List.cons_append, lex, lex]
    cases m.step s x with
    | error => rfl
    | pause pre post s₁ => rfl
    | next pre post s₁ =>
      simp only [ih]
      cases lex m s₁ (lexActs ((lexActs o pre).1.map (OpenSpan.feed x)) post).1 xs with
      | none => rfl
      | some r => simp [Function.comp_def]

theorem notice_mem_close {n : N} {o : Option (OpenSpan α T)} : Entry.notice n ∉ close o := by
  cases o <;> simp [close]

/-- The notices among the tokens are the notices among the acts. -/
theorem notice_mem_lexActs {n : N} {o : Option (OpenSpan α T)} {as : List (Act T N)} :
    Entry.notice n ∈ (lexActs o as).2 ↔ Act.notice n ∈ as := by
  induction as generalizing o with
  | nil => simp [lexActs]
  | cons a as ih =>
    rw [lexActs, List.mem_append, ih, List.mem_cons]
    refine or_congr_left ?_
    cases a with
    | start t => simp [lexAct, notice_mem_close]
    | stop => simp [lexAct, notice_mem_close]
    | notice n' => simp [lexAct, notice_mem_close]

/-- The last symbol: its step, if the tokens before have no notice `n` and the
tokens with it have one. -/
theorem lex_concat_notice {m : Machine α T N σ} {s s' : σ} {o o' : Option (OpenSpan α T)}
    {xs : List α} {x : α} {es : List (Entry α T N)} {n : N}
    (h : lex m s o (xs ++ [x]) = some (es, s', o')) (hn : .notice n ∈ es)
    (hbefore : ∀ r, lex m s o xs = some r → .notice n ∉ r.1) :
    ∃ s₁ pre post, m.step s₁ x = .next pre post s' ∧ .notice n ∈ pre ++ post := by
  rw [lex_append, Option.bind_eq_some_iff] at h
  obtain ⟨⟨es₁, s₁, o₁⟩, h₁, h⟩ := h
  rw [Option.map_eq_some_iff] at h
  obtain ⟨⟨es₂, s₂, o₂⟩, h₂, heq⟩ := h
  cases heq
  have hn₂ : Entry.notice n ∈ es₂ :=
    (List.mem_append.mp hn).resolve_left (hbefore _ h₁)
  simp only [lex] at h₂
  cases hstep : m.step s₁ x with
  | error => simp [hstep] at h₂
  | pause pre post s' => simp [hstep] at h₂
  | next pre post s' =>
    rw [hstep] at h₂
    cases h₂
    refine ⟨s₁, pre, post, hstep, ?_⟩
    rw [List.append_nil, List.mem_append, notice_mem_lexActs, notice_mem_lexActs] at hn₂
    exact List.mem_append.mpr hn₂

theorem lexBlocks_append (m : Machine α T N σ) (s : σ) (o : Option (OpenSpan α T))
    (bs bs' : List (List α)) :
    lexBlocks m s o (bs ++ bs') =
      (lexBlocks m s o bs).bind fun r =>
        (lexBlocks m r.2.1 r.2.2 bs').map fun r' => (r.1 ++ r'.1, r'.2) := by
  induction bs generalizing s o with
  | nil => simp [lexBlocks]
  | cons b bs ih =>
    rw [List.cons_append, lexBlocks, lexBlocks]
    cases lex m s o b with
    | none => rfl
    | some r =>
      simp only [Option.bind_some, ih]
      cases lexBlocks m r.2.1 (r.2.2.map OpenSpan.cut) bs with
      | none => rfl
      | some r' => simp [Function.comp_def]

theorem map_cut_join (o : Option (OpenSpan α T)) :
    (o.map OpenSpan.cut).map OpenSpan.join = o.map OpenSpan.join := by
  cases o with
  | none => rfl
  | some o => simp [OpenSpan.join, OpenSpan.cut]

/-- **Division independence.**  Put together, the tokens of a divided input are
those of the undivided one. -/
theorem lexBlocks_joined (m : Machine α T N σ) (s : σ) (o : Option (OpenSpan α T))
    (bs : List (List α)) :
    (lexBlocks m s o bs).map joinAll = lex m s (o.map OpenSpan.join) bs.flatten := by
  induction bs generalizing s o with
  | nil => rfl
  | cons b bs ih =>
    rw [List.flatten_cons, lex_append, lex_join, lexBlocks]
    cases lex m s o b with
    | none => rfl
    | some r =>
      have ih := ih r.2.1 (r.2.2.map OpenSpan.cut)
      rw [map_cut_join] at ih
      simp only [Option.bind_some, Option.map_some, joinAll] at ih ⊢
      rw [← ih]
      simp [Function.comp_def, joinAll]

/-! ### Pauses -/

/-- The machine that goes on where `m` pauses. -/
def Machine.unpaused (m : Machine α T N σ) : Machine α T N σ where
  start := m.start
  step := fun s x =>
    match m.step s x with
    | .pause pre post s' => .next pre post s'
    | r => r

/-- Where `m` does not pause, nothing changes. -/
theorem lex_unpaused {m : Machine α T N σ} {s : σ} {o : Option (OpenSpan α T)} {xs : List α}
    {r : List (Entry α T N) × σ × Option (OpenSpan α T)} (h : lex m s o xs = some r) :
    lex m.unpaused s o xs = some r ∧
      executeFrom m.unpaused s (present o) xs = executeFrom m s (present o) xs := by
  induction xs generalizing s o r with
  | nil => exact ⟨h, rfl⟩
  | cons x xs ih =>
    rw [lex] at h ⊢
    rw [executeFrom, executeFrom]
    cases hstep : m.step s x with
    | error => simp [hstep] at h
    | pause pre post s₁ => simp [hstep] at h
    | next pre post s₁ =>
      simp only [hstep, Option.map_eq_some_iff] at h
      obtain ⟨r₁, hlex, heq⟩ := h
      obtain ⟨hlex', hexec⟩ := ih hlex
      obtain ⟨hpre, -⟩ := doActs_lexActs o pre
      obtain ⟨hpost, -⟩ := doActs_lexActs ((lexActs o pre).1.map (OpenSpan.feed x)) post
      rw [present_feed, ← hpre] at hpost
      rw [← hpost] at hexec
      simp only [Machine.unpaused, hstep]
      exact ⟨by rw [← heq]; exact congrArg _ hlex', congrArg _ hexec⟩

theorem Result.after_eq_ok {r : Result α T N σ} {k : ℕ} {cs cs' : List (Callback α T N)} {s : σ}
    {o : Option T} : r.after k cs = .ok cs' s o ↔ ∃ cs₁, r = .ok cs₁ s o ∧ cs' = cs ++ cs₁ := by
  cases r with
  | ok cs₁ s₁ o₁ => simp [Result.after, eq_comm, and_comm]
  | paused cs₁ s₁ n => simp [Result.after]
  | error => simp [Result.after]

/-- **A pause behind the last symbol.**  If `m` gets through every proper beginning
of `xs`, and no span is open at the end, then `m` makes the callbacks that it would
make without the pause. -/
theorem executeFrom_of_unpaused {m : Machine α T N σ} {s s' : σ} {o : Option (OpenSpan α T)}
    {xs : List α} {cs : List (Callback α T N)}
    (hthrough : ∀ p, p <+: xs → p ≠ xs → ∃ r, lex m s o p = some r)
    (h : executeFrom m.unpaused s (present o) xs = .ok cs s' none) :
    executeFrom m s (present o) xs = .ok cs s' none ∨
      executeFrom m s (present o) xs = .paused cs s' xs.length := by
  induction xs generalizing s o cs with
  | nil => exact Or.inl h
  | cons x xs ih =>
    rw [executeFrom] at h ⊢
    cases hstep : m.step s x with
    | error =>
      simp only [Machine.unpaused, hstep] at h
      cases h
    | pause pre post s₁ =>
      -- nothing comes behind `x`
      have hnil : xs = [] := by
        by_contra hne
        obtain ⟨r, hr⟩ := hthrough [x] ⟨xs, rfl⟩ (by simpa using Ne.symm hne)
        simp [lex, hstep] at hr
      subst hnil
      simp only [Machine.unpaused, hstep, executeFrom, Result.after] at h ⊢
      generalize doActs (feed x (doActs (present o) pre).1) post = b at h ⊢
      obtain ⟨b₁, b₂⟩ := b
      cases b₁ with
      | some p => cases h
      | none =>
        cases h
        exact Or.inr (by simp [flush])
    | next pre post s₁ =>
      have hstep' : m.unpaused.step s x = .next pre post s₁ := by
        simp only [Machine.unpaused, hstep]
      simp only [hstep'] at h
      simp only
      obtain ⟨hpre, -⟩ := doActs_lexActs o pre
      obtain ⟨hpost, -⟩ := doActs_lexActs ((lexActs o pre).1.map (OpenSpan.feed x)) post
      rw [present_feed, ← hpre] at hpost
      rw [hpost] at h ⊢
      obtain ⟨cs₁, hrest, rfl⟩ := Result.after_eq_ok.mp h
      have hthrough' : ∀ p, p <+: xs → p ≠ xs → ∃ r, lex m s₁
          (lexActs ((lexActs o pre).1.map (OpenSpan.feed x)) post).1 p = some r := by
        intro p hp hne
        obtain ⟨r, hr⟩ := hthrough (x :: p) (List.cons_prefix_cons.mpr ⟨rfl, hp⟩)
          (fun heq => hne (List.cons.inj heq).2)
        simp only [lex, hstep, Option.map_eq_some_iff] at hr
        obtain ⟨r₁, hr₁, -⟩ := hr
        exact ⟨r₁, hr₁⟩
      rcases ih hthrough' hrest with hok | hpaused
      · rw [hok]
        exact Or.inl rfl
      · rw [hpaused]
        exact Or.inr (by simp [Result.after, Nat.add_comm])

theorem lexBlocks_unpaused {m : Machine α T N σ} {s : σ} {o : Option (OpenSpan α T)}
    {bs : List (List α)} {r : List (Entry α T N) × σ × Option (OpenSpan α T)}
    (h : lexBlocks m s o bs = some r) : lexBlocks m.unpaused s o bs = some r := by
  induction bs generalizing s o r with
  | nil => exact h
  | cons b bs ih =>
    rw [lexBlocks, Option.bind_eq_some_iff] at h
    obtain ⟨r₁, hb, hrest⟩ := h
    rw [Option.map_eq_some_iff] at hrest
    obtain ⟨r₂, hrest, rfl⟩ := hrest
    rw [lexBlocks, (lex_unpaused hb).1, Option.bind_some, ih hrest, Option.map_some]

/-! ### Where a division cuts the tokens -/

/-- How many symbols of the token came in earlier blocks than its last one. -/
def Entry.before : Entry α T N → ℕ
  | .span _ done _ => done.flatten.length
  | .notice _ => 0

def openBefore : Option (OpenSpan α T) → ℕ
  | none => 0
  | some o => o.done.flatten.length

theorem openBefore_feed (x : α) (o : Option (OpenSpan α T)) :
    openBefore (o.map (OpenSpan.feed x)) = openBefore o := by
  cases o <;> rfl

/-- In a block only the span that is open at its start has earlier fragments, and
that span is the first token to be closed. -/
theorem before_lexAct (o : Option (OpenSpan α T)) (a : Act T N) :
    (lexAct o a).2.map Entry.before ++ [openBefore (lexAct o a).1] =
      openBefore o :: List.replicate (lexAct o a).2.length 0 := by
  cases a with
  | start t => cases o <;> rfl
  | stop => cases o <;> rfl
  | notice n => cases o <;> rfl

theorem before_append {es es' : List (Entry α T N)} {n n' n'' : ℕ}
    (h : es.map Entry.before ++ [n'] = n :: List.replicate es.length 0)
    (h' : es'.map Entry.before ++ [n''] = n' :: List.replicate es'.length 0) :
    (es ++ es').map Entry.before ++ [n''] = n :: List.replicate (es ++ es').length 0 := by
  calc (es ++ es').map Entry.before ++ [n'']
      = es.map Entry.before ++ (es'.map Entry.before ++ [n'']) := by
        rw [List.map_append, List.append_assoc]
    _ = (es.map Entry.before ++ [n']) ++ List.replicate es'.length 0 := by
        rw [h', List.append_assoc, List.singleton_append]
    _ = n :: List.replicate (es ++ es').length 0 := by
        rw [h, List.cons_append, List.replicate_append_replicate, List.length_append]

theorem before_lexActs (o : Option (OpenSpan α T)) (as : List (Act T N)) :
    (lexActs o as).2.map Entry.before ++ [openBefore (lexActs o as).1] =
      openBefore o :: List.replicate (lexActs o as).2.length 0 := by
  induction as generalizing o with
  | nil => rfl
  | cons a as ih => exact before_append (before_lexAct o a) (ih (lexAct o a).1)

theorem before_lex {m : Machine α T N σ} {s s' : σ} {o o' : Option (OpenSpan α T)} {xs : List α}
    {es : List (Entry α T N)} (h : lex m s o xs = some (es, s', o')) :
    es.map Entry.before ++ [openBefore o'] = openBefore o :: List.replicate es.length 0 := by
  induction xs generalizing s o es with
  | nil =>
    cases h
    rfl
  | cons x xs ih =>
    rw [lex] at h
    cases hstep : m.step s x with
    | error => simp [hstep] at h
    | pause pre post s₁ => simp [hstep] at h
    | next pre post s₁ =>
      simp only [hstep, Option.map_eq_some_iff] at h
      obtain ⟨⟨es₁, s₂, o₂⟩, hlex, heq⟩ := h
      cases heq
      have hpost := before_lexActs ((lexActs o pre).1.map (OpenSpan.feed x)) post
      rw [openBefore_feed] at hpost
      exact before_append (before_append (before_lexActs o pre) hpost) (ih hlex)

/-- How many symbols of the `k`-th token have been read at the end of `xs`, if it is
open there. -/
def openPart (m : Machine α T N σ) (xs : List α) (k : ℕ) : ℕ :=
  match lex m m.start none xs with
  | some (es, _, some o) => if es.length = k then o.cur.length else 0
  | _ => 0

/-- How many symbols of the `k`-th token stand before the last block boundary that
falls into it. -/
def cutBefore (m : Machine α T N σ) (bs : List (List α)) (k : ℕ) : ℕ :=
  (bs.inits.map fun ds => openPart m ds.flatten k).foldl max 0

theorem inits_concat (bs : List (List α)) (b : List α) :
    (bs ++ [b]).inits = bs.inits ++ [bs ++ [b]] := by
  rw [List.inits_append]
  rfl

theorem cutBefore_concat (m : Machine α T N σ) (bs : List (List α)) (b : List α) (k : ℕ) :
    cutBefore m (bs ++ [b]) k = max (cutBefore m bs k) (openPart m (bs ++ [b]).flatten k) := by
  rw [cutBefore, inits_concat, List.map_append, List.foldl_append]
  rfl

theorem lexBlocks_concat {m : Machine α T N σ} {s s' : σ} {o o' : Option (OpenSpan α T)}
    {bs : List (List α)} {b : List α} {es : List (Entry α T N)}
    (h : lexBlocks m s o (bs ++ [b]) = some (es, s', o')) :
    ∃ es₁ s₁ o₁ es₂ o₂, lexBlocks m s o bs = some (es₁, s₁, o₁) ∧
      lex m s₁ o₁ b = some (es₂, s', o₂) ∧ es = es₁ ++ es₂ ∧ o' = o₂.map OpenSpan.cut := by
  rw [lexBlocks_append, Option.bind_eq_some_iff] at h
  obtain ⟨⟨es₁, s₁, o₁⟩, h₁, h⟩ := h
  rw [Option.map_eq_some_iff] at h
  obtain ⟨r, hlast, heq⟩ := h
  rw [lexBlocks, Option.bind_eq_some_iff] at hlast
  obtain ⟨⟨es₂, s₂, o₂⟩, h₂, hnil⟩ := hlast
  cases hnil
  cases heq
  exact ⟨es₁, s₁, o₁, es₂, o₂, h₁, h₂, by simp, rfl⟩

theorem openBefore_le_cut (o : Option (OpenSpan α T)) :
    openBefore o ≤ openBefore (o.map OpenSpan.cut) := by
  cases o with
  | none => exact le_rfl
  | some o => simp [openBefore, OpenSpan.cut]

/-- At a boundary the symbols read of the open token are those in its fragments. -/
theorem openPart_of_cut {m : Machine α T N σ} {bs : List (List α)} {es : List (Entry α T N)}
    {s : σ} {o : Option (OpenSpan α T)}
    (h : lexBlocks m m.start none bs = some (es, s, o.map OpenSpan.cut)) (k : ℕ) :
    openPart m bs.flatten k = if es.length = k then openBefore (o.map OpenSpan.cut) else 0 := by
  have hjoin := lexBlocks_joined m m.start none bs
  rw [h, Option.map_some, Option.map_none] at hjoin
  rw [openPart, ← hjoin]
  cases o with
  | none => simp [joinAll, openBefore]
  | some o => simp [joinAll, openBefore, OpenSpan.cut, OpenSpan.join]

/-- The last entry of a list with one non-zero entry in front, raised to `y'`. -/
theorem getD_replaceLast {l : List ℕ} {x y y' : ℕ} (h : l ++ [y] = x :: List.replicate l.length 0)
    (hle : y ≤ y') (j : ℕ) :
    max ([x].getD j 0) (if l.length = j then y' else 0) = (l ++ [y']).getD j 0 := by
  cases l with
  | nil =>
    obtain ⟨rfl, -⟩ := List.cons.inj h
    cases j <;> simp [hle]
  | cons a l =>
    obtain ⟨rfl, htail⟩ := List.cons.inj h
    rw [List.length_cons, List.replicate_succ'] at htail
    obtain ⟨hzero, -⟩ := List.append_inj' htail rfl
    cases j with
    | zero => simp
    | succ i =>
      rw [hzero]
      rcases Nat.lt_trichotomy i l.length with hlt | rfl | hgt
      · simp [List.getD, List.getElem?_append, hlt, hlt.ne']
      · simp [List.getD]
      · simp [List.getD, List.getElem?_append, hgt.ne, Nat.not_lt_of_gt hgt,
          Nat.sub_ne_zero_of_lt hgt]

/-- The fragments of the tokens, told from the boundaries. -/
theorem cutBefore_eq {m : Machine α T N σ} {bs : List (List α)} {es : List (Entry α T N)} {s : σ}
    {o : Option (OpenSpan α T)} (h : lexBlocks m m.start none bs = some (es, s, o)) (k : ℕ) :
    cutBefore m bs k = (es.map Entry.before ++ [openBefore o]).getD k 0 := by
  induction bs using List.reverseRecOn generalizing es s o with
  | nil =>
    cases h
    cases k <;> rfl
  | append_singleton bs b ih =>
    obtain ⟨es₁, s₁, o₁, es₂, o₂, h₁, h₂, rfl, rfl⟩ := lexBlocks_concat h
    rw [cutBefore_concat, ih h₁, openPart_of_cut h, List.map_append, List.append_assoc]
    have hbefore := before_lex h₂
    by_cases hk : k < es₁.length
    · -- a token of the blocks before
      have hne : (es₁ ++ es₂).length ≠ k := by
        rw [List.length_append]
        omega
      rw [if_neg hne, List.getD_append _ _ _ _ (by simpa using hk),
        List.getD_append _ _ _ _ (by simpa using hk), Nat.max_zero]
    · obtain ⟨j, rfl⟩ := Nat.exists_eq_add_of_le (Nat.le_of_not_lt hk)
      rw [List.getD_append_right _ _ _ _ (by simp), List.getD_append_right _ _ _ _ (by simp),
        List.length_map, Nat.add_sub_cancel_left, List.length_append]
      simp only [Nat.add_left_cancel_iff]
      -- `j` counts from the token open at the start of `b`
      have hlen : (es₂.map Entry.before).length = es₂.length := List.length_map _
      rw [← hlen] at hbefore ⊢
      exact getD_replaceLast hbefore (openBefore_le_cut o₂) j

/-! ### The callbacks alone -/

/-- The callbacks of `executeFrom`, also where it ends with an error. -/
def emitted (m : Machine α T N σ) : σ → Option (T × List α) → List α → List (Callback α T N)
  | _, o, [] => flush o
  | s, o, x :: xs =>
    match m.step s x with
    | .next pre post s' =>
      let a := doActs o pre
      let b := doActs (feed x a.1) post
      a.2 ++ b.2 ++ emitted m s' b.1 xs
    | .pause pre post _ =>
      let a := doActs o pre
      let b := doActs (feed x a.1) post
      a.2 ++ b.2
    | .error => []

theorem emitted_eq (m : Machine α T N σ) (s : σ) (o : Option (T × List α)) (xs : List α) :
    (∀ cs s' o', executeFrom m s o xs = .ok cs s' o' → emitted m s o xs = cs) ∧
      ∀ cs s' n, executeFrom m s o xs = .paused cs s' n → emitted m s o xs = cs := by
  induction xs generalizing s o with
  | nil =>
    constructor
    · intro cs s' o' h
      exact (Result.ok.inj h).1
    · intro cs s' n h
      cases h
  | cons x xs ih =>
    rw [executeFrom, emitted]
    cases m.step s x with
    | error =>
      constructor
      · intro cs s' o' h
        cases h
      · intro cs s' n h
        cases h
    | pause pre post s₁ =>
      constructor
      · intro cs s' o' h
        cases h
      · intro cs s' n h
        exact (Result.paused.inj h).1
    | next pre post s₁ =>
      dsimp only
      generalize hb : doActs (feed x (doActs o pre).1) post = b
      obtain ⟨hok, hpaused⟩ := ih s₁ b.1
      cases hrest : executeFrom m s₁ b.1 xs with
      | error =>
        constructor
        · intro cs s' o' h
          cases h
        · intro cs s' n h
          cases h
      | ok cs₁ s₂ o₂ =>
        constructor
        · intro cs s' o' h
          rw [hok _ _ _ hrest]
          exact (Result.ok.inj h).1
        · intro cs s' n h
          cases h
      | paused cs₁ s₂ n₂ =>
        constructor
        · intro cs s' o' h
          cases h
        · intro cs s' n h
          rw [hpaused _ _ _ hrest]
          exact (Result.paused.inj h).1

end SpanMachine
