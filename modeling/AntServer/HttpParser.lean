/-
`HttpParser::parse` of `http/parser.hpp`.

llhttp is a parameter: a machine that reads bytes and reports the spans and
notices for which `HttpParser` has callbacks (`Llhttp`).  What is taken from it
is how it reports them (`SpanMachine`): a span that is open at the end of a
buffer is reported up to there and goes on, with an empty fragment, in the next
buffer; nothing is called while a span is open; after a callback that returns 0
it goes on with the next byte, also after `on_message_complete`.

* `parse_of_request` — what `parse` makes of a buffer that holds one request;
* `parse_of_prefix` — and of one that holds the beginning of a request;
* `IsComplete.parse_unpaused` — a request behind which llhttp pauses.
-/
import AntServer.SpanMachine

namespace HttpParser

open SpanMachine (Callback Entry OpenSpan lex lexBlocks execute)

abbrev Bytes := List UInt8

/-- The spans with a callback. -/
inductive Token
  | url
  | headerField
  | headerValue
  | body
deriving DecidableEq, Repr

inductive Notice
  | headersComplete
  | messageComplete
deriving DecidableEq, Repr

structure Llhttp (σ : Type*) extends SpanMachine.Machine UInt8 Token Notice σ where
  methodName : σ → String          -- `llhttp_method_name(llhttp_get_method(..))`
  shouldKeepAlive : σ → Bool

/-- `HttpRequest`, with the views as the bytes they show. -/
structure HttpRequest where
  method : String
  url : Bytes
  headers : Bytes → Option Bytes
  body : Bytes
  keepAlive : Bool
  complete : Bool

def HttpRequest.empty : HttpRequest where
  method := ""
  url := []
  headers := fun _ => none
  body := []
  keepAlive := false
  complete := false

structure ParserContext where
  req : HttpRequest
  currentField : Bytes
  currentValue : Bytes

def ParserContext.empty : ParserContext := ⟨HttpRequest.empty, [], []⟩

/-! ### The callbacks -/

def onUrl (ctx : ParserContext) (bs : Bytes) : ParserContext :=
  { ctx with req := { ctx.req with url := bs } }

/-- `headers[current_field] = current_value`, and both are cleared. -/
def commit (ctx : ParserContext) : ParserContext where
  req := { ctx.req with
    headers := Function.update ctx.req.headers ctx.currentField (some ctx.currentValue) }
  currentField := []
  currentValue := []

def onHeaderField (ctx : ParserContext) (bs : Bytes) : ParserContext :=
  let ctx := if ctx.currentValue.isEmpty then ctx else commit ctx
  { ctx with currentField := bs }

def onHeaderValue (ctx : ParserContext) (bs : Bytes) : ParserContext :=
  { ctx with currentValue := bs }

def onHeadersComplete (ctx : ParserContext) : ParserContext :=
  if ctx.currentField.isEmpty then ctx else commit ctx

def onBody (ctx : ParserContext) (bs : Bytes) : ParserContext :=
  { ctx with req := { ctx.req with body := ctx.req.body ++ bs } }

def onMessageComplete (ctx : ParserContext) : ParserContext :=
  { ctx with req := { ctx.req with complete := true } }

def callback (ctx : ParserContext) : Callback UInt8 Token Notice → ParserContext
  | .data .url bs => onUrl ctx bs
  | .data .headerField bs => onHeaderField ctx bs
  | .data .headerValue bs => onHeaderValue ctx bs
  | .data .body bs => onBody ctx bs
  | .notice .headersComplete => onHeadersComplete ctx
  | .notice .messageComplete => onMessageComplete ctx

/-! ### The loop over the blocks -/

inductive ParseStatus
  | success
  | needMoreData
  | error
deriving DecidableEq, Repr

structure ParseResult where
  status : ParseStatus
  consumedBytes : ℕ
deriving DecidableEq, Repr

variable {σ : Type*}

/-- The end of `parse`, after the loop. -/
def finish (m : Llhttp σ) (s : σ) (req : HttpRequest) (total : ℕ) : ParseResult × HttpRequest :=
  if req.complete then
    (⟨.success, total⟩,
      { req with method := m.methodName s, keepAlive := m.shouldKeepAlive s })
  else (⟨.needMoreData, total⟩, req)

/-- The loop of `parse`; `o` is the span that llhttp has open. -/
def parseBlocks (m : Llhttp σ) :
    σ → Option Token → ParserContext → ℕ → List Bytes → ParseResult × HttpRequest
  | s, _, ctx, total, [] => finish m s ctx.req total
  | s, o, ctx, total, blk :: blks =>
    if blk.isEmpty then parseBlocks m s o ctx total blks
    else
      match execute m.toMachine s o blk with
      | .ok cs s' o' =>
        let ctx' := cs.foldl callback ctx
        if ctx'.req.complete then finish m s' ctx'.req (total + blk.length)
        else parseBlocks m s' o' ctx' (total + blk.length) blks
      | .paused cs s' n => finish m s' (cs.foldl callback ctx).req (total + n)
      | .error => (⟨.error, 0⟩, ctx.req)

/-- `HttpParser::parse`. -/
def parse (m : Llhttp σ) (buf : List Bytes) : ParseResult × HttpRequest :=
  parseBlocks m m.start none .empty 0 buf

/-! ### What the callbacks make of a token -/

/-- The bytes of a token that the callbacks keep: the body is appended to, the
other tokens are overwritten, so that their last fragment stays. -/
def keptBytes (t : Token) (done : List Bytes) (last : Bytes) : Bytes :=
  if t = .body then (done ++ [last]).flatten else last

/-- The token as one callback with the bytes that are kept of it. -/
def kept : Entry UInt8 Token Notice → Callback UInt8 Token Notice
  | .span t done last => .data t (keptBytes t done last)
  | .notice n => .notice n

theorem onHeaderField_currentValue (ctx : ParserContext) (bs : Bytes) :
    (onHeaderField ctx bs).currentValue = [] := by
  rw [onHeaderField]
  by_cases h : ctx.currentValue.isEmpty = true
  · rw [if_pos h]
    simpa using h
  · rw [if_neg h]
    rfl

/-- Two fragments of one token. -/
theorem callback_callback (ctx : ParserContext) (t : Token) (xs ys : Bytes) :
    callback (callback ctx (.data t xs)) (.data t ys) =
      callback ctx (.data t (if t = .body then xs ++ ys else ys)) := by
  cases t with
  | url => rfl
  | headerField =>
    simp only [callback, reduceCtorEq, if_false]
    rw [onHeaderField, onHeaderField_currentValue]
    rfl
  | headerValue => rfl
  | body => simp [callback, onBody]

theorem foldl_fragments (ctx : ParserContext) (t : Token) (done : List Bytes) (last : Bytes) :
    ((done ++ [last]).map (Callback.data t)).foldl callback ctx =
      callback ctx (.data t (keptBytes t done last)) := by
  induction done generalizing ctx with
  | nil => simp [keptBytes]
  | cons x done ih =>
    rw [List.cons_append, List.map_cons, List.foldl_cons, ih, callback_callback]
    by_cases ht : t = .body
    · simp [keptBytes, ht]
    · simp [keptBytes, ht]

/-- The fragments of the tokens have the effect of the bytes kept. -/
theorem foldl_callbacks (ctx : ParserContext) (es : List (Entry UInt8 Token Notice)) :
    (es.flatMap Entry.callbacks).foldl callback ctx = (es.map kept).foldl callback ctx := by
  induction es generalizing ctx with
  | nil => rfl
  | cons e es ih =>
    rw [List.flatMap_cons, List.foldl_append, List.map_cons, List.foldl_cons, ih]
    cases e with
    | span t done last => rw [Entry.callbacks, foldl_fragments, kept]
    | notice n => rfl

/-! ### The flag `complete` -/

theorem callback_complete (ctx : ParserContext) (c : Callback UInt8 Token Notice) :
    (callback ctx c).req.complete = true ↔
      ctx.req.complete = true ∨ c = .notice .messageComplete := by
  rcases c with (_ | _ | _ | _) | (_ | _)
  · simp [callback, onUrl]
  · simp only [callback, onHeaderField]
    split <;> simp [commit]
  · simp [callback, onHeaderValue]
  · simp [callback, onBody]
  · simp only [callback, onHeadersComplete]
    split <;> simp [commit]
  · simp [callback, onMessageComplete]

theorem foldl_complete (ctx : ParserContext) (cs : List (Callback UInt8 Token Notice)) :
    (cs.foldl callback ctx).req.complete = true ↔
      ctx.req.complete = true ∨ .notice .messageComplete ∈ cs := by
  induction cs generalizing ctx with
  | nil => simp
  | cons c cs ih =>
    rw [List.foldl_cons, ih, callback_complete, List.mem_cons, or_assoc]
    simp only [eq_comm]

/-- Among the callbacks of tokens, only the notice itself completes the message. -/
theorem messageComplete_mem {es : List (Entry UInt8 Token Notice)}
    {o o' : Option (OpenSpan UInt8 Token)} {cs : List (Callback UInt8 Token Notice)}
    (h : SpanMachine.reported o ++ cs = es.flatMap Entry.callbacks ++ SpanMachine.reported o') :
    Callback.notice Notice.messageComplete ∈ cs ↔ Entry.notice Notice.messageComplete ∈ es := by
  have hrep : ∀ o : Option (OpenSpan UInt8 Token),
      Callback.notice Notice.messageComplete ∉ SpanMachine.reported (N := Notice) o := by
    intro o
    cases o <;> simp [SpanMachine.reported]
  have hentry : ∀ e : Entry UInt8 Token Notice,
      Callback.notice Notice.messageComplete ∈ e.callbacks ↔ e = .notice .messageComplete := by
    intro e
    cases e with
    | span t done last => simp [Entry.callbacks]
    | notice n => simp [Entry.callbacks, eq_comm]
  have hmem : Callback.notice Notice.messageComplete ∈ SpanMachine.reported o ++ cs ↔
      Callback.notice Notice.messageComplete ∈
        es.flatMap Entry.callbacks ++ SpanMachine.reported o' := by rw [h]
  simpa only [List.mem_append, List.mem_flatMap, hentry, hrep, false_or, or_false,
    exists_eq_right] using hmem

/-! ### Requests -/

/-- `w` is one request: llhttp gets through it and completes the message with the
last byte of `w`, not before.  (Behind an upgrade request it pauses: `IsComplete`.) -/
structure IsRequest (m : Llhttp σ) (w : Bytes) : Prop where
  lexed : ∃ es s, lex m.toMachine m.start none w = some (es, s, none) ∧
    .notice .messageComplete ∈ es
  first : ∀ p, p <+: w → p ≠ w → ∀ r, lex m.toMachine m.start none p = some r →
    .notice .messageComplete ∉ r.1

/-- The loop runs through blocks that do not complete the message. -/
theorem parseBlocks_through {m : Llhttp σ} {s s' : σ} {o o' : Option (OpenSpan UInt8 Token)}
    {ctx : ParserContext} {D : List Bytes} {es : List (Entry UInt8 Token Notice)}
    (hlex : lexBlocks m.toMachine s (o.map OpenSpan.cut) D = some (es, s', o'))
    (hne : ∀ b ∈ D, b ≠ []) (hno : .notice .messageComplete ∉ es)
    (hctx : ctx.req.complete = false) (total : ℕ) (E : List Bytes) :
    ∃ cs, ∃ o₁ : Option (OpenSpan UInt8 Token), o' = o₁.map OpenSpan.cut ∧
      (cs.foldl callback ctx).req.complete = false ∧
      SpanMachine.reported (o.map OpenSpan.cut) ++ cs =
        es.flatMap Entry.callbacks ++ SpanMachine.reported o' ∧
      parseBlocks m s (o.map OpenSpan.token) ctx total (D ++ E) =
        parseBlocks m s' (o₁.map OpenSpan.token) (cs.foldl callback ctx)
          (total + D.flatten.length) E := by
  induction D generalizing s o ctx total es with
  | nil =>
    cases hlex
    exact ⟨[], o, rfl, hctx, by simp, by simp⟩
  | cons b D ih =>
    rw [lexBlocks, Option.bind_eq_some_iff] at hlex
    obtain ⟨⟨es₁, s₁, o₁⟩, hb, hrest⟩ := hlex
    rw [Option.map_eq_some_iff] at hrest
    obtain ⟨⟨es₂, s₂, o₂⟩, hrest, heq⟩ := hrest
    cases heq
    rw [List.mem_append, not_or] at hno
    obtain ⟨cs₁, hexec, hrep⟩ := SpanMachine.execute_eq hb
    have hcomp : (cs₁.foldl callback ctx).req.complete = false := by
      rw [← Bool.not_eq_true, foldl_complete, messageComplete_mem hrep, hctx]
      exact not_or.mpr ⟨Bool.false_ne_true, hno.1⟩
    obtain ⟨cs₂, o', ho', hcomp₂, hrep₂, hparse⟩ := ih hrest
      (fun x hx => hne x (List.mem_cons_of_mem b hx)) hno.2 hcomp (total + b.length)
    refine ⟨cs₁ ++ cs₂, o', ho', by rwa [List.foldl_append], ?_, ?_⟩
    · rw [← List.append_assoc, hrep, List.append_assoc, hrep₂, List.flatMap_append,
        List.append_assoc]
    · have hbne : b.isEmpty = false := by simpa using hne b List.mem_cons_self
      rw [List.cons_append, parseBlocks, hbne, if_neg Bool.false_ne_true, hexec]
      simp only [hcomp, Bool.false_eq_true, if_false]
      rw [hparse, List.foldl_append, List.flatten_cons, List.length_append, Nat.add_assoc]

theorem parse_through {m : Llhttp σ} {s : σ} {o : Option (OpenSpan UInt8 Token)} {D : List Bytes}
    {es : List (Entry UInt8 Token Notice)}
    (hlex : lexBlocks m.toMachine m.start none D = some (es, s, o)) (hne : ∀ b ∈ D, b ≠ [])
    (hno : .notice .messageComplete ∉ es) (E : List Bytes) :
    ∃ cs, ∃ o₁ : Option (OpenSpan UInt8 Token), o = o₁.map OpenSpan.cut ∧
      (cs.foldl callback .empty).req.complete = false ∧
      cs = es.flatMap Entry.callbacks ++ SpanMachine.reported o ∧
      parse m (D ++ E) =
        parseBlocks m s (o₁.map OpenSpan.token) (cs.foldl callback .empty) D.flatten.length E := by
  have hempty : ParserContext.empty.req.complete = false := rfl
  obtain ⟨cs, o₁, ho, hcomp, hrep, hparse⟩ :=
    parseBlocks_through (o := none) hlex hne hno hempty 0 E
  refine ⟨cs, o₁, ho, hcomp, ?_, ?_⟩
  · simpa [SpanMachine.reported] using hrep
  · rw [Nat.zero_add] at hparse
    exact hparse

/-- A division of `w` into blocks. -/
structure Divides (D : List Bytes) (w : Bytes) : Prop where
  nonempty : ∀ b ∈ D, b ≠ []
  flatten : D.flatten = w

theorem Divides.left {D₁ D₂ : List Bytes} {w : Bytes} (h : Divides (D₁ ++ D₂) w)
    (hD₂ : D₂ ≠ []) : D₁.flatten <+: w ∧ D₁.flatten ≠ w := by
  have hw : D₁.flatten ++ D₂.flatten = w := by rw [← h.flatten, List.flatten_append]
  refine ⟨⟨D₂.flatten, hw⟩, fun heq => ?_⟩
  have hnil : D₂.flatten = [] := by
    rw [heq] at hw
    exact List.append_right_eq_self.mp hw
  obtain ⟨b, D, rfl⟩ := List.exists_cons_of_ne_nil hD₂
  exact h.nonempty b (by simp) (List.flatten_eq_nil_iff.mp hnil b List.mem_cons_self)

theorem messageComplete_mem_join {es : List (Entry UInt8 Token Notice)} :
    Entry.notice Notice.messageComplete ∈ es.map Entry.join ↔
      Entry.notice Notice.messageComplete ∈ es := by
  rw [List.mem_map]
  constructor
  · rintro ⟨e, he, hj⟩
    cases e with
    | span t done last => cases hj
    | notice n => exact hj ▸ he
  · exact fun h => ⟨_, h, rfl⟩

theorem lexBlocks_joined_start (m : Llhttp σ) (D : List Bytes) :
    (lexBlocks m.toMachine m.start none D).map SpanMachine.joinAll =
      lex m.toMachine m.start none D.flatten :=
  SpanMachine.lexBlocks_joined m.toMachine m.start none D

/-- Blocks that hold a proper beginning of a request do not complete it. -/
theorem IsRequest.not_complete {m : Llhttp σ} {D : List Bytes} {w : Bytes} (hw : IsRequest m w)
    (hpre : D.flatten <+: w) (hne : D.flatten ≠ w)
    {r : List (Entry UInt8 Token Notice) × σ × Option (OpenSpan UInt8 Token)}
    (hr : lexBlocks m.toMachine m.start none D = some r) : .notice .messageComplete ∉ r.1 := by
  have hjoin := lexBlocks_joined_start m D
  rw [hr, Option.map_some] at hjoin
  rw [← messageComplete_mem_join]
  exact hw.first _ hpre hne _ hjoin.symm

theorem IsRequest.ne_nil {m : Llhttp σ} {w : Bytes} (hw : IsRequest m w) : w ≠ [] := by
  rintro rfl
  obtain ⟨es, s, hlex, hmc⟩ := hw.lexed
  cases hlex
  exact absurd hmc List.not_mem_nil

/-- **One request.**  However the blocks divide it, and whatever blocks come after
them, `parse` succeeds and consumes just these blocks; the request it gives is
made of the bytes kept of each token. -/
theorem parse_of_request {m : Llhttp σ} {w : Bytes} {D : List Bytes} (hw : IsRequest m w)
    (hD : Divides D w) (E : List Bytes) :
    ∃ es s, lexBlocks m.toMachine m.start none D = some (es, s, none) ∧
      lex m.toMachine m.start none w = some (es.map Entry.join, s, none) ∧
      parse m (D ++ E) = (⟨.success, w.length⟩,
        { ((es.map kept).foldl callback .empty).req with
          method := m.methodName s, keepAlive := m.shouldKeepAlive s }) := by
  obtain ⟨es₀, s, hlex, hmc⟩ := hw.lexed
  have hjoin := lexBlocks_joined_start m D
  rw [hD.flatten, hlex, Option.map_eq_some_iff] at hjoin
  obtain ⟨⟨es, s', o'⟩, hblocks, heq⟩ := hjoin
  simp only [SpanMachine.joinAll, Prod.mk.injEq, Option.map_eq_none_iff] at heq
  obtain ⟨rfl, rfl, rfl⟩ := heq
  refine ⟨es, s', hblocks, hlex, ?_⟩
  rw [messageComplete_mem_join] at hmc
  -- the last block completes the message
  rcases List.eq_nil_or_concat' D with rfl | ⟨D₀, b, rfl⟩
  · exact absurd hD.flatten.symm hw.ne_nil
  obtain ⟨hpre, hproper⟩ := hD.left (List.cons_ne_nil b [])
  have hsplit := hblocks
  rw [SpanMachine.lexBlocks_append, Option.bind_eq_some_iff] at hsplit
  obtain ⟨⟨es₁, s₁, o₁⟩, h₁, hlast⟩ := hsplit
  obtain ⟨cs₁, o₂, rfl, -, hrep₁, hparse⟩ := parse_through h₁
    (fun x hx => hD.nonempty x (List.mem_append_left _ hx)) (hw.not_complete hpre hproper h₁)
    (b :: E)
  obtain ⟨es₂, o₃, hb, hes, ho₃⟩ : ∃ es₂ o₃, lex m.toMachine s₁ (o₂.map OpenSpan.cut) b =
      some (es₂, s', o₃) ∧ es = es₁ ++ es₂ ∧ o₃ = none := by
    rw [lexBlocks] at hlast
    cases hb : lex m.toMachine s₁ (o₂.map OpenSpan.cut) b with
    | none => simp [hb] at hlast
    | some r =>
      simp only [hb, Option.bind_some, lexBlocks, Option.map_some, Option.some.injEq,
        Prod.mk.injEq, Option.map_eq_none_iff, List.append_nil] at hlast
      obtain ⟨hes, hs, ho⟩ := hlast
      exact ⟨r.1, r.2.2, by rw [← hs], hes.symm, ho⟩
  subst ho₃ hes
  obtain ⟨cs₂, hexec, hrep₂⟩ := SpanMachine.execute_eq hb
  have hcs : cs₁ ++ cs₂ = (es₁ ++ es₂).flatMap Entry.callbacks := by
    rw [hrep₁, List.append_assoc, hrep₂, List.flatMap_append]
    simp [SpanMachine.reported]
  have hcomplete : (((es₁ ++ es₂).map kept).foldl callback .empty).req.complete = true := by
    rw [← foldl_callbacks, foldl_complete]
    refine Or.inr (List.mem_flatMap.mpr ⟨_, hmc, ?_⟩)
    simp [Entry.callbacks]
  have hlen : D₀.flatten.length + b.length = w.length := by
    rw [← hD.flatten]
    simp
  have hbne : b.isEmpty = false := by simpa using hD.nonempty b (by simp)
  rw [List.append_assoc, List.singleton_append, hparse, parseBlocks, hbne,
    if_neg Bool.false_ne_true, hexec]
  simp only
  rw [← List.foldl_append, hcs, foldl_callbacks, if_pos hcomplete, finish, if_pos hcomplete, hlen]

theorem lex_of_prefix {m : Llhttp σ} {w r : Bytes} (hr : IsRequest m r) (hw : w <+: r) :
    ∃ x, lex m.toMachine m.start none w = some x := by
  obtain ⟨es, s, hlex, -⟩ := hr.lexed
  obtain ⟨v, rfl⟩ := hw
  rw [SpanMachine.lex_append, Option.bind_eq_some_iff] at hlex
  obtain ⟨x, hx, -⟩ := hlex
  exact ⟨x, hx⟩

/-- **The beginning of a request.**  `parse` asks for more. -/
theorem parse_of_prefix {m : Llhttp σ} {w r : Bytes} {D : List Bytes} (hr : IsRequest m r)
    (hw : w <+: r) (hne : w ≠ r) (hD : Divides D w) :
    (parse m D).1 = ⟨.needMoreData, w.length⟩ := by
  obtain ⟨x, hlex⟩ := lex_of_prefix hr hw
  have hjoin := lexBlocks_joined_start m D
  rw [hD.flatten, hlex, Option.map_eq_some_iff] at hjoin
  obtain ⟨⟨es, s, o⟩, hblocks, -⟩ := hjoin
  have hno := hr.not_complete (hD.flatten ▸ hw) (hD.flatten ▸ hne) hblocks
  obtain ⟨cs, o₁, -, hcomp, -, hparse⟩ := parse_through hblocks hD.nonempty hno []
  rw [List.append_nil] at hparse
  rw [hparse, parseBlocks, finish, if_neg (by simp [hcomp]), hD.flatten]

/-! ### Requests behind which llhttp pauses

Behind a `CONNECT` or an `Upgrade` request `llhttp_execute` returns
`HPE_PAUSED_UPGRADE`, after `on_message_complete` and with the position behind
the request. -/

/-- llhttp without its pauses. -/
def Llhttp.unpaused (m : Llhttp σ) : Llhttp σ := { m with toMachine := m.toMachine.unpaused }

/-- `w` is one request, and llhttp gets through it or pauses behind its last byte. -/
structure IsComplete (m : Llhttp σ) (w : Bytes) : Prop where
  whole : IsRequest m.unpaused w
  through : ∀ p, p <+: w → p ≠ w → ∃ r, lex m.toMachine m.start none p = some r

theorem IsRequest.isComplete {m : Llhttp σ} {w : Bytes} (hw : IsRequest m w) : IsComplete m w where
  whole := by
    obtain ⟨es, s, hlex, hmc⟩ := hw.lexed
    refine ⟨⟨es, s, (SpanMachine.lex_unpaused hlex).1, hmc⟩, fun p hp hne r hr => ?_⟩
    obtain ⟨x, hx⟩ := lex_of_prefix hw hp
    have heq := (SpanMachine.lex_unpaused hx).1.symm.trans hr
    cases heq
    exact hw.first p hp hne _ hx
  through := fun _ hp _ => lex_of_prefix hw hp

theorem lexBlocks_of_lex {m : Llhttp σ} {D : List Bytes}
    (h : ∃ r, lex m.toMachine m.start none D.flatten = some r) :
    ∃ r, lexBlocks m.toMachine m.start none D = some r := by
  obtain ⟨r, hr⟩ := h
  rw [← lexBlocks_joined_start, Option.map_eq_some_iff] at hr
  obtain ⟨r', hr', -⟩ := hr
  exact ⟨r', hr'⟩

/-- Blocks that llhttp gets through without completing the message. -/
theorem parse_unpaused_through {m : Llhttp σ} {s : σ} {o : Option (OpenSpan UInt8 Token)}
    {D : List Bytes} {es : List (Entry UInt8 Token Notice)}
    (hlex : lexBlocks m.toMachine m.start none D = some (es, s, o)) (hne : ∀ b ∈ D, b ≠ [])
    (hno : .notice .messageComplete ∉ es) (E : List Bytes) :
    ∃ ctx, ∃ o₁ : Option (OpenSpan UInt8 Token), o = o₁.map OpenSpan.cut ∧
      parse m (D ++ E) = parseBlocks m s (o₁.map OpenSpan.token) ctx D.flatten.length E ∧
      parse m.unpaused (D ++ E) =
        parseBlocks m.unpaused s (o₁.map OpenSpan.token) ctx D.flatten.length E := by
  obtain ⟨cs, o₁, ho, -, rfl, hparse⟩ := parse_through hlex hne hno E
  obtain ⟨cs', o₁', ho', -, rfl, hparse'⟩ :=
    parse_through (m := m.unpaused) (SpanMachine.lexBlocks_unpaused hlex) hne hno E
  have htoken : o₁'.map OpenSpan.token = o₁.map OpenSpan.token := by
    have := congrArg (Option.map OpenSpan.token) (ho'.symm.trans ho)
    simpa only [Option.map_map, Function.comp_def, OpenSpan.cut] using this
  exact ⟨_, o₁, ho, hparse, htoken ▸ hparse'⟩

/-- The last block of the loop. -/
theorem parseBlocks_singleton {m : Llhttp σ} {s s' : σ} {o : Option Token} {b : Bytes}
    {cs : List (Callback UInt8 Token Notice)} (hb : b ≠ [])
    (h : (∃ o', execute m.toMachine s o b = .ok cs s' o') ∨
      execute m.toMachine s o b = .paused cs s' b.length) (ctx : ParserContext) (total : ℕ) :
    parseBlocks m s o ctx total [b] =
      finish m s' (cs.foldl callback ctx).req (total + b.length) := by
  have hbne : b.isEmpty = false := by simpa using hb
  rw [parseBlocks, hbne, if_neg Bool.false_ne_true]
  rcases h with ⟨o', hok⟩ | hpaused
  · rw [hok]
    exact ite_self _
  · rw [hpaused]

/-- **A pause makes no difference** behind a whole request. -/
theorem IsComplete.parse_unpaused {m : Llhttp σ} {w : Bytes} {D : List Bytes}
    (hw : IsComplete m w) (hD : Divides D w) : parse m D = parse m.unpaused D := by
  rcases List.eq_nil_or_concat' D with rfl | ⟨D₀, b, rfl⟩
  · exact absurd hD.flatten.symm hw.whole.ne_nil
  obtain ⟨hpre, hproper⟩ := hD.left (List.cons_ne_nil b [])
  obtain ⟨⟨es₁, s₁, o₁⟩, h₁⟩ := lexBlocks_of_lex (hw.through _ hpre hproper)
  have hno := hw.whole.not_complete hpre hproper (SpanMachine.lexBlocks_unpaused h₁)
  obtain ⟨ctx, o₂, rfl, hparse, hparse'⟩ := parse_unpaused_through h₁
    (fun x hx => hD.nonempty x (List.mem_append_left _ hx)) hno [b]
  -- llhttp gets through the last block up to its last byte
  have hthrough : ∀ p, p <+: b → p ≠ b →
      ∃ r, lex m.toMachine s₁ (o₂.map OpenSpan.cut) p = some r := by
    rintro p ⟨q, rfl⟩ hne
    have hw' : (D₀ ++ [p]).flatten ++ q = w := by
      rw [← hD.flatten]
      simp
    have hproper' : (D₀ ++ [p]).flatten ≠ w := by
      intro heq
      rw [heq, List.append_right_eq_self] at hw'
      exact hne (by rw [hw', List.append_nil])
    obtain ⟨⟨es, s, o⟩, h⟩ := lexBlocks_of_lex (hw.through _ ⟨q, hw'⟩ hproper')
    obtain ⟨es₁', s₁', o₁', es₂, o₃, h₁', h₂, -, -⟩ := SpanMachine.lexBlocks_concat h
    rw [h₁] at h₁'
    cases h₁'
    exact ⟨_, h₂⟩
  -- and without its pauses to the end, with no span open
  obtain ⟨cs, s', hexec⟩ : ∃ cs s',
      execute m.unpaused.toMachine s₁ (o₂.map OpenSpan.token) b = .ok cs s' none := by
    obtain ⟨es, s, hlex, -⟩ := hw.whole.lexed
    rw [← hD.flatten, ← lexBlocks_joined_start, Option.map_eq_some_iff] at hlex
    obtain ⟨⟨es', s', o'⟩, hblocks, heq⟩ := hlex
    obtain ⟨es₁', s₁', o₁', es₂, o₃, h₁', h₂, -, rfl⟩ := SpanMachine.lexBlocks_concat hblocks
    cases (SpanMachine.lexBlocks_unpaused h₁).symm.trans h₁'
    obtain rfl : o₃ = none := by simpa [SpanMachine.joinAll] using congrArg (·.2.2) heq
    obtain ⟨cs, hexec, -⟩ := SpanMachine.execute_eq h₂
    exact ⟨cs, s', hexec⟩
  have hlast := hexec
  rw [execute, ← SpanMachine.present_cut] at hlast
  have hlast := SpanMachine.executeFrom_of_unpaused hthrough hlast
  rw [SpanMachine.present_cut] at hlast
  have hb : b ≠ [] := hD.nonempty b (by simp)
  rw [hparse, hparse', parseBlocks_singleton hb (hlast.imp_left fun h => ⟨none, h⟩),
    parseBlocks_singleton hb (Or.inl ⟨none, hexec⟩)]
  rfl

/-- The beginning of such a request. -/
theorem IsComplete.parse_of_beginning {m : Llhttp σ} {w r : Bytes} {D : List Bytes}
    (hr : IsComplete m r) (hw : w <+: r) (hne : w ≠ r) (hD : Divides D w) :
    (parse m D).1 = ⟨.needMoreData, w.length⟩ := by
  obtain rfl := hD.flatten
  obtain ⟨⟨es, s, o⟩, hblocks⟩ := lexBlocks_of_lex (hr.through _ hw hne)
  have hno := hr.whole.not_complete hw hne (SpanMachine.lexBlocks_unpaused hblocks)
  obtain ⟨cs, o₁, -, hcomp, -, hparse⟩ := parse_through hblocks hD.nonempty hno []
  rw [List.append_nil] at hparse
  rw [hparse, parseBlocks, finish, if_neg (by simp [hcomp])]

/-! ### A part of llhttp

Requests `METHOD SP url SP version CRLF (field ":" value CRLF)* CRLF` without a
body, as llhttp reports them: a url stops at the blank behind it, a field at its
colon, a value starts behind the blanks and stops at its line end, and the last
line end completes the headers and the message. -/

inductive LinePc
  | start
  | method
  | urlStart
  | url
  | version
  | lineLf
  | fieldStart
  | field
  | valueStart
  | value
  | endLf
deriving DecidableEq, Repr

structure LineState where
  pc : LinePc
  post : Bool
deriving DecidableEq, Repr

def byte (c : Char) : UInt8 := c.toNat.toUInt8

def ascii (cs : List Char) : Bytes := cs.map byte

def lineStep (s : LineState) (b : UInt8) : SpanMachine.Outcome Token Notice LineState :=
  let go (pre : List (SpanMachine.Act Token Notice)) (pc : LinePc) :=
    .next pre [] { s with pc := pc }
  match s.pc with
  | .start =>
    if b = byte 'G' then .next [] [] ⟨.method, false⟩
    else if b = byte 'P' then .next [] [] ⟨.method, true⟩
    else .error
  | .method => if b = byte ' ' then go [] .urlStart else go [] .method
  | .urlStart => go [.start .url] .url
  | .url => if b = byte ' ' then go [.stop] .version else go [] .url
  | .version => if b = byte '\r' then go [] .lineLf else go [] .version
  | .lineLf => if b = byte '\n' then go [] .fieldStart else .error
  | .fieldStart => if b = byte '\r' then go [] .endLf else go [.start .headerField] .field
  | .field => if b = byte ':' then go [.stop] .valueStart else go [] .field
  | .valueStart =>
    if b = byte ' ' then go [] .valueStart
    else if b = byte '\r' then go [.start .headerValue, .stop] .lineLf
    else go [.start .headerValue] .value
  | .value => if b = byte '\r' then go [.stop] .lineLf else go [] .value
  | .endLf =>
    if b = byte '\n' then
      .next [] [.notice .headersComplete, .notice .messageComplete] { s with pc := .start }
    else .error

/-- llhttp on such requests of HTTP/1.1, which stay alive. -/
def lineLlhttp : Llhttp LineState where
  start := ⟨.start, false⟩
  step := lineStep
  methodName := fun s => if s.post then "POST" else "GET"
  shouldKeepAlive := fun _ => true

/-- A test for one request. -/
theorem isRequest_of_check {m : Llhttp σ} {w : Bytes}
    (hlex : (lex m.toMachine m.start none w).any
      (fun r => r.2.2.isNone ∧ .notice .messageComplete ∈ r.1) = true)
    (hfirst : ∀ p ∈ w.inits, p ≠ w → (lex m.toMachine m.start none p).all
      (fun r => .notice .messageComplete ∉ r.1) = true) : IsRequest m w := by
  rw [Option.any_eq_true] at hlex
  obtain ⟨⟨es, s, o⟩, heq, hr⟩ := hlex
  obtain ⟨ho, hmc⟩ := of_decide_eq_true hr
  rw [Option.isNone_iff_eq_none] at ho
  simp only at ho
  subst ho
  refine ⟨⟨es, s, heq, hmc⟩, fun p hp hne r hr => ?_⟩
  have := hfirst p ((List.mem_inits _ _).mpr hp) hne
  rw [hr] at this
  simpa using this

end HttpParser
