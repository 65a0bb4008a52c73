/-
The handlers of all connections over the blocks of `butil` (`server.hpp`, `http/parser.hpp`,
`awaiter/socket_awaiter.hpp`).

Each `handle_http_client` has three buffers, `read_buf`, `req.body` and `response_buf`, and runs on
any threads, one call on a buffer at a time.  `HttpParser::parse` looks at the blocks of `read_buf`
where they are, and its callbacks append to the body while it runs; the kernel receives into
blocks that other buffers share, and sends from the addresses that the write awaiter took.

`HttpHandler` is one handler alone, with its bytes as lists.

* `Pc`, `handlerStep` — the statements of a handler between two calls on buffers;
* `step` — any of the handlers, the kernel, or the exit of a thread.
-/
import AntServer.HttpResponses
import AntServer.IOBufWrite

namespace HttpServer

open HttpParser (Llhttp Bytes Token Notice ParserContext ParseResult HttpRequest)
open HttpHandler (responseBytes)

variable {σ : Type*}

/-- A callback of llhttp. -/
abbrev Callback := SpanMachine.Callback UInt8 Token Notice

/-! ### The buffers of a handler -/

inductive Buffer
  | read
  | body
  | response
deriving DecidableEq, Repr

/-- The number of a buffer of the connection `k`. -/
def Buffer.index (k : ℕ) : Buffer → ℕ
  | .read => 3 * k
  | .body => 3 * k + 1
  | .response => 3 * k + 2

/-! ### `HttpParser::parse` -/

/-- The loop over the blocks. -/
structure Loop (σ : Type*) where
  llhttp : σ
  span : Option Token
  ctx : ParserContext             -- without the body, which is in its buffer
  total : ℕ                       -- `total_consumed`
  i : ℕ
  count : ℕ                       -- `block_count`

/-- What `llhttp_execute` returns. -/
inductive Returned (σ : Type*)
  | ok (s : σ) (o : Option Token)
  | paused (s : σ) (n : ℕ)
  | error

def returned : SpanMachine.Result UInt8 Token Notice σ → Returned σ
  | .ok _ s o => .ok s o
  | .paused _ s n => .paused s n
  | .error => .error

/-- `buf.backing_block(i)`. -/
def backingBlock (b : IOBuf.State) (x i : ℕ) : Bytes := (b.bufs x)[i]?.elim [] (IOBuf.refBytes b)

/-- A callback on the thread `t`: the body is appended to its buffer `y`. -/
def callbackOn (cap t y : ℕ) (ctx : ParserContext) (b : IOBuf.State) :
    Callback → ParserContext × IOBuf.State
  | .data .body bs => (ctx, IOBuf.append cap t y bs b)
  | c => (HttpParser.callback ctx c, b)

/-! ### The handler -/

inductive Pc (σ : Type*)
  | parse                                             -- before `parser.parse(read_buf, req)`
  | block (l : Loop σ)                                -- at the head of the loop over the blocks
  | callbacks (l : Loop σ) (n : ℕ) (cs : List Callback) (r : Returned σ)
                                                      -- in `llhttp_execute` on `n` bytes
  | read                                              -- `PARSE_NEED_MORE_DATA`
  | reading
  | pop (n : ℕ) (keepAlive : Bool)                    -- `PARSE_SUCCESS`
  | respond (keepAlive : Bool)
  | write (keepAlive : Bool)
  | writing (keepAlive : Bool) (w : IOBuf.WriteAwaiter) (result : Option ℤ)
  | closing
  | clearing (ys : List Buffer) (leave : Bool)        -- buffers are emptied or destroyed
  | returned

structure Connection (σ : Type*) where
  pc : Pc σ
  -- history
  requests : List (ParseResult × HttpRequest)         -- the results `PARSE_SUCCESS`
  accepted : Bytes                                    -- by the kernel

def Connection.init : Connection σ := ⟨.parse, [], []⟩

def Connection.goto (x : Connection σ) (pc : Pc σ) : Connection σ := { x with pc := pc }

/-- The request with its body. -/
def request (m : Llhttp σ) (l : Loop σ) (body : Bytes) : HttpRequest :=
  { l.ctx.req with
    method := m.methodName l.llhttp
    keepAlive := m.shouldKeepAlive l.llhttp
    body := body }

/-- The end of `parse`, after the loop, and what the handler does with the result. -/
def finish (m : Llhttp σ) (x : Connection σ) (l : Loop σ) (body : Bytes) : Connection σ :=
  if l.ctx.req.complete then
    { x with
      pc := .pop l.total (m.shouldKeepAlive l.llhttp)
      requests := x.requests ++ [(⟨.success, l.total⟩, request m l body)] }
  else x.goto .read

/-- After the write: a response of a keep-alive connection is destroyed with the request. -/
def afterWrite (keepAlive : Bool) : Pc σ :=
  if keepAlive then .clearing [.body, .response] false else .closing

/-- The handler of `k` goes on, on the thread `t`, up to and with its next call on a buffer. -/
def handlerStep (m : Llhttp σ) (cap t k : ℕ) (b : IOBuf.State) (x : Connection σ) :
    Option (IOBuf.State × Connection σ) :=
  let read := Buffer.read.index k
  let body := Buffer.body.index k
  let response := Buffer.response.index k
  match x.pc with
  | .parse =>
    -- `reset()` and `req = HttpRequest {}`
    let b := IOBuf.clear body b
    some (b, x.goto (.block ⟨m.start, none, .empty, 0, 0, (b.bufs read).length⟩))
  | .block l =>
    if l.i < l.count then
      let blk := backingBlock b read l.i
      if blk.isEmpty then some (b, x.goto (.block { l with i := l.i + 1 }))
      else
        let o := l.span.map fun t => (t, [])
        some (b, x.goto (.callbacks l blk.length (SpanMachine.emitted m.toMachine l.llhttp o blk)
          (returned (SpanMachine.execute m.toMachine l.llhttp l.span blk))))
    else some (b, finish m x l (IOBuf.contents b body))
  | .callbacks l n (c :: cs) r =>
    let (ctx, b) := callbackOn cap t body l.ctx b c
    some (b, x.goto (.callbacks { l with ctx := ctx } n cs r))
  | .callbacks l n [] (.ok s o) =>
    let l := { l with llhttp := s, span := o, total := l.total + n, i := l.i + 1 }
    if l.ctx.req.complete then some (b, finish m x l (IOBuf.contents b body))
    else some (b, x.goto (.block l))
  | .callbacks l _ [] (.paused s n) =>
    some (b, finish m x { l with llhttp := s, total := l.total + n } (IOBuf.contents b body))
  | .callbacks _ _ [] .error => some (b, x.goto .closing)
  | .read => some (IOBuf.awaitSuspend cap t k read b, x.goto .reading)
  | .reading =>
    (b.reads k).bind fun r => r.result.bind fun result =>
      (IOBuf.awaitResume k b).map fun b =>
        (b, x.goto (if result.1 ≤ 0 then .closing else .parse))
  | .pop n keepAlive => some (IOBuf.popFront read n b, x.goto (.respond keepAlive))
  | .respond keepAlive =>
    some (IOBuf.append cap t response (responseBytes keepAlive) b, x.goto (.write keepAlive))
  | .write keepAlive =>
    (IOBuf.initIov b response).map fun w =>
      (b, x.goto (if w.awaitReady then afterWrite keepAlive else .writing keepAlive w none))
  | .writing keepAlive _ (some _) => some (b, x.goto (afterWrite keepAlive))
  | .clearing (y :: ys) leave => some (IOBuf.clear (y.index k) b, x.goto (.clearing ys leave))
  | .clearing [] leave => some (b, x.goto (if leave then .returned else .parse))
  | .writing _ _ none | .closing | .returned => none

/-! ### The server -/

structure State (σ : Type*) where
  bufs : IOBuf.State
  connection : ℕ → Connection σ

def init : State σ := ⟨IOBuf.init, fun _ => .init⟩

def State.set (s : State σ) (k : ℕ) (b : IOBuf.State) (x : Connection σ) : State σ :=
  ⟨b, Function.update s.connection k x⟩

inductive Label
  | handler (t k : ℕ)                                 -- on the thread `t`
  | received (k : ℕ) (res : ℤ) (data : Bytes)         -- the kernel completes a read
  | sent (k : ℕ) (n : ℤ)                              -- a write
  | closed (k : ℕ)                                    -- a close
  | exit (t : ℕ)
deriving DecidableEq, Repr

/-- The kernel sends the first `n` of the bytes that it finds at the addresses, or none. -/
def sentStep (b : IOBuf.State) (x : Connection σ) (n : ℤ) : Option (Connection σ) :=
  match x.pc with
  | .writing keepAlive w none =>
    if n < 0 ∨ 1 ≤ n ∧ n ≤ w.totalLen then
      some { x with
        pc := .writing keepAlive w (some n)
        accepted := x.accepted ++ (w.submit.bytes b.memory).take n.toNat }
    else none
  | _ => none

/-- After the close the handler returns, and its buffers are destroyed. -/
def closedStep (x : Connection σ) : Option (Connection σ) :=
  match x.pc with
  | .closing => some (x.goto (.clearing [.response, .body, .read] true))
  | _ => none

def step (m : Llhttp σ) (cap : ℕ) (s : State σ) : Label → Option (State σ)
  | .handler t k =>
    (handlerStep m cap t k s.bufs (s.connection k)).map fun r => s.set k r.1 r.2
  | .received k res data => (IOBuf.complete k res data s.bufs).map fun b => { s with bufs := b }
  | .sent k n => (sentStep s.bufs (s.connection k) n).map fun x => s.set k s.bufs x
  | .closed k => (closedStep (s.connection k)).map fun x => s.set k s.bufs x
  | .exit t => some { s with bufs := IOBuf.removeTlsBlockChain t s.bufs }

end HttpServer
