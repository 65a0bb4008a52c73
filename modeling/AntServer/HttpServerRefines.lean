/-
The handlers over shared blocks are handlers with bytes of their own.

A step of a handler is a step of the handler alone, or none where the handler alone does several
things at once; a step of another handler, or of the kernel for it, is none.

* `Pc.phase`, `Pc.readBuf`, `Pc.unseen` — where the handler alone is;
* `Pc.Ok` — what the statements ahead rely on;
* `Sim` — the relation, kept by every step;
* `server_refines` — **every handler of every run is a handler alone** (`HttpHandler.wireStep`)
  with the bytes that were received for it.
-/
import AntServer.HttpServerBuffers

namespace HttpServer

open HttpParser (Llhttp Bytes Token Notice ParserContext ParseResult HttpRequest)
open HttpHandler (responseBytes)

/-! ### The handler alone -/

variable {σ : Type*} {m : Llhttp σ}

namespace Pc

/-- Where the handler alone is. -/
def phase : Pc σ → HttpHandler.Phase
  | .parse | .block _ | .callbacks .. | .clearing _ false => .parsing
  | .read | .reading => .reading
  | .pop _ keepAlive | .respond keepAlive | .write keepAlive | .writing keepAlive _ _ =>
    .writing keepAlive
  | .closing => .closing
  | .clearing _ true | .returned => .returned

/-- Accepted by the kernel, with a result that has not been seen yet. -/
def unseen : Pc σ → Bytes
  | .writing keepAlive _ (some n) => (responseBytes keepAlive).take n.toNat
  | _ => []

/-- Its read buffer, until it returns. -/
def readBuf (b : IOBuf.State) (k : ℕ) : Pc σ → Option (List Bytes)
  | .pop n _ => some (HttpHandler.popFront n (blocks b (Buffer.read.index k)))
  | .clearing _ true | .returned => none
  | _ => some (blocks b (Buffer.read.index k))

/-- The target of the read that it waits for. -/
def target (k : ℕ) : Pc σ → Option ℕ
  | .reading => some (Buffer.read.index k)
  | _ => none

end Pc

def withBody (ctx : ParserContext) (body : Bytes) : ParserContext :=
  { ctx with req := { ctx.req with body := body } }

/-- The context with the body from its buffer. -/
def Loop.full (l : Loop σ) (b : IOBuf.State) (k : ℕ) : ParserContext :=
  withBody l.ctx (IOBuf.contents b (Buffer.body.index k))

/-- What is still to come of the loop gives the result of `parse` on the whole buffer. -/
def Loop.Ok (m : Llhttp σ) (b : IOBuf.State) (k : ℕ) (l : Loop σ) : Prop :=
  l.count = (blocks b (Buffer.read.index k)).length ∧
    HttpParser.parseBlocks m l.llhttp l.span (l.full b k) l.total
      ((blocks b (Buffer.read.index k)).drop l.i) =
    HttpParser.parse m (blocks b (Buffer.read.index k))

/-- Likewise within `llhttp_execute`, when the callbacks `cs` are still to come. -/
def Executes (m : Llhttp σ) (b : IOBuf.State) (k : ℕ) (l : Loop σ) (n : ℕ) (cs : List Callback) :
    Returned σ → Prop
  | .ok s o =>
    l.count = (blocks b (Buffer.read.index k)).length ∧
    (let ctx := cs.foldl HttpParser.callback (l.full b k)
      if ctx.req.complete then HttpParser.finish m s ctx.req (l.total + n)
      else HttpParser.parseBlocks m s o ctx (l.total + n)
        ((blocks b (Buffer.read.index k)).drop (l.i + 1))) =
    HttpParser.parse m (blocks b (Buffer.read.index k))
  | .paused s n' =>
    HttpParser.finish m s (cs.foldl HttpParser.callback (l.full b k)).req (l.total + n') =
      HttpParser.parse m (blocks b (Buffer.read.index k))
  | .error => (HttpParser.parse m (blocks b (Buffer.read.index k))).1.status = .error

/-- What the statements behind `pc` rely on. -/
def Pc.Ok (m : Llhttp σ) (b : IOBuf.State) (k : ℕ) (pc : Pc σ) : Prop :=
  let response := IOBuf.contents b (Buffer.response.index k)
  match pc with
  | .parse | .read | .reading | .pop .. | .respond _ => response = []
  | .block l => response = [] ∧ l.Ok m b k ∧ l.ctx.req.complete = false
  | .callbacks l n cs r => response = [] ∧ Executes m b k l n cs r
  | .write keepAlive => response = responseBytes keepAlive
  | .writing keepAlive w result =>
    response = responseBytes keepAlive ∧
      IOBuf.initIov b (Buffer.response.index k) = some w ∧
      ∀ n ∈ result, n < 0 ∨ 1 ≤ n ∧ n ≤ w.totalLen
  | .clearing ys leave => leave = true ∨ .read ∉ ys ∧ (.response ∈ ys ∨ response = [])
  | .closing | .returned => True

/-- The result that a read has and that has not been seen yet. -/
def arrived (b : IOBuf.State) (k : ℕ) : List Bytes :=
  match b.spec.reads k with
  | some (_, some (res, bytes)) => if 0 < res then [bytes] else []
  | _ => []

/-- The blocks that a result brings. -/
def seen : HttpHandler.Label → List Bytes
  | .readDone (.data bs) => bs
  | _ => []

/-- The handler of `k`, for which the blocks `recv` were received, is where the handler alone is
after the results `hs`. -/
structure Sim (m : Llhttp σ) (k : ℕ) (b : IOBuf.State) (x : Connection σ) (recv : List Bytes)
    (hs : List HttpHandler.Label) (c : HttpHandler.Connection) : Prop where
  run : StepSystem.run (HttpHandler.wireStep m) .init hs = some c
  phase : c.handler.phase = x.pc.phase
  requests : c.handler.requests = x.requests
  accepted : c.accepted ++ x.pc.unseen = x.accepted
  readBuf : ∀ B ∈ x.pc.readBuf b k, c.handler.readBuf = B
  received : hs.flatMap seen ++ arrived b k = recv
  target : (b.spec.reads k).map Prod.fst = x.pc.target k
  ok : x.pc.Ok m b k

theorem sim_init (m : Llhttp σ) (k : ℕ) :
    Sim m k IOBuf.init .init [] [] HttpHandler.Connection.init where
  run := rfl
  phase := rfl
  requests := rfl
  accepted := rfl
  readBuf := fun _ hB => Option.some.inj hB
  received := rfl
  target := rfl
  ok := rfl

/-! ### Steps of others -/

theorem Buffer.index_inj {k k' : ℕ} {y y' : Buffer} (h : y.index k = y'.index k') :
    k = k' ∧ y = y' := by
  cases y <;> cases y' <;> simp only [Buffer.index] at h <;>
    first
      | exact ⟨by omega, rfl⟩
      | omega

section Frame

variable {b b' : IOBuf.State} {k : ℕ}

/-- What the statements rely on is in the buffers of the connection. -/
theorem Pc.Ok.same {pc : Pc σ} (h : pc.Ok m b k) (hread : Same (Buffer.read.index k) b b')
    (hbody : Same (Buffer.body.index k) b b') (hresponse : Same (Buffer.response.index k) b b') :
    pc.Ok m b' k := by
  have hfull : ∀ l : Loop σ, l.full b' k = l.full b k := fun l => by
    rw [Loop.full, hbody.contents, Loop.full]
  cases pc with
  | block l =>
    simp only [Pc.Ok, Loop.Ok, hresponse.contents, hread.blocks, hfull] at h ⊢
    exact h
  | callbacks l n cs r =>
    cases r <;>
    · simp only [Pc.Ok, Executes, hresponse.contents, hread.blocks, hfull] at h ⊢
      exact h
  | closing | returned => trivial
  | _ =>
    simp only [Pc.Ok, hresponse.contents, hresponse.iov] at h ⊢
    exact h

theorem arrived_congr (hreads : b'.spec.reads k = b.spec.reads k) : arrived b' k = arrived b k := by
  rw [arrived, hreads, arrived]

theorem readBuf_congr (hread : Same (Buffer.read.index k) b b') (pc : Pc σ) :
    pc.readBuf b' k = pc.readBuf b k := by
  unfold Pc.readBuf
  rw [hread.blocks]

theorem Sim.frame {x : Connection σ} {recv : List Bytes} {hs : List HttpHandler.Label}
    {c : HttpHandler.Connection} (h : Sim m k b x recv hs c)
    (hsame : ∀ y : Buffer, Same (y.index k) b b') (hreads : b'.spec.reads k = b.spec.reads k) :
    Sim m k b' x recv hs c where
  run := h.run
  phase := h.phase
  requests := h.requests
  accepted := h.accepted
  readBuf := by
    rw [readBuf_congr (hsame .read)]
    exact h.readBuf
  received := by
    rw [arrived_congr hreads]
    exact h.received
  target := by
    rw [hreads]
    exact h.target
  ok := h.ok.same (hsame .read) (hsame .body) (hsame .response)

end Frame

/-! ### Steps of the handler -/

section Handler

variable {b b' : IOBuf.State} {k : ℕ} {x x' : Connection σ} {recv : List Bytes}
  {hs : List HttpHandler.Label} {c : HttpHandler.Connection} {pc : Pc σ}

/-- The handler alone stays where it is. -/
theorem Sim.stay (h : Sim m k b x recv hs c) (hphase : pc.phase = x.pc.phase)
    (hunseen : pc.unseen = x.pc.unseen) (hread : ∀ B ∈ pc.readBuf b' k, c.handler.readBuf = B)
    (hreads : b'.spec.reads k = b.spec.reads k) (htarget : pc.target k = x.pc.target k)
    (hok : pc.Ok m b' k) : Sim m k b' (x.goto pc) recv hs c where
  run := h.run
  phase := h.phase.trans hphase.symm
  requests := h.requests
  accepted := by
    show c.accepted ++ pc.unseen = x.accepted
    rw [hunseen]
    exact h.accepted
  readBuf := hread
  received := by
    rw [arrived_congr hreads]
    exact h.received
  target := by
    rw [hreads, h.target]
    exact htarget.symm
  ok := hok

/-- The handler alone takes a step. -/
theorem Sim.move (h : Sim m k b x recv hs c) {l : HttpHandler.Label} {recv' : List Bytes}
    {next : HttpHandler.State}
    (hkernel : HttpHandler.KernelResult c.handler.phase l)
    (hstep : HttpHandler.step m c.handler l = some next) (hphase : next.phase = x'.pc.phase)
    (hrequests : next.requests = x'.requests)
    (haccepted : c.accepted ++ HttpHandler.written c.handler.phase l ++ x'.pc.unseen = x'.accepted)
    (hread : ∀ B ∈ x'.pc.readBuf b' k, next.readBuf = B)
    (hreceived : hs.flatMap seen ++ (seen l ++ arrived b' k) = recv')
    (htarget : (b'.spec.reads k).map Prod.fst = x'.pc.target k) (hok : x'.pc.Ok m b' k) :
    ∃ hs' c', Sim m k b' x' recv' hs' c' := by
  refine ⟨hs ++ [l], ⟨next, c.accepted ++ HttpHandler.written c.handler.phase l⟩, ?_, hphase,
    hrequests, haccepted, hread, ?_, htarget, hok⟩
  · exact StepSystem.run_concat.mpr ⟨c, h.run, HttpHandler.wireStep_of_step hkernel hstep⟩
  · rw [List.flatMap_append, List.flatMap_singleton, List.append_assoc]
    exact hreceived

/-- The end of `parse` is the step of the handler alone. -/
theorem Sim.parsed (h : Sim m k b x recv hs c) {l : Loop σ} (hphase : x.pc.phase = .parsing)
    (hunseen : x.pc.unseen = []) (htarget : x.pc.target k = none)
    (hread : x.pc.readBuf b k = some (blocks b (Buffer.read.index k)))
    (hresponse : IOBuf.contents b (Buffer.response.index k) = [])
    (hfinish : HttpParser.finish m l.llhttp (l.full b k).req l.total =
      HttpParser.parse m (blocks b (Buffer.read.index k))) :
    ∃ hs' c', Sim m k b (finish m x l (IOBuf.contents b (Buffer.body.index k))) recv hs' c' := by
  have hparsing : c.handler.phase = .parsing := h.phase.trans hphase
  have hkernel : HttpHandler.KernelResult c.handler.phase .parse := by
    rw [hparsing]
    trivial
  have hstep : HttpHandler.step m c.handler .parse = some (HttpHandler.parseStep m c.handler) := by
    rw [HttpHandler.step, if_pos hparsing]
  have haccepted : c.accepted ++ HttpHandler.written c.handler.phase .parse ++ [] = x.accepted := by
    rw [hparsing, ← h.accepted, hunseen]
    exact List.append_nil _
  have hnone : (b.spec.reads k).map Prod.fst = none := h.target.trans htarget
  rw [← h.readBuf _ hread] at hfinish
  have hcomplete : (l.full b k).req.complete = l.ctx.req.complete := rfl
  rw [HttpParser.finish, hcomplete] at hfinish
  rw [finish]
  split at hfinish
  next hdone =>
    rw [if_pos hdone]
    refine h.move hkernel hstep ?_ ?_ haccepted (fun B hB => ?_) h.received hnone hresponse
    · rw [HttpHandler.parseStep, ← hfinish]
      rfl
    · rw [HttpHandler.parseStep, ← hfinish, ← h.requests]
      rfl
    · obtain rfl := Option.some.inj hB
      rw [HttpHandler.parseStep, ← hfinish, ← h.readBuf _ hread]
  next hmore =>
    rw [if_neg hmore]
    refine h.move hkernel hstep ?_ ?_ haccepted (fun B hB => ?_) h.received hnone hresponse
    · rw [HttpHandler.parseStep, ← hfinish]
      rfl
    · rw [HttpHandler.parseStep, ← hfinish]
      exact h.requests
    · obtain rfl := Option.some.inj hB
      rw [HttpHandler.parseStep, ← hfinish]
      exact h.readBuf _ hread

variable {cap t : ℕ}

/-- `parse` begins: the request is emptied. -/
theorem Sim.parseStep (hcap : 0 < cap) (hb : IOBuf.Inv b []) (h : Sim m k b x recv hs c)
    (hpc : x.pc = .parse) (hs' : handlerStep m cap t k b x = some (b', x')) :
    Sim m k b' x' recv hs c := by
  simp only [handlerStep, hpc, Option.some.injEq, Prod.mk.injEq] at hs'
  obtain ⟨rfl, rfl⟩ := hs'
  have hcall : IOBuf.step cap b (.clear (Buffer.body.index k)) =
      some (IOBuf.clear (Buffer.body.index k) b) := rfl
  obtain ⟨-, hspec⟩ := inv_call hcap hb hcall
  have hread := Same.of_spares (y := Buffer.read.index k) hcap hb hcall fun he =>
    by cases (Buffer.index_inj he).2
  have hresponse := Same.of_spares (y := Buffer.response.index k) hcap hb hcall fun he =>
    by cases (Buffer.index_inj he).2
  have hok := h.ok
  rw [hpc] at hok
  refine h.stay (by rw [hpc]; rfl) (by rw [hpc]; rfl) (fun B hB => ?_) (by rw [hspec]; rfl)
    (by rw [hpc]; rfl) ⟨hresponse.contents.trans hok, ⟨?_, ?_⟩, rfl⟩
  · obtain rfl := Option.some.inj hB
    rw [hread.blocks]
    exact h.readBuf _ (by rw [hpc]; rfl)
  · rw [blocks, List.length_map]
  · rw [Loop.full, contents_clear hb]
    rfl

/-- The next block is given to llhttp; after the last one `parse` ends. -/
theorem Sim.blockStep {l : Loop σ} (h : Sim m k b x recv hs c) (hpc : x.pc = .block l)
    (hs' : handlerStep m cap t k b x = some (b', x')) :
    b' = b ∧ ∃ hs' c', Sim m k b x' recv hs' c' := by
  have hok := h.ok
  rw [hpc] at hok
  obtain ⟨hresponse, ⟨hcount, hparse⟩, hmore⟩ := hok
  have hread : x.pc.readBuf b k = some (blocks b (Buffer.read.index k)) := by
    rw [hpc]
    rfl
  simp only [handlerStep, hpc] at hs'
  split at hs'
  next hi =>
    rw [hcount] at hi
    have hblk : backingBlock b (Buffer.read.index k) l.i =
        (blocks b (Buffer.read.index k))[l.i] := by
      rw [backingBlock_eq, List.getElem?_eq_getElem hi, Option.getD_some]
    rw [List.drop_eq_getElem_cons hi, ← hblk, HttpParser.parseBlocks] at hparse
    have hstay : ∀ pc : Pc σ, pc.phase = .parsing → pc.unseen = [] →
        pc.readBuf b k = some (blocks b (Buffer.read.index k)) → pc.target k = none →
        pc.Ok m b k → Sim m k b (x.goto pc) recv hs c := by
      intro pc hphase hunseen hbuf htarget hok
      refine h.stay (by rw [hpc]; exact hphase) (by rw [hpc]; exact hunseen) (fun B hB => ?_) rfl
        (by rw [hpc]; exact htarget) hok
      obtain rfl := Option.some.inj (hbuf.symm.trans hB)
      exact h.readBuf _ hread
    split at hs'
    next hempty =>
      rw [if_pos hempty] at hparse
      obtain ⟨rfl, rfl⟩ := Prod.mk.inj (Option.some.inj hs')
      exact ⟨rfl, hs, c, hstay _ rfl rfl rfl rfl ⟨hresponse, ⟨hcount, hparse⟩, hmore⟩⟩
    next hne =>
      rw [if_neg hne] at hparse
      obtain ⟨rfl, rfl⟩ := Prod.mk.inj (Option.some.inj hs')
      refine ⟨rfl, hs, c, hstay _ rfl rfl rfl rfl ⟨hresponse, ?_⟩⟩
      have hemitted := SpanMachine.emitted_eq m.toMachine l.llhttp (l.span.map fun t => (t, []))
        (backingBlock b (Buffer.read.index k) l.i)
      cases hexec : SpanMachine.execute m.toMachine l.llhttp l.span
        (backingBlock b (Buffer.read.index k) l.i) with
      | ok cs s o =>
        rw [hexec] at hparse
        rw [hemitted.1 cs s o hexec]
        exact ⟨hcount, hparse⟩
      | paused cs s n =>
        rw [hexec] at hparse
        rw [hemitted.2 cs s n hexec]
        exact hparse
      | error =>
        rw [hexec] at hparse
        exact congrArg (fun r : ParseResult × HttpRequest => r.1.status) hparse.symm
  next hi =>
    obtain ⟨rfl, rfl⟩ := Prod.mk.inj (Option.some.inj hs')
    rw [List.drop_eq_nil_of_le (hcount ▸ not_lt.mp hi), HttpParser.parseBlocks] at hparse
    exact ⟨rfl, h.parsed (by rw [hpc]; rfl) (by rw [hpc]; rfl) (by rw [hpc]; rfl) hread hresponse
      hparse⟩

/-- Only its own callback looks at the body. -/
theorem callback_withBody (ctx : ParserContext) (body : Bytes) {cb : Callback}
    (hcb : ∀ bs, cb ≠ .data .body bs) :
    HttpParser.callback (withBody ctx body) cb = withBody (HttpParser.callback ctx cb) body := by
  cases cb with
  | data token bs =>
    cases token with
    | body => exact absurd rfl (hcb bs)
    | headerField =>
      show HttpParser.onHeaderField _ bs = withBody (HttpParser.onHeaderField ctx bs) body
      have hvalue : (withBody ctx body).currentValue = ctx.currentValue := rfl
      rw [HttpParser.onHeaderField, HttpParser.onHeaderField, hvalue]
      by_cases hempty : ctx.currentValue.isEmpty = true
      · rw [if_pos hempty, if_pos hempty]
        rfl
      · rw [if_neg hempty, if_neg hempty]
        rfl
    | url | headerValue => rfl
  | notice n =>
    cases n with
    | headersComplete =>
      show HttpParser.onHeadersComplete _ = withBody (HttpParser.onHeadersComplete ctx) body
      have hfield : (withBody ctx body).currentField = ctx.currentField := rfl
      rw [HttpParser.onHeadersComplete, HttpParser.onHeadersComplete, hfield]
      by_cases hempty : ctx.currentField.isEmpty = true
      · rw [if_pos hempty, if_pos hempty]
      · rw [if_neg hempty, if_neg hempty]
        rfl
    | messageComplete => rfl

theorem callbackOn_of_ne {ctx : ParserContext} {cb : Callback} (hcb : ∀ bs, cb ≠ .data .body bs) :
    callbackOn cap t (Buffer.body.index k) ctx b cb = (HttpParser.callback ctx cb, b) := by
  rw [callbackOn]
  exact hcb

/-- A callback over the buffers is the callback on lists. -/
theorem callbackOn_spec (hcap : 0 < cap) (hb : IOBuf.Inv b []) {ctx ctx' : ParserContext}
    {cb : Callback} (hcb : callbackOn cap t (Buffer.body.index k) ctx b cb = (ctx', b')) :
    withBody ctx' (IOBuf.contents b' (Buffer.body.index k)) =
        HttpParser.callback (withBody ctx (IOBuf.contents b (Buffer.body.index k))) cb ∧
      Same (Buffer.read.index k) b b' ∧ Same (Buffer.response.index k) b b' ∧
      b'.spec.reads k = b.spec.reads k := by
  by_cases hbody : ∃ bs, cb = .data .body bs
  · obtain ⟨bs, rfl⟩ := hbody
    obtain ⟨rfl, rfl⟩ := Prod.mk.inj hcb
    have hcall : IOBuf.step cap b (.append t (Buffer.body.index k) bs) =
        some (IOBuf.append cap t (Buffer.body.index k) bs b) := rfl
    obtain ⟨-, hspec⟩ := inv_call hcap hb hcall
    refine ⟨?_, .of_spares hcap hb hcall fun he => ?_, .of_spares hcap hb hcall fun he => ?_, ?_⟩
    · rw [contents_append hcap hb]
      rfl
    · cases (Buffer.index_inj he).2
    · cases (Buffer.index_inj he).2
    · rw [hspec]
      rfl
  · have hne : ∀ bs, cb ≠ .data .body bs := fun bs he => hbody ⟨bs, he⟩
    obtain ⟨rfl, rfl⟩ := Prod.mk.inj ((callbackOn_of_ne hne).symm.trans hcb)
    exact ⟨(callback_withBody ctx _ hne).symm, .refl _ b, .refl _ b, rfl⟩

/-- A callback of llhttp. -/
theorem Sim.callbackStep (hcap : 0 < cap) (hb : IOBuf.Inv b []) {l : Loop σ} {n : ℕ}
    {cb : Callback} {cs : List Callback} {r : Returned σ} (h : Sim m k b x recv hs c)
    (hpc : x.pc = .callbacks l n (cb :: cs) r)
    (hs' : handlerStep m cap t k b x = some (b', x')) : Sim m k b' x' recv hs c := by
  simp only [handlerStep, hpc] at hs'
  generalize hon : callbackOn cap t (Buffer.body.index k) l.ctx b cb = on at hs'
  obtain ⟨ctx', b''⟩ := on
  obtain ⟨rfl, rfl⟩ := Prod.mk.inj (Option.some.inj hs')
  obtain ⟨hfull, hread, hresponse, hreads⟩ := callbackOn_spec hcap hb hon
  have hok := h.ok
  rw [hpc] at hok
  obtain ⟨hempty, hexec⟩ := hok
  refine h.stay (by rw [hpc]; rfl) (by rw [hpc]; rfl) (fun B hB => ?_) hreads (by rw [hpc]; rfl)
    ⟨hresponse.contents.trans hempty, ?_⟩
  · obtain rfl := Option.some.inj hB
    rw [hread.blocks]
    exact h.readBuf _ (by rw [hpc]; rfl)
  · have hfull' : ({ l with ctx := ctx' } : Loop σ).full b'' k =
        HttpParser.callback (l.full b k) cb := hfull
    cases r with
    | ok s o | paused s o =>
      simp only [Executes, hread.blocks, hfull']
      exact hexec
    | error =>
      simp only [Executes, hread.blocks]
      exact hexec

/-- `llhttp_execute` returns. -/
theorem Sim.returnStep {l : Loop σ} {n : ℕ} {r : Returned σ} (h : Sim m k b x recv hs c)
    (hpc : x.pc = .callbacks l n [] r) (hs' : handlerStep m cap t k b x = some (b', x')) :
    b' = b ∧ ∃ hs' c', Sim m k b x' recv hs' c' := by
  have hok := h.ok
  rw [hpc] at hok
  obtain ⟨hresponse, hexec⟩ := hok
  have hphase : x.pc.phase = .parsing := by rw [hpc]; rfl
  have hunseen : x.pc.unseen = [] := by rw [hpc]; rfl
  have htarget : x.pc.target k = none := by rw [hpc]; rfl
  have hread : x.pc.readBuf b k = some (blocks b (Buffer.read.index k)) := by rw [hpc]; rfl
  cases r with
  | ok s o =>
    have hcount := hexec.1
    have hparse : (if l.ctx.req.complete = true then
          HttpParser.finish m s (l.full b k).req (l.total + n)
        else HttpParser.parseBlocks m s o (l.full b k) (l.total + n)
          ((blocks b (Buffer.read.index k)).drop (l.i + 1))) =
        HttpParser.parse m (blocks b (Buffer.read.index k)) := hexec.2
    simp only [handlerStep, hpc] at hs'
    by_cases hdone : l.ctx.req.complete = true
    · rw [if_pos hdone] at hparse hs'
      obtain ⟨rfl, rfl⟩ := Prod.mk.inj (Option.some.inj hs')
      exact ⟨rfl, h.parsed hphase hunseen htarget hread hresponse hparse⟩
    · rw [if_neg hdone] at hparse hs'
      obtain ⟨rfl, rfl⟩ := Prod.mk.inj (Option.some.inj hs')
      refine ⟨rfl, hs, c, h.stay hphase.symm hunseen.symm (fun B hB => ?_) rfl htarget.symm
        ⟨hresponse, ⟨hcount, hparse⟩, Bool.eq_false_iff.mpr hdone⟩⟩
      obtain rfl := Option.some.inj hB
      exact h.readBuf _ hread
  | paused s n' =>
    simp only [handlerStep, hpc, Option.some.injEq, Prod.mk.injEq] at hs'
    obtain ⟨rfl, rfl⟩ := hs'
    exact ⟨rfl, h.parsed hphase hunseen htarget hread hresponse hexec⟩
  | error =>
    simp only [handlerStep, hpc, Option.some.injEq, Prod.mk.injEq] at hs'
    obtain ⟨rfl, rfl⟩ := hs'
    have hparsing : c.handler.phase = .parsing := h.phase.trans hphase
    have hkernel : HttpHandler.KernelResult c.handler.phase .parse := by
      rw [hparsing]
      trivial
    have hbuf := h.readBuf _ hread
    have hexec : (HttpParser.parse m c.handler.readBuf).1.status = .error := hbuf ▸ hexec
    have hstep : HttpHandler.step m c.handler .parse =
        some (HttpHandler.issueClose c.handler) := by
      rw [HttpHandler.step, if_pos hparsing, HttpHandler.parseStep, hexec]
    refine ⟨rfl, h.move hkernel hstep rfl h.requests ?_ (fun B hB => ?_) h.received
      (h.target.trans htarget) trivial⟩
    · rw [hparsing]
      show c.accepted ++ [] ++ [] = x.accepted
      rw [← h.accepted, hunseen, List.append_nil]
    · obtain rfl := Option.some.inj hB
      exact hbuf

theorem reads_eq_none (h : (b.spec.reads k).map Prod.fst = none) : b.reads k = none :=
  Option.map_eq_none_iff.mp (Option.map_eq_none_iff.mp h)

/-- A read is submitted. -/
theorem Sim.readStep (hcap : 0 < cap) (hb : IOBuf.Inv b []) (h : Sim m k b x recv hs c)
    (hpc : x.pc = .read) (hs' : handlerStep m cap t k b x = some (b', x')) :
    Sim m k b' x' recv hs c := by
  simp only [handlerStep, hpc, Option.some.injEq, Prod.mk.injEq] at hs'
  obtain ⟨rfl, rfl⟩ := hs'
  have hnone : (b.spec.reads k).map Prod.fst = none := by
    rw [h.target, hpc]
    rfl
  have hcall : IOBuf.step cap b (.suspend t k (Buffer.read.index k)) =
      some (IOBuf.awaitSuspend cap t k (Buffer.read.index k) b) :=
    if_pos (reads_eq_none hnone)
  obtain ⟨-, hspec⟩ := inv_call hcap hb hcall
  have hreads : (IOBuf.awaitSuspend cap t k (Buffer.read.index k) b).spec.reads k =
      some (Buffer.read.index k, none) := by
    rw [hspec]
    exact Function.update_self ..
  have hread := Same.of_spares (y := Buffer.read.index k) hcap hb hcall trivial
  have hresponse := Same.of_spares (y := Buffer.response.index k) hcap hb hcall trivial
  have hok := h.ok
  rw [hpc] at hok
  refine ⟨h.run, ?_, h.requests, ?_, fun B hB => ?_, ?_, ?_, hresponse.contents.trans hok⟩
  · rw [h.phase, hpc]
    rfl
  · have haccepted := h.accepted
    rw [hpc] at haccepted
    exact haccepted
  · obtain rfl := Option.some.inj hB
    rw [hread.blocks]
    exact h.readBuf _ (by rw [hpc]; rfl)
  · have hold : arrived b k = [] := by
      rw [arrived, Option.map_eq_none_iff.mp hnone]
    have hnew : arrived (IOBuf.awaitSuspend cap t k (Buffer.read.index k) b) k = [] := by
      rw [arrived, hreads]
    rw [hnew, ← h.received, hold]
  · rw [hreads]
    rfl

/-- A read that brought nothing leaves all buffers. -/
theorem resume_same {i y : ℕ} {r : IOBuf.Read} {res : ℤ} {bytes : Bytes} (hb : IOBuf.Inv b [])
    (hs : IOBuf.awaitResume i b = some b') (hi : b.reads i = some r)
    (hres : r.result = some (res, bytes)) (hneg : ¬ 0 < res) : Same y b b' := by
  obtain ⟨w, res', bytes', hw, hwres, -, heq⟩ := IOBuf.awaitResume_cases hs
  obtain rfl := Option.some.inj (hi.symm.trans hw)
  obtain ⟨rfl, rfl⟩ := Prod.mk.inj (Option.some.inj (hres.symm.trans hwres))
  obtain ⟨w, res', bytes', hw, hwres', hlen, hm⟩ := IOBuf.Models.awaitResume ⟨hb, rfl⟩ hs
  obtain rfl := Option.some.inj (hi.symm.trans hw)
  obtain ⟨rfl, rfl⟩ := Prod.mk.inj (Option.some.inj (hres.symm.trans hwres'))
  have hread : IOBuf.Undisturbed y b (b.setRead i none) := .of_blocks rfl rfl rfl
  have hsame : IOBuf.Undisturbed y b b' := heq hneg ▸ hread.trans (.decRef r.block)
  refine .of_undisturbed hsame hb hm.inv ?_
  have hnil : bytes = [] := List.eq_nil_of_length_eq_zero (by omega)
  rw [hm.contents, hnil, List.append_nil]
  exact congrFun (congrArg IOBuf.Spec.bufs (IOBuf.Spec.setBuf_bufs (b.spec.setRead i none) r.buf)) y

/-- The read is resumed: the bytes received are a block of the buffer, or the handler closes. -/
theorem Sim.resumeStep (hcap : 0 < cap) (hb : IOBuf.Inv b []) (h : Sim m k b x recv hs c)
    (hpc : x.pc = .reading) (hs' : handlerStep m cap t k b x = some (b', x')) :
    IOBuf.awaitResume k b = some b' ∧ ∃ hs' c', Sim m k b' x' recv hs' c' := by
  simp only [handlerStep, hpc] at hs'
  obtain ⟨r, hi, hs'⟩ := Option.bind_eq_some_iff.mp hs'
  obtain ⟨⟨res, bytes⟩, hres, hs'⟩ := Option.bind_eq_some_iff.mp hs'
  obtain ⟨b'', hresume, hs'⟩ := Option.map_eq_some_iff.mp hs'
  obtain ⟨rfl, rfl⟩ := Prod.mk.inj hs'
  refine ⟨hresume, ?_⟩
  have hreads : b.spec.reads k = some (r.buf, some (res, bytes)) := by
    show (b.reads k).map _ = _
    rw [hi, Option.map_some, hres]
  have hbuf : r.buf = Buffer.read.index k := by
    have htarget := h.target
    rw [hreads, hpc] at htarget
    exact Option.some.inj htarget
  have hcall : IOBuf.step cap b (.resume k) = some b'' := hresume
  obtain ⟨-, hspec⟩ := inv_call hcap hb hcall
  have hdone : b''.spec.reads k = none := by
    rw [hspec, IOBuf.Spec.step, hreads]
    exact Function.update_self ..
  have harrived : arrived b'' k = [] := by rw [arrived, hdone]
  have hreading : c.handler.phase = .reading := by
    rw [h.phase, hpc]
    rfl
  have hok := h.ok
  rw [hpc] at hok
  have hresponse : Same (Buffer.response.index k) b b'' := by
    refine .of_spares hcap hb hcall fun w hw he => ?_
    obtain rfl := Option.some.inj (hi.symm.trans hw)
    cases (Buffer.index_inj (he.trans hbuf)).2
  have haccepted : ∀ l, c.accepted ++ HttpHandler.written c.handler.phase (.readDone l) ++ [] =
      x.accepted := by
    intro l
    rw [hreading, ← h.accepted, hpc]
    exact List.append_nil _
  have hkernel : ∀ l, HttpHandler.KernelResult c.handler.phase (.readDone l) := by
    intro l
    rw [hreading]
    trivial
  have hold := h.readBuf _ (by rw [hpc]; rfl)
  by_cases hneg : res ≤ 0
  · have hstep : HttpHandler.step m c.handler (.readDone (.failed res)) =
        some (HttpHandler.issueClose c.handler) := by
      rw [HttpHandler.step, if_pos ⟨hreading, hneg⟩]
    rw [if_pos hneg]
    refine h.move (hkernel _) hstep rfl h.requests (haccepted _) (fun B hB => ?_) ?_
      (by rw [hdone]; rfl) trivial
    · obtain rfl := Option.some.inj hB
      rw [(resume_same hb hresume hi hres (not_lt.mpr hneg)).blocks]
      exact hold
    · have hnothing : arrived b k = [] := by
        rw [arrived, hreads]
        exact if_neg (not_lt.mpr hneg)
      rw [harrived, ← h.received, hnothing]
      rfl
  · have hpos : 0 < res := not_le.mp hneg
    obtain ⟨hblocks, hne⟩ := resume_blocks hb hresume hi hres hpos
    rw [hbuf] at hblocks
    have hall : ∀ blk ∈ [bytes], blk ≠ [] := fun blk hblk => List.mem_singleton.mp hblk ▸ hne
    have hstep : HttpHandler.step m c.handler (.readDone (.data [bytes])) =
        some { c.handler with phase := .parsing, readBuf := c.handler.readBuf ++ [bytes] } := by
      rw [HttpHandler.step, if_pos ⟨hreading, List.cons_ne_nil _ _, hall⟩]
    rw [if_neg hneg]
    refine h.move (hkernel _) hstep rfl h.requests (haccepted _) (fun B hB => ?_) ?_
      (by rw [hdone]; rfl) (hresponse.contents.trans hok)
    · obtain rfl := Option.some.inj hB
      rw [hblocks, ← hold]
    · have hone : arrived b k = [bytes] := by
        rw [arrived, hreads]
        exact if_pos hpos
      rw [harrived, ← h.received, hone]
      rfl

/-- The bytes of the request are taken off. -/
theorem Sim.popStep (hcap : 0 < cap) (hb : IOBuf.Inv b []) {n : ℕ} {keepAlive : Bool}
    (h : Sim m k b x recv hs c) (hpc : x.pc = .pop n keepAlive)
    (hs' : handlerStep m cap t k b x = some (b', x')) : Sim m k b' x' recv hs c := by
  simp only [handlerStep, hpc, Option.some.injEq, Prod.mk.injEq] at hs'
  obtain ⟨rfl, rfl⟩ := hs'
  have hcall : IOBuf.step cap b (.popFront (Buffer.read.index k) n) =
      some (IOBuf.popFront (Buffer.read.index k) n b) := rfl
  obtain ⟨-, hspec⟩ := inv_call hcap hb hcall
  have hresponse := Same.of_spares (y := Buffer.response.index k) hcap hb hcall fun he =>
    by cases (Buffer.index_inj he).2
  have hok := h.ok
  rw [hpc] at hok
  refine h.stay (by rw [hpc]; rfl) (by rw [hpc]; rfl) (fun B hB => ?_) (by rw [hspec]; rfl)
    (by rw [hpc]; rfl) (hresponse.contents.trans hok)
  obtain rfl := Option.some.inj hB
  rw [popFront_blocks hb]
  exact h.readBuf _ (by rw [hpc]; rfl)

/-- The response is put into its buffer. -/
theorem Sim.respondStep (hcap : 0 < cap) (hb : IOBuf.Inv b []) {keepAlive : Bool}
    (h : Sim m k b x recv hs c) (hpc : x.pc = .respond keepAlive)
    (hs' : handlerStep m cap t k b x = some (b', x')) : Sim m k b' x' recv hs c := by
  simp only [handlerStep, hpc, Option.some.injEq, Prod.mk.injEq] at hs'
  obtain ⟨rfl, rfl⟩ := hs'
  have hcall : IOBuf.step cap b
      (.append t (Buffer.response.index k) (responseBytes keepAlive)) =
      some (IOBuf.append cap t (Buffer.response.index k) (responseBytes keepAlive) b) := rfl
  obtain ⟨-, hspec⟩ := inv_call hcap hb hcall
  have hread := Same.of_spares (y := Buffer.read.index k) hcap hb hcall fun he =>
    by cases (Buffer.index_inj he).2
  have hok := h.ok
  rw [hpc] at hok
  have hbytes := contents_append (y := Buffer.response.index k) hcap hb t (responseBytes keepAlive)
  rw [show IOBuf.contents b (Buffer.response.index k) = [] from hok, List.nil_append] at hbytes
  refine h.stay (by rw [hpc]; rfl) (by rw [hpc]; rfl) (fun B hB => ?_) (by rw [hspec]; rfl)
    (by rw [hpc]; rfl) hbytes
  obtain rfl := Option.some.inj hB
  rw [hread.blocks]
  exact h.readBuf _ (by rw [hpc]; rfl)

theorem ascii_append_ne_nil (a : String) {b : String} (hb : b ≠ "") :
    HttpParser.ascii (a ++ b).toList ≠ [] := by
  intro hnil
  rw [HttpParser.ascii, List.map_eq_nil_iff, String.toList_append, List.append_eq_nil_iff] at hnil
  exact hb (String.toList_inj.mp hnil.2)

theorem responseBytes_ne_nil (keepAlive : Bool) : responseBytes keepAlive ≠ [] :=
  ascii_append_ne_nil _ (by decide : HttpHandler.responseBody ≠ "")

/-- The awaiter of the response takes the addresses. -/
theorem Sim.writeStep (hb : IOBuf.Inv b []) {keepAlive : Bool} (h : Sim m k b x recv hs c)
    (hpc : x.pc = .write keepAlive) (hs' : handlerStep m cap t k b x = some (b', x')) :
    b' = b ∧ Sim m k b x' recv hs c := by
  simp only [handlerStep, hpc] at hs'
  obtain ⟨w, hw, hs'⟩ := Option.map_eq_some_iff.mp hs'
  obtain ⟨rfl, rfl⟩ := Prod.mk.inj hs'
  have hok := h.ok
  rw [hpc] at hok
  obtain ⟨w', hw', -, htotal, -⟩ := hb.initIov (Buffer.response.index k)
  obtain rfl := Option.some.inj (hw.symm.trans hw')
  have hready : w.awaitReady = false := by
    rw [IOBuf.WriteAwaiter.awaitReady, decide_eq_false_iff_not, htotal, hb.totalLen_eq_zero]
    exact fun hnil => responseBytes_ne_nil keepAlive (hok.symm.trans hnil)
  rw [hready]
  refine ⟨rfl, h.stay (by rw [hpc]; rfl) (by rw [hpc]; rfl) (fun B hB => ?_) rfl (by rw [hpc]; rfl)
    ⟨hok, hw, fun n hn => by cases hn⟩⟩
  obtain rfl := Option.some.inj hB
  exact h.readBuf _ (by rw [hpc]; rfl)

/-- The write is over, and the handler alone sees its result. -/
theorem Sim.writtenStep (hb : IOBuf.Inv b []) {keepAlive : Bool} {w : IOBuf.WriteAwaiter} {n : ℤ}
    (h : Sim m k b x recv hs c) (hpc : x.pc = .writing keepAlive w (some n))
    (hs' : handlerStep m cap t k b x = some (b', x')) :
    b' = b ∧ ∃ hs' c', Sim m k b x' recv hs' c' := by
  simp only [handlerStep, hpc, Option.some.injEq, Prod.mk.injEq] at hs'
  obtain ⟨rfl, rfl⟩ := hs'
  refine ⟨rfl, ?_⟩
  have hok := h.ok
  rw [hpc] at hok
  obtain ⟨hresponse, hw, hn⟩ := hok
  obtain ⟨w', hw', -, htotal, -⟩ := hb.initIov (Buffer.response.index k)
  obtain rfl := Option.some.inj (hw.symm.trans hw')
  have hwriting : c.handler.phase = .writing keepAlive := by
    rw [h.phase, hpc]
    rfl
  have htarget : (b.spec.reads k).map Prod.fst = none := by
    rw [h.target, hpc]
    rfl
  have hkernel : HttpHandler.KernelResult c.handler.phase (.writeDone n) := by
    have hle : w.totalLen ≤ (responseBytes keepAlive).length := by
      rw [htotal, ← hresponse]
      exact hb.totalLen_le _
    rw [hwriting]
    show n < 0 ∨ 1 ≤ n ∧ n ≤ (responseBytes keepAlive).length
    have hn := hn n rfl
    omega
  have haccepted : c.accepted ++ HttpHandler.written c.handler.phase (.writeDone n) ++ [] =
      x.accepted := by
    rw [hwriting, List.append_nil, ← h.accepted, hpc]
    rfl
  have hold := h.readBuf _ (by rw [hpc]; rfl)
  cases keepAlive with
  | true =>
    have hstep : HttpHandler.step m c.handler (.writeDone n) =
        some { c.handler with phase := .parsing } := by
      simp only [HttpHandler.step, hwriting]
    refine h.move hkernel hstep rfl h.requests haccepted (fun B hB => ?_) h.received htarget ?_
    · obtain rfl := Option.some.inj hB
      exact hold
    · exact Or.inr ⟨by decide, Or.inl (by decide)⟩
  | false =>
    have hstep : HttpHandler.step m c.handler (.writeDone n) =
        some (HttpHandler.issueClose c.handler) := by
      simp only [HttpHandler.step, hwriting]
    refine h.move hkernel hstep rfl h.requests haccepted (fun B hB => ?_) h.received htarget trivial
    obtain rfl := Option.some.inj hB
    exact hold

/-- A buffer is emptied or destroyed. -/
theorem Sim.clearStep (hcap : 0 < cap) (hb : IOBuf.Inv b []) {y : Buffer} {ys : List Buffer}
    {leave : Bool} (h : Sim m k b x recv hs c) (hpc : x.pc = .clearing (y :: ys) leave)
    (hs' : handlerStep m cap t k b x = some (b', x')) : Sim m k b' x' recv hs c := by
  simp only [handlerStep, hpc, Option.some.injEq, Prod.mk.injEq] at hs'
  obtain ⟨rfl, rfl⟩ := hs'
  have hcall : IOBuf.step cap b (.clear (y.index k)) = some (IOBuf.clear (y.index k) b) := rfl
  obtain ⟨-, hspec⟩ := inv_call hcap hb hcall
  have hok := h.ok
  rw [hpc] at hok
  cases leave with
  | true =>
    exact h.stay (by rw [hpc]; rfl) (by rw [hpc]; rfl) (fun B hB => by cases hB)
      (by rw [hspec]; rfl) (by rw [hpc]; rfl) (Or.inl rfl)
  | false =>
    obtain ⟨hnot, hresponse⟩ := hok.resolve_left Bool.false_ne_true
    rw [List.mem_cons, not_or] at hnot
    refine h.stay (by rw [hpc]; rfl) (by rw [hpc]; rfl) (fun B hB => ?_) (by rw [hspec]; rfl)
      (by rw [hpc]; rfl) (Or.inr ⟨hnot.2, ?_⟩)
    · obtain rfl := Option.some.inj hB
      have hread := Same.of_spares (y := Buffer.read.index k) hcap hb hcall fun he =>
        hnot.1 (Buffer.index_inj he).2
      rw [hread.blocks]
      exact h.readBuf _ (by rw [hpc]; rfl)
    · by_cases hy : y = .response
      · subst hy
        exact Or.inr (contents_clear hb)
      · have hsame := Same.of_spares (y := Buffer.response.index k) hcap hb hcall fun he =>
          hy (Buffer.index_inj he).2.symm
        refine hresponse.imp (fun hmem => ?_) hsame.contents.trans
        exact (List.mem_cons.mp hmem).resolve_left (Ne.symm hy)

/-- All are. -/
theorem Sim.clearedStep {leave : Bool} (h : Sim m k b x recv hs c)
    (hpc : x.pc = .clearing [] leave) (hs' : handlerStep m cap t k b x = some (b', x')) :
    b' = b ∧ Sim m k b x' recv hs c := by
  simp only [handlerStep, hpc, Option.some.injEq, Prod.mk.injEq] at hs'
  obtain ⟨rfl, rfl⟩ := hs'
  have hok := h.ok
  rw [hpc] at hok
  cases leave with
  | true =>
    exact ⟨rfl, h.stay (by rw [hpc]; rfl) (by rw [hpc]; rfl) (fun B hB => by cases hB) rfl
      (by rw [hpc]; rfl) trivial⟩
  | false =>
    obtain ⟨-, hresponse⟩ := hok.resolve_left Bool.false_ne_true
    refine ⟨rfl, h.stay (by rw [hpc]; rfl) (by rw [hpc]; rfl) (fun B hB => ?_) rfl
      (by rw [hpc]; rfl) (hresponse.resolve_left List.not_mem_nil)⟩
    obtain rfl := Option.some.inj hB
    exact h.readBuf _ (by rw [hpc]; rfl)

/-- **A step of the handler**, and the call on a buffer that it makes, if any. -/
theorem Sim.advance (hcap : 0 < cap) (hb : IOBuf.Inv b []) (h : Sim m k b x recv hs c)
    (hs' : handlerStep m cap t k b x = some (b', x')) :
    ∃ hs' c', Sim m k b' x' recv hs' c' := by
  cases hpc : x.pc with
  | parse => exact ⟨hs, c, h.parseStep hcap hb hpc hs'⟩
  | block l =>
    obtain ⟨rfl, hsim⟩ := h.blockStep hpc hs'
    exact hsim
  | callbacks l n cs r =>
    cases cs with
    | nil =>
      obtain ⟨rfl, hsim⟩ := h.returnStep hpc hs'
      exact hsim
    | cons cb cs => exact ⟨hs, c, h.callbackStep hcap hb hpc hs'⟩
  | read => exact ⟨hs, c, h.readStep hcap hb hpc hs'⟩
  | reading => exact (h.resumeStep hcap hb hpc hs').2
  | pop n keepAlive => exact ⟨hs, c, h.popStep hcap hb hpc hs'⟩
  | respond keepAlive => exact ⟨hs, c, h.respondStep hcap hb hpc hs'⟩
  | write keepAlive =>
    obtain ⟨rfl, hsim⟩ := h.writeStep hb hpc hs'
    exact ⟨hs, c, hsim⟩
  | writing keepAlive w result =>
    cases result with
    | none => simp only [handlerStep, hpc, reduceCtorEq] at hs'
    | some n =>
      obtain ⟨rfl, hsim⟩ := h.writtenStep hb hpc hs'
      exact hsim
  | clearing ys leave =>
    cases ys with
    | nil =>
      obtain ⟨rfl, hsim⟩ := h.clearedStep hpc hs'
      exact ⟨hs, c, hsim⟩
    | cons y ys => exact ⟨hs, c, h.clearStep hcap hb hpc hs'⟩
  | closing | returned => simp only [handlerStep, hpc, reduceCtorEq] at hs'

/-- A call on the buffers and the read of `k`. -/
def CallOf (k : ℕ) (b : IOBuf.State) : IOBuf.Label → Prop
  | .suspend _ i _ => i = k
  | .resume i => i = k ∧ ∀ r ∈ b.reads i, r.buf = Buffer.read.index k
  | .append _ y _ | .popFront y _ | .clear y => ∃ z : Buffer, y = z.index k
  | _ => False

/-- A handler makes at most one call, on what is its own. -/
theorem Sim.call (h : Sim m k b x recv hs c)
    (hs' : handlerStep m cap t k b x = some (b', x')) :
    b' = b ∨ ∃ l, IOBuf.step cap b l = some b' ∧ CallOf k b l := by
  cases hpc : x.pc with
  | parse =>
    simp only [handlerStep, hpc, Option.some.injEq, Prod.mk.injEq] at hs'
    obtain ⟨rfl, -⟩ := hs'
    exact Or.inr ⟨.clear (Buffer.body.index k), rfl, .body, rfl⟩
  | block l => exact Or.inl (h.blockStep hpc hs').1
  | callbacks l n cs r =>
    cases cs with
    | nil => exact Or.inl (h.returnStep hpc hs').1
    | cons cb cs =>
      simp only [handlerStep, hpc] at hs'
      obtain ⟨hb', -⟩ := Prod.mk.inj (Option.some.inj hs')
      by_cases hbody : ∃ bs, cb = .data .body bs
      · obtain ⟨bs, rfl⟩ := hbody
        exact Or.inr ⟨.append t (Buffer.body.index k) bs, congrArg some hb', .body, rfl⟩
      · rw [callbackOn_of_ne fun bs he => hbody ⟨bs, he⟩] at hb'
        exact Or.inl hb'.symm
  | read =>
    simp only [handlerStep, hpc, Option.some.injEq, Prod.mk.injEq] at hs'
    obtain ⟨rfl, -⟩ := hs'
    have hnone : (b.spec.reads k).map Prod.fst = none := by
      rw [h.target, hpc]
      rfl
    exact Or.inr ⟨.suspend t k (Buffer.read.index k), if_pos (reads_eq_none hnone), rfl⟩
  | reading =>
    simp only [handlerStep, hpc] at hs'
    obtain ⟨r, hi, hs'⟩ := Option.bind_eq_some_iff.mp hs'
    obtain ⟨result, hres, hs'⟩ := Option.bind_eq_some_iff.mp hs'
    obtain ⟨b'', hresume, hs'⟩ := Option.map_eq_some_iff.mp hs'
    obtain ⟨rfl, -⟩ := Prod.mk.inj hs'
    refine Or.inr ⟨.resume k, hresume, rfl, fun w hw => ?_⟩
    obtain rfl := Option.some.inj (hi.symm.trans hw)
    have htarget := h.target
    rw [hpc] at htarget
    change ((b.reads k).map _).map Prod.fst = some (Buffer.read.index k) at htarget
    rw [hi] at htarget
    exact Option.some.inj htarget
  | pop n keepAlive =>
    simp only [handlerStep, hpc, Option.some.injEq, Prod.mk.injEq] at hs'
    obtain ⟨rfl, -⟩ := hs'
    exact Or.inr ⟨.popFront (Buffer.read.index k) n, rfl, .read, rfl⟩
  | respond keepAlive =>
    simp only [handlerStep, hpc, Option.some.injEq, Prod.mk.injEq] at hs'
    obtain ⟨hb', -⟩ := hs'
    exact Or.inr ⟨.append t (Buffer.response.index k) (responseBytes keepAlive), congrArg some hb',
      .response, rfl⟩
  | write keepAlive =>
    simp only [handlerStep, hpc] at hs'
    obtain ⟨w, -, hs'⟩ := Option.map_eq_some_iff.mp hs'
    exact Or.inl (Prod.mk.inj hs').1.symm
  | writing keepAlive w result =>
    cases result with
    | none => simp only [handlerStep, hpc, reduceCtorEq] at hs'
    | some n =>
      simp only [handlerStep, hpc, Option.some.injEq, Prod.mk.injEq] at hs'
      exact Or.inl hs'.1.symm
  | clearing ys leave =>
    cases ys with
    | nil => exact Or.inl (h.clearedStep hpc hs').1
    | cons y ys =>
      simp only [handlerStep, hpc, Option.some.injEq, Prod.mk.injEq] at hs'
      obtain ⟨rfl, -⟩ := hs'
      exact Or.inr ⟨.clear (y.index k), rfl, y, rfl⟩
  | closing | returned => simp only [handlerStep, hpc, reduceCtorEq] at hs'

/-- It leaves what the others have. -/
theorem CallOf.others {l : IOBuf.Label} {k' : ℕ} (hcap : 0 < cap) (hb : IOBuf.Inv b [])
    (hl : CallOf k b l) (hs' : IOBuf.step cap b l = some b') (hk : k' ≠ k) :
    (∀ y : Buffer, Same (y.index k') b b') ∧ b'.spec.reads k' = b.spec.reads k' := by
  obtain ⟨-, hspec⟩ := inv_call hcap hb hs'
  have hne : ∀ y z : Buffer, y.index k' ≠ z.index k := fun y z he => hk (Buffer.index_inj he).1
  rw [hspec]
  cases l with
  | suspend t i x =>
    obtain rfl : i = k := hl
    exact ⟨fun y => .of_spares hcap hb hs' trivial, Function.update_of_ne hk _ _⟩
  | resume i =>
    obtain ⟨rfl, hbuf⟩ := hl
    refine ⟨fun y => .of_spares hcap hb hs' fun r hr => ?_, ?_⟩
    · rw [hbuf r hr]
      exact hne y .read
    · rw [IOBuf.Spec.step]
      split
      · exact Function.update_of_ne hk _ _
      · rfl
  | append t y data =>
    obtain ⟨z, rfl⟩ := hl
    exact ⟨fun y => .of_spares hcap hb hs' (hne y z), rfl⟩
  | popFront y n =>
    obtain ⟨z, rfl⟩ := hl
    exact ⟨fun y => .of_spares hcap hb hs' (hne y z), rfl⟩
  | clear y =>
    obtain ⟨z, rfl⟩ := hl
    exact ⟨fun y => .of_spares hcap hb hs' (hne y z), rfl⟩
  | complete | appendBuf | exit => exact hl.elim

end Handler

/-! ### Steps of the kernel -/

section Kernel

variable {b b' : IOBuf.State} {k : ℕ} {x x' : Connection σ} {recv : List Bytes}
  {hs : List HttpHandler.Label} {c : HttpHandler.Connection} {cap : ℕ}

/-- The kernel sends what the handler alone would send. -/
theorem Sim.sentStep (hb : IOBuf.Inv b []) {n : ℤ} (h : Sim m k b x recv hs c)
    (hs' : sentStep b x n = some x') : Sim m k b x' recv hs c := by
  rw [HttpServer.sentStep] at hs'
  split at hs'
  next keepAlive w hpc =>
    obtain ⟨hn, hs'⟩ := Option.ite_none_right_eq_some.mp hs'
    obtain rfl := Option.some.inj hs'
    have hok := h.ok
    rw [hpc] at hok
    obtain ⟨hresponse, hw, -⟩ := hok
    obtain ⟨w', hw', hbytes, -, -⟩ := hb.initIov (Buffer.response.index k)
    obtain rfl := Option.some.inj (hw.symm.trans hw')
    have hsent : (w.submit.bytes b.memory).take n.toNat =
        (responseBytes keepAlive).take n.toNat := by
      rw [hbytes, hresponse, List.take_take, Nat.min_eq_left (by omega)]
    have haccepted := h.accepted
    rw [hpc, show (Pc.writing keepAlive w none : Pc σ).unseen = [] from rfl,
      List.append_nil] at haccepted
    refine ⟨h.run, ?_, h.requests, ?_, fun B hB => ?_, h.received, ?_, hresponse, hw, ?_⟩
    · rw [h.phase, hpc]
      rfl
    · show c.accepted ++ (responseBytes keepAlive).take n.toNat = x.accepted ++ _
      rw [hsent, haccepted]
    · obtain rfl := Option.some.inj hB
      exact h.readBuf _ (by rw [hpc]; rfl)
    · rw [h.target, hpc]
      rfl
    · intro n' hn'
      obtain rfl := Option.some.inj hn'
      exact hn
  · cases hs'

/-- The close is over. -/
theorem Sim.closedStep (h : Sim m k b x recv hs c) (hs' : closedStep x = some x') :
    ∃ hs' c', Sim m k b x' recv hs' c' := by
  rw [HttpServer.closedStep] at hs'
  split at hs'
  next hpc =>
    obtain rfl := Option.some.inj hs'
    have hclosing : c.handler.phase = .closing := by
      rw [h.phase, hpc]
      rfl
    have hkernel : HttpHandler.KernelResult c.handler.phase .closeDone := by
      rw [hclosing]
      trivial
    have hstep : HttpHandler.step m c.handler .closeDone =
        some { c.handler with phase := .returned } := by
      rw [HttpHandler.step, if_pos hclosing]
    refine h.move hkernel hstep rfl h.requests ?_ (fun B hB => by cases hB) h.received ?_
      (Or.inl rfl)
    · have haccepted := h.accepted
      rw [hpc] at haccepted
      rw [hclosing]
      exact (List.append_nil _).trans haccepted
    · rw [h.target, hpc]
      rfl
  · cases hs'

/-- The blocks that the kernel has received for `k`. -/
def delivered (k : ℕ) : Label → List Bytes
  | .received i res data => if i = k ∧ 0 < res then [data.take res.toNat] else []
  | _ => []

/-- The kernel completes a read. -/
theorem Sim.receivedStep (hcap : 0 < cap) (hb : IOBuf.Inv b []) {i : ℕ} {res : ℤ} {data : Bytes}
    (h : Sim m k b x recv hs c) (hs' : IOBuf.complete i res data b = some b') :
    Sim m k b' x (recv ++ delivered k (.received i res data)) hs c := by
  have hcall : IOBuf.step cap b (.complete i res data) = some b' := hs'
  obtain ⟨-, hspec⟩ := inv_call hcap hb hcall
  have hsame : ∀ y : Buffer, Same (y.index k) b b' := fun y => .of_spares hcap hb hcall trivial
  by_cases hk : i = k
  · subst hk
    obtain ⟨r, hi, hnone, -⟩ := IOBuf.complete_cases hs'
    have hold : b.spec.reads i = some (r.buf, none) := by
      show (b.reads i).map _ = _
      rw [hi, Option.map_some, hnone]
    have hreads : b'.spec.reads i = some (r.buf, some (res, data.take res.toNat)) := by
      rw [hspec]
      show Function.update b.spec.reads i ((b.spec.reads i).map _) i = _
      rw [Function.update_self, hold]
      rfl
    have hbefore : arrived b i = [] := by rw [arrived, hold]
    have hafter : arrived b' i = delivered i (.received i res data) := by
      rw [arrived, hreads, delivered]
      simp only [true_and]
    refine ⟨h.run, h.phase, h.requests, h.accepted, ?_, ?_, ?_,
      h.ok.same (hsame .read) (hsame .body) (hsame .response)⟩
    · rw [readBuf_congr (hsame .read)]
      exact h.readBuf
    · rw [hafter, ← h.received, hbefore, List.append_nil]
    · rw [← h.target, hreads, hold]
      rfl
  · have hreads : b'.spec.reads k = b.spec.reads k := by
      rw [hspec]
      exact Function.update_of_ne (Ne.symm hk) _ _
    have hnothing : delivered k (.received i res data) = [] := if_neg fun he => hk he.1
    rw [hnothing, List.append_nil]
    exact h.frame hsame hreads

end Kernel

/-! ### Whole runs -/

section Runs

variable {s s' : State σ} {cap : ℕ} {l : Label} {ls : List Label}

/-- Every handler is a handler alone. -/
structure Refines (m : Llhttp σ) (ls : List Label) (s : State σ) : Prop where
  inv : IOBuf.Inv s.bufs []
  sim : ∀ k, ∃ hs c, Sim m k s.bufs (s.connection k) (ls.flatMap (delivered k)) hs c

theorem refines_init (m : Llhttp σ) : Refines m [] init :=
  ⟨IOBuf.inv_init, fun k => ⟨[], _, sim_init m k⟩⟩

/-- A step of one connection that leaves the buffers. -/
theorem Refines.set {k : ℕ} {x : Connection σ} (h : Refines m ls s)
    (hx : ∃ hs c, Sim m k s.bufs x (ls.flatMap (delivered k)) hs c) :
    Refines m ls (s.set k s.bufs x) := by
  refine ⟨h.inv, fun k' => ?_⟩
  show ∃ hs c, Sim m k' s.bufs (Function.update s.connection k x k') _ hs c
  by_cases hk : k' = k
  · subst hk
    rw [Function.update_self]
    exact hx
  · rw [Function.update_of_ne hk]
    exact h.sim k'

theorem Refines.handler (hcap : 0 < cap) {t k : ℕ} (h : Refines m ls s)
    (hs : step m cap s (.handler t k) = some s') : Refines m ls s' := by
  obtain ⟨⟨b', x'⟩, hstep, rfl⟩ := Option.map_eq_some_iff.mp hs
  obtain ⟨hs, c, hsim⟩ := h.sim k
  have hmine := hsim.advance hcap h.inv hstep
  rcases hsim.call hstep with rfl | ⟨l, hcall, hl⟩
  · exact h.set hmine
  · refine ⟨(inv_call hcap h.inv hcall).1, fun k' => ?_⟩
    show ∃ hs c, Sim m k' b' (Function.update s.connection k x' k') _ hs c
    by_cases hk : k' = k
    · subst hk
      rw [Function.update_self]
      exact hmine
    · obtain ⟨hsame, hreads⟩ := hl.others hcap h.inv hcall hk
      obtain ⟨hs', c', hsim'⟩ := h.sim k'
      rw [Function.update_of_ne hk]
      exact ⟨hs', c', hsim'.frame hsame hreads⟩

/-- Nothing is received. -/
theorem Refines.concat (h : Refines m ls s) (hl : ∀ k, delivered k l = []) :
    Refines m (ls ++ [l]) s := by
  refine ⟨h.inv, fun k => ?_⟩
  rw [List.flatMap_append, List.flatMap_singleton, hl, List.append_nil]
  exact h.sim k

/-- **Step lemma.** -/
theorem step_refines (hcap : 0 < cap) (h : Refines m ls s) (hs : step m cap s l = some s') :
    Refines m (ls ++ [l]) s' := by
  cases l with
  | handler t k => exact (h.handler hcap hs).concat fun _ => rfl
  | received i res data =>
    obtain ⟨b', hstep, rfl⟩ := Option.map_eq_some_iff.mp hs
    have hcall : IOBuf.step cap s.bufs (.complete i res data) = some b' := hstep
    refine ⟨(inv_call hcap h.inv hcall).1, fun k => ?_⟩
    obtain ⟨hs, c, hsim⟩ := h.sim k
    rw [List.flatMap_append, List.flatMap_singleton]
    exact ⟨hs, c, hsim.receivedStep hcap h.inv hstep⟩
  | sent k n =>
    obtain ⟨x, hstep, rfl⟩ := Option.map_eq_some_iff.mp hs
    obtain ⟨hs, c, hsim⟩ := h.sim k
    exact (h.set ⟨hs, c, hsim.sentStep h.inv hstep⟩).concat fun _ => rfl
  | closed k =>
    obtain ⟨x, hstep, rfl⟩ := Option.map_eq_some_iff.mp hs
    obtain ⟨hs, c, hsim⟩ := h.sim k
    exact (h.set (hsim.closedStep hstep)).concat fun _ => rfl
  | exit t =>
    obtain rfl := Option.some.inj hs
    have hcall : IOBuf.step cap s.bufs (.exit t) =
        some (IOBuf.removeTlsBlockChain t s.bufs) := rfl
    obtain ⟨hinv, hspec⟩ := inv_call hcap h.inv hcall
    refine Refines.concat ⟨hinv, fun k => ?_⟩ fun _ => rfl
    obtain ⟨hs, c, hsim⟩ := h.sim k
    exact ⟨hs, c, hsim.frame (fun y => .of_spares hcap h.inv hcall trivial) (by rw [hspec]; rfl)⟩

theorem run_refines (hcap : 0 < cap) (hrun : StepSystem.run (step m cap) init ls = some s) :
    Refines m ls s :=
  StepSystem.run_induction (R := Refines m) (refines_init m)
    (fun _ _ _ _ h hs => step_refines hcap h hs) hrun

/-- The handler waits for the kernel, or has returned. -/
def Pc.waits (b : IOBuf.State) (k : ℕ) : Pc σ → Prop
  | .reading => ∀ r ∈ b.reads k, r.result = none
  | .writing _ _ none | .closing | .returned => True
  | _ => False

/-- Otherwise it can go on. -/
theorem handlerStep_isSome {b : IOBuf.State} {k : ℕ} {x : Connection σ} (hb : IOBuf.Inv b [])
    (hx : ¬ x.pc.waits b k) (t : ℕ) :
    (handlerStep m cap t k b x).isSome := by
  cases hpc : x.pc with
  | block l =>
    simp only [handlerStep, hpc]
    split
    · split <;> rfl
    · rfl
  | callbacks l n cs r =>
    cases cs with
    | cons cb cs => simp only [handlerStep, hpc, Option.isSome_some]
    | nil =>
      cases r with
      | ok s o =>
        simp only [handlerStep, hpc]
        split <;> rfl
      | paused | error => simp only [handlerStep, hpc, Option.isSome_some]
  | reading =>
    rw [hpc, Pc.waits, not_forall] at hx
    obtain ⟨r, hr⟩ := hx
    rw [Classical.not_imp] at hr
    obtain ⟨hi, hres⟩ := hr
    obtain ⟨⟨res, bytes⟩, hsome⟩ := Option.ne_none_iff_exists'.mp hres
    have hi' : b.reads k = some r := hi
    have hresume : (IOBuf.awaitResume k b).isSome := by
      obtain ⟨blk, start, room, y, result⟩ := r
      obtain rfl : result = some (res, bytes) := hsome
      rw [IOBuf.awaitResume, hi']
      dsimp only
      split
      · split <;> rfl
      · rfl
    simp only [handlerStep, hpc, hi', Option.bind_some, hsome, Option.isSome_map]
    exact hresume
  | write keepAlive =>
    obtain ⟨w, hw, -⟩ := hb.initIov (Buffer.response.index k)
    simp only [handlerStep, hpc, hw, Option.map_some, Option.isSome_some]
  | writing keepAlive w result =>
    cases result with
    | none => exact absurd (hpc ▸ trivial) hx
    | some n => simp only [handlerStep, hpc, Option.isSome_some]
  | clearing ys leave =>
    cases ys <;> simp only [handlerStep, hpc, Option.isSome_some]
  | closing | returned => exact absurd (hpc ▸ trivial) hx
  | _ => simp only [handlerStep, hpc, Option.isSome_some]

/-- **The handlers over shared blocks refine handlers with bytes of their own.**  In every
interleaving of the handlers of all connections, on any threads, with the kernel and the exits of
threads, no block is used after it was freed, and for every connection there is a run of the
handler alone that has seen the results of its reads, as they were received, has parsed the same
requests with the same bodies, has got the same bytes accepted, and has the same bytes left, cut
into the same blocks.  A handler that does not wait for the kernel can go on. -/
theorem server_refines (m : Llhttp σ) (hcap : 0 < cap)
    (hrun : StepSystem.run (step m cap) init ls = some s) :
    s.bufs.bad = false ∧ ∀ k, let x := s.connection k
      (∃ hs c, StepSystem.run (HttpHandler.wireStep m) .init hs = some c ∧
        hs.flatMap seen ++ arrived s.bufs k = ls.flatMap (delivered k) ∧
        c.handler.phase = x.pc.phase ∧ c.handler.requests = x.requests ∧
        c.accepted ++ x.pc.unseen = x.accepted ∧
        ∀ B ∈ x.pc.readBuf s.bufs k, c.handler.readBuf = B) ∧
      ∀ t, (step m cap s (.handler t k)).isSome ∨ x.pc.waits s.bufs k := by
  have h := run_refines hcap hrun
  refine ⟨h.inv.counted.tame, fun k => ?_⟩
  obtain ⟨hs, c, hsim⟩ := h.sim k
  refine ⟨⟨hs, c, hsim.run, hsim.received, hsim.phase, hsim.requests, hsim.accepted, hsim.readBuf⟩,
    fun t => or_iff_not_imp_right.mpr fun hx => ?_⟩
  rw [step, Option.isSome_map]
  exact handlerStep_isSome h.inv hx t

/-- A message is its body, up to a dot. -/
def dotLlhttp : Llhttp Bool where
  start := false
  step := fun inBody b =>
    if b = 46 then .next (if inBody then [.stop] else []) [.notice .messageComplete] false
    else .next (if inBody then [] else [.start .body]) [] true
  methodName := fun _ => "POST"
  shouldKeepAlive := fun _ => true

/-- The handler of `k` goes on for `n` steps. -/
def turns (k n : ℕ) : List Label := List.replicate n (.handler 0 k)

/-- Two connections on one thread: the message of the first comes in two reads, and that of the
second in between. -/
def twoLabels : List Label :=
  List.flatten [turns 0 3, turns 1 3, [.received 0 2 [97, 98]], turns 0 7, [.received 1 1 [46]],
    turns 1 6, [.received 0 2 [99, 46]], turns 0 12, [.sent 0 3], turns 0 1]

theorem server_refines_two :
    ∃ s, StepSystem.run (step dotLlhttp 256) init twoLabels = some s ∧
      (s.connection 0).requests.map (fun r => (r.1.consumedBytes, r.2.body)) =
        [(4, [97, 98, 99])] ∧
      ∃ hs c, StepSystem.run (HttpHandler.wireStep dotLlhttp) .init hs = some c ∧
        hs.flatMap seen = [[97, 98], [99, 46]] ∧ c.accepted.length = 3 := by
  obtain ⟨s, hrun, hrequests, haccepted, hunseen, harrived⟩ :
      ∃ s, StepSystem.run (step dotLlhttp 256) init twoLabels = some s ∧
        (s.connection 0).requests.map (fun r => (r.1.consumedBytes, r.2.body)) =
          [(4, [97, 98, 99])] ∧
        (s.connection 0).accepted.length = 3 ∧
        (s.connection 0).pc.unseen = [] ∧ arrived s.bufs 0 = [] :=
    StepSystem.exists_of_run_any (by decide +kernel)
  obtain ⟨-, hall⟩ := server_refines dotLlhttp (by decide) hrun
  obtain ⟨⟨hs, c, halone, hseen, -, -, hc, -⟩, -⟩ := hall 0
  rw [harrived, List.append_nil] at hseen
  rw [hunseen, List.append_nil] at hc
  exact ⟨s, hrun, hrequests, hs, c, halone, hseen, hc.symm ▸ haccepted⟩

end Runs

end HttpServer
