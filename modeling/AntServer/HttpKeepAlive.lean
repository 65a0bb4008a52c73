/-
What `keep_alive` says about a request.

`parse` reads `llhttp_should_keep_alive` after `llhttp_execute` has returned.  By then
`llhttp__after_message_complete`, which runs right behind `on_message_complete`,
has cleared the flags that the Connection header had set, and only the version is
left: `keepAlive_eq`.

* `Request.AsksPersistence` — what the request asks for, from its version and the
  tokens of its Connection headers;
* `keepAlive_iff` — `keep_alive` is what the request asks for, and the handler closes
  after the response exactly for the other requests, if and only if no token of
  the Connection headers departs from the version's default;
* `close_request_kept_alive` — a request with `Connection: close`.
-/
import AntServer.HttpFraming

namespace HttpHandler

open HttpParser
open SpanMachine (Entry lex)

/-! ### Requests as they are sent -/

structure Request where
  method : Bytes
  url : Bytes
  version : Option (Fin 10 × Fin 10)   -- a request line may do without (HTTP/0.9)
  headers : List (Bytes × Bytes)
  body : Bytes                          -- with its coding

def crlf : Bytes := ascii ['\r', '\n']

def versionBytes : Option (Fin 10 × Fin 10) → Bytes
  | none => []
  | some v => ascii [' ', 'H', 'T', 'T', 'P', '/'] ++
      [byte '0' + v.1.val.toUInt8, byte '.', byte '0' + v.2.val.toUInt8]

def Request.bytes (r : Request) : Bytes :=
  r.method ++ byte ' ' :: r.url ++ versionBytes r.version ++ crlf ++
    (r.headers.flatMap fun h => h.1 ++ byte ':' :: h.2 ++ crlf) ++ crlf ++ r.body

def Request.httpVersion (r : Request) : ℕ × ℕ :=
  match r.version with
  | none => (0, 9)
  | some v => (v.1, v.2)

/-! ### What a request asks for -/

def lower (b : UInt8) : UInt8 := if byte 'A' ≤ b ∧ b ≤ byte 'Z' then b + 32 else b

def isBlank (b : UInt8) : Bool := b = byte ' ' ∨ b = byte '\t'

def trim (bs : Bytes) : Bytes := ((bs.dropWhile isBlank).reverse.dropWhile isBlank).reverse

/-- The elements of a comma-separated list, in lower case. -/
def listTokens (bs : Bytes) : List Bytes :=
  (bs.splitOn (byte ',')).map fun t => (trim t).map lower

def connectionName : Bytes := ascii ['c', 'o', 'n', 'n', 'e', 'c', 't', 'i', 'o', 'n']

def closeToken : Bytes := ascii ['c', 'l', 'o', 's', 'e']

def keepAliveToken : Bytes := ascii ['k', 'e', 'e', 'p', '-', 'a', 'l', 'i', 'v', 'e']

def Request.connectionTokens (r : Request) : List Bytes :=
  r.headers.flatMap fun h => if h.1.map lower = connectionName then listTokens h.2 else []

/-- HTTP/1.1 without `close`, or an earlier version with `keep-alive`. -/
def Request.AsksPersistence (r : Request) : Prop :=
  (r.httpVersion = (1, 1) ∧ closeToken ∉ r.connectionTokens) ∨
    (r.httpVersion.1 = 0 ∨ r.httpVersion = (1, 0)) ∧ keepAliveToken ∈ r.connectionTokens

/-- A token departs from the default of the version. -/
def Request.Overrides (r : Request) : Prop :=
  (r.httpVersion = (1, 1) ∧ closeToken ∈ r.connectionTokens) ∨
    (r.httpVersion.1 = 0 ∨ r.httpVersion = (1, 0)) ∧ keepAliveToken ∈ r.connectionTokens

instance (r : Request) : Decidable r.AsksPersistence :=
  inferInstanceAs (Decidable (_ ∨ _))

instance (r : Request) : Decidable r.Overrides :=
  inferInstanceAs (Decidable (_ ∨ _))

/-! ### The fields of llhttp -/

variable {σ : Type*}

/-- The fields of `llhttp_t` that `llhttp_should_keep_alive` reads. -/
structure ConnectionFields (σ : Type*) where
  httpMajor : σ → ℕ
  httpMinor : σ → ℕ
  connectionClose : σ → Bool        -- `flags & F_CONNECTION_CLOSE`
  connectionKeepAlive : σ → Bool    -- `flags & F_CONNECTION_KEEP_ALIVE`

/-- `llhttp_should_keep_alive` of a request, for which `llhttp_message_needs_eof` is 0. -/
def ConnectionFields.shouldKeepAlive (f : ConnectionFields σ) (s : σ) : Bool :=
  if 0 < f.httpMajor s ∧ 0 < f.httpMinor s then !f.connectionClose s
  else f.connectionKeepAlive s

/-- What is taken from `http.c`. -/
structure KeepsFields (m : Llhttp σ) (f : ConnectionFields σ) : Prop where
  shouldKeepAlive : ∀ s, m.shouldKeepAlive s = f.shouldKeepAlive s
  -- `llhttp__after_message_complete`: `parser->flags = 0`
  afterMessageComplete : ∀ s b pre post s', m.step s b = .next pre post s' →
    .notice .messageComplete ∈ pre ++ post →
    f.connectionClose s' = false ∧ f.connectionKeepAlive s' = false

/-- llhttp accepts the bytes of `r` as one request; its version fields are then
those of `r`, one of the versions it lets pass. -/
structure Accepts (m : Llhttp σ) (f : ConnectionFields σ) (r : Request) : Prop where
  request : IsRequest m r.bytes
  version : ∀ es s, lex m.toMachine m.start none r.bytes = some (es, s, none) →
    (f.httpMajor s, f.httpMinor s) = r.httpVersion
  supported : r.httpVersion ∈ [(0, 9), (1, 0), (1, 1), (2, 0)]

/-! ### The value that is read -/

/-- At the end of a request the flags are cleared. -/
theorem flags_cleared {m : Llhttp σ} {f : ConnectionFields σ} (hm : KeepsFields m f) {w : Bytes}
    (hw : IsRequest m w) {es : List (Entry UInt8 Token Notice)} {s : σ}
    (hlex : lex m.toMachine m.start none w = some (es, s, none)) :
    f.connectionClose s = false ∧ f.connectionKeepAlive s = false := by
  have hmc : Entry.notice Notice.messageComplete ∈ es := by
    obtain ⟨es', s', hlex', hmc⟩ := hw.lexed
    rw [hlex] at hlex'
    cases hlex'
    exact hmc
  rcases List.eq_nil_or_concat w with rfl | ⟨p, x, rfl⟩
  · cases hlex
    exact absurd hmc List.not_mem_nil
  · rw [List.concat_eq_append] at hlex hw
    have hpre : ∀ r, lex m.toMachine m.start none p = some r →
        Entry.notice Notice.messageComplete ∉ r.1 :=
      hw.first p (List.prefix_append p [x]) (by simp)
    obtain ⟨s₁, pre, post, hstep, hn⟩ := SpanMachine.lex_concat_notice hlex hmc hpre
    exact hm.afterMessageComplete s₁ x pre post s hstep hn

/-- **`keep_alive` is the default of the version**, whatever the Connection headers say. -/
theorem keepAlive_eq {m : Llhttp σ} {f : ConnectionFields σ} (hm : KeepsFields m f) {r : Request}
    (hr : Accepts m f r) {D : List Bytes} (hD : Divides D r.bytes) :
    (HttpParser.parse m D).1.status = .success ∧
      ((HttpParser.parse m D).2.keepAlive = true ↔ r.httpVersion = (1, 1)) := by
  obtain ⟨hres, -, hka⟩ := parse_request hr.request hD []
  rw [List.append_nil] at hres hka
  refine ⟨by rw [hres], ?_⟩
  obtain ⟨es, s, hlex, -⟩ := hr.request.lexed
  obtain ⟨hclose, hkeep⟩ := flags_cleared hm hr.request hlex
  have halone : (alone m r.bytes).2 = s := by rw [alone, hlex]
  rw [hka, halone, hm.shouldKeepAlive, ConnectionFields.shouldKeepAlive, hclose, hkeep]
  have hversion := hr.version es s hlex
  have hsup := hr.supported
  rw [← hversion] at hsup ⊢
  simp only [List.mem_cons, Prod.mk.injEq, List.not_mem_nil, or_false] at hsup
  by_cases hpos : 0 < f.httpMajor s ∧ 0 < f.httpMinor s
  · rw [if_pos hpos, Prod.mk.injEq]
    exact ⟨fun _ => by omega, fun _ => rfl⟩
  · rw [if_neg hpos, Prod.mk.injEq]
    exact ⟨fun h => absurd h Bool.false_ne_true, fun h => absurd h (by omega)⟩

theorem asksPersistence_iff_version (r : Request) :
    ((r.httpVersion = (1, 1)) ↔ r.AsksPersistence) ↔ ¬ r.Overrides := by
  rw [Request.AsksPersistence, Request.Overrides]
  by_cases hv : r.httpVersion = (1, 1)
  · simp [hv]
  · simp [hv]

/-- The handler with a request in its buffer: it writes the response, and closes
after it unless `keep_alive` is set. -/
theorem run_parse_writeDone {m : Llhttp σ} {s : State} (hphase : s.phase = .parsing)
    (hsucc : (HttpParser.parse m s.readBuf).1.status = .success) (n : ℤ) :
    ∃ s', StepSystem.run (step m) s [.parse, .writeDone n] = some s' ∧
      (s'.phase = .closing ↔ (HttpParser.parse m s.readBuf).2.keepAlive = false) := by
  have hparse : step m s .parse = some (parseStep m s) := if_pos hphase
  have hwriting : (parseStep m s).phase =
      .writing (HttpParser.parse m s.readBuf).2.keepAlive := by
    simp only [parseStep, hsucc]
  cases hka : (HttpParser.parse m s.readBuf).2.keepAlive with
  | true =>
    rw [hka] at hwriting
    refine ⟨{ parseStep m s with phase := .parsing }, ?_, by simp⟩
    refine StepSystem.run_cons.mpr ⟨_, hparse, StepSystem.run_cons.mpr ⟨_, ?_, rfl⟩⟩
    simp only [step, hwriting]
  | false =>
    rw [hka] at hwriting
    refine ⟨issueClose (parseStep m s), ?_, by simp [issueClose]⟩
    refine StepSystem.run_cons.mpr ⟨_, hparse, StepSystem.run_cons.mpr ⟨_, ?_, rfl⟩⟩
    simp only [step, hwriting]

/-- **When `keep_alive` reflects the request**: for every complete request in any
division into blocks, `keep_alive` says whether the request asks for persistence, and
the handler closes after the response exactly if it does not, if and only if no
Connection token departs from the default of the version. -/
theorem keepAlive_iff (m : Llhttp σ) (f : ConnectionFields σ) (hm : KeepsFields m f)
    (r : Request) (hr : Accepts m f r) (D : List Bytes) (hD : Divides D r.bytes) :
    (HttpParser.parse m D).1.status = .success ∧
      (((HttpParser.parse m D).2.keepAlive = true ↔ r.AsksPersistence) ↔ ¬ r.Overrides) ∧
      ∀ s : State, s.phase = .parsing → s.readBuf = D → ∀ n,
        ∃ s', StepSystem.run (step m) s [.parse, .writeDone n] = some s' ∧
          ((s'.phase = .closing ↔ ¬ r.AsksPersistence) ↔ ¬ r.Overrides) := by
  obtain ⟨hsucc, hka⟩ := keepAlive_eq hm hr hD
  refine ⟨hsucc, ?_, fun s hphase hbuf n => ?_⟩
  · rw [hka]
    exact asksPersistence_iff_version r
  · subst hbuf
    obtain ⟨s', hrun, hclosing⟩ := run_parse_writeDone hphase hsucc n
    refine ⟨s', hrun, ?_⟩
    rw [hclosing, ← Bool.not_eq_true, hka, not_iff_not]
    exact asksPersistence_iff_version r

/-! ### A part of llhttp with its connection fields

`lineLlhttp` with the version digits of the request line and the flags that the
Connection header sets, cleared when the message is complete.  It stands for llhttp on
one message: bytes behind a message with `Connection: close` are an error for llhttp,
and here the next message. -/

structure ConnState where
  line : LineState
  httpMajor : ℕ
  httpMinor : ℕ
  field : Bytes
  value : Bytes
  close : Bool
  keepAlive : Bool
deriving DecidableEq

def ConnState.setFlags (s : ConnState) : ConnState :=
  if s.field.map lower = connectionName then
    { s with
      close := s.close || closeToken ∈ listTokens s.value
      keepAlive := s.keepAlive || keepAliveToken ∈ listTokens s.value }
  else s

/-- The fields after the symbol `b`. -/
def ConnState.read (s : ConnState) (b : UInt8) : ConnState :=
  match s.line.pc with
  | .version =>
    if byte '0' ≤ b ∧ b ≤ byte '9' then
      { s with httpMajor := s.httpMinor, httpMinor := (b - byte '0').toNat }
    else s
  | .fieldStart => { s with field := [b], value := [] }
  | .field => if b = byte ':' then s else { s with field := s.field ++ [b] }
  | .valueStart => if b = byte '\r' then s.setFlags else { s with value := s.value ++ [b] }
  | .value => if b = byte '\r' then s.setFlags else { s with value := s.value ++ [b] }
  | _ => s

def connStep (s : ConnState) (b : UInt8) : SpanMachine.Outcome Token Notice ConnState :=
  match lineStep s.line b with
  | .next pre post l =>
    if SpanMachine.Act.notice Notice.messageComplete ∈ pre ++ post then
      .next pre post { s.read b with line := l, close := false, keepAlive := false }
    else .next pre post { s.read b with line := l }
  | .pause pre post l => .pause pre post { s.read b with line := l }
  | .error => .error

def connFields : ConnectionFields ConnState :=
  ⟨ConnState.httpMajor, ConnState.httpMinor, ConnState.close, ConnState.keepAlive⟩

def connLlhttp : Llhttp ConnState where
  start := ⟨⟨.start, false⟩, 0, 0, [], [], false, false⟩
  step := connStep
  methodName := fun s => if s.line.post then "POST" else "GET"
  shouldKeepAlive := connFields.shouldKeepAlive

theorem keepsFields_connLlhttp : KeepsFields connLlhttp connFields where
  shouldKeepAlive := fun _ => rfl
  afterMessageComplete := by
    intro s b pre post s' hstep hn
    have hstep' : connStep s b = .next pre post s' := hstep
    rw [connStep] at hstep'
    cases hline : lineStep s.line b with
    | error => simp [hline] at hstep'
    | pause pre' post' l => simp [hline] at hstep'
    | next pre' post' l =>
      simp only [hline] at hstep'
      split at hstep'
      · cases hstep'
        exact ⟨rfl, rfl⟩
      next hnot =>
        cases hstep'
        exact absurd hn hnot

/-- A test for an accepted request. -/
theorem accepts_of_check {r : Request} (hreq : IsRequest connLlhttp r.bytes)
    (hversion : (lex connLlhttp.toMachine connLlhttp.start none r.bytes).all
      (fun x => (x.2.1.httpMajor, x.2.1.httpMinor) = r.httpVersion) = true)
    (hsup : r.httpVersion ∈ [(0, 9), (1, 0), (1, 1), (2, 0)]) :
    Accepts connLlhttp connFields r := by
  refine ⟨hreq, fun es s hlex => ?_, hsup⟩
  rw [hlex] at hversion
  exact of_decide_eq_true hversion

/-- `GET /` with one header. -/
def getRequest (version : Fin 10 × Fin 10) (field value : List Char) : Request :=
  ⟨ascii ['G', 'E', 'T'], ascii ['/'], some version, [(ascii field, ascii value)], []⟩

def hostRequest : Request := getRequest (1, 1) ['H', 'o', 's', 't'] [' ', 'x']

def closeRequest : Request :=
  getRequest (1, 1) ['C', 'o', 'n', 'n', 'e', 'c', 't', 'i', 'o', 'n']
    [' ', 'c', 'l', 'o', 's', 'e']

theorem accepts_hostRequest : Accepts connLlhttp connFields hostRequest :=
  accepts_of_check (isRequest_of_check (by decide +kernel) (by decide +kernel))
    (by decide +kernel) (by decide +kernel)

theorem divides_hostRequest :
    Divides [hostRequest.bytes.take 9, hostRequest.bytes.drop 9] hostRequest.bytes :=
  ⟨by decide +kernel, by decide +kernel⟩

/-- A request without a Connection header, in two blocks. -/
theorem keepAlive_hostRequest :
    (HttpParser.parse connLlhttp [hostRequest.bytes.take 9, hostRequest.bytes.drop 9]).2.keepAlive
        = true ∧ hostRequest.AsksPersistence := by
  obtain ⟨-, hiff, -⟩ := keepAlive_iff connLlhttp connFields keepsFields_connLlhttp hostRequest
    accepts_hostRequest _ divides_hostRequest
  have hasks : hostRequest.AsksPersistence := by decide +kernel
  exact ⟨(hiff.mpr (by decide +kernel)).mpr hasks, hasks⟩

/-- **`Connection: close` is not seen**: the request does not ask for persistence,
`keep_alive` is set, and after the response the handler goes on. -/
theorem close_request_kept_alive :
    ¬ closeRequest.AsksPersistence ∧ IsRequest connLlhttp closeRequest.bytes ∧
      (HttpParser.parse connLlhttp [closeRequest.bytes]).1.status = .success ∧
      (HttpParser.parse connLlhttp [closeRequest.bytes]).2.keepAlive = true ∧
      ∃ s, StepSystem.run (step connLlhttp) init
          [.parse, .readDone (.data [closeRequest.bytes]), .parse, .writeDone 200] = some s ∧
        s.phase = .parsing ∧ s.requests.length = 1 :=
  ⟨by decide +kernel, isRequest_of_check (by decide +kernel) (by decide +kernel),
    by decide +kernel, by decide +kernel, StepSystem.exists_of_run_any (by decide +kernel)⟩

end HttpHandler
