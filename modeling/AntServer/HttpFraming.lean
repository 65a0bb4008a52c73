/-
How the handler cuts a connection's bytes into requests.

`parse` looks for the end of a message only between blocks, and counts whole
blocks as consumed.  So a request that ends inside a block takes the rest of the
block with it: `framing_iff` says that the handler obtains the requests of a
connection one by one exactly if each of them ends where a block ends.

* `Frames` — the results of `parse` and `pop_front` on a buffer, until more data
  is needed; a handler that has read the blocks `B` and waits has obtained the
  frames of `B`, however the reads came (`run_frames`);
* `frames_of_aligned`, `aligned_of_frames` — the frames against the requests;
* `pipelined_request_swallowed` — two requests in one block.
-/
import AntServer.HttpHandler
import AntServer.HttpSplit

namespace HttpHandler

open HttpParser
open SpanMachine (Entry OpenSpan lex lexBlocks)

variable {σ : Type*}

/-! ### The requests of a connection -/

/-- What llhttp makes of the bytes `r` alone. -/
def alone (m : Llhttp σ) (r : Bytes) : List (Entry UInt8 Token Notice) × σ :=
  match lex m.toMachine m.start none r with
  | some x => (x.1, x.2.1)
  | none => ([], m.start)

def methodOf (m : Llhttp σ) (r : Bytes) : String := m.methodName (alone m r).2

def bodyOf (m : Llhttp σ) (r : Bytes) : Bytes := (alone m r).1.flatMap bodyBytes

structure KeepAliveRequest (m : Llhttp σ) (r : Bytes) : Prop extends IsRequest m r where
  keepAlive : m.shouldKeepAlive (alone m r).2 = true

/-- A result of `parse` as far as framing is concerned. -/
def summary (x : ParseResult × HttpRequest) : ℕ × String × Bytes :=
  (x.1.consumedBytes, x.2.method, x.2.body)

/-- What the handler should obtain for the request `r`. -/
def expected (m : Llhttp σ) (r : Bytes) : ℕ × String × Bytes :=
  (r.length, methodOf m r, bodyOf m r)

/-- Every request of `rs` ends where a block of `B` ends. -/
def Aligned (B : List Bytes) (rs : List Bytes) : Prop :=
  ∃ Ds : List (List Bytes), Ds.flatten = B ∧ Ds.map List.flatten = rs

/-- The first request, in blocks of its own. -/
theorem parse_request {m : Llhttp σ} {r : Bytes} {D : List Bytes} (hr : IsRequest m r)
    (hD : Divides D r) (E : List Bytes) :
    (HttpParser.parse m (D ++ E)).1 = ⟨.success, r.length⟩ ∧
      summary (HttpParser.parse m (D ++ E)) = expected m r ∧
      (HttpParser.parse m (D ++ E)).2.keepAlive = m.shouldKeepAlive (alone m r).2 := by
  obtain ⟨es, s, -, hlex, hparse⟩ := parse_of_request hr hD E
  have halone : alone m r = (es.map Entry.join, s) := by rw [alone, hlex]
  rw [hparse, expected, methodOf, bodyOf, halone]
  refine ⟨rfl, ?_, rfl⟩
  simp only [summary, foldl_kept_body, flatMap_bodyBytes_join]
  rfl

/-! ### Frames -/

/-- `parse` and `pop_front` on the buffer `B` give these results before more data
is needed. -/
inductive Frames (m : Llhttp σ) : List Bytes → List (ParseResult × HttpRequest) → Prop
  | stop {B : List Bytes} :
      (HttpParser.parse m B).1.status = .needMoreData → Frames m B []
  | next {B : List Bytes} {outs : List (ParseResult × HttpRequest)} :
      (HttpParser.parse m B).1.status = .success → (HttpParser.parse m B).2.keepAlive = true →
      Frames m (popFront (HttpParser.parse m B).1.consumedBytes B) outs →
      Frames m B (HttpParser.parse m B :: outs)

theorem Frames.unique {m : Llhttp σ} {B : List Bytes}
    {outs outs' : List (ParseResult × HttpRequest)} (h : Frames m B outs)
    (h' : Frames m B outs') : outs = outs' := by
  induction h generalizing outs' with
  | stop hmore =>
    cases h' with
    | stop => rfl
    | next hok => cases hmore.symm.trans hok
  | next hok _ _ ih =>
    cases h' with
    | stop hmore => cases hmore.symm.trans hok
    | next _ _ hrest => rw [ih hrest]

theorem frames_of_aligned {m : Llhttp σ} {rs : List Bytes}
    (hrs : ∀ r ∈ rs, KeepAliveRequest m r) {B : List Bytes} (hB : ∀ b ∈ B, b ≠ [])
    (hal : Aligned B rs) : ∃ outs, Frames m B outs ∧ outs.map summary = rs.map (expected m) := by
  induction rs generalizing B with
  | nil =>
    obtain ⟨Ds, rfl, hDs⟩ := hal
    obtain rfl := List.map_eq_nil_iff.mp hDs
    exact ⟨[], .stop rfl, rfl⟩
  | cons r rs ih =>
    obtain ⟨Ds, rfl, hDs⟩ := hal
    obtain ⟨D, Ds, rfl, rfl, rfl⟩ := List.map_eq_cons_iff.mp hDs
    rw [List.flatten_cons] at hB ⊢
    have hr := hrs _ List.mem_cons_self
    have hD : Divides D D.flatten := ⟨fun b hb => hB b (List.mem_append_left _ hb), rfl⟩
    obtain ⟨hres, hsum, hka⟩ := parse_request hr.toIsRequest hD Ds.flatten
    have hrest : ∀ b ∈ Ds.flatten, b ≠ [] := fun b hb => hB b (List.mem_append_right _ hb)
    have hpop : popFront (HttpParser.parse m (D ++ Ds.flatten)).1.consumedBytes (D ++ Ds.flatten) =
        Ds.flatten := by
      rw [hres, popFront_append le_rfl hrest, popFront_flatten_length, List.nil_append]
    obtain ⟨outs, hframes, hmap⟩ :=
      ih (fun r hr => hrs r (List.mem_cons_of_mem _ hr)) hrest ⟨Ds, rfl, rfl⟩
    refine ⟨_, .next (by rw [hres]) (hka.trans hr.keepAlive) (hpop.symm ▸ hframes), ?_⟩
    rw [List.map_cons, List.map_cons, hsum, hmap]

/-! ### A request that ends inside a block -/

/-- The position `n` is the end of a block, or inside one. -/
theorem exists_block_at {B : List Bytes} {n : ℕ} (hn : n ≤ B.flatten.length) :
    (∃ D B', B = D ++ B' ∧ D.flatten.length = n) ∨
      ∃ D b B', B = D ++ b :: B' ∧ D.flatten.length < n ∧ n < D.flatten.length + b.length := by
  induction B generalizing n with
  | nil => exact Or.inl ⟨[], [], rfl, (Nat.le_zero.mp hn).symm⟩
  | cons b B ih =>
    rw [List.flatten_cons, List.length_append] at hn
    by_cases h0 : n = 0
    · exact Or.inl ⟨[], b :: B, rfl, by simp [h0]⟩
    by_cases hb : n < b.length
    · exact Or.inr ⟨[], b, B, rfl, by simpa using Nat.pos_of_ne_zero h0, by simpa using hb⟩
    rcases ih (n := n - b.length) (by omega) with ⟨D, B', rfl, hD⟩ | ⟨D, c, B', rfl, hlt, hgt⟩
    · exact Or.inl ⟨b :: D, B', rfl, by simp only [List.flatten_cons, List.length_append]; omega⟩
    · refine Or.inr ⟨b :: D, c, B', rfl, ?_, ?_⟩ <;>
        simp only [List.flatten_cons, List.length_append] <;> omega

theorem parseBlocks_total_le {m : Llhttp σ} {s : σ} {o : Option Token} {ctx : ParserContext}
    {total : ℕ} {B : List Bytes} (h : (parseBlocks m s o ctx total B).1.status = .success) :
    total ≤ (parseBlocks m s o ctx total B).1.consumedBytes := by
  induction B generalizing s o ctx total with
  | nil => rw [parseBlocks, finish_consumedBytes]
  | cons b B ih =>
    rw [parseBlocks] at h ⊢
    by_cases hb : b.isEmpty = true
    · rw [if_pos hb] at h ⊢
      exact ih h
    · rw [if_neg hb] at h ⊢
      cases hexec : SpanMachine.execute m.toMachine s o b with
      | error =>
        rw [hexec] at h
        cases h
      | paused cs s' n =>
        simp only [finish_consumedBytes]
        omega
      | ok cs s' o' =>
        rw [hexec] at h
        simp only at h ⊢
        by_cases hcomp : (cs.foldl callback ctx).req.complete = true
        · rw [if_pos hcomp, finish_consumedBytes]
          omega
        · rw [if_neg hcomp] at h ⊢
          have := ih h
          omega

/-- If `parse` consumes just the request at the front, it ends where a block
ends. -/
theorem boundary_of_consumed {m : Llhttp σ} {r : Bytes} (hr : IsRequest m r) {B : List Bytes}
    (hB : ∀ b ∈ B, b ≠ []) (hpre : r <+: B.flatten)
    (h : (HttpParser.parse m B).1 = ⟨.success, r.length⟩) :
    ∃ D B', B = D ++ B' ∧ D.flatten = r := by
  rcases exists_block_at hpre.length_le with ⟨D, B', rfl, hlen⟩ | ⟨D, b, B', rfl, hlt, hgt⟩
  · refine ⟨D, B', rfl, ?_⟩
    have hDpre : D.flatten <+: (D ++ B').flatten := by simp
    exact (List.prefix_of_prefix_length_le hDpre hpre hlen.le).eq_of_length hlen
  exfalso
  -- the block `b` holds the end `p` of the request and something behind it, `q`
  obtain ⟨p, q, rfl, hq, hrp⟩ : ∃ p q, b = p ++ q ∧ q ≠ [] ∧ D.flatten ++ p = r := by
    refine ⟨b.take (r.length - D.flatten.length), b.drop (r.length - D.flatten.length),
      (List.take_append_drop _ b).symm, ?_, ?_⟩
    · rw [← List.length_pos_iff, List.length_drop]
      omega
    · have hwhole : D.flatten ++ b.take (r.length - D.flatten.length) <+:
          (D ++ b :: B').flatten := by
        rw [List.flatten_append, List.flatten_cons, List.prefix_append_right_inj]
        exact (List.take_prefix _ b).trans (List.prefix_append b _)
      have hlen : (D.flatten ++ b.take (r.length - D.flatten.length)).length = r.length := by
        rw [List.length_append, List.length_take]
        omega
      exact (List.prefix_of_prefix_length_le hwhole hpre hlen.le).eq_of_length hlen
  have hDr : D.flatten <+: r := ⟨p, hrp⟩
  have hDne : D.flatten ≠ r := fun he => hlt.ne (congrArg List.length he)
  have hqpos : 0 < q.length := List.length_pos_iff.mpr hq
  have hrlen : D.flatten.length + p.length = r.length := by rw [← hrp, List.length_append]
  -- the loop comes to `b` and llhttp gets through `p`
  obtain ⟨x, hlexD⟩ := lex_of_prefix hr hDr
  have hjoin := lexBlocks_joined_start m D
  rw [hlexD, Option.map_eq_some_iff] at hjoin
  obtain ⟨⟨es₁, s₁, o₁⟩, hblocks, -⟩ := hjoin
  obtain ⟨cs₁, o₂, rfl, -, -, hparse⟩ := parse_through hblocks
    (fun c hc => hB c (List.mem_append_left _ hc)) (hr.not_complete hDr hDne hblocks)
    ((p ++ q) :: B')
  obtain ⟨es₂, s₂, o₃, hp⟩ : ∃ es₂ s₂ o₃,
      lex m.toMachine s₁ (o₂.map OpenSpan.cut) p = some (es₂, s₂, o₃) := by
    obtain ⟨es, s, hlexr, -⟩ := hr.lexed
    have hjoin := lexBlocks_joined_start m (D ++ [p])
    rw [List.flatten_append, List.flatten_singleton, hrp, hlexr, SpanMachine.lexBlocks_append,
      hblocks] at hjoin
    cases hp : lex m.toMachine s₁ (o₂.map OpenSpan.cut) p with
    | none => simp [lexBlocks, hp] at hjoin
    | some y => exact ⟨y.1, y.2.1, y.2.2, rfl⟩
  obtain ⟨cs₂, hexec, -⟩ := SpanMachine.executeFrom_append hp q
  rw [SpanMachine.present_cut] at hexec
  have hbne : (p ++ q).isEmpty = false := by simp [hq]
  rw [hparse, parseBlocks, hbne, if_neg Bool.false_ne_true, SpanMachine.execute, hexec] at h
  cases hrest : SpanMachine.executeFrom m.toMachine s₂ (SpanMachine.present o₃) q with
  | error =>
    rw [hrest] at h
    cases h
  | paused cs s' n =>
    have hn := (execute_consumed_le hrest).1
    rw [hrest] at h
    have hk := congrArg ParseResult.consumedBytes h
    simp only [SpanMachine.Result.after, finish_consumedBytes] at hk
    omega
  | ok cs s' o' =>
    rw [hrest] at h
    simp only [SpanMachine.Result.after] at h
    have hlen : r.length < D.flatten.length + (p ++ q).length := by
      rw [List.length_append]
      omega
    split at h
    · have hk := congrArg ParseResult.consumedBytes h
      simp only [finish_consumedBytes] at hk
      omega
    · have hle := parseBlocks_total_le (congrArg ParseResult.status h)
      rw [h] at hle
      exact absurd hle (by simpa using hlen)

theorem aligned_of_frames {m : Llhttp σ} {rs : List Bytes} (hrs : ∀ r ∈ rs, IsRequest m r)
    {B : List Bytes} (hB : Divides B rs.flatten) {outs : List (ParseResult × HttpRequest)}
    (h : Frames m B outs) (hout : outs.map summary = rs.map (expected m)) : Aligned B rs := by
  induction rs generalizing B outs with
  | nil =>
    have hnil : B = [] := by
      cases B with
      | nil => rfl
      | cons b B =>
        have hflat := hB.flatten
        simp only [List.flatten_cons, List.flatten_nil, List.append_eq_nil_iff] at hflat
        exact absurd hflat.1 (hB.nonempty b List.mem_cons_self)
    exact ⟨[], hnil.symm, rfl⟩
  | cons r rs ih =>
    cases h with
    | stop => cases hout
    | next hok _ hrest =>
      rw [List.map_cons, List.map_cons, List.cons.injEq] at hout
      obtain ⟨hsum, hout⟩ := hout
      have hcons : (HttpParser.parse m B).1.consumedBytes = r.length := congrArg Prod.fst hsum
      have hres : (HttpParser.parse m B).1 = ⟨.success, r.length⟩ := by
        rw [← hcons, ← hok]
      have hpre : r <+: B.flatten := by
        rw [hB.flatten, List.flatten_cons]
        exact List.prefix_append r _
      obtain ⟨D, B', rfl, hD⟩ :=
        boundary_of_consumed (hrs r List.mem_cons_self) hB.nonempty hpre hres
      have hB' : ∀ b ∈ B', b ≠ [] := fun b hb => hB.nonempty b (List.mem_append_right _ hb)
      have hflat : B'.flatten = rs.flatten := by
        have := hB.flatten
        rw [List.flatten_append, hD, List.flatten_cons] at this
        exact List.append_cancel_left this
      rw [hcons, ← hD, popFront_append le_rfl hB', popFront_flatten_length,
        List.nil_append] at hrest
      obtain ⟨Ds, hDs, hmap⟩ :=
        ih (fun x hx => hrs x (List.mem_cons_of_mem r hx)) ⟨hB', hflat⟩ hrest hout
      exact ⟨D :: Ds, by rw [List.flatten_cons, hDs], by rw [List.map_cons, hD, hmap]⟩

/-! ### The handler obtains the frames -/

/-- The blocks that each read of a run has brought. -/
def readsOf (ls : List Label) : List (List Bytes) :=
  ls.filterMap fun l => match l with
    | .readDone (.data blocks) => some blocks
    | _ => none

/-- The number of responses issued. -/
def State.responses (s : State) : ℕ :=
  (s.operations.filter fun op => match op with
    | .write _ => true
    | _ => false).length

/-- The handler is still serving the connection. -/
def State.serving (s : State) : Prop :=
  s.phase = .parsing ∨ s.phase = .reading ∨ s.phase = .writing true

/-- A serving handler has taken the frames in `requests` off the blocks read so
far, and answered them. -/
structure Taken (m : Llhttp σ) (ls : List Label) (s : State) : Prop where
  nonempty : ∀ b ∈ s.readBuf, b ≠ []
  frames : s.serving → ∀ C, (∀ b ∈ C, b ≠ []) → ∀ outs, Frames m (s.readBuf ++ C) outs →
    Frames m ((readsOf ls).flatten ++ C) (s.requests ++ outs)
  more : s.phase = .reading → (HttpParser.parse m s.readBuf).1.status = .needMoreData
  responses : s.responses = s.requests.length

theorem Taken.init (m : Llhttp σ) : Taken m [] init where
  nonempty := fun _ hb => absurd hb List.not_mem_nil
  frames := fun _ _ _ _ h => h
  more := nofun
  responses := rfl

theorem issueClose_not_serving (s : State) : ¬ (issueClose s).serving := by
  simp [issueClose, State.serving]

theorem Taken.issueClose {m : Llhttp σ} {ls ls' : List Label} {s : State} (h : Taken m ls s) :
    Taken m ls' (issueClose s) where
  nonempty := h.nonempty
  frames := fun hs => absurd hs (issueClose_not_serving s)
  more := nofun
  responses := by
    have := h.responses
    simp only [State.responses] at this
    simp [HttpHandler.issueClose, State.responses, this]

theorem Taken.parse {m : Llhttp σ} {ls : List Label} {s : State} (h : Taken m ls s)
    (hphase : s.phase = .parsing) : Taken m (ls ++ [.parse]) (parseStep m s) := by
  have hreads : readsOf (ls ++ [.parse]) = readsOf ls := by simp [readsOf]
  have hframes := h.frames (Or.inl hphase)
  have hresp := h.responses
  simp only [State.responses] at hresp
  rw [parseStep]
  cases hstatus : (HttpParser.parse m s.readBuf).1.status with
  | needMoreData =>
    simp only
    refine ⟨h.nonempty, fun _ => ?_, fun _ => hstatus, ?_⟩
    · rw [hreads]
      exact hframes
    · simp [State.responses, hresp]
  | error =>
    simp only
    exact h.issueClose
  | success =>
    simp only
    refine ⟨popFront_nonempty h.nonempty, fun hserv C hC outs hrest => ?_, nofun, ?_⟩
    · -- appending `C` changes neither this result nor what it leaves
      have hka : (HttpParser.parse m s.readBuf).2.keepAlive = true := by
        simpa [State.serving] using hserv
      have happ : HttpParser.parse m (s.readBuf ++ C) = HttpParser.parse m s.readBuf :=
        parse_append (by simp [hstatus]) C
      rw [← popFront_append (parse_consumed_le m s.readBuf) hC, ← happ] at hrest
      have hnext : Frames m (s.readBuf ++ C) (HttpParser.parse m (s.readBuf ++ C) :: outs) :=
        .next (by rw [happ, hstatus]) (by rw [happ, hka]) hrest
      rw [happ] at hnext
      rw [hreads]
      simpa using hframes C hC _ hnext
    · simp [State.responses, hresp]

theorem Taken.step {m : Llhttp σ} {ls : List Label} {s s' : State} {l : Label} (h : Taken m ls s)
    (hs : step m s l = some s') : Taken m (ls ++ [l]) s' := by
  rcases l with _ | (blocks | code) | n | _
  · rw [HttpHandler.step, Option.ite_none_right_eq_some] at hs
    obtain ⟨hphase, hs⟩ := hs
    cases hs
    exact h.parse hphase
  · rw [HttpHandler.step, Option.ite_none_right_eq_some] at hs
    obtain ⟨⟨hphase, -, hne⟩, hs⟩ := hs
    cases hs
    refine ⟨fun b hb => ?_, fun _ C hC outs hout => ?_, nofun, h.responses⟩
    · rcases List.mem_append.mp hb with hb | hb
      · exact h.nonempty b hb
      · exact hne b hb
    · have hreads : (readsOf (ls ++ [.readDone (.data blocks)])).flatten =
          (readsOf ls).flatten ++ blocks := by simp [readsOf]
      rw [hreads, List.append_assoc]
      rw [List.append_assoc] at hout
      refine h.frames (Or.inr (Or.inl hphase)) (blocks ++ C) (fun b hb => ?_) outs hout
      rcases List.mem_append.mp hb with hb | hb
      · exact hne b hb
      · exact hC b hb
  · rw [HttpHandler.step, Option.ite_none_right_eq_some] at hs
    obtain ⟨-, hs⟩ := hs
    cases hs
    exact h.issueClose
  · rw [HttpHandler.step] at hs
    split at hs
    next hphase =>
      cases hs
      have hreads : readsOf (ls ++ [.writeDone n]) = readsOf ls := by simp [readsOf]
      refine ⟨h.nonempty, fun _ => ?_, nofun, h.responses⟩
      rw [hreads]
      exact h.frames (Or.inr (Or.inr hphase))
    · cases hs
      exact h.issueClose
    · cases hs
  · rw [HttpHandler.step, Option.ite_none_right_eq_some] at hs
    obtain ⟨-, hs⟩ := hs
    cases hs
    refine ⟨h.nonempty, fun hserv => ?_, nofun, h.responses⟩
    simp [State.serving] at hserv

/-- **What a waiting handler has obtained** are the frames of the blocks read, and
it has issued a response for each. -/
theorem run_frames {m : Llhttp σ} {ls : List Label} {s : State}
    (hrun : StepSystem.run (step m) init ls = some s) (hphase : s.phase = .reading) :
    Frames m (readsOf ls).flatten s.requests ∧ s.responses = s.requests.length := by
  have h : Taken m ls s :=
    StepSystem.run_induction (Taken.init m) (fun _ _ _ _ h hs => h.step hs) hrun
  have := h.frames (Or.inr (Or.inl hphase)) [] (fun _ hb => absurd hb List.not_mem_nil) []
    (by rw [List.append_nil]; exact .stop (h.more hphase))
  rw [List.append_nil, List.append_nil] at this
  exact ⟨this, h.responses⟩

/-- The first frame of a buffer shows as soon as its blocks are there. -/
theorem Frames.of_success {m : Llhttp σ} {B C : List Bytes} (hC : ∀ b ∈ C, b ≠ [])
    {outs : List (ParseResult × HttpRequest)} (h : Frames m (B ++ C) outs)
    (hok : (HttpParser.parse m B).1.status = .success) :
    ∃ outs', outs = HttpParser.parse m B :: outs' ∧ (HttpParser.parse m B).2.keepAlive = true ∧
      Frames m (popFront (HttpParser.parse m B).1.consumedBytes B ++ C) outs' := by
  have happ : HttpParser.parse m (B ++ C) = HttpParser.parse m B := parse_append (by simp [hok]) C
  cases h with
  | stop hmore =>
    rw [happ, hok] at hmore
    cases hmore
  | next _ hka hrest =>
    rw [happ] at hka hrest
    rw [popFront_append (parse_consumed_le m B) hC] at hrest
    exact ⟨_, by rw [happ], hka, hrest⟩

theorem Frames.ne_error {m : Llhttp σ} {B C : List Bytes}
    {outs : List (ParseResult × HttpRequest)} (h : Frames m (B ++ C) outs) :
    (HttpParser.parse m B).1.status ≠ .error := by
  intro herr
  have happ : HttpParser.parse m (B ++ C) = HttpParser.parse m B := parse_append (by simp [herr]) C
  cases h with
  | stop hmore =>
    rw [happ, herr] at hmore
    cases hmore
  | next hok =>
    rw [happ, herr] at hok
    cases hok

/-- A handler whose buffer has frames, with the blocks still to be read, reads
them all and then waits. -/
theorem exists_run_of_frames {m : Llhttp σ} {reads : List (List Bytes)}
    (hreads : ∀ bs ∈ reads, bs ≠ [] ∧ ∀ b ∈ bs, b ≠ []) {s : State} (hphase : s.phase = .parsing)
    {outs : List (ParseResult × HttpRequest)}
    (h : Frames m (s.readBuf ++ reads.flatten) outs) :
    ∃ ls s', StepSystem.run (step m) s ls = some s' ∧ readsOf ls = reads ∧ s'.phase = .reading := by
  -- every round takes a frame or a read
  induction hn : reads.length + outs.length using Nat.strong_induction_on
    generalizing reads s outs with
  | _ n ih =>
    have hparse : step m s .parse = some (parseStep m s) := by rw [step, if_pos hphase]
    cases hstatus : (HttpParser.parse m s.readBuf).1.status with
    | error => exact absurd hstatus h.ne_error
    | success =>
      have hC : ∀ b ∈ reads.flatten, b ≠ [] := fun b hb => by
        obtain ⟨bs, hbs, hb⟩ := List.mem_flatten.mp hb
        exact (hreads bs hbs).2 b hb
      obtain ⟨outs', rfl, hka, hrest⟩ := h.of_success hC hstatus
      have hstep : parseStep m s =
          { phase := .writing true
            readBuf := popFront (HttpParser.parse m s.readBuf).1.consumedBytes s.readBuf
            requests := s.requests ++ [HttpParser.parse m s.readBuf]
            operations := s.operations ++ [.write (response true)] } := by
        rw [parseStep]
        simp only [hstatus, hka]
      obtain ⟨ls, s', hrun, hr, hp⟩ := ih (reads.length + outs'.length)
        (by rw [List.length_cons] at hn; omega) hreads
        (s := { parseStep m s with phase := .parsing }) rfl (by rw [hstep]; exact hrest) rfl
      refine ⟨.parse :: .writeDone 0 :: ls, s', ?_, ?_, hp⟩
      · refine StepSystem.run_cons.mpr ⟨_, hparse, StepSystem.run_cons.mpr ⟨_, ?_, hrun⟩⟩
        rw [hstep]
        rfl
      · rw [← hr]
        rfl
    | needMoreData =>
      have hstep : parseStep m s =
          { s with phase := .reading, operations := s.operations ++ [.read] } := by
        rw [parseStep]
        simp only [hstatus]
      cases reads with
      | nil =>
        refine ⟨[.parse], _, StepSystem.run_cons.mpr ⟨_, hparse, rfl⟩, rfl, ?_⟩
        rw [hstep]
      | cons bs reads =>
        obtain ⟨hbs, hne⟩ := hreads bs List.mem_cons_self
        rw [List.flatten_cons, ← List.append_assoc] at h
        obtain ⟨ls, s', hrun, hr, hp⟩ := ih (reads.length + outs.length)
          (by rw [List.length_cons] at hn; omega)
          (fun x hx => hreads x (List.mem_cons_of_mem bs hx))
          (s := { parseStep m s with phase := .parsing, readBuf := s.readBuf ++ bs }) rfl h rfl
        refine ⟨.parse :: .readDone (.data bs) :: ls, s', ?_, ?_, hp⟩
        · refine StepSystem.run_cons.mpr ⟨_, hparse, StepSystem.run_cons.mpr ⟨_, ?_, hrun⟩⟩
          rw [hstep, step, if_pos ⟨rfl, hbs, hne⟩]
        · rw [← hr]
          rfl

/-- **Request framing.**  Let the bytes of the requests `rs` arrive in any reads
of any blocks.  The handler reads them all and has then obtained exactly one
successful result for each request, with its length, method and body, and issued
one response for each, if and only if every request ends where a block ends. -/
theorem framing_iff (m : Llhttp σ) (rs : List Bytes) (hrs : ∀ r ∈ rs, KeepAliveRequest m r)
    (reads : List (List Bytes)) (hreads : ∀ bs ∈ reads, bs ≠ [] ∧ ∀ b ∈ bs, b ≠ [])
    (hcut : reads.flatten.flatten = rs.flatten) :
    ((∃ ls s, StepSystem.run (step m) init ls = some s ∧ readsOf ls = reads ∧
        s.phase = .reading) ∧
      ∀ ls s, StepSystem.run (step m) init ls = some s → readsOf ls = reads →
        s.phase = .reading →
        s.requests.map summary = rs.map (expected m) ∧ s.responses = rs.length) ↔
      Aligned reads.flatten rs := by
  have hB : ∀ b ∈ reads.flatten, b ≠ [] := fun b hb => by
    obtain ⟨bs, hbs, hb⟩ := List.mem_flatten.mp hb
    exact (hreads bs hbs).2 b hb
  constructor
  · rintro ⟨⟨ls, s, hrun, hr, hp⟩, hall⟩
    obtain ⟨hframes, -⟩ := run_frames hrun hp
    rw [hr] at hframes
    exact aligned_of_frames (fun r hr => (hrs r hr).toIsRequest) ⟨hB, hcut⟩ hframes
      (hall ls s hrun hr hp).1
  · intro hal
    obtain ⟨outs, hframes, hout⟩ := frames_of_aligned hrs hB hal
    refine ⟨exists_run_of_frames hreads rfl hframes, fun ls s hrun hr hp => ?_⟩
    obtain ⟨hframes', hresp⟩ := run_frames hrun hp
    rw [hr] at hframes'
    obtain rfl := hframes.unique hframes'
    have hlen := congrArg List.length hout
    rw [List.length_map, List.length_map] at hlen
    exact ⟨hout, hresp.trans hlen⟩

/-- `GET / HTTP/1.1` without headers. -/
def getRoot : Bytes :=
  ascii ['G', 'E', 'T', ' ', '/', ' ', 'H', 'T', 'T', 'P', '/', '1', '.', '1', '\r', '\n',
    '\r', '\n']

theorem keepAliveRequest_getRoot : KeepAliveRequest lineLlhttp getRoot where
  toIsRequest := isRequest_of_check (by decide +kernel) (by decide +kernel)
  keepAlive := rfl

theorem keepAliveRequest_sampleRequest : KeepAliveRequest lineLlhttp sampleRequest where
  toIsRequest := isRequest_sampleRequest
  keepAlive := rfl

/-- Two requests of which the first is cut into two blocks, in one read. -/
theorem framing_two_requests :
    (∃ ls s, StepSystem.run (step lineLlhttp) init ls = some s ∧
        readsOf ls = [[getRoot.take 9, getRoot.drop 9, sampleRequest]] ∧ s.phase = .reading) ∧
      ∀ ls s, StepSystem.run (step lineLlhttp) init ls = some s →
        readsOf ls = [[getRoot.take 9, getRoot.drop 9, sampleRequest]] → s.phase = .reading →
        s.requests.map summary = [getRoot, sampleRequest].map (expected lineLlhttp) ∧
          s.responses = 2 := by
  refine (framing_iff lineLlhttp [getRoot, sampleRequest] ?_ _ (by decide +kernel)
    (by decide +kernel)).mpr ⟨[[getRoot.take 9, getRoot.drop 9], [sampleRequest]], rfl, ?_⟩
  · intro r hr
    rcases List.mem_cons.mp hr with rfl | hr
    · exact keepAliveRequest_getRoot
    · rw [List.mem_singleton.mp hr]
      exact keepAliveRequest_sampleRequest
  · decide +kernel

/-- **A request that is swallowed.**  Two requests that arrive in one block give
one successful result, which consumes both; the handler waits for more after one
response. -/
theorem pipelined_request_swallowed :
    KeepAliveRequest lineLlhttp getRoot ∧
      ∃ s, StepSystem.run (step lineLlhttp) init
          [.parse, .readDone (.data [getRoot ++ getRoot]), .parse, .writeDone 0, .parse] = some s ∧
        s.phase = .reading ∧ s.requests.map (fun x => x.1.consumedBytes) = [36] ∧
        s.responses = 1 :=
  ⟨keepAliveRequest_getRoot, StepSystem.exists_of_run_any (by decide +kernel)⟩

end HttpHandler
