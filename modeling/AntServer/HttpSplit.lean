/-
What a division into blocks does to a request.

`on_url`, `on_header_field` and `on_header_value` overwrite what an earlier
fragment of the same token left, so of a url, a field name or a value only the
part behind the last block boundary in it stays.

* `lost` — how many bytes of a token that are, told from the boundaries and from
  the tokens of the undivided bytes;
* `parse_eq_of_lost` — divisions that lose the same agree;
* `headers_suffix_eq` — if parts of distinct header names and values give the map
  of the whole ones, they are the whole ones;
* `split_agree` — **when divisions agree**;
* `split_url_differs` — a cut inside the url.
-/
import AntServer.HttpHeaders

namespace HttpParser

open SpanMachine (Callback Entry lex lexBlocks)

variable {σ : Type*}

/-- The tokens of undivided bytes. -/
def tokens (m : Llhttp σ) (w : Bytes) : List (Entry UInt8 Token Notice) :=
  match lex m.unpaused.toMachine m.start none w with
  | some r => r.1
  | none => []

/-- How many bytes of the `k`-th token are lost in the division `D`: those before the
last block boundary that falls into the token.  Of the body nothing is lost. -/
def lost (m : Llhttp σ) (D : List Bytes) (k : ℕ) : ℕ :=
  match (tokens m D.flatten)[k]? with
  | some (.span .body _ _) => 0
  | _ => SpanMachine.cutBefore m.unpaused.toMachine D k

/-- All bytes of the body. -/
def bodyBytes : Entry UInt8 Token Notice → Bytes
  | .span .body done last => (done ++ [last]).flatten
  | _ => []

/-- The two results agree as the callers see them. -/
structure Agree (r₁ r₂ : ParseResult × HttpRequest) : Prop where
  status : r₁.1.status = r₂.1.status
  same : r₁.1.status = .success →
    r₁.1.consumedBytes = r₂.1.consumedBytes ∧ r₁.2.method = r₂.2.method ∧ r₁.2.url = r₂.2.url ∧
      r₁.2.headers = r₂.2.headers ∧ r₁.2.body = r₂.2.body ∧ r₁.2.keepAlive = r₂.2.keepAlive

theorem callback_url_body (ctx : ParserContext) (e : Entry UInt8 Token Notice) :
    (callback ctx (kept e)).req.url =
        (match e with | .span .url _ last => last | _ => ctx.req.url) ∧
      (callback ctx (kept e)).req.body = ctx.req.body ++ bodyBytes e := by
  rcases e with ⟨_ | _ | _ | _, done, last⟩ | (_ | _)
  · simp [kept, keptBytes, callback, onUrl, bodyBytes]
  · simp only [kept, callback, onHeaderField, bodyBytes]
    split <;> simp [commit]
  · simp [kept, callback, onHeaderValue, bodyBytes]
  · simp [kept, keptBytes, callback, onBody, bodyBytes]
  · simp only [kept, callback, onHeadersComplete, bodyBytes]
    split <;> simp [commit]
  · simp [kept, callback, onMessageComplete, bodyBytes]

theorem foldl_kept_body (ctx : ParserContext) (es : List (Entry UInt8 Token Notice)) :
    ((es.map kept).foldl callback ctx).req.body = ctx.req.body ++ es.flatMap bodyBytes := by
  induction es generalizing ctx with
  | nil => simp
  | cons e es ih =>
    rw [List.map_cons, List.foldl_cons, ih, (callback_url_body ctx e).2, List.flatMap_cons,
      List.append_assoc]

/-- The body does not depend on the fragments. -/
theorem flatMap_bodyBytes_join (es : List (Entry UInt8 Token Notice)) :
    (es.map Entry.join).flatMap bodyBytes = es.flatMap bodyBytes := by
  rw [List.flatMap_map]
  refine List.flatMap_congr fun e _ => ?_
  rcases e with ⟨_ | _ | _ | _, done, last⟩ | n <;> simp [Entry.join, bodyBytes]

/-! ### What is lost -/

/-- The bytes of a token that are lost with its earlier fragments. -/
def lossOf : Entry UInt8 Token Notice → ℕ
  | .span .body _ _ => 0
  | e => e.before

/-- The whole token without its first `n` bytes, as one callback. -/
def shorten : Entry UInt8 Token Notice → ℕ → Callback UInt8 Token Notice
  | .span t _ xs, n => .data t (if t = .body then xs else xs.drop n)
  | .notice k, _ => .notice k

theorem kept_eq_shorten (e : Entry UInt8 Token Notice) : kept e = shorten e.join (lossOf e) := by
  rcases e with ⟨_ | _ | _ | _, done, last⟩ | n <;>
    simp [kept, keptBytes, shorten, Entry.join, lossOf, Entry.before]

theorem map_kept_eq_zipWith (es : List (Entry UInt8 Token Notice)) :
    es.map kept = List.zipWith shorten (es.map Entry.join) (es.map lossOf) := by
  induction es with
  | nil => rfl
  | cons e es ih => rw [List.map_cons, ih, kept_eq_shorten]; rfl

theorem tokens_eq_join {m : Llhttp σ} {D : List Bytes} {es : List (Entry UInt8 Token Notice)}
    {s : σ} (h : lexBlocks m.unpaused.toMachine m.start none D = some (es, s, none)) :
    tokens m D.flatten = es.map Entry.join := by
  have hjoin : (lexBlocks m.unpaused.toMachine m.start none D).map SpanMachine.joinAll =
      lex m.unpaused.toMachine m.start none D.flatten := lexBlocks_joined_start m.unpaused D
  rw [tokens, ← hjoin, h]
  rfl

/-- What is lost of the tokens of a division. -/
theorem lost_eq {m : Llhttp σ} {D : List Bytes} {es : List (Entry UInt8 Token Notice)} {s : σ}
    (h : lexBlocks m.unpaused.toMachine m.start none D = some (es, s, none)) (k : ℕ) :
    lost m D k = (es.map lossOf).getD k 0 := by
  have hcut : SpanMachine.cutBefore m.unpaused.toMachine D k =
      (es.map Entry.before ++ [0]).getD k 0 := SpanMachine.cutBefore_eq h k
  rw [lost, tokens_eq_join h, hcut, List.getElem?_map]
  by_cases hk : k < es.length
  · rw [List.getD_append _ _ _ _ (by simpa using hk), List.getElem?_eq_getElem hk]
    simp only [Option.map_some, List.getD, List.getElem?_map, List.getElem?_eq_getElem hk,
      Option.getD_some]
    rcases es[k] with ⟨_ | _ | _ | _, done, last⟩ | n <;> rfl
  · have hlen : es.length ≤ k := Nat.le_of_not_lt hk
    rw [List.getElem?_eq_none hlen, List.getD_append_right _ _ _ _ (by simpa using hlen)]
    simp only [Option.map_none, List.length_map]
    rw [List.getD_eq_default (es.map lossOf) 0 (by simpa using hlen)]
    cases k - es.length <;> rfl

theorem lost_eq_zero_iff {m : Llhttp σ} {D : List Bytes} {es : List (Entry UInt8 Token Notice)}
    {s : σ} (h : lexBlocks m.unpaused.toMachine m.start none D = some (es, s, none)) :
    (∀ k, lost m D k = 0) ↔ ∀ e ∈ es, lossOf e = 0 := by
  constructor
  · intro hlost e he
    obtain ⟨k, hk, rfl⟩ := List.mem_iff_getElem.mp he
    have := hlost k
    rwa [lost_eq h, List.getD_eq_getElem _ _ (by simpa using hk), List.getElem_map] at this
  · intro hzero k
    rw [lost_eq h, List.getD]
    cases hk : (es.map lossOf)[k]? with
    | none => rfl
    | some n =>
      obtain ⟨e, he, rfl⟩ := List.mem_map.mp (List.mem_of_getElem? hk)
      exact hzero e he

/-- **Divisions that lose the same agree.** -/
theorem parse_eq_of_lost {m : Llhttp σ} {w : Bytes} (hw : IsComplete m w) {D₁ D₂ : List Bytes}
    (h₁ : Divides D₁ w) (h₂ : Divides D₂ w) (hlost : ∀ k, lost m D₁ k = lost m D₂ k) :
    parse m D₁ = parse m D₂ := by
  rw [hw.parse_unpaused h₁, hw.parse_unpaused h₂]
  obtain ⟨es₁, s₁, hl₁, hj₁, hp₁⟩ := parse_of_request hw.whole h₁ []
  obtain ⟨es₂, s₂, hl₂, hj₂, hp₂⟩ := parse_of_request hw.whole h₂ []
  rw [List.append_nil] at hp₁ hp₂
  -- the tokens are the same up to their fragments
  rw [hj₁, Option.some_inj, Prod.mk.injEq, Prod.mk.injEq] at hj₂
  obtain ⟨hjoin, rfl, -⟩ := hj₂
  have hloss : es₁.map lossOf = es₂.map lossOf := by
    have hlen : es₁.length = es₂.length := by simpa using congrArg List.length hjoin
    refine List.ext_getElem (by simpa using hlen) fun k hk₁ hk₂ => ?_
    have := hlost k
    rwa [lost_eq hl₁, lost_eq hl₂, List.getD_eq_getElem _ _ hk₁, List.getD_eq_getElem _ _ hk₂]
      at this
  rw [hp₁, hp₂, map_kept_eq_zipWith es₁, map_kept_eq_zipWith es₂, hjoin, hloss]

/-- A single block loses nothing. -/
theorem lost_singleton {m : Llhttp σ} {w : Bytes} (hw : IsComplete m w) :
    ∀ k, lost m [w] k = 0 := by
  obtain ⟨es, s, hlex, -⟩ := hw.whole.lexed
  have hblocks : lexBlocks m.unpaused.toMachine m.start none [w] = some (es, s, none) := by
    have hlex' : lex m.unpaused.toMachine m.start none w = some (es, s, none) := hlex
    rw [lexBlocks, hlex']
    simp [lexBlocks]
  refine (lost_eq_zero_iff hblocks).mpr fun e he => ?_
  have hall : es.map Entry.before ++ [0] = 0 :: List.replicate es.length 0 :=
    SpanMachine.before_lex hlex
  have hmem := List.mem_append_left [0] (List.mem_map_of_mem (f := Entry.before) he)
  rw [hall, List.mem_cons] at hmem
  have hbefore : e.before = 0 := hmem.elim id List.eq_of_mem_replicate
  rcases e with ⟨_ | _ | _ | _, done, last⟩ | n
  all_goals first | exact hbefore | rfl

/-! ### The headers of a division -/

/-- A callback for a token in one piece, as a token. -/
def whole : Callback UInt8 Token Notice → Entry UInt8 Token Notice
  | .data t xs => .span t [] xs
  | .notice n => .notice n

/-- `w` has the url `url` and the headers `hs`; behind its header section come the body
and the end of the message, no trailers. -/
def HasHeaders (m : Llhttp σ) (w url : Bytes) (hs : List (Bytes × Bytes)) : Prop :=
  ∃ rest, tokens m w = (.data .url url :: (sectionCallbacks hs ++ rest)).map whole ∧
    ∀ c ∈ rest, (∃ xs, c = .data .body xs) ∨ c = .notice .messageComplete

/-- A token that is not the body: its last fragment is kept. -/
theorem kept_of_join {e : Entry UInt8 Token Notice} {t : Token} {xs : Bytes} (ht : t ≠ .body)
    (h : e.join = .span t [] xs) :
    ∃ ys, kept e = .data t ys ∧ ys <:+ xs ∧ (ys = xs ↔ lossOf e = 0) := by
  cases e with
  | notice n => cases h
  | span t' done last =>
    cases h
    have hloss : lossOf (.span t done last) = done.flatten.length := by
      cases t with
      | body => exact absurd rfl ht
      | url | headerField | headerValue => rfl
    refine ⟨last, by simp [kept, keptBytes, ht], ⟨done.flatten, by simp⟩, ?_⟩
    rw [hloss, List.length_eq_zero_iff, List.flatten_append, List.flatten_singleton]
    exact ⟨fun h => List.append_left_eq_self.mp h.symm, fun h => by rw [h, List.nil_append]⟩

/-- A header section with its tokens cut. -/
theorem section_of_join {es : List (Entry UInt8 Token Notice)} {hs : List (Bytes × Bytes)}
    (h : es.map Entry.join = (sectionCallbacks hs).map whole) :
    ∃ hs', es.map kept = sectionCallbacks hs' ∧
      List.Forall₂ (fun h' h => h'.1 <:+ h.1 ∧ h'.2 <:+ h.2) hs' hs ∧
      (hs' = hs ↔ ∀ e ∈ es, lossOf e = 0) := by
  induction hs generalizing es with
  | nil =>
    obtain ⟨e, es', rfl, he, hnil⟩ := List.map_eq_cons_iff.mp h
    obtain rfl := List.map_eq_nil_iff.mp hnil
    cases e with
    | span t done last => cases he
    | notice n =>
      cases he
      exact ⟨[], rfl, .nil, by simp [lossOf, Entry.before]⟩
  | cons p hs ih =>
    obtain ⟨e₁, es₁, rfl, he₁, h₁⟩ := List.map_eq_cons_iff.mp h
    obtain ⟨e₂, es₂, rfl, he₂, h₂⟩ := List.map_eq_cons_iff.mp h₁
    obtain ⟨f, hf, hfs, hf0⟩ := kept_of_join (by decide) he₁
    obtain ⟨v, hv, hvs, hv0⟩ := kept_of_join (by decide) he₂
    obtain ⟨hs', hkept, hsuffix, hzero⟩ := ih h₂
    refine ⟨(f, v) :: hs', ?_, .cons ⟨hfs, hvs⟩ hsuffix, ?_⟩
    · rw [List.map_cons, List.map_cons, hf, hv, hkept]
      rfl
    · rw [List.cons.injEq, Prod.ext_iff, hf0, hv0, hzero]
      simp [and_assoc]

theorem section_url (ctx : ParserContext) (hs : List (Bytes × Bytes)) :
    ((sectionCallbacks hs).foldl callback ctx).req.url = ctx.req.url := by
  have hfield : ∀ (ctx : ParserContext) (f : Bytes),
      (onHeaderField ctx f).req.url = ctx.req.url := by
    intro ctx f
    rw [onHeaderField]
    split <;> rfl
  induction hs generalizing ctx with
  | nil =>
    show (onHeadersComplete ctx).req.url = _
    rw [onHeadersComplete]
    split <;> rfl
  | cons h hs ih =>
    refine (ih (onHeaderValue (onHeaderField ctx h.1) h.2)).trans ?_
    exact hfield ctx h.1

/-- Behind the header section neither the url nor the headers change. -/
theorem rest_unchanged {es : List (Entry UInt8 Token Notice)}
    {rest : List (Callback UInt8 Token Notice)} (h : es.map Entry.join = rest.map whole)
    (hrest : ∀ c ∈ rest, (∃ xs, c = .data .body xs) ∨ c = .notice .messageComplete)
    (ctx : ParserContext) :
    ((es.map kept).foldl callback ctx).req.url = ctx.req.url ∧
      ((es.map kept).foldl callback ctx).req.headers = ctx.req.headers ∧
      ∀ e ∈ es, lossOf e = 0 := by
  induction rest generalizing es ctx with
  | nil =>
    obtain rfl := List.map_eq_nil_iff.mp h
    exact ⟨rfl, rfl, fun e he => absurd he List.not_mem_nil⟩
  | cons c rest ih =>
    obtain ⟨e, es, rfl, he, hes⟩ := List.map_eq_cons_iff.mp h
    obtain ⟨hurl, hheaders, hzero⟩ := ih hes (fun c hc => hrest c (List.mem_cons_of_mem _ hc))
      (callback ctx (kept e))
    rw [List.map_cons, List.foldl_cons, hurl, hheaders, List.forall_mem_cons]
    rcases hrest c List.mem_cons_self with ⟨xs, rfl⟩ | rfl
    · cases e with
      | notice n => cases he
      | span t done last =>
        cases he
        exact ⟨rfl, rfl, rfl, hzero⟩
    · cases e with
      | span t done last => cases he
      | notice n =>
        cases he
        exact ⟨rfl, rfl, rfl, hzero⟩

/-- The url and the headers that a division gives. -/
theorem url_headers_of_join {es : List (Entry UInt8 Token Notice)} {m : Llhttp σ} {w url : Bytes}
    {hs : List (Bytes × Bytes)} (hw : HasHeaders m w url hs) (h : tokens m w = es.map Entry.join) :
    ∃ url' hs', ((es.map kept).foldl callback .empty).req.url = url' ∧
      ((es.map kept).foldl callback .empty).req.headers =
        ((sectionCallbacks hs').foldl callback (onUrl .empty url')).req.headers ∧
      List.Forall₂ (fun h' h => h'.1 <:+ h.1 ∧ h'.2 <:+ h.2) hs' hs ∧
      (url' = url ∧ hs' = hs ↔ ∀ e ∈ es, lossOf e = 0) := by
  obtain ⟨rest, htokens, hrest⟩ := hw
  rw [h] at htokens
  obtain ⟨e, es', rfl, he, hes⟩ := List.map_eq_cons_iff.mp htokens
  rw [List.map_append] at hes
  obtain ⟨es₁, es₂, rfl, hes₁, hes₂⟩ := List.map_eq_append_iff.mp hes
  obtain ⟨url', hkept, -, hzero⟩ := kept_of_join (by decide) he
  obtain ⟨hs', hsection, hsuffix, hzero₁⟩ := section_of_join hes₁
  obtain ⟨hurl, hheaders, hzero₂⟩ := rest_unchanged hes₂ hrest
    ((sectionCallbacks hs').foldl callback (onUrl .empty url'))
  have hfold : ((e :: (es₁ ++ es₂)).map kept).foldl callback .empty =
      (es₂.map kept).foldl callback
        ((sectionCallbacks hs').foldl callback (onUrl .empty url')) := by
    rw [List.map_cons, List.map_append, hkept, hsection, List.foldl_cons, List.foldl_append]
    rfl
  refine ⟨url', hs', ?_, ?_, hsuffix, ?_⟩
  · rw [hfold, hurl, section_url]
    rfl
  · rw [hfold, hheaders]
  · rw [hzero, hzero₁, List.forall_mem_cons, List.forall_mem_append]
    exact ⟨fun h => ⟨h.1, h.2, hzero₂⟩, fun h => ⟨h.1, h.2.1⟩⟩

/-! ### Parts of names and values -/

theorem eq_of_suffix_of_length {ks fs : List Bytes} (h : List.Forall₂ (· <:+ ·) ks fs)
    (hlen : (fs.map List.length).sum ≤ (ks.map List.length).sum) : ks = fs := by
  have hle : ∀ {ks fs : List Bytes}, List.Forall₂ (· <:+ ·) ks fs →
      (ks.map List.length).sum ≤ (fs.map List.length).sum := by
    intro ks fs h
    induction h with
    | nil => exact le_rfl
    | cons hk _ ih => simpa using Nat.add_le_add hk.length_le ih
  induction h with
  | nil => rfl
  | cons hk hks ih =>
    have := hle hks
    have := hk.length_le
    simp only [List.map_cons, List.sum_cons] at hlen
    rw [hk.eq_of_length (by omega), ih (by omega)]

/-- If some of the parts `hs'` of headers `hs` with distinct names give the same map, then
nothing is missing: the names are too many to be made of fewer bytes. -/
theorem headers_suffix_eq {hs hs' ps : List (Bytes × Bytes)}
    (hsuffix : List.Forall₂ (fun h' h => h'.1 <:+ h.1 ∧ h'.2 <:+ h.2) hs' hs)
    (hdistinct : (hs.map Prod.fst).Nodup) (hps : ps.Sublist hs')
    (h : insertAll (fun _ => none) ps = insertAll (fun _ => none) hs) : hs' = hs := by
  -- every name is a key, so all parts are stored and their names are the names in some order
  have hsub : hs.map Prod.fst ⊆ ps.map Prod.fst := by
    intro k hk
    obtain ⟨⟨k, v⟩, hmem, rfl⟩ := List.mem_map.mp hk
    by_contra hnot
    have hat := congrFun h k
    rw [insertAll_of_notMem hnot, insertAll_of_mem hdistinct hmem] at hat
    cases hat
  have hlen : hs'.length = hs.length := hsuffix.length_eq
  have hperm : (hs.map Prod.fst).Perm (ps.map Prod.fst) := by
    refine (hdistinct.subperm hsub).perm_of_length_le ?_
    rw [List.length_map, List.length_map, ← hlen]
    exact hps.length_le
  obtain rfl : ps = hs' := by
    refine hps.eq_of_length ?_
    have := hperm.length_eq
    rw [List.length_map, List.length_map] at this
    omega
  -- the names have as many bytes, so none is cut
  have hnames : ps.map Prod.fst = hs.map Prod.fst := by
    refine eq_of_suffix_of_length ?_ ((hperm.map List.length).sum_eq).le
    rw [List.forall₂_map_left_iff, List.forall₂_map_right_iff]
    exact hsuffix.imp fun _ _ h => h.1
  have hdistinct' : (ps.map Prod.fst).Nodup := hnames ▸ hdistinct
  refine List.ext_getElem hlen fun i hi hi' => ?_
  have hkey : ps[i].1 = hs[i].1 := by
    have := congrArg (·[i]?) hnames
    simpa [List.getElem?_map, List.getElem?_eq_getElem hi, List.getElem?_eq_getElem hi'] using this
  have hat : insertAll (fun _ => none) ps ps[i].1 = some ps[i].2 :=
    insertAll_of_mem hdistinct' (List.getElem_mem hi)
  have hat' : insertAll (fun _ => none) hs hs[i].1 = some hs[i].2 :=
    insertAll_of_mem hdistinct (List.getElem_mem hi')
  rw [h, hkey, hat'] at hat
  exact Prod.ext hkey (Option.some.inj hat).symm

/-! ### When divisions agree -/

/-- Header names that are not empty and all different; only the last value may be empty. -/
structure PlainHeaders (hs : List (Bytes × Bytes)) : Prop where
  names : ∀ h ∈ hs, h.1 ≠ []
  distinct : (hs.map Prod.fst).Nodup
  values : ∀ h ∈ hs.dropLast, h.2 ≠ []

/-- A division with the url and the headers of the single block loses nothing. -/
theorem lost_of_agree {m : Llhttp σ} {w url : Bytes} {hs : List (Bytes × Bytes)} {D : List Bytes}
    (hw : IsComplete m w) (hhs : HasHeaders m w url hs) (hplain : PlainHeaders hs)
    (hD : Divides D w) (hurl : (parse m D).2.url = (parse m [w]).2.url)
    (hheaders : (parse m D).2.headers = (parse m [w]).2.headers) : ∀ k, lost m D k = 0 := by
  have hsingle : Divides [w] w := ⟨by simpa using hw.whole.ne_nil, by simp⟩
  rw [hw.parse_unpaused hD, hw.parse_unpaused hsingle] at hurl hheaders
  obtain ⟨es, s, hl, -, hp⟩ := parse_of_request hw.whole hD []
  obtain ⟨es₀, s₀, hl₀, -, hp₀⟩ := parse_of_request hw.whole hsingle []
  rw [List.append_nil] at hp hp₀
  rw [hp, hp₀] at hurl hheaders
  have htokens : tokens m w = es.map Entry.join := by rw [← hD.flatten, tokens_eq_join hl]
  have htokens₀ : tokens m w = es₀.map Entry.join := by rw [← hsingle.flatten, tokens_eq_join hl₀]
  obtain ⟨url', hs', hurl', hheaders', hsuffix, hzero⟩ := url_headers_of_join hhs htokens
  obtain ⟨url₀, hs₀, hurl₀, hheaders₀, -, hzero₀⟩ := url_headers_of_join hhs htokens₀
  obtain ⟨rfl, rfl⟩ := hzero₀.mpr ((lost_eq_zero_iff hl₀).mp (lost_singleton hw))
  -- the single block has the whole headers
  have hmap : ((sectionCallbacks hs₀).foldl callback (onUrl .empty url₀)).req.headers =
      insertAll (fun _ => none) hs₀ := by
    rw [foldl_section (noHeaders_onUrl url₀) hplain.names,
      insertAll_committed_of_repeated (emptyRepeated_of_values hplain.values)]
  obtain ⟨ps, hps, hsome⟩ := foldl_section_some (noHeaders_onUrl url') hs'
  have hurl_eq : url' = url₀ := hurl'.symm.trans (hurl.trans hurl₀)
  have hheaders_eq : insertAll (fun _ => none) ps = insertAll (fun _ => none) hs₀ := by
    rw [← hsome, ← hmap, ← hheaders', ← hheaders₀]
    exact hheaders
  have hhs_eq : hs' = hs₀ := headers_suffix_eq hsuffix hplain.distinct hps hheaders_eq
  exact (lost_eq_zero_iff hl).mpr (hzero.mp ⟨hurl_eq, hhs_eq⟩)

/-- **Block-split independence.**  For the bytes of one request, or of the beginning of
one, two divisions into blocks agree if, when the request is whole, the same bytes of every
url, name and value come before the last block boundary in it.  If the header names are
distinct and the values not empty, a division agrees with the single block exactly if no
block boundary falls into a url, a name or a value, or right behind it. -/
theorem split_agree (m : Llhttp σ) (w : Bytes)
    (hw : IsComplete m w ∨ ∃ r, IsComplete m r ∧ w <+: r ∧ w ≠ r) :
    (∀ D₁ D₂, Divides D₁ w → Divides D₂ w →
      (IsComplete m w → ∀ k, lost m D₁ k = lost m D₂ k) → Agree (parse m D₁) (parse m D₂)) ∧
    (IsComplete m w → ∀ url hs, HasHeaders m w url hs → PlainHeaders hs →
      ∀ D, Divides D w → (Agree (parse m D) (parse m [w]) ↔ ∀ k, lost m D k = 0)) := by
  have hagree : ∀ D₁ D₂, Divides D₁ w → Divides D₂ w →
      (IsComplete m w → ∀ k, lost m D₁ k = lost m D₂ k) → Agree (parse m D₁) (parse m D₂) := by
    intro D₁ D₂ h₁ h₂ hlost
    by_cases hcomplete : IsComplete m w
    · rw [parse_eq_of_lost hcomplete h₁ h₂ (hlost hcomplete)]
      exact ⟨rfl, fun _ => ⟨rfl, rfl, rfl, rfl, rfl, rfl⟩⟩
    · obtain ⟨r, hr, hpre, hne⟩ := hw.resolve_left hcomplete
      have hs₁ := hr.parse_of_beginning hpre hne h₁
      have hs₂ := hr.parse_of_beginning hpre hne h₂
      refine ⟨by rw [hs₁, hs₂], fun h => ?_⟩
      rw [hs₁] at h
      cases h
  refine ⟨hagree, fun hcomplete url hs hhs hplain D hD => ?_⟩
  have hsingle : Divides [w] w := ⟨by simpa using hcomplete.whole.ne_nil, by simp⟩
  constructor
  · intro h
    have hok : (parse m D).1.status = .success := by
      rw [hcomplete.parse_unpaused hD]
      obtain ⟨es, s, -, -, hparse⟩ := parse_of_request hcomplete.whole hD []
      rw [List.append_nil] at hparse
      rw [hparse]
    obtain ⟨-, -, hurl, hheaders, -, -⟩ := h.same hok
    exact lost_of_agree hcomplete hhs hplain hD hurl hheaders
  · intro h
    exact hagree D [w] hD hsingle fun _ k => by rw [h k, lost_singleton hcomplete k]

/-- With a repeated name a cut need not show: the value `xy`, cut behind its first byte, is
overwritten by `z`. -/
example :
    let D := [ascii ['G', 'E', 'T', ' ', '/', ' ', 'H', '\r', '\n', 'a', ':', 'x'],
      ascii ['y', '\r', '\n', 'a', ':', 'z', '\r', '\n', '\r', '\n']]
    lost lineLlhttp D 2 = 1 ∧
      (parse lineLlhttp D).2.headers = (parse lineLlhttp [D.flatten]).2.headers := by
  intro D
  have hcut : (parse lineLlhttp D).2.headers = Function.update
      (Function.update (fun _ => none) (ascii ['a']) (some (ascii ['y'])))
      (ascii ['a']) (some (ascii ['z'])) := by rfl
  have hwhole : (parse lineLlhttp [D.flatten]).2.headers = Function.update
      (Function.update (fun _ => none) (ascii ['a']) (some (ascii ['x', 'y'])))
      (ascii ['a']) (some (ascii ['z'])) := by rfl
  refine ⟨by decide +kernel, ?_⟩
  rw [hcut, hwhole, Function.update_idem, Function.update_idem]

/-! ### Samples -/

/-- A test for one request, with a pause behind it or not. -/
theorem isComplete_of_check {m : Llhttp σ} {w : Bytes} (hw : IsRequest m.unpaused w)
    (hthrough : ∀ p ∈ w.inits, p ≠ w → (lex m.toMachine m.start none p).isSome = true) :
    IsComplete m w :=
  ⟨hw, fun p hp hne => Option.isSome_iff_exists.mp (hthrough p ((List.mem_inits _ _).mpr hp) hne)⟩

/-- A test for divisions that lose nothing. -/
theorem lost_eq_zero_of_check {m : Llhttp σ} {D : List Bytes}
    (h : (lexBlocks m.unpaused.toMachine m.start none D).any
      (fun r => r.2.2.isNone ∧ ∀ e ∈ r.1, lossOf e = 0) = true) : ∀ k, lost m D k = 0 := by
  rw [Option.any_eq_true] at h
  obtain ⟨⟨es, s, o⟩, heq, hr⟩ := h
  obtain ⟨ho, hzero⟩ := of_decide_eq_true hr
  obtain rfl : o = none := Option.isNone_iff_eq_none.mp ho
  exact (lost_eq_zero_iff heq).mpr hzero

/-- `GET /ab HTTP/1.1` with one header. -/
def sampleRequest : Bytes :=
  ascii ['G', 'E', 'T', ' ', '/', 'a', 'b', ' ', 'H', 'T', 'T', 'P', '/', '1', '.', '1', '\r', '\n',
    'H', 'o', 's', 't', ':', ' ', 'x', '\r', '\n', '\r', '\n']

theorem isRequest_sampleRequest : IsRequest lineLlhttp sampleRequest :=
  isRequest_of_check (by decide +kernel) (by decide +kernel)

/-- The sample in two blocks, cut behind the first `n` bytes. -/
def cutAt (n : ℕ) : List Bytes := [sampleRequest.take n, sampleRequest.drop n]

def connectStep (s : LineState) (b : UInt8) : SpanMachine.Outcome Token Notice LineState :=
  if s.pc = .start then if b = byte 'C' then .next [] [] ⟨.method, false⟩ else .error
  else
    match lineStep s b with
    | .next pre post s' => if s'.pc = .start then .pause pre post s' else .next pre post s'
    | r => r

/-- llhttp on `CONNECT` requests of HTTP/1.1. -/
def connectLlhttp : Llhttp LineState where
  start := ⟨.start, false⟩
  step := connectStep
  methodName := fun _ => "CONNECT"
  shouldKeepAlive := fun _ => true

/-- `CONNECT a:1 HTTP/1.1` with one header. -/
def connectRequest : Bytes :=
  ascii ['C', 'O', 'N', 'N', 'E', 'C', 'T', ' ', 'a', ':', '1', ' ', 'H', 'T', 'T', 'P', '/', '1',
    '.', '1', '\r', '\n', 'H', 'o', 's', 't', ':', ' ', 'x', '\r', '\n', '\r', '\n']

theorem isComplete_connectRequest : IsComplete connectLlhttp connectRequest :=
  isComplete_of_check (isRequest_of_check (by decide +kernel) (by decide +kernel))
    (by decide +kernel)

/-- A cut between the tokens and one inside the url; and a `CONNECT` request, cut between
its tokens. -/
theorem split_agree_version :
    Agree (parse lineLlhttp (cutAt 10)) (parse lineLlhttp [sampleRequest]) ∧
      ¬ Agree (parse lineLlhttp (cutAt 6)) (parse lineLlhttp [sampleRequest]) ∧
      (parse connectLlhttp [connectRequest]).1.status = .success ∧
      Agree (parse connectLlhttp [connectRequest.take 14, connectRequest.drop 14])
        (parse connectLlhttp [connectRequest]) := by
  have hsample := isRequest_sampleRequest.isComplete
  have hhs : HasHeaders lineLlhttp sampleRequest (ascii ['/', 'a', 'b'])
      [(ascii ['H', 'o', 's', 't'], ascii ['x'])] :=
    ⟨[.notice .messageComplete], by decide +kernel, fun c hc => Or.inr (List.mem_singleton.mp hc)⟩
  have hplain : PlainHeaders [(ascii ['H', 'o', 's', 't'], ascii ['x'])] :=
    ⟨by decide, by decide, by decide⟩
  have hiff := (split_agree lineLlhttp sampleRequest (Or.inl hsample)).2 hsample _ _ hhs hplain
  have hconnect := isComplete_connectRequest
  refine ⟨?_, ?_, by decide +kernel, ?_⟩
  · refine (hiff (cutAt 10) ⟨by decide +kernel, by decide +kernel⟩).mpr ?_
    exact lost_eq_zero_of_check (by decide +kernel)
  · rw [hiff (cutAt 6) ⟨by decide +kernel, by decide +kernel⟩]
    intro h
    have h0 : lost lineLlhttp (cutAt 6) 0 = 2 := by decide +kernel
    rw [h 0] at h0
    cases h0
  · refine (split_agree connectLlhttp connectRequest (Or.inl hconnect)).1 _ _
      ⟨by decide +kernel, by decide +kernel⟩ ⟨by decide +kernel, by decide +kernel⟩ fun _ k => ?_
    have hcut : ∀ k, lost connectLlhttp [connectRequest.take 14, connectRequest.drop 14] k = 0 :=
      lost_eq_zero_of_check (by decide +kernel)
    rw [hcut k, lost_singleton hconnect k]

/-- **A cut inside the url.**  With the cut behind `GET /a` the url is `b`, not
`/ab`. -/
theorem split_url_differs :
    IsComplete lineLlhttp sampleRequest ∧ Divides [sampleRequest] sampleRequest ∧
      Divides (cutAt 6) sampleRequest ∧
      (parse lineLlhttp [sampleRequest]).1.status = .success ∧
      (parse lineLlhttp (cutAt 6)).1.status = .success ∧
      (parse lineLlhttp [sampleRequest]).2.url = ascii ['/', 'a', 'b'] ∧
      (parse lineLlhttp (cutAt 6)).2.url = ascii ['b'] ∧
      ¬ Agree (parse lineLlhttp [sampleRequest]) (parse lineLlhttp (cutAt 6)) := by
  have h₁ : (parse lineLlhttp [sampleRequest]).2.url = ascii ['/', 'a', 'b'] := by decide +kernel
  have h₂ : (parse lineLlhttp (cutAt 6)).2.url = ascii ['b'] := by decide +kernel
  have hok : (parse lineLlhttp [sampleRequest]).1.status = .success := by decide +kernel
  refine ⟨isRequest_sampleRequest.isComplete, ⟨by decide +kernel, by decide +kernel⟩,
    ⟨by decide +kernel, by decide +kernel⟩, hok, by decide +kernel, h₁, h₂, fun h => ?_⟩
  have hurl := (h.same hok).2.2.1
  rw [h₁, h₂] at hurl
  revert hurl
  decide

end HttpParser
