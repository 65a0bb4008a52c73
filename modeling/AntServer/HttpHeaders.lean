/-
The headers map that the callbacks build.

A header is stored late: `on_header_field` stores the pair before it if its value
is not empty, and `on_headers_complete` stores the last pair if its field is not
empty.  So a pair with an empty value is dropped when another header follows.

* `insertAll` — insert or overwrite, pair by pair; a key has its last value
  (`insertAll_eq_some_iff`);
* `foldl_section` — the map after a header section is `insertAll` of the pairs
  that are stored (`committed`);
* `headers_exact_iff` — it is `insertAll` of all pairs exactly if every dropped
  name comes again.
-/
import AntServer.HttpParser

/-! ### Insert or overwrite -/

section InsertAll

variable {K V : Type*} [DecidableEq K] {m : K → Option V} {k : K} {v : V} {ps : List (K × V)}

def insertAll (m : K → Option V) (ps : List (K × V)) : K → Option V :=
  ps.foldl (fun m p => Function.update m p.1 (some p.2)) m

@[simp] theorem insertAll_nil (m : K → Option V) : insertAll m [] = m := rfl

@[simp] theorem insertAll_cons (m : K → Option V) (p : K × V) (ps : List (K × V)) :
    insertAll m (p :: ps) = insertAll (Function.update m p.1 (some p.2)) ps := rfl

/-- A key that does not occur keeps what it had. -/
theorem insertAll_of_notMem (h : k ∉ ps.map Prod.fst) : insertAll m ps k = m k := by
  induction ps generalizing m with
  | nil => rfl
  | cons p ps ih =>
    rw [List.map_cons, List.mem_cons, not_or] at h
    rw [insertAll_cons, ih h.2, Function.update_of_ne h.1]

/-- For a key that occurs it does not matter what was there. -/
theorem insertAll_update_of_mem (h : k ∈ ps.map Prod.fst) (x : Option V) :
    insertAll (Function.update m k x) ps = insertAll m ps := by
  induction ps generalizing m with
  | nil => exact absurd h List.not_mem_nil
  | cons p ps ih =>
    rw [insertAll_cons, insertAll_cons]
    by_cases hk : k = p.1
    · rw [hk, Function.update_idem]
    · rw [Function.update_comm hk]
      refine ih ?_
      rw [List.map_cons, List.mem_cons] at h
      exact h.resolve_left hk

/-- **The last value** of a key. -/
theorem insertAll_eq_some_iff :
    insertAll (fun _ => none) ps k = some v ↔
      ∃ pre post, ps = pre ++ (k, v) :: post ∧ k ∉ post.map Prod.fst := by
  induction ps using List.reverseRecOn with
  | nil => simp
  | append_singleton ps p ih =>
    have hlast : insertAll (fun _ => none) (ps ++ [p]) =
        Function.update (insertAll (fun _ => none) ps) p.1 (some p.2) := by
      rw [insertAll, List.foldl_append]
      rfl
    rw [hlast]
    by_cases hk : k = p.1
    · subst hk
      rw [Function.update_self, Option.some_inj]
      constructor
      · rintro rfl
        exact ⟨ps, [], rfl, List.not_mem_nil⟩
      · rintro ⟨pre, post, heq, hpost⟩
        induction post using List.reverseRecOn with
        | nil =>
          obtain ⟨-, hp⟩ := List.append_inj' heq rfl
          rw [List.singleton_inj.mp hp]
        | append_singleton post q _ =>
          -- the pair `p` would be among `post`
          rw [← List.cons_append, ← List.append_assoc] at heq
          obtain ⟨-, hp⟩ := List.append_inj' heq rfl
          rw [List.singleton_inj.mp hp] at hpost
          simp at hpost
    · rw [Function.update_of_ne hk, ih]
      constructor
      · rintro ⟨pre, post, rfl, hpost⟩
        refine ⟨pre, post ++ [p], by simp, ?_⟩
        rw [List.map_append, List.mem_append, not_or]
        exact ⟨hpost, by simpa using hk⟩
      · rintro ⟨pre, post, heq, hpost⟩
        induction post using List.reverseRecOn with
        | nil =>
          obtain ⟨-, hp⟩ := List.append_inj' heq rfl
          rw [List.singleton_inj.mp hp] at hk
          exact absurd rfl hk
        | append_singleton post q _ =>
          rw [← List.cons_append, ← List.append_assoc] at heq
          obtain ⟨hps, -⟩ := List.append_inj' heq rfl
          rw [List.map_append, List.mem_append, not_or] at hpost
          exact ⟨pre, post, hps, hpost.1⟩

theorem insertAll_of_mem (hnd : (ps.map Prod.fst).Nodup) (h : (k, v) ∈ ps) :
    insertAll (fun _ => none) ps k = some v := by
  obtain ⟨pre, post, rfl⟩ := List.append_of_mem h
  refine insertAll_eq_some_iff.mpr ⟨pre, post, rfl, ?_⟩
  rw [List.map_append, List.map_cons] at hnd
  exact (List.nodup_cons.mp (List.nodup_append.mp hnd).2.1).1

end InsertAll

namespace HttpParser

open SpanMachine (Callback)

/-! ### What is stored -/

/-- The callbacks for a header section, each token in one piece. -/
def sectionCallbacks : List (Bytes × Bytes) → List (Callback UInt8 Token Notice)
  | [] => [.notice .headersComplete]
  | h :: hs => .data .headerField h.1 :: .data .headerValue h.2 :: sectionCallbacks hs

/-- The pairs that are stored: the last one, and before it those with a value. -/
def committed : List (Bytes × Bytes) → List (Bytes × Bytes)
  | [] => []
  | [h] => [h]
  | h :: h' :: hs => if h.2.isEmpty then committed (h' :: hs) else h :: committed (h' :: hs)

theorem committed_sublist (hs : List (Bytes × Bytes)) : (committed hs).Sublist hs := by
  fun_induction committed hs with
  | case1 => exact List.Sublist.refl []
  | case2 h => exact List.Sublist.refl [h]
  | case3 h h' hs _ ih => exact ih.cons h
  | case4 h h' hs _ ih => exact ih.cons_cons h

/-- The rest of a header section, with a pair pending. -/
theorem foldl_section_pending (ctx : ParserContext) (hs : List (Bytes × Bytes))
    (hfield : ctx.currentField ≠ []) (hnames : ∀ h ∈ hs, h.1 ≠ []) :
    ((sectionCallbacks hs).foldl callback ctx).req.headers =
      insertAll ctx.req.headers (committed ((ctx.currentField, ctx.currentValue) :: hs)) := by
  induction hs generalizing ctx with
  | nil =>
    show (onHeadersComplete ctx).req.headers = _
    rw [onHeadersComplete, if_neg (by simpa using hfield)]
    rfl
  | cons h hs ih =>
    show ((sectionCallbacks hs).foldl callback
      (onHeaderValue (onHeaderField ctx h.1) h.2)).req.headers = _
    rw [ih (onHeaderValue (onHeaderField ctx h.1) h.2) (hnames h List.mem_cons_self)
      fun x hx => hnames x (List.mem_cons_of_mem h hx)]
    show insertAll (onHeaderField ctx h.1).req.headers (committed (h :: hs)) = _
    rw [committed]
    by_cases hvalue : ctx.currentValue.isEmpty = true
    · rw [if_pos hvalue, onHeaderField, if_pos hvalue]
    · rw [if_neg hvalue, onHeaderField, if_neg hvalue]
      rfl

/-- No header has been reported yet. -/
structure NoHeaders (ctx : ParserContext) : Prop where
  headers : ctx.req.headers = fun _ => none
  field : ctx.currentField = []
  value : ctx.currentValue = []

/-- So a header section finds the context: the request line has only set the URL. -/
theorem noHeaders_onUrl (url : Bytes) : NoHeaders (onUrl .empty url) := ⟨rfl, rfl, rfl⟩

/-- **The map after a header section.** -/
theorem foldl_section {ctx : ParserContext} (hctx : NoHeaders ctx) {hs : List (Bytes × Bytes)}
    (hnames : ∀ h ∈ hs, h.1 ≠ []) :
    ((sectionCallbacks hs).foldl callback ctx).req.headers =
      insertAll (fun _ => none) (committed hs) := by
  cases hs with
  | nil =>
    show (onHeadersComplete ctx).req.headers = _
    rw [onHeadersComplete, if_pos (by rw [hctx.field]; rfl), hctx.headers]
    rfl
  | cons h hs =>
    show ((sectionCallbacks hs).foldl callback
      (onHeaderValue (onHeaderField ctx h.1) h.2)).req.headers = _
    rw [foldl_section_pending _ hs (hnames h List.mem_cons_self)
      fun x hx => hnames x (List.mem_cons_of_mem h hx)]
    show insertAll (onHeaderField ctx h.1).req.headers (committed (h :: hs)) = _
    rw [onHeaderField, if_pos (by rw [hctx.value]; rfl), hctx.headers]

/-- Whatever the names are, some of the pairs are stored, in order. -/
theorem foldl_section_sublist (ctx : ParserContext) (hs : List (Bytes × Bytes)) :
    ∃ ps, ps.Sublist ((ctx.currentField, ctx.currentValue) :: hs) ∧
      ((sectionCallbacks hs).foldl callback ctx).req.headers = insertAll ctx.req.headers ps := by
  induction hs generalizing ctx with
  | nil =>
    have hfold : ((sectionCallbacks []).foldl callback ctx).req.headers =
        (onHeadersComplete ctx).req.headers := rfl
    rw [hfold, onHeadersComplete]
    by_cases hfield : ctx.currentField.isEmpty = true
    · rw [if_pos hfield]
      exact ⟨[], List.nil_sublist _, rfl⟩
    · rw [if_neg hfield]
      exact ⟨_, List.Sublist.refl _, rfl⟩
  | cons h hs ih =>
    obtain ⟨ps, hps, hheaders⟩ := ih (onHeaderValue (onHeaderField ctx h.1) h.2)
    have hps' : ps.Sublist (h :: hs) := hps
    have hfold : ((sectionCallbacks (h :: hs)).foldl callback ctx).req.headers =
        insertAll (onHeaderField ctx h.1).req.headers ps := hheaders
    rw [hfold, onHeaderField]
    by_cases hvalue : ctx.currentValue.isEmpty = true
    · rw [if_pos hvalue]
      exact ⟨ps, hps'.cons _, rfl⟩
    · rw [if_neg hvalue]
      exact ⟨_, hps'.cons_cons _, rfl⟩

theorem foldl_section_some {ctx : ParserContext} (hctx : NoHeaders ctx)
    (hs : List (Bytes × Bytes)) :
    ∃ ps, ps.Sublist hs ∧
      ((sectionCallbacks hs).foldl callback ctx).req.headers = insertAll (fun _ => none) ps := by
  cases hs with
  | nil =>
    refine ⟨[], List.Sublist.refl _, ?_⟩
    show (onHeadersComplete ctx).req.headers = _
    rw [onHeadersComplete, if_pos (by rw [hctx.field]; rfl), hctx.headers]
    rfl
  | cons h hs =>
    obtain ⟨ps, hps, hheaders⟩ :=
      foldl_section_sublist (onHeaderValue (onHeaderField ctx h.1) h.2) hs
    refine ⟨ps, hps, ?_⟩
    have hfold : ((sectionCallbacks (h :: hs)).foldl callback ctx).req.headers =
        insertAll (onHeaderField ctx h.1).req.headers ps := hheaders
    rw [hfold, onHeaderField, if_pos (by rw [hctx.value]; rfl), hctx.headers]

/-! ### What is lost -/

/-- Every header with an empty value is the last header, or its name comes again. -/
def EmptyRepeated : List (Bytes × Bytes) → Prop
  | [] => True
  | h :: hs => (h.2 = [] → hs ≠ [] → h.1 ∈ hs.map Prod.fst) ∧ EmptyRepeated hs

instance EmptyRepeated.decidable : ∀ hs, Decidable (EmptyRepeated hs)
  | [] => isTrue trivial
  | h :: hs =>
    have := EmptyRepeated.decidable hs
    inferInstanceAs (Decidable ((h.2 = [] → hs ≠ [] → h.1 ∈ hs.map Prod.fst) ∧ _))

theorem emptyRepeated_of_values {hs : List (Bytes × Bytes)} (h : ∀ x ∈ hs.dropLast, x.2 ≠ []) :
    EmptyRepeated hs := by
  induction hs with
  | nil => trivial
  | cons p hs ih =>
    cases hs with
    | nil => exact ⟨fun _ hne => absurd rfl hne, trivial⟩
    | cons q hs =>
      rw [List.dropLast_cons_cons] at h
      exact ⟨fun hnil => absurd hnil (h p List.mem_cons_self),
        ih fun x hx => h x (List.mem_cons_of_mem p hx)⟩

theorem insertAll_committed_of_repeated {hs : List (Bytes × Bytes)} (h : EmptyRepeated hs)
    (m : Bytes → Option Bytes) : insertAll m (committed hs) = insertAll m hs := by
  fun_induction committed hs generalizing m with
  | case1 => rfl
  | case2 h => rfl
  | case3 p p' ps hvalue ih =>
    have hnil : p.2 = [] := List.isEmpty_iff.mp hvalue
    rw [ih h.2 m, insertAll_cons m p, insertAll_update_of_mem (h.1 hnil (List.cons_ne_nil _ _))]
  | case4 p p' ps hvalue ih =>
    rw [insertAll_cons, insertAll_cons, ih h.2]

/-- A map without empty values shows which empty value was dropped. -/
theorem repeated_of_insertAll_committed {hs : List (Bytes × Bytes)} {m : Bytes → Option Bytes}
    (hm : ∀ k, m k ≠ some []) (h : insertAll m (committed hs) = insertAll m hs) :
    EmptyRepeated hs := by
  fun_induction committed hs generalizing m with
  | case1 => trivial
  | case2 p => exact ⟨fun _ hne => absurd rfl hne, trivial⟩
  | case3 p p' ps hvalue ih =>
    have hnil : p.2 = [] := List.isEmpty_iff.mp hvalue
    rw [insertAll_cons] at h
    have hmem : p.1 ∈ (p' :: ps).map Prod.fst := by
      by_contra hnot
      have hnot' : p.1 ∉ (committed (p' :: ps)).map Prod.fst := fun hin =>
        hnot (((committed_sublist (p' :: ps)).map Prod.fst).subset hin)
      have hat := congrFun h p.1
      rw [insertAll_of_notMem hnot', insertAll_of_notMem hnot, Function.update_self, hnil] at hat
      exact hm p.1 hat
    rw [insertAll_update_of_mem hmem] at h
    exact ⟨fun _ _ => hmem, ih hm h⟩
  | case4 p p' ps hvalue ih =>
    rw [insertAll_cons, insertAll_cons] at h
    refine ⟨fun hnil => absurd (List.isEmpty_iff.mpr hnil) hvalue, ih (fun k => ?_) h⟩
    by_cases hk : k = p.1
    · rw [hk, Function.update_self]
      intro heq
      exact hvalue (List.isEmpty_iff.mpr (Option.some.inj heq))
    · rw [Function.update_of_ne hk]
      exact hm k

/-- **When no header is lost**: the callbacks for a header section build the map with
every field name at its last value, and no other key, exactly if every header with
an empty value is the last header or its name comes again. -/
theorem headers_exact_iff (ctx : ParserContext) (hctx : NoHeaders ctx)
    (hs : List (Bytes × Bytes)) (hnames : ∀ h ∈ hs, h.1 ≠ []) :
    ((sectionCallbacks hs).foldl callback ctx).req.headers = insertAll (fun _ => none) hs ↔
      EmptyRepeated hs := by
  rw [foldl_section hctx hnames]
  constructor
  · exact repeated_of_insertAll_committed fun k => Option.some_ne_none _ |>.symm
  · exact fun h => insertAll_committed_of_repeated h _

/-- The map is then the headers' last values. -/
theorem headers_eq_some_iff {ctx : ParserContext} (hctx : NoHeaders ctx)
    {hs : List (Bytes × Bytes)} (hnames : ∀ h ∈ hs, h.1 ≠ []) (hrep : EmptyRepeated hs)
    {k v : Bytes} :
    ((sectionCallbacks hs).foldl callback ctx).req.headers k = some v ↔
      ∃ pre post, hs = pre ++ (k, v) :: post ∧ k ∉ post.map Prod.fst := by
  rw [foldl_section hctx hnames, insertAll_committed_of_repeated hrep, insertAll_eq_some_iff]

/-- `a:` and later `a:1`: the first pair is dropped, and nothing is lost. -/
theorem headers_exact_repeated :
    ((sectionCallbacks [(ascii ['a'], []), (ascii ['b'], []), (ascii ['a'], ascii ['1']),
        (ascii ['b'], [])]).foldl callback .empty).req.headers =
      insertAll (fun _ => none) [(ascii ['a'], []), (ascii ['b'], []), (ascii ['a'], ascii ['1']),
        (ascii ['b'], [])] :=
  (headers_exact_iff .empty ⟨rfl, rfl, rfl⟩ _ (by decide)).mpr (by decide)

/-- **A header is lost**: of `Accept:` (empty) and `Host: x`, only `Host` is stored. -/
theorem empty_header_lost :
    ((sectionCallbacks [(ascii ['A', 'c', 'c', 'e', 'p', 't'], []),
        (ascii ['H', 'o', 's', 't'], ascii ['x'])]).foldl callback .empty).req.headers
          (ascii ['A', 'c', 'c', 'e', 'p', 't']) = none ∧
      insertAll (fun _ => none) [(ascii ['A', 'c', 'c', 'e', 'p', 't'], []),
        (ascii ['H', 'o', 's', 't'], ascii ['x'])] (ascii ['A', 'c', 'c', 'e', 'p', 't']) =
          some [] := by
  decide

end HttpParser
