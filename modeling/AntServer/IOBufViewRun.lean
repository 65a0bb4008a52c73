/-
The buffers of `butil` in their two views do what they do as lists of references.

The loops of `pop_front`, `pop_back`, `cutn` and the appends go through `_front_ref`, `_back_ref`
and `_ref_at`, so they run over both views and over the changes between them in the middle of a
loop.  `Shows views s` says that the views show the references of `s`; each call keeps it, and
counts the blocks as the call on lists does, in the same order.

* `View.popFront`, `View.popBack`, `View.cutn`, `View.pushAll` — the loops;
* `ViewOp`, `viewOp` — the calls on views, and `refOp` on lists;
* `views_refine` — **in every sequence of calls the views show what the lists have**.
-/
import AntServer.IOBufView

namespace IOBuf

/-! ### The loops -/

namespace View

/-- `_front_ref()`. -/
def frontRef (v : View) : Option BlockRef :=
  if v.small then v.refs₀.join else v.toBig >>= BigView.front

/-- `_back_ref()`. -/
def backRef (v : View) : Option BlockRef :=
  if v.small then do
    let r₁ ← v.refs₁
    if r₁.isSome then r₁ else v.refs₀.join
  else do
    let bv ← v.toBig
    bv.refAt (bv.nref - 1)

/-- `_ref_num()`. -/
def refNum (v : View) : Option ℕ := v.toList.map List.length

/-- The loop of `pop_front`; each round but the last one takes a reference away. -/
def popFrontLoop : ℕ → ℕ → View → Option (View × List Count)
  | 0, n, v => if n = 0 then some (v, []) else none
  | rounds + 1, n, v =>
    if n = 0 then some (v, [])
    else do
      let r ← v.frontRef
      if n < r.length then
        let v ← v.trimFront n
        some (v, [])
      else
        let (v, cs) ← v.popFrontRef false
        let (v, cs') ← popFrontLoop rounds (n - r.length) v
        some (v, cs ++ cs')

def popFront (n : ℕ) (v : View) : Option (View × List Count) := do
  let len ← v.length
  if len ≤ n then v.clear
  else
    let nref ← v.refNum
    popFrontLoop nref n v

/-- The loop of `pop_back`. -/
def popBackLoop : ℕ → ℕ → View → Option (View × List Count)
  | 0, n, v => if n = 0 then some (v, []) else none
  | rounds + 1, n, v =>
    if n = 0 then some (v, [])
    else do
      let r ← v.backRef
      if n < r.length then
        let v ← v.trimBack n
        some (v, [])
      else
        let (v, cs) ← v.popBackRef
        let (v, cs') ← popBackLoop rounds (n - r.length) v
        some (v, cs ++ cs')

def popBack (n : ℕ) (v : View) : Option (View × List Count) := do
  let len ← v.length
  if len ≤ n then v.clear
  else
    let nref ← v.refNum
    popBackLoop nref n v

/-- The loop of `cutn`, of `v` into `out`. -/
def cutLoop : ℕ → ℕ → View → View → Option (View × View × List Count)
  | 0, n, v, out => if n = 0 then some (v, out, []) else none
  | rounds + 1, n, v, out =>
    if n = 0 then some (v, out, [])
    else do
      let r ← v.frontRef
      if r.length ≤ n then
        let (out, cs) ← out.push true r
        let (v, cs') ← v.popFrontRef true
        let (v, out, cs'') ← cutLoop rounds (n - r.length) v out
        some (v, out, cs ++ (cs' ++ cs''))
      else
        let (out, cs) ← out.push false ⟨r.offset, n, r.block⟩
        let v ← v.trimFront n
        some (v, out, cs)

def cutn (n : ℕ) (v out : View) : Option (View × View × List Count) := do
  let len ← v.length
  let nref ← v.refNum
  cutLoop nref (min n len) v out

/-- The loop of `append(other)` and `append(Movable)` over the references of the other buffer. -/
def pushAll (move : Bool) : List BlockRef → View → Option (View × List Count)
  | [], v => some (v, [])
  | r :: refs, v => do
    let (v, cs) ← v.push move r
    let (v, cs') ← pushAll move refs v
    some (v, cs ++ cs')

end View

/-! ### The calls -/

inductive ViewOp
  | push (move : Bool) (x : ℕ) (r : BlockRef)
  | popFront (x n : ℕ)
  | popBack (x n : ℕ)
  | clear (x : ℕ)
  | cutn (x y n : ℕ)
  | assign (x y : ℕ)
  | swap (x y : ℕ)
  | appendBuf (x y : ℕ)
  | appendMovable (x y : ℕ)
deriving DecidableEq, Repr

/-- A call that changes one view. -/
def viewCall (views : ℕ → View) (x : ℕ) (f : View → Option (View × List Count)) :
    Option ((ℕ → View) × List Count) := do
  let (v, cs) ← f (views x)
  some (Function.update views x v, cs)

def viewOp (views : ℕ → View) : ViewOp → Option ((ℕ → View) × List Count)
  | .push move x r => viewCall views x (View.push move r)
  | .popFront x n => viewCall views x (View.popFront n)
  | .popBack x n => viewCall views x (View.popBack n)
  | .clear x => viewCall views x View.clear
  | .cutn x y n => do
    let (v, out, cs) ← View.cutn n (views x) (views y)
    some (Function.update (Function.update views y out) x v, cs)
  | .assign x y =>
    if x = y then some (views, []) else viewCall views x fun v => v.assign (views y)
  | .swap x y => some (Function.update (Function.update views x (views y)) y (views x), [])
  | .appendBuf x y => do
    let refs ← (views y).toList
    viewCall views x (View.pushAll false refs)
  | .appendMovable x y => do
    if ← (views x).isEmpty then
      some (Function.update (Function.update views x (views y)) y (views x), [])
    else
      let refs ← (views y).toList
      let (views, cs) ← viewCall views x (View.pushAll true refs)
      some (Function.update views y View.empty, cs)

/-- The calls on lists of references. -/
def refOp (s : State) : ViewOp → State
  | .push move x r => pushBackRef move x r s
  | .popFront x n => popFront x n s
  | .popBack x n => popBack x n s
  | .clear x => clear x s
  | .cutn x y n => cutn x y n s
  | .assign x y => assign x y s
  | .swap x y => swap x y s
  | .appendBuf x y => appendBuf x y s
  | .appendMovable x y => appendMovable x y s

/-- A reference that is pushed is `Near`, and no buffer is cut into or appended to itself. -/
def ViewOp.Allowed : ViewOp → Prop
  | .push _ _ r => r.Near
  | .cutn x y _ => x ≠ y
  | .appendBuf x y => x ≠ y
  | .appendMovable x y => x ≠ y
  | _ => True

/-! ### Counting -/

def count (s : State) : Count → State
  | .inc b => incRef s b
  | .dec b => decRef s b

def counts (s : State) (cs : List Count) : State := cs.foldl count s

section Counts

variable {s s' s'' : State} {bufs : ℕ → List BlockRef} {cs cs' : List Count} {x : ℕ}
  {refs : List BlockRef}

theorem counts_append : counts s (cs ++ cs') = counts (counts s cs) cs' := List.foldl_append

theorem counts_withBufs : counts (s.withBufs bufs) cs = (counts s cs).withBufs bufs := by
  induction cs generalizing s with
  | nil => rfl
  | cons c cs ih =>
    have hone : count (s.withBufs bufs) c = (count s c).withBufs bufs := by
      cases c with
      | inc b => exact incRef_withBufs
      | dec b => exact decRef_withBufs
    show counts (count (s.withBufs bufs) c) cs = (counts (count s c) cs).withBufs bufs
    rw [hone, ih]

/-- The state `s'` is `s` with other buffers, and counted as in `cs`. -/
def Records (s : State) (cs : List Count) (s' : State) : Prop :=
  s' = (counts s cs).withBufs s'.bufs

theorem Records.trans (h : Records s cs s') (h' : Records s' cs' s'') :
    Records s (cs ++ cs') s'' := by
  have hcounts : counts s' cs' = (counts s (cs ++ cs')).withBufs s'.bufs := by
    rw [counts_append, ← counts_withBufs, ← h]
  refine Eq.trans h' ?_
  rw [hcounts]
  rfl

theorem Records.setBuf : Records s [] (s.setBuf x refs) := rfl

theorem Records.setBuf_right (h : Records s cs s') : Records s cs (s'.setBuf x refs) := by
  have hset : Records s' [] (s'.setBuf x refs) := .setBuf
  have hboth := h.trans hset
  rwa [List.append_nil] at hboth

theorem counts_bufs : (counts s cs).bufs = s.bufs := by
  have hself : counts s cs = (counts s cs).withBufs s.bufs := by
    rw [← counts_withBufs]
    rfl
  rw [hself]
  rfl

theorem counts_setBuf : counts (s.setBuf x refs) cs = (counts s cs).setBuf x refs := by
  rw [State.setBuf_eq_withBufs, counts_withBufs, State.setBuf_eq_withBufs, counts_bufs]

theorem Records.counts (cs : List Count) : Records s cs (counts s cs) := rfl

theorem decRefAll_eq (s : State) (refs : List BlockRef) :
    decRefAll s (refs.map BlockRef.block) = IOBuf.counts s (dropped refs) := by
  induction refs generalizing s with
  | nil => rfl
  | cons r refs ih => exact ih (decRef s r.block)

theorem incRefAll_eq (s : State) (refs : List BlockRef) :
    incRefAll s (refs.map BlockRef.block) = IOBuf.counts s (shared refs) := by
  induction refs generalizing s with
  | nil => rfl
  | cons r refs ih => exact ih (incRef s r.block)

theorem decRefAll_eq_map (s : State) (bs : List ℕ) :
    decRefAll s bs = IOBuf.counts s (bs.map .dec) := by
  induction bs generalizing s with
  | nil => rfl
  | cons b bs ih => exact ih (decRef s b)

variable {move : Bool} {r : BlockRef}

/-- `_push_back_ref` is the push on the references, and its counting. -/
theorem pushBackRef_eq : pushBackRef move x r s =
    IOBuf.counts (s.setBuf x (pushRefs move r (s.bufs x)).1) (pushRefs move r (s.bufs x)).2 := by
  rw [pushBackRef, pushRefs]
  cases (s.bufs x).getLast? with
  | none => cases move <;> rfl
  | some back =>
    dsimp only
    by_cases hmeets : back.Meets r
    · have hends : back.block = r.block ∧ back.offset + back.length = r.offset := hmeets
      rw [if_pos hmeets, if_pos hends]
      cases move <;> rfl
    · have hends : ¬ (back.block = r.block ∧ back.offset + back.length = r.offset) := hmeets
      rw [if_neg hmeets, if_neg hends]
      cases move <;> rfl

theorem pushBackRef_bufs : (pushBackRef move x r s).bufs =
    Function.update s.bufs x (pushRefs move r (s.bufs x)).1 := by
  rw [pushBackRef_eq, counts_bufs]
  rfl

theorem Records.push : Records s (pushRefs move r (s.bufs x)).2 (pushBackRef move x r s) := by
  have hset : Records s [] (s.setBuf x (pushRefs move r (s.bufs x)).1) := .setBuf
  have hpush := hset.trans (.counts (pushRefs move r (s.bufs x)).2)
  rwa [List.nil_append, ← pushBackRef_eq] at hpush

end Counts

/-! ### The loops on views -/

section Loops

variable {v : View} {refs rest : List BlockRef} {r : BlockRef} {n rounds : ℕ}

theorem Rep.frontRef (h : Rep v (r :: rest)) : v.frontRef = some r := by
  cases h with
  | one hr => rw [View.frontRef, if_pos (View.small_ofSmall hr), View.refs₀_ofSmall]; rfl
  | two hr hr₁ => rw [View.frontRef, if_pos (View.small_ofSmall hr), View.refs₀_ofSmall]; rfl
  | big hlen hbv hnear =>
    rw [View.frontRef, if_neg View.not_small_ofBig, View.toBig_ofBig]
    exact hbv.front

theorem Rep.backRef (h : Rep v (refs ++ [r])) : v.backRef = some r := by
  generalize hall : refs ++ [r] = all at h
  cases h with
  | empty => exact absurd hall (List.append_ne_nil_of_right_ne_nil _ (List.cons_ne_nil _ _))
  | one hr =>
    obtain ⟨rfl, hlast⟩ := List.append_inj' (show _ = [] ++ [_] from hall) rfl
    obtain rfl := List.head_eq_of_cons_eq hlast
    rw [View.backRef, if_pos (View.small_ofSmall hr), View.refs₁_ofSmall, View.refs₀_ofSmall]
    rfl
  | @two r₀ _ hr₀ _ =>
    obtain ⟨rfl, hlast⟩ := List.append_inj' (show _ = [r₀] ++ [_] from hall) rfl
    obtain rfl := List.head_eq_of_cons_eq hlast
    rw [View.backRef, if_pos (View.small_ofSmall hr₀), View.refs₁_ofSmall]
    rfl
  | big hlen hbv hnear =>
    subst hall
    rw [View.backRef, if_neg View.not_small_ofBig, View.toBig_ofBig]
    exact hbv.refAt_back

theorem Rep.refNum (h : Rep v refs) : v.refNum = some refs.length := by
  rw [View.refNum, h.toList, Option.map_some]

/-- The loop goes through the references as `popRefs` does; the view changes on the way. -/
theorem Rep.popFrontLoop (h : Rep v refs) (hn : n ≤ IOBuf.length refs)
    (hrounds : refs.length ≤ rounds) :
    ∃ v', View.popFrontLoop rounds n v = some (v', (popRefs n refs).2.map .dec) ∧
      Rep v' (popRefs n refs).1 := by
  induction refs generalizing v n rounds with
  | nil =>
    obtain rfl := Nat.le_zero.mp hn
    cases rounds <;> exact ⟨v, rfl, h⟩
  | cons r rest ih =>
    obtain ⟨rounds, rfl⟩ : ∃ m, rounds = m + 1 := Nat.exists_eq_succ_of_ne_zero (by
      rw [List.length_cons] at hrounds
      omega)
    by_cases hzero : n = 0
    · subst hzero
      exact ⟨v, rfl, h⟩
    · rw [View.popFrontLoop, if_neg hzero, h.frontRef, popRefs, if_neg hzero]
      by_cases hlt : n < r.length
      · obtain ⟨v', hv', hrep⟩ := h.trimFront hlt
        rw [if_pos hlt, Option.bind_eq_bind, Option.bind_some, if_pos hlt, hv']
        exact ⟨v', rfl, hrep⟩
      · obtain ⟨v', hv', hrep⟩ := h.popFrontRef false
        rw [length_cons] at hn
        obtain ⟨v'', hv'', hrep'⟩ := ih hrep (n := n - r.length) (by omega)
          (Nat.le_of_succ_le_succ hrounds)
        rw [if_neg hlt, Option.bind_eq_bind, Option.bind_some, if_neg hlt, hv',
          Option.bind_eq_bind, Option.bind_some]
        dsimp only
        rw [hv'']
        exact ⟨v'', rfl, hrep'⟩

theorem Rep.popBackLoop (h : Rep v refs.reverse) (hn : n ≤ IOBuf.length refs)
    (hrounds : refs.length ≤ rounds) :
    ∃ v', View.popBackLoop rounds n v = some (v', (popBackRefs n refs).2.map .dec) ∧
      Rep v' (popBackRefs n refs).1.reverse := by
  induction refs generalizing v n rounds with
  | nil =>
    obtain rfl := Nat.le_zero.mp hn
    cases rounds <;> exact ⟨v, rfl, h⟩
  | cons r rest ih =>
    obtain ⟨rounds, rfl⟩ : ∃ m, rounds = m + 1 := Nat.exists_eq_succ_of_ne_zero (by
      rw [List.length_cons] at hrounds
      omega)
    by_cases hzero : n = 0
    · subst hzero
      exact ⟨v, rfl, h⟩
    · rw [List.reverse_cons] at h
      rw [View.popBackLoop, if_neg hzero, h.backRef, popBackRefs, if_neg hzero]
      by_cases hlt : n < r.length
      · obtain ⟨v', hv', hrep⟩ := h.trimBack hlt
        rw [if_pos hlt, Option.bind_eq_bind, Option.bind_some, if_pos hlt, hv']
        refine ⟨v', rfl, ?_⟩
        rw [List.reverse_cons]
        exact hrep
      · obtain ⟨v', hv', hrep⟩ := h.popBackRef
        rw [length_cons] at hn
        obtain ⟨v'', hv'', hrep'⟩ := ih hrep (n := n - r.length) (by omega)
          (Nat.le_of_succ_le_succ hrounds)
        rw [if_neg hlt, Option.bind_eq_bind, Option.bind_some, if_neg hlt, hv',
          Option.bind_eq_bind, Option.bind_some]
        dsimp only
        rw [hv'']
        exact ⟨v'', rfl, hrep'⟩

theorem length_reverse (refs : List BlockRef) : length refs.reverse = length refs := by
  rw [length, length, List.map_reverse, List.sum_reverse]

theorem Rep.popFront (h : Rep v refs) (n : ℕ) :
    ∃ v' cs refs', View.popFront n v = some (v', cs) ∧ Rep v' refs' ∧
      ∀ x s, s.bufs x = refs → popFront x n s = counts (s.setBuf x refs') cs := by
  rw [View.popFront, h.length, h.refNum, Option.bind_eq_bind, Option.bind_some]
  by_cases hall : IOBuf.length refs ≤ n
  · refine ⟨_, _, [], (if_pos hall).trans h.clear, .empty, fun x s hs => ?_⟩
    rw [IOBuf.popFront, hs, if_pos hall, IOBuf.clear, hs, decRefAll_eq]
  · obtain ⟨v', hv', hrep⟩ := h.popFrontLoop (not_le.mp hall).le le_rfl
    refine ⟨v', _, _, (if_neg hall).trans hv', hrep, fun x s hs => ?_⟩
    rw [IOBuf.popFront, hs, if_neg hall]
    exact decRefAll_eq_map _ _

theorem Rep.popBack (h : Rep v refs) (n : ℕ) :
    ∃ v' cs refs', View.popBack n v = some (v', cs) ∧ Rep v' refs' ∧
      ∀ x s, s.bufs x = refs → popBack x n s = counts (s.setBuf x refs') cs := by
  rw [View.popBack, h.length, h.refNum, Option.bind_eq_bind, Option.bind_some]
  by_cases hall : IOBuf.length refs ≤ n
  · refine ⟨_, _, [], (if_pos hall).trans h.clear, .empty, fun x s hs => ?_⟩
    rw [IOBuf.popBack, hs, if_pos hall, IOBuf.clear, hs, decRefAll_eq]
  · rw [← List.reverse_reverse refs] at h
    have hlen : n ≤ IOBuf.length refs.reverse := by
      rw [length_reverse]
      exact (not_le.mp hall).le
    obtain ⟨v', hv', hrep⟩ := h.popBackLoop hlen
      (show refs.reverse.length ≤ refs.length from List.length_reverse.le)
    refine ⟨v', _, _, (if_neg hall).trans hv', hrep, fun x s hs => ?_⟩
    rw [IOBuf.popBack, hs, if_neg hall]
    exact decRefAll_eq_map _ _

end Loops

/-! ### The calls on views -/

/-- The views show the buffers of the state. -/
def Shows (views : ℕ → View) (s : State) : Prop := ∀ x, Rep (views x) (s.bufs x)

section Calls

variable {views : ℕ → View} {s s' : State} {v : View} {x y : ℕ} {refs : List BlockRef}

theorem Shows.update (h : Shows views s) (hv : Rep v refs)
    (hbufs : s'.bufs = Function.update s.bufs x refs) : Shows (Function.update views x v) s' := by
  intro y
  rw [hbufs]
  by_cases hy : y = x
  · subst hy
    rw [Function.update_self, Function.update_self]
    exact hv
  · rw [Function.update_of_ne hy, Function.update_of_ne hy]
    exact h y

/-- A call that changes one view and counts blocks. -/
theorem Shows.call (h : Shows views s) {cs : List Count} {f : View → Option (View × List Count)}
    (hf : f (views x) = some (v, cs)) (hv : Rep v refs) (hs : s' = counts (s.setBuf x refs) cs) :
    ∃ views', viewCall views x f = some (views', cs) ∧ Shows views' s' ∧ Records s cs s' := by
  have hbufs : s'.bufs = Function.update s.bufs x refs := by
    rw [hs, counts_bufs]
    rfl
  refine ⟨Function.update views x v, ?_, h.update hv hbufs, ?_⟩
  · rw [viewCall, hf]
    rfl
  · have hset : Records s [] (s.setBuf x refs) := .setBuf
    have hcalled := hset.trans (.counts cs)
    rwa [List.nil_append, ← hs] at hcalled

theorem Shows.push (h : Shows views s) {r : BlockRef} (hr : r.Near) (move : Bool) (x : ℕ) :
    ∃ views' cs, viewCall views x (View.push move r) = some (views', cs) ∧
      Shows views' (pushBackRef move x r s) ∧ Records s cs (pushBackRef move x r s) := by
  obtain ⟨v', hv', hrep⟩ := (h x).push move hr
  obtain ⟨views', hcall, hshows⟩ := h.call hv' hrep pushBackRef_eq
  exact ⟨views', _, hcall, hshows⟩

theorem Shows.assign (h : Shows views s) (x y : ℕ) :
    ∃ views' cs, viewOp views (.assign x y) = some (views', cs) ∧
      Shows views' (assign x y s) ∧ Records s cs (assign x y s) := by
  rw [viewOp, IOBuf.assign]
  by_cases hxy : x = y
  · rw [if_pos hxy, if_pos hxy]
    exact ⟨views, [], rfl, h, rfl⟩
  · rw [if_neg hxy, if_neg hxy]
    obtain ⟨v', hv', hrep⟩ := (h x).assign (h y)
    have hclear : (clear x s).bufs y = s.bufs y := by
      rw [clear, decRefAll_bufs, State.setBuf_of_ne _ (Ne.symm hxy)]
    have hassign : incRefAll ((clear x s).setBuf x ((clear x s).bufs y))
        (((clear x s).bufs y).map BlockRef.block) =
          counts (s.setBuf x (s.bufs y)) (dropped (s.bufs x) ++ shared (s.bufs y)) := by
      rw [hclear, incRefAll_eq, counts_append]
      congr 1
      rw [clear, decRefAll_eq, counts_setBuf, counts_setBuf, setBuf_setBuf]
    obtain ⟨views', hcall, hshows⟩ :=
      h.call (x := x) (f := fun v => v.assign (views y)) hv' hrep hassign
    exact ⟨views', _, hcall, hshows⟩

theorem swap_bufs : (swap x y s).bufs =
    Function.update (Function.update s.bufs x (s.bufs y)) y (s.bufs x) := rfl

theorem Shows.swap (h : Shows views s) (x y : ℕ) :
    Shows (Function.update (Function.update views x (views y)) y (views x)) (swap x y s) := by
  have hfirst : Shows (Function.update views x (views y)) (s.setBuf x (s.bufs y)) :=
    h.update (h y) rfl
  exact hfirst.update (h x) swap_bufs

/-- The references are pushed one after another. -/
theorem Rep.pushAll (move : Bool) (hrefs : ∀ r ∈ refs, r.Near) (h : Rep v (s.bufs x)) :
    ∃ v' cs, View.pushAll move refs v = some (v', cs) ∧
      Rep v' ((refs.foldl (fun s r => pushBackRef move x r s) s).bufs x) ∧
      Records s cs (refs.foldl (fun s r => pushBackRef move x r s) s) := by
  induction refs generalizing v s with
  | nil => exact ⟨v, [], rfl, h, rfl⟩
  | cons r refs ih =>
    obtain ⟨v₁, hpush, hrep⟩ := h.push move (hrefs r List.mem_cons_self)
    have hrep' : Rep v₁ ((pushBackRef move x r s).bufs x) := by
      rw [pushBackRef_bufs, Function.update_self]
      exact hrep
    obtain ⟨v₂, cs, hall, hrep₂, hrecords⟩ :=
      ih (fun r' hr' => hrefs r' (List.mem_cons_of_mem r hr')) hrep'
    refine ⟨v₂, _, ?_, hrep₂, Records.push.trans hrecords⟩
    rw [View.pushAll, hpush, Option.bind_eq_bind, Option.bind_some]
    dsimp only
    rw [hall]
    rfl

theorem foldl_pushBackRef_bufs {move : Bool} (hxy : y ≠ x) :
    (refs.foldl (fun s r => pushBackRef move x r s) s).bufs y = s.bufs y := by
  induction refs generalizing s with
  | nil => rfl
  | cons r refs ih => rw [List.foldl_cons, ih, pushBackRef_bufs_other hxy]

theorem Shows.pushAll (h : Shows views s) (hrefs : ∀ r ∈ refs, r.Near) (move : Bool) (x : ℕ) :
    ∃ views' cs, viewCall views x (View.pushAll move refs) = some (views', cs) ∧
      Shows views' (refs.foldl (fun s r => pushBackRef move x r s) s) ∧
      Records s cs (refs.foldl (fun s r => pushBackRef move x r s) s) := by
  obtain ⟨v', cs, hall, hrep, hrecords⟩ := (h x).pushAll move hrefs
  refine ⟨Function.update views x v', cs, ?_, h.update hrep ?_, hrecords⟩
  · rw [viewCall, hall]
    rfl
  · funext y
    by_cases hy : y = x
    · rw [hy, Function.update_self]
    · rw [Function.update_of_ne hy, foldl_pushBackRef_bufs hy]

theorem Shows.appendMovable (h : Shows views s) (x y : ℕ) :
    ∃ views' cs, viewOp views (.appendMovable x y) = some (views', cs) ∧
      Shows views' (appendMovable x y s) ∧ Records s cs (appendMovable x y s) := by
  rw [viewOp, (h x).isEmpty, Option.bind_eq_bind, Option.bind_some, IOBuf.appendMovable]
  by_cases hempty : s.bufs x = []
  · rw [if_pos (List.isEmpty_iff.mpr hempty), if_pos hempty]
    exact ⟨_, [], rfl, h.swap x y, rfl⟩
  · rw [if_neg (fun hnil => hempty (List.isEmpty_iff.mp hnil)), if_neg hempty, (h y).toList]
    obtain ⟨views', cs, hcall, hshows, hrecords⟩ := h.pushAll (h y).near true x
    refine ⟨Function.update views' y .empty, cs, ?_, hshows.update .empty rfl, ?_⟩
    · rw [Option.bind_eq_bind, Option.bind_some, hcall]
      rfl
    · exact hrecords.setBuf_right

/-- One round of `cutn` that takes a whole reference over. -/
theorem cutRound_bufs (hxy : x ≠ y) {r : BlockRef} {rest : List BlockRef} {move : Bool} :
    ((pushBackRef move y r s).setBuf x rest).bufs y = (pushRefs move r (s.bufs y)).1 := by
  rw [State.setBuf_of_ne _ hxy.symm, pushBackRef_bufs, Function.update_self]

/-- The loop of `cutn`, on both views at once. -/
theorem Rep.cutLoop (hxy : x ≠ y) {out : View} {n rounds : ℕ} (h : Rep v refs)
    (hs : s.bufs x = refs) (hout : Rep out (s.bufs y)) (hn : n ≤ IOBuf.length refs)
    (hrounds : refs.length ≤ rounds) :
    ∃ v' out' cs, View.cutLoop rounds n v out = some (v', out', cs) ∧
      Rep v' ((cutLoop x y n refs s).bufs x) ∧ Rep out' ((cutLoop x y n refs s).bufs y) ∧
      Records s cs (cutLoop x y n refs s) ∧
      ∀ z, z ≠ x → z ≠ y → (cutLoop x y n refs s).bufs z = s.bufs z := by
  induction refs generalizing v out s n rounds with
  | nil =>
    obtain rfl := Nat.le_zero.mp hn
    rw [IOBuf.cutLoop]
    cases rounds <;> exact ⟨v, out, [], rfl, hs ▸ h, hout, rfl, fun _ _ _ => rfl⟩
  | cons r rest ih =>
    obtain ⟨rounds, rfl⟩ : ∃ m, rounds = m + 1 := Nat.exists_eq_succ_of_ne_zero (by
      rw [List.length_cons] at hrounds
      omega)
    rw [View.cutLoop, IOBuf.cutLoop]
    by_cases hzero : n = 0
    · rw [if_pos hzero, if_pos hzero]
      exact ⟨v, out, [], rfl, hs ▸ h, hout, rfl, fun _ _ _ => rfl⟩
    · rw [if_neg hzero, if_neg hzero, h.frontRef, Option.bind_eq_bind, Option.bind_some]
      have hr := h.near r List.mem_cons_self
      by_cases hle : r.length ≤ n
      · rw [if_pos hle, if_pos hle]
        obtain ⟨out₁, hpush, hout₁⟩ := hout.push true hr
        obtain ⟨v₁, hpop, hv₁⟩ := h.popFrontRef true
        have hround : Records s (pushRefs true r (s.bufs y)).2
            ((pushBackRef true y r s).setBuf x rest) :=
          Records.push.setBuf_right
        rw [length_cons] at hn
        obtain ⟨v₂, out₂, cs, hloop, hv₂, hout₂, hrecords, hother⟩ :=
          ih (n := n - r.length) hv₁ (State.setBuf_self _ x rest) (cutRound_bufs hxy ▸ hout₁)
            (by omega) (Nat.le_of_succ_le_succ hrounds)
        refine ⟨v₂, out₂, (pushRefs true r (s.bufs y)).2 ++ ([] ++ cs), ?_, hv₂, hout₂, ?_,
          fun z hzx hzy => ?_⟩
        · rw [hpush, Option.bind_eq_bind, Option.bind_some]
          dsimp only
          rw [hpop, Option.bind_eq_bind, Option.bind_some]
          dsimp only
          rw [hloop]
          rfl
        · rw [List.nil_append]
          exact hround.trans hrecords
        · rw [hother z hzx hzy, State.setBuf_of_ne _ hzx, pushBackRef_bufs_other hzy]
      · rw [if_neg hle, if_neg hle]
        have hlt : n < r.length := not_le.mp hle
        have hpart : (⟨r.offset, n, r.block⟩ : BlockRef).Near := by
          have hend := hr.2
          refine ⟨Nat.pos_of_ne_zero hzero, ?_⟩
          show 3 * (r.offset + n) < 2 ^ 32
          omega
        obtain ⟨out₁, hpush, hout₁⟩ := hout.push false hpart
        obtain ⟨v₁, htrim, hv₁⟩ := h.trimFront hlt
        refine ⟨v₁, out₁, _, ?_, ?_, cutRound_bufs hxy ▸ hout₁, Records.push.setBuf_right,
          fun z hzx hzy => ?_⟩
        · rw [hpush, Option.bind_eq_bind, Option.bind_some]
          dsimp only
          rw [htrim]
          rfl
        · rw [State.setBuf_self]
          exact hv₁
        · rw [State.setBuf_of_ne _ hzx, pushBackRef_bufs_other hzy]

theorem Shows.cutn (h : Shows views s) (hxy : x ≠ y) (n : ℕ) :
    ∃ views' cs, viewOp views (.cutn x y n) = some (views', cs) ∧
      Shows views' (cutn x y n s) ∧ Records s cs (cutn x y n s) := by
  obtain ⟨v, out, cs, hloop, hv, hout, hrecords, hother⟩ :=
    (h x).cutLoop hxy rfl (h y) (Nat.min_le_right n (length (s.bufs x))) le_rfl
  refine ⟨Function.update (Function.update views y out) x v, cs, ?_, fun z => ?_, hrecords⟩
  · have hcut : View.cutn n (views x) (views y) = some (v, out, cs) := by
      rw [View.cutn, (h x).length, (h x).refNum]
      exact hloop
    rw [viewOp, hcut]
    rfl
  · by_cases hzx : z = x
    · rw [hzx, Function.update_self]
      exact hv
    · rw [Function.update_of_ne hzx]
      by_cases hzy : z = y
      · rw [hzy, Function.update_self]
        exact hout
      · rw [Function.update_of_ne hzy]
        have hsame : (IOBuf.cutn x y n s).bufs z = s.bufs z := hother z hzx hzy
        rw [hsame]
        exact h z

/-- **Each call on views is the call on lists.** -/
theorem Shows.op (h : Shows views s) {o : ViewOp} (ho : o.Allowed) :
    ∃ views' cs, viewOp views o = some (views', cs) ∧ Shows views' (refOp s o) ∧
      Records s cs (refOp s o) := by
  cases o with
  | push move x r => exact h.push ho move x
  | popFront x n =>
    obtain ⟨v', cs, refs, hpop, hrep, heq⟩ := (h x).popFront n
    obtain ⟨views', hcall, hshows⟩ := h.call hpop hrep (heq x s rfl)
    exact ⟨views', cs, hcall, hshows⟩
  | popBack x n =>
    obtain ⟨v', cs, refs, hpop, hrep, heq⟩ := (h x).popBack n
    obtain ⟨views', hcall, hshows⟩ := h.call hpop hrep (heq x s rfl)
    exact ⟨views', cs, hcall, hshows⟩
  | clear x =>
    have heq : clear x s = counts (s.setBuf x []) (dropped (s.bufs x)) := by
      rw [clear, decRefAll_eq]
    obtain ⟨views', hcall, hshows⟩ := h.call (h x).clear .empty heq
    exact ⟨views', _, hcall, hshows⟩
  | cutn x y n => exact h.cutn ho n
  | assign x y => exact h.assign x y
  | swap x y => exact ⟨_, [], rfl, h.swap x y, rfl⟩
  | appendBuf x y =>
    rw [viewOp, (h y).toList]
    exact h.pushAll (h y).near false x
  | appendMovable x y => exact h.appendMovable x y

/-- A sequence of calls, with all that it counts. -/
def viewRun (views : ℕ → View) : List ViewOp → Option ((ℕ → View) × List Count)
  | [] => some (views, [])
  | o :: os => do
    let (views, cs) ← viewOp views o
    let (views, cs') ← viewRun views os
    some (views, cs ++ cs')

theorem Shows.run (h : Shows views s) {os : List ViewOp} (hos : ∀ o ∈ os, o.Allowed) :
    ∃ views' cs, viewRun views os = some (views', cs) ∧ Shows views' (os.foldl refOp s) ∧
      Records s cs (os.foldl refOp s) := by
  induction os generalizing views s with
  | nil => exact ⟨views, [], rfl, h, rfl⟩
  | cons o os ih =>
    obtain ⟨views₁, cs₁, hop, hshows₁, hrecords₁⟩ := h.op (hos o List.mem_cons_self)
    obtain ⟨views₂, cs₂, hrun, hshows₂, hrecords₂⟩ :=
      ih hshows₁ fun o' ho' => hos o' (List.mem_cons_of_mem o ho')
    refine ⟨views₂, cs₁ ++ cs₂, ?_, hshows₂, hrecords₁.trans hrecords₂⟩
    rw [viewRun, hop, Option.bind_eq_bind, Option.bind_some]
    dsimp only
    rw [hrun]
    rfl

theorem length_ofSmall {r : BlockRef} {r₁ : Option BlockRef} (hsmall : r.offset < 2 ^ 31) :
    (View.ofSmall (some r) r₁).length = some ((r.length + length r₁.toList) % 2 ^ 32) := by
  have hpos : (View.ofSmall (some r) r₁).small = true := decide_eq_true hsmall
  rw [View.length, if_pos hpos]
  cases r₁ <;> rfl

theorem popFront_misread {r : BlockRef} {r₁ : Option BlockRef} {n : ℕ} (hsmall : r.offset < 2 ^ 31)
    (hover : 2 ^ 31 ≤ r.offset + n) (hn : n < r.length) (hword : r.offset + r.length ≤ 2 ^ 32)
    (hsum : r.length + length r₁.toList < 2 ^ 32) :
    View.popFront n (.ofSmall (some r) r₁) = none := by
  have hpos : (View.ofSmall (some r) r₁).small = true := decide_eq_true hsmall
  have hnum : (View.ofSmall (some r) r₁).refNum = some (r₁.toList.length + 1) := by
    rw [View.refNum, View.toList, if_pos hpos, View.refs₀_ofSmall, View.refs₁_ofSmall]
    rfl
  have hfront : (View.ofSmall (some r) r₁).frontRef = some r := by
    rw [View.frontRef, if_pos hpos, View.refs₀_ofSmall]
    rfl
  have hshort : ¬ r.length + length r₁.toList ≤ n := by omega
  have hzero : n ≠ 0 := by omega
  rw [View.popFront, length_ofSmall hsmall, Nat.mod_eq_of_lt hsum, Option.bind_eq_bind,
    Option.bind_some, if_neg hshort, hnum, Option.bind_some, View.popFrontLoop, if_neg hzero,
    hfront, Option.bind_eq_bind, Option.bind_some, if_pos hn,
    trimFront_misread hsmall hover (by omega)]
  rfl

/-- `length()` of two references with `2 ^ 32` bytes or more is too small, and `pop_front` takes
all of them away. -/
theorem popFront_wrapped {r₀ r₁ : BlockRef} {n : ℕ} (hsmall : r₀.offset < 2 ^ 31)
    (hover : 2 ^ 32 ≤ r₀.length + r₁.length) (hn : r₀.length + r₁.length ≤ n + 2 ^ 32) :
    View.popFront n (.ofSmall (some r₀) (some r₁)) = some (.empty, dropped [r₀, r₁]) := by
  have hpos : (View.ofSmall (some r₀) (some r₁)).small = true := decide_eq_true hsmall
  have hshort : (r₀.length + length (some r₁).toList) % 2 ^ 32 ≤ n := by
    show (r₀.length + (r₁.length + 0)) % 2 ^ 32 ≤ n
    omega
  rw [View.popFront, length_ofSmall hsmall, Option.bind_eq_bind, Option.bind_some, if_pos hshort,
    View.clear, if_pos hpos, View.refs₀_ofSmall, View.refs₁_ofSmall]
  rfl

/-- **The union of the two views is a list of references.**  In every sequence of calls on buffers
that were empty at first, in which every pushed reference is `Near`, no word is read as what it
is not; the references, the number of bytes and the emptiness that the views show are those of the
lists; and the blocks are counted as on lists, in the same order.  Bounds are needed: where
`pop_front` moves the first reference of a small view over `2 ^ 31`, the pointer behind it is taken
for a number of bytes; and where two references have `2 ^ 32` bytes or more, `pop_front` drops
bytes that it should leave. -/
theorem views_refine (hs : ∀ x, s.bufs x = []) {os : List ViewOp} (hos : ∀ o ∈ os, o.Allowed) :
    (∃ views cs, viewRun (fun _ => .empty) os = some (views, cs) ∧
      os.foldl refOp s = (counts s cs).withBufs (os.foldl refOp s).bufs ∧
      ∀ x, (views x).toList = some ((os.foldl refOp s).bufs x) ∧
        (views x).length = some (length ((os.foldl refOp s).bufs x)) ∧
        (views x).isEmpty = some ((os.foldl refOp s).bufs x).isEmpty) ∧
    (∀ r r₁ n, r.offset < 2 ^ 31 → 2 ^ 31 ≤ r.offset + n → n < r.length →
      r.offset + r.length ≤ 2 ^ 32 → r.length + length r₁.toList < 2 ^ 32 →
        View.popFront n (.ofSmall (some r) r₁) = none) ∧
    ∀ r₀ r₁ n, r₀.offset < 2 ^ 31 → 2 ^ 32 ≤ r₀.length + r₁.length →
      r₀.length + r₁.length ≤ n + 2 ^ 32 →
        View.popFront n (.ofSmall (some r₀) (some r₁)) = some (.empty, dropped [r₀, r₁]) := by
  refine ⟨?_, ?_, ?_⟩
  · have hstart : Shows (fun _ => .empty) s := fun x => hs x ▸ .empty
    obtain ⟨views, cs, hrun, hshows, hrecords⟩ := hstart.run hos
    exact ⟨views, cs, hrun, hrecords, fun x =>
      ⟨(hshows x).toList, (hshows x).length, (hshows x).isEmpty⟩⟩
  · exact fun r r₁ n => popFront_misread
  · exact fun r₀ r₁ n => popFront_wrapped

/-- Four references make a ring; five bytes cut off leave a small view and another one. -/
theorem views_refine_ring :
    ∃ views cs, viewRun (fun _ => .empty)
        [.push false 0 ⟨0, 4, 7⟩, .push false 0 ⟨4, 2, 7⟩, .push true 0 ⟨0, 3, 8⟩,
          .push false 0 ⟨5, 1, 7⟩, .assign 1 0, .push false 0 ⟨9, 2, 7⟩, .assign 1 0, .cutn 0 2 7,
          .popBack 1 3, .appendMovable 2 1, .swap 0 1] = some (views, cs) ∧
      (views 1).toList = some [⟨1, 2, 8⟩, ⟨5, 1, 7⟩, ⟨9, 2, 7⟩] ∧
      (views 2).length = some 16 ∧ (views 0).isEmpty = some true := by
  have hallowed : ∀ o ∈ ([.push false 0 ⟨0, 4, 7⟩, .push false 0 ⟨4, 2, 7⟩, .push true 0 ⟨0, 3, 8⟩,
      .push false 0 ⟨5, 1, 7⟩, .assign 1 0, .push false 0 ⟨9, 2, 7⟩, .assign 1 0, .cutn 0 2 7,
      .popBack 1 3, .appendMovable 2 1, .swap 0 1] : List ViewOp), o.Allowed := by
    simp [ViewOp.Allowed, BlockRef.Near]
  obtain ⟨⟨views, cs, hrun, -, hshows⟩, -⟩ := views_refine (s := init) (fun _ => rfl) hallowed
  obtain ⟨hlist, -, -⟩ := hshows 1
  obtain ⟨-, hlen, -⟩ := hshows 2
  obtain ⟨-, -, hempty⟩ := hshows 0
  exact ⟨views, cs, hrun, hlist.trans (by decide +kernel), hlen.trans (by decide +kernel),
    hempty.trans (by decide +kernel)⟩

end Calls

end IOBuf
