/-
The two views of `butil::IOBuf` (`3rd_party/butil/iobuf.h`, `iobuf_inl.h`, `iobuf.cpp`).

An `IOBuf` is a union.  Up to two references are stored in place (`SmallView`); more of them are in
a ring that `BigView` points to, with the number of bytes beside it.  Which view it is, is read off
its first word: `magic` is `-1` in a `BigView`, and lies where a `SmallView` has the offset of its
first reference.

A function has no value where it reads a word as what it was not written as: a `Block*` that is a
`BlockRef*` or a number, or a cell of the ring that was never written.

* `View`, `View.push`, `View.popFrontRef`, `View.popBackRef`, `View.trimFront`, `View.trimBack`,
  `View.clear`, `View.copy`, `View.assign` — the code;
* `Rep v refs` — the view `v` shows the references `refs`;
* `Rep.push`, `Rep.popFrontRef` and the others — **every function of the views does to the
  references what its name says, counts the blocks for it, and reads no word wrongly**, as long as
  the references are `Near`.

The offsets and lengths are `uint32_t`, and so are their sums, also where two or three lengths are
added to a `size_t`; `nbytes` itself is a `size_t`.  The number of references is below `2 ^ 31`.
-/
import AntServer.IOBufCut
import AntServer.MaskedRing

namespace IOBuf

/-! ### Lists of references -/

/-- What a call does to the count of a block. -/
inductive Count
  | inc (b : ℕ)
  | dec (b : ℕ)
deriving DecidableEq, Repr

namespace BlockRef

/-- `r` goes on where the reference ends. -/
def Meets (back r : BlockRef) : Prop := back.block = r.block ∧ back.offset + back.length = r.offset

instance (back r : BlockRef) : Decidable (back.Meets r) :=
  inferInstanceAs (Decidable (back.block = r.block ∧ back.offset + back.length = r.offset))

def merge (back r : BlockRef) : BlockRef := { back with length := back.length + r.length }

def skip (r : BlockRef) (n : ℕ) : BlockRef :=
  { r with offset := r.offset + n, length := r.length - n }

def cut (r : BlockRef) (n : ℕ) : BlockRef := { r with length := r.length - n }

/-- The words that are stored. -/
def wrap (r : BlockRef) : BlockRef :=
  { r with offset := r.offset % 2 ^ 32, length := r.length % 2 ^ 32 }

/-- `Meets`, as the words are compared. -/
def MeetsWord (back r : BlockRef) : Prop :=
  back.block = r.block ∧ (back.offset + back.length) % 2 ^ 32 = r.offset

instance (back r : BlockRef) : Decidable (back.MeetsWord r) :=
  inferInstanceAs (Decidable (back.block = r.block ∧
    (back.offset + back.length) % 2 ^ 32 = r.offset))

end BlockRef

/-- How a reference is counted that is not merged. -/
def taken (move : Bool) (r : BlockRef) : List Count := if move then [] else [.inc r.block]

/-- How one is that is merged. -/
def merged (move : Bool) (r : BlockRef) : List Count := if move then [.dec r.block] else []

def dropped (refs : List BlockRef) : List Count := refs.map fun r => .dec r.block

def shared (refs : List BlockRef) : List Count := refs.map fun r => .inc r.block

/-- `pushBackRef` on the references alone. -/
def pushRefs (move : Bool) (r : BlockRef) (refs : List BlockRef) : List BlockRef × List Count :=
  match refs.getLast? with
  | some back =>
    if back.Meets r then (refs.dropLast ++ [back.merge r], merged move r)
    else (refs ++ [r], taken move r)
  | none => (refs ++ [r], taken move r)

/-! ### The union -/

/-- A word that is a pointer in one of the views. -/
inductive Word
  | null
  | block (b : ℕ)
  | array (cells : List (Option BlockRef))
  | number (n : ℕ)
deriving DecidableEq, Repr

structure View where
  offset₀ : ℕ       -- `refs[0].offset`, or `magic`
  length₀ : ℕ       -- `refs[0].length`, or `start`
  block₀ : Word     -- `refs[0].block`, or `refs`
  offset₁ : ℕ       -- `refs[1].offset`, or `nref`
  length₁ : ℕ       -- `refs[1].length`, or `cap_mask`
  block₁ : Word     -- `refs[1].block`, or `nbytes`
deriving DecidableEq, Repr

structure BigView where
  start : ℕ
  refs : List (Option BlockRef)
  nref : ℕ
  capMask : ℕ
  nbytes : ℕ
deriving DecidableEq, Repr

def INITIAL_CAP : ℕ := 32

def Word.toBlock : Word → Option (Option ℕ)
  | .null => some none
  | .block b => some (some b)
  | _ => none

def Word.ofBlock : Option BlockRef → Word
  | none => .null
  | some r => .block r.block

namespace View

/-- `_small()`: `magic` is not negative. -/
def small (v : View) : Bool := v.offset₀ < 2 ^ 31

/-- The references of a `SmallView`, none for one without a block. -/
def refs₀ (v : View) : Option (Option BlockRef) :=
  v.block₀.toBlock.map fun b => b.map fun b => ⟨v.offset₀, v.length₀, b⟩

def refs₁ (v : View) : Option (Option BlockRef) :=
  v.block₁.toBlock.map fun b => b.map fun b => ⟨v.offset₁, v.length₁, b⟩

/-- A `SmallView`; a reference that is not there is as `reset_block_ref` leaves it. -/
def ofSmall (r₀ r₁ : Option BlockRef) : View where
  offset₀ := r₀.elim 0 BlockRef.offset
  length₀ := r₀.elim 0 BlockRef.length
  block₀ := .ofBlock r₀
  offset₁ := r₁.elim 0 BlockRef.offset
  length₁ := r₁.elim 0 BlockRef.length
  block₁ := .ofBlock r₁

/-- `IOBuf()`. -/
def empty : View := ofSmall none none

def toBig (v : View) : Option BigView :=
  match v.block₀, v.block₁ with
  | .array refs, .number nbytes => some ⟨v.length₀, refs, v.offset₁, v.length₁, nbytes⟩
  | _, _ => none

/-- A `BigView`, with `magic = -1`. -/
def ofBig (bv : BigView) : View :=
  ⟨2 ^ 32 - 1, bv.start, .array bv.refs, bv.nref, bv.capMask, .number bv.nbytes⟩

end View

namespace BigView

def capacity (bv : BigView) : ℕ := bv.capMask + 1

def refAt (bv : BigView) (i : ℕ) : Option BlockRef :=
  MaskedRing.cell bv.refs bv.capMask bv.start i

/-- `refs[start]`. -/
def front (bv : BigView) : Option BlockRef := (bv.refs[bv.start]?).join

def setFront (bv : BigView) (r : BlockRef) : BigView :=
  { bv with refs := bv.refs.set bv.start (some r) }

/-- `ref_at(i) = r`. -/
def setRefAt (bv : BigView) (i : ℕ) (r : BlockRef) : BigView :=
  { bv with refs := bv.refs.set ((bv.start + i) &&& bv.capMask) (some r) }

/-- The references `ref_at(0)`, …, `ref_at(nref - 1)`. -/
def toList (bv : BigView) : Option (List BlockRef) :=
  ((List.range bv.nref).map bv.refAt).mapM id

/-- A new array of `cap` cells with the references at its start. -/
def acquire (cap : ℕ) (refs : List BlockRef) : List (Option BlockRef) :=
  refs.map some ++ List.replicate (cap - refs.length) none

end BigView

/-! ### The functions -/

namespace View

/-- `_push_or_move_back_ref_to_smallview`. -/
def pushSmall (move : Bool) (r : BlockRef) :
    Option BlockRef → Option BlockRef → View × List Count
  | none, r₁ => (ofSmall (some r) r₁, taken move r)
  | some r₀, none =>
    if r₀.MeetsWord r then (ofSmall (some (r₀.merge r).wrap) none, merged move r)
    else (ofSmall (some r₀) (some r), taken move r)
  | some r₀, some r₁ =>
    if r₁.MeetsWord r then (ofSmall (some r₀) (some (r₁.merge r).wrap), merged move r)
    else
      -- the sum is a `uint32_t` before it is a `size_t`
      let nbytes := (r₀.length + r₁.length + r.length) % 2 ^ 32
      (ofBig ⟨0, BigView.acquire INITIAL_CAP [r₀, r₁, r], 3, INITIAL_CAP - 1, nbytes⟩,
        taken move r)

/-- `_push_or_move_back_ref_to_bigview`. -/
def pushBig (move : Bool) (r : BlockRef) (bv : BigView) : Option (View × List Count) := do
  let back ← bv.refAt (bv.nref - 1)
  let nbytes := bv.nbytes + r.length
  if back.MeetsWord r then
    some (ofBig { bv.setRefAt (bv.nref - 1) (back.merge r).wrap with nbytes := nbytes },
      merged move r)
  else if bv.nref ≠ bv.capacity then
    some (ofBig { bv.setRefAt bv.nref r with nref := bv.nref + 1, nbytes := nbytes }, taken move r)
  else
    let refs ← bv.toList
    let newCap := bv.capacity * 2
    some (ofBig ⟨0, BigView.acquire newCap (refs ++ [r]), bv.nref + 1, newCap - 1, nbytes⟩,
      taken move r)

/-- `_push_back_ref`, or `_move_back_ref` if `move`. -/
def push (move : Bool) (r : BlockRef) (v : View) : Option (View × List Count) :=
  if v.small then do
    let r₀ ← v.refs₀
    let r₁ ← v.refs₁
    some (pushSmall move r r₀ r₁)
  else v.toBig >>= pushBig move r

/-- `_pop_or_moveout_front_ref`; an empty buffer is left as it is. -/
def popFrontRef (moveout : Bool) (v : View) : Option (View × List Count) :=
  let counts (r : BlockRef) := if moveout then [] else [Count.dec r.block]
  if v.small then do
    match ← v.refs₀ with
    | some r₀ =>
      let r₁ ← v.refs₁
      some (ofSmall r₁ none, counts r₀)
    | none => some (v, [])
  else do
    let bv ← v.toBig
    let front ← bv.front
    if 2 < bv.nref - 1 then
      let start := (bv.start + 1) &&& bv.capMask
      some (ofBig { bv with
        start := start, nref := bv.nref - 1, nbytes := bv.nbytes - front.length }, counts front)
    else
      let r₀ ← bv.refAt 1
      let r₁ ← bv.refAt 2
      some (ofSmall (some r₀) (some r₁), counts front)

/-- `_pop_back_ref`. -/
def popBackRef (v : View) : Option (View × List Count) :=
  if v.small then do
    let r₀ ← v.refs₀
    match ← v.refs₁, r₀ with
    | some r₁, _ => some (ofSmall r₀ none, [.dec r₁.block])
    | none, some r₀ => some (ofSmall none none, [.dec r₀.block])
    | none, none => some (v, [])
  else do
    let bv ← v.toBig
    let back ← bv.refAt (bv.nref - 1)
    if 2 < bv.nref - 1 then
      some (ofBig { bv with nref := bv.nref - 1, nbytes := bv.nbytes - back.length },
        [.dec back.block])
    else
      let r₀ ← bv.front
      let r₁ ← bv.refAt 1
      some (ofSmall (some r₀) (some r₁), [.dec back.block])

/-- `if (!_small()) _bv.nbytes -= n`. -/
def subBytes (n : ℕ) (v : View) : Option View :=
  if v.small then some v
  else
    match v.block₁ with
    | .number nbytes => some { v with block₁ := .number (nbytes - n) }
    | _ => none

def skipFront (n : ℕ) (v : View) : View :=
  { v with offset₀ := (v.offset₀ + n) % 2 ^ 32, length₀ := v.length₀ - n }

/-- `n` bytes less of `_front_ref()`; `_small()` is asked after its offset was changed. -/
def trimFront (n : ℕ) (v : View) : Option View :=
  if v.small then subBytes n (v.skipFront n)
  else do
    let bv ← v.toBig
    let r ← bv.front
    subBytes n (ofBig (bv.setFront (r.skip n).wrap))

/-- `n` bytes less of `_back_ref()`. -/
def trimBack (n : ℕ) (v : View) : Option View :=
  if v.small then do
    match ← v.block₁.toBlock with
    | some _ => subBytes n { v with length₁ := v.length₁ - n }
    | none => subBytes n { v with length₀ := v.length₀ - n }
  else do
    let bv ← v.toBig
    let r ← bv.refAt (bv.nref - 1)
    subBytes n (ofBig (bv.setRefAt (bv.nref - 1) (r.cut n)))

def clear (v : View) : Option (View × List Count) :=
  if v.small then do
    match ← v.refs₀ with
    | none => some (v, [])
    | some r₀ =>
      let r₁ ← v.refs₁
      some (empty, .dec r₀.block :: dropped r₁.toList)
  else do
    let bv ← v.toBig
    let refs ← bv.toList
    some (empty, dropped refs)

def length (v : View) : Option ℕ :=
  if v.small then some ((v.length₀ + v.length₁) % 2 ^ 32) else v.toBig.map BigView.nbytes

/-- `empty()`. -/
def isEmpty (v : View) : Option Bool :=
  if v.small then v.block₀.toBlock.map Option.isNone else v.toBig.map fun bv => bv.nbytes = 0

/-- The references `_ref_at(0)`, …, `_ref_at(_ref_num() - 1)`. -/
def toList (v : View) : Option (List BlockRef) :=
  if v.small then do
    let r₀ ← v.refs₀
    let r₁ ← v.refs₁
    some (r₀.toList ++ r₁.toList)
  else v.toBig >>= BigView.toList

/-- `IOBuf(rhs)`. -/
def copy (rhs : View) : Option (View × List Count) :=
  if rhs.small then do
    let refs ← rhs.toList
    some (rhs, shared refs)
  else do
    let bv ← rhs.toBig
    let refs ← bv.toList
    some (ofBig { bv with start := 0, refs := BigView.acquire bv.capacity refs }, shared refs)

/-- `operator=(rhs)`: of two big views with arrays of one size, the array is used again. -/
def assign (v rhs : View) : Option (View × List Count) :=
  let destroy : Option (View × List Count) := do
    let (_, decs) ← v.clear
    let (v', incs) ← rhs.copy
    some (v', decs ++ incs)
  if rhs.small || v.small then destroy
  else do
    let bv ← v.toBig
    let bv' ← rhs.toBig
    if bv.capMask = bv'.capMask then
      let old ← bv.toList
      let refs ← bv'.toList
      some (ofBig { bv with
          start := 0, nref := bv'.nref, nbytes := bv'.nbytes,
          refs := refs.map some ++ bv.refs.drop refs.length },
        dropped old ++ shared refs)
    else destroy

end View

/-! ### What a view shows -/

/-- The reference ends so early that three such have less than `2 ^ 32` bytes; then its offset is
no `magic` either. -/
def BlockRef.Near (r : BlockRef) : Prop := 0 < r.length ∧ 3 * (r.offset + r.length) < 2 ^ 32

structure BigView.Shows (bv : BigView) (refs : List BlockRef) : Prop where
  holds : MaskedRing.Holds bv.refs bv.capMask bv.start refs
  nref : bv.nref = refs.length
  nbytes : bv.nbytes = IOBuf.length refs

/-- A big view has more than two references. -/
inductive Rep : View → List BlockRef → Prop
  | empty : Rep .empty []
  | one {r : BlockRef} (hr : r.Near) : Rep (.ofSmall (some r) none) [r]
  | two {r₀ r₁ : BlockRef} (hr₀ : r₀.Near) (hr₁ : r₁.Near) :
      Rep (.ofSmall (some r₀) (some r₁)) [r₀, r₁]
  | big {bv : BigView} {refs : List BlockRef} (hlen : 2 < refs.length) (hbv : bv.Shows refs)
      (hnear : ∀ r ∈ refs, r.Near) : Rep (.ofBig bv) refs

namespace BlockRef.Near

variable {back r : BlockRef} {n : ℕ}

theorem offset_lt (h : r.Near) : r.offset < 2 ^ 31 := by
  obtain ⟨hpos, hend⟩ := h
  omega

theorem wrap_eq (h : r.Near) : r.wrap = r := by
  obtain ⟨hpos, hend⟩ := h
  have hoffset : r.offset % 2 ^ 32 = r.offset := Nat.mod_eq_of_lt (by omega)
  have hlength : r.length % 2 ^ 32 = r.length := Nat.mod_eq_of_lt (by omega)
  rw [BlockRef.wrap, hoffset, hlength]

theorem meetsWord_iff (hback : back.Near) : back.MeetsWord r ↔ back.Meets r := by
  obtain ⟨hpos, hend⟩ := hback
  have hsum : (back.offset + back.length) % 2 ^ 32 = back.offset + back.length :=
    Nat.mod_eq_of_lt (by omega)
  rw [MeetsWord, hsum, Meets]

theorem merge (hback : back.Near) (hr : r.Near) (hmeets : back.Meets r) : (back.merge r).Near := by
  refine ⟨Nat.add_pos_left hback.1 _, ?_⟩
  show 3 * (back.offset + (back.length + r.length)) < 2 ^ 32
  rw [← Nat.add_assoc, hmeets.2]
  exact hr.2

theorem skip (h : r.Near) (hn : n < r.length) : (r.skip n).Near := by
  obtain ⟨hpos, hend⟩ := h
  refine ⟨Nat.sub_pos_of_lt hn, ?_⟩
  show 3 * (r.offset + n + (r.length - n)) < 2 ^ 32
  omega

theorem cut (h : r.Near) (hn : n < r.length) : (r.cut n).Near := by
  obtain ⟨hpos, hend⟩ := h
  refine ⟨Nat.sub_pos_of_lt hn, ?_⟩
  show 3 * (r.offset + (r.length - n)) < 2 ^ 32
  omega

end BlockRef.Near

namespace View

variable {r₀ r₁ : Option BlockRef} {r : BlockRef} {bv : BigView}

@[simp] theorem refs₀_ofSmall : (ofSmall r₀ r₁).refs₀ = some r₀ := by cases r₀ <;> rfl

@[simp] theorem refs₁_ofSmall : (ofSmall r₀ r₁).refs₁ = some r₁ := by cases r₁ <;> rfl

@[simp] theorem small_empty : empty.small = true := rfl

theorem small_ofSmall (hr : r.Near) : (ofSmall (some r) r₁).small = true :=
  decide_eq_true hr.offset_lt

theorem not_small_ofBig : ¬ (ofBig bv).small = true := by
  have hmagic : ¬ 2 ^ 32 - 1 < 2 ^ 31 := by norm_num
  exact fun hsmall => hmagic (of_decide_eq_true hsmall)

@[simp] theorem toBig_ofBig : (ofBig bv).toBig = some bv := rfl

end View

namespace BigView.Shows

variable {bv : BigView} {refs : List BlockRef} {r : BlockRef} {i : ℕ}

theorem refAt (h : bv.Shows refs) (hi : refs[i]? = some r) : bv.refAt i = some r :=
  h.holds.entry i r hi

theorem front (h : bv.Shows (r :: refs)) : bv.front = some r := by
  have hentry := h.holds.entry 0 r rfl
  rwa [MaskedRing.cell, h.holds.start_index] at hentry

theorem refAt_back (h : bv.Shows (refs ++ [r])) : bv.refAt (bv.nref - 1) = some r := by
  refine h.refAt ?_
  rw [h.nref, List.length_append, List.length_singleton, Nat.add_sub_cancel,
    List.getElem?_concat_length]

theorem toList (h : bv.Shows refs) : bv.toList = some refs := by
  have hall : ∀ xs : List BlockRef, (xs.map some).mapM id = some xs := by
    intro xs
    induction xs with
    | nil => rfl
    | cons x xs ih =>
      rw [List.map_cons, List.mapM_cons, ih]
      rfl
  have hcells := h.holds.range_map_cell
  rw [← h.nref] at hcells
  rw [BigView.toList]
  show (List.map (MaskedRing.cell bv.refs bv.capMask bv.start) _).mapM id = some refs
  rw [hcells, hall]

end BigView.Shows

/-! ### `_push_back_ref` and `_move_back_ref` -/

section Push

variable {v : View} {refs : List BlockRef} {back r : BlockRef} {move : Bool}

theorem pushRefs_merge (refs : List BlockRef) (hmeets : back.Meets r) :
    pushRefs move r (refs ++ [back]) = (refs ++ [back.merge r], merged move r) := by
  rw [pushRefs, List.getLast?_concat]
  dsimp only
  rw [if_pos hmeets, List.dropLast_concat]

theorem pushRefs_concat (refs : List BlockRef) (hmeets : ¬ back.Meets r) :
    pushRefs move r (refs ++ [back]) = (refs ++ [back] ++ [r], taken move r) := by
  rw [pushRefs, List.getLast?_concat]
  dsimp only
  rw [if_neg hmeets]

theorem exists_concat (hlen : 2 < refs.length) : ∃ init back, refs = init ++ [back] :=
  (List.eq_nil_or_concat' refs).resolve_left
    (List.ne_nil_of_length_pos (Nat.zero_lt_of_lt hlen))

theorem set_concat_last {α : Type*} (xs : List α) (x y : α) :
    (xs ++ [x]).set xs.length y = xs ++ [y] := by
  rw [List.set_append_right _ _ le_rfl, Nat.sub_self, List.set_cons_zero]

namespace BigView.Shows

variable {bv : BigView}

/-- The last reference is exchanged. -/
theorem setBack (h : bv.Shows (refs ++ [back])) (r : BlockRef) {nbytes : ℕ}
    (hbytes : nbytes = IOBuf.length (refs ++ [r])) :
    BigView.Shows { bv.setRefAt (bv.nref - 1) r with nbytes := nbytes } (refs ++ [r]) := by
  have hlast : bv.nref - 1 = refs.length := by
    rw [h.nref, List.length_append, List.length_singleton, Nat.add_sub_cancel]
  have hlt : refs.length < (refs ++ [back]).length := by
    rw [List.length_append, List.length_singleton]
    exact Nat.lt_succ_self _
  refine ⟨?_, ?_, hbytes⟩
  · have hset := h.holds.set hlt r
    rw [set_concat_last] at hset
    rw [hlast]
    exact hset
  · show bv.nref = (refs ++ [r]).length
    rw [h.nref, List.length_append, List.length_append]
    rfl

theorem capacity_pow (h : bv.Shows refs) : ∃ k, bv.capacity = 2 ^ k := h.holds.power

end BigView.Shows

/-- A new ring. -/
theorem shows_acquire {cap nbytes : ℕ} (hcap : ∃ k, cap = 2 ^ k) (hlen : refs.length ≤ cap)
    (hbytes : nbytes = length refs) :
    BigView.Shows ⟨0, BigView.acquire cap refs, refs.length, cap - 1, nbytes⟩ refs := by
  obtain ⟨k, rfl⟩ := hcap
  have hcap : 2 ^ k - 1 + 1 = 2 ^ k := Nat.sub_add_cancel Nat.one_le_two_pow
  refine ⟨MaskedRing.Holds.build ⟨k, hcap⟩ ?_, rfl, hbytes⟩
  rw [List.length_replicate, hcap]
  omega

theorem near_concat (hnear : ∀ r ∈ refs, r.Near) (hr : r.Near) : ∀ r' ∈ refs ++ [r], r'.Near := by
  intro r' hr'
  rcases List.mem_append.mp hr' with hr' | hr'
  · exact hnear r' hr'
  · rw [List.mem_singleton.mp hr']
    exact hr

theorem pushBig_spec {bv : BigView} (hlen : 2 < (refs ++ [back]).length)
    (hbv : bv.Shows (refs ++ [back])) (hnear : ∀ r ∈ refs ++ [back], r.Near) (hr : r.Near) :
    ∃ v', View.pushBig move r bv = some (v', (pushRefs move r (refs ++ [back])).2) ∧
      Rep v' (pushRefs move r (refs ++ [back])).1 := by
  have hback := hbv.refAt_back
  have hnearBack : back.Near := hnear back (List.mem_append_right _ List.mem_cons_self)
  rw [View.pushBig, hback]
  by_cases hmeets : back.Meets r
  · rw [pushRefs_merge refs hmeets]
    have hmerge := hnearBack.merge hr hmeets
    refine ⟨_, if_pos (hnearBack.meetsWord_iff.mpr hmeets), ?_⟩
    rw [hmerge.wrap_eq]
    refine .big ?_ (hbv.setBack _ ?_) ?_
    · rw [List.length_append] at hlen ⊢
      exact hlen
    · rw [hbv.nbytes, length_concat, length_concat, Nat.add_assoc]
      rfl
    · exact near_concat (fun r' hr' => hnear r' (List.mem_append_left _ hr')) hmerge
  · have hword : ¬ back.MeetsWord r := fun h => hmeets (hnearBack.meetsWord_iff.mp h)
    rw [pushRefs_concat refs hmeets]
    have hlen' : 2 < (refs ++ [back] ++ [r]).length := by
      rw [List.length_append]
      omega
    have hbytes : bv.nbytes + r.length = length (refs ++ [back] ++ [r]) := by
      rw [length_concat, hbv.nbytes]
    by_cases hfull : bv.nref ≠ bv.capacity
    · refine ⟨_, (if_neg hword).trans (if_pos hfull), .big hlen' ⟨?_, ?_, hbytes⟩
        (near_concat hnear hr)⟩
      · have hroom : (refs ++ [back]).length < bv.capMask + 1 := by
          rw [← hbv.nref]
          exact lt_of_le_of_ne (hbv.nref.trans_le hbv.holds.length_le) hfull
        have hpush := hbv.holds.push hroom r
        rw [← hbv.nref] at hpush
        exact hpush
      · show bv.nref + 1 = _
        rw [hbv.nref]
        simp only [List.length_append, List.length_singleton]
    · have hnref : bv.nref + 1 = (refs ++ [back] ++ [r]).length := by
        rw [hbv.nref]
        simp only [List.length_append, List.length_singleton]
      have hdouble : ∃ k, bv.capacity * 2 = 2 ^ k := by
        obtain ⟨k, hk⟩ := hbv.capacity_pow
        exact ⟨k + 1, by rw [hk, Nat.pow_succ]⟩
      have hfits : (refs ++ [back] ++ [r]).length ≤ bv.capacity * 2 := by
        rw [← hnref, not_ne_iff.mp hfull]
        have hpos : 0 < bv.capacity := Nat.succ_pos _
        omega
      have hnew := shows_acquire hdouble hfits hbytes
      rw [← hnref] at hnew
      refine ⟨_, (if_neg hword).trans ((if_neg hfull).trans ?_), .big hlen' hnew
        (near_concat hnear hr)⟩
      rw [hbv.toList]
      rfl

/-- **Pushing a reference**, in both views and over the changes between them. -/
theorem Rep.push (h : Rep v refs) (move : Bool) (hr : r.Near) :
    ∃ v', v.push move r = some (v', (pushRefs move r refs).2) ∧
      Rep v' (pushRefs move r refs).1 := by
  cases h with
  | empty => exact ⟨_, rfl, .one hr⟩
  | one hr₀ =>
    rename_i r₀
    rw [View.push, if_pos (View.small_ofSmall hr₀), View.refs₀_ofSmall, View.refs₁_ofSmall]
    by_cases hmeets : r₀.Meets r
    · have hmerge : pushRefs move r [r₀] = ([r₀.merge r], IOBuf.merged move r) :=
        pushRefs_merge [] hmeets
      rw [hmerge]
      have hmerged := hr₀.merge hr hmeets
      refine ⟨_, congrArg some (if_pos (hr₀.meetsWord_iff.mpr hmeets)), ?_⟩
      rw [hmerged.wrap_eq]
      exact .one hmerged
    · have hpush : pushRefs move r [r₀] = ([r₀, r], taken move r) :=
        pushRefs_concat [] hmeets
      rw [hpush]
      exact ⟨_, congrArg some (if_neg fun h => hmeets (hr₀.meetsWord_iff.mp h)), .two hr₀ hr⟩
  | two hr₀ hr₁ =>
    rename_i r₀ r₁
    rw [View.push, if_pos (View.small_ofSmall hr₀), View.refs₀_ofSmall, View.refs₁_ofSmall]
    by_cases hmeets : r₁.Meets r
    · have hmerge : pushRefs move r [r₀, r₁] = ([r₀, r₁.merge r], IOBuf.merged move r) :=
        pushRefs_merge [r₀] hmeets
      rw [hmerge]
      have hmerged := hr₁.merge hr hmeets
      refine ⟨_, congrArg some (if_pos (hr₁.meetsWord_iff.mpr hmeets)), ?_⟩
      rw [hmerged.wrap_eq]
      exact .two hr₀ hmerged
    · have hpush : pushRefs move r [r₀, r₁] = ([r₀, r₁, r], taken move r) :=
        pushRefs_concat [r₀] hmeets
      rw [hpush]
      have hbytes : (r₀.length + r₁.length + r.length) % 2 ^ 32 = length [r₀, r₁, r] := by
        have hend₀ := hr₀.2
        have hend₁ := hr₁.2
        have hend := hr.2
        rw [length_cons, length_cons, length_cons, length_nil, Nat.mod_eq_of_lt (by omega)]
        omega
      have hinitial : 3 ≤ INITIAL_CAP := by decide
      refine ⟨_, congrArg some (if_neg fun h => hmeets (hr₁.meetsWord_iff.mp h)),
        .big (Nat.lt_succ_self 2)
        (shows_acquire ⟨5, rfl⟩ hinitial hbytes) ?_⟩
      intro r' hr'
      rcases List.mem_cons.mp hr' with rfl | hr'
      · exact hr₀
      · rcases List.mem_cons.mp hr' with rfl | hr'
        · exact hr₁
        · rw [List.mem_singleton.mp hr']
          exact hr
  | big hlen hbv hnear =>
    obtain ⟨init, back, rfl⟩ := exists_concat hlen
    rw [View.push, if_neg View.not_small_ofBig, View.toBig_ofBig]
    exact pushBig_spec hlen hbv hnear hr

end Push

/-! ### Taking references away -/

section Pop

variable {v : View} {refs rest : List BlockRef} {r : BlockRef} {n : ℕ}

theorem Rep.near (h : Rep v refs) : ∀ r ∈ refs, r.Near := by
  intro r hr
  cases h with
  | empty => cases hr
  | one hr₀ => rwa [List.mem_singleton.mp hr]
  | two hr₀ hr₁ =>
    rcases List.mem_cons.mp hr with rfl | hr
    · exact hr₀
    · rwa [List.mem_singleton.mp hr]
  | big _ _ hnear => exact hnear r hr

/-- **The first reference leaves**; the ring gives way to a small view when two are left. -/
theorem Rep.popFrontRef (h : Rep v (r :: rest)) (moveout : Bool) :
    ∃ v', v.popFrontRef moveout = some (v', if moveout then [] else [.dec r.block]) ∧
      Rep v' rest := by
  cases h with
  | one hr =>
    rw [View.popFrontRef, if_pos (View.small_ofSmall hr), View.refs₀_ofSmall, View.refs₁_ofSmall]
    exact ⟨_, rfl, .empty⟩
  | two hr hr₁ =>
    rw [View.popFrontRef, if_pos (View.small_ofSmall hr), View.refs₀_ofSmall, View.refs₁_ofSmall]
    exact ⟨_, rfl, .one hr₁⟩
  | big hlen hbv hnear =>
    rename_i bv
    have hnear' : ∀ r' ∈ rest, r'.Near := fun r' hr' => hnear r' (List.mem_cons_of_mem r hr')
    have hnref : bv.nref - 1 = rest.length := by
      rw [hbv.nref, List.length_cons, Nat.add_sub_cancel]
    rw [View.popFrontRef, if_neg View.not_small_ofBig, View.toBig_ofBig, Option.bind_eq_bind,
      Option.bind_some, hbv.front, Option.bind_eq_bind, Option.bind_some, hnref]
    by_cases hstay : 2 < rest.length
    · refine ⟨_, if_pos hstay, .big hstay ⟨hbv.holds.tail, rfl, ?_⟩ hnear'⟩
      show bv.nbytes - r.length = length rest
      rw [hbv.nbytes, length_cons, Nat.add_sub_cancel_left]
    · have htwo : rest.length = 2 := by
        rw [List.length_cons] at hlen
        omega
      obtain ⟨r₀, r₁, rfl⟩ := List.length_eq_two.mp htwo
      rw [if_neg hstay, hbv.refAt (i := 1) (r := r₀) rfl, hbv.refAt (i := 2) (r := r₁) rfl]
      exact ⟨_, rfl, .two (hnear' r₀ List.mem_cons_self)
        (hnear' r₁ (List.mem_cons_of_mem _ List.mem_cons_self))⟩

/-- **The last reference leaves.** -/
theorem Rep.popBackRef (h : Rep v (refs ++ [r])) :
    ∃ v', v.popBackRef = some (v', [.dec r.block]) ∧ Rep v' refs := by
  generalize hall : refs ++ [r] = all at h
  cases h with
  | empty => exact absurd hall (List.append_ne_nil_of_right_ne_nil _ (List.cons_ne_nil _ _))
  | one hr =>
    rename_i r'
    obtain ⟨rfl, hlast⟩ := List.append_inj' (show _ = [] ++ [_] from hall) rfl
    obtain rfl := List.head_eq_of_cons_eq hlast
    rw [View.popBackRef, if_pos (View.small_ofSmall hr), View.refs₀_ofSmall, View.refs₁_ofSmall]
    exact ⟨_, rfl, .empty⟩
  | two hr₀ hr₁ =>
    rename_i r₀ r₁
    obtain ⟨rfl, hlast⟩ := List.append_inj' (show _ = [r₀] ++ [_] from hall) rfl
    obtain rfl := List.head_eq_of_cons_eq hlast
    rw [View.popBackRef, if_pos (View.small_ofSmall hr₀), View.refs₀_ofSmall, View.refs₁_ofSmall]
    exact ⟨_, rfl, .one hr₀⟩
  | big hlen hbv hnear =>
    rename_i bv
    subst hall
    have hnear' : ∀ r' ∈ refs, r'.Near := fun r' hr' => hnear r' (List.mem_append_left _ hr')
    have hnref : bv.nref - 1 = refs.length := by
      rw [hbv.nref, List.length_append, List.length_singleton, Nat.add_sub_cancel]
    rw [View.popBackRef, if_neg View.not_small_ofBig, View.toBig_ofBig, Option.bind_eq_bind,
      Option.bind_some, hbv.refAt_back, Option.bind_eq_bind, Option.bind_some, hnref]
    by_cases hstay : 2 < refs.length
    · refine ⟨_, if_pos hstay, .big hstay ⟨hbv.holds.dropLast, rfl, ?_⟩ hnear'⟩
      show bv.nbytes - r.length = length refs
      rw [hbv.nbytes, length_concat, Nat.add_sub_cancel]
    · have htwo : refs.length = 2 := by
        rw [List.length_append, List.length_singleton] at hlen
        omega
      obtain ⟨r₀, r₁, rfl⟩ := List.length_eq_two.mp htwo
      have hfront : bv.front = some r₀ :=
        BigView.Shows.front (show bv.Shows (r₀ :: [r₁, r]) from hbv)
      rw [if_neg hstay, hfront, hbv.refAt (i := 1) (r := r₁) rfl]
      exact ⟨_, rfl, .two (hnear' r₀ List.mem_cons_self)
        (hnear' r₁ (List.mem_cons_of_mem _ List.mem_cons_self))⟩

theorem subBytes_ofBig (bv : BigView) :
    View.subBytes n (.ofBig bv) = some (.ofBig { bv with nbytes := bv.nbytes - n }) := by
  rw [View.subBytes, if_neg View.not_small_ofBig]
  rfl

theorem subBytes_ofSmall (n : ℕ) (hr : r.Near) (r₁ : Option BlockRef) :
    View.subBytes n (.ofSmall (some r) r₁) = some (.ofSmall (some r) r₁) :=
  if_pos (View.small_ofSmall hr)

theorem skipFront_ofSmall (hskip : (r.skip n).Near) (r₁ : Option BlockRef) :
    (View.ofSmall (some r) r₁).skipFront n = .ofSmall (some (r.skip n)) r₁ := by
  have hend : 3 * (r.offset + n + (r.length - n)) < 2 ^ 32 := hskip.2
  have hoffset : (r.offset + n) % 2 ^ 32 = r.offset + n := Nat.mod_eq_of_lt (by omega)
  show View.mk ((r.offset + n) % 2 ^ 32) _ _ _ _ _ = _
  rw [hoffset]
  rfl

/-- The first `n` bytes of the first reference leave. -/
theorem Rep.trimFront (h : Rep v (r :: rest)) (hn : n < r.length) :
    ∃ v', v.trimFront n = some v' ∧ Rep v' (r.skip n :: rest) := by
  have hr := h.near r List.mem_cons_self
  have hskip := hr.skip hn
  cases h with
  | one =>
    rw [View.trimFront, if_pos (View.small_ofSmall hr), skipFront_ofSmall hskip]
    exact ⟨_, subBytes_ofSmall n hskip none, .one hskip⟩
  | @two _ r₁ _ hr₁ =>
    rw [View.trimFront, if_pos (View.small_ofSmall hr), skipFront_ofSmall hskip]
    exact ⟨_, subBytes_ofSmall n hskip (some r₁), .two hskip hr₁⟩
  | big hlen hbv hnear =>
    rename_i bv
    rw [View.trimFront, if_neg View.not_small_ofBig, View.toBig_ofBig, Option.bind_eq_bind,
      Option.bind_some, hbv.front, Option.bind_eq_bind, Option.bind_some, subBytes_ofBig,
      hskip.wrap_eq]
    refine ⟨_, rfl, .big hlen ⟨?_, hbv.nref, ?_⟩ ?_⟩
    · have hset := hbv.holds.set (i := 0) (Nat.succ_pos _) (r.skip n)
      rw [hbv.holds.start_index] at hset
      exact hset
    · show bv.nbytes - n = length (r.skip n :: rest)
      rw [hbv.nbytes, length_cons, length_cons]
      show r.length + length rest - n = r.length - n + length rest
      omega
    · intro r' hr'
      rcases List.mem_cons.mp hr' with rfl | hr'
      · exact hskip
      · exact hnear r' (List.mem_cons_of_mem r hr')

/-- The last `n` bytes of the last reference leave. -/
theorem Rep.trimBack (h : Rep v (refs ++ [r])) (hn : n < r.length) :
    ∃ v', v.trimBack n = some v' ∧ Rep v' (refs ++ [r.cut n]) := by
  have hr := h.near r (List.mem_append_right _ List.mem_cons_self)
  have hcut := hr.cut hn
  generalize hall : refs ++ [r] = all at h
  cases h with
  | empty => exact absurd hall (List.append_ne_nil_of_right_ne_nil _ (List.cons_ne_nil _ _))
  | one =>
    obtain ⟨rfl, hlast⟩ := List.append_inj' (show _ = [] ++ [_] from hall) rfl
    obtain rfl := List.head_eq_of_cons_eq hlast
    rw [View.trimBack, if_pos (View.small_ofSmall hr)]
    exact ⟨_, subBytes_ofSmall n hcut none, .one hcut⟩
  | @two r₀ _ hr₀ _ =>
    obtain ⟨rfl, hlast⟩ := List.append_inj' (show _ = [r₀] ++ [_] from hall) rfl
    obtain rfl := List.head_eq_of_cons_eq hlast
    rw [View.trimBack, if_pos (View.small_ofSmall hr₀)]
    exact ⟨_, subBytes_ofSmall n hr₀ (some (r.cut n)), .two hr₀ hcut⟩
  | big hlen hbv hnear =>
    rename_i bv
    subst hall
    rw [View.trimBack, if_neg View.not_small_ofBig, View.toBig_ofBig, Option.bind_eq_bind,
      Option.bind_some, hbv.refAt_back, Option.bind_eq_bind, Option.bind_some, subBytes_ofBig]
    refine ⟨_, rfl, .big ?_ (hbv.setBack (r.cut n) ?_) ?_⟩
    · rw [List.length_append] at hlen ⊢
      exact hlen
    · show bv.nbytes - n = length (refs ++ [r.cut n])
      rw [hbv.nbytes, length_concat, length_concat]
      show length refs + r.length - n = length refs + (r.length - n)
      omega
    · exact near_concat (fun r' hr' => hnear r' (List.mem_append_left _ hr')) hcut

/-- **An offset beyond `2 ^ 31` is taken for a `magic`.**  Where the first reference of a small
view is moved over the bound, the word that `nbytes` is subtracted from is a `Block*`. -/
theorem trimFront_misread {r₁ : Option BlockRef} (hsmall : r.offset < 2 ^ 31)
    (hover : 2 ^ 31 ≤ r.offset + n) (hword : r.offset + n < 2 ^ 32) :
    (View.ofSmall (some r) r₁).trimFront n = none := by
  have hpos : (View.ofSmall (some r) r₁).small = true := decide_eq_true hsmall
  have hoffset : ((View.ofSmall (some r) r₁).skipFront n).offset₀ = r.offset + n :=
    Nat.mod_eq_of_lt hword
  rw [View.trimFront, if_pos hpos, View.subBytes, if_neg]
  · cases r₁ <;> rfl
  · intro h
    have hlt := of_decide_eq_true h
    rw [hoffset] at hlt
    exact absurd hlt (not_lt.mpr hover)

end Pop

/-! ### Whole buffers -/

section Whole

variable {v rhs : View} {refs refs' : List BlockRef}

theorem Rep.toList (h : Rep v refs) : v.toList = some refs := by
  cases h with
  | empty => rfl
  | one hr =>
    rw [View.toList, if_pos (View.small_ofSmall hr), View.refs₀_ofSmall, View.refs₁_ofSmall]
    rfl
  | two hr₀ hr₁ =>
    rw [View.toList, if_pos (View.small_ofSmall hr₀), View.refs₀_ofSmall, View.refs₁_ofSmall]
    rfl
  | big hlen hbv hnear =>
    rw [View.toList, if_neg View.not_small_ofBig, View.toBig_ofBig]
    exact hbv.toList

theorem Rep.length (h : Rep v refs) : v.length = some (length refs) := by
  cases h with
  | empty => rfl
  | @one r hr =>
    have hend := hr.2
    rw [View.length, if_pos (View.small_ofSmall hr), length_cons, length_nil]
    exact congrArg some (Nat.mod_eq_of_lt (show r.length + 0 < 2 ^ 32 by omega))
  | @two r₀ r₁ hr₀ hr₁ =>
    have hend₀ := hr₀.2
    have hend₁ := hr₁.2
    rw [View.length, if_pos (View.small_ofSmall hr₀), length_cons, length_cons, length_nil]
    exact congrArg some (Nat.mod_eq_of_lt (show r₀.length + r₁.length < 2 ^ 32 by omega))
  | big hlen hbv hnear =>
    rw [View.length, if_neg View.not_small_ofBig, View.toBig_ofBig, ← hbv.nbytes]
    rfl

theorem Rep.isEmpty (h : Rep v refs) : v.isEmpty = some refs.isEmpty := by
  cases h with
  | empty => rfl
  | one hr =>
    rw [View.isEmpty, if_pos (View.small_ofSmall hr)]
    rfl
  | two hr₀ hr₁ =>
    rw [View.isEmpty, if_pos (View.small_ofSmall hr₀)]
    rfl
  | big hlen hbv hnear =>
    rename_i bv
    rw [View.isEmpty, if_neg View.not_small_ofBig, View.toBig_ofBig, Option.map_some]
    obtain ⟨r, rest, rfl⟩ := List.exists_cons_of_length_pos (Nat.zero_lt_of_lt hlen)
    have hpos : bv.nbytes ≠ 0 := by
      rw [hbv.nbytes, length_cons]
      have hfirst := (hnear r List.mem_cons_self).1
      omega
    rw [decide_eq_false hpos]
    rfl

theorem Rep.clear (h : Rep v refs) : v.clear = some (.empty, dropped refs) := by
  cases h with
  | empty => rfl
  | one hr =>
    rw [View.clear, if_pos (View.small_ofSmall hr), View.refs₀_ofSmall, View.refs₁_ofSmall]
    rfl
  | two hr₀ hr₁ =>
    rw [View.clear, if_pos (View.small_ofSmall hr₀), View.refs₀_ofSmall, View.refs₁_ofSmall]
    rfl
  | big hlen hbv hnear =>
    rw [View.clear, if_neg View.not_small_ofBig, View.toBig_ofBig, Option.bind_eq_bind,
      Option.bind_some, hbv.toList]
    rfl

theorem Rep.copy (h : Rep rhs refs) :
    ∃ v', rhs.copy = some (v', shared refs) ∧ Rep v' refs := by
  have hlist := h.toList
  cases h with
  | empty => exact ⟨_, rfl, .empty⟩
  | one hr =>
    rw [View.copy, if_pos (View.small_ofSmall hr), hlist]
    exact ⟨_, rfl, .one hr⟩
  | two hr₀ hr₁ =>
    rw [View.copy, if_pos (View.small_ofSmall hr₀), hlist]
    exact ⟨_, rfl, .two hr₀ hr₁⟩
  | big hlen hbv hnear =>
    rename_i bv
    rw [View.copy, if_neg View.not_small_ofBig, View.toBig_ofBig, Option.bind_eq_bind,
      Option.bind_some, hbv.toList]
    refine ⟨_, rfl, .big hlen ⟨?_, hbv.nref, hbv.nbytes⟩ hnear⟩
    exact (shows_acquire hbv.capacity_pow hbv.holds.length_le hbv.nbytes).holds

theorem Rep.exists_big (h : Rep v refs) (hbig : ¬ v.small = true) :
    ∃ bv, v = .ofBig bv ∧ bv.Shows refs ∧ 2 < refs.length := by
  cases h with
  | empty => exact absurd View.small_empty hbig
  | one hr => exact absurd (View.small_ofSmall hr) hbig
  | two hr₀ _ => exact absurd (View.small_ofSmall hr₀) hbig
  | big hlen hbv _ => exact ⟨_, rfl, hbv, hlen⟩

/-- **`operator=`**, in both of its branches. -/
theorem Rep.assign (h : Rep v refs) (hrhs : Rep rhs refs') :
    ∃ v', v.assign rhs = some (v', dropped refs ++ shared refs') ∧ Rep v' refs' := by
  obtain ⟨w, hcopy, hw⟩ := hrhs.copy
  have hdestroy : (do
      let (_, decs) ← v.clear
      let (v', incs) ← rhs.copy
      some (v', decs ++ incs)) = some (w, dropped refs ++ shared refs') := by
    rw [h.clear, hcopy]
    rfl
  rw [View.assign]
  dsimp only
  rw [hdestroy]
  split
  · exact ⟨w, rfl, hw⟩
  · rename_i hbig
    rw [Bool.or_eq_true, not_or] at hbig
    have hnear := hrhs.near
    obtain ⟨bv, rfl, hbv, -⟩ := h.exists_big hbig.2
    obtain ⟨bv', rfl, hbv', hlen⟩ := hrhs.exists_big hbig.1
    rw [View.toBig_ofBig, View.toBig_ofBig, Option.bind_eq_bind, Option.bind_some,
      Option.bind_eq_bind, Option.bind_some, hbv.toList, hbv'.toList]
    split
    · rename_i hmask
      refine ⟨_, rfl, .big hlen ⟨MaskedRing.Holds.build hbv.holds.power ?_, hbv'.nref, hbv'.nbytes⟩
        hnear⟩
      have hle := hbv'.holds.length_le
      show refs'.length + (bv.refs.drop refs'.length).length = bv.capMask + 1
      rw [List.length_drop, hbv.holds.size]
      omega
    · exact ⟨w, rfl, hw⟩

end Whole

end IOBuf
