/-
The calls of `butil::IOBuf` that cut, copy and move whole buffers (`3rd_party/butil/iobuf.cpp`).

`cutn` and `append(Movable)` hand references over without counting them: a reference that is
merged on the other side is given back, one that is not stays counted as it was.  `operator=`
gives the old references back before it counts the new ones.  In each of them a block is referred
to once more or once less than `nshared` says for a while; at the end of the call the counts are
right again.

* `popBack`, `cutn`, `appendTo`, `assign`, `appendMovable`, `swap`, `resize` — the functions;
* `Op`, `op` — they and the calls and reads of `IOBuf.Label`;
* `Models.op`, `cut_buffers` — **on the bytes they are `take`, `drop` and `++`, in every run**.
-/
import AntServer.ReadBuffer

namespace IOBuf

/-! ### The functions -/

/-- The loop of `pop_back`, on the references from the last one on. -/
def popBackRefs : ℕ → List BlockRef → List BlockRef × List ℕ
  | _, [] => ([], [])
  | n, r :: rest =>
    if n = 0 then (r :: rest, [])
    else if n < r.length then ({ r with length := r.length - n } :: rest, [])
    else
      let (refs, bs) := popBackRefs (n - r.length) rest
      (refs, r.block :: bs)

def popBack (x n : ℕ) (s : State) : State :=
  if length (s.bufs x) ≤ n then clear x s
  else
    let (refs, bs) := popBackRefs n (s.bufs x).reverse
    decRefAll (s.setBuf x refs.reverse) bs

/-- The loop of `cutn`; `refs` are the references of `x`. -/
def cutLoop (x y : ℕ) : ℕ → List BlockRef → State → State
  | _, [], s => s
  | n, r :: rest, s =>
    if n = 0 then s
    else if r.length ≤ n then
      -- `_move_back_ref` on `y`, then `_moveout_front_ref`
      cutLoop x y (n - r.length) rest ((pushBackRef true y r s).setBuf x rest)
    else
      (pushBackRef false y ⟨r.offset, n, r.block⟩ s).setBuf x
        ({ r with offset := r.offset + n, length := r.length - n } :: rest)

/-- `cutn(out, n)` of `x`, with `y` for `out`. -/
def cutn (x y n : ℕ) (s : State) : State := cutLoop x y (min n (length (s.bufs x))) (s.bufs x) s

/-- The first loop of `append_to` and `copy_to`: the references that are left when `offset` bytes
are skipped, and what is left to skip of the first one. -/
def skipRefs : ℕ → List BlockRef → ℕ × List BlockRef
  | offset, [] => (offset, [])
  | offset, r :: rest =>
    if offset = 0 then (0, r :: rest)
    else if offset < r.length then (offset, r :: rest)
    else skipRefs (offset - r.length) rest

/-- The second loop of `append_to`. -/
def appendToLoop (y : ℕ) : ℕ → ℕ → List BlockRef → State → State
  | _, _, [], s => s
  | m, offset, r :: rest, s =>
    if m = 0 then s
    else
      let nc := min m (r.length - offset)
      appendToLoop y (m - nc) 0 rest (pushBackRef false y ⟨r.offset + offset, nc, r.block⟩ s)

/-- `append_to(buf, n, pos)` of `x`, with `y` for `buf`. -/
def appendTo (x y n pos : ℕ) (s : State) : State :=
  let (offset, refs) := skipRefs pos (s.bufs x)
  appendToLoop y n offset refs s

def incRefAll (s : State) (bs : List ℕ) : State := bs.foldl incRef s

/-- `operator=` of `x` with `y` on the right. -/
def assign (x y : ℕ) (s : State) : State :=
  if x = y then s
  else
    let s := clear x s
    incRefAll (s.setBuf x (s.bufs y)) ((s.bufs y).map BlockRef.block)

def swap (x y : ℕ) (s : State) : State := (s.setBuf x (s.bufs y)).setBuf y (s.bufs x)

/-- `append(Movable(y))` of `x`. -/
def appendMovable (x y : ℕ) (s : State) : State :=
  if s.bufs x = [] then swap x y s
  else ((s.bufs y).foldl (fun s r => pushBackRef true x r s) s).setBuf y []

/-- `resize(n, c)` on the thread `t`; its loop is that of `append`, on bytes `c`. -/
def resize (cap t x n : ℕ) (c : UInt8) (s : State) : State :=
  if n < length (s.bufs x) then popBack x (length (s.bufs x) - n) s
  else
    let count := n - length (s.bufs x)
    appendLoop cap t x count (List.replicate count c) s

inductive Op
  | call (l : Label)
  | popBack (x n : ℕ)
  | cutn (x y n : ℕ)
  | appendTo (x y n pos : ℕ)
  | assign (x y : ℕ)
  | appendMovable (x y : ℕ)
  | swap (x y : ℕ)
  | resize (t x n : ℕ) (c : UInt8)
deriving DecidableEq, Repr

/-- A buffer is not cut into, appended to or moved into itself. -/
def op (cap : ℕ) (s : State) : Op → Option State
  | .call l => step cap s l
  | .popBack x n => some (popBack x n s)
  | .cutn x y n => if x ≠ y then some (cutn x y n s) else none
  | .appendTo x y n pos => if x ≠ y then some (appendTo x y n pos s) else none
  | .assign x y => some (assign x y s)
  | .appendMovable x y => if x ≠ y then some (appendMovable x y s) else none
  | .swap x y => some (swap x y s)
  | .resize t x n c => some (resize cap t x n c s)

/-- What they are for. -/
def Spec.op (a : Spec) : Op → Spec
  | .call l => a.step l
  | .popBack x n => a.setBuf x ((a.bufs x).rdrop n)
  | .cutn x y n => (a.setBuf y (a.bufs y ++ (a.bufs x).take n)).setBuf x ((a.bufs x).drop n)
  | .appendTo x y n pos => a.setBuf y (a.bufs y ++ ((a.bufs x).drop pos).take n)
  | .assign x y => a.setBuf x (a.bufs y)
  | .appendMovable x y => (a.setBuf x (a.bufs x ++ a.bufs y)).setBuf y []
  | .swap x y => (a.setBuf x (a.bufs y)).setBuf y (a.bufs x)
  | .resize _ x n c =>
    a.setBuf x ((a.bufs x).take n ++ List.replicate (n - (a.bufs x).length) c)

/-! ### Lengths -/

theorem length_nil : length [] = 0 := rfl

theorem length_cons (r : BlockRef) (refs : List BlockRef) :
    length (r :: refs) = r.length + length refs := by
  rw [length, length, List.map_cons, List.sum_cons]

theorem length_append (refs refs' : List BlockRef) :
    length (refs ++ refs') = length refs + length refs' := by
  rw [length, length, length, List.map_append, List.sum_append]

theorem length_concat (refs : List BlockRef) (r : BlockRef) :
    length (refs ++ [r]) = length refs + r.length := by
  rw [length_append, length_cons, length_nil, Nat.add_zero]

/-! ### The blocks know nothing of the buffers -/

/-- The state with other buffers. -/
def State.withBufs (s : State) (bufs : ℕ → List BlockRef) : State := { s with bufs := bufs }

section Bufs

variable {s : State} {b x y : ℕ} {bufs : ℕ → List BlockRef} {refs : List BlockRef}

theorem State.setBuf_eq_withBufs : s.setBuf x refs = s.withBufs (Function.update s.bufs x refs) :=
  rfl

theorem incRef_withBufs : incRef (s.withBufs bufs) b = (incRef s b).withBufs bufs := by
  have hsame : (s.withBufs bufs).blocks b = s.blocks b := rfl
  rw [incRef, incRef, hsame]
  cases s.blocks b <;> rfl

theorem decRefOnce_withBufs :
    decRefOnce (s.withBufs bufs) b = ((decRefOnce s b).1.withBufs bufs, (decRefOnce s b).2) := by
  have hsame : (s.withBufs bufs).blocks b = s.blocks b := rfl
  rw [decRefOnce, decRefOnce, hsame]
  cases s.blocks b with
  | none => rfl
  | some k =>
    dsimp only
    split <;> rfl

theorem decRef_withBufs : decRef (s.withBufs bufs) b = (decRef s b).withBufs bufs := by
  rw [decRef, decRef, decRefOnce_withBufs]
  obtain ⟨s', target⟩ := decRefOnce s b
  cases target with
  | none => rfl
  | some target => exact congrArg Prod.fst decRefOnce_withBufs

theorem incRef_bufs : (incRef s b).bufs = s.bufs := by
  have hself : incRef s b = (incRef s b).withBufs s.bufs := incRef_withBufs
  rw [hself]
  rfl

theorem decRef_bufs : (decRef s b).bufs = s.bufs := by
  have hself : decRef s b = (decRef s b).withBufs s.bufs := decRef_withBufs
  rw [hself]
  rfl

theorem decRef_setBuf : decRef (s.setBuf x refs) b = (decRef s b).setBuf x refs := by
  rw [State.setBuf_eq_withBufs, decRef_withBufs, State.setBuf_eq_withBufs, decRef_bufs]

theorem setBuf_comm (hxy : x ≠ y) {refs' : List BlockRef} :
    (s.setBuf x refs).setBuf y refs' = (s.setBuf y refs').setBuf x refs := by
  rw [State.setBuf, State.setBuf, State.setBuf, State.setBuf, Function.update_comm hxy]

variable {move : Bool} {r : BlockRef}

/-- A reference pushed to `y` leaves what `x` has. -/
theorem pushBackRef_setBuf (hxy : x ≠ y) :
    pushBackRef move y r (s.setBuf x refs) = (pushBackRef move y r s).setBuf x refs := by
  rw [pushBackRef, pushBackRef, State.setBuf_of_ne s hxy.symm]
  cases move with
  | true =>
    split
    · split
      · exact (congrArg (decRef · r.block) (setBuf_comm hxy)).trans decRef_setBuf
      · exact setBuf_comm hxy
    · exact setBuf_comm hxy
  | false =>
    split
    · split
      · exact setBuf_comm hxy
      · exact (congrArg (incRef · r.block) (setBuf_comm hxy)).trans (incRef_setBuf x refs)
    · exact (congrArg (incRef · r.block) (setBuf_comm hxy)).trans (incRef_setBuf x refs)

theorem pushBackRef_bufs_other (hxy : x ≠ y) : (pushBackRef move y r s).bufs x = s.bufs x := by
  have hself : s.setBuf x (s.bufs x) = s := by rw [State.setBuf, Function.update_eq_self]
  have hpush : pushBackRef move y r (s.setBuf x (s.bufs x)) =
      (pushBackRef move y r s).setBuf x (s.bufs x) :=
    pushBackRef_setBuf hxy
  rw [hself] at hpush
  rw [hpush, State.setBuf_self]

end Bufs

/-! ### `pop_back` -/

section PopBack

variable {s : State} {hand : List ℕ} {a : Spec} {x n : ℕ} {refs : List BlockRef}

theorem popBackRefs_perm :
    ((popBackRefs n refs).1.map BlockRef.block ++ (popBackRefs n refs).2).Perm
      (refs.map BlockRef.block) := by
  fun_induction popBackRefs n refs with
  | case1 => exact List.Perm.refl _
  | case2 => rw [List.append_nil]
  | case3 => rw [List.append_nil]; exact List.Perm.refl _
  | case4 n r rest hn hlen refs' bs heq ih =>
    rw [heq] at ih
    exact List.perm_middle.trans (ih.cons r.block)

theorem popBackRefs_fits (hrefs : ∀ r ∈ refs, ∀ k, s.blocks r.block = some k → r.Fits k) :
    ∀ r ∈ (popBackRefs n refs).1, ∀ k, s.blocks r.block = some k → r.Fits k := by
  fun_induction popBackRefs n refs with
  | case1 => exact hrefs
  | case2 => exact hrefs
  | case3 n r rest hn hlen =>
    intro r' hr' k hk
    rcases List.mem_cons.mp hr' with rfl | hr'
    · have hfits := hrefs r List.mem_cons_self k hk
      refine ⟨Nat.sub_pos_of_lt hlen, ?_⟩
      show r.offset + (r.length - n) ≤ k.size
      have hend := hfits.2
      omega
    · exact hrefs r' (List.mem_cons_of_mem r hr') k hk
  | case4 n r rest hn hlen refs' bs heq ih =>
    rw [heq] at ih
    exact ih fun r' hr' => hrefs r' (List.mem_cons_of_mem r hr')

theorem refBytes_take {r : BlockRef} {k : Block} (hk : s.blocks r.block = some k)
    (hn : n ≤ r.length) : refBytes s { r with length := n } = (refBytes s r).take n := by
  rw [refBytes_eq hk, slice_take hn]
  exact refBytes_eq (r := { r with length := n }) hk

theorem refBytes_drop {r : BlockRef} {k : Block} (hk : s.blocks r.block = some k)
    (hn : n ≤ r.length) :
    refBytes s { r with offset := r.offset + n, length := r.length - n } =
      (refBytes s r).drop n := by
  rw [refBytes_eq hk, slice_drop hn, Nat.add_assoc]
  exact refBytes_eq (r := { r with offset := r.offset + n, length := r.length - n }) hk

theorem rdrop_append_of_le {l l' : List UInt8} (hn : n ≤ l'.length) :
    (l ++ l').rdrop n = l ++ l'.rdrop n := by
  rw [List.rdrop, List.length_append, Nat.add_sub_assoc hn, List.take_length_add_append]
  rfl

theorem rdrop_append_of_ge {l l' : List UInt8} (hn : l'.length ≤ n) :
    (l ++ l').rdrop n = l.rdrop (n - l'.length) := by
  have hle : (l ++ l').length - n ≤ l.length := by
    rw [List.length_append]
    omega
  rw [List.rdrop, List.take_append_of_le_length hle, List.rdrop, List.length_append]
  congr 1
  omega

/-- The references are taken from the last one on, and so are the bytes. -/
theorem popBackRefs_bytes (hlive : ∀ r ∈ refs, ∃ k, s.blocks r.block = some k) :
    (popBackRefs n refs).1.reverse.flatMap (refBytes s) =
      (refs.reverse.flatMap (refBytes s)).rdrop n := by
  fun_induction popBackRefs n refs with
  | case1 => rw [List.reverse_nil, List.flatMap_nil, List.rdrop_nil]
  | case2 => rw [List.rdrop_zero]
  | case3 n r rest hn hlen =>
    obtain ⟨k, hk⟩ := hlive r List.mem_cons_self
    have hkeep : refBytes s { r with length := r.length - n } = (refBytes s r).rdrop n := by
      rw [refBytes_take hk (Nat.sub_le _ _), List.rdrop, refBytes_length hk]
    rw [List.reverse_cons, List.reverse_cons, List.flatMap_append, List.flatMap_append,
      List.flatMap_singleton, List.flatMap_singleton, hkeep, rdrop_append_of_le]
    rw [refBytes_length hk]
    exact hlen.le
  | case4 n r rest hn hlen refs' bs heq ih =>
    obtain ⟨k, hk⟩ := hlive r List.mem_cons_self
    rw [heq] at ih
    rw [ih fun r' hr' => hlive r' (List.mem_cons_of_mem r hr'), List.reverse_cons,
      List.flatMap_append, List.flatMap_singleton, rdrop_append_of_ge, refBytes_length hk]
    rw [refBytes_length hk]
    exact not_lt.mp hlen

theorem Models.popBack (h : Models s hand a) (n : ℕ) :
    Models (popBack x n s) hand (a.setBuf x ((a.bufs x).rdrop n)) := by
  have hlen : (a.bufs x).length = length (s.bufs x) := by
    rw [← h.contents, contents_length h.inv]
  rw [IOBuf.popBack]
  split
  · rename_i hall
    rw [List.rdrop, Nat.sub_eq_zero_of_le (hlen.trans_le hall), List.take_zero]
    exact h.clear
  · have hbytes : (popBackRefs n (s.bufs x).reverse).1.reverse.flatMap (refBytes s) =
        ((s.bufs x).reverse.reverse.flatMap (refBytes s)).rdrop n :=
      popBackRefs_bytes fun r hr => h.inv.live_ref (List.mem_reverse.mp hr)
    rw [List.reverse_reverse] at hbytes
    rw [← h.contents, IOBuf.contents, ← hbytes]
    refine h.dropRefs ?_ ?_
    · rw [List.map_reverse]
      refine ((List.reverse_perm _).append_right _).trans (popBackRefs_perm.trans ?_)
      rw [List.map_reverse]
      exact List.reverse_perm _
    · intro r hr
      refine popBackRefs_fits (fun r' hr' => ?_) r (List.mem_reverse.mp hr)
      exact h.inv.shape.refs x r' (List.mem_reverse.mp hr')

end PopBack

/-! ### `cutn` -/

namespace Spec

variable {a : Spec} {x y : ℕ} {bytes bytes' : List UInt8}

theorem setBuf_of_ne (hxy : x ≠ y) : (a.setBuf x bytes).bufs y = a.bufs y :=
  Function.update_of_ne hxy.symm ..

theorem setBuf_comm (hxy : x ≠ y) :
    (a.setBuf x bytes).setBuf y bytes' = (a.setBuf y bytes').setBuf x bytes := by
  rw [setBuf, setBuf, setBuf, setBuf, Function.update_comm hxy]

/-- Of two changes of both buffers the later ones count. -/
theorem setBuf_pair (hxy : x ≠ y) {bytes₁ bytes₂ : List UInt8} :
    (((a.setBuf y bytes₁).setBuf x bytes₂).setBuf y bytes).setBuf x bytes' =
      (a.setBuf y bytes).setBuf x bytes' := by
  rw [setBuf_comm hxy, setBuf_setBuf, setBuf_setBuf]

end Spec

section Cut

variable {s : State} {hand : List ℕ} {a : Spec} {x y : ℕ} {r : BlockRef} {rest : List BlockRef}

/-- The first reference is taken out of the buffer, and stays counted. -/
theorem Models.takeOut (h : Models s hand a) (hrefs : s.bufs x = r :: rest) :
    Models (s.setBuf x rest) (r.block :: hand) (a.setBuf x (rest.flatMap (refBytes s))) := by
  refine h.setBuf (h.inv.setBuf ?_ fun r' hr' => ?_) rfl
  · rw [hrefs, List.map_cons, List.cons_append]
    exact List.perm_middle
  · exact h.inv.shape.refs x r' (hrefs ▸ List.mem_cons_of_mem r hr')

/-- `_move_back_ref` on the one side and `_moveout_front_ref` on the other. -/
theorem Models.moveFront (h : Models s hand a) (hxy : x ≠ y) (hrefs : s.bufs x = r :: rest) :
    Models ((IOBuf.pushBackRef true y r s).setBuf x rest) hand
      ((a.setBuf y (a.bufs y ++ refBytes s r)).setBuf x (rest.flatMap (refBytes s))) := by
  have hr : r ∈ s.bufs x := hrefs ▸ List.mem_cons_self
  obtain ⟨k, hk⟩ := h.inv.live_ref hr
  have hk' : (s.setBuf x rest).blocks r.block = some k := hk
  have hmove := (h.takeOut hrefs).moveBackRef (x := y) hk' (h.inv.shape.refs x r hr k hk)
  rw [pushBackRef_setBuf hxy, Spec.setBuf_of_ne hxy, Spec.setBuf_comm hxy] at hmove
  exact hmove

theorem Models.bufs_cons (h : Models s hand a) (hrefs : s.bufs x = r :: rest) :
    a.bufs x = refBytes s r ++ rest.flatMap (refBytes s) := by
  rw [← h.contents, IOBuf.contents, hrefs, List.flatMap_cons]

/-- The first `n` bytes of the first reference go to `y`, with a reference of their own. -/
theorem Models.splitFront (h : Models s hand a) (hxy : x ≠ y) (hrefs : s.bufs x = r :: rest)
    {n : ℕ} (hpos : 0 < n) (hn : n < r.length) :
    Models ((IOBuf.pushBackRef false y ⟨r.offset, n, r.block⟩ s).setBuf x
        ({ r with offset := r.offset + n, length := r.length - n } :: rest)) hand
      ((a.setBuf y (a.bufs y ++ (refBytes s r).take n)).setBuf x
        ((refBytes s r).drop n ++ rest.flatMap (refBytes s))) := by
  obtain ⟨k, hk⟩ := h.inv.live_ref (hrefs ▸ List.mem_cons_self : r ∈ s.bufs x)
  have hfits := h.inv.shape.refs x r (hrefs ▸ List.mem_cons_self) k hk
  have hpush := h.pushBackRef (x := y) (r := ⟨r.offset, n, r.block⟩) hk
    ⟨hpos, (Nat.add_le_add_left hn.le _).trans hfits.2⟩
  have hbufs : (IOBuf.pushBackRef false y ⟨r.offset, n, r.block⟩ s).bufs x = r :: rest := by
    rw [pushBackRef_bufs_other hxy, hrefs]
  have htake : refBytes s ⟨r.offset, n, r.block⟩ = (refBytes s r).take n :=
    refBytes_take hk hn.le
  rw [htake] at hpush
  refine hpush.setBuf (hpush.inv.setBuf ?_ fun r' hr' k' hk' => ?_) ?_
  · rw [hbufs]
    exact List.Perm.refl _
  · rcases List.mem_cons.mp hr' with rfl | hr'
    · have hold := hpush.inv.shape.refs x r (hbufs ▸ List.mem_cons_self) k' hk'
      refine ⟨Nat.sub_pos_of_lt hn, ?_⟩
      show r.offset + n + (r.length - n) ≤ k'.size
      have hend := hold.2
      omega
    · exact hpush.inv.shape.refs x r' (hbufs ▸ List.mem_cons_of_mem r hr') k' hk'
  · have hsame : refBytes (IOBuf.pushBackRef false y ⟨r.offset, n, r.block⟩ s) = refBytes s :=
      funext fun r' => refBytes_pushBackRef (r := ⟨r.offset, n, r.block⟩) hk r'
    rw [hsame, List.flatMap_cons, refBytes_drop hk hn.le]

theorem Models.cutLoop (hxy : x ≠ y) {refs : List BlockRef} {n : ℕ} (h : Models s hand a)
    (hrefs : s.bufs x = refs) :
    Models (cutLoop x y n refs s) hand
      ((a.setBuf y (a.bufs y ++ (a.bufs x).take n)).setBuf x ((a.bufs x).drop n)) := by
  have hidle : ∀ a : Spec, (a.setBuf y (a.bufs y ++ [])).setBuf x (a.bufs x) = a := by
    intro a
    rw [List.append_nil, Spec.setBuf_bufs, Spec.setBuf_bufs]
  induction refs generalizing n s a with
  | nil =>
    have hnil : a.bufs x = [] := by rw [← h.contents, IOBuf.contents, hrefs, List.flatMap_nil]
    have hsame := hidle a
    rw [hnil] at hsame
    rw [hnil, List.take_nil, List.drop_nil, hsame]
    exact h
  | cons r rest ih =>
    obtain ⟨k, hk⟩ := h.inv.live_ref (hrefs ▸ List.mem_cons_self : r ∈ s.bufs x)
    have hlen := refBytes_length hk
    rw [IOBuf.cutLoop]
    split
    · rename_i hn
      rw [hn, List.take_zero, List.drop_zero, hidle]
      exact h
    · rename_i hn
      split
      · rename_i hle
        have hmove := ih (n := n - r.length) (h.moveFront hxy hrefs) (State.setBuf_self ..)
        rw [Spec.setBuf_self, Spec.setBuf_of_ne hxy, Spec.setBuf_self, Spec.setBuf_pair hxy,
          List.append_assoc] at hmove
        rw [h.bufs_cons hrefs, List.take_append, List.drop_append, hlen,
          List.take_of_length_le (hlen.trans_le hle), List.drop_eq_nil_of_le (hlen.trans_le hle)]
        exact hmove
      · rename_i hlt
        have hlt := not_le.mp hlt
        have hcut := h.splitFront hxy hrefs (Nat.pos_of_ne_zero hn) hlt
        have hle : n ≤ (refBytes s r).length := hlt.le.trans_eq hlen.symm
        rw [h.bufs_cons hrefs, List.take_append_of_le_length hle,
          List.drop_append_of_le_length hle]
        exact hcut

theorem Models.cutn (h : Models s hand a) (hxy : x ≠ y) (n : ℕ) :
    Models (cutn x y n s) hand
      ((a.setBuf y (a.bufs y ++ (a.bufs x).take n)).setBuf x ((a.bufs x).drop n)) := by
  have hcut := h.cutLoop (n := min n (length (s.bufs x))) hxy rfl
  have hlen : (a.bufs x).length = length (s.bufs x) := by
    rw [← h.contents, contents_length h.inv]
  have htake : (a.bufs x).take (min n (length (s.bufs x))) = (a.bufs x).take n := by
    rw [← hlen, ← List.take_take, List.take_length]
  have hdrop : (a.bufs x).drop (min n (length (s.bufs x))) = (a.bufs x).drop n := by
    rcases Nat.le_total n (length (s.bufs x)) with hle | hle
    · rw [Nat.min_eq_left hle]
    · rw [Nat.min_eq_right hle, List.drop_eq_nil_of_le hlen.le,
        List.drop_eq_nil_of_le (hlen.trans_le hle)]
  rw [htake, hdrop] at hcut
  exact hcut

end Cut

/-! ### `append_to` -/

section AppendTo

variable {s : State} {hand : List ℕ} {a : Spec} {x y : ℕ} {refs : List BlockRef}

/-- What is left to skip is less than the first reference. -/
def Skips (offset : ℕ) (refs : List BlockRef) : Prop := ∀ r ∈ refs.head?, offset < r.length

theorem skips_zero (hpos : ∀ r ∈ refs, 0 < r.length) : Skips 0 refs :=
  fun r hr => hpos r (List.mem_of_mem_head? hr)

theorem skipRefs_spec (pos : ℕ) (hpos : ∀ r ∈ refs, 0 < r.length)
    (hlen : ∀ r ∈ refs, (refBytes s r).length = r.length) :
    Skips (skipRefs pos refs).1 (skipRefs pos refs).2 ∧ (skipRefs pos refs).2 ⊆ refs ∧
      ((skipRefs pos refs).2.flatMap (refBytes s)).drop (skipRefs pos refs).1 =
        (refs.flatMap (refBytes s)).drop pos := by
  fun_induction skipRefs pos refs with
  | case1 pos => exact ⟨nofun, List.Subset.refl _, rfl⟩
  | case2 r rest => exact ⟨skips_zero hpos, List.Subset.refl _, rfl⟩
  | case3 pos r rest hne hlt =>
    refine ⟨fun r' hr' => ?_, List.Subset.refl _, rfl⟩
    obtain rfl := Option.some.inj hr'
    exact hlt
  | case4 pos r rest hne hle ih =>
    obtain ⟨hskips, hsub, hdrop⟩ := ih (fun r' hr' => hpos r' (List.mem_cons_of_mem r hr'))
      fun r' hr' => hlen r' (List.mem_cons_of_mem r hr')
    refine ⟨hskips, List.subset_cons_of_subset r hsub, ?_⟩
    have hr := hlen r List.mem_cons_self
    rw [hdrop, List.flatMap_cons, List.drop_append, hr,
      List.drop_eq_nil_of_le (hr.trans_le (not_lt.mp hle)), List.nil_append]

theorem refBytes_min {r : BlockRef} {k : Block} (hk : s.blocks r.block = some k) {m : ℕ} :
    refBytes s { r with length := min m r.length } = (refBytes s r).take m := by
  rw [refBytes_take hk (Nat.min_le_right m r.length), ← refBytes_length hk, ← List.take_take,
    List.take_length]

theorem Models.appendToLoop (hxy : x ≠ y) {m offset : ℕ} (hskips : Skips offset refs)
    (hrefs : ∀ r ∈ refs, r ∈ s.bufs x) (h : Models s hand a) :
    Models (appendToLoop y m offset refs s) hand
      (a.setBuf y (a.bufs y ++ ((refs.flatMap (refBytes s)).drop offset).take m)) := by
  induction refs generalizing m offset s a with
  | nil =>
    rw [List.flatMap_nil, List.drop_nil, List.take_nil, List.append_nil, Spec.setBuf_bufs]
    exact h
  | cons r rest ih =>
    rw [IOBuf.appendToLoop]
    split
    · rename_i hm
      rw [hm, List.take_zero, List.append_nil, Spec.setBuf_bufs]
      exact h
    · rename_i hm
      have hr := hrefs r List.mem_cons_self
      have hlt : offset < r.length := hskips r rfl
      obtain ⟨k, hk⟩ := h.inv.live_ref hr
      have hfits := h.inv.shape.refs x r hr k hk
      have hlen := refBytes_length hk
      generalize hnc : min m (r.length - offset) = nc
      have hk' : s.blocks (⟨r.offset + offset, nc, r.block⟩ : BlockRef).block = some k := hk
      have hpart : (⟨r.offset + offset, nc, r.block⟩ : BlockRef).Fits k := by
        have hend := hfits.2
        refine ⟨?_, ?_⟩
        · show 0 < nc
          omega
        · show r.offset + offset + nc ≤ k.size
          omega
      have hpush := h.pushBackRef (x := y) hk' hpart
      have hbytes : refBytes s ⟨r.offset + offset, nc, r.block⟩ =
          ((refBytes s r).drop offset).take m := by
        rw [← refBytes_drop hk hlt.le, ← hnc]
        exact refBytes_min (r := ⟨r.offset + offset, r.length - offset, r.block⟩) hk
      have hin : ∀ r' ∈ rest, r' ∈ (IOBuf.pushBackRef false y ⟨r.offset + offset, nc, r.block⟩
          s).bufs x := by
        intro r' hr'
        rw [pushBackRef_bufs_other hxy]
        exact hrefs r' (List.mem_cons_of_mem r hr')
      have hpos : ∀ r' ∈ rest, 0 < r'.length := by
        intro r' hr'
        obtain ⟨k', hk'⟩ := h.inv.live_ref (hrefs r' (List.mem_cons_of_mem r hr'))
        exact (h.inv.shape.refs x r' (hrefs r' (List.mem_cons_of_mem r hr')) k' hk').1
      have hrest := ih (m := m - nc) (skips_zero hpos) hin hpush
      have hsame : refBytes (IOBuf.pushBackRef false y ⟨r.offset + offset, nc, r.block⟩ s) =
          refBytes s :=
        funext fun r' => refBytes_pushBackRef (r := ⟨r.offset + offset, nc, r.block⟩) hk r'
      have htake : ((refBytes s r).drop offset).take m ++
          (rest.flatMap (refBytes s)).take (m - nc) =
            ((refBytes s r).drop offset ++ rest.flatMap (refBytes s)).take m := by
        rw [List.take_append, List.length_drop, hlen]
        congr 2
        omega
      rw [Spec.setBuf_self, Spec.setBuf_setBuf, hsame, hbytes, List.drop_zero, List.append_assoc,
        htake] at hrest
      rw [List.flatMap_cons, List.drop_append_of_le_length (hlt.le.trans_eq hlen.symm)]
      exact hrest

theorem Models.appendTo (h : Models s hand a) (hxy : x ≠ y) (n pos : ℕ) :
    Models (appendTo x y n pos s) hand
      (a.setBuf y (a.bufs y ++ ((a.bufs x).drop pos).take n)) := by
  have hlive : ∀ r ∈ s.bufs x, 0 < r.length ∧ (refBytes s r).length = r.length := by
    intro r hr
    obtain ⟨k, hk⟩ := h.inv.live_ref hr
    exact ⟨(h.inv.shape.refs x r hr k hk).1, refBytes_length hk⟩
  obtain ⟨hskips, hsub, hdrop⟩ := skipRefs_spec pos (fun r hr => (hlive r hr).1)
    fun r hr => (hlive r hr).2
  have hloop := h.appendToLoop (m := n) hxy hskips fun r hr => hsub hr
  have hbytes : (s.bufs x).flatMap (refBytes s) = a.bufs x := h.contents
  rw [hdrop, hbytes] at hloop
  exact hloop

end AppendTo

/-! ### `operator=`, `swap` and `append(Movable)` -/

section Move

variable {s : State} {hand : List ℕ} {a : Spec} {x y : ℕ} {refs : List BlockRef}

/-- All references are taken out of a buffer, and stay counted. -/
theorem Models.takeAll (h : Models s hand a) (x : ℕ) :
    Models (s.setBuf x []) ((s.bufs x).map BlockRef.block ++ hand) (a.setBuf x []) :=
  h.setBuf (h.inv.setBuf (List.Perm.refl _) nofun) rfl

/-- References are put into an empty buffer. -/
theorem Models.putAll (h : Models s (refs.map BlockRef.block ++ hand) a) (hempty : s.bufs x = [])
    (hrefs : ∀ r ∈ refs, ∀ k, s.blocks r.block = some k → r.Fits k) :
    Models (s.setBuf x refs) hand (a.setBuf x (refs.flatMap (refBytes s))) := by
  refine h.setBuf (h.inv.setBuf ?_ hrefs) rfl
  rw [hempty]
  exact List.Perm.refl _

theorem Models.permHand {hand' : List ℕ} (h : Models s hand a) (hperm : hand.Perm hand') :
    Models s hand' a := by
  refine ⟨⟨⟨h.inv.counted.tame, ?_, h.inv.counted.positive⟩, h.inv.shape⟩, h.spec⟩
  refine h.inv.counted.balanced.recount fun b => ?_
  rw [hperm.count_eq]

/-- Blocks of a buffer are counted once more. -/
theorem Models.incRefAll {bs : List ℕ} (h : Models s hand a)
    (hbufs : bs ⊆ (s.bufs y).map BlockRef.block) :
    Models (incRefAll s bs) (bs.reverse ++ hand) a ∧ Recounts s (incRefAll s bs) := by
  induction bs generalizing s hand with
  | nil => exact ⟨h, .refl s⟩
  | cons b bs ih =>
    obtain ⟨k, hk⟩ := h.inv.counted.live (Or.inl ⟨.buf y, hbufs List.mem_cons_self⟩)
    have hrecounts := incRef_recounts hk
    have hstep : Models (incRef s b) (b :: hand) a := h.recounts ⟨h.inv.incRef hk, hrecounts⟩
    have hrest : bs ⊆ ((incRef s b).bufs y).map BlockRef.block := by
      rw [incRef_bufs]
      exact fun c hc => hbufs (List.mem_cons_of_mem b hc)
    obtain ⟨hall, hrecounts'⟩ := ih hstep hrest
    rw [List.reverse_cons, List.append_assoc]
    exact ⟨hall, hrecounts.trans hrecounts'⟩

theorem incRefAll_setBuf {bs : List ℕ} :
    incRefAll (s.setBuf x refs) bs = (incRefAll s bs).setBuf x refs := by
  induction bs generalizing s with
  | nil => rfl
  | cons b bs ih =>
    show incRefAll (incRef (s.setBuf x refs) b) bs = (incRefAll (incRef s b) bs).setBuf x refs
    rw [incRef_setBuf, ih]

/-- References keep their bytes when blocks are counted anew, as long as the blocks are there. -/
theorem refBytes_recounts {s' : State} (hrecounts : Recounts s s') {r : BlockRef}
    (hlive : ∃ k, s'.blocks r.block = some k) : refBytes s' r = refBytes s r := by
  obtain ⟨k', hk'⟩ := hlive
  obtain ⟨k, hk, -, -, hkind⟩ := hrecounts.blocks r.block k' hk'
  refine refBytes_congr hrecounts.memory ?_
  rw [base_eq hk', base_eq hk, hkind]

theorem BlockRef.Fits.recounts {s' : State} (hrecounts : Recounts s s') {r : BlockRef}
    (hfits : ∀ k, s.blocks r.block = some k → r.Fits k) :
    ∀ k, s'.blocks r.block = some k → r.Fits k := by
  intro k' hk'
  obtain ⟨k, hk, hsize, -⟩ := hrecounts.blocks r.block k' hk'
  have hfit := hfits k hk
  exact ⟨hfit.1, hsize ▸ hfit.2⟩

theorem decRefAll_bufs {bs : List ℕ} : (decRefAll s bs).bufs = s.bufs := by
  induction bs generalizing s with
  | nil => rfl
  | cons b bs ih =>
    show (decRefAll (decRef s b) bs).bufs = s.bufs
    rw [ih, decRef_bufs]

theorem Models.assign (h : Models s hand a) (x y : ℕ) :
    Models (assign x y s) hand (a.setBuf x (a.bufs y)) := by
  rw [IOBuf.assign]
  split
  · rename_i hxy
    rw [← hxy, Spec.setBuf_bufs]
    exact h
  · rename_i hxy
    have hclear : Models (IOBuf.clear x s) hand (a.setBuf x []) := h.clear
    have hempty : (IOBuf.clear x s).bufs x = [] := by
      rw [IOBuf.clear, decRefAll_bufs, State.setBuf_self]
    obtain ⟨hcounted, hrecounts⟩ := hclear.incRefAll (List.Subset.refl
      (((IOBuf.clear x s).bufs y).map BlockRef.block))
    have hput := (hcounted.permHand ((List.reverse_perm _).append_right hand)).putAll (x := x)
      (congrFun hrecounts.bufs x ▸ hempty) fun r hr =>
        BlockRef.Fits.recounts hrecounts (hclear.inv.shape.refs y r hr)
    have hbytes := (hcounted.contents (x := y)).trans (Spec.setBuf_of_ne hxy)
    rw [IOBuf.contents, hrecounts.bufs] at hbytes
    rw [hbytes, Spec.setBuf_setBuf] at hput
    dsimp only
    rw [incRefAll_setBuf]
    exact hput

theorem setBuf_setBuf {refs' : List BlockRef} :
    (s.setBuf x refs).setBuf x refs' = s.setBuf x refs' := by
  rw [State.setBuf, State.setBuf, State.setBuf, Function.update_idem]

/-- Both buffers are emptied, and each is given what the other one had. -/
theorem swap_eq (hxy : x ≠ y) :
    swap x y s = (((s.setBuf x []).setBuf y []).setBuf x (s.bufs y)).setBuf y (s.bufs x) := by
  rw [swap, ← setBuf_comm hxy, setBuf_setBuf, setBuf_setBuf]

theorem Models.swap (h : Models s hand a) (x y : ℕ) :
    Models (swap x y s) hand ((a.setBuf x (a.bufs y)).setBuf y (a.bufs x)) := by
  by_cases hxy : x = y
  · subst hxy
    have hself : IOBuf.swap x x s = s := by
      rw [IOBuf.swap, setBuf_setBuf, State.setBuf, Function.update_eq_self]
    rw [hself, Spec.setBuf_setBuf, Spec.setBuf_bufs]
    exact h
  · have hboth := (h.takeAll x).takeAll y
    rw [State.setBuf_of_ne s (Ne.symm hxy)] at hboth
    have hempty : ((s.setBuf x []).setBuf y []).bufs x = [] := by
      rw [State.setBuf_of_ne _ hxy, State.setBuf_self]
    have hx := hboth.putAll (x := x) hempty fun r hr => h.inv.shape.refs y r hr
    have hempty' : (((s.setBuf x []).setBuf y []).setBuf x (s.bufs y)).bufs y = [] := by
      rw [State.setBuf_of_ne _ (Ne.symm hxy), State.setBuf_self]
    have hy := hx.putAll (x := y) hempty' fun r hr => h.inv.shape.refs x r hr
    have hbytesx : (s.bufs x).flatMap (refBytes s) = a.bufs x := h.contents
    have hbytesy : (s.bufs y).flatMap (refBytes s) = a.bufs y := h.contents
    rw [← swap_eq hxy] at hy
    have hspec : ((((a.setBuf x []).setBuf y []).setBuf x (a.bufs y)).setBuf y (a.bufs x)) =
        (a.setBuf x (a.bufs y)).setBuf y (a.bufs x) := Spec.setBuf_pair (Ne.symm hxy)
    rw [← hspec, ← hbytesx, ← hbytesy]
    exact hy

/-- `_move_back_ref`, and what it leaves as it was. -/
theorem Inv.moveBackRef_recounts {r : BlockRef} {k : Block} (h : Inv s (r.block :: hand))
    (hk : s.blocks r.block = some k) (hr : r.Fits k) :
    ∃ refs, Recounts (s.setBuf x refs) (IOBuf.pushBackRef true x r s) := by
  rcases pushBackRef_cases true x r s with ⟨back, hends, heq⟩ | heq
  · rw [heq]
    exact ⟨_, (h.merge hends (hr.of_live hk)).decRef.2⟩
  · rw [heq]
    exact ⟨_, .refl _⟩

theorem Models.moveAll (h : Models s (refs.map BlockRef.block ++ hand) a)
    (hrefs : ∀ r ∈ refs, ∀ k, s.blocks r.block = some k → r.Fits k) :
    Models (refs.foldl (fun s r => IOBuf.pushBackRef true x r s) s) hand
      (a.setBuf x (a.bufs x ++ refs.flatMap (refBytes s))) := by
  induction refs generalizing s a with
  | nil =>
    rw [List.flatMap_nil, List.append_nil, Spec.setBuf_bufs]
    exact h
  | cons r refs ih =>
    obtain ⟨k, hk⟩ := h.inv.counted.live (b := r.block) (Or.inr List.mem_cons_self)
    have hfits := hrefs r List.mem_cons_self k hk
    have hmove := Models.moveBackRef (x := x) h hk hfits
    obtain ⟨refs', hrecounts⟩ := Inv.moveBackRef_recounts (x := x) h.inv hk hfits
    have hall := ih hmove fun r' hr' =>
      BlockRef.Fits.recounts hrecounts (hrefs r' (List.mem_cons_of_mem r hr'))
    -- the references that are still in the hand have their blocks
    have hbytes : refs.flatMap (refBytes (IOBuf.pushBackRef true x r s)) =
        refs.flatMap (refBytes s) := by
      refine List.flatMap_congr fun r' hr' => refBytes_recounts hrecounts ?_
      exact hmove.inv.counted.live
        (Or.inr (List.mem_append_left _ (List.mem_map_of_mem hr')))
    rw [hbytes, Spec.setBuf_self, Spec.setBuf_setBuf, List.append_assoc] at hall
    exact hall

theorem foldl_pushBackRef_setBuf (hxy : x ≠ y) {refs' : List BlockRef} :
    refs'.foldl (fun s r => pushBackRef true x r s) (s.setBuf y refs) =
      (refs'.foldl (fun s r => pushBackRef true x r s) s).setBuf y refs := by
  induction refs' generalizing s with
  | nil => rfl
  | cons r refs' ih => rw [List.foldl_cons, List.foldl_cons, pushBackRef_setBuf hxy.symm, ih]

theorem Models.appendMovable (h : Models s hand a) (hxy : x ≠ y) :
    Models (appendMovable x y s) hand ((a.setBuf x (a.bufs x ++ a.bufs y)).setBuf y []) := by
  rw [IOBuf.appendMovable]
  split
  · rename_i hempty
    have hnil : a.bufs x = [] := by
      rw [← h.contents, IOBuf.contents, hempty, List.flatMap_nil]
    have hswap := h.swap x y
    rw [hnil] at hswap
    rw [hnil, List.nil_append]
    exact hswap
  · have hmove := (h.takeAll y).moveAll (x := x) fun r hr => h.inv.shape.refs y r hr
    have hbytes : (s.bufs y).flatMap (refBytes s) = a.bufs y := h.contents
    rw [foldl_pushBackRef_setBuf hxy, Spec.setBuf_of_ne hxy.symm] at hmove
    rw [← Spec.setBuf_comm hxy.symm, ← hbytes]
    exact hmove

/-! ### `resize` -/

theorem Models.resize {cap t : ℕ} (hcap : 0 < cap) (h : Models s hand a) (x n : ℕ) (c : UInt8) :
    Models (resize cap t x n c s) hand
      (a.setBuf x ((a.bufs x).take n ++ List.replicate (n - (a.bufs x).length) c)) := by
  have hlen : (a.bufs x).length = length (s.bufs x) := by
    rw [← h.contents, contents_length h.inv]
  rw [IOBuf.resize, ← hlen]
  split
  · rename_i hlt
    have hpop := h.popBack (x := x) ((a.bufs x).length - n)
    rw [List.rdrop, Nat.sub_sub_self hlt.le] at hpop
    rw [Nat.sub_eq_zero_of_le hlt.le, List.replicate_zero, List.append_nil]
    exact hpop
  · rename_i hle
    rw [List.take_of_length_le (not_lt.mp hle)]
    exact h.appendLoop hcap _ (List.length_replicate ..).le

end Move

/-! ### Runs -/

section Runs

variable {s s' : State} {hand : List ℕ} {a : Spec} {cap : ℕ}

theorem Models.op {o : Op} (hcap : 0 < cap) (h : Models s hand a) (hs : op cap s o = some s') :
    Models s' hand (a.op o) := by
  cases o with
  | call l => exact h.step hcap hs
  | popBack x n =>
    obtain rfl := Option.some.inj hs
    exact h.popBack n
  | cutn x y n =>
    obtain ⟨hxy, hs⟩ := Option.ite_none_right_eq_some.mp hs
    obtain rfl := Option.some.inj hs
    exact h.cutn hxy n
  | appendTo x y n pos =>
    obtain ⟨hxy, hs⟩ := Option.ite_none_right_eq_some.mp hs
    obtain rfl := Option.some.inj hs
    exact h.appendTo hxy n pos
  | assign x y =>
    obtain rfl := Option.some.inj hs
    exact h.assign x y
  | appendMovable x y =>
    obtain ⟨hxy, hs⟩ := Option.ite_none_right_eq_some.mp hs
    obtain rfl := Option.some.inj hs
    exact h.appendMovable hxy
  | swap x y =>
    obtain rfl := Option.some.inj hs
    exact h.swap x y
  | resize t x n c =>
    obtain rfl := Option.some.inj hs
    exact h.resize hcap x n c

theorem Models.opRun (hcap : 0 < cap) {os : List Op}
    (hrun : StepSystem.run (IOBuf.op cap) init os = some s) :
    Models s [] (os.foldl Spec.op Spec.init) := by
  refine StepSystem.run_induction (R := fun os s => Models s [] (os.foldl Spec.op Spec.init))
    models_init (fun os m o m' hm ho => ?_) hrun
  rw [List.foldl_concat]
  exact hm.op hcap ho

/-- **The calls on buffers are what they look like on sequences of bytes.**  In every run of reads,
appends, cuts, copies and moves, on any threads, the buffers are the sequences that the calls make
of them, no block is used after it was freed, the count of a block is the number of the references
that there are to it, and it is allocated exactly as long as somebody refers to it.  Cutting a
buffer in two and moving the rest behind what was cut off gives its bytes back. -/
theorem cut_buffers (hcap : 0 < cap) {os : List Op}
    (hrun : StepSystem.run (IOBuf.op cap) init os = some s) :
    s.spec = os.foldl Spec.op Spec.init ∧ s.bad = false ∧
    (∀ b, s.refs b = RefCount.total s.held b) ∧ (∀ b, (s.blocks b).isSome ↔ s.Refers b) ∧
    ∀ x y n, x ≠ y → s.bufs y = [] →
      contents (appendMovable y x (cutn x y n s)) y = contents s x ∧
      contents (appendMovable y x (cutn x y n s)) x = [] := by
  have h := Models.opRun hcap hrun
  refine ⟨h.spec, h.inv.counted.tame, fun b => ?_, h.inv.isSome_iff, fun x y n hxy hempty => ?_⟩
  · exact h.inv.counted.balanced.count b
  · have hnil : (os.foldl Spec.op Spec.init).bufs y = [] := by
      rw [← h.contents, contents, hempty, List.flatMap_nil]
    have hback := (h.cutn hxy n).appendMovable hxy.symm
    refine ⟨?_, hback.contents.trans (Spec.setBuf_self ..)⟩
    rw [hback.contents, h.contents, Spec.setBuf_of_ne hxy, Spec.setBuf_self, Spec.setBuf_self,
      Spec.setBuf_of_ne hxy, Spec.setBuf_self, hnil, List.nil_append, List.take_append_drop]

/-- The block of the buffer `0` is cut in two, the second half is assigned, overwritten and moved;
a received block is cut off from the end of another buffer. -/
theorem cut_buffers_shared_block :
    ∃ s, StepSystem.run (IOBuf.op 8) init
        [.call (.append 0 0 [1, 2, 3, 4, 5]), .cutn 0 1 2, .assign 2 0, .assign 0 1,
          .call (.suspend 0 0 3), .call (.complete 0 2 [9, 8]), .call (.resume 0),
          .appendTo 2 3 2 1, .popBack 3 1, .appendMovable 0 3, .resize 0 1 4 7,
          .swap 1 2] = some s ∧
      contents s 0 = [1, 2, 9, 8, 4] ∧ contents s 1 = [3, 4, 5] ∧ contents s 2 = [1, 2, 7, 7] ∧
      contents s 3 = [] ∧ s.refs 0 = RefCount.total s.held 0 ∧
      contents (appendMovable 3 0 (cutn 0 3 3 s)) 3 = contents s 0 := by
  have hrun : ∃ s, StepSystem.run (IOBuf.op 8) init
      [.call (.append 0 0 [1, 2, 3, 4, 5]), .cutn 0 1 2, .assign 2 0, .assign 0 1,
        .call (.suspend 0 0 3), .call (.complete 0 2 [9, 8]), .call (.resume 0), .appendTo 2 3 2 1,
        .popBack 3 1, .appendMovable 0 3, .resize 0 1 4 7, .swap 1 2] = some s ∧
      (contents s 0 = [1, 2, 9, 8, 4] ∧ contents s 1 = [3, 4, 5] ∧ contents s 2 = [1, 2, 7, 7] ∧
        contents s 3 = [] ∧ s.bufs 3 = []) :=
    StepSystem.exists_of_run_any (by decide +kernel)
  obtain ⟨s, hs, h0, h1, h2, h3, hempty⟩ := hrun
  obtain ⟨-, -, hrefs, -, hcut⟩ := cut_buffers (by decide) hs
  exact ⟨s, hs, h0, h1, h2, h3, hrefs 0, (hcut 0 3 3 (by decide) hempty).1⟩

end Runs

end IOBuf
