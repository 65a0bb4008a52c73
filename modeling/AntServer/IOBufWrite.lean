/-
`IOBufWriteAwaiter` (`awaiter/socket_awaiter.hpp`): the kernel writes from the blocks of a buffer.

The constructor takes the addresses of the blocks, at most `kMaxIovCount` of them, and
`await_suspend` hands them to the kernel, which reads the bytes at some later time.  In between
other reads complete into blocks that the buffer shares, other buffers are appended to, cut and
cleared, and blocks are freed.

* `initIov`, `awaitReady`, `Submission` — the awaiter;
* `Undisturbed x s s'` — from `s` to `s'` no step changed the buffer `x`: its references and where
  they point to are the same.  Each function on another buffer is of that kind;
* `write_stable` — **the kernel finds the bytes of the buffer at the addresses, whenever it looks**.
-/
import AntServer.IOBufCut

namespace IOBuf

/-! ### The awaiter -/

/-- A `struct iovec`: `iov_base` is an address in the memory of the block `block`. -/
structure Iovec where
  block : ℕ
  offset : ℕ
  len : ℕ
deriving DecidableEq, Repr

def kMaxIovCount : ℕ := 64

/-- `backing_block(i)`, for the `i`-th reference `r`. -/
def backingBlock (s : State) (r : BlockRef) : Option Iovec :=
  (s.base r.block).map fun p => ⟨p.1, p.2 + r.offset, r.length⟩

/-- The loop of `init_iov`, with `iovs_` and `total_len_`. -/
def initLoop (s : State) : List BlockRef → List Iovec → ℕ → Option (List Iovec × ℕ)
  | [], iovs, total => some (iovs, total)
  | r :: refs, iovs, total => do
    let iov ← backingBlock s r
    initLoop s refs (iovs ++ [iov]) (total + iov.len)

structure WriteAwaiter where
  iovs : List Iovec
  totalLen : ℕ
deriving DecidableEq, Repr

def initIov (s : State) (x : ℕ) : Option WriteAwaiter := do
  let iovCount := min (s.bufs x).length kMaxIovCount
  let (iovs, total) ← initLoop s ((s.bufs x).take iovCount) [] 0
  some ⟨iovs, total⟩

def WriteAwaiter.awaitReady (w : WriteAwaiter) : Bool := w.totalLen = 0

inductive Submission
  | write (iov : Iovec)
  | writev (iovs : List Iovec)
deriving DecidableEq, Repr

/-- What `await_suspend` submits. -/
def WriteAwaiter.submit (w : WriteAwaiter) : Submission :=
  match w.iovs with
  | [iov] => .write iov
  | iovs => .writev iovs

def Submission.iovs : Submission → List Iovec
  | .write iov => [iov]
  | .writev iovs => iovs

/-- The bytes that the kernel finds at the addresses. -/
def Submission.bytes (memory : ℕ → ℕ → UInt8) (w : Submission) : List UInt8 :=
  w.iovs.flatMap fun iov => slice memory iov.block iov.offset iov.len

/-! ### Steps that leave a buffer as it is -/

structure Undisturbed (x : ℕ) (s s' : State) : Prop where
  buf : s'.bufs x = s.bufs x
  fresh : s.fresh ≤ s'.fresh
  kinds : ∀ b k', b < s.fresh → s'.blocks b = some k' →
    ∃ k, s.blocks b = some k ∧ k'.kind = k.kind

namespace Undisturbed

variable {x y b t : ℕ} {s s' s'' : State} {k : Block} {refs : List BlockRef}

theorem refl (x : ℕ) (s : State) : Undisturbed x s s :=
  ⟨rfl, le_rfl, fun _ k' _ hk' => ⟨k', hk', rfl⟩⟩

theorem trans (h : Undisturbed x s s') (h' : Undisturbed x s' s'') : Undisturbed x s s'' where
  buf := h'.buf.trans h.buf
  fresh := h.fresh.trans h'.fresh
  kinds b k'' hb hk'' := by
    obtain ⟨k', hk', hkind'⟩ := h'.kinds b k'' (hb.trans_le h.fresh) hk''
    obtain ⟨k, hk, hkind⟩ := h.kinds b k' hb hk'
    exact ⟨k, hk, hkind'.trans hkind⟩

/-- A step that changes no block. -/
theorem of_blocks (hblocks : s'.blocks = s.blocks) (hfresh : s'.fresh = s.fresh)
    (hbuf : s'.bufs x = s.bufs x) : Undisturbed x s s' :=
  ⟨hbuf, hfresh.ge, fun _ k' _ hk' => ⟨k', hblocks ▸ hk', rfl⟩⟩

theorem setBuf (hxy : x ≠ y) : Undisturbed x s (s.setBuf y refs) :=
  of_blocks rfl rfl (State.setBuf_of_ne s hxy refs)

/-- A block is freed, or changed in its count or size. -/
theorem setBlock (hk : s.blocks b = some k) {o : Option Block}
    (ho : ∀ k', o = some k' → k'.kind = k.kind) : Undisturbed x s (s.setBlock b o) := by
  refine ⟨rfl, le_rfl, fun c k' _ hk' => ?_⟩
  rcases s.setBlock_cases hk' with ⟨rfl, hnew⟩ | ⟨-, hk'⟩
  · exact ⟨k, hk, ho k' hnew⟩
  · exact ⟨k', hk', rfl⟩

/-- A new block. -/
theorem allocate {k : Block} :
    Undisturbed x s { s.setBlock s.fresh (some k) with fresh := s.fresh + 1 } := by
  refine ⟨rfl, Nat.le_succ _, fun c k' hc hk' => ?_⟩
  have hold : (s.setBlock s.fresh (some k)).blocks c = some k' := hk'
  rw [State.setBlock_of_ne s hc.ne] at hold
  exact ⟨k', hold, rfl⟩

theorem write (b offset : ℕ) (data : List UInt8) : Undisturbed x s (s.write b offset data) :=
  of_blocks rfl rfl rfl

theorem incRef (b : ℕ) : Undisturbed x s (incRef s b) := by
  rw [IOBuf.incRef]
  split
  · exact of_blocks rfl rfl rfl
  · rename_i k hk
    refine setBlock hk fun k' hk' => ?_
    obtain rfl := Option.some.inj hk'
    rfl

theorem decRefOnce (b : ℕ) : Undisturbed x s (decRefOnce s b).1 := by
  rw [IOBuf.decRefOnce]
  split
  · exact of_blocks rfl rfl rfl
  · rename_i k hk
    split
    · exact setBlock hk fun k' hk' => by cases hk'
    · refine setBlock hk fun k' hk' => ?_
      obtain rfl := Option.some.inj hk'
      rfl

theorem decRef (b : ℕ) : Undisturbed x s (decRef s b) := by
  have hone := decRefOnce (x := x) (s := s) b
  rw [IOBuf.decRef]
  split
  · rename_i s' heq
    rwa [heq] at hone
  · rename_i s' target heq
    rw [heq] at hone
    exact hone.trans (decRefOnce target)

theorem decRefAll (bs : List ℕ) : Undisturbed x s (decRefAll s bs) := by
  induction bs generalizing s with
  | nil => exact refl x s
  | cons b bs ih => exact (decRef b).trans ih

theorem incRefAll (bs : List ℕ) : Undisturbed x s (incRefAll s bs) := by
  induction bs generalizing s with
  | nil => exact refl x s
  | cons b bs ih => exact (incRef b).trans ih

theorem dropFull (t : ℕ) (chain : List ℕ) : Undisturbed x s (dropFull t chain s) := by
  induction chain generalizing s with
  | nil => exact refl x s
  | cons b rest ih =>
    rw [IOBuf.dropFull]
    split
    · have htls : Undisturbed x s (s.setTls t rest) := of_blocks rfl rfl rfl
      exact (htls.trans (decRef b)).trans ih
    · exact refl x s

theorem acquireTlsBlock (cap t : ℕ) : Undisturbed x s (acquireTlsBlock cap t s).1 := by
  have hdrop := dropFull (x := x) (s := s) t (s.tls t)
  rw [IOBuf.acquireTlsBlock]
  split
  · exact hdrop.trans allocate
  · exact hdrop.trans (of_blocks rfl rfl rfl)

theorem shareTlsBlock (cap t : ℕ) : Undisturbed x s (shareTlsBlock cap t s).1 := by
  have hdrop := dropFull (x := x) (s := s) t (s.tls t)
  rw [IOBuf.shareTlsBlock]
  split
  · exact (hdrop.trans allocate).trans (of_blocks rfl rfl rfl)
  · exact hdrop

theorem pushBackRef {move : Bool} {r : BlockRef} (hxy : x ≠ y) :
    Undisturbed x s (pushBackRef move y r s) := by
  rcases pushBackRef_cases move y r s with ⟨back, -, heq⟩ | heq
  · rw [heq]
    cases move with
    | false => exact setBuf hxy
    | true => exact (setBuf hxy).trans (decRef r.block)
  · rw [heq]
    cases move with
    | false => exact (setBuf hxy).trans (incRef r.block)
    | true => exact setBuf hxy

theorem foldl_pushBackRef {move : Bool} (hxy : x ≠ y) (refs : List BlockRef) :
    Undisturbed x s (refs.foldl (fun s r => IOBuf.pushBackRef move y r s) s) := by
  induction refs generalizing s with
  | nil => exact refl x s
  | cons r refs ih => exact (pushBackRef hxy).trans ih

theorem grow (b n : ℕ) : Undisturbed x s (grow b n s) := by
  rw [IOBuf.grow]
  split
  · exact of_blocks rfl rfl rfl
  · rename_i k hk
    refine setBlock hk fun k' hk' => ?_
    obtain rfl := Option.some.inj hk'
    rfl

theorem appendLoop (cap t : ℕ) (hxy : x ≠ y) (fuel : ℕ) (data : List UInt8) :
    Undisturbed x s (appendLoop cap t y fuel data s) := by
  induction fuel generalizing s data with
  | zero => exact refl x s
  | succ fuel ih =>
    cases data with
    | nil => exact refl x s
    | cons byte data =>
      have hshare := shareTlsBlock (x := x) (s := s) cap t
      unfold IOBuf.appendLoop
      dsimp only
      split
      · exact hshare.trans (of_blocks rfl rfl rfl)
      · rename_i k hk
        refine hshare.trans (Undisturbed.trans ?_ (ih _))
        exact (write _ _ _).trans ((pushBackRef hxy).trans (grow _ _))

theorem appendUserData (hxy : x ≠ y) (target start size : ℕ) :
    Undisturbed x s (appendUserData y target start size s) := by
  rw [IOBuf.appendUserData]
  split
  · exact decRef target
  · exact allocate.trans (pushBackRef hxy)

theorem clear (hxy : x ≠ y) : Undisturbed x s (clear y s) := (setBuf hxy).trans (decRefAll _)

theorem popFront (hxy : x ≠ y) (n : ℕ) : Undisturbed x s (popFront y n s) := by
  rw [IOBuf.popFront]
  split
  · exact clear hxy
  · exact (setBuf hxy).trans (decRefAll _)

theorem popBack (hxy : x ≠ y) (n : ℕ) : Undisturbed x s (popBack y n s) := by
  rw [IOBuf.popBack]
  split
  · exact clear hxy
  · exact (setBuf hxy).trans (decRefAll _)

theorem cutLoop {z : ℕ} (hxz : x ≠ z) (hxy : x ≠ y) (n : ℕ) (refs : List BlockRef) :
    Undisturbed x s (cutLoop z y n refs s) := by
  induction refs generalizing s n with
  | nil => exact refl x s
  | cons r rest ih =>
    rw [IOBuf.cutLoop]
    split
    · exact refl x s
    · split
      · exact ((pushBackRef hxy).trans (setBuf hxz)).trans (ih _)
      · exact (pushBackRef hxy).trans (setBuf hxz)

theorem appendToLoop (hxy : x ≠ y) (m offset : ℕ) (refs : List BlockRef) :
    Undisturbed x s (appendToLoop y m offset refs s) := by
  induction refs generalizing s m offset with
  | nil => exact refl x s
  | cons r rest ih =>
    rw [IOBuf.appendToLoop]
    split
    · exact refl x s
    · exact (pushBackRef hxy).trans (ih _ _)

theorem assign (hxy : x ≠ y) (z : ℕ) : Undisturbed x s (assign y z s) := by
  rw [IOBuf.assign]
  split
  · exact refl x s
  · exact ((clear hxy).trans (setBuf hxy)).trans (incRefAll _)

theorem swap {z : ℕ} (hxy : x ≠ y) (hxz : x ≠ z) : Undisturbed x s (swap y z s) :=
  (setBuf hxy).trans (setBuf hxz)

theorem appendMovable {z : ℕ} (hxy : x ≠ y) (hxz : x ≠ z) :
    Undisturbed x s (appendMovable y z s) := by
  rw [IOBuf.appendMovable]
  split
  · exact swap hxy hxz
  · exact (foldl_pushBackRef hxy _).trans (setBuf hxz)

theorem resize (cap t : ℕ) (hxy : x ≠ y) (n : ℕ) (c : UInt8) :
    Undisturbed x s (resize cap t y n c s) := by
  rw [IOBuf.resize]
  split
  · exact popBack hxy _
  · exact appendLoop cap t hxy _ _

theorem awaitSuspend (cap t i y : ℕ) : Undisturbed x s (awaitSuspend cap t i y s) := by
  have hacquire := acquireTlsBlock (x := x) (s := s) cap t
  rw [IOBuf.awaitSuspend]
  split
  rename_i s' b heq
  rw [heq] at hacquire
  split
  · exact hacquire.trans (of_blocks rfl rfl rfl)
  · exact hacquire.trans (of_blocks rfl rfl rfl)

theorem complete {i : ℕ} {res : ℤ} {data : List UInt8} (h : complete i res data s = some s') :
    Undisturbed x s s' := by
  rw [IOBuf.complete] at h
  split at h
  · split at h
    · split at h
      · obtain rfl := Option.some.inj h
        exact of_blocks rfl rfl rfl
      · obtain rfl := Option.some.inj h
        exact of_blocks rfl rfl rfl
    · cases h
  · cases h

theorem awaitResume {i : ℕ} (h : awaitResume i s = some s')
    (hbuf : ∀ r, s.reads i = some r → x ≠ r.buf) : Undisturbed x s s' := by
  have hread : Undisturbed x s (s.setRead i none) := of_blocks rfl rfl rfl
  rw [IOBuf.awaitResume] at h
  split at h
  · rename_i b start room y res bytes hi
    have hxy : x ≠ y := hbuf _ hi
    dsimp only at h
    split at h
    · split at h
      · obtain rfl := Option.some.inj h
        exact hread.trans (of_blocks rfl rfl rfl)
      · obtain rfl := Option.some.inj h
        exact ((hread.trans (incRef b)).trans (appendUserData hxy _ _ _)).trans (decRef b)
    · obtain rfl := Option.some.inj h
      exact hread.trans (decRef b)
  · cases h

end Undisturbed

/-- The call leaves the buffer `x` as it is. -/
def Op.Spares (x : ℕ) (s : State) : Op → Prop
  | .call (.resume i) => ∀ r ∈ s.reads i, x ≠ r.buf
  | .call (.append _ y _) => x ≠ y
  | .call (.appendBuf y _) => x ≠ y
  | .call (.popFront y _) => x ≠ y
  | .call (.clear y) => x ≠ y
  | .call _ => True
  | .popBack y _ => x ≠ y
  | .cutn y z _ => x ≠ y ∧ x ≠ z
  | .appendTo _ y _ _ => x ≠ y
  | .assign y _ => x ≠ y
  | .appendMovable y z => x ≠ y ∧ x ≠ z
  | .swap y z => x ≠ y ∧ x ≠ z
  | .resize _ y _ _ => x ≠ y

instance (x : ℕ) (s : State) : ∀ o : Op, Decidable (o.Spares x s)
  | .call (.resume i) => inferInstanceAs (Decidable (∀ r ∈ s.reads i, x ≠ r.buf))
  | .call (.append _ y _) => inferInstanceAs (Decidable (x ≠ y))
  | .call (.appendBuf y _) => inferInstanceAs (Decidable (x ≠ y))
  | .call (.popFront y _) => inferInstanceAs (Decidable (x ≠ y))
  | .call (.clear y) => inferInstanceAs (Decidable (x ≠ y))
  | .call (.suspend _ _ _) => .isTrue trivial
  | .call (.complete _ _ _) => .isTrue trivial
  | .call (.exit _) => .isTrue trivial
  | .popBack y _ => inferInstanceAs (Decidable (x ≠ y))
  | .cutn y z _ => inferInstanceAs (Decidable (x ≠ y ∧ x ≠ z))
  | .appendTo _ y _ _ => inferInstanceAs (Decidable (x ≠ y))
  | .assign y _ => inferInstanceAs (Decidable (x ≠ y))
  | .appendMovable y z => inferInstanceAs (Decidable (x ≠ y ∧ x ≠ z))
  | .swap y z => inferInstanceAs (Decidable (x ≠ y ∧ x ≠ z))
  | .resize _ y _ _ => inferInstanceAs (Decidable (x ≠ y))

section Runs

variable {s s' : State} {x cap : ℕ}

theorem Undisturbed.step {l : Label} (hs : step cap s l = some s') (hx : (Op.call l).Spares x s) :
    Undisturbed x s s' := by
  cases l with
  | suspend t i y =>
    obtain ⟨-, hs⟩ := Option.ite_none_right_eq_some.mp hs
    obtain rfl := Option.some.inj hs
    exact .awaitSuspend cap t i y
  | complete i res data => exact .complete hs
  | resume i => exact .awaitResume hs hx
  | append t y data =>
    obtain rfl := Option.some.inj hs
    exact .appendLoop cap t hx _ _
  | appendBuf y z =>
    obtain ⟨-, hs⟩ := Option.ite_none_right_eq_some.mp hs
    obtain rfl := Option.some.inj hs
    exact .foldl_pushBackRef hx _
  | popFront y n =>
    obtain rfl := Option.some.inj hs
    exact .popFront hx n
  | clear y =>
    obtain rfl := Option.some.inj hs
    exact .clear hx
  | exit t =>
    obtain rfl := Option.some.inj hs
    have htls : Undisturbed x s (s.setTls t []) := .of_blocks rfl rfl rfl
    exact htls.trans (.decRefAll _)

theorem Undisturbed.op {o : Op} (hs : op cap s o = some s') (hx : o.Spares x s) :
    Undisturbed x s s' := by
  cases o with
  | call l => exact .step hs hx
  | popBack y n =>
    obtain rfl := Option.some.inj hs
    exact .popBack hx n
  | cutn y z n =>
    obtain ⟨-, hs⟩ := Option.ite_none_right_eq_some.mp hs
    obtain rfl := Option.some.inj hs
    exact .cutLoop hx.1 hx.2 _ _
  | appendTo y z n pos =>
    obtain ⟨-, hs⟩ := Option.ite_none_right_eq_some.mp hs
    obtain rfl := Option.some.inj hs
    exact .appendToLoop hx _ _ _
  | assign y z =>
    obtain rfl := Option.some.inj hs
    exact .assign hx z
  | appendMovable y z =>
    obtain ⟨-, hs⟩ := Option.ite_none_right_eq_some.mp hs
    obtain rfl := Option.some.inj hs
    exact .appendMovable hx.1 hx.2
  | swap y z =>
    obtain rfl := Option.some.inj hs
    exact .swap hx.1 hx.2
  | resize t y n c =>
    obtain rfl := Option.some.inj hs
    exact .resize cap t hx n c

/-- **A run in which every call spares the buffer leaves it undisturbed.** -/
theorem Undisturbed.run {os : List Op} (hrun : StepSystem.run (IOBuf.op cap) s os = some s')
    (hx : StepSystem.Meets (IOBuf.op cap) (fun s o => o.Spares x s) s os) :
    Undisturbed x s s' := by
  refine StepSystem.run_invariant_of_meets (I := Undisturbed x s) ?_ (.refl x s) hx hrun
  exact fun m o m' hm ho hstep => hm.trans (.op hstep ho)

end Runs

/-! ### What the kernel finds -/

section Write

variable {s s' : State} {x cap : ℕ}

theorem WriteAwaiter.submit_iovs (w : WriteAwaiter) : w.submit.iovs = w.iovs := by
  rw [WriteAwaiter.submit]
  split
  · rename_i iov hiovs
    rw [hiovs]
    rfl
  · rfl

/-- The addresses of a buffer's blocks. -/
theorem initLoop_spec {refs : List BlockRef} (hlive : ∀ r ∈ refs, ∃ k, s.blocks r.block = some k)
    (iovs : List Iovec) (total : ℕ) :
    ∃ iovs', initLoop s refs iovs total = some (iovs ++ iovs', total + length refs) ∧
      iovs'.map some = refs.map (backingBlock s) := by
  induction refs generalizing iovs total with
  | nil =>
    refine ⟨[], ?_, rfl⟩
    rw [List.append_nil]
    rfl
  | cons r refs ih =>
    obtain ⟨k, hk⟩ := hlive r List.mem_cons_self
    have hblock : backingBlock s r =
        some ⟨(k.kind.base r.block).1, (k.kind.base r.block).2 + r.offset, r.length⟩ := by
      rw [backingBlock, base_eq hk]
      rfl
    obtain ⟨iovs', hloop, hmap⟩ := ih (fun r' hr' => hlive r' (List.mem_cons_of_mem r hr'))
      (iovs ++ [⟨(k.kind.base r.block).1, (k.kind.base r.block).2 + r.offset, r.length⟩])
      (total + r.length)
    refine ⟨⟨(k.kind.base r.block).1, (k.kind.base r.block).2 + r.offset, r.length⟩ :: iovs',
      ?_, ?_⟩
    · rw [initLoop, hblock, Option.bind_eq_bind, Option.bind_some, hloop, List.append_assoc]
      rw [length_cons, ← Nat.add_assoc]
      rfl
    · rw [List.map_cons, List.map_cons, hmap, hblock]

/-- The bytes at the addresses are those of the references, where these point to the same place. -/
theorem bytes_eq {refs : List BlockRef} {iovs : List Iovec}
    (hiovs : iovs.map some = refs.map (backingBlock s))
    (hbase : ∀ r ∈ refs, s'.base r.block = s.base r.block) :
    iovs.flatMap (fun iov => slice s'.memory iov.block iov.offset iov.len) =
      refs.flatMap (refBytes s') := by
  induction refs generalizing iovs with
  | nil =>
    rw [List.map_nil, List.map_eq_nil_iff] at hiovs
    rw [hiovs]
    rfl
  | cons r refs ih =>
    cases iovs with
    | nil => cases hiovs
    | cons iov iovs =>
      rw [List.map_cons, List.map_cons, List.cons.injEq] at hiovs
      obtain ⟨hiov, hiovs⟩ := hiovs
      obtain ⟨p, hp, rfl⟩ := Option.map_eq_some_iff.mp hiov.symm
      have hbytes : refBytes s' r = slice s'.memory p.1 (p.2 + r.offset) r.length := by
        rw [refBytes, hbase r List.mem_cons_self, hp]
        rfl
      rw [List.flatMap_cons, List.flatMap_cons, hbytes,
        ih hiovs fun r' hr' => hbase r' (List.mem_cons_of_mem r hr')]

theorem bytes_length {refs : List BlockRef} (hlive : ∀ r ∈ refs, ∃ k, s.blocks r.block = some k) :
    (refs.flatMap (refBytes s)).length = length refs := by
  rw [length, List.length_flatMap]
  congr 1
  refine List.map_congr_left fun r hr => ?_
  obtain ⟨k, hk⟩ := hlive r hr
  exact refBytes_length hk

theorem Undisturbed.base {hand hand' : List ℕ} (h : Undisturbed x s s') (hs : Inv s hand)
    (hs' : Inv s' hand') {r : BlockRef} (hr : r ∈ s.bufs x) :
    s'.base r.block = s.base r.block := by
  obtain ⟨k, hk⟩ := hs.live_ref hr
  obtain ⟨k', hk'⟩ := hs'.live_ref (h.buf.symm ▸ hr : r ∈ s'.bufs x)
  obtain ⟨k₀, hk₀, hkind⟩ := h.kinds r.block k' (hs.shape.fresh r.block k hk) hk'
  rw [base_eq hk', base_eq hk₀, hkind]

/-- The memory that an address is in is allocated. -/
theorem Inv.backing_live {hand : List ℕ} (h : Inv s hand) {r : BlockRef} {k : Block}
    (hk : s.blocks r.block = some k) : (s.blocks (k.kind.base r.block).1).isSome := by
  cases hkind : k.kind with
  | own =>
    show (s.blocks r.block).isSome
    rw [hk]
    rfl
  | user target start =>
    have htarget : target ∈ s.held (.deleter r.block) := by
      show target ∈ s.targets r.block
      rw [targets_eq hk, hkind]
      exact List.mem_singleton_self target
    exact h.counted.isSome_iff.mpr (Or.inl ⟨_, htarget⟩)

theorem length_take_lt {refs : List BlockRef} (hpos : ∀ r ∈ refs, 0 < r.length) {n : ℕ}
    (hn : n < refs.length) : length (refs.take n) < length refs := by
  have hsplit : length refs = length (refs.take n) + length (refs.drop n) := by
    rw [← length_append, List.take_append_drop]
  obtain ⟨r, rest, hdrop⟩ := List.exists_cons_of_length_pos (l := refs.drop n) (by
    rw [List.length_drop]
    omega)
  have hr := hpos r (List.mem_of_mem_drop (hdrop ▸ List.mem_cons_self : r ∈ refs.drop n))
  rw [hsplit, hdrop, length_cons]
  omega

theorem Models.spares {hand : List ℕ} {a : Spec} {o : Op} (h : Models s hand a)
    (hx : o.Spares x s) : (a.op o).bufs x = a.bufs x := by
  cases o with
  | call l =>
    cases l with
    | suspend t i y => rfl
    | complete i res data => rfl
    | resume i =>
      show (a.step (.resume i)).bufs x = a.bufs x
      rw [Spec.step]
      split
      · rename_i y res bytes hreads
        rw [← h.reads i] at hreads
        obtain ⟨r, hi, hr⟩ := Option.map_eq_some_iff.mp hreads
        have hbuf : r.buf = y := congrArg Prod.fst hr
        exact Spec.setBuf_of_ne fun hy => hx r hi (hy.symm.trans hbuf.symm)
      · rfl
    | append t y data => exact Spec.setBuf_of_ne (Ne.symm hx)
    | appendBuf y z => exact Spec.setBuf_of_ne (Ne.symm hx)
    | popFront y n => exact Spec.setBuf_of_ne (Ne.symm hx)
    | clear y => exact Spec.setBuf_of_ne (Ne.symm hx)
    | exit t => rfl
  | popBack y n => exact Spec.setBuf_of_ne (Ne.symm hx)
  | cutn y z n =>
    exact (Spec.setBuf_of_ne (Ne.symm hx.1)).trans (Spec.setBuf_of_ne (Ne.symm hx.2))
  | appendTo y z n pos => exact Spec.setBuf_of_ne (Ne.symm hx)
  | assign y z => exact Spec.setBuf_of_ne (Ne.symm hx)
  | appendMovable y z =>
    exact (Spec.setBuf_of_ne (Ne.symm hx.2)).trans (Spec.setBuf_of_ne (Ne.symm hx.1))
  | swap y z =>
    exact (Spec.setBuf_of_ne (Ne.symm hx.2)).trans (Spec.setBuf_of_ne (Ne.symm hx.1))
  | resize t y n c => exact Spec.setBuf_of_ne (Ne.symm hx)

theorem spared_run (hcap : 0 < cap) {a : Spec} {os : List Op} (h : Models s [] a)
    (hrun : StepSystem.run (IOBuf.op cap) s os = some s')
    (hspares : StepSystem.Meets (IOBuf.op cap) (fun s o => o.Spares x s) s os) :
    Inv s' [] ∧ Undisturbed x s s' ∧ contents s' x = contents s x := by
  have hall : (∃ a, Models s' [] a) ∧ contents s' x = contents s x := by
    refine StepSystem.run_invariant_of_meets
      (I := fun m => (∃ a, Models m [] a) ∧ contents m x = contents s x) ?_ ⟨⟨a, h⟩, rfl⟩ hspares
      hrun
    rintro m o m' ⟨⟨a, hm⟩, hbytes⟩ ho hstep
    have hm' := hm.op hcap hstep
    refine ⟨⟨_, hm'⟩, ?_⟩
    rw [hm'.contents, hm.spares ho, ← hm.contents, hbytes]
  obtain ⟨⟨a', hmodels⟩, hcontents⟩ := hall
  exact ⟨hmodels.inv, .run hrun hspares, hcontents⟩

theorem initLoop_congr {refs : List BlockRef} {iovs : List Iovec} {total : ℕ}
    (h : ∀ r ∈ refs, s'.base r.block = s.base r.block) :
    initLoop s' refs iovs total = initLoop s refs iovs total := by
  induction refs generalizing iovs total with
  | nil => rfl
  | cons r refs ih =>
    have hblock : backingBlock s' r = backingBlock s r := by
      rw [backingBlock, h r List.mem_cons_self, backingBlock]
    rw [initLoop, initLoop, hblock]
    cases backingBlock s r with
    | none => rfl
    | some iov => exact ih fun r' hr' => h r' (List.mem_cons_of_mem r hr')

/-- The addresses stay. -/
theorem Undisturbed.initIov {hand hand' : List ℕ} (h : Undisturbed x s s') (hs : Inv s hand)
    (hs' : Inv s' hand') : initIov s' x = initIov s x := by
  rw [IOBuf.initIov, IOBuf.initIov, h.buf, initLoop_congr fun r hr => ?_]
  exact h.base hs hs' (List.mem_of_mem_take hr)

/-- The awaiter of a buffer. -/
theorem Inv.initIov {hand : List ℕ} (h : Inv s hand) (x : ℕ) :
    ∃ w, initIov s x = some w ∧
      w.submit.bytes s.memory = (contents s x).take w.totalLen ∧
      w.totalLen = length ((s.bufs x).take (min (s.bufs x).length kMaxIovCount)) ∧
      ∀ iov ∈ w.submit.iovs, (s.blocks iov.block).isSome := by
  generalize hcount : min (s.bufs x).length kMaxIovCount = iovCount
  have hmem : ∀ r ∈ (s.bufs x).take iovCount, r ∈ s.bufs x := fun r hr => List.mem_of_mem_take hr
  have hlive : ∀ r ∈ (s.bufs x).take iovCount, ∃ k, s.blocks r.block = some k :=
    fun r hr => h.live_ref (hmem r hr)
  obtain ⟨iovs, hloop, hiovs⟩ := initLoop_spec hlive [] 0
  rw [List.nil_append, Nat.zero_add] at hloop
  refine ⟨⟨iovs, length ((s.bufs x).take iovCount)⟩, ?_, ?_, rfl, fun iov hiov => ?_⟩
  · rw [IOBuf.initIov, hcount, hloop]
    rfl
  · have hsplit : contents s x = ((s.bufs x).take iovCount).flatMap (refBytes s) ++
        ((s.bufs x).drop iovCount).flatMap (refBytes s) := by
      rw [contents, ← List.flatMap_append, List.take_append_drop]
    rw [Submission.bytes, WriteAwaiter.submit_iovs, bytes_eq hiovs fun _ _ => rfl, hsplit,
      List.take_left' (bytes_length hlive)]
  · rw [WriteAwaiter.submit_iovs] at hiov
    have hsome : some iov ∈ ((s.bufs x).take iovCount).map (backingBlock s) :=
      hiovs ▸ List.mem_map_of_mem hiov
    obtain ⟨r, hr, hblock⟩ := List.mem_map.mp hsome
    obtain ⟨p, hp, rfl⟩ := Option.map_eq_some_iff.mp hblock
    obtain ⟨k, hk⟩ := hlive r hr
    have hbase : k.kind.base r.block = p := by
      rw [base_eq hk] at hp
      exact Option.some.inj hp
    exact hbase ▸ h.backing_live hk

theorem Inv.length_pos {hand : List ℕ} (h : Inv s hand) : ∀ r ∈ s.bufs x, 0 < r.length := by
  intro r hr
  obtain ⟨k, hk⟩ := h.live_ref hr
  exact (h.shape.refs x r hr k hk).1

theorem Inv.totalLen_le {hand : List ℕ} (h : Inv s hand) (n : ℕ) :
    length ((s.bufs x).take n) ≤ (contents s x).length := by
  rw [contents_length h, length, List.map_take]
  exact (List.take_sublist _ _).sum_le_sum fun _ _ => Nat.zero_le _

/-- Some of the bytes are submitted, if there are any. -/
theorem Inv.totalLen_eq_zero {hand : List ℕ} (h : Inv s hand) :
    length ((s.bufs x).take (min (s.bufs x).length kMaxIovCount)) = 0 ↔ contents s x = [] := by
  rw [← List.length_eq_zero_iff, contents_length h]
  cases hrefs : s.bufs x with
  | nil => rw [List.take_nil]
  | cons r rest =>
    have hr := h.length_pos r (hrefs ▸ List.mem_cons_self)
    obtain ⟨n, hn⟩ : ∃ n, min (r :: rest).length kMaxIovCount = n + 1 :=
      Nat.exists_eq_succ_of_ne_zero (by
        rw [List.length_cons, kMaxIovCount]
        omega)
    rw [hn, List.take_succ_cons, length_cons, length_cons]
    omega

/-- **The kernel writes what the buffer has.**  In every run, the addresses that the awaiter takes
of a buffer stay allocated, and the bytes there stay the first bytes of the buffer, as long as no
call changes this buffer, whatever is read, appended, cut and freed elsewhere.  They are all of
its bytes if it has at most `kMaxIovCount` references, and not all otherwise; nothing is submitted
only if there are none. -/
theorem write_stable (hcap : 0 < cap) {os os' : List Op}
    (hrun : StepSystem.run (IOBuf.op cap) init os = some s)
    (hlater : StepSystem.run (IOBuf.op cap) s os' = some s')
    (hspares : StepSystem.Meets (IOBuf.op cap) (fun s o => o.Spares x s) s os') :
    ∃ w, initIov s x = some w ∧
      w.submit.bytes s'.memory = (contents s x).take w.totalLen ∧
      (∀ iov ∈ w.submit.iovs, (s'.blocks iov.block).isSome) ∧
      (w.awaitReady = true ↔ contents s x = []) ∧
      ((s.bufs x).length ≤ kMaxIovCount → w.totalLen = (contents s x).length) ∧
      (kMaxIovCount < (s.bufs x).length → w.totalLen < (contents s x).length) := by
  have hinv := (Models.opRun hcap hrun).inv
  obtain ⟨hinv', hsame, hcontents⟩ := spared_run hcap (Models.opRun hcap hrun) hlater hspares
  have hlen : (contents s x).length = length (s.bufs x) := contents_length hinv
  obtain ⟨w, hw, -, htotal, -⟩ := hinv.initIov x
  obtain ⟨w', hw', hbytes, -, hallocated⟩ := hinv'.initIov x
  obtain rfl := Option.some.inj (hw.symm.trans ((hsame.initIov hinv hinv').symm.trans hw'))
  rw [hcontents] at hbytes
  refine ⟨w, hw, hbytes, hallocated, ?_, fun hfew => ?_, fun hmany => ?_⟩
  · rw [WriteAwaiter.awaitReady, decide_eq_true_iff, htotal]
    exact hinv.totalLen_eq_zero
  · rw [htotal, Nat.min_eq_left hfew, List.take_length, hlen]
  · rw [htotal, Nat.min_eq_right hmany.le, hlen]
    exact length_take_lt hinv.length_pos hmany

/-- The buffer `1` shares its block with a read that is completed while it is written, and with a
buffer that is cleared and appended to. -/
theorem write_stable_shared_block :
    ∃ s s', StepSystem.run (IOBuf.op 8) init
        [.call (.append 0 0 [1, 2]), .call (.append 0 1 [3, 4, 5]), .call (.append 0 0 [6]),
          .call (.appendBuf 1 0)] = some s ∧
      StepSystem.run (IOBuf.op 8) s
        [.call (.suspend 0 0 0), .call (.complete 0 2 [8, 9]), .call (.clear 0), .call (.resume 0),
          .call (.append 0 0 [7, 7, 7])] = some s' ∧
      ∃ w, initIov s 1 = some w ∧ w.submit.bytes s'.memory = [3, 4, 5, 1, 2, 6] ∧
        w.awaitReady = false := by
  have hrun : ∃ s, StepSystem.run (IOBuf.op 8) init
      [.call (.append 0 0 [1, 2]), .call (.append 0 1 [3, 4, 5]), .call (.append 0 0 [6]),
        .call (.appendBuf 1 0)] = some s ∧
      ((StepSystem.run (IOBuf.op 8) s
        [.call (.suspend 0 0 0), .call (.complete 0 2 [8, 9]), .call (.clear 0), .call (.resume 0),
          .call (.append 0 0 [7, 7, 7])]).isSome = true ∧
        StepSystem.Meets (IOBuf.op 8) (fun s o => o.Spares 1 s) s
          [.call (.suspend 0 0 0), .call (.complete 0 2 [8, 9]), .call (.clear 0),
            .call (.resume 0), .call (.append 0 0 [7, 7, 7])] ∧
        contents s 1 = [3, 4, 5, 1, 2, 6] ∧ (s.bufs 1).length ≤ kMaxIovCount) :=
    StepSystem.exists_of_run_any (by decide +kernel)
  obtain ⟨s, hs, hsome, hspares, hbytes, hfew⟩ := hrun
  obtain ⟨s', hs'⟩ := Option.isSome_iff_exists.mp hsome
  obtain ⟨w, hw, hwritten, -, hready, hall, -⟩ := write_stable (by decide) hs hs' hspares
  refine ⟨s, s', hs, hs', w, hw, ?_, ?_⟩
  · rw [hwritten, hall hfew, hbytes]
    rfl
  · rw [← Bool.not_eq_true, hready, hbytes]
    exact List.cons_ne_nil _ _

end Write

end IOBuf
