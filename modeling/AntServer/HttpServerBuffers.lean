/-
What a handler sees of its buffers.

`HttpParser::parse` goes through the blocks of a buffer, so it matters not only which bytes a
buffer has but where they are cut.  Both depend on the references in the buffer and on the bytes
that these show, and both are changed by calls on this buffer alone.

* `blocks`, `blocks_eq` — the blocks are known from the bytes and from where they are cut;
* `Same`, `Same.of_spares` — a call on other buffers leaves them;
* `resume_blocks` — a read appends one block;
* `popFront_blocks` — `pop_front` cuts the blocks as `HttpHandler.popFront` does.
-/
import AntServer.HttpServer

namespace HttpServer

open HttpParser (Bytes)

/-! ### What there is to see of a buffer -/

/-- The blocks of a buffer, with their bytes. -/
def blocks (b : IOBuf.State) (y : ℕ) : List Bytes := (b.bufs y).map (IOBuf.refBytes b)

section Blocks

variable {b b' : IOBuf.State} {y n : ℕ} {hand : List ℕ} {B : List Bytes}

theorem blocks_flatten (b : IOBuf.State) (y : ℕ) : (blocks b y).flatten = IOBuf.contents b y :=
  List.flatMap_def.symm

theorem map_length_blocks (h : IOBuf.Inv b hand) :
    (blocks b y).map List.length = (b.bufs y).map IOBuf.BlockRef.length := by
  rw [blocks, List.map_map]
  refine List.map_congr_left fun r hr => ?_
  obtain ⟨k, hk⟩ := h.live_ref hr
  exact IOBuf.refBytes_length hk

/-- The blocks are known from the bytes and from where they are cut. -/
theorem blocks_eq (h : IOBuf.Inv b hand) (hbytes : IOBuf.contents b y = B.flatten)
    (hcuts : (b.bufs y).map IOBuf.BlockRef.length = B.map List.length) : blocks b y = B := by
  rw [List.eq_iff_flatten_eq, blocks_flatten, map_length_blocks h]
  exact ⟨hbytes, hcuts⟩

theorem blocks_nonempty (h : IOBuf.Inv b hand) : ∀ blk ∈ blocks b y, blk ≠ [] := by
  intro blk hblk
  obtain ⟨r, hr, rfl⟩ := List.mem_map.mp hblk
  obtain ⟨k, hk⟩ := h.live_ref hr
  rw [← List.length_pos_iff, IOBuf.refBytes_length hk]
  exact (h.shape.refs y r hr k hk).1

theorem backingBlock_eq (b : IOBuf.State) (y i : ℕ) :
    backingBlock b y i = (blocks b y)[i]?.getD [] := by
  rw [backingBlock, blocks, List.getElem?_map]
  cases (b.bufs y)[i]? with
  | none => rfl
  | some r => rfl

/-- A step leaves what there is to see of a buffer, and the addresses of its blocks. -/
structure Same (y : ℕ) (b b' : IOBuf.State) : Prop where
  blocks : blocks b' y = blocks b y
  iov : IOBuf.initIov b' y = IOBuf.initIov b y

theorem Same.refl (y : ℕ) (b : IOBuf.State) : Same y b b := ⟨rfl, rfl⟩

theorem Same.contents (h : Same y b b') : IOBuf.contents b' y = IOBuf.contents b y := by
  rw [← blocks_flatten, h.blocks, blocks_flatten]

theorem Same.of_undisturbed {hand' : List ℕ} (h : IOBuf.Undisturbed y b b') (hb : IOBuf.Inv b hand)
    (hb' : IOBuf.Inv b' hand') (hbytes : IOBuf.contents b' y = IOBuf.contents b y) :
    Same y b b' := by
  refine ⟨?_, h.initIov hb hb'⟩
  refine blocks_eq hb' (hbytes.trans (blocks_flatten b y).symm) ?_
  rw [h.buf, map_length_blocks hb]

end Blocks

/-! ### Calls on buffers -/

section Calls

variable {b b' : IOBuf.State} {cap y n : ℕ} {l : IOBuf.Label}

theorem inv_call (hcap : 0 < cap) (h : IOBuf.Inv b []) (hs : IOBuf.step cap b l = some b') :
    IOBuf.Inv b' [] ∧ b'.spec = b.spec.step l := by
  have hm := IOBuf.Models.step hcap ⟨h, rfl⟩ hs
  exact ⟨hm.inv, hm.spec⟩

/-- A call that spares a buffer. -/
theorem Same.of_spares (hcap : 0 < cap) (h : IOBuf.Inv b [])
    (hs : IOBuf.step cap b l = some b') (hy : (IOBuf.Op.call l).Spares y b) : Same y b b' := by
  obtain ⟨h', hspec⟩ := inv_call hcap h hs
  refine .of_undisturbed (.step hs hy) h h' ?_
  have hspared := IOBuf.Models.spares (s := b) (a := b.spec) ⟨h, rfl⟩ hy
  calc IOBuf.contents b' y = b'.spec.bufs y := rfl
    _ = (b.spec.step l).bufs y := by rw [hspec]
    _ = IOBuf.contents b y := hspared

theorem contents_clear (h : IOBuf.Inv b []) : IOBuf.contents (IOBuf.clear y b) y = [] :=
  (IOBuf.Models.clear ⟨h, rfl⟩).contents.trans (IOBuf.Spec.setBuf_self ..)

theorem contents_append (hcap : 0 < cap) (h : IOBuf.Inv b []) (t : ℕ) (data : Bytes) :
    IOBuf.contents (IOBuf.append cap t y data b) y = IOBuf.contents b y ++ data :=
  (IOBuf.Models.append ⟨h, rfl⟩ hcap data).contents.trans (IOBuf.Spec.setBuf_self ..)

/-! ### A read -/

/-- A new user data block is in no buffer. -/
theorem appendUserData_buf {x target start : ℕ} (hn : 0 < n)
    (hold : ∀ r ∈ b.bufs x, r.block < b.fresh) :
    (IOBuf.appendUserData x target start n b).bufs x = b.bufs x ++ [⟨0, n, b.fresh⟩] := by
  rw [IOBuf.appendUserData, if_neg hn.ne']
  rcases IOBuf.pushBackRef_cases true x ⟨0, n, b.fresh⟩
      { b.setBlock b.fresh (some ⟨1, n, n, .user target start⟩) with fresh := b.fresh + 1 }
    with ⟨back, hends, -⟩ | heq
  · have hback : back ∈ b.bufs x := List.mem_of_getLast? hends.1
    exact absurd hends.2.1 (hold back hback).ne
  · rw [heq]
    exact IOBuf.State.setBuf_self ..

/-- The bytes received become one more block. -/
theorem resume_blocks {i : ℕ} {r : IOBuf.Read} {res : ℤ} {bytes : Bytes} (h : IOBuf.Inv b [])
    (hs : IOBuf.awaitResume i b = some b') (hi : b.reads i = some r)
    (hres : r.result = some (res, bytes)) (hpos : 0 < res) :
    blocks b' r.buf = blocks b r.buf ++ [bytes] ∧ bytes ≠ [] := by
  obtain ⟨r', res', bytes', hi', hres', hlen, hm⟩ := IOBuf.Models.awaitResume ⟨h, rfl⟩ hs
  obtain rfl := Option.some.inj (hi.symm.trans hi')
  obtain ⟨rfl, rfl⟩ := Prod.mk.inj (Option.some.inj (hres.symm.trans hres'))
  obtain ⟨k, hk⟩ := h.live_read hi
  obtain ⟨w, res', bytes', hw, hwres, heq, -⟩ := IOBuf.awaitResume_cases hs
  obtain rfl := Option.some.inj (hi.symm.trans hw)
  obtain ⟨rfl, rfl⟩ := Prod.mk.inj (Option.some.inj (hres.symm.trans hwres))
  have hbytes : IOBuf.contents b' r.buf = IOBuf.contents b r.buf ++ bytes :=
    hm.contents.trans (IOBuf.Spec.setBuf_self ..)
  have hread : IOBuf.Undisturbed r.buf b (b.setRead i none) := .of_blocks rfl rfl rfl
  have hinc := hread.trans (.incRef r.block)
  have hbuf : b'.bufs r.buf = b.bufs r.buf ++
      [⟨0, res.toNat, (IOBuf.incRef (b.setRead i none) r.block).fresh⟩] := by
    rw [heq hpos k hk, (IOBuf.Undisturbed.decRef r.block).buf,
      appendUserData_buf (Int.lt_toNat.mpr hpos) ?_, hinc.buf]
    intro ref href
    rw [hinc.buf] at href
    obtain ⟨k', hk'⟩ := h.live_ref href
    exact (h.shape.fresh ref.block k' hk').trans_le hinc.fresh
  constructor
  · refine blocks_eq hm.inv ?_ ?_
    · rw [List.flatten_append, blocks_flatten, hbytes, List.flatten_singleton]
    · rw [hbuf, List.map_append, List.map_append, map_length_blocks h, List.map_singleton,
        List.map_singleton, hlen]
  · rw [← List.length_pos_iff, hlen]
    exact Int.lt_toNat.mpr hpos

/-! ### `pop_front` -/

theorem popFront_flatten (n : ℕ) (B : List Bytes) :
    (HttpHandler.popFront n B).flatten = B.flatten.drop n := by
  induction B generalizing n with
  | nil => exact List.drop_nil.symm
  | cons c B ih =>
    rw [HttpHandler.popFront, List.flatten_cons, List.drop_append]
    split
    next hle => rw [ih, List.drop_eq_nil_of_le hle, List.nil_append]
    next hlt =>
      rw [List.flatten_cons, Nat.sub_eq_zero_of_le (Nat.le_of_not_le hlt), List.drop_zero]

/-- The loop of `pop_front` cuts the references where the blocks are cut. -/
theorem popRefs_cuts {refs : List IOBuf.BlockRef} {B : List Bytes}
    (hcuts : refs.map IOBuf.BlockRef.length = B.map List.length) (hB : ∀ c ∈ B, c ≠ []) :
    (IOBuf.popRefs n refs).1.map IOBuf.BlockRef.length =
      (HttpHandler.popFront n B).map List.length := by
  induction refs generalizing n B with
  | nil =>
    rw [List.map_nil] at hcuts
    rw [List.map_eq_nil_iff.mp hcuts.symm]
    rfl
  | cons r refs ih =>
    cases B with
    | nil => cases hcuts
    | cons c B =>
      rw [List.map_cons, List.map_cons, List.cons.injEq] at hcuts
      obtain ⟨hr, hrest⟩ := hcuts
      rw [IOBuf.popRefs]
      split
      next hzero =>
        rw [hzero, HttpHandler.popFront_zero hB, List.map_cons, List.map_cons, hr, hrest]
      next hzero =>
        split
        next hlt =>
          rw [HttpHandler.popFront, if_neg (by omega), List.map_cons, List.map_cons, hrest,
            List.length_drop, ← hr]
        next hge =>
          rw [HttpHandler.popFront, if_pos (by omega), ← hr]
          exact ih hrest fun c' hc' => hB c' (List.mem_cons_of_mem c hc')

theorem popFront_blocks (h : IOBuf.Inv b []) :
    blocks (IOBuf.popFront y n b) y = HttpHandler.popFront n (blocks b y) := by
  have hmodels : IOBuf.Models b [] b.spec := ⟨h, rfl⟩
  have hm := hmodels.popFront (x := y) n
  have hB := blocks_nonempty (y := y) h
  have hbytes : IOBuf.contents (IOBuf.popFront y n b) y = (IOBuf.contents b y).drop n :=
    hm.contents.trans (IOBuf.Spec.setBuf_self ..)
  refine blocks_eq hm.inv ?_ ?_
  · rw [popFront_flatten, blocks_flatten]
    exact hbytes
  rw [IOBuf.popFront]
  split
  next hall =>
    have hnil : HttpHandler.popFront n (blocks b y) = [] := by
      refine List.eq_nil_iff_forall_not_mem.mpr fun c hc => ?_
      have hflat : (HttpHandler.popFront n (blocks b y)).flatten = [] := by
        rw [popFront_flatten, blocks_flatten, List.drop_eq_nil_iff, IOBuf.contents_length h]
        exact hall
      exact HttpHandler.popFront_nonempty hB c hc (List.flatten_eq_nil_iff.mp hflat c hc)
    rw [hnil, IOBuf.clear, (IOBuf.Undisturbed.decRefAll _).buf, IOBuf.State.setBuf_self]
    rfl
  next hpart =>
    show ((IOBuf.decRefAll _ _).bufs y).map _ = _
    rw [(IOBuf.Undisturbed.decRefAll _).buf, IOBuf.State.setBuf_self]
    exact popRefs_cuts (map_length_blocks h).symm hB

end Calls

end HttpServer
